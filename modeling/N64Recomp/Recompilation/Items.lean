import N64Recomp.CGenerator.Operands
import N64Recomp.Context.Names
import N64Recomp.Data.SortedSet
import N64Recomp.Emit.Basic
import N64Recomp.Recompilation.Analysis

/-!
# What the recompiler writes

The driver writes to two outputs at once: it calls the methods of a generator, and it prints C text
to the output file. What one function's translation writes is the sequence of both. The layout of
the text (indentation, blank lines) and the disassembly in comments are left out.

## Main definitions

* `Label`, `Call`, `Raw`, `Item`: the labels, the calls, the printed text, and either of these
* `Statics`: the static functions requested so far
* `Recompiler`, `Translation`: what the translation of one function works with
-/

namespace N64Recomp

/-- The labels of an emitted body: `L_{:08X}`, `after_{}` and `skip_{}`. -/
inductive Label
  | at_ (vram : BitVec 32)
  | after (n : Nat)
  | skip (n : Nat)
  deriving DecidableEq, Repr

/-- The local labels and the return address that a call hands to the tail-call handling. -/
structure CallLabels where
  localLabels : List (BitVec 32)
  returnVram : BitVec 32
  deriving DecidableEq, Repr

/-- The calls of the generator's methods. -/
inductive Call
  | functionStart (name : Str)
  | functionEnd
  | comment (vram : BitVec 32)
  | functionCallLookup (addr : BitVec 32) (labels : CallLabels)
  | functionCallByRegister (reg : Fin 32) (labels : CallLabels)
  | functionCallReferenceSymbol (sectionIndex : BitVec 16) (symbolIndex : Nat)
      (targetSectionOffset : BitVec 32) (labels : CallLabels)
  | functionCall (functionIndex : Nat) (labels : CallLabels)
  | namedFunctionCall (name : Str) (labels : CallLabels)
  | goto (target : Label)
  | label (l : Label)
  | jtblAddendDeclaration (jtbl : JumpTable) (reg : Fin 32)
  | branchCondition (op : ConditionalBranchOp) (ctx : InstructionContext)
  | branchClose
  | switch (jtbl : JumpTable) (reg : Fin 32)
  | case_ (index : Nat) (target : Label)
  | switchError (instrVram jtblVram : BitVec 32)
  | switchClose
  | return_ (functionIndex : Nat)
  | checkFr (fpr : Fin 32)
  | checkNan (fpr : Fin 32) (isDouble : Bool)
  | cop0StatusRead (reg : Fin 32)
  | cop0StatusWrite (reg : Fin 32)
  | cop1CsRead (reg : Fin 32)
  | cop1CsWrite (reg : Fin 32)
  | muldiv (id : InstrId) (reg1 reg2 : Fin 32)
  | syscall (instrVram : BitVec 32)
  | doBreak (instrVram : BitVec 32)
  | pauseSelf
  | triggerEvent (eventIndex : BitVec 32)
  | binaryOp (op : BinaryOp) (ctx : InstructionContext)
  | unaryOp (op : UnaryOp) (ctx : InstructionContext)
  | storeOp (op : StoreOp) (ctx : InstructionContext)
  deriving DecidableEq, Repr

/-- The C text that the driver prints itself. -/
inductive Raw
  | hook (text : Str)
  | traceEntry
  | traceReturn
  /-- `if (ctx->dispatch_entry_target != 0) { ... switch (recomp_dispatch_entry) {` -/
  | dispatchOpen
  /-- `case 0x{vram}u: goto L_{vram};` -/
  | dispatchCase (vram : BitVec 32)
  /-- The default case, which rejects the entry and returns. -/
  | dispatchReject
  /-- `goto L_{vram};` -/
  | gotoEntry (vram : BitVec 32)
  /-- `ctx->r{reg} = 0x{value}u;` -/
  | link (reg : Fin 32) (value : BitVec 32)
  /-- `{ gpr jr_target = ctx->r31;` -/
  | jrOpen (vram : BitVec 32)
  /-- `uint32_t jr_target_vram = U32(jr_target);`, moved from the section's base to its link
  address. -/
  | jrTargetVram (vram : BitVec 32) (sectionIndex : BitVec 16) (ramAddr size : BitVec 32)
  /-- `switch (jr_target_vram) {` -/
  | jrSwitch (vram : BitVec 32)
  /-- `case 0x{label}u: goto L_{label};` -/
  | jrCase (label : BitVec 32)
  /-- `default: break; }` -/
  | jrSwitchClose
  /-- `if (jr_target_vram != ctx->host_return_target) { recomp_request_tailcall(...); return; }` -/
  | jrHostReturn (vram : BitVec 32) (trace : Bool)
  /-- `}` -/
  | jrClose
  /-- `if (0x{vram}u == ctx->host_return_target) { return; }` -/
  | hostReturn (vram : BitVec 32) (trace : Bool)
  /-- `recomp_request_tailcall(ctx, (gpr)(int32_t)ctx->r{reg});` -/
  | requestTailcallRegister (reg : Fin 32)
  /-- `recomp_request_tailcall(ctx, (gpr)(int32_t)0x{vram}u);` -/
  | requestTailcallAddress (vram : BitVec 32)
  /-- `recomp_request_tailcall_func_target(ctx, {name}, 0x{vram}u);` -/
  | requestTailcallFunction (name : Str) (vram : BitVec 32)
  /-- `return;` -/
  | return_
  | unhandledCall (instrVram targetVram : BitVec 32)
  | unhandledBranch (instrVram targetVram : BitVec 32)
  | unhandledInstruction (instrVram : BitVec 32)
  | unhandledCop0Read (reg : Fin 32) (instrVram : BitVec 32) (cop0 : Fin 32)
  | unhandledCop0Write (instrVram : BitVec 32) (cop0 : Fin 32) (reg : Fin 32)
  /-- `ctx->r{reg} = (int32_t)ctx->cop0_regs[{cop0}];` -/
  | cop0Read (reg cop0 : Fin 32)
  /-- `ctx->cop0_regs[{cop0}] = (uint32_t)ctx->r{reg};` -/
  | cop0Write (cop0 reg : Fin 32)
  /-- `RECOMP_LOOP_CHECKPOINT_VRAM(0x{vram}u)` -/
  | loopCheckpoint (vram : BitVec 32)
  deriving DecidableEq, Repr

/-- What the driver writes. -/
inductive Item
  | call (c : Call)
  | raw (r : Raw)
  deriving DecidableEq, Repr

/-- The static functions requested so far, by section. -/
abbrev Statics := List (List (BitVec 32))

/-- `static_funcs_out[section_index].push_back(vram)`. -/
def Statics.push (statics : Statics) (sectionIndex : Nat) (vram : BitVec 32) : Statics :=
  statics.modify sectionIndex (· ++ [vram])

/-- Why a translation ends without returning. -/
inductive Abort
  | exception (e : GeneratorError)
  /-- A table is indexed outside of its bounds. -/
  | outOfBounds
  deriving DecidableEq, Repr

/-- The translations: they write items and request static functions. -/
abbrev Emission := Emit Statics Item Abort

/-- What the recompiler works with: the disassembly library, the generator (which throws on some
calls), the context, and the answers of `discover_static_code_entrypoint`. -/
structure Recompiler where
  decoder : Decoder
  generator : Call → Except Abort Unit
  context : Context
  discoverStaticCodeEntrypoint : Nat → BitVec 32 → Bool

/-- What the translation of the instructions of one function works with. -/
structure Translation extends Recompiler where
  func : Function
  funcIndex : Nat
  tagReferenceRelocs : Bool
  jumpTables : List JumpTable
  branchLabels : SortedSet (BitVec 32)
  localTailcallLabels : SortedSet (BitVec 32)
  instructions : List InstructionCpu

/-- `func.vram + func.words.size() * sizeof(func.words[0])`, as a `uint32_t`. -/
def Function.vramEnd (func : Function) : BitVec 32 :=
  BitVec.ofNat 32 (func.vram.toNat + func.byteSize)

/-- `vram >= func.vram && vram < func_vram_end`. -/
def Function.contains (func : Function) (vram : BitVec 32) : Bool :=
  func.vram ≤ vram ∧ vram < func.vramEnd

end N64Recomp
