import N64Recomp.RSPRecomp.Dispatcher
import N64Recomp.RSPRecomp.Instruction

/-!
# The emitted C++

The functions that the RSP recompiler prints, as lines of labels, statements and jumps. The delay
slot of a branch is printed again inside the branch, without its label.

Comments, the text of messages and the declarations at the top of a function are left out. The
sets of targets are lists; the order of the cases that are printed from an `unordered_set` is not
specified, and is taken as that of the list.

## Main definitions

* `Label`, `Stmt`, `Line`: the emitted C++
* `collectBranchTargets`, `collectResumeTargets`
* `emitBody`, `emitInstruction`: the lines of an instruction
* `emitRecompiledFunction`, `emitMicrocode`: the functions of the generated file
-/

namespace N64Recomp.RSPRecomp

open CLang

/-- The labels of a function: `L_%04X`, `R_%04X`, `R_%04X_delay` and two fixed ones. -/
inductive Label
  | code (vram : BitVec 32)
  | resume (vram : BitVec 32)
  | resumeDelay (vram : BitVec 32)
  | doIndirectJump
  | doOverlaySwap
  deriving DecidableEq, Repr

/-- The objects of a function. `notALiteral` is a number that is printed with blanks after `0x`. -/
inductive Var
  | gpr (n : BitVec 5)
  | jumpTarget
  | dmaMemAddress
  | notALiteral
  deriving DecidableEq, Repr

/-- The macros of the runtime that return a value. -/
inductive Macro
  | S32 | U32 | RSP_SIGNED | RSP_ADD32 | RSP_SUB32
  | RSP_MEM_W_LOAD | RSP_MEM_H_LOAD | RSP_MEM_HU_LOAD | RSP_MEM_B | RSP_MEM_BU
  deriving DecidableEq, Repr

abbrev RspExpr := Expr Var Macro

/-- The width of a store. -/
inductive StoreSize
  | word | half | byte
  deriving DecidableEq, Repr

/-- A statement. A register is assigned by its printed name, which is `0` for register 0; a byte is
stored by an assignment to `RSP_MEM_B`. -/
inductive Stmt
  | assign (reg : BitVec 5) (e : RspExpr)
  | setJumpTarget (e : RspExpr)
  | store (size : StoreSize) (offset base value : RspExpr)
  | setResume (address : BitVec 32) (delay : Bool)
  | cop0Write (action : Str) (value : RspExpr)
  | vectorOp (word : BitVec 32)
  | clearWatchdog
  deriving DecidableEq, Repr

inductive RspExitReason
  | unsupported | broke | imemOverrun | unhandledJumpTarget | unhandledResumeTarget | swapOverlay
  | watchdog
  deriving DecidableEq, Repr

/-- A line of a function. A watchdog records an address and returns after too many labels. The switch on the resume address has the cases in a delay slot, then the
others; the switch on the jump target has one case for each address. -/
inductive Line
  | label (l : Label)
  | watchdog (pc : BitVec 32)
  | stmt (s : Stmt)
  | openIf (c : RspExpr)
  | close
  | goto (l : Label)
  | ret (reason : RspExitReason)
  | resumeSwitch (delay nonDelay : List (BitVec 32))
  | jumpSwitch (targets : List (BitVec 32))
  deriving DecidableEq, Repr

/-! ## Targets -/

structure BranchTargets where
  direct : List (BitVec 32)
  indirect : List (BitVec 32)
  deriving DecidableEq, Repr

/-- The set of labels. -/
def BranchTargets.all (targets : BranchTargets) : List (BitVec 32) :=
  targets.direct ++ targets.indirect

/-- The targets of branches and jumps. -/
def directTargets (instrs : List Instruction) : List (BitVec 32) :=
  (instrs.filter fun i => i.id.isJumpWithAddress || i.id.isBranch).map (·.branchTarget)

/-- The return addresses of an instruction that links. -/
def linkTargets (instrs : List Instruction) : List (BitVec 32) :=
  (instrs.filter (·.id.doesLink)).map (·.linkAddress)

/-- The constants in the instruction memory that are loaded into a register of an indirect jump. -/
def constantTargets (instrs : List Instruction) : List (BitVec 32) :=
  let indirectJumpRegs := (instrs.filter (·.id.isIndirectJump)).map (·.rs)
  (instrs.filter fun i => (i.id = .addiu ∨ i.id = .ori) ∧ i.rs = 0 ∧ i.rt ∈ indirectJumpRegs ∧
    0x1000 ≤ i.immediate ∧ i.immediate ≤ 0x1FFF).map fun i => i.immediate.setWidth 32

/-- `collect_branch_targets`, with the indirect targets of the configuration. -/
def collectBranchTargets (extraIndirectBranchTargets : List (BitVec 32))
    (instrs : List Instruction) : BranchTargets where
  direct := directTargets instrs
  indirect := linkTargets instrs ++ constantTargets instrs ++ extraIndirectBranchTargets

structure ResumeTargets where
  nonDelay : List (BitVec 32)
  delay : List (BitVec 32)
  deriving DecidableEq, Repr

/-- A write that starts a DMA read. -/
def Instruction.isSwapSite (instr : Instruction) : Bool :=
  instr.id = .mtc0 && cop0WriteIsDmaRead instr.rd

/-- `collect_resume_targets`, behind an instruction with or without a delay slot. -/
def collectResumeTargets : Bool → List Instruction → ResumeTargets
  | _, [] => ⟨[], []⟩
  | isDelaySlot, instr :: rest =>
    let targets := collectResumeTargets instr.id.hasDelaySlot rest
    if instr.isSwapSite then
      ⟨instr.vram :: targets.nonDelay,
        if isDelaySlot then instr.vram :: targets.delay else targets.delay⟩
    else targets

/-! ## Instructions -/

section Printing

/-- A register's printed name, `0` for register 0. -/
def gprRef (n : BitVec 5) : RspExpr := if n = 0 then .lit .int32 0 else .var (.gpr n)

/-- A number printed by `{:#X}` or `{:04X}`, negative ones with a sign: an `int` if it fits. -/
def hexLiteral (n : Int) : RspExpr := .lit (if n < 2 ^ 31 then .int32 else .uint32) n

/-- A number printed by `0x{:8X}`: below eight digits it is padded with blanks. -/
def paddedHexLiteral (n : BitVec 32) : RspExpr :=
  if n < 0x10000000 then .var .notALiteral else .lit .uint32 n.toNat

def signedRef (n : BitVec 5) : RspExpr := .call₁ .RSP_SIGNED (gprRef n)

def unsignedRef (n : BitVec 5) : RspExpr := .call₁ .U32 (gprRef n)

/-- `{} & 31`. -/
def shiftRef (n : BitVec 5) : RspExpr := .binary .and (gprRef n) (hexLiteral 31)

/-- `S32({} << {})` or `S32({} >> {})`. -/
def shifted (op : BinOp) (value amount : RspExpr) : RspExpr :=
  .call₁ .S32 (.binary op value amount)

/-- `{} < {} ? 1 : 0`. -/
def lessThan (a b : RspExpr) : RspExpr := .cond (.binary .lt a b) (hexLiteral 1) (hexLiteral 0)

end Printing

/-- What `emit_instruction` is called with. -/
structure EmitContext where
  branchTargets : BranchTargets
  unsupportedInstructions : List (BitVec 32)
  resumeTargets : ResumeTargets
  hasOverlays : Bool
  deriving DecidableEq, Repr

section Instructions

variable (ctx : EmitContext)

/-- The lines in front of an instruction: its label, when it is not printed again for a branch, and
an early return at an unsupported address. -/
def entryLines (inDelaySlot : Bool) (instr : Instruction) : List Line :=
  (if !inDelaySlot && instr.vram ∈ ctx.branchTargets.all then
    [.label (.code instr.vram), .watchdog instr.vram] else []) ++
  if instr.vram ∈ ctx.unsupportedInstructions then [.ret .unsupported] else []

/-- The resume label behind an instruction. -/
def resumeLines (inDelaySlot : Bool) (instr : Instruction) : List Line :=
  if inDelaySlot then
    if instr.vram ∈ ctx.resumeTargets.delay then [.label (.resumeDelay instr.vram)] else []
  else if instr.vram ∈ ctx.resumeTargets.nonDelay then [.label (.resume instr.vram)] else []

/-- `print_unconditional_branch`: the delay slot, and the jump. -/
def printUnconditionalBranch (before : List Line) (slot : Option (List Line)) (target : Label) :
    Option (List Line) :=
  slot.map fun slot => before ++ slot ++ [.goto target]

/-- `print_branch_condition` and `print_branch`: the same in a block. -/
def printBranch (condition : RspExpr) (before : List Line) (slot : Option (List Line))
    (target : Label) : Option (List Line) :=
  slot.map fun slot => .openIf condition :: before ++ slot ++ [.goto target, .close]

/-- An assignment to a register. -/
def printAssign (reg : BitVec 5) (e : RspExpr) : Option (List Line) := some [.stmt (.assign reg e)]

/-- An operation that is left out when it writes register 0. -/
def printAssignChecked (reg : BitVec 5) (e : RspExpr) : Option (List Line) :=
  if reg = 0 then some [] else printAssign reg e

/-- The return address in register 31. -/
def printLink (instr : Instruction) : Line :=
  .stmt (.assign 31 (hexLiteral instr.linkAddress.toNat))

/-- The swap request of a write that starts a DMA read, and the write. -/
def printCop0Write (inDelaySlot : Bool) (instr : Instruction) : Option (List Line) := do
  let writeAction ← cop0WriteAction instr.rd
  let swap : List Line :=
    if ctx.hasOverlays && cop0WriteIsDmaRead instr.rd then
      [.openIf (.binary .and (.var .dmaMemAddress) (hexLiteral 0x1000)),
        .stmt (.setResume instr.vram inDelaySlot), .goto .doOverlaySwap, .close]
    else []
  return swap ++ if writeAction = [] then [] else [.stmt (.cop0Write writeAction (gprRef instr.rt))]

/-- The statements of an instruction, with the lines of its delay slot. -/
def emitBody (inDelaySlot : Bool) (instr : Instruction) (slot : Option (List Line)) :
    Option (List Line) :=
  let rs := gprRef instr.rs
  let rt := gprRef instr.rt
  let immSigned := hexLiteral instr.immediate.toInt
  let immUnsigned := hexLiteral instr.immediate.toNat
  let sa := hexLiteral instr.sa.toNat
  let target := Label.code instr.branchTarget
  match instr.id with
  | .nop => some []
  | .lui => printAssign instr.rt (shifted .shl (.call₁ .U32 immUnsigned) (hexLiteral 16))
  | .add | .addu => printAssignChecked instr.rd (.call₂ .RSP_ADD32 rs rt)
  | .negu | .sub | .subu => printAssign instr.rd (.call₂ .RSP_SUB32 rs rt)
  | .addi | .addiu => printAssign instr.rt (.call₂ .RSP_ADD32 rs immSigned)
  | .and => printAssignChecked instr.rd (.binary .and rs rt)
  | .andi => printAssign instr.rt (.binary .and rs immUnsigned)
  | .or => printAssign instr.rd (.binary .or rs rt)
  | .ori => printAssign instr.rt (.binary .or rs immUnsigned)
  | .nor => printAssign instr.rd (.unary .compl (.binary .or rs rt))
  | .xor => printAssign instr.rd (.binary .xor rs rt)
  | .xori => printAssign instr.rt (.binary .xor rs immUnsigned)
  | .sll => printAssign instr.rd (shifted .shl (unsignedRef instr.rt) sa)
  | .sllv => printAssign instr.rd (shifted .shl (unsignedRef instr.rt) (shiftRef instr.rs))
  | .sra => printAssign instr.rd (shifted .shr (signedRef instr.rt) sa)
  | .srav => printAssign instr.rd (shifted .shr (signedRef instr.rt) (shiftRef instr.rs))
  | .srl => printAssign instr.rd (shifted .shr (unsignedRef instr.rt) sa)
  | .srlv => printAssign instr.rd (shifted .shr (unsignedRef instr.rt) (shiftRef instr.rs))
  | .slt => printAssign instr.rd (lessThan (signedRef instr.rs) (signedRef instr.rt))
  | .slti => printAssign instr.rt (lessThan (signedRef instr.rs) immSigned)
  | .sltu => printAssign instr.rd (lessThan rs rt)
  | .sltiu => printAssign instr.rt (lessThan rs immSigned)
  | .lw => printAssign instr.rt (.call₂ .RSP_MEM_W_LOAD immSigned rs)
  | .lh => printAssign instr.rt (.call₂ .RSP_MEM_H_LOAD immSigned rs)
  | .lb => printAssign instr.rt (.call₂ .RSP_MEM_B immSigned rs)
  | .lhu => printAssign instr.rt (.call₂ .RSP_MEM_HU_LOAD immSigned rs)
  | .lbu => printAssign instr.rt (.call₂ .RSP_MEM_BU immSigned rs)
  | .sw => some [.stmt (.store .word immSigned rs rt)]
  | .sh => some [.stmt (.store .half immSigned rs rt)]
  | .sb => some [.stmt (.store .byte immSigned rs rt)]
  | .j | .b => printUnconditionalBranch [] slot target
  | .jal => printUnconditionalBranch [printLink instr] slot target
  | .jr => printUnconditionalBranch [.stmt (.setJumpTarget rs)] slot .doIndirectJump
  | .jalr =>
    printUnconditionalBranch
      [.stmt (.setJumpTarget rs), .stmt (.assign instr.rd (paddedHexLiteral instr.linkAddress))]
      slot .doIndirectJump
  | .bne => printBranch (.binary .ne rs rt) [] slot target
  | .beq => printBranch (.binary .eq rs rt) [] slot target
  | .bgez => printBranch (.binary .ge (signedRef instr.rs) (hexLiteral 0)) [] slot target
  | .bgtz => printBranch (.binary .gt (signedRef instr.rs) (hexLiteral 0)) [] slot target
  | .blez => printBranch (.binary .le (signedRef instr.rs) (hexLiteral 0)) [] slot target
  | .bltz => printBranch (.binary .lt (signedRef instr.rs) (hexLiteral 0)) [] slot target
  | .bgezal =>
    printBranch (.binary .ge (signedRef instr.rs) (hexLiteral 0)) [printLink instr] slot target
  | .bltzal =>
    printBranch (.binary .lt (signedRef instr.rs) (hexLiteral 0)) [printLink instr] slot target
  | .break => some [.ret .broke]
  | .mfc0 => (cop0ReadValue instr.rd).bind fun value =>
      printAssign instr.rt (hexLiteral value.toNat)
  | .mtc0 => printCop0Write ctx inDelaySlot instr
  | .vector => some [.stmt (.vectorOp instr.word)]
  | .other => some []

/-- `emit_instruction`, at the head of the rest of the text; `none` is an exception. The recompiler
does not look at the `false` that is returned for an unknown instruction, which has no resume
label. -/
def emitInstruction : Bool → List Instruction → Option (List Line)
  | _, [] => some []
  | inDelaySlot, instr :: rest =>
    (emitBody ctx inDelaySlot instr (emitInstruction true rest)).map fun body =>
      entryLines ctx inDelaySlot instr ++ body ++
        if instr.id = .other then [] else resumeLines ctx inDelaySlot instr

/-- The loop over the text. -/
def emitInstructions : List Instruction → Option (List (List Line))
  | [] => some []
  | instr :: rest => do
    let chunk ← emitInstruction ctx false (instr :: rest)
    let chunks ← emitInstructions rest
    return chunk :: chunks

end Instructions

/-! ## Functions -/

/-- The cases of `emit_indirect_jump_table`. -/
def jumpTargets (targets : BranchTargets) : List (BitVec 32) :=
  (targets.direct.dedup ++
    targets.indirect.dedup.filter (· ∉ targets.direct)).insertionSort (· ≤ ·)

def emitIndirectJumpTable (targets : BranchTargets) : List Line :=
  [.label .doIndirectJump, .jumpSwitch (jumpTargets targets), .ret .unhandledJumpTarget]

def emitOverlaySwapReturn : List Line := [.label .doOverlaySwap, .ret .swapOverlay]

/-- A function of the generated file: what is in front of the instructions, the lines of each
instruction, and what is behind them. -/
structure EmittedFunction where
  name : Str
  instrs : List Instruction
  entry : List Line
  chunks : List (List Line)
  exits : List Line
  deriving DecidableEq, Repr

def EmittedFunction.lines (f : EmittedFunction) : List Line :=
  f.entry ++ f.chunks.flatten ++ f.exits

/-- The resume switch of a permutation, and the start of a task. -/
def entryOf (resumeTargets : ResumeTargets) (isPermutation isInitial : Bool) : List Line :=
  (if isPermutation && !isInitial then
    [.resumeSwitch resumeTargets.delay.dedup resumeTargets.nonDelay.dedup,
      .ret .unhandledResumeTarget]
  else []) ++ [.stmt (.assign 1 (hexLiteral 0xFC0)), .stmt .clearWatchdog]

def exitsOf (targets : BranchTargets) (isPermutation : Bool) : List Line :=
  .ret .imemOverrun :: emitIndirectJumpTable targets ++
    if isPermutation then emitOverlaySwapReturn else []

/-- The lists of addresses of the configuration. -/
structure AddressConfig where
  extraIndirectBranchTargets : List (BitVec 32)
  unsupportedInstructions : List (BitVec 32)
  deriving DecidableEq, Repr

section Functions

variable (addresses : AddressConfig)

/-- What the instructions of a function are emitted with. -/
def emitContext (instrs : List Instruction) (resumeTargets : ResumeTargets)
    (isPermutation : Bool) : EmitContext where
  branchTargets := collectBranchTargets addresses.extraIndirectBranchTargets instrs
  unsupportedInstructions := addresses.unsupportedInstructions
  resumeTargets := resumeTargets
  hasOverlays := isPermutation

/-- `emit_recompiled_function`. -/
def emitRecompiledFunction (name : Str) (instrs : List Instruction)
    (resumeTargets : ResumeTargets) (isPermutation isInitial : Bool) : Option EmittedFunction :=
  let ctx := emitContext addresses instrs resumeTargets isPermutation
  (emitInstructions ctx instrs).map fun chunks =>
    { name := if isPermutation then name else name ++ ascii "_impl"
      instrs
      entry := entryOf resumeTargets isPermutation isInitial
      chunks
      exits := exitsOf ctx.branchTargets isPermutation }

variable (decode : BitVec 32 → InstrId) (cfg : Config)

/-- The instructions of a text of the configuration. -/
def Config.instrsOf (words : List (BitVec 32)) : List Instruction :=
  decodeText decode (cfg.textAddress &&& rspMemMask) words

/-- The resume targets of all permutations. -/
def Config.unionResumeTargets (permutations : List Permutation) : ResumeTargets where
  nonDelay := permutations.flatMap fun p =>
    (collectResumeTargets false (cfg.instrsOf decode p.instrWords)).nonDelay
  delay := permutations.flatMap fun p =>
    (collectResumeTargets false (cfg.instrsOf decode p.instrWords)).delay

/-- The functions that `main` emits: one without overlays, else the initial one and one for every
permutation. -/
def Config.emitMicrocode (permutations : List Permutation) : Option (List EmittedFunction) :=
  if cfg.overlaySlots = [] then
    (emitRecompiledFunction addresses cfg.outputFunctionName (cfg.instrsOf decode cfg.instrWords)
      (cfg.unionResumeTargets decode permutations) false false).map ([·])
  else do
    let initial ← emitRecompiledFunction addresses (cfg.outputFunctionName ++ ascii "_initial")
      (cfg.instrsOf decode cfg.instrWords) ⟨[], []⟩ true true
    let rest ← permutations.mapM fun p =>
      emitRecompiledFunction addresses
        (cfg.permutationName p.permutation) (cfg.instrsOf decode p.instrWords)
        (cfg.unionResumeTargets decode permutations) true false
    return initial :: rest

end Functions

end N64Recomp.RSPRecomp
