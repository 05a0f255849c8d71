import N64Recomp.Recompilation.Items

/-!
# The translation of an instruction

What the driver writes for one instruction. A control transfer also writes its delay slot, which is
the translation of the next instruction; the translation is a recursion over the words that are left.

## Main definitions

* `RelocInfo`, `resolveReloc`: the relocation that applies to an instruction
* `emitCallByAddress`, `emitBranchTree`, `emitJrRaReturn`, ...: the parts of a control transfer, over
  the emission of its delay slot
* `controlCase`, `processOps`: the instructions with a case of their own, and those of the tables
* `processInstruction`: the translation
-/

namespace N64Recomp

/-! ### Relocations -/

/-- The relocation data that the translation of an instruction acts on. -/
structure RelocInfo where
  hasReloc : Bool
  /-- `reloc_section`, which is `0` without a relocation. -/
  sectionIndex : BitVec 32
  type : RelocType
  targetSectionOffset : BitVec 32
  /-- `reloc_reference_symbol`, when it is not `(size_t)-1`. -/
  referenceSymbol : Option Nat
  deriving DecidableEq, Repr

def RelocInfo.none : RelocInfo := ⟨false, 0, .none, 0, .none⟩

/-- Whether an address is strictly inside a relocatable section. -/
def Section.remaps (sect : Section) (absValue : BitVec 32) : Bool :=
  sect.relocatable && decide (sect.ramAddr < absValue ∧ absValue < sect.ramAddr + sect.size)

/-- The section that a relocation is redirected to and the adjustment of its offset: the parent of a
BSS section, or the relocatable section that contains an absolute address. -/
def remapReloc (context : Context) (reloc : Reloc) : BitVec 32 × BitVec 32 :=
  let (sectionIndex, adjustment) : BitVec 32 × BitVec 32 :=
    match context.bssSectionToSection reloc.targetSection with
    | some parent =>
      (parent.setWidth 32, (context.sectionAt reloc.targetSection.toNat).ramAddr -
        (context.sectionAt parent.toNat).ramAddr)
    | none => (reloc.targetSection.setWidth 32, 0)
  if sectionIndex = sectionAbsolute.setWidth 32 ∧ !reloc.referenceSymbol then
    match context.sections.findIdx? (·.remaps reloc.targetSectionOffset) with
    | some i => (BitVec.ofNat 32 i, 0 - (context.sectionAt i).ramAddr)
    | none => (sectionIndex, adjustment)
  else (sectionIndex, adjustment)

/-- Whether the relocation points into a relocatable section. A `HI16` or `LO16` of the base itself
is taken as a constant. -/
def targetRelocatable (context : Context) (reloc : Reloc) (sectionIndex adjustment : BitVec 32) :
    Option Bool :=
  if !reloc.referenceSymbol ∧ sectionIndex ≠ sectionAbsolute.setWidth 32 then
    context.sections[sectionIndex.toNat]?.map fun sect =>
      sect.relocatable && !(decide (reloc.type = .hi16 ∨ reloc.type = .lo16) &&
        decide (reloc.targetSectionOffset + adjustment = 0))
  else some false

/-- What the translation acts on, when a relocation is attached to the instruction. `none` is an
index outside of a table. -/
def resolveReloc (context : Context) (relocs : List Reloc) (relocIndex : Nat)
    (instrVram : BitVec 32) : Option RelocInfo :=
  match relocs[relocIndex]? with
  | none => some RelocInfo.none
  | some reloc =>
    if reloc.address ≠ instrVram then some RelocInfo.none
    else
      let (sectionIndex, adjustment) := remapReloc context reloc
      (targetRelocatable context reloc sectionIndex adjustment).bind fun relocatable =>
      let offset := reloc.targetSectionOffset + adjustment
      if !(relocatable || reloc.referenceSymbol) then
        some ⟨true, sectionIndex, .none, 0, none⟩
      else if reloc.referenceSymbol ∧
          (reloc.type = .hi16 ∨ reloc.type = .lo16 ∨ reloc.type = .mips26) then
        if Context.isRegularReferenceSection reloc.targetSection ∨
            sectionIndex = sectionAbsolute.setWidth 32 then
          (context.isReferenceSectionRelocatable reloc.targetSection).map fun relocatable =>
            if !relocatable ∧ (reloc.type = .hi16 ∨ reloc.type = .lo16) then
              ⟨true, sectionIndex, .none, offset, none⟩
            else ⟨true, sectionIndex, reloc.type, offset, some reloc.symbolIndex.toNat⟩
        else some ⟨true, sectionIndex, reloc.type, offset, some reloc.symbolIndex.toNat⟩
      else some ⟨true, sectionIndex, reloc.type, offset, none⟩

/-! ### Queries of the context -/

/-- `section_has_backing_rom`. -/
def sectionHasBackingRom (context : Context) (i : Nat) : Bool :=
  i < context.sections.length ∧
    (context.sectionAt i).romAddr.toNat + (context.sectionAt i).size.toNat ≤ context.rom.length

/-- `static_entry_requested`. -/
def staticEntryRequested (statics : Statics) (i : Nat) (vram : BitVec 32) : Bool :=
  vram ∈ statics.getD i []

/-- Whether a branch target is strictly inside a function of the section. -/
def targetContainedInFunction (context : Context) (i : Nat) (target : BitVec 32) : Bool :=
  (context.functionsOf i).any fun func =>
    !func.words.isEmpty && decide (func.vram < target ∧ target < func.vramEnd)

/-- `function_can_be_called_by_name`. -/
def Function.canBeCalledByName (func : Function) : Bool :=
  func.reimplemented || (!func.ignored && (!func.words.isEmpty || isManualPatchSymbol func.vram))

/-- `find_callable_function_in_section`. -/
def findCallableFunctionInSection (context : Context) (vram : BitVec 32) (sectionIndex : Nat) :
    Option Nat :=
  ((context.functionsAt vram).find? fun x =>
    x.2.sectionIndex.toNat = sectionIndex && x.2.canBeCalledByName).map (·.1)

namespace Translation

variable (t : Translation)

/-- The section of the function. -/
def funcSection : Section := t.context.sectionAt t.func.sectionIndex.toNat

/-- A call of a generator's method. -/
def call (c : Call) : Emission Unit :=
  match t.generator c with
  | .ok () => Emit.write [.call c]
  | .error e => Emit.abort e

/-- Text that is printed to the output file. -/
def raw (r : Raw) : Emission Unit := Emit.write [.raw r]

def emitTraceReturn : Emission Unit :=
  Emit.when t.context.traceMode (raw .traceReturn)

/-- The function's own labels, and the label of the instruction after the delay slot. -/
def callLabels (vram : BitVec 32) : CallLabels where
  localLabels := t.localTailcallLabels.elems.filter t.func.contains
  returnVram := if vram + 8 ∈ t.branchLabels then vram + 8 else 0

/-- Requests a static function at a link address of the function's section. -/
def requestLinkTarget (linkTarget : BitVec 32) : Emission Unit :=
  Emit.when (t.funcSection.ramAddr.toNat ≤ linkTarget.toNat ∧
      linkTarget.toNat < t.funcSection.ramAddr.toNat + t.funcSection.size.toNat)
    (Emit.modify fun statics => statics.push t.func.sectionIndex.toNat linkTarget)

/-- The write of the link register. -/
def emitLink (reg : Fin 32) (vram : BitVec 32) : Emission Unit := do
  raw (.link reg (vram + 8))
  t.requestLinkTarget (vram + 8)

def emitLinkContinuation (needsLinkBranch : Bool) (linkBranchIndex : Nat) : Emission Unit :=
  Emit.when needsLinkBranch (t.call (.goto (.after linkBranchIndex)))

/-! ### The parts of a control transfer -/

section Transfer

variable (slot : Emission Unit) (vram : BitVec 32) (linkBranchIndex : Nat)

/-- The local cases of a `jr $ra`. -/
def emitJrCases : Emission Unit :=
  match t.branchLabels.elems.filter t.func.contains with
  | [] => pure ()
  | labels => do
    raw (.jrSwitch vram)
    Emit.write (labels.map fun label => .raw (.jrCase label))
    raw .jrSwitchClose

/-- `emit_jr_ra_return`. -/
def emitJrRaReturn : Emission Unit := do
  raw (.jrOpen vram)
  slot
  raw (.jrTargetVram vram t.func.sectionIndex t.funcSection.ramAddr t.funcSection.size)
  t.emitJrCases vram
  raw (.jrHostReturn vram t.context.traceMode)
  t.call (.return_ t.funcIndex)
  raw .jrClose

/-- An emission that needs no link branch. -/
def withoutLink (m : Emission Unit) : Emission Bool := do
  m
  return false

/-- `emit_goto_with_slot`; no link branch is needed. -/
def emitGotoWithSlot (target : BitVec 32) : Emission Unit := do
  slot
  t.call (.goto (.at_ target))

/-- `emit_call_by_register`, which needs a link branch. -/
def emitCallByRegister (reg : Fin 32) : Emission Unit := do
  slot
  t.call (.functionCallByRegister reg (t.callLabels vram))
  t.emitLinkContinuation true linkBranchIndex

/-- `emit_tailcall_by_register`. -/
def emitTailcallByRegister (reg : Fin 32) : Emission Unit := do
  slot
  raw (.requestTailcallRegister reg)
  t.emitTraceReturn
  raw .return_

/-- `emit_tailcall_by_address`. -/
def emitTailcallByAddress (target : BitVec 32) : Emission Unit := do
  slot
  raw (.hostReturn target t.context.traceMode)
  raw (.requestTailcallAddress target)
  t.emitTraceReturn
  raw .return_

/-- `emit_tailcall_by_function`. -/
def emitTailcallByFunction (name : Str) (target : BitVec 32) : Emission Unit := do
  slot
  raw (.hostReturn target t.context.traceMode)
  raw (.requestTailcallFunction name target)
  t.emitTraceReturn
  raw .return_

/-- A call, after its delay slot. -/
def emitCallWithSlot (c : Call) : Emission Bool := do
  slot
  t.call c
  t.emitLinkContinuation true linkBranchIndex
  return true

/-- The section in which the target of a call is resolved: the relocation's, when it is a section of
the context. -/
def callSection (reloc : RelocInfo) : Nat :=
  if reloc.hasReloc ∧ reloc.sectionIndex.toNat < t.context.sections.length then
    reloc.sectionIndex.toNat
  else t.func.sectionIndex.toNat

/-- `emit_call_by_address`; the result is `needs_link_branch`. -/
def emitCallByAddress (reloc : RelocInfo) (target : BitVec 32) : Emission Bool :=
  let labels := t.callLabels vram
  if reloc.sectionIndex = sectionEvent.setWidth 32 then
    t.emitCallWithSlot slot linkBranchIndex (.triggerEvent (match reloc.referenceSymbol with
      | some symbol => BitVec.ofNat 32 symbol
      | none => 0xFFFFFFFF))
  else
    match reloc.referenceSymbol with
    | some symbol =>
      if reloc.type ≠ .mips26 then Emit.refuse
      else
        let sectionIndex := reloc.sectionIndex.setWidth 16
        let emitted := t.emitCallWithSlot slot linkBranchIndex
          (.functionCallReferenceSymbol sectionIndex symbol reloc.targetSectionOffset labels)
        if t.context.skipValidatingReferenceSymbols then emitted
        else
          match t.context.getReferenceSymbol sectionIndex symbol with
          | none => Emit.abort .outOfBounds
          | some refSymbol =>
            if refSymbol.sectionOffset ≠ reloc.targetSectionOffset then Emit.refuse else emitted
    | none =>
      match resolveJal t.context (t.callSection reloc) target with
      | .noMatch => do
        -- the call aborts at run time; neither the slot nor a link branch is emitted
        raw (.unhandledCall vram target)
        return false
      | .match_ i => t.emitCallWithSlot slot linkBranchIndex (.functionCall i labels)
      | .createStatic i => do
        Emit.modify fun statics => statics.push i target
        t.emitCallWithSlot slot linkBranchIndex (.namedFunctionCall (staticName i target) labels)
      | .ambiguous =>
        t.emitCallWithSlot slot linkBranchIndex (.functionCallLookup target labels)

/-- Whether a tail branch may continue in a static function. -/
def canCreateStaticBranch (statics : Statics) (i : Nat) (target : BitVec 32) : Bool :=
  i < t.context.sections.length && sectionHasBackingRom t.context i &&
    (targetContainedInFunction t.context i target || staticEntryRequested statics i target ||
      ((t.context.sectionAt i).relocatable && t.discoverStaticCodeEntrypoint i target))

/-- A branch out of the function to an address that no function has. -/
def emitUnhandledBranch (target : BitVec 32) : Emission Unit := do
  slot
  raw (.unhandledBranch vram target)
  t.call (.return_ t.funcIndex)

/-- A branch out of the function. -/
def emitTailBranch (target : BitVec 32) : Emission Unit :=
  match resolveJal t.context t.func.sectionIndex.toNat target with
  | .match_ i =>
    t.emitTailcallByFunction slot ((t.context.functions[i]?.map (·.name)).getD []) target
  | .createStatic i => do
    let statics ← Emit.read
    if t.canCreateStaticBranch statics i target then
      Emit.modify fun statics => statics.push i target
      t.emitTailcallByFunction slot (staticName i target) target
    else t.emitUnhandledBranch slot vram target
  | .ambiguous => t.emitTailcallByAddress slot target
  | .noMatch => t.emitUnhandledBranch slot vram target

/-- A branch inside of the function; a backward one is a checkpoint. -/
def emitLocalBranch (target : BitVec 32) : Emission Unit := do
  slot
  Emit.when (target ≤ vram) (raw (.loopCheckpoint vram))
  t.call (.goto (.at_ target))

/-- `emit_branch_tree`. -/
def emitBranchTree (target : BitVec 32) : Emission Unit :=
  if t.func.contains target then t.emitLocalBranch slot vram target
  else t.emitTailBranch slot vram target

/-- A jump through a jump table. -/
def emitJumpTable (jtbl : JumpTable) (reg : Fin 32) : Emission Unit := do
  slot
  t.call (.switch jtbl reg)
  jtbl.entries.zipIdx.forM fun x => t.call (.case_ x.2 (.at_ x.1))
  t.call (.switchError vram jtbl.vram)
  t.call .switchClose

/-- The instruction after the delay slot of an indirect tail call may be entered. -/
def requestFallthrough : Emission Unit :=
  let fallthrough := vram + 8
  let index := (fallthrough - t.func.vram).toNat / 4
  Emit.when (t.func.vram < fallthrough ∧ fallthrough < t.func.vramEnd ∧
      (t.instructions[index]?.map (·.isValid t.decoder)).getD false)
    (Emit.modify fun statics => statics.push t.func.sectionIndex.toNat fallthrough)

/-- `jr` through a register other than `$ra`. -/
def emitJrRegister (reg : Fin 32) : Emission Unit :=
  match t.jumpTables.find? (·.jrVram = vram) with
  | some jtbl => t.emitJumpTable slot vram jtbl reg
  | none => do
    t.requestFallthrough vram
    -- the returned value of the tail call is not looked at
    Emit.dropRefusal (t.emitTailcallByRegister slot reg)

end Transfer

/-! ### The instructions -/

/-- The registers of coprocessor 0 that are reserved. -/
def isReservedCop0 (reg : Fin 32) : Bool := (21 ≤ reg.val ∧ reg.val ≤ 25) ∨ reg = 31

/-- The register of the status word. -/
def cop0Status : Fin 32 := 12

section Cases

variable (instr : InstructionCpu) (slot : Emission Unit) (linkBranchIndex : Nat)
  (reloc : RelocInfo)

def emitMfc0 : Emission Unit :=
  if instr.cop0d = cop0Status then t.call (.cop0StatusRead instr.rt)
  else if isReservedCop0 instr.cop0d then
    raw (.unhandledCop0Read instr.rt instr.vram instr.cop0d)
  else raw (.cop0Read instr.rt instr.cop0d)

def emitMtc0 : Emission Unit :=
  if instr.cop0d = cop0Status then t.call (.cop0StatusWrite instr.rt)
  else if isReservedCop0 instr.cop0d then
    raw (.unhandledCop0Write instr.vram instr.cop0d instr.rt)
  else raw (.cop0Write instr.cop0d instr.rt)

/-- The value of the index register is kept when the addition computes a jump-table address. -/
def emitJtblAddend : Emission Unit :=
  match t.jumpTables.find? (·.adduVram = instr.vram) with
  | some jtbl => t.call (.jtblAddendDeclaration jtbl jtbl.addendReg)
  | none => pure ()

def emitJal : Emission Bool := do
  t.emitLink regRa instr.vram
  let target := instr.getBranchVramGeneric t.decoder
  if t.func.contains target then withoutLink (t.emitGotoWithSlot slot target)
  else t.emitCallByAddress slot instr.vram linkBranchIndex reloc target

def emitJalr : Emission Bool :=
  if instr.rd ≠ regRa then do
    Emit.when (instr.rd ≠ 0) (t.emitLink instr.rd instr.vram)
    t.emitTailcallByRegister slot instr.rs
    return false
  else do
    t.emitLink regRa instr.vram
    t.emitCallByRegister slot instr.vram linkBranchIndex instr.rs
    return true

/-- `j`, and `b`, which is a jump too. -/
def emitJump : Emission Unit :=
  let target := instr.getBranchVramGeneric t.decoder
  if target = instr.vram then t.call .pauseSelf
  else t.emitBranchTree slot instr.vram target

def emitJr : Emission Unit :=
  if instr.rs = regRa then t.emitJrRaReturn slot instr.vram
  else t.emitJrRegister slot instr.vram instr.rs

def emitSyscall : Emission Unit := do
  t.call (.syscall instr.vram)
  t.call (.return_ t.funcIndex)

def emitCtc1 : Emission Unit :=
  if instr.cop1Cs ≠ 31 then Emit.refuse else t.call (.cop1CsWrite instr.rt)

def emitCfc1 : Emission Unit :=
  if instr.cop1Cs ≠ 31 then Emit.refuse else t.call (.cop1CsRead instr.rt)

end Cases

/-- The switch over the instructions with a case of their own; the result is `needs_link_branch`. -/
def controlCase (instr : InstructionCpu) (id : InstrId) (slot : Emission Unit)
    (linkBranchIndex : Nat) (reloc : RelocInfo) : Option (Emission Bool) :=
  match id with
  | .nop | .cache => some (withoutLink (pure ()))
  | .mfc0 => some (withoutLink (t.emitMfc0 instr))
  | .mtc0 => some (withoutLink (t.emitMtc0 instr))
  | .add | .addu => some (withoutLink (t.emitJtblAddend instr))
  | .mult | .dmult | .multu | .dmultu | .div | .ddiv | .divu | .ddivu =>
    some (withoutLink (t.call (.muldiv id instr.rs instr.rt)))
  | .jal => some (t.emitJal instr slot linkBranchIndex reloc)
  | .jalr => some (t.emitJalr instr slot linkBranchIndex)
  | .j | .b => some (withoutLink (t.emitJump instr slot))
  | .jr => some (withoutLink (t.emitJr instr slot))
  | .syscall => some (withoutLink (t.emitSyscall instr))
  | .break_ => some (withoutLink (t.call (.doBreak instr.vram)))
  | .ctc1 => some (withoutLink (t.emitCtc1 instr))
  | .cfc1 => some (withoutLink (t.emitCfc1 instr))
  | _ => none

/-- The instruction's operands and the relocation of its immediate. -/
def instructionContext (instr : InstructionCpu) (reloc : RelocInfo) : InstructionContext where
  rd := instr.rd
  rs := instr.rs
  rt := instr.rt
  sa := instr.sa
  fd := instr.fd
  fs := instr.fs
  ft := instr.ft
  cop1Cs := instr.cop1Cs
  imm16 := instr.immediate
  relocTagAsReference := reloc.referenceSymbol.isSome && t.tagReferenceRelocs
  relocType := reloc.type
  relocSectionIndex := reloc.sectionIndex
  relocTargetSectionOffset := reloc.targetSectionOffset

/-- `do_check_fr`. -/
def doCheckFr (ctx : InstructionContext) (operand : Operand) : Emission Unit :=
  match operand with
  | .fd | .fdDouble | .fdU32L | .fdU32H | .fdU64 => t.call (.checkFr ctx.fd)
  | .fs | .fsDouble | .fsU32L | .fsU32H | .fsU64 => t.call (.checkFr ctx.fs)
  | .ft | .ftDouble | .ftU32L | .ftU32H | .ftU64 => t.call (.checkFr ctx.ft)
  | _ => pure ()

/-- `do_check_nan`. -/
def doCheckNan (ctx : InstructionContext) (operand : Operand) : Emission Unit :=
  match operand with
  | .fd => t.call (.checkNan ctx.fd false)
  | .fs => t.call (.checkNan ctx.fs false)
  | .ft => t.call (.checkNan ctx.ft false)
  | .fdDouble => t.call (.checkNan ctx.fd true)
  | .fsDouble => t.call (.checkNan ctx.fs true)
  | .ftDouble => t.call (.checkNan ctx.ft true)
  | _ => pure ()

/-- The check of the FR bit for the operands of an operation. -/
def checkFrs (check : Bool) (ctx : InstructionContext) (operands : List Operand) : Emission Unit :=
  Emit.when check (operands.forM (t.doCheckFr ctx))

/-- The check for a NaN of the operands of an operation. -/
def checkNans (check : Bool) (ctx : InstructionContext) (operands : List Operand) :
    Emission Unit :=
  Emit.when check (operands.forM (t.doCheckNan ctx))

def processBinary (op : BinaryOp) (ctx : InstructionContext) : Emission Unit := do
  t.checkFrs op.checkFr ctx [op.output, op.operands.operand0, op.operands.operand1]
  t.checkNans op.checkNan ctx [op.operands.operand0, op.operands.operand1]
  t.call (.binaryOp op ctx)

def processUnary (op : UnaryOp) (ctx : InstructionContext) : Emission Unit := do
  t.checkFrs op.checkFr ctx [op.output, op.input]
  t.checkNans op.checkNan ctx [op.input]
  t.call (.unaryOp op ctx)

def processStore (op : StoreOp) (ctx : InstructionContext) : Emission Unit := do
  t.checkFrs (op.type = .sdc1) ctx [op.valueInput]
  t.call (.storeOp op ctx)

/-- The taken side of a conditional branch: a linking branch out of the function is a call. -/
def emitTaken (instr : InstructionCpu) (link : Bool) (slot : Emission Unit)
    (linkBranchIndex : Nat) (reloc : RelocInfo) : Emission Bool :=
  let target := instr.getBranchVramGeneric t.decoder
  if link && !t.func.contains target then
    t.emitCallByAddress slot instr.vram linkBranchIndex reloc target
  else withoutLink (t.emitBranchTree slot instr.vram target)

/-- A conditional branch; the result is `needs_link_branch`. -/
def processConditionalBranch (instr : InstructionCpu) (op : ConditionalBranchOp)
    (ctx : InstructionContext) (slot : Emission Unit) (linkBranchIndex : Nat) (reloc : RelocInfo) :
    Emission Bool := do
  -- the link is written whether or not the branch is taken
  Emit.when op.link (t.emitLink regRa instr.vram)
  t.call (.branchCondition op ctx)
  let needsLinkBranch ← t.emitTaken instr op.link slot linkBranchIndex reloc
  t.call .branchClose
  return needsLinkBranch

/-- `jtbl_lw_instructions.contains(vram)`. -/
def isJtblLw (vram : BitVec 32) : Bool := t.jumpTables.any (·.lwVram = vram)

/-- The hook at an instruction index, when there is one. -/
def emitHook (index : Int) : Emission Unit :=
  match t.func.functionHooks index with
  | some text => raw (.hook text)
  | none => pure ()

/-- The identity under which an instruction is translated: the load of a jump-table entry is
rewritten to compute the entry's address. -/
def translatedId (instr : InstructionCpu) : InstrId :=
  if t.isJtblLw instr.vram then .addiu else instr.uniqueId t.decoder

/-- The operations of the tables, other than the conditional branches. -/
def processOps (id : InstrId) (ctx : InstructionContext) : Emission Unit := do
  (binaryOps id).toList.forM fun op => t.processBinary op ctx
  (unaryOps id).toList.forM fun op => t.processUnary op ctx
  (storeOps id).toList.forM fun op => t.processStore op ctx

/-- Whether a table has the instruction. -/
def inTables (id : InstrId) : Bool :=
  (binaryOps id).isSome || (unaryOps id).isSome || (conditionalBranchOps id).isSome ||
    (storeOps id).isSome

/-- The translation of an instruction and the relocation that applies to it. No instruction is in
two tables, so that the order of the tables does not matter. -/
def processRelocated (instr : InstructionCpu) (slot : Emission Unit) (emitLinkBranch : Bool)
    (linkBranchIndex : Nat) (reloc : RelocInfo) : Emission (Bool × Bool) := do
  let id := t.translatedId instr
  let ctx := t.instructionContext instr reloc
  let control := t.controlCase instr id slot linkBranchIndex reloc
  let controlLink ← control.getD (pure false)
  t.processOps id ctx
  let branchLink ← ((conditionalBranchOps id).map fun op =>
    t.processConditionalBranch instr op ctx slot linkBranchIndex reloc).getD (pure false)
  Emit.when (!(control.isSome || inTables id)) (raw (.unhandledInstruction instr.vram))
  Emit.when emitLinkBranch (t.call (.label (.after linkBranchIndex)))
  return (controlLink || branchLink, ((conditionalBranchOps id).map (·.likely)).getD false)

/-- The translation of an instruction over the emission of its delay slot: `needs_link_branch` and
`is_branch_likely`. -/
def processBody (instr : InstructionCpu) (index : Nat) (slot : Emission Unit)
    (emitLinkBranch : Bool) (linkBranchIndex relocIndex : Nat) : Emission (Bool × Bool) := do
  t.emitHook index
  t.call (.comment instr.vram)
  match resolveReloc t.context t.funcSection.relocs relocIndex instr.vram with
  | none => Emit.abort .outOfBounds
  | some reloc => t.processRelocated instr slot emitLinkBranch linkBranchIndex reloc

/-- `emit_delay_slot`'s view of the relocation cursor. -/
def nextRelocIndex (instr : InstructionCpu) (relocIndex : Nat) : Nat :=
  match t.funcSection.relocs[relocIndex]? with
  | some reloc =>
    if relocIndex + 1 < t.funcSection.relocs.length ∧ reloc.address < instr.vram + 4 then
      relocIndex + 1
    else relocIndex
  | none => relocIndex

/-- `process_instruction`, on the instructions from the current one on. The delay slot of the last
one is outside of the function, and is refused. -/
def processInstruction : List InstructionCpu → (index : Nat) → (emitLinkBranch : Bool) →
    (linkBranchIndex relocIndex : Nat) → Emission (Bool × Bool)
  | [], _, _, _, _ => Emit.refuse
  | [instr], index, emitLinkBranch, linkBranchIndex, relocIndex =>
    t.processBody instr index Emit.refuse emitLinkBranch linkBranchIndex relocIndex
  | instr :: next :: rest, index, emitLinkBranch, linkBranchIndex, relocIndex =>
    let slot := do
      let _ ← processInstruction (next :: rest) (index + 1) false linkBranchIndex
        (t.nextRelocIndex instr relocIndex)
      pure ()
    t.processBody instr index slot emitLinkBranch linkBranchIndex relocIndex

end Translation

end N64Recomp
