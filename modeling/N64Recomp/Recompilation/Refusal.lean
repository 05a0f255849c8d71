import N64Recomp.Recompilation.RecompileFunction

/-!
# Refusals

Which functions the translation refuses. The failure of a delay slot is a returned value that each
part of a transfer has to pass on; the parts that do not look at it are found by following it through
every case of the translation. Whether an instruction is refused does not depend on what was
requested before.

## Main definitions

* `Translation.instructionRefuses`: whether an instruction is refused, when its slot is or is not
* `Translation.refuses`, `Translation.emissionRefuses`: whether the words from one on are
* `Translation.ignoresSlot`: the transfers that do not look at their slot
* `Translation.Prints`: the generator prints the operation of an instruction

## Main results

* `Translation.decides_processRelocated`, `Translation.decides_emitInstructions`: the translation
  refuses exactly these
* `recompile_cut_function`: the function that ends with a transfer
-/

namespace N64Recomp

open Emit

/-- The control transfers with a delay slot. -/
def isTransfer (id : InstrId) : Bool :=
  id ∈ [InstrId.j, .b, .jal, .jalr, .jr] || (conditionalBranchOps id).isSome

namespace Translation

variable (t : Translation)

/-! ### Which instructions are refused -/

/-- A call of a reference symbol is only understood in a jump, and at the symbol itself. -/
def badReference (reloc : RelocInfo) (symbol : Nat) : Bool :=
  decide (reloc.type ≠ .mips26) || (!t.context.skipValidatingReferenceSymbols &&
    decide ((t.context.getReferenceSymbol (reloc.sectionIndex.setWidth 16) symbol).map
      (·.sectionOffset) ≠ some reloc.targetSectionOffset))

/-- Whether a call by address is refused, when the refusal of its slot is `b`. -/
def callRefuses (b : Bool) (reloc : RelocInfo) (target : BitVec 32) : Bool :=
  if reloc.sectionIndex = sectionEvent.setWidth 32 then b
  else
    match reloc.referenceSymbol with
    | some symbol => t.badReference reloc symbol || b
    | none => b && decide (resolveJal t.context (t.callSection reloc) target ≠ .noMatch)

/-- A call inside of the function is a `goto`. -/
def linkRefuses (b : Bool) (reloc : RelocInfo) (target : BitVec 32) : Bool :=
  if t.func.contains target then b else t.callRefuses b reloc target

/-- Whether an instruction is refused, when the refusal of its slot is `b`. -/
def instructionRefuses (b : Bool) (instr : InstructionCpu) (reloc : RelocInfo) : Bool :=
  let id := t.translatedId instr
  let target := instr.getBranchVramGeneric t.decoder
  match id with
  | .ctc1 | .cfc1 => decide (instr.cop1Cs ≠ 31)
  | .jal => t.linkRefuses b reloc target
  | .jalr => b
  | .j | .b => b && decide (target ≠ instr.vram)
  | .jr => b && decide (instr.rs = regRa ∨ ∃ jtbl ∈ t.jumpTables, jtbl.jrVram = instr.vram)
  | id =>
    match conditionalBranchOps id with
    | some op => if op.link then t.linkRefuses b reloc target else b
    | none => false

/-- The relocation of an instruction, when the cursor is at `relocIndex`. -/
def relocAt (instr : InstructionCpu) (relocIndex : Nat) : RelocInfo :=
  (resolveReloc t.context t.funcSection.relocs relocIndex instr.vram).getD RelocInfo.none

/-- Whether the first instruction is refused; the slot of the last one is. -/
def refuses : List InstructionCpu → (relocIndex : Nat) → Bool
  | [], _ => true
  | [instr], relocIndex => t.instructionRefuses true instr (t.relocAt instr relocIndex)
  | instr :: next :: rest, relocIndex =>
    t.instructionRefuses (refuses (next :: rest) (t.nextRelocIndex instr relocIndex)) instr
      (t.relocAt instr relocIndex)

/-- The cursor over the relocations at an instruction, from the one at the instruction before. -/
def relocIndexAt (instr : InstructionCpu) (relocIndex : Nat) : Nat :=
  advanceRelocs instr.vram (t.funcSection.relocs.drop relocIndex) relocIndex

/-- Whether one of the instructions is refused. -/
def emissionRefuses : List InstructionCpu → (relocIndex : Nat) → Bool
  | [], _ => false
  | instr :: rest, relocIndex =>
    let relocIndex := t.relocIndexAt instr relocIndex
    t.refuses (instr :: rest) relocIndex || emissionRefuses rest relocIndex

/-! ### The transfers that ignore their slot -/

/-- Whether a call by address finds nothing to call, and becomes a run-time abort. -/
def callsNothing (reloc : RelocInfo) (target : BitVec 32) : Bool :=
  !t.func.contains target && decide (reloc.sectionIndex ≠ sectionEvent.setWidth 32) &&
    reloc.referenceSymbol.isNone &&
    decide (resolveJal t.context (t.callSection reloc) target = .noMatch)

/-- The transfers that are not refused with their slot: an indirect tail call, a jump to itself, and
a call that finds nothing to call. (The load of a jump-table entry is translated as no transfer.) -/
def ignoresSlot (instr : InstructionCpu) (reloc : RelocInfo) : Bool :=
  let id := t.translatedId instr
  let target := instr.getBranchVramGeneric t.decoder
  match id with
  | .jr => !decide (instr.rs = regRa ∨ ∃ jtbl ∈ t.jumpTables, jtbl.jrVram = instr.vram)
  | .j | .b => target = instr.vram
  | .jal => t.callsNothing reloc target
  | .addiu => true
  | id => isLinkBranch id && t.callsNothing reloc target

theorem linkRefuses_true (reloc : RelocInfo) (target : BitVec 32) :
    t.linkRefuses true reloc target = !t.callsNothing reloc target := by
  unfold linkRefuses callRefuses callsNothing
  by_cases hin : t.func.contains target
  · simp [hin]
  by_cases hevent : reloc.sectionIndex = sectionEvent.setWidth 32
  · simp [hevent]
  cases hreference : reloc.referenceSymbol with
  | some symbol => simp [hevent]
  | none => simp [hin, hevent]

/-- A transfer whose slot is refused is refused, unless it ignores the slot. -/
theorem instructionRefuses_true {instr : InstructionCpu}
    (h : isTransfer (instr.uniqueId t.decoder) = true) (reloc : RelocInfo) :
    t.instructionRefuses true instr reloc = !t.ignoresSlot instr reloc := by
  have hid : t.translatedId instr = .addiu ∨ isTransfer (t.translatedId instr) = true := by
    unfold translatedId
    split
    · exact .inl rfl
    · exact .inr h
  unfold instructionRefuses ignoresSlot
  simp only
  generalize t.translatedId instr = id at hid
  rcases hid with rfl | hid
  · rfl
  split
  case h_1 | h_2 => exact absurd hid (by decide)
  case h_3 => exact t.linkRefuses_true _ _
  case h_4 => rfl
  case h_5 | h_6 => simp
  case h_7 => simp
  case h_8 hctc1 hcfc1 hjal hjalr hj hb hjr =>
    have hnot : id ∉ [InstrId.j, .b, .jal, .jalr, .jr] := by
      simp only [List.mem_cons, List.not_mem_nil, or_false, not_or]
      exact ⟨hj, hb, hjal, hjalr, hjr⟩
    have hop : (conditionalBranchOps id).isSome = true := by
      simpa only [isTransfer, hnot, decide_false, Bool.false_or] using hid
    obtain ⟨op, hop⟩ := Option.isSome_iff_exists.mp hop
    have haddiu : id = .addiu → False := by
      rintro rfl
      cases hop
    simp only [isLinkBranch, hop, Option.map_some, Option.getD_some]
    cases op.link with
    | true => simpa using t.linkRefuses_true _ _
    | false => simp

/-! ### What the generator is relied on for -/

/-- The generator prints the operation of an instruction, and knows the symbol of its relocation. -/
structure Prints (instr : InstructionCpu) (reloc : RelocInfo) : Prop where
  binary : ∀ op, binaryOps (t.translatedId instr) = some op →
    t.generator (.binaryOp op (t.instructionContext instr reloc)) = .ok ()
  unary : ∀ op, unaryOps (t.translatedId instr) = some op →
    t.generator (.unaryOp op (t.instructionContext instr reloc)) = .ok ()
  store : ∀ op, storeOps (t.translatedId instr) = some op →
    t.generator (.storeOp op (t.instructionContext instr reloc)) = .ok ()
  branch : ∀ op, conditionalBranchOps (t.translatedId instr) = some op →
    t.generator (.branchCondition op (t.instructionContext instr reloc)) = .ok ()
  symbol : ∀ symbol, reloc.referenceSymbol = some symbol →
    (t.context.getReferenceSymbol (reloc.sectionIndex.setWidth 16) symbol).isSome ∧
      ∀ labels, t.generator (.functionCallReferenceSymbol (reloc.sectionIndex.setWidth 16) symbol
        reloc.targetSectionOffset labels) = .ok ()

/-- The relocations of an instruction are in bounds, and the generator prints what they apply to. -/
def PrintsAll (instr : InstructionCpu) : Prop :=
  ∀ k, ∃ reloc, resolveReloc t.context t.funcSection.relocs k instr.vram = some reloc ∧
    t.Prints instr reloc

/-! ### The parts of a transfer -/

section Transfer

variable {t}

theorem returns_call {c : Call} (h : t.generator c = .ok ()) : Returns (t.call c) := by
  unfold call
  rw [h]
  exact returns_write _

theorem returns_raw (r : Raw) : Returns (raw r) := returns_write _

variable {slot : Emission Unit} {vram target : BitVec 32} {linkBranchIndex : Nat} {reg : Fin 32}
  {reloc : RelocInfo} {b : Bool}

theorem decides_withoutLink {m : Emission Unit} (hm : Decides b m) : Decides b (withoutLink m) :=
  hm.bind fun _ => returns_pure _

theorem returns_emitTraceReturn : Returns t.emitTraceReturn := returns_when (returns_raw _)

theorem returns_emitLink : Returns (t.emitLink reg vram) :=
  (returns_raw _).bind fun _ => returns_when (returns_modify _)

theorem returns_emitJrCases : Returns (t.emitJrCases vram) := by
  unfold emitJrCases
  split
  · exact returns_pure _
  · exact (returns_raw _).bind fun _ => (returns_write _).bind fun _ => returns_raw _

variable (hslot : Decides b slot)

include hslot

theorem decides_emitTailcallByRegister : Decides b (t.emitTailcallByRegister slot reg) :=
  hslot.bind fun _ => (returns_raw _).bind fun _ => returns_emitTraceReturn.bind fun _ =>
    returns_raw _

theorem decides_emitTailcallByAddress : Decides b (t.emitTailcallByAddress slot target) :=
  hslot.bind fun _ => (returns_raw _).bind fun _ => (returns_raw _).bind fun _ =>
    returns_emitTraceReturn.bind fun _ => returns_raw _

theorem decides_emitTailcallByFunction (name : Str) :
    Decides b (t.emitTailcallByFunction slot name target) :=
  hslot.bind fun _ => (returns_raw _).bind fun _ => (returns_raw _).bind fun _ =>
    returns_emitTraceReturn.bind fun _ => returns_raw _

variable (hcalls : ∀ c : Call, c.printsOperands = false → t.generator c = .ok ())

include hcalls

omit hslot in
theorem returns_emitLinkContinuation (needs : Bool) :
    Returns (t.emitLinkContinuation needs linkBranchIndex) :=
  returns_when (returns_call (hcalls _ rfl))

theorem decides_emitJrRaReturn : Decides b (t.emitJrRaReturn slot vram) :=
  (returns_raw _).bind_decides fun _ => hslot.bind fun _ => (returns_raw _).bind fun _ =>
    returns_emitJrCases.bind fun _ => (returns_raw _).bind fun _ =>
      (returns_call (hcalls _ rfl)).bind fun _ => returns_raw _

theorem decides_emitGotoWithSlot : Decides b (t.emitGotoWithSlot slot target) :=
  hslot.bind fun _ => returns_call (hcalls _ rfl)

theorem decides_emitCallByRegister :
    Decides b (t.emitCallByRegister slot vram linkBranchIndex reg) :=
  hslot.bind fun _ => (returns_call (hcalls _ rfl)).bind fun _ =>
    returns_emitLinkContinuation hcalls _

theorem decides_emitCallWithSlot {c : Call} (hc : t.generator c = .ok ()) :
    Decides b (t.emitCallWithSlot slot linkBranchIndex c) :=
  hslot.bind fun _ => (returns_call hc).bind fun _ =>
    (returns_emitLinkContinuation hcalls _).bind fun _ => returns_pure _

/-- A call by address: a bad reference is refused before the slot, and a call that finds nothing to
call is written without it. -/
theorem decides_emitCallByAddress
    (hsymbol : ∀ symbol, reloc.referenceSymbol = some symbol →
      (t.context.getReferenceSymbol (reloc.sectionIndex.setWidth 16) symbol).isSome ∧
        ∀ labels, t.generator (.functionCallReferenceSymbol (reloc.sectionIndex.setWidth 16) symbol
          reloc.targetSectionOffset labels) = .ok ()) :
    Decides (t.callRefuses b reloc target)
      (t.emitCallByAddress slot vram linkBranchIndex reloc target) := by
  unfold callRefuses emitCallByAddress
  simp only
  split
  · exact decides_emitCallWithSlot hslot hcalls (hcalls _ rfl)
  cases hreference : reloc.referenceSymbol with
  | some symbol =>
    obtain ⟨hsome, hcall⟩ := hsymbol symbol hreference
    obtain ⟨refSymbol, hget⟩ := Option.isSome_iff_exists.mp hsome
    simp only [badReference, hget, Option.map_some]
    by_cases htype : reloc.type = .mips26
    · by_cases hskip : t.context.skipValidatingReferenceSymbols
      · simpa [htype, hskip] using decides_emitCallWithSlot hslot hcalls (hcall _)
      · by_cases hoffset : refSymbol.sectionOffset = reloc.targetSectionOffset
        · simpa [htype, hskip, hoffset] using decides_emitCallWithSlot hslot hcalls (hcall _)
        · simpa [htype, hskip, hoffset] using refuses_refuse
    · simpa [htype] using refuses_refuse
  | none =>
    simp only
    cases hresolve : resolveJal t.context (t.callSection reloc) target with
    | noMatch =>
      simpa using (returns_raw _).bind fun _ => returns_pure _
    | match_ i => simpa using decides_emitCallWithSlot hslot hcalls (hcalls _ rfl)
    | createStatic i =>
      simpa using (returns_modify _).bind_decides fun _ =>
        decides_emitCallWithSlot hslot hcalls (hcalls _ rfl)
    | ambiguous => simpa using decides_emitCallWithSlot hslot hcalls (hcalls _ rfl)

theorem decides_emitUnhandledBranch : Decides b (t.emitUnhandledBranch slot vram target) :=
  hslot.bind fun _ => (returns_raw _).bind fun _ => returns_call (hcalls _ rfl)

theorem decides_emitTailBranch : Decides b (t.emitTailBranch slot vram target) := by
  unfold emitTailBranch
  split
  · exact decides_emitTailcallByFunction hslot _
  · refine returns_read.bind_decides fun statics => ?_
    split
    · exact (returns_modify _).bind_decides fun _ => decides_emitTailcallByFunction hslot _
    · exact decides_emitUnhandledBranch hslot hcalls
  · exact decides_emitTailcallByAddress hslot
  · exact decides_emitUnhandledBranch hslot hcalls

theorem decides_emitBranchTree : Decides b (t.emitBranchTree slot vram target) := by
  unfold emitBranchTree
  split
  · exact hslot.bind fun _ => (returns_when (returns_raw _)).bind fun _ =>
      returns_call (hcalls _ rfl)
  · exact decides_emitTailBranch hslot hcalls

theorem decides_emitJumpTable {jtbl : JumpTable} :
    Decides b (t.emitJumpTable slot vram jtbl reg) := by
  refine hslot.bind fun _ => (returns_call (hcalls _ rfl)).bind fun _ => Returns.bind ?_ fun _ =>
    (returns_call (hcalls _ rfl)).bind fun _ => returns_call (hcalls _ rfl)
  exact returns_forM fun x _ => returns_call (hcalls _ rfl)

variable {instr : InstructionCpu}

/-- The refusal of the slot of an indirect tail call is dropped. -/
theorem decides_emitJr :
    Decides (b && decide (instr.rs = regRa ∨ ∃ jtbl ∈ t.jumpTables, jtbl.jrVram = instr.vram))
      (t.emitJr instr slot) := by
  unfold emitJr
  split
  · rename_i hra
    simpa [hra] using decides_emitJrRaReturn hslot hcalls
  rename_i hra
  unfold emitJrRegister
  split
  · rename_i jtbl hjtbl
    have hmem : ∃ jtbl ∈ t.jumpTables, jtbl.jrVram = instr.vram :=
      ⟨jtbl, List.mem_of_find?_eq_some hjtbl, by simpa using List.find?_some hjtbl⟩
    simpa [hmem] using decides_emitJumpTable hslot hcalls
  · rename_i hnone
    have hmem : ¬∃ jtbl ∈ t.jumpTables, jtbl.jrVram = instr.vram := by
      simpa [List.find?_eq_none] using hnone
    have hrequest : Returns (t.requestFallthrough instr.vram) := returns_when (returns_modify _)
    simpa [hra, hmem] using hrequest.bind fun _ =>
      (decides_emitTailcallByRegister hslot).dropRefusal

theorem decides_emitJump :
    Decides (b && decide (instr.getBranchVramGeneric t.decoder ≠ instr.vram))
      (t.emitJump instr slot) := by
  unfold emitJump
  simp only
  split
  · rename_i hself
    simpa [hself] using returns_call (hcalls _ rfl)
  · rename_i hself
    simpa [hself] using decides_emitBranchTree hslot hcalls

theorem decides_emitJalr : Decides b (t.emitJalr instr slot linkBranchIndex) := by
  unfold emitJalr
  split
  · exact (returns_when returns_emitLink).bind_decides fun _ =>
      (decides_emitTailcallByRegister hslot).bind fun _ => returns_pure _
  · exact returns_emitLink.bind_decides fun _ =>
      (decides_emitCallByRegister hslot hcalls).bind fun _ => returns_pure _

theorem decides_emitJal (hprints : t.Prints instr reloc) :
    Decides (t.linkRefuses b reloc (instr.getBranchVramGeneric t.decoder))
      (t.emitJal instr slot linkBranchIndex reloc) := by
  refine returns_emitLink.bind_decides fun _ => ?_
  unfold linkRefuses
  simp only
  split
  · exact decides_withoutLink (decides_emitGotoWithSlot hslot hcalls)
  · exact decides_emitCallByAddress hslot hcalls hprints.symbol

end Transfer

/-! ### The instructions -/

section Instructions

variable {t} {instr : InstructionCpu} {slot : Emission Unit} {linkBranchIndex : Nat}
  {reloc : RelocInfo} {b : Bool}
  (hcalls : ∀ c : Call, c.printsOperands = false → t.generator c = .ok ())

include hcalls

theorem returns_emitMfc0 : Returns (t.emitMfc0 instr) := by
  unfold emitMfc0
  repeat' split
  · exact returns_call (hcalls _ rfl)
  · exact returns_raw _
  · exact returns_raw _

theorem returns_emitMtc0 : Returns (t.emitMtc0 instr) := by
  unfold emitMtc0
  repeat' split
  · exact returns_call (hcalls _ rfl)
  · exact returns_raw _
  · exact returns_raw _

theorem returns_emitJtblAddend : Returns (t.emitJtblAddend instr) := by
  unfold emitJtblAddend
  split
  · exact returns_call (hcalls _ rfl)
  · exact returns_pure _

theorem decides_emitCtc1 : Decides (decide (instr.cop1Cs ≠ 31)) (t.emitCtc1 instr) := by
  unfold emitCtc1
  split
  · rename_i h
    simpa [h] using refuses_refuse
  · rename_i h
    simpa [h] using returns_call (hcalls _ rfl)

theorem decides_emitCfc1 : Decides (decide (instr.cop1Cs ≠ 31)) (t.emitCfc1 instr) := by
  unfold emitCfc1
  split
  · rename_i h
    simpa [h] using refuses_refuse
  · rename_i h
    simpa [h] using returns_call (hcalls _ rfl)

theorem returns_doCheckFr {ctx : InstructionContext} (operand : Operand) :
    Returns (t.doCheckFr ctx operand) := by
  unfold doCheckFr
  split <;> first | exact returns_call (hcalls _ rfl) | exact returns_pure _

theorem returns_doCheckNan {ctx : InstructionContext} (operand : Operand) :
    Returns (t.doCheckNan ctx operand) := by
  unfold doCheckNan
  split <;> first | exact returns_call (hcalls _ rfl) | exact returns_pure _

theorem returns_checkFrs {check : Bool} {ctx : InstructionContext} (operands : List Operand) :
    Returns (t.checkFrs check ctx operands) :=
  returns_when (returns_forM fun operand _ => returns_doCheckFr hcalls operand)

theorem returns_checkNans {check : Bool} {ctx : InstructionContext} (operands : List Operand) :
    Returns (t.checkNans check ctx operands) :=
  returns_when (returns_forM fun operand _ => returns_doCheckNan hcalls operand)

theorem returns_processOps (hprints : t.Prints instr reloc) :
    Returns (t.processOps (t.translatedId instr) (t.instructionContext instr reloc)) := by
  refine Returns.bind ?_ fun _ => Returns.bind ?_ fun _ => ?_
  · refine returns_forM fun op hop => ?_
    exact (returns_checkFrs hcalls _).bind fun _ => (returns_checkNans hcalls _).bind fun _ =>
      returns_call (hprints.binary op (by simpa using hop))
  · refine returns_forM fun op hop => ?_
    exact (returns_checkFrs hcalls _).bind fun _ => (returns_checkNans hcalls _).bind fun _ =>
      returns_call (hprints.unary op (by simpa using hop))
  · refine returns_forM fun op hop => ?_
    exact (returns_checkFrs hcalls _).bind fun _ =>
      returns_call (hprints.store op (by simpa using hop))

variable (hslot : Decides b slot) (hprints : t.Prints instr reloc)

include hslot hprints

/-- A conditional branch: a link out of the function is a call. -/
theorem decides_processConditionalBranch {op : ConditionalBranchOp}
    (hop : conditionalBranchOps (t.translatedId instr) = some op) :
    Decides (if op.link then t.linkRefuses b reloc (instr.getBranchVramGeneric t.decoder) else b)
      (t.processConditionalBranch instr op (t.instructionContext instr reloc) slot linkBranchIndex
        reloc) := by
  refine (returns_when returns_emitLink).bind_decides fun _ =>
    (returns_call (hprints.branch op hop)).bind_decides fun _ => Decides.bind ?_ fun _ =>
      (returns_call (hcalls _ rfl)).bind fun _ => returns_pure _
  have htree : Decides b (withoutLink
      (t.emitBranchTree slot instr.vram (instr.getBranchVramGeneric t.decoder))) :=
    decides_withoutLink (decides_emitBranchTree hslot hcalls)
  unfold emitTaken linkRefuses
  cases op.link with
  | false => simpa using htree
  | true =>
    cases hin : t.func.contains (instr.getBranchVramGeneric t.decoder) with
    | true => simpa [hin] using htree
    | false => simpa [hin] using decides_emitCallByAddress hslot hcalls hprints.symbol

/-- The instructions with a case of their own. A conditional branch has none. -/
theorem decides_controlCase (h : conditionalBranchOps (t.translatedId instr) = none) :
    Decides (t.instructionRefuses b instr reloc)
      ((t.controlCase instr (t.translatedId instr) slot linkBranchIndex reloc).getD
        (pure false)) := by
  unfold instructionRefuses controlCase
  simp only
  generalize t.translatedId instr = id at h
  split
  case h_1 => exact decides_withoutLink (decides_emitCtc1 hcalls)
  case h_2 => exact decides_withoutLink (decides_emitCfc1 hcalls)
  case h_3 => exact decides_emitJal hslot hcalls hprints
  case h_4 => exact decides_emitJalr hslot hcalls
  case h_5 | h_6 => exact decides_withoutLink (decides_emitJump hslot hcalls)
  case h_7 => exact decides_withoutLink (decides_emitJr hslot hcalls)
  case h_8 hctc1 hcfc1 hjal hjalr hj hb hjr =>
    rw [h]
    change Decides false _
    split <;> try contradiction
    case h_1 | h_2 => exact decides_withoutLink (b := false) (returns_pure _)
    case h_3 => exact decides_withoutLink (b := false) (returns_emitMfc0 hcalls)
    case h_4 => exact decides_withoutLink (b := false) (returns_emitMtc0 hcalls)
    case h_5 | h_6 => exact decides_withoutLink (b := false) (returns_emitJtblAddend hcalls)
    case h_7 | h_8 | h_9 | h_10 | h_11 | h_12 | h_13 | h_14 | h_21 =>
      exact decides_withoutLink (b := false) (returns_call (hcalls _ rfl))
    case h_20 =>
      exact decides_withoutLink (b := false)
        ((returns_call (hcalls _ rfl)).bind fun _ => returns_call (hcalls _ rfl))
    case h_24 => exact returns_pure _

omit hcalls hslot hprints in
/-- A conditional branch has no case of its own. -/
theorem control_of_conditional (b : Bool) (slot : Emission Unit) (linkBranchIndex : Nat)
    (reloc : RelocInfo) {op : ConditionalBranchOp}
    (hop : conditionalBranchOps (t.translatedId instr) = some op) :
    t.controlCase instr (t.translatedId instr) slot linkBranchIndex reloc = none ∧
      t.instructionRefuses b instr reloc =
        if op.link then t.linkRefuses b reloc (instr.getBranchVramGeneric t.decoder) else b := by
  unfold instructionRefuses controlCase
  generalize t.translatedId instr = id at hop
  unfold conditionalBranchOps at hop
  split at hop
  all_goals first
    | exact ⟨rfl, by cases hop; rfl⟩
    | cases hop

/-- **The step.** Whether an instruction is refused depends on its slot as `instructionRefuses`
says. -/
theorem decides_processRelocated {emitLinkBranch : Bool} :
    Decides (t.instructionRefuses b instr reloc)
      (t.processRelocated instr slot emitLinkBranch linkBranchIndex reloc) := by
  unfold processRelocated
  cases hop : conditionalBranchOps (t.translatedId instr) with
  | none =>
    simp only [hop, Option.map_none, Option.getD_none]
    exact (decides_controlCase hcalls hslot hprints hop).bind fun _ =>
      (returns_processOps hcalls hprints).bind fun _ => (returns_pure _).bind fun _ =>
        (returns_when (returns_raw _)).bind fun _ =>
          (returns_when (returns_call (hcalls _ rfl))).bind fun _ => returns_pure _
  | some op =>
    obtain ⟨hcontrol, hrefuses⟩ := control_of_conditional b slot linkBranchIndex reloc hop
    rw [hrefuses]
    simp only [hop, hcontrol, Option.map_some, Option.getD_some, Option.getD_none]
    exact (returns_pure _).bind_decides fun _ =>
      (returns_processOps hcalls hprints).bind_decides fun _ =>
        (decides_processConditionalBranch hcalls hslot hprints hop).bind fun _ =>
          (returns_when (returns_raw _)).bind fun _ =>
            (returns_when (returns_call (hcalls _ rfl))).bind fun _ => returns_pure _

end Instructions

/-! ### The loop -/

section Loop

variable {t} (hcalls : ∀ c : Call, c.printsOperands = false → t.generator c = .ok ())

include hcalls

theorem decides_processBody {instr : InstructionCpu} {slot : Emission Unit} {b : Bool}
    (hslot : Decides b slot) (hprints : t.PrintsAll instr) {index linkBranchIndex relocIndex : Nat}
    {emitLinkBranch : Bool} :
    Decides (t.instructionRefuses b instr (t.relocAt instr relocIndex))
      (t.processBody instr index slot emitLinkBranch linkBranchIndex relocIndex) := by
  have hhook : Returns (t.emitHook index) := by
    unfold emitHook
    split
    · exact returns_raw _
    · exact returns_pure _
  obtain ⟨reloc, hreloc, hprints⟩ := hprints relocIndex
  have hat : t.relocAt instr relocIndex = reloc := by
    rw [relocAt, hreloc, Option.getD_some]
  refine hhook.bind_decides fun _ => (returns_call (hcalls _ rfl)).bind_decides fun _ => ?_
  rw [hreloc, hat]
  exact decides_processRelocated hcalls hslot hprints

/-- The first instruction of a suffix, over the words that follow. -/
theorem decides_processInstruction {instrs : List InstructionCpu}
    (hprints : ∀ instr ∈ instrs, t.PrintsAll instr) {index linkBranchIndex relocIndex : Nat}
    {emitLinkBranch : Bool} :
    Decides (t.refuses instrs relocIndex)
      (t.processInstruction instrs index emitLinkBranch linkBranchIndex relocIndex) := by
  induction instrs generalizing index emitLinkBranch relocIndex with
  | nil => exact refuses_refuse
  | cons instr rest ih =>
    cases rest with
    | nil => exact decides_processBody hcalls (b := true) refuses_refuse (hprints instr (by simp))
    | cons next rest =>
      refine decides_processBody hcalls ?_ (hprints instr (by simp))
      exact (ih fun i hi => hprints i (by simp [hi])).bind fun _ => returns_pure _

theorem returns_emitPendingLabel {vram : BitVec 32} (labels : List (BitVec 32)) :
    Returns (t.emitPendingLabel vram labels) := by
  unfold emitPendingLabel
  split
  · exact returns_pure _
  · split
    · exact (returns_call (hcalls _ rfl)).bind fun _ => returns_pure _
    · exact returns_pure _

theorem decides_emitInstruction {instr : InstructionCpu} {rest : List InstructionCpu}
    (hprints : ∀ i ∈ instr :: rest, t.PrintsAll i) {index : Nat} {s : LoopState} :
    Decides (t.refuses (instr :: rest) (t.relocIndexAt instr s.relocIndex))
      (t.emitInstruction (instr :: rest) instr.vram index s) :=
  (returns_when (returns_call (hcalls _ rfl))).bind_decides fun _ =>
    (returns_emitPendingLabel hcalls _).bind_decides fun _ =>
      (decides_processInstruction hcalls hprints).bind fun _ =>
        (returns_when (returns_call (hcalls _ rfl))).bind fun _ => returns_pure _

omit hcalls in
/-- The cursor over the relocations is where the instruction's address puts it. -/
theorem emitInstruction_relocIndex {instrs : List InstructionCpu} {instr : InstructionCpu}
    {index : Nat} {s s' : LoopState} {statics statics' : Statics} {l : List Item}
    (h : Done (t.emitInstruction instrs instr.vram index s) statics s' l statics') :
    s'.relocIndex = t.relocIndexAt instr s.relocIndex := by
  unfold emitInstruction at h
  obtain ⟨_, _, _, _, -, h, -⟩ := done_bind.mp h
  obtain ⟨_, _, _, _, -, h, -⟩ := done_bind.mp h
  obtain ⟨_, _, _, _, -, h, -⟩ := done_bind.mp h
  obtain ⟨_, _, _, _, -, h, -⟩ := done_bind.mp h
  obtain ⟨rfl, -, -⟩ := done_pure.mp h
  rfl

/-- The whole loop refuses when one of its instructions is refused. -/
theorem decides_emitInstructions {instrs : List InstructionCpu}
    (hprints : ∀ i ∈ instrs, t.PrintsAll i) {index : Nat} {s : LoopState} :
    Decides (t.emissionRefuses instrs s.relocIndex) (t.emitInstructions instrs index s) := by
  induction instrs generalizing index s with
  | nil => exact returns_pure _
  | cons instr rest ih =>
    refine (decides_emitInstruction hcalls hprints).bind_done fun statics s' l statics' h => ?_
    rw [← emitInstruction_relocIndex h]
    exact ih fun i hi => hprints i (by simp [hi])

omit hcalls in
theorem returns_emitFallthrough : Returns t.emitFallthrough := by
  have hto : ∀ i, Returns (t.emitFallthroughTo i) := fun i =>
    (returns_raw _).bind fun _ => (returns_raw _).bind fun _ => returns_emitTraceReturn.bind fun _ =>
      returns_raw _
  unfold emitFallthrough
  split
  · split
    · exact returns_pure _
    · exact returns_when (hto _)
  · exact returns_pure _

end Loop

/-! ### Functions that are cut at a transfer -/

/-- Whether an instruction before the last one is refused. -/
def earlierRefuses : List InstructionCpu → (relocIndex : Nat) → Bool
  | instr :: next :: rest, relocIndex =>
    let relocIndex := t.relocIndexAt instr relocIndex
    t.refuses (instr :: next :: rest) relocIndex || earlierRefuses (next :: rest) relocIndex
  | _, _ => false

/-- Whether the last instruction ignores its slot. -/
def lastIgnoresSlot : List InstructionCpu → (relocIndex : Nat) → Bool
  | [], _ => false
  | [instr], relocIndex => t.ignoresSlot instr (t.relocAt instr (t.relocIndexAt instr relocIndex))
  | instr :: next :: rest, relocIndex =>
    lastIgnoresSlot (next :: rest) (t.relocIndexAt instr relocIndex)

/-- When the last instruction is a transfer, it decides together with those before it. -/
theorem emissionRefuses_cut {instrs : List InstructionCpu} {last : InstructionCpu}
    (hlast : instrs.getLast? = some last)
    (htransfer : isTransfer (last.uniqueId t.decoder) = true) (relocIndex : Nat) :
    t.emissionRefuses instrs relocIndex =
      (t.earlierRefuses instrs relocIndex || !t.lastIgnoresSlot instrs relocIndex) := by
  induction instrs generalizing relocIndex with
  | nil => cases hlast
  | cons instr rest ih =>
    cases rest with
    | nil =>
      obtain rfl : instr = last := by simpa using hlast
      simp [emissionRefuses, earlierRefuses, lastIgnoresSlot, refuses,
        t.instructionRefuses_true htransfer]
    | cons next rest =>
      have hlast' : (next :: rest).getLast? = some last := by
        rwa [List.getLast?_cons_cons] at hlast
      rw [emissionRefuses, ih hlast', earlierRefuses, lastIgnoresSlot, Bool.or_assoc]

end Translation

namespace Recompiler

variable {r : Recompiler} {funcIndex : Nat} {func : Function} {tagReferenceRelocs : Bool}
  {jumpTables : List JumpTable}

theorem refuses_translation (statics : Statics) (instrs : List InstructionCpu) (relocIndex : Nat) :
    (r.translation funcIndex func tagReferenceRelocs jumpTables statics).refuses instrs relocIndex =
      (r.translation funcIndex func tagReferenceRelocs jumpTables []).refuses instrs relocIndex := by
  induction instrs generalizing relocIndex with
  | nil => rfl
  | cons instr rest ih =>
    cases rest with
    | nil => rfl
    | cons next rest =>
      rw [Translation.refuses, ih, Translation.refuses]
      rfl

/-- Which instructions are refused does not depend on the requests for static functions. -/
theorem emissionRefuses_translation (statics : Statics) (instrs : List InstructionCpu)
    (relocIndex : Nat) :
    (r.translation funcIndex func tagReferenceRelocs jumpTables statics).emissionRefuses instrs
        relocIndex =
      (r.translation funcIndex func tagReferenceRelocs jumpTables []).emissionRefuses instrs
        relocIndex := by
  induction instrs generalizing relocIndex with
  | nil => rfl
  | cons instr rest ih =>
    rw [Translation.emissionRefuses, Translation.emissionRefuses, ih, refuses_translation]
    rfl

variable (r) in
/-- When the translation of a function that ends with a transfer is refused. -/
def CutRefused (funcIndex : Nat) (func : Function) (tagReferenceRelocs : Bool) : Prop :=
  let instrs := decodeFrom func.vram func.words
  func.stubbed = false ∧
    match analyzeFunction r.decoder r.context func instrs with
    | .failed => True
    | .outOfBounds => False
    | .tables jumpTables =>
      let t := r.translation funcIndex func tagReferenceRelocs jumpTables []
      t.earlierRefuses instrs 0 = true ∨ t.lastIgnoresSlot instrs 0 = false

variable (hcalls : ∀ c : Call, c.printsOperands = false → r.generator c = .ok ())

include hcalls

theorem returns_call {c : Call} (h : c.printsOperands = false) : Returns (r.call c) := by
  unfold call
  rw [hcalls c h]
  exact returns_write _

theorem returns_emitPrologue : Returns (r.emitPrologue func) :=
  Returns.bind (returns_when (returns_write _)) fun _ => (returns_write _).bind fun _ =>
    (returns_write _).bind fun _ => returns_call hcalls rfl

/-- The body, once the jump tables are known. -/
theorem decides_emitTables
    (hprints : ∀ statics, ∀ instr ∈ decodeFrom func.vram func.words,
      (r.translation funcIndex func tagReferenceRelocs jumpTables statics).PrintsAll instr) :
    Decides ((r.translation funcIndex func tagReferenceRelocs jumpTables []).emissionRefuses
        (decodeFrom func.vram func.words) 0) (do
      let statics ← Emit.read
      let t := r.translation funcIndex func tagReferenceRelocs jumpTables statics
      t.emitInstructions t.instructions 0 (LoopState.start t.branchLabels)
      t.emitFallthrough) := by
  refine returns_read.bind_decides fun statics => ?_
  rw [← emissionRefuses_translation statics]
  exact Decides.bind (Translation.decides_emitInstructions hcalls (hprints statics)
      (s := LoopState.start _)) fun _ =>
    Translation.returns_emitFallthrough

/-- The body of a function that ends with a transfer. -/
theorem emitBody_refused_iff (hstubbed : func.stubbed = false) {last : BitVec 32}
    (hlast : func.words.getLast? = some last)
    (htransfer : isTransfer (r.decoder.uniqueId (byteswap last)) = true)
    (hprints : ∀ jumpTables, analyzeFunction r.decoder r.context func
        (decodeFrom func.vram func.words) = .tables jumpTables → ∀ statics,
      ∀ instr ∈ decodeFrom func.vram func.words,
        (r.translation funcIndex func tagReferenceRelocs jumpTables statics).PrintsAll instr)
    (statics : Statics) :
    (r.emitBody funcIndex func tagReferenceRelocs statics).ending = .refused ↔
      r.CutRefused funcIndex func tagReferenceRelocs := by
  unfold emitBody
  obtain ⟨_, _, statics', -, hend⟩ := (returns_emitPrologue hcalls).ending_bind statics
  rw [hend, CutRefused]
  simp only [hstubbed, true_and]
  cases htables : analyzeFunction r.decoder r.context func (decodeFrom func.vram func.words) with
  | failed => exact ⟨fun _ => trivial, fun _ => rfl⟩
  | outOfBounds =>
    refine ⟨fun h => ?_, fun h => h.elim⟩
    cases h
  | tables jumpTables =>
    have htransfer' : isTransfer
        ((r.translation funcIndex func tagReferenceRelocs jumpTables []).decoder.uniqueId
          (byteswap last)) = true := htransfer
    have hdecides := decides_emitTables hcalls (hprints jumpTables htables)
    rw [Translation.emissionRefuses_cut _ (getLast?_decodeFrom hlast) htransfer'] at hdecides
    exact (hdecides.refused_iff statics').trans (by simp)

end Recompiler

/-- **Functions that are cut at a transfer.** The function is refused exactly when it is not stubbed
and its jump tables are not understood, an earlier instruction is refused, or its last instruction
does not ignore its slot. -/
theorem recompile_cut_function {r : Recompiler} {funcIndex : Nat} {func : Function}
    {last : BitVec 32} (hfunc : r.context.functions[funcIndex]? = some func)
    (hlast : func.words.getLast? = some last)
    (htransfer : isTransfer (r.decoder.uniqueId (byteswap last)) = true) (tagReferenceRelocs : Bool)
    (hcalls : ∀ c : Call, c.printsOperands = false → r.generator c = .ok ())
    (hprints : ∀ jumpTables, analyzeFunction r.decoder r.context func
        (decodeFrom func.vram func.words) = .tables jumpTables → ∀ statics,
      ∀ instr ∈ decodeFrom func.vram func.words,
        (r.translation funcIndex func tagReferenceRelocs jumpTables statics).PrintsAll instr)
    (statics : Statics) :
    (r.recompileFunctionImpl funcIndex tagReferenceRelocs statics).ending = .refused ↔
      r.CutRefused funcIndex func tagReferenceRelocs := by
  unfold Recompiler.recompileFunctionImpl
  rw [hfunc]
  simp only
  obtain ⟨_, _, statics₁, -, hend⟩ :=
    (Recompiler.returns_call hcalls (c := .functionStart func.name) rfl).ending_bind statics
  rw [hend]
  have htrace : Returns
      (Emit.when r.context.traceMode (Emit.write [.raw .traceEntry]) : Emission Unit) :=
    returns_when (returns_write _)
  obtain ⟨_, _, statics₂, -, hend⟩ := htrace.ending_bind statics₁
  rw [hend, refused_bind_iff fun _ => Recompiler.returns_call hcalls rfl]
  cases hstubbed : func.stubbed with
  | false =>
    simpa [Emit.when] using
      Recompiler.emitBody_refused_iff hcalls hstubbed hlast htransfer hprints statics₂
  | true =>
    refine ⟨fun h => ?_, fun h => ?_⟩
    · cases h
    · rw [Recompiler.CutRefused, hstubbed] at h
      cases h.1

/-- A function that is a `jr $ra` is refused. -/
theorem recompile_cut_return :
    ((sampleRecompiler [0x03E00008]).recompileFunctionImpl 0 false []).ending = .refused := by
  have htables : analyzeFunction (sampleRecompiler [0x03E00008]).decoder (sampleRecompiler [0x03E00008]).context
      (sampleFunction [0x03E00008])
      (decodeFrom (sampleFunction [0x03E00008]).vram (sampleFunction [0x03E00008]).words) =
        .tables [] := by decide
  have hfunc : (sampleRecompiler [0x03E00008]).context.functions[0]? =
      some (sampleFunction [0x03E00008]) := rfl
  have hlast : (sampleFunction [0x03E00008]).words.getLast? = some (byteswap 0x03E00008) := rfl
  refine (recompile_cut_function hfunc hlast (by decide) false
    (fun c => cGenerator_of_not_printsOperands _) ?_ []).mpr ⟨rfl, ?_⟩
  · intro jumpTables h statics instr hinstr k
    obtain rfl : [] = jumpTables := Analysis.tables.inj (htables.symm.trans h)
    obtain rfl := List.mem_singleton.mp hinstr
    refine ⟨RelocInfo.none, rfl, ?_⟩
    constructor <;> rintro _ ⟨⟩
  · rw [htables]
    exact .inr (by decide)

/-- A function that is a `jr $t0` is translated, to a function that does nothing. -/
theorem recompile_cut_tailcall :
    let r := sampleRecompiler [0x01000008]
    isTransfer (r.decoder.uniqueId 0x01000008) = true ∧
      (r.recompileFunctionImpl 0 false []).ending = .done () ∧
      (r.recompileFunctionImpl 0 false []).items =
        [.call (.functionStart (ascii "func_80000400")), .call (.label (.at_ 0x80000400)),
          .call (.comment 0x80000400), .call .functionEnd] := by
  decide

end N64Recomp
