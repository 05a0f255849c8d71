import N64Recomp.Recompilation.Refusal

/-!
# The labels that the translation names

Which labels the items of a translation define, and which they can go to. An instruction defines no
label but the one behind the slot of a call, and goes to labels of the function, and to the label
behind its own slot when it asks for one.

## Main definitions

* `Item.label`, `Item.targets`: the label that an item defines, and the labels that it can go to
* `Translation.IsLocal`: the addresses of the function that have a label
* `Translation.ReachesLabels`: every address that an instruction goes to has a label

## Main results

* `Translation.straight_processInstruction`: an instruction that is no transfer goes nowhere
* `Translation.items_processInstruction`: the labels that an instruction defines and goes to
-/

namespace N64Recomp

open Emit

/-! ### Items -/

/-- The label that an item defines. -/
def Item.label : Item → Option Label
  | .call (.label l) => some l
  | _ => none

/-- The labels of the tail-call handling behind a call. -/
def CallLabels.targets (labels : CallLabels) : List Label :=
  labels.localLabels.map .at_ ++ if labels.returnVram ≠ 0 then [.at_ labels.returnVram] else []

/-- The labels that an item can go to. -/
def Item.targets : Item → List Label
  | .call (.goto target) | .call (.case_ _ target) => [target]
  | .call (.functionCallLookup _ labels) | .call (.functionCallByRegister _ labels)
  | .call (.functionCallReferenceSymbol _ _ _ labels) | .call (.functionCall _ labels)
  | .call (.namedFunctionCall _ labels) => labels.targets
  | .raw (.dispatchCase vram) | .raw (.gotoEntry vram) | .raw (.jrCase vram) => [.at_ vram]
  | _ => []

/-- Whether an item starts or ends a block: the `if` of a branch, or the switch over the dispatch
entries. -/
def Item.isBracket : Item → Bool
  | .call (.branchCondition ..) | .call .branchClose | .raw .dispatchOpen | .raw .dispatchReject => true
  | _ => false

/-- The labels that items define, in their order. -/
def labelsOf (items : List Item) : List Label := items.filterMap Item.label

@[simp] theorem labelsOf_nil : labelsOf [] = [] := rfl

@[simp] theorem labelsOf_append (items items' : List Item) :
    labelsOf (items ++ items') = labelsOf items ++ labelsOf items' := List.filterMap_append

theorem mem_labelsOf {items : List Item} {l : Label} :
    l ∈ labelsOf items ↔ ∃ i ∈ items, i.label = some l := List.mem_filterMap

theorem labelsOf_eq_nil {items : List Item} (h : ∀ i ∈ items, i.label = none) :
    labelsOf items = [] := List.filterMap_eq_nil_iff.mpr h

namespace Translation

variable (t : Translation)

/-- The addresses that have a label in the function. -/
def IsLocal (vram : BitVec 32) : Prop := vram = t.func.vram ∨ vram ∈ t.branchLabels

/-- An item that defines no label, goes nowhere, and is neither the start nor the end of a block. -/
structure Straight (i : Item) : Prop where
  label : i.label = none
  targets : i.targets = []
  plain : i.isBracket = false

/-- An item that defines no label and goes to labels of the function. -/
def GoesLocal (i : Item) : Prop :=
  i.label = none ∧ ∀ target ∈ i.targets, ∃ vram, target = .at_ vram ∧ t.IsLocal vram

/-- An item that defines no label, and goes to labels of the function or behind the slot. -/
def GoesAfter (n : Nat) (i : Item) : Prop :=
  i.label = none ∧ ∀ target ∈ i.targets,
    (∃ vram, target = .at_ vram ∧ t.IsLocal vram) ∨ target = .after n

variable {t} in
theorem Straight.goesLocal {i : Item} (h : Straight i) : t.GoesLocal i :=
  ⟨h.label, fun _ htarget => by rw [h.targets] at htarget; cases htarget⟩

variable {t} in
theorem GoesLocal.goesAfter {i : Item} (h : t.GoesLocal i) (n : Nat) : t.GoesAfter n i :=
  ⟨h.1, fun target htarget => .inl (h.2 target htarget)⟩

/-- Every address of the function that the instructions go to has a label. -/
structure ReachesLabels : Prop where
  branches : ∀ instr ∈ t.instructions, instr.isBranch t.decoder = true ∨
    instr.uniqueId t.decoder ∈ [InstrId.j, .jal] →
      t.func.contains (instr.getBranchVramGeneric t.decoder) = true →
        t.IsLocal (instr.getBranchVramGeneric t.decoder)
  tables : ∀ jtbl ∈ t.jumpTables, ∀ vram ∈ jtbl.entries, t.IsLocal vram
  tailcalls : ∀ vram ∈ t.localTailcallLabels, t.IsLocal vram

section Parts

variable {t} {slot : Emission Unit} {vram target : BitVec 32} {n : Nat} {reg : Fin 32}
  {reloc : RelocInfo} {P : Item → Prop}

theorem writes_call {c : Call} (h : P (.call c)) : Writes P (t.call c) := by
  unfold call
  split
  · exact writes_write fun i hi => List.mem_singleton.mp hi ▸ h
  · exact writes_abort _

theorem writes_raw {r : Raw} (h : P (.raw r)) : Writes P (raw r) :=
  writes_write fun _ hi => List.mem_singleton.mp hi ▸ h

theorem writes_forM {γ : Type} {l : List γ} {f : γ → Emission Unit}
    (hf : ∀ x ∈ l, Writes P (f x)) : Writes P (l.forM f) := by
  induction l with
  | nil => exact writes_pure _
  | cons x l ih =>
    exact (hf x List.mem_cons_self).bind fun _ => ih fun y hy => hf y (List.mem_cons_of_mem x hy)

theorem straight_call {c : Call} (hlabel : (Item.call c).label = none)
    (htargets : (Item.call c).targets = []) (hplain : (Item.call c).isBracket = false) :
    Writes Straight (t.call c) :=
  writes_call ⟨hlabel, htargets, hplain⟩

theorem straight_raw {r : Raw} (htargets : (Item.raw r).targets = [])
    (hplain : (Item.raw r).isBracket = false) : Writes Straight (raw r) :=
  writes_raw ⟨rfl, htargets, hplain⟩

theorem goesLocal_of_straight {α : Type} {m : Emission α} (h : Writes Straight m) :
    Writes t.GoesLocal m := h.mono fun _ hi => hi.goesLocal

theorem goesLocal_of_targets {i : Item} (hlabel : i.label = none) (htargets : i.targets = []) :
    t.GoesLocal i :=
  ⟨hlabel, fun _ htarget => by rw [htargets] at htarget; cases htarget⟩

theorem goesLocal_call {c : Call} (hlabel : (Item.call c).label = none)
    (htargets : (Item.call c).targets = []) : Writes t.GoesLocal (t.call c) :=
  writes_call (goesLocal_of_targets hlabel htargets)

theorem goesLocal_raw {r : Raw} (h : (Item.raw r).targets = []) : Writes t.GoesLocal (raw r) :=
  writes_raw (goesLocal_of_targets rfl h)

theorem straight_emitTraceReturn : Writes Straight t.emitTraceReturn := (straight_raw rfl rfl).when

theorem straight_emitLink : Writes Straight (t.emitLink reg vram) :=
  (straight_raw rfl rfl).bind fun _ => (writes_modify _).when

theorem goesLocal_goto (h : t.IsLocal target) :
    Writes t.GoesLocal (t.call (.goto (.at_ target))) :=
  writes_call ⟨rfl, fun _ hl => ⟨target, List.mem_singleton.mp hl, h⟩⟩

/-- The labels behind a call are labels of the function. -/
theorem targets_callLabels (h : t.ReachesLabels) {target : Label}
    (htarget : target ∈ (t.callLabels vram).targets) : ∃ v, target = .at_ v ∧ t.IsLocal v := by
  rcases List.mem_append.mp htarget with htarget | htarget
  · obtain ⟨v, hv, rfl⟩ := List.mem_map.mp htarget
    exact ⟨v, rfl, h.tailcalls v (List.mem_filter.mp hv).1⟩
  · unfold callLabels at htarget
    by_cases hmem : vram + 8 ∈ t.branchLabels
    · simp only [if_pos hmem] at htarget
      split at htarget
      · exact ⟨_, List.mem_singleton.mp htarget, .inr hmem⟩
      · cases htarget
    · simp only [if_neg hmem] at htarget
      cases htarget

theorem goesLocal_emitJrCases : Writes t.GoesLocal (t.emitJrCases vram) := by
  have hcases : ∀ v ∈ t.branchLabels.elems.filter t.func.contains, v ∈ t.branchLabels :=
    fun v hv => (List.mem_filter.mp hv).1
  unfold emitJrCases
  generalize t.branchLabels.elems.filter t.func.contains = labels at hcases
  split
  · exact writes_pure _
  · refine (goesLocal_raw rfl).bind fun _ => Writes.bind ?_ fun _ => goesLocal_raw rfl
    refine writes_write fun i hi => ?_
    obtain ⟨v, hv, rfl⟩ := List.mem_map.mp hi
    exact ⟨rfl, fun _ hl => ⟨v, List.mem_singleton.mp hl, .inr (hcases v hv)⟩⟩

/-! ### The parts of a transfer -/

section Slot

variable (hslot : Writes t.GoesLocal slot)

include hslot

theorem goesLocal_emitJrRaReturn : Writes t.GoesLocal (t.emitJrRaReturn slot vram) :=
  (goesLocal_raw rfl).bind fun _ => hslot.bind fun _ => (goesLocal_raw rfl).bind fun _ =>
    goesLocal_emitJrCases.bind fun _ => (goesLocal_raw rfl).bind fun _ =>
      (goesLocal_call rfl rfl).bind fun _ => goesLocal_raw rfl

theorem goesLocal_emitTailcallByRegister :
    Writes t.GoesLocal (t.emitTailcallByRegister slot reg) :=
  hslot.bind fun _ => (goesLocal_raw rfl).bind fun _ =>
    (goesLocal_of_straight straight_emitTraceReturn).bind fun _ => goesLocal_raw rfl

theorem goesLocal_emitTailcallByAddress :
    Writes t.GoesLocal (t.emitTailcallByAddress slot target) :=
  hslot.bind fun _ => (goesLocal_raw rfl).bind fun _ => (goesLocal_raw rfl).bind fun _ =>
    (goesLocal_of_straight straight_emitTraceReturn).bind fun _ => goesLocal_raw rfl

theorem goesLocal_emitTailcallByFunction (name : Str) :
    Writes t.GoesLocal (t.emitTailcallByFunction slot name target) :=
  hslot.bind fun _ => (goesLocal_raw rfl).bind fun _ => (goesLocal_raw rfl).bind fun _ =>
    (goesLocal_of_straight straight_emitTraceReturn).bind fun _ => goesLocal_raw rfl

theorem goesLocal_emitUnhandledBranch :
    Writes t.GoesLocal (t.emitUnhandledBranch slot vram target) :=
  hslot.bind fun _ => (goesLocal_raw rfl).bind fun _ => goesLocal_call rfl rfl

theorem goesLocal_emitTailBranch : Writes t.GoesLocal (t.emitTailBranch slot vram target) := by
  unfold emitTailBranch
  split
  · exact goesLocal_emitTailcallByFunction hslot _
  · refine writes_read.bind fun statics => ?_
    split
    · exact (writes_modify _).bind fun _ => goesLocal_emitTailcallByFunction hslot _
    · exact goesLocal_emitUnhandledBranch hslot
  · exact goesLocal_emitTailcallByAddress hslot
  · exact goesLocal_emitUnhandledBranch hslot

theorem goesLocal_emitBranchTree (h : t.func.contains target = true → t.IsLocal target) :
    Writes t.GoesLocal (t.emitBranchTree slot vram target) := by
  unfold emitBranchTree
  split
  · rename_i hin
    exact hslot.bind fun _ => (goesLocal_raw rfl).when.bind fun _ => goesLocal_goto (h hin)
  · exact goesLocal_emitTailBranch hslot

theorem goesLocal_emitJumpTable (hreach : t.ReachesLabels) {jtbl : JumpTable}
    (hjtbl : jtbl ∈ t.jumpTables) : Writes t.GoesLocal (t.emitJumpTable slot vram jtbl reg) := by
  refine hslot.bind fun _ => (goesLocal_call rfl rfl).bind fun _ => Writes.bind ?_ fun _ =>
    (goesLocal_call rfl rfl).bind fun _ => goesLocal_call rfl rfl
  refine writes_forM fun x hx => writes_call ⟨rfl, fun _ hl => ⟨x.1, ?_, ?_⟩⟩
  · exact List.mem_singleton.mp hl
  · exact hreach.tables jtbl hjtbl x.1 (List.fst_mem_of_mem_zipIdx hx)

theorem goesLocal_emitJr (hreach : t.ReachesLabels) {instr : InstructionCpu} :
    Writes t.GoesLocal (t.emitJr instr slot) := by
  unfold emitJr emitJrRegister
  split
  · exact goesLocal_emitJrRaReturn hslot
  split
  · rename_i jtbl hjtbl
    exact goesLocal_emitJumpTable hslot hreach (List.mem_of_find?_eq_some hjtbl)
  · exact Writes.bind (writes_modify _).when fun _ =>
      (goesLocal_emitTailcallByRegister hslot).dropRefusal

theorem goesLocal_emitJump {instr : InstructionCpu}
    (h : t.func.contains (instr.getBranchVramGeneric t.decoder) = true →
      t.IsLocal (instr.getBranchVramGeneric t.decoder)) :
    Writes t.GoesLocal (t.emitJump instr slot) := by
  unfold emitJump
  dsimp only
  split
  · exact goesLocal_call rfl rfl
  · exact goesLocal_emitBranchTree hslot h

end Slot

/-! ### The transfers that link -/

variable (t) in
/-- An emission goes behind the slot only when it says so. -/
structure Continues (n : Nat) (m : Emission Bool) : Prop where
  goesAfter : Writes (t.GoesAfter n) m
  without : ∀ statics items statics', Done m statics false items statics' →
    ∀ i ∈ items, t.GoesLocal i

theorem continues_of_goesLocal {m : Emission Bool} (h : Writes t.GoesLocal m) :
    t.Continues n m where
  goesAfter := h.mono fun _ hi => hi.goesAfter n
  without _ _ _ hdone := h.done hdone

theorem continues_withoutLink {m : Emission Unit} (h : Writes t.GoesLocal m) :
    t.Continues n (withoutLink m) :=
  continues_of_goesLocal (h.bind fun _ => writes_pure _)

/-- What comes in front of an emission, when it goes to labels of the function. -/
theorem Continues.bind {α : Type} {m : Emission α} {f : α → Emission Bool}
    (hm : Writes t.GoesLocal m) (hf : ∀ a, t.Continues n (f a)) : t.Continues n (m >>= f) where
  goesAfter := (hm.mono fun _ hi => hi.goesAfter n).bind fun a => (hf a).goesAfter
  without statics items statics' hdone i hi := by
    obtain ⟨a, l₁, s₁, l₂, h₁, h₂, rfl⟩ := done_bind.mp hdone
    rcases List.mem_append.mp hi with hi | hi
    · exact hm.done h₁ i hi
    · exact (hf a).without s₁ l₂ statics' h₂ i hi

/-- An emission that always says that it goes behind the slot. -/
theorem continues_true {m : Emission Unit} (h : Writes (t.GoesAfter n) m) :
    t.Continues n (do m; return true) where
  goesAfter := h.bind fun _ => writes_pure _
  without statics items statics' hdone := by
    obtain ⟨_, _, _, _, -, h, -⟩ := done_bind.mp hdone
    cases (done_pure.mp h).1

theorem continues_refuse : t.Continues n refuse := continues_of_goesLocal writes_refuse

theorem goesAfter_emitLinkContinuation :
    Writes (t.GoesAfter n) (t.emitLinkContinuation true n) :=
  (writes_call ⟨rfl, fun _ hl => .inr (List.mem_singleton.mp hl)⟩).when

section Slot

variable (hslot : Writes t.GoesLocal slot) (hreach : t.ReachesLabels)

include hslot

/-- A call, whose labels are labels of the function. -/
theorem continues_emitCallWithSlot {c : Call} (hlabel : (Item.call c).label = none)
    (htargets : ∀ target ∈ (Item.call c).targets, ∃ v, target = .at_ v ∧ t.IsLocal v) :
    t.Continues n (t.emitCallWithSlot slot n c) :=
  .bind hslot fun _ => .bind (writes_call ⟨hlabel, htargets⟩) fun _ =>
    continues_true goesAfter_emitLinkContinuation

include hreach

theorem continues_emitCallByAddress :
    t.Continues n (t.emitCallByAddress slot vram n reloc target) := by
  have hlabels : ∀ target ∈ (t.callLabels vram).targets, ∃ v, target = .at_ v ∧ t.IsLocal v :=
    fun _ => targets_callLabels hreach
  unfold emitCallByAddress
  dsimp only
  split
  · exact continues_emitCallWithSlot hslot rfl fun _ h => by cases h
  split
  · split
    · exact continues_refuse
    split
    · exact continues_emitCallWithSlot hslot rfl hlabels
    split
    · exact continues_of_goesLocal (writes_abort _)
    split
    · exact continues_refuse
    · exact continues_emitCallWithSlot hslot rfl hlabels
  · split
    · exact continues_of_goesLocal ((goesLocal_raw rfl).bind fun _ => writes_pure _)
    · exact continues_emitCallWithSlot hslot rfl hlabels
    · exact .bind (writes_modify _) fun _ => continues_emitCallWithSlot hslot rfl hlabels
    · exact continues_emitCallWithSlot hslot rfl hlabels

variable {instr : InstructionCpu}
  (hlocal : t.func.contains (instr.getBranchVramGeneric t.decoder) = true →
    t.IsLocal (instr.getBranchVramGeneric t.decoder))

theorem continues_emitJalr : t.Continues n (t.emitJalr instr slot n) := by
  unfold emitJalr
  split
  · exact .bind (goesLocal_of_straight straight_emitLink.when) fun _ =>
      .bind (goesLocal_emitTailcallByRegister hslot) fun _ => continues_of_goesLocal (writes_pure _)
  · refine .bind (goesLocal_of_straight straight_emitLink) fun _ => continues_true ?_
    have hcall : Writes t.GoesLocal
        (t.call (.functionCallByRegister instr.rs (t.callLabels instr.vram))) :=
      writes_call ⟨rfl, fun _ => targets_callLabels hreach⟩
    exact (hslot.mono fun _ hi => hi.goesAfter n).bind fun _ =>
      (hcall.mono fun _ hi => hi.goesAfter n).bind fun _ => goesAfter_emitLinkContinuation

include hlocal

theorem continues_emitJal : t.Continues n (t.emitJal instr slot n reloc) := by
  refine .bind (goesLocal_of_straight straight_emitLink) fun _ => ?_
  dsimp only
  split
  · rename_i hin
    exact continues_withoutLink (hslot.bind fun _ => goesLocal_goto (hlocal hin))
  · exact continues_emitCallByAddress hslot hreach

theorem continues_emitTaken (link : Bool) :
    t.Continues n (t.emitTaken instr link slot n reloc) := by
  unfold emitTaken
  dsimp only
  split
  · exact continues_emitCallByAddress hslot hreach
  · exact continues_withoutLink (goesLocal_emitBranchTree hslot hlocal)

theorem continues_processConditionalBranch (op : ConditionalBranchOp) (ctx : InstructionContext) :
    t.Continues n (t.processConditionalBranch instr op ctx slot n reloc) := by
  refine .bind (goesLocal_of_straight straight_emitLink.when) fun _ =>
    .bind (goesLocal_call rfl rfl) fun _ => ?_
  have htaken : t.Continues n (t.emitTaken instr op.link slot n reloc) :=
    continues_emitTaken hslot hreach hlocal op.link
  have hclose : Writes t.GoesLocal (t.call .branchClose) := goesLocal_call rfl rfl
  refine ⟨htaken.goesAfter.bind fun _ => (hclose.mono fun _ hi => hi.goesAfter n).bind fun _ =>
    writes_pure _, fun statics items statics' hdone i hi => ?_⟩
  obtain ⟨needs, l₁, s₁, l₂, h₁, h₂, rfl⟩ := done_bind.mp hdone
  obtain ⟨_, l₃, s₃, l₄, h₃, h₄, rfl⟩ := done_bind.mp h₂
  obtain ⟨rfl, rfl, -⟩ := done_pure.mp h₄
  rw [List.append_nil] at hi
  rcases List.mem_append.mp hi with hi | hi
  · exact htaken.without _ _ _ h₁ i hi
  · exact hclose.done h₃ i hi

end Slot

end Parts

/-! ### The instructions -/

section Instructions

variable {t} {instr : InstructionCpu} {slot : Emission Unit} {n : Nat} {reloc : RelocInfo}
  {id : InstrId} {ctx : InstructionContext}

/-- An emission that goes nowhere, and does not say that it goes behind the slot. -/
structure Silent (m : Emission Bool) : Prop where
  straight : Writes Straight m
  needs : ∀ statics needs items statics', Done m statics needs items statics' → needs = false

theorem silent_pure : Silent (pure false) :=
  ⟨writes_pure _, fun _ _ _ _ h => (done_pure.mp h).1⟩

theorem silent_withoutLink {m : Emission Unit} (h : Writes Straight m) : Silent (withoutLink m) where
  straight := h.bind fun _ => writes_pure _
  needs statics needs items statics' hdone := by
    obtain ⟨_, _, _, _, -, hreturn, -⟩ := done_bind.mp hdone
    exact (done_pure.mp hreturn).1

theorem straight_emitMfc0 : Writes Straight (t.emitMfc0 instr) := by
  unfold emitMfc0
  split
  · exact straight_call rfl rfl rfl
  split
  · exact straight_raw rfl rfl
  · exact straight_raw rfl rfl

theorem straight_emitMtc0 : Writes Straight (t.emitMtc0 instr) := by
  unfold emitMtc0
  split
  · exact straight_call rfl rfl rfl
  split
  · exact straight_raw rfl rfl
  · exact straight_raw rfl rfl

theorem straight_emitJtblAddend : Writes Straight (t.emitJtblAddend instr) := by
  unfold emitJtblAddend
  split
  · exact straight_call rfl rfl rfl
  · exact writes_pure _

theorem straight_emitCtc1 : Writes Straight (t.emitCtc1 instr) := by
  unfold emitCtc1
  split
  · exact writes_refuse
  · exact straight_call rfl rfl rfl

theorem straight_emitCfc1 : Writes Straight (t.emitCfc1 instr) := by
  unfold emitCfc1
  split
  · exact writes_refuse
  · exact straight_call rfl rfl rfl

/-- The cases of the instructions that are no transfers. -/
theorem silent_controlCase (h : id ∉ [InstrId.j, .b, .jal, .jalr, .jr]) :
    Silent ((t.controlCase instr id slot n reloc).getD (pure false)) := by
  simp only [List.mem_cons, List.not_mem_nil, or_false, not_or] at h
  obtain ⟨hj, hb, hjal, hjalr, hjr⟩ := h
  unfold controlCase
  split <;> try contradiction
  case h_1 | h_2 => exact silent_withoutLink (writes_pure _)
  case h_3 => exact silent_withoutLink straight_emitMfc0
  case h_4 => exact silent_withoutLink straight_emitMtc0
  case h_5 | h_6 => exact silent_withoutLink straight_emitJtblAddend
  case h_20 =>
    exact silent_withoutLink ((straight_call rfl rfl rfl).bind fun _ => straight_call rfl rfl rfl)
  case h_22 => exact silent_withoutLink straight_emitCtc1
  case h_23 => exact silent_withoutLink straight_emitCfc1
  case h_24 => exact silent_pure
  all_goals exact silent_withoutLink (straight_call rfl rfl rfl)

theorem straight_doCheckFr (operand : Operand) : Writes Straight (t.doCheckFr ctx operand) := by
  unfold doCheckFr
  split <;> first | exact straight_call rfl rfl rfl | exact writes_pure _

theorem straight_doCheckNan (operand : Operand) : Writes Straight (t.doCheckNan ctx operand) := by
  unfold doCheckNan
  split <;> first | exact straight_call rfl rfl rfl | exact writes_pure _

theorem straight_checkFrs {check : Bool} {operands : List Operand} :
    Writes Straight (t.checkFrs check ctx operands) :=
  (writes_forM fun operand _ => straight_doCheckFr operand).when

theorem straight_checkNans {check : Bool} {operands : List Operand} :
    Writes Straight (t.checkNans check ctx operands) :=
  (writes_forM fun operand _ => straight_doCheckNan operand).when

theorem straight_processOps : Writes Straight (t.processOps id ctx) := by
  refine Writes.bind ?_ fun _ => Writes.bind ?_ fun _ => ?_
  · exact writes_forM fun op _ => straight_checkFrs.bind fun _ => straight_checkNans.bind fun _ =>
      straight_call rfl rfl rfl
  · exact writes_forM fun op _ => straight_checkFrs.bind fun _ => straight_checkNans.bind fun _ =>
      straight_call rfl rfl rfl
  · exact writes_forM fun op _ => straight_checkFrs.bind fun _ => straight_call rfl rfl rfl

theorem straight_emitHook (index : Int) : Writes Straight (t.emitHook index) := by
  unfold emitHook
  split
  · exact straight_raw rfl rfl
  · exact writes_pure _

/-- The load of a jump-table entry is no transfer; the others keep their identity. -/
theorem uniqueId_of_translatedId (h : t.translatedId instr ≠ .addiu) :
    t.translatedId instr = instr.uniqueId t.decoder := by
  unfold translatedId at h ⊢
  split_ifs at h ⊢
  · exact absurd rfl h
  · rfl

/-- The targets of the direct transfers. -/
theorem isLocal_target (hreach : t.ReachesLabels) (hinstr : instr ∈ t.instructions)
    (h : t.translatedId instr ∈ [InstrId.j, .b, .jal] ∨
      (conditionalBranchOps (t.translatedId instr)).isSome)
    (hin : t.func.contains (instr.getBranchVramGeneric t.decoder) = true) :
    t.IsLocal (instr.getBranchVramGeneric t.decoder) := by
  have hid : t.translatedId instr = instr.uniqueId t.decoder := by
    refine uniqueId_of_translatedId fun hid => ?_
    rw [hid] at h
    exact absurd h (by decide)
  rw [hid] at h
  refine hreach.branches instr hinstr ?_ hin
  rcases h with h | h
  · simp only [List.mem_cons, List.not_mem_nil, or_false] at h ⊢
    rcases h with h | h | h
    · exact .inr (.inl h)
    · exact .inl (t.decoder.isBranch_of_b _ h)
    · exact .inr (.inr h)
  · exact .inl (t.decoder.isBranch_of_conditional _ h)

/-- The cases of all instructions, over a slot that goes to labels of the function. -/
theorem continues_controlCase (hslot : Writes t.GoesLocal slot) (hreach : t.ReachesLabels)
    (hinstr : instr ∈ t.instructions) : t.Continues n
      ((t.controlCase instr (t.translatedId instr) slot n reloc).getD (pure false)) := by
  by_cases hmem : t.translatedId instr ∈ [InstrId.j, .b, .jal, .jalr, .jr]
  · have hlocal : t.translatedId instr ∈ [InstrId.j, .b, .jal] → _ :=
      fun h => isLocal_target hreach hinstr (.inl h)
    revert hmem hlocal
    generalize t.translatedId instr = id
    intro hmem hlocal
    simp only [List.mem_cons, List.not_mem_nil, or_false] at hmem
    rcases hmem with rfl | rfl | rfl | rfl | rfl
    · exact continues_withoutLink (goesLocal_emitJump hslot (hlocal (by decide)))
    · exact continues_withoutLink (goesLocal_emitJump hslot (hlocal (by decide)))
    · exact continues_emitJal hslot hreach (hlocal (by decide))
    · exact continues_emitJalr hslot hreach
    · exact continues_withoutLink (goesLocal_emitJr hslot hreach)
  · exact continues_of_goesLocal (goesLocal_of_straight (silent_controlCase hmem).straight)

variable {index relocIndex : Nat} {emitLinkBranch : Bool}

theorem not_mem_of_not_isTransfer (h : isTransfer id = false) :
    id ∉ [InstrId.j, .b, .jal, .jalr, .jr] ∧ conditionalBranchOps id = none := by
  unfold isTransfer at h
  rw [Bool.or_eq_false_iff, decide_eq_false_iff_not, Option.isSome_eq_false_iff,
    Option.isNone_iff_eq_none] at h
  exact h

/-- An instruction that is no transfer goes nowhere, whatever its slot. -/
theorem straight_processBody (h : isTransfer (t.translatedId instr) = false) :
    Writes Straight (t.processBody instr index slot false n relocIndex) := by
  obtain ⟨hcontrol, hbranch⟩ := not_mem_of_not_isTransfer h
  refine (straight_emitHook _).bind fun _ => (straight_call rfl rfl rfl).bind fun _ => ?_
  split
  · exact writes_abort _
  · unfold processRelocated
    simp only [hbranch, Option.map_none, Option.getD_none]
    exact (silent_controlCase hcontrol).straight.bind fun _ => straight_processOps.bind fun _ =>
      (writes_pure _).bind fun _ => (straight_raw rfl rfl).when.bind fun _ =>
        (writes_pure _).bind fun _ => writes_pure _

/-- **An instruction that is no transfer goes nowhere**, whatever comes behind it. -/
theorem straight_processInstruction {rest : List InstructionCpu}
    (h : isTransfer (t.translatedId instr) = false) :
    Writes Straight (t.processInstruction (instr :: rest) index false n relocIndex) := by
  cases rest with
  | nil => exact straight_processBody h
  | cons next rest => exact straight_processBody h

/-- The label behind the slot of a call. -/
def afterLabel (emitLinkBranch : Bool) (n : Nat) : List Item :=
  if emitLinkBranch then [.call (.label (.after n))] else []

variable (t) in
/-- Where the items of an instruction go to: behind the slot only when the instruction says so. -/
structure Labels (n : Nat) (needsLinkBranch : Bool) (items : List Item) : Prop where
  none : ∀ i ∈ items, i.label = none
  goes : ∀ i ∈ items, ∀ target ∈ i.targets,
    (∃ vram, target = .at_ vram ∧ t.IsLocal vram) ∨ target = .after n ∧ needsLinkBranch = true

/-- The items of an emission that says whether it goes behind the slot. -/
theorem Continues.labels {m : Emission Bool} {statics statics' : Statics} {needs : Bool}
    {items : List Item} (h : t.Continues n m) (hdone : Done m statics needs items statics') :
    t.Labels n needs items where
  none i hi := (h.goesAfter.done hdone i hi).1
  goes i hi target htarget := by
    cases needs with
    | true => exact ((h.goesAfter.done hdone i hi).2 target htarget).imp_right fun h => ⟨h, rfl⟩
    | false => exact .inl ((h.without _ _ _ hdone i hi).2 target htarget)

theorem Labels.append {needs needs' : Bool} {items items' : List Item}
    (h : t.Labels n needs items) (h' : t.Labels n needs' items') :
    t.Labels n (needs || needs') (items ++ items') where
  none := List.forall_mem_append.mpr ⟨h.none, h'.none⟩
  goes i hi target htarget := by
    rw [Bool.or_eq_true]
    rcases List.mem_append.mp hi with hi | hi
    · exact (h.goes i hi target htarget).imp_right fun h => ⟨h.1, .inl h.2⟩
    · exact (h'.goes i hi target htarget).imp_right fun h => ⟨h.1, .inr h.2⟩

theorem labels_of_straight {items : List Item} (h : ∀ i ∈ items, Straight i) :
    t.Labels n false items where
  none i hi := (h i hi).label
  goes i hi target htarget := by
    rw [(h i hi).targets] at htarget
    cases htarget

theorem done_afterLabel {statics statics' : Statics} {items : List Item} {u : Unit}
    (h : Done (Emit.when (emitLinkBranch = true) (t.call (.label (.after n)))) statics u items
      statics') : items = afterLabel emitLinkBranch n := by
  rw [done_when] at h
  cases emitLinkBranch with
  | true =>
    rw [if_pos rfl] at h
    unfold call at h
    split at h
    · exact (done_write.mp h).1
    · exact absurd h not_done_abort
  | false => exact h.1

variable (t) in
/-- The items of an instruction: those that go somewhere, and the label behind the slot. -/
structure InstructionItems (instr : InstructionCpu) (n : Nat) (emitLinkBranch : Bool)
    (r : Bool × Bool) (items : List Item) : Prop where
  labels : ∃ body, items = body ++ afterLabel emitLinkBranch n ∧ t.Labels n r.1 body
  likely : r.2 = ((conditionalBranchOps (t.translatedId instr)).map (·.likely)).getD false
  needs : r.1 = true → isTransfer (t.translatedId instr) = true

/-- The items of an instruction, from those of its case and of its branch. -/
theorem items_processRelocated
    (hcontrol : t.Continues n
      ((t.controlCase instr (t.translatedId instr) slot n reloc).getD (pure false)))
    (hbranch : ∀ op ctx, conditionalBranchOps (t.translatedId instr) = some op →
      t.Continues n (t.processConditionalBranch instr op ctx slot n reloc))
    {statics statics' : Statics} {r : Bool × Bool} {items : List Item}
    (h : Done (t.processRelocated instr slot emitLinkBranch n reloc) statics r items statics') :
    t.InstructionItems instr n emitLinkBranch r items := by
  obtain ⟨controlLink, l₁, s₁, _, h₁, hops, rfl⟩ := done_bind.mp h
  obtain ⟨_, l₂, s₂, _, h₂, hbranches, rfl⟩ := done_bind.mp hops
  obtain ⟨branchLink, l₃, s₃, _, h₃, hunhandled, rfl⟩ := done_bind.mp hbranches
  obtain ⟨_, l₄, s₄, _, h₄, hlabel, rfl⟩ := done_bind.mp hunhandled
  obtain ⟨_, l₅, s₅, _, h₅, hreturn, rfl⟩ := done_bind.mp hlabel
  obtain ⟨rfl, rfl, -⟩ := done_pure.mp hreturn
  obtain rfl := done_afterLabel h₅
  have hbranch' : t.Labels n branchLink l₃ := by
    cases hop : conditionalBranchOps (t.translatedId instr) with
    | none =>
      rw [hop] at h₃
      exact (continues_of_goesLocal (writes_pure _)).labels h₃
    | some op =>
      rw [hop] at h₃
      exact (hbranch op _ hop).labels h₃
  have hstraight : t.Labels n false l₂ := labels_of_straight (straight_processOps.done h₂)
  have hlast : t.Labels n false l₄ := labels_of_straight ((straight_raw rfl rfl).when.done h₄)
  refine ⟨⟨l₁ ++ (l₂ ++ (l₃ ++ l₄)), ?_, ?_⟩, rfl, fun hneeds => ?_⟩
  · simp only [List.append_nil, List.append_assoc]
  · simpa only [Bool.false_or, Bool.or_false] using
      (hcontrol.labels h₁).append (hstraight.append (hbranch'.append hlast))
  · by_contra htransfer
    obtain ⟨hnone, hop⟩ := not_mem_of_not_isTransfer (Bool.not_eq_true _ ▸ htransfer)
    obtain rfl := (silent_controlCase hnone).needs _ _ _ _ h₁
    rw [hop] at h₃
    obtain rfl := silent_pure.needs _ _ _ _ h₃
    cases hneeds

/-- The items of an instruction, behind its hook and its comment. -/
theorem items_processBody
    (hcontrol : ∀ reloc, t.Continues n
      ((t.controlCase instr (t.translatedId instr) slot n reloc).getD (pure false)))
    (hbranch : ∀ op ctx reloc, conditionalBranchOps (t.translatedId instr) = some op →
      t.Continues n (t.processConditionalBranch instr op ctx slot n reloc))
    {statics statics' : Statics} {r : Bool × Bool} {items : List Item}
    (h : Done (t.processBody instr index slot emitLinkBranch n relocIndex) statics r items
      statics') :
    t.InstructionItems instr n emitLinkBranch r items := by
  obtain ⟨_, l₁, s₁, _, h₁, hrest, rfl⟩ := done_bind.mp h
  obtain ⟨_, l₂, s₂, _, h₂, hrelocated, rfl⟩ := done_bind.mp hrest
  split at hrelocated
  · exact absurd hrelocated not_done_abort
  · obtain ⟨⟨body, rfl, hlabels⟩, hlikely, hneeds⟩ :=
      items_processRelocated (hcontrol _) (fun op ctx => hbranch op ctx _) hrelocated
    have hhook : t.Labels n false l₁ := labels_of_straight ((straight_emitHook _).done h₁)
    have hcomment : t.Labels n false l₂ := labels_of_straight ((straight_call rfl rfl rfl).done h₂)
    refine ⟨⟨l₁ ++ (l₂ ++ body), ?_, ?_⟩, hlikely, hneeds⟩
    · simp only [List.append_assoc]
    · simpa only [Bool.false_or] using hhook.append (hcomment.append hlabels)

/-- **The items of an instruction**, when there is no transfer in the slot of a transfer. -/
theorem items_processInstruction (hreach : t.ReachesLabels) {rest : List InstructionCpu}
    (hinstr : instr ∈ t.instructions)
    (hslot : isTransfer (t.translatedId instr) = true → ∀ next ∈ rest.head?,
      isTransfer (t.translatedId next) = false)
    {statics statics' : Statics} {r : Bool × Bool} {items : List Item}
    (h : Done (t.processInstruction (instr :: rest) index emitLinkBranch n relocIndex) statics r
      items statics') :
    t.InstructionItems instr n emitLinkBranch r items := by
  have hbody : ∀ slot, (isTransfer (t.translatedId instr) = true → Writes t.GoesLocal slot) →
      Done (t.processBody instr index slot emitLinkBranch n relocIndex) statics r items statics' →
      t.InstructionItems instr n emitLinkBranch r items := by
    intro slot hwrites
    cases htransfer : isTransfer (t.translatedId instr) with
    | true =>
      refine items_processBody (fun reloc => ?_) fun op ctx reloc hop => ?_
      · exact continues_controlCase (hwrites htransfer) hreach hinstr
      · refine continues_processConditionalBranch (hwrites htransfer) hreach ?_ op ctx
        exact isLocal_target hreach hinstr (.inr (by rw [hop]; rfl))
    | false =>
      obtain ⟨hcontrol, hbranch⟩ := not_mem_of_not_isTransfer htransfer
      refine items_processBody (fun reloc => ?_) fun op ctx reloc hop => ?_
      · exact continues_of_goesLocal (goesLocal_of_straight (silent_controlCase hcontrol).straight)
      · rw [hbranch] at hop
        cases hop
  cases rest with
  | nil => exact hbody _ (fun _ => writes_refuse) h
  | cons next rest =>
    refine hbody _ (fun htransfer => ?_) h
    have hnext : isTransfer (t.translatedId next) = false := hslot htransfer next rfl
    exact (goesLocal_of_straight (straight_processInstruction hnext)).bind fun _ => writes_pure _

end Instructions

end Translation

end N64Recomp
