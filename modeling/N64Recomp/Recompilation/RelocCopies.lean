import Mathlib.Data.List.Basic
import N64Recomp.Recompilation.Refusal
import N64Recomp.Recompilation.RelocCursor

/-!
# The relocation of every copy of an instruction

An instruction in a delay slot is written twice: by the transfer before it, and in its own turn of
the loop. The loop moves its cursor over the relocations as far as it has to. The transfer looks one
relocation ahead at most, so that its slot misses its relocation when two of them are in the word of
the transfer.

## Main definitions

* `Translation.emitsSlot`: the transfers that write their delay slot
* `Translation.copies`, `Translation.emittedCopies`: the copies that are written, with the cursor of
  each
* `Translation.CopyMatches`: a copy is translated with the relocation of its address
* `Translation.SlotsFit`: the relocations between a transfer and its slot are as few as the words

## Main results

* `processRelocated_congr_slot`, `not_done_processRelocated_abort`: the slot is written by exactly
  these transfers
* `relocAt_eq_ownReloc`: what a copy that matches is translated with
* `forall_copies_match_iff`: the copies of one turn of the loop
* `forall_emittedCopies_match_iff`: when every copy matches
-/

namespace N64Recomp

open Emit

/-! ### Sorted relocations -/

/-- The relocations are in the order of their addresses, and no two have the same. -/
def StrictlySortedByAddress (relocs : List Reloc) : Prop :=
  relocs.Pairwise fun a b => a.address < b.address

instance (relocs : List Reloc) : Decidable (StrictlySortedByAddress relocs) :=
  inferInstanceAs (Decidable (List.Pairwise _ relocs))

/-- The index of the first relocation that is not before an address. -/
def firstFrom (relocs : List Reloc) (vram : BitVec 32) : Nat :=
  relocs.findIdx fun r => vram ≤ r.address

/-- How many relocations are at or behind one address and before another. -/
def relocsBetween (relocs : List Reloc) (first last : BitVec 32) : Nat :=
  relocs.countP fun r => first ≤ r.address ∧ r.address < last

section Sorted

variable {relocs : List Reloc} {vram vram' : BitVec 32} {k : Nat} {reloc : Reloc}

theorem StrictlySortedByAddress.sorted (h : StrictlySortedByAddress relocs) :
    SortedByAddress relocs :=
  List.Pairwise.imp (fun h => BitVec.le_of_lt h) h

/-- The relocations before an address are those whose index is before the first one from it on. -/
theorem lt_firstFrom_iff (hsorted : SortedByAddress relocs) (h : relocs[k]? = some reloc) :
    k < firstFrom relocs vram ↔ reloc.address < vram := by
  obtain ⟨hk, rfl⟩ := List.getElem?_eq_some_iff.mp h
  constructor
  · intro hlt
    exact BitVec.not_le.mp (of_decide_eq_false (List.not_of_lt_findIdx hlt))
  · intro hlt
    by_contra hge
    have hlen : firstFrom relocs vram < relocs.length := by omega
    have hfirst : vram ≤ (relocs[firstFrom relocs vram]).address :=
      of_decide_eq_true (List.findIdx_getElem (w := hlen))
    rcases Nat.lt_or_eq_of_le (Nat.not_lt.mp hge) with hbefore | heq
    · have hle := List.pairwise_iff_getElem.mp hsorted _ _ hlen hk hbefore
      exact absurd (Nat.lt_of_le_of_lt (BitVec.le_trans hfirst hle) hlt) (BitVec.lt_irrefl _)
    · simp only [heq] at hfirst
      exact absurd (Nat.lt_of_le_of_lt hfirst hlt) (BitVec.lt_irrefl _)

/-- The relocation of an address is the first one from it on. -/
theorem firstFrom_eq (hsorted : StrictlySortedByAddress relocs) (h : relocs[k]? = some reloc) :
    firstFrom relocs reloc.address = k := by
  obtain ⟨hk, rfl⟩ := List.getElem?_eq_some_iff.mp h
  refine List.findIdx_eq hk |>.mpr ⟨decide_eq_true (BitVec.le_refl _), fun j hj => ?_⟩
  have hlt := List.pairwise_iff_getElem.mp hsorted j k (by omega) hk hj
  exact decide_eq_false (BitVec.not_le.mpr hlt)

theorem firstFrom_le_length : firstFrom relocs vram ≤ relocs.length := List.findIdx_le_length

/-- The first relocation from a later address on is later. -/
theorem firstFrom_mono (hsorted : SortedByAddress relocs) (h : vram ≤ vram') :
    firstFrom relocs vram ≤ firstFrom relocs vram' := by
  by_contra hlt
  have hlen : firstFrom relocs vram' < relocs.length :=
    Nat.lt_of_lt_of_le (Nat.not_le.mp hlt) firstFrom_le_length
  have hget := List.getElem?_eq_getElem hlen
  have hbefore := (lt_firstFrom_iff hsorted hget).mp (Nat.not_le.mp hlt)
  exact absurd ((lt_firstFrom_iff hsorted hget).mpr (Nat.lt_of_lt_of_le hbefore h))
    (Nat.lt_irrefl _)

theorem firstFrom_eq_countP (hsorted : SortedByAddress relocs) :
    firstFrom relocs vram = relocs.countP fun r => r.address < vram := by
  induction relocs with
  | nil => rfl
  | cons reloc relocs ih =>
    obtain ⟨hfirst, hrest⟩ := List.pairwise_cons.mp hsorted
    have hrest := ih hrest
    unfold firstFrom at hrest ⊢
    rw [List.findIdx_cons, List.countP_cons]
    by_cases h : vram ≤ reloc.address
    · have hzero : relocs.countP (fun r => decide (r.address < vram)) = 0 :=
        List.countP_eq_zero.mpr fun r hr hlt => BitVec.lt_irrefl _
          (Nat.lt_of_lt_of_le (of_decide_eq_true hlt) (BitVec.le_trans h (hfirst r hr)))
      rw [decide_eq_true h, cond_true, hzero, decide_eq_false (BitVec.not_lt.mpr h)]
      rfl
    · rw [decide_eq_false h, cond_false, hrest, decide_eq_true (BitVec.not_le.mp h)]
      rfl

/-- The relocations between two addresses are those between the first ones from them on. -/
theorem firstFrom_add_relocsBetween (hsorted : SortedByAddress relocs) (h : vram ≤ vram') :
    firstFrom relocs vram + relocsBetween relocs vram vram' = firstFrom relocs vram' := by
  rw [firstFrom_eq_countP hsorted, firstFrom_eq_countP hsorted, relocsBetween]
  clear hsorted
  induction relocs with
  | nil => rfl
  | cons reloc relocs ih =>
    rw [List.countP_cons, List.countP_cons, List.countP_cons]
    have hsplit : (if decide (reloc.address < vram) = true then 1 else 0) +
        (if decide (vram ≤ reloc.address ∧ reloc.address < vram') = true then 1 else 0) =
        if decide (reloc.address < vram') = true then 1 else 0 := by
      simp only [decide_eq_true_eq, BitVec.lt_def, BitVec.le_def] at h ⊢
      split_ifs <;> omega
    omega

end Sorted

/-! ### The slots that are written -/

namespace Translation

variable (t : Translation)

/-- Whether a transfer writes its delay slot: not in a jump to itself, nor in a call that finds
nothing to call. -/
def emitsSlot (instr : InstructionCpu) (reloc : RelocInfo) : Bool :=
  let id := t.translatedId instr
  let target := instr.getBranchVramGeneric t.decoder
  match id with
  | .jr | .jalr => true
  | .j | .b => decide (target ≠ instr.vram)
  | .jal => !t.callsNothing reloc target
  | id =>
    match conditionalBranchOps id with
    | some op => !(op.link && t.callsNothing reloc target)
    | none => false

section Slots

variable {t} {instr : InstructionCpu} {reloc : RelocInfo} {slot slot' : Emission Unit}
  {vram target : BitVec 32} {linkBranchIndex : Nat}

theorem of_callsNothing (h : t.callsNothing reloc target = true) :
    t.func.contains target = false ∧ reloc.sectionIndex ≠ sectionEvent.setWidth 32 ∧
      reloc.referenceSymbol = none ∧
      resolveJal t.context (t.callSection reloc) target = .noMatch := by
  simp only [callsNothing, Bool.and_eq_true, Bool.not_eq_true', decide_eq_true_eq,
    Option.isNone_iff_eq_none] at h
  exact ⟨h.1.1.1, h.1.1.2, h.1.2, h.2⟩

/-- A call that finds nothing to call does not write its slot. -/
theorem emitCallByAddress_congr_slot (slot slot' : Emission Unit)
    (h : t.callsNothing reloc target = true) :
    t.emitCallByAddress slot vram linkBranchIndex reloc target =
      t.emitCallByAddress slot' vram linkBranchIndex reloc target := by
  obtain ⟨-, hevent, hreference, hresolve⟩ := of_callsNothing h
  unfold emitCallByAddress
  simp only [hevent, hreference, hresolve, if_false]

/-- A conditional branch. -/
theorem emitsSlot_of_conditional {op : ConditionalBranchOp}
    (hop : conditionalBranchOps (t.translatedId instr) = some op) :
    t.emitsSlot instr reloc =
      !(op.link && t.callsNothing reloc (instr.getBranchVramGeneric t.decoder)) := by
  unfold emitsSlot
  generalize t.translatedId instr = id at hop
  unfold conditionalBranchOps at hop
  split at hop
  all_goals first
    | (cases hop; rfl)
    | cases hop

theorem controlCase_congr_slot (h : t.emitsSlot instr reloc = false) :
    t.controlCase instr (t.translatedId instr) slot linkBranchIndex reloc =
      t.controlCase instr (t.translatedId instr) slot' linkBranchIndex reloc := by
  unfold emitsSlot at h
  unfold controlCase
  generalize t.translatedId instr = id at h ⊢
  split <;> try rfl
  · have hnothing : t.callsNothing reloc (instr.getBranchVramGeneric t.decoder) = true := by
      simpa using h
    unfold emitJal
    simp only [(of_callsNothing hnothing).1, Bool.false_eq_true, if_false,
      emitCallByAddress_congr_slot slot slot' hnothing]
  · cases h
  · have hself : instr.getBranchVramGeneric t.decoder = instr.vram := by simpa using h
    simp only [emitJump, if_pos hself]
  · have hself : instr.getBranchVramGeneric t.decoder = instr.vram := by simpa using h
    simp only [emitJump, if_pos hself]
  · cases h

/-- A linking branch that finds nothing to call does not write its slot. -/
theorem processConditionalBranch_congr_slot {op : ConditionalBranchOp} {ctx : InstructionContext}
    (hlink : op.link = true)
    (hnothing : t.callsNothing reloc (instr.getBranchVramGeneric t.decoder) = true) :
    t.processConditionalBranch instr op ctx slot linkBranchIndex reloc =
      t.processConditionalBranch instr op ctx slot' linkBranchIndex reloc := by
  -- the slot stands in the taken branch only, in front of the call
  have htaken : t.emitTaken instr op.link slot linkBranchIndex reloc =
      t.emitTaken instr op.link slot' linkBranchIndex reloc := by
    unfold emitTaken
    simp only [hlink, (of_callsNothing hnothing).1, Bool.not_false, Bool.and_true, if_true,
      emitCallByAddress_congr_slot slot slot' hnothing]
  unfold processConditionalBranch
  rw [htaken]

/-- **A transfer that does not write its slot** is translated the same over any other. -/
theorem processRelocated_congr_slot (h : t.emitsSlot instr reloc = false) {emitLinkBranch : Bool} :
    t.processRelocated instr slot emitLinkBranch linkBranchIndex reloc =
      t.processRelocated instr slot' emitLinkBranch linkBranchIndex reloc := by
  have hbranch : ((conditionalBranchOps (t.translatedId instr)).map fun op =>
        t.processConditionalBranch instr op (t.instructionContext instr reloc) slot linkBranchIndex
          reloc) =
      (conditionalBranchOps (t.translatedId instr)).map fun op =>
        t.processConditionalBranch instr op (t.instructionContext instr reloc) slot' linkBranchIndex
          reloc := by
    refine Option.map_congr fun op hop => ?_
    rw [emitsSlot_of_conditional hop] at h
    have hnothing : op.link = true ∧
        t.callsNothing reloc (instr.getBranchVramGeneric t.decoder) = true := by
      simpa using h
    exact processConditionalBranch_congr_slot hnothing.1 hnothing.2
  unfold processRelocated
  dsimp only
  rw [controlCase_congr_slot h, hbranch]

/-- A call writes its slot, when there is something to call. -/
theorem stops_emitCallByAddress (e : Abort) (h : t.callsNothing reloc target = false)
    (hin : t.func.contains target = false) :
    Stops (t.emitCallByAddress (Emit.abort e) vram linkBranchIndex reloc target) := by
  unfold emitCallByAddress
  dsimp only
  have hcall : ∀ c, Stops (t.emitCallWithSlot (Emit.abort e) linkBranchIndex c) :=
    fun c => (stops_abort e).bind_left
  split
  · exact hcall _
  rename_i hevent
  cases hreference : reloc.referenceSymbol with
  | some symbol =>
    dsimp only
    split_ifs
    · exact stops_refuse
    · exact hcall _
    · split
      · exact stops_abort _
      · split_ifs
        · exact stops_refuse
        · exact hcall _
  | none =>
    dsimp only
    cases hresolve : resolveJal t.context (t.callSection reloc) target with
    | noMatch =>
      exfalso
      simp [callsNothing, hin, hevent, hreference, hresolve] at h
    | match_ i => exact hcall _
    | createStatic i => exact stops_bind fun _ => hcall _
    | ambiguous => exact hcall _

theorem stops_emitBranchTree (e : Abort) : Stops (t.emitBranchTree (Emit.abort e) vram target) := by
  unfold emitBranchTree
  split
  · exact (stops_abort e).bind_left
  unfold emitTailBranch
  split
  · exact (stops_abort e).bind_left
  · refine stops_bind fun statics => ?_
    split
    · exact stops_bind fun _ => (stops_abort e).bind_left
    · exact (stops_abort e).bind_left
  · exact (stops_abort e).bind_left
  · exact (stops_abort e).bind_left

theorem stops_emitJr (e : Abort) : Stops (t.emitJr instr (Emit.abort e)) := by
  unfold emitJr
  split
  · exact stops_bind fun _ => (stops_abort e).bind_left
  unfold emitJrRegister
  split
  · exact (stops_abort e).bind_left
  · exact stops_bind fun _ => stops_dropRefusal_abort e

theorem stops_controlCase (e : Abort) (h : t.emitsSlot instr reloc = true)
    (hop : conditionalBranchOps (t.translatedId instr) = none) :
    Stops ((t.controlCase instr (t.translatedId instr) (Emit.abort e) linkBranchIndex reloc).getD
      (pure false)) := by
  unfold emitsSlot at h
  unfold controlCase
  generalize t.translatedId instr = id at h hop ⊢
  have hlink : ∀ m : Emission Unit, Stops m → Stops (withoutLink m) := fun m hm => hm.bind_left
  dsimp only at h
  split at h
  · exact hlink _ (stops_emitJr e)
  · -- the link register is written before the slot
    simp only [Option.getD_some, emitJalr]
    split
    · exact stops_bind fun _ => Stops.bind_left (stops_abort e).bind_left
    · exact stops_bind fun _ => Stops.bind_left (stops_abort e).bind_left
  · refine hlink _ ?_
    simp only [emitJump, if_neg (of_decide_eq_true h)]
    exact stops_emitBranchTree e
  · refine hlink _ ?_
    simp only [emitJump, if_neg (of_decide_eq_true h)]
    exact stops_emitBranchTree e
  · refine stops_bind fun _ => ?_
    dsimp only
    split_ifs with hin
    · exact hlink _ (stops_abort e).bind_left
    · exact stops_emitCallByAddress e (by simpa using h) (by simpa using hin)
  · rw [hop] at h
    cases h

/-- **A transfer that writes its slot** is not done when the slot aborts. -/
theorem not_done_processRelocated_abort (e : Abort) (h : t.emitsSlot instr reloc = true)
    {emitLinkBranch : Bool} :
    Stops (t.processRelocated instr (Emit.abort e) emitLinkBranch linkBranchIndex reloc) := by
  unfold processRelocated
  dsimp only
  cases hop : conditionalBranchOps (t.translatedId instr) with
  | none => exact (stops_controlCase e h hop).bind_left
  | some op =>
    rw [emitsSlot_of_conditional hop] at h
    refine stops_bind fun _ => stops_bind fun _ => Stops.bind_left ?_
    refine stops_bind fun _ => stops_bind fun _ => Stops.bind_left ?_
    unfold emitTaken
    dsimp only
    split_ifs with hlink
    · simp only [Bool.and_eq_true, Bool.not_eq_true'] at hlink
      refine stops_emitCallByAddress e ?_ hlink.2
      simpa [hlink.1] using h
    · exact (stops_emitBranchTree e).bind_left

end Slots

/-! ### The copies of the instructions -/

/-- The copies that the translation of the first instruction writes: its own, and those that the
translation of its slot writes. -/
def copies : List InstructionCpu → (relocIndex : Nat) → List (InstructionCpu × Nat)
  | [], _ => []
  | [instr], relocIndex => [(instr, relocIndex)]
  | instr :: next :: rest, relocIndex =>
    (instr, relocIndex) ::
      if t.emitsSlot instr (t.relocAt instr relocIndex) then
        copies (next :: rest) (t.nextRelocIndex instr relocIndex)
      else []

/-- The copies that the loop writes. -/
def emittedCopies : List InstructionCpu → (relocIndex : Nat) → List (InstructionCpu × Nat)
  | [], _ => []
  | instr :: rest, relocIndex =>
    let relocIndex := t.relocIndexAt instr relocIndex
    t.copies (instr :: rest) relocIndex ++ emittedCopies rest relocIndex

/-- The relocation under the cursor, when it is the instruction's. -/
def attachedReloc (instr : InstructionCpu) (relocIndex : Nat) : Option Reloc :=
  t.funcSection.relocs[relocIndex]?.filter (·.address = instr.vram)

/-- **A copy is translated with a relocation** exactly when that has its address. -/
def CopyMatches (copy : InstructionCpu × Nat) : Prop :=
  ∀ reloc ∈ t.funcSection.relocs,
    t.attachedReloc copy.1 copy.2 = some reloc ↔ reloc.address = copy.1.vram

instance (copy : InstructionCpu × Nat) : Decidable (t.CopyMatches copy) :=
  inferInstanceAs (Decidable (∀ reloc ∈ t.funcSection.relocs, _))

/-- What the relocation of its address makes of an instruction. -/
def ownReloc (instr : InstructionCpu) : RelocInfo :=
  (resolveReloc t.context (N64Recomp.relocAt t.funcSection.relocs instr.vram).toList 0
    instr.vram).getD RelocInfo.none

/-- An instruction has a relocation. -/
def HasReloc (instr : InstructionCpu) : Prop :=
  ∃ reloc ∈ t.funcSection.relocs, reloc.address = instr.vram

/-- Every instruction from one index to another writes its slot. -/
def SlotsWritten (instrs : List InstructionCpu) (first last : Nat) : Prop :=
  ∀ (j : Nat) c, first ≤ j → j < last → instrs[j]? = some c → t.emitsSlot c (t.ownReloc c) = true

/-- Between an instruction and a slot that its translation reaches, there are no more relocations
than words, when the slot has one of its own. -/
def SlotsFit (instrs : List InstructionCpu) : Prop :=
  ∀ (i n : Nat) first slot, instrs[i]? = some first → instrs[i + n]? = some slot →
    t.SlotsWritten instrs i (i + n) → t.HasReloc slot →
    relocsBetween t.funcSection.relocs first.vram slot.vram ≤ n

/-- Instructions one behind the other from an address on, which do not wrap around. -/
def LaidOut (base : Nat) (instrs : List InstructionCpu) : Prop :=
  ∀ (n : Nat) instr, instrs[n]? = some instr → instr.vram.toNat = base + 4 * n

section Copies

variable {t} {instr next : InstructionCpu} {rest instrs : List InstructionCpu} {k base : Nat}

theorem LaidOut.tail (h : LaidOut base (instr :: rest)) : LaidOut (base + 4) rest := by
  intro n c hc
  have := h (n + 1) c hc
  omega

theorem LaidOut.drop (h : LaidOut base instrs) (i : Nat) :
    LaidOut (base + 4 * i) (instrs.drop i) := by
  intro n c hc
  rw [List.getElem?_drop] at hc
  have := h _ c hc
  omega

theorem LaidOut.vram_next (h : LaidOut base (instr :: next :: rest)) :
    next.vram = instr.vram + 4 := by
  have hinstr := h 0 instr rfl
  have hnext := h 1 next rfl
  have hlt := next.vram.isLt
  apply BitVec.eq_of_toNat_eq
  rw [BitVec.toNat_add, hnext, hinstr, show (4 : BitVec 32).toNat = 4 from rfl,
    Nat.mod_eq_of_lt (by omega)]

theorem LaidOut.le {i j : Nat} {c d : InstructionCpu} (h : LaidOut base instrs)
    (hc : instrs[i]? = some c) (hd : instrs[j]? = some d) (hle : i ≤ j) : c.vram ≤ d.vram := by
  rw [BitVec.le_def, h i c hc, h j d hd]
  omega

theorem resolveReloc_congr {context : Context} {relocs relocs' : List Reloc} {k k' : Nat}
    {vram : BitVec 32}
    (h : relocs[k]?.filter (·.address = vram) = relocs'[k']?.filter (·.address = vram)) :
    resolveReloc context relocs k vram = resolveReloc context relocs' k' vram := by
  have hnone : ∀ (relocs : List Reloc) (k : Nat),
      relocs[k]?.filter (·.address = vram) = none →
      resolveReloc context relocs k vram = some RelocInfo.none := by
    intro relocs k h
    unfold resolveReloc
    split
    · rfl
    · rename_i reloc hreloc
      rw [hreloc, Option.filter_eq_none_iff] at h
      rw [if_pos fun heq => h reloc rfl (decide_eq_true heq)]
  cases hfilter : relocs[k]?.filter (·.address = vram) with
  | none => rw [hnone relocs k hfilter, hnone relocs' k' (h ▸ hfilter)]
  | some reloc =>
    have hget := (Option.filter_eq_some_iff.mp hfilter).1
    have hget' := (Option.filter_eq_some_iff.mp (h ▸ hfilter)).1
    unfold resolveReloc
    rw [hget, hget']

/-- What a copy that matches is translated with. -/
theorem relocAt_eq_ownReloc (h : t.CopyMatches (instr, k)) :
    t.relocAt instr k = t.ownReloc instr := by
  rw [Translation.relocAt, ownReloc]
  congr 1
  refine resolveReloc_congr ?_
  have hattached : ∀ reloc, t.attachedReloc instr k = some reloc →
      reloc ∈ t.funcSection.relocs ∧ reloc.address = instr.vram := by
    intro reloc hreloc
    obtain ⟨hget, haddress⟩ := Option.filter_eq_some_iff.mp hreloc
    exact ⟨List.mem_of_getElem? hget, of_decide_eq_true haddress⟩
  change t.attachedReloc instr k = _
  cases hfound : N64Recomp.relocAt t.funcSection.relocs instr.vram with
  | none =>
    have hnone := List.find?_eq_none.mp hfound
    refine Option.eq_none_iff_forall_ne_some.mpr fun reloc hreloc => ?_
    obtain ⟨hmem, haddress⟩ := hattached reloc hreloc
    exact hnone reloc hmem (decide_eq_true haddress)
  | some reloc =>
    have haddress := List.find?_some hfound
    rw [(h reloc (List.mem_of_find?_eq_some hfound)).mpr (of_decide_eq_true haddress)]
    have hown : (some reloc).toList[0]?.filter (fun r => decide (r.address = instr.vram)) =
        some reloc := Option.filter_eq_some_iff.mpr ⟨rfl, haddress⟩
    exact hown.symm

variable (hsorted : StrictlySortedByAddress t.funcSection.relocs)

include hsorted

/-- A cursor that is not past the instruction matches when it is not before its relocation. -/
theorem copyMatches_iff (hk : k ≤ firstFrom t.funcSection.relocs instr.vram) :
    t.CopyMatches (instr, k) ↔
      (t.HasReloc instr → firstFrom t.funcSection.relocs instr.vram ≤ k) := by
  constructor
  · rintro h ⟨reloc, hmem, haddress⟩
    have hget := (Option.filter_eq_some_iff.mp ((h reloc hmem).mpr haddress)).1
    rw [← haddress, firstFrom_eq hsorted hget]
  · intro h reloc hmem
    constructor
    · exact fun hattached => of_decide_eq_true (Option.filter_eq_some_iff.mp hattached).2
    · intro haddress
      obtain ⟨i, hi⟩ := List.getElem?_of_mem hmem
      have hfirst := firstFrom_eq hsorted hi
      rw [haddress] at hfirst
      obtain rfl : k = i := Nat.le_antisymm (hfirst ▸ hk) (hfirst ▸ h ⟨reloc, hmem, haddress⟩)
      exact Option.filter_eq_some_iff.mpr ⟨hi, decide_eq_true haddress⟩

theorem firstFrom_lt_length (hreloc : t.HasReloc instr) :
    firstFrom t.funcSection.relocs instr.vram < t.funcSection.relocs.length := by
  obtain ⟨reloc, hmem, haddress⟩ := hreloc
  obtain ⟨i, hi⟩ := List.getElem?_of_mem hmem
  rw [← haddress, firstFrom_eq hsorted hi]
  exact (List.getElem?_eq_some_iff.mp hi).1

omit hsorted in
/-- The view of the cursor that a slot gets. -/
theorem nextRelocIndex_eq (hsorted : SortedByAddress t.funcSection.relocs)
    (hnext : next.vram = instr.vram + 4) :
    t.nextRelocIndex instr k =
      if k + 1 < t.funcSection.relocs.length ∧ k < firstFrom t.funcSection.relocs next.vram then
        k + 1
      else k := by
  unfold nextRelocIndex
  cases hget : t.funcSection.relocs[k]? with
  | none =>
    have hlen := List.getElem?_eq_none_iff.mp hget
    rw [if_neg fun h => absurd h.1 (by omega)]
  | some reloc =>
    simp only [lt_firstFrom_iff hsorted hget, hnext]

/-- **The copies of one turn of the loop.** A copy matches when its relocation is not further away
than the cursor moves. -/
theorem forall_copies_match_iff (hlaid : LaidOut base instrs)
    (hlen : k ≤ t.funcSection.relocs.length - 1)
    (hk : ∀ first, instrs[0]? = some first → k ≤ firstFrom t.funcSection.relocs first.vram) :
    (∀ copy ∈ t.copies instrs k, t.CopyMatches copy) ↔
      ∀ (n : Nat) slot, instrs[n]? = some slot → t.SlotsWritten instrs 0 n → t.HasReloc slot →
        firstFrom t.funcSection.relocs slot.vram ≤ k + n ∧
        ∀ (j : Nat) c, 0 < j → j ≤ n → instrs[j]? = some c →
          firstFrom t.funcSection.relocs slot.vram ≤
            firstFrom t.funcSection.relocs c.vram + (n - j) := by
  induction instrs generalizing base k with
  | nil => simp [copies]
  | cons instr rest ih =>
    have hown := copyMatches_iff hsorted (hk instr rfl)
    cases rest with
    | nil =>
      simp only [copies, List.forall_mem_singleton, hown]
      constructor
      · intro h n slot hslot hwritten hreloc
        obtain ⟨rfl, rfl⟩ : n = 0 ∧ slot = instr := by
          cases n with
          | zero => exact ⟨rfl, (Option.some.inj hslot).symm⟩
          | succ n => cases hslot
        exact ⟨h hreloc, fun j c hj hj' => absurd hj (by omega)⟩
      · intro h hreloc
        exact (h 0 instr rfl (fun j c _ hj => absurd hj (Nat.not_lt_zero j)) hreloc).1
    | cons next rest =>
      have hkinstr := hk instr rfl
      have hmono : firstFrom t.funcSection.relocs instr.vram ≤
          firstFrom t.funcSection.relocs next.vram :=
        firstFrom_mono hsorted.sorted (hlaid.le (i := 0) (j := 1) rfl rfl (Nat.zero_le 1))
      -- the cursor of the slot is the least of one further on, the slot's place and the last one
      have hcursor := nextRelocIndex_eq (k := k) hsorted.sorted hlaid.vram_next
      have hreach : ∀ first n, first < t.funcSection.relocs.length →
          (first ≤ t.nextRelocIndex instr k + n ↔
            first ≤ k + (n + 1) ∧ first ≤ firstFrom t.funcSection.relocs next.vram + n) := by
        intro first n hfirst
        rw [hcursor]
        split_ifs with h <;> omega
      have ih := ih (k := t.nextRelocIndex instr k) hlaid.tail
        (by rw [hcursor]; split_ifs with h <;> omega)
        (by
          rintro first ⟨⟩
          rw [hcursor]
          split_ifs with h <;> omega)
      rw [copies, List.forall_mem_cons]
      constructor
      · rintro ⟨hfirst, hrest⟩ n slot hslot hwritten hreloc
        cases n with
        | zero =>
          cases hslot
          exact ⟨hown.mp hfirst hreloc, fun j c hj hj' => absurd hj (by omega)⟩
        | succ n =>
          have hemits := hwritten 0 instr (Nat.le_refl 0) (Nat.succ_pos n) rfl
          rw [relocAt_eq_ownReloc hfirst, if_pos hemits] at hrest
          obtain ⟨hle, hbetween⟩ := ih.mp hrest n slot hslot
            (fun j c _ hj hc => hwritten (j + 1) c (Nat.zero_le _) (by omega) hc) hreloc
          obtain ⟨hle, hnext⟩ := (hreach _ n (firstFrom_lt_length hsorted hreloc)).mp hle
          refine ⟨hle, fun j c hj hj' hc => ?_⟩
          rcases Nat.lt_or_eq_of_le (Nat.succ_le_of_lt hj) with hj | rfl
          · have hj := hbetween (j - 1) c (by omega) (by omega)
              (by rw [← hc, ← List.getElem?_cons_succ (a := instr), Nat.sub_add_cancel (by omega)])
            omega
          · cases hc
            omega
      · intro h
        have hfirst := hown.mpr fun hreloc =>
          (h 0 instr rfl (fun j c _ hj => absurd hj (Nat.not_lt_zero j)) hreloc).1
        refine ⟨hfirst, ?_⟩
        rw [relocAt_eq_ownReloc hfirst]
        split_ifs with hemits
        · refine ih.mpr fun n slot hslot hwritten hreloc => ?_
          obtain ⟨hle, hbetween⟩ := h (n + 1) slot hslot (fun j c _ hj hc => by
            cases j with
            | zero =>
              cases hc
              exact hemits
            | succ j => exact hwritten j c (Nat.zero_le _) (by omega) hc) hreloc
          have hnext := hbetween 1 next Nat.one_pos (by omega) rfl
          refine ⟨(hreach _ n (firstFrom_lt_length hsorted hreloc)).mpr ⟨hle, by omega⟩,
            fun j c hj hj' hc => ?_⟩
          have hj := hbetween (j + 1) c (by omega) (by omega) hc
          omega
        · rintro copy ⟨⟩

omit hsorted in
/-- The loop's cursor does not depend on the instructions before. -/
theorem relocIndexAt_advanceRelocs {vram : BitVec 32} (h : vram ≤ instr.vram) :
    t.relocIndexAt instr (advanceRelocs vram t.funcSection.relocs 0) =
      advanceRelocs instr.vram t.funcSection.relocs 0 := advanceRelocs_drop h

omit hsorted in
/-- The copies of the loop are those of its turns. -/
theorem forall_emittedCopies_iff {P : InstructionCpu × Nat → Prop} (hlaid : LaidOut base instrs)
    (hk : ∀ first, instrs[0]? = some first →
      t.relocIndexAt first k = advanceRelocs first.vram t.funcSection.relocs 0) :
    (∀ copy ∈ t.emittedCopies instrs k, P copy) ↔
      ∀ (i : Nat) first, instrs[i]? = some first →
        ∀ copy ∈ t.copies (instrs.drop i) (advanceRelocs first.vram t.funcSection.relocs 0),
          P copy := by
  induction instrs generalizing base k with
  | nil => simp [emittedCopies]
  | cons instr rest ih =>
    rw [emittedCopies]
    simp only [hk instr rfl, List.mem_append, or_imp, forall_and]
    have hrest : ∀ first, rest[0]? = some first →
        t.relocIndexAt first (advanceRelocs instr.vram t.funcSection.relocs 0) =
          advanceRelocs first.vram t.funcSection.relocs 0 := fun first hfirst =>
      relocIndexAt_advanceRelocs (hlaid.le (i := 0) (j := 1) rfl hfirst (Nat.zero_le 1))
    rw [ih hlaid.tail hrest]
    constructor
    · rintro ⟨hinstr, hrest⟩ i first hfirst
      cases i with
      | zero =>
        cases hfirst
        exact hinstr
      | succ i => exact hrest i first hfirst
    · exact fun h => ⟨h 0 instr rfl, fun i first hfirst => h (i + 1) first hfirst⟩

theorem forall_turns_match_iff (hlaid : LaidOut base instrs) :
    (∀ (i : Nat) first, instrs[i]? = some first →
      ∀ copy ∈ t.copies (instrs.drop i) (advanceRelocs first.vram t.funcSection.relocs 0),
        t.CopyMatches copy) ↔ t.SlotsFit instrs := by
  have hturn : ∀ (i : Nat) first, instrs[i]? = some first →
      ((∀ copy ∈ t.copies (instrs.drop i) (advanceRelocs first.vram t.funcSection.relocs 0),
        t.CopyMatches copy) ↔ _) := fun i first hfirst =>
    forall_copies_match_iff hsorted (k := advanceRelocs first.vram t.funcSection.relocs 0)
      (hlaid.drop i)
      (by rw [advanceRelocs_eq, Nat.zero_add]; exact Nat.min_le_right _ _)
      (by
        intro first' hfirst'
        rw [List.getElem?_drop, Nat.add_zero, hfirst] at hfirst'
        cases hfirst'
        rw [advanceRelocs_eq, Nat.zero_add]
        exact Nat.min_le_left _ _)
  -- the cursor of a turn is at the first relocation from its instruction on
  have hbetween : ∀ {i j : Nat} {c d : InstructionCpu}, instrs[i]? = some c → instrs[j]? = some d →
      i ≤ j → firstFrom t.funcSection.relocs c.vram +
        relocsBetween t.funcSection.relocs c.vram d.vram = firstFrom t.funcSection.relocs d.vram :=
    fun hc hd hle => firstFrom_add_relocsBetween hsorted.sorted (hlaid.le hc hd hle)
  constructor
  · intro h i n first slot hfirst hslot hwritten hreloc
    obtain ⟨hle, -⟩ := (hturn i first hfirst).mp (h i first hfirst) n slot
      (by rw [List.getElem?_drop, hslot])
      (fun j c _ hj hc => hwritten (i + j) c (by omega) (by omega)
        (by rw [← hc, List.getElem?_drop])) hreloc
    rw [advanceRelocs_eq, Nat.zero_add] at hle
    have := hbetween hfirst hslot (Nat.le_add_right i n)
    have hmin := Nat.min_le_left (firstFrom t.funcSection.relocs first.vram)
      (t.funcSection.relocs.length - 1)
    unfold firstFrom at this hle hmin
    omega
  · intro h i first hfirst
    refine (hturn i first hfirst).mpr fun n slot hslot hwritten hreloc => ?_
    have hslot' : instrs[i + n]? = some slot := by rw [← hslot, List.getElem?_drop]
    have hlt := firstFrom_lt_length hsorted hreloc
    have hfits : ∀ (j : Nat) c, j ≤ n → instrs[i + j]? = some c →
        firstFrom t.funcSection.relocs slot.vram ≤
          firstFrom t.funcSection.relocs c.vram + (n - j) := by
      intro j c hj hc
      have hfit := h (i + j) (n - j) c slot hc
        (by rw [← hslot']; congr 1; omega)
        (fun m d hm hm' hd => hwritten (m - i) d (Nat.zero_le _) (by omega)
          (by rw [List.getElem?_drop, ← hd]; congr 1; omega)) hreloc
      have := hbetween hc hslot' (by omega)
      omega
    refine ⟨?_, fun j c hj hj' hc => hfits j c hj' (by rw [← hc, List.getElem?_drop])⟩
    have hfirst' := hfits 0 first (Nat.zero_le n) hfirst
    rw [advanceRelocs_eq, Nat.zero_add]
    change _ ≤ min (firstFrom _ _) _ + n
    omega

end Copies

/-- A branch, a `lui` in its slot and a return, with relocations at some addresses. -/
def slotSample (addresses : List (BitVec 32)) : Translation :=
  let words := [0x15090001, 0x3C080001, 0x03E00008, 0]
  let context := { Context.empty with
    functions := [sampleFunction words]
    sections := [{ Section.empty with
      relocs := addresses.map fun address => ⟨address, 0x80010000, 0, 0, .hi16, false⟩ }] }
  Recompiler.translation ⟨.ofId sampleId, cGenerator context, context, fun _ _ => false⟩ 0
    (sampleFunction words) false [] []

end Translation

end N64Recomp
