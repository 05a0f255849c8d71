import N64Recomp.Recompilation.RecompileFunction
import Mathlib.Data.List.Sort

/-!
# The cursor over the relocations

The loop over the instructions keeps an index into the relocations of the section that only moves
forward. Over relocations that are sorted by address it stands, at every instruction, at the first
relocation of the instruction, when there is one.

## Main definitions

* `SortedByAddress`: the relocations are in the order of their addresses
* `relocAt`: the first relocation of an address

## Main results

* `advanceRelocs_drop`: moving on from an earlier instruction leads to the same place
* `getElem?_advanceRelocs`: over sorted relocations the cursor finds the one of the instruction
-/

namespace N64Recomp

/-- The relocations are in the order of their addresses. -/
def SortedByAddress (relocs : List Reloc) : Prop :=
  relocs.Pairwise fun a b => a.address ≤ b.address

/-- The first relocation of an address. -/
def relocAt (relocs : List Reloc) (vram : BitVec 32) : Option Reloc :=
  relocs.find? (·.address = vram)

variable {relocs : List Reloc} {vram : BitVec 32}

/-- The cursor stops at the first relocation that is not before the instruction, or at the last. -/
theorem advanceRelocs_eq (vram : BitVec 32) (relocs : List Reloc) (i : Nat) :
    advanceRelocs vram relocs i =
      i + min (relocs.findIdx fun r => vram ≤ r.address) (relocs.length - 1) := by
  induction relocs generalizing i with
  | nil => simp [advanceRelocs]
  | cons reloc rest ih =>
    cases rest with
    | nil => simp [advanceRelocs]
    | cons next rest =>
      unfold advanceRelocs
      by_cases h : reloc.address < vram
      · have hle : ¬ vram ≤ reloc.address := BitVec.not_le.mpr h
        have hfind : (reloc :: next :: rest).findIdx (fun r => decide (vram ≤ r.address)) =
            (next :: rest).findIdx (fun r => decide (vram ≤ r.address)) + 1 := by
          rw [List.findIdx_cons, decide_eq_false hle, cond_false]
        rw [if_pos h, ih, hfind]
        simp only [List.length_cons]
        omega
      · have hle : vram ≤ reloc.address := BitVec.not_lt.mp h
        rw [if_neg h, List.findIdx_cons, decide_eq_true hle]
        simp

/-- The relocations that the cursor has passed are before the instruction. -/
theorem lt_of_lt_advanceRelocs {k : Nat} {reloc : Reloc} (hk : k < advanceRelocs vram relocs 0)
    (hreloc : relocs[k]? = some reloc) : reloc.address < vram := by
  rw [advanceRelocs_eq, Nat.zero_add] at hk
  obtain ⟨hlt, rfl⟩ := List.getElem?_eq_some_iff.mp hreloc
  have hnot := List.not_of_lt_findIdx (Nat.lt_of_lt_of_le hk (Nat.min_le_left _ _))
  exact BitVec.not_le.mp (of_decide_eq_false hnot)

/-- Moving on from an earlier instruction leads to the same place. -/
theorem advanceRelocs_drop {vram' : BitVec 32} (h : vram ≤ vram') :
    advanceRelocs vram' (relocs.drop (advanceRelocs vram relocs 0)) (advanceRelocs vram relocs 0) =
      advanceRelocs vram' relocs 0 := by
  generalize hk : advanceRelocs vram relocs 0 = k
  have hbound : k ≤ relocs.length - 1 := by
    rw [← hk, advanceRelocs_eq, Nat.zero_add]
    exact Nat.min_le_right _ _
  have hfind : relocs.findIdx (fun r => decide (vram' ≤ r.address)) =
      k + (relocs.drop k).findIdx (fun r => decide (vram' ≤ r.address)) := by
    have hlen : (relocs.take k).length = k := by
      rw [List.length_take]
      omega
    have hskip : (relocs.take k).findIdx (fun r => decide (vram' ≤ r.address)) = k := by
      conv_rhs => rw [← hlen]
      refine List.findIdx_eq_length.mpr fun r hr => decide_eq_false (BitVec.not_le.mpr ?_)
      obtain ⟨j, hj, rfl⟩ := List.getElem_of_mem hr
      rw [List.getElem_take]
      have hlt : relocs[j].address < vram := by
        refine lt_of_lt_advanceRelocs (k := j) ?_ (List.getElem?_eq_getElem _)
        omega
      exact Nat.lt_of_lt_of_le hlt h
    conv_lhs => rw [← List.take_append_drop k relocs]
    rw [List.findIdx_append, hskip, hlen, if_neg (Nat.lt_irrefl k), Nat.add_comm]
  rw [advanceRelocs_eq, advanceRelocs_eq, hfind, List.length_drop]
  omega

/-- **Over sorted relocations the cursor finds the one of the instruction.** -/
theorem getElem?_advanceRelocs (hsorted : SortedByAddress relocs) {reloc : Reloc}
    (h : relocAt relocs vram = some reloc) :
    relocs[advanceRelocs vram relocs 0]? = some reloc := by
  obtain ⟨haddress, i, hi, hget, hbefore⟩ := List.find?_eq_some_iff_getElem.mp h
  have hfind : relocs.findIdx (fun r => decide (vram ≤ r.address)) = i := by
    rw [List.findIdx_eq hi, hget, of_decide_eq_true haddress]
    refine ⟨decide_eq_true (BitVec.le_refl vram), fun j hj => ?_⟩
    have hjlen : j < relocs.length := Nat.lt_trans hj hi
    have hle : relocs[j].address ≤ vram := by
      have hpair := List.pairwise_iff_getElem.mp hsorted j i (by omega) hi hj
      rwa [hget, of_decide_eq_true haddress] at hpair
    have hne : relocs[j].address ≠ vram := fun h => by
      have hb := hbefore j hj
      rw [h] at hb
      simp at hb
    exact decide_eq_false fun hge => hne (BitVec.le_antisymm hle hge)
  rw [advanceRelocs_eq, hfind, Nat.zero_add, Nat.min_eq_left (by omega),
    List.getElem?_eq_getElem hi, hget]

/-! ### The sort of the producers -/

/-- The sort by address that ends the parse of a table. -/
def sortByAddress (relocs : List Reloc) : List Reloc :=
  relocs.insertionSort fun a b => a.address ≤ b.address

theorem sortedByAddress_sortByAddress (relocs : List Reloc) :
    SortedByAddress (sortByAddress relocs) := by
  have hsorted := List.pairwise_insertionSort (fun a b : Reloc => a.address ≤ b.address) relocs
  exact hsorted

theorem relocAt_orderedInsert (reloc : Reloc) (relocs : List Reloc) :
    relocAt (relocs.orderedInsert (fun a b => a.address ≤ b.address) reloc) vram =
      relocAt (reloc :: relocs) vram := by
  induction relocs with
  | nil => rfl
  | cons next rest ih =>
    rw [List.orderedInsert_cons]
    by_cases h : reloc.address ≤ next.address
    · rw [if_pos h]
    · rw [if_neg h]
      unfold relocAt at ih ⊢
      rw [List.find?_cons, ih, List.find?_cons, List.find?_cons, List.find?_cons]
      -- the two have different addresses, so that at most one of them is found
      by_cases hnext : next.address = vram
      · have hreloc : reloc.address ≠ vram := fun heq => h (by rw [heq, hnext]; exact BitVec.le_refl vram)
        simp only [hnext, hreloc, decide_true, decide_false]
      · simp only [hnext, decide_false]

/-- The first relocation of an address is the first one of the table. -/
theorem relocAt_sortByAddress (relocs : List Reloc) :
    relocAt (sortByAddress relocs) vram = relocAt relocs vram := by
  induction relocs with
  | nil => rfl
  | cons reloc rest ih =>
    unfold sortByAddress at ih ⊢
    rw [List.insertionSort_cons, relocAt_orderedInsert]
    unfold relocAt at ih ⊢
    rw [List.find?_cons, List.find?_cons, ih]

end N64Recomp
