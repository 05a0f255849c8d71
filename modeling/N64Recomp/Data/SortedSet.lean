import Mathlib.Tactic.Tauto
import N64Recomp.Data.Widths

/-!
# Sorted sets

Finite sets over a linear order, kept as their elements in increasing order. A traversal visits
the elements in that order.

## Main definitions

* `SortedSet`: the elements and the proof that they increase
* `insert`, `insertAll`, `filter`, `erase`

## Main results

* `mem_insert`, `mem_insertAll`, `mem_filter`, `mem_erase`
-/

/-- A set as the increasing list of its elements. -/
structure SortedSet (α : Type) [LT α] : Type where
  elems : List α
  sorted : elems.Pairwise (· < ·)

namespace SortedSet

section Basic

variable {α : Type} [LT α]

instance : Membership α (SortedSet α) := ⟨fun s x => x ∈ s.elems⟩

instance [DecidableEq α] (x : α) (s : SortedSet α) : Decidable (x ∈ s) :=
  inferInstanceAs (Decidable (x ∈ s.elems))

def empty : SortedSet α := ⟨[], List.Pairwise.nil⟩

def filter (s : SortedSet α) (p : α → Bool) : SortedSet α :=
  ⟨s.elems.filter p, s.sorted.sublist List.filter_sublist⟩

def erase [DecidableEq α] (s : SortedSet α) (x : α) : SortedSet α := s.filter (· != x)

variable {s : SortedSet α} {x y : α}

theorem mem_def : x ∈ s ↔ x ∈ s.elems := Iff.rfl

@[simp] theorem not_mem_empty : x ∉ (empty : SortedSet α) := List.not_mem_nil

@[simp] theorem mem_filter {p : α → Bool} : x ∈ s.filter p ↔ x ∈ s ∧ p x = true :=
  List.mem_filter

@[simp] theorem mem_erase [DecidableEq α] : x ∈ s.erase y ↔ x ∈ s ∧ x ≠ y := by
  simp [erase]

/-- Inserts into an increasing list; an element that is there already stays once. -/
def insertInto [DecidableLT α] (x : α) : List α → List α
  | [] => [x]
  | y :: ys => if x < y then x :: y :: ys else if y < x then y :: insertInto x ys else y :: ys

end Basic

section Insertion

variable {α : Type} [LE α] [LT α] [Std.IsLinearOrder α] [Std.LawfulOrderLT α]

theorem eq_of_not_lt {x y : α} (hxy : ¬x < y) (hyx : ¬y < x) : x = y :=
  Std.le_antisymm (Std.not_lt.mp hyx) (Std.not_lt.mp hxy)

variable [DecidableLT α]

theorem mem_insertInto {x z : α} {ys : List α} : z ∈ insertInto x ys ↔ z = x ∨ z ∈ ys := by
  induction ys with
  | nil => simp [insertInto]
  | cons y ys ih =>
    unfold insertInto
    split
    · simp
    · split
      · simp only [List.mem_cons, ih]
        tauto
      · rename_i hxy hyx
        obtain rfl := eq_of_not_lt hxy hyx
        simp

theorem insertInto_sorted {x : α} {ys : List α} (h : ys.Pairwise (· < ·)) :
    (insertInto x ys).Pairwise (· < ·) := by
  induction ys with
  | nil => simp [insertInto]
  | cons y ys ih =>
    obtain ⟨hy, hys⟩ := List.pairwise_cons.mp h
    unfold insertInto
    split
    · rename_i hxy
      refine List.pairwise_cons.mpr ⟨?_, h⟩
      intro z hz
      rcases List.mem_cons.mp hz with rfl | hz
      · exact hxy
      · exact Std.lt_trans hxy (hy z hz)
    · split
      · rename_i hyx
        refine List.pairwise_cons.mpr ⟨?_, ih hys⟩
        intro z hz
        rcases mem_insertInto.mp hz with rfl | hz
        · exact hyx
        · exact hy z hz
      · exact h

def insert (s : SortedSet α) (x : α) : SortedSet α :=
  ⟨insertInto x s.elems, insertInto_sorted s.sorted⟩

def insertAll (s : SortedSet α) (xs : List α) : SortedSet α := xs.foldl insert s

def ofList (xs : List α) : SortedSet α := empty.insertAll xs

variable {s : SortedSet α} {x y : α} {xs : List α}

@[simp] theorem mem_insert : x ∈ s.insert y ↔ x = y ∨ x ∈ s := mem_insertInto

@[simp] theorem mem_insertAll : x ∈ s.insertAll xs ↔ x ∈ xs ∨ x ∈ s := by
  induction xs generalizing s with
  | nil => simp [insertAll]
  | cons y ys ih =>
    have h : s.insertAll (y :: ys) = (s.insert y).insertAll ys := rfl
    rw [h, ih, mem_insert, List.mem_cons]
    tauto

@[simp] theorem mem_ofList : x ∈ ofList xs ↔ x ∈ xs := by
  simp [ofList]

end Insertion

end SortedSet
