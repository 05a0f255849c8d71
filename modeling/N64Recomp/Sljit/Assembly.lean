import Mathlib.Logic.Function.Basic
import N64Recomp.Data.Widths

/-!
# Code under assembly

Code that is assembled one item after the other. Labels and jumps are known by their places in the
code; a jump is bound to a label whenever the label is known, which can be long after both.

Some items start a part of the code. Two places are in the same part when no item between them, and
none at the later of them, starts another.

## Main definitions

* `Assembly`, `Assembly.emit`, `Assembly.bind`: items, and the labels that jumps are bound to
* `Current`, `SamePart`: places in the part that is being assembled, and in one part

## Main results

* `samePart_of_current`: the places of the current part are in one part
* `SamePart.append`, `Current.append`: what the items that follow leave alone
-/

namespace Sljit

/-- The items, and the labels that jumps are bound to. -/
structure Assembly (ι : Type) where
  items : List ι
  target : Nat → Option Nat

namespace Assembly

variable {ι : Type} (a : Assembly ι)

def empty : Assembly ι := ⟨[], fun _ => none⟩

def emit (i : ι) : Assembly ι := { a with items := a.items ++ [i] }

/-- The place of the next item. -/
def here : Nat := a.items.length

def bind (jump label : Nat) : Assembly ι :=
  { a with target := Function.update a.target jump (some label) }

/-- Several jumps are bound to one label. -/
def bindAll (jumps : List Nat) (label : Nat) : Assembly ι :=
  jumps.foldl (fun a jump => a.bind jump label) a

@[simp] theorem items_emit (i : ι) : (a.emit i).items = a.items ++ [i] := rfl

@[simp] theorem target_emit (i : ι) : (a.emit i).target = a.target := rfl

@[simp] theorem items_bind (jump label : Nat) : (a.bind jump label).items = a.items := rfl

theorem target_bind (jump label p : Nat) :
    (a.bind jump label).target p = if p = jump then some label else a.target p := by
  unfold bind
  simp only [Function.update_apply]

@[simp] theorem items_bindAll (jumps : List Nat) (label : Nat) :
    (a.bindAll jumps label).items = a.items := by
  unfold bindAll
  induction jumps generalizing a with
  | nil => rfl
  | cons jump jumps ih =>
    rw [List.foldl_cons, ih]
    rfl

theorem target_bindAll (jumps : List Nat) (label p : Nat) :
    (a.bindAll jumps label).target p = if p ∈ jumps then some label else a.target p := by
  unfold bindAll
  induction jumps generalizing a with
  | nil => rfl
  | cons jump jumps ih =>
    rw [List.foldl_cons, ih, target_bind]
    simp only [List.mem_cons]
    by_cases hp : p ∈ jumps
    · rw [if_pos hp, if_pos (.inr hp)]
    · rw [if_neg hp]
      simp only [hp, or_false]

end Assembly

/-! ### Places -/

section Places

variable {ι : Type} {items l : List ι} {i : ι} {p q : Nat}

theorem getElem?_append_of_eq_some (h : items[p]? = some i) : (items ++ l)[p]? = some i := by
  obtain ⟨hlt, -⟩ := List.getElem?_eq_some_iff.mp h
  rw [List.getElem?_append_left hlt, h]

theorem lt_length_of_eq_some (h : items[p]? = some i) : p < items.length :=
  (List.getElem?_eq_some_iff.mp h).1

/-- An item of longer code is an old or a new one. -/
theorem getElem?_append_cases (h : (items ++ l)[p]? = some i) :
    items[p]? = some i ∨ (items.length ≤ p ∧ l[p - items.length]? = some i) := by
  rcases Nat.lt_or_ge p items.length with hlt | hle
  · rw [List.getElem?_append_left hlt] at h
    exact .inl h
  · rw [List.getElem?_append_right hle] at h
    exact .inr ⟨hle, h⟩

/-- The same for one item. -/
theorem getElem?_concat_cases {j : ι} (h : (items ++ [j])[p]? = some i) :
    items[p]? = some i ∨ (p = items.length ∧ i = j) := by
  rcases getElem?_append_cases h with h | ⟨hle, h⟩
  · exact .inl h
  · obtain ⟨hlt, heq⟩ := List.getElem?_eq_some_iff.mp h
    rw [List.length_singleton] at hlt
    have hp : p - items.length = 0 := by omega
    simp only [hp, List.getElem_cons_zero] at heq
    exact .inr ⟨by omega, heq.symm⟩

theorem getElem?_concat_length (items : List ι) (j : ι) :
    (items ++ [j])[items.length]? = some j := by
  rw [List.getElem?_append_right (Nat.le_refl _), Nat.sub_self]
  rfl

variable (starts : ι → Bool)

/-- No part starts behind a place. -/
def Current (items : List ι) (p : Nat) : Prop :=
  ∀ r, p < r → ∀ i, items[r]? = some i → starts i = false

/-- No part starts between two places. -/
def SamePart (items : List ι) (p q : Nat) : Prop :=
  ∀ r, min p q < r → r ≤ max p q → ∀ i, items[r]? = some i → starts i = false

variable {starts}

theorem samePart_of_current (hp : Current starts items p) (hq : Current starts items q) :
    SamePart starts items p q := by
  intro r hr _ i hi
  rcases Nat.le_total p q with hle | hle
  · rw [Nat.min_eq_left hle] at hr
    exact hp r hr i hi
  · rw [Nat.min_eq_right hle] at hr
    exact hq r hr i hi

theorem SamePart.symm (h : SamePart starts items p q) : SamePart starts items q p := by
  unfold SamePart at h ⊢
  rwa [Nat.min_comm, Nat.max_comm]

theorem Current.append (h : Current starts items p) (hl : ∀ i ∈ l, starts i = false) :
    Current starts (items ++ l) p := by
  intro r hr i hi
  rcases getElem?_append_cases hi with hi | ⟨-, hi⟩
  · exact h r hr i hi
  · exact hl i (List.mem_of_getElem? hi)

/-- Every place of new code that starts no part is in the current one. -/
theorem current_of_le (hl : ∀ i ∈ l, starts i = false) (hp : items.length ≤ p + 1) :
    Current starts (items ++ l) p := by
  intro r hr i hi
  rcases getElem?_append_cases hi with hi | ⟨-, hi⟩
  · have := lt_length_of_eq_some hi
    omega
  · exact hl i (List.mem_of_getElem? hi)

theorem SamePart.append (h : SamePart starts items p q) (hp : p < items.length)
    (hq : q < items.length) : SamePart starts (items ++ l) p q := by
  intro r hr hle i hi
  have hlt : r < items.length := Nat.lt_of_le_of_lt hle (Nat.max_lt.mpr ⟨hp, hq⟩)
  rw [List.getElem?_append_left hlt] at hi
  exact h r hr hle i hi

theorem SamePart.of_append (h : SamePart starts (items ++ l) p q) : SamePart starts items p q :=
  fun r hr hle i hi => h r hr hle i (getElem?_append_of_eq_some hi)

/-- A part that starts between two places tells them apart. -/
theorem not_samePart {r : Nat} (hp : p < r) (hq : r ≤ q) (hr : items[r]? = some i)
    (hi : starts i = true) : ¬SamePart starts items p q := by
  intro h
  have hle : p ≤ q := Nat.le_of_lt (Nat.lt_of_lt_of_le hp hq)
  have hfalse := h r (by rwa [Nat.min_eq_left hle]) (by rwa [Nat.max_eq_right hle]) i hr
  rw [hi] at hfalse
  cases hfalse

end Places

end Sljit
