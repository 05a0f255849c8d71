import Mathlib.Logic.Function.Basic
import Mathlib.Data.List.Basic
import N64Recomp.Data.Widths

/-!
# Rings

A ring of slots holds the end of a history: every item is written to the slot of its position modulo
the capacity, over the one that was written there a capacity before.

## Main definitions

* `put`: the slots with an item at a position
* `Holds`: the slots hold the last items of a history

## Main results

* `Holds.put`: an item at the end of the history
* `Holds.get`: an item of the history that is not yet overwritten
-/

namespace Ring

variable {α : Type} {capacity : Nat} {slots : Nat → α} {history : List α}

/-- The slots with an item at a position. -/
def put (capacity : Nat) (slots : Nat → α) (position : Nat) (x : α) : Nat → α :=
  Function.update slots (position % capacity) x

/-- The slots hold the last items of a history, each at its position. -/
def Holds (capacity : Nat) (slots : Nat → α) (history : List α) : Prop :=
  ∀ i x, history[i]? = some x → history.length ≤ i + capacity → slots (i % capacity) = x

theorem Holds.nil : Holds capacity slots [] := by
  intro i x h
  cases h

/-- The positions of one window have slots of their own. -/
theorem mod_ne_of_window {i n : Nat} (hi : i < n) (hn : n < i + capacity) :
    i % capacity ≠ n % capacity := by
  intro h
  have hdvd : capacity ∣ n - i :=
    Nat.dvd_of_mod_eq_zero (Nat.sub_mod_eq_zero_of_mod_eq h.symm)
  have hle := Nat.le_of_dvd (by omega) hdvd
  omega

theorem Holds.put (h : Holds capacity slots history) (x : α) :
    Holds capacity (put capacity slots history.length x) (history ++ [x]) := by
  intro i y hy hwindow
  rw [List.length_append, List.length_singleton] at hwindow
  rcases Nat.lt_trichotomy i history.length with hi | rfl | hi
  · rw [List.getElem?_append_left hi] at hy
    rw [Ring.put, Function.update_of_ne (mod_ne_of_window hi (by omega))]
    exact h i y hy (by omega)
  · rw [List.getElem?_append_right (Nat.le_refl _), Nat.sub_self] at hy
    rw [Ring.put, Function.update_self]
    exact Option.some.inj hy
  · rw [List.getElem?_eq_none (by simp; omega)] at hy
    cases hy

/-- An item of the history is in its slot while it is in the window. -/
theorem Holds.get (h : Holds capacity slots history) {i : Nat} (hi : i < history.length)
    (hwindow : history.length ≤ i + capacity) : history[i]? = some (slots (i % capacity)) := by
  obtain ⟨x, hx⟩ : ∃ x, history[i]? = some x := ⟨_, List.getElem?_eq_getElem hi⟩
  rw [hx, h i x hx hwindow]

end Ring
