import Mathlib.Algebra.BigOperators.Group.List.Basic
import Mathlib.Algebra.BigOperators.Intervals
import Mathlib.Data.List.Forall2
import N64Recomp.Data.Widths

/-!
# Mixed-radix numerals

A numeral over a list of radices has one digit below each radix, the most significant digit
first. The numerals are counted through by an odometer: the last digit is increased, and a digit
that reaches its radix returns to zero and carries to the left.

## Main definitions

* `IsNumeral`: one digit for each radix, and below it
* `value`: the number a numeral denotes
* `succ`: the next numeral, if there is one

## Main results

* `value_injective`, `exists_numeral`: the numerals are exactly the numbers below the product of
  the radices
* `value_succ`, `succ_eq_none_iff`: the odometer counts by one and stops at the last number
* `value_eq_sum`: the place value of a digit is the product of the radices after it
-/

namespace MixedRadix

/-- A digit for each radix, each below its radix. -/
def IsNumeral (radices digits : List Nat) : Prop := List.Forall₂ (· < ·) digits radices

/-- The number denoted, by the place values of the digits. -/
def value : List Nat → List Nat → Nat
  | _ :: radices, d :: digits => d * radices.prod + value radices digits
  | _, _ => 0

/-- The smallest numeral. -/
def zeros (radices : List Nat) : List Nat := radices.map fun _ => 0

/-- The largest numeral. -/
def largest (radices : List Nat) : List Nat := radices.map (· - 1)

/-- The odometer: the next numeral, or `none` from the largest. -/
def succ : List Nat → List Nat → Option (List Nat)
  | r :: radices, d :: digits =>
    match succ radices digits with
    | some next => some (d :: next)
    | none => if d + 1 < r then some ((d + 1) :: zeros radices) else none
  | _, _ => none

section Numerals

variable {r d : Nat} {radices digits digits' : List Nat}

@[simp] theorem isNumeral_nil : IsNumeral [] [] := List.Forall₂.nil

@[simp] theorem isNumeral_cons :
    IsNumeral (r :: radices) (d :: digits) ↔ d < r ∧ IsNumeral radices digits :=
  List.forall₂_cons

theorem IsNumeral.length_eq (h : IsNumeral radices digits) : digits.length = radices.length :=
  List.Forall₂.length_eq h

/-- A digit of a numeral is below its radix. -/
theorem IsNumeral.exists_radix (h : IsNumeral radices digits) {i : Nat}
    (hd : digits[i]? = some d) : ∃ r, radices[i]? = some r ∧ d < r := by
  induction h generalizing i with
  | nil => simp at hd
  | @cons e r digits radices he _ ih =>
    cases i with
    | zero =>
      cases hd
      exact ⟨r, rfl, he⟩
    | succ i => exact ih hd

/-- A digit may be replaced by any other below its radix. -/
theorem IsNumeral.set (h : IsNumeral radices digits) {i : Nat} (hr : radices[i]? = some r)
    (hd : d < r) : IsNumeral radices (digits.set i d) := by
  induction h generalizing i with
  | nil => exact isNumeral_nil
  | @cons e r' digits radices he htail ih =>
    cases i with
    | zero =>
      cases hr
      exact isNumeral_cons.mpr ⟨hd, htail⟩
    | succ i => exact isNumeral_cons.mpr ⟨he, ih hr⟩

/-- Only positive radices have numerals. -/
theorem IsNumeral.pos (h : IsNumeral radices digits) : ∀ r ∈ radices, 0 < r := by
  induction h with
  | nil => simp
  | @cons d r digits radices hd _ ih =>
    intro x hx
    rcases List.mem_cons.mp hx with rfl | hx
    · exact Nat.zero_lt_of_lt hd
    · exact ih x hx

@[simp] theorem value_nil : value [] digits = 0 := rfl

@[simp] theorem value_cons :
    value (r :: radices) (d :: digits) = d * radices.prod + value radices digits := rfl

/-- A numeral denotes a number below the product of the radices. -/
theorem value_lt_prod (h : IsNumeral radices digits) : value radices digits < radices.prod := by
  induction h with
  | nil => exact Nat.one_pos
  | @cons d r digits radices hd _ ih =>
    rw [value_cons, List.prod_cons]
    calc d * radices.prod + value radices digits
        < d * radices.prod + radices.prod := Nat.add_lt_add_left ih _
      _ = (d + 1) * radices.prod := (Nat.succ_mul d _).symm
      _ ≤ r * radices.prod := Nat.mul_le_mul_right _ hd

theorem isNumeral_zeros (hpos : ∀ r ∈ radices, 0 < r) : IsNumeral radices (zeros radices) := by
  induction radices with
  | nil => exact isNumeral_nil
  | cons r radices ih =>
    exact isNumeral_cons.mpr
      ⟨hpos r List.mem_cons_self, ih fun x hx => hpos x (List.mem_cons_of_mem r hx)⟩

theorem prod_pos (h : ∀ r ∈ radices, 0 < r) : 0 < radices.prod :=
  Nat.lt_of_le_of_lt (Nat.zero_le _) (value_lt_prod (isNumeral_zeros h))

/-- Two numerals of one value are the same. -/
theorem value_injective (h : IsNumeral radices digits) (h' : IsNumeral radices digits')
    (heq : value radices digits = value radices digits') : digits = digits' := by
  induction h generalizing digits' with
  | nil => exact (List.forall₂_nil_right_iff.mp h').symm
  | @cons d r digits radices hd htail ih =>
    obtain ⟨d', tail', hd', htail', rfl⟩ := List.forall₂_cons_right_iff.mp h'
    have hlt := value_lt_prod htail
    have hlt' := value_lt_prod htail'
    have hpos : 0 < radices.prod := Nat.lt_of_le_of_lt (Nat.zero_le _) hlt
    simp only [value_cons] at heq
    -- the leading digit is the quotient by the product of the radices after it
    have hdiv := congrArg (· / radices.prod) heq
    simp only [Nat.mul_comm _ radices.prod, Nat.mul_add_div hpos, Nat.div_eq_of_lt hlt,
      Nat.div_eq_of_lt hlt', Nat.add_zero] at hdiv
    subst hdiv
    rw [ih htail' (Nat.add_left_cancel heq)]

/-- Every number below the product of the radices has a numeral. -/
theorem exists_numeral {n : Nat} (hn : n < radices.prod) :
    ∃ digits, IsNumeral radices digits ∧ value radices digits = n := by
  induction radices generalizing n with
  | nil =>
    rw [List.prod_nil] at hn
    exact ⟨[], isNumeral_nil, by rw [value_nil]; omega⟩
  | cons r radices ih =>
    rw [List.prod_cons] at hn
    have hpos : 0 < radices.prod := Nat.pos_of_ne_zero fun h => by simp [h] at hn
    obtain ⟨digits, hdigits, hvalue⟩ := ih (Nat.mod_lt n hpos)
    refine ⟨n / radices.prod :: digits, isNumeral_cons.mpr ⟨?_, hdigits⟩, ?_⟩
    · exact Nat.div_lt_of_lt_mul (by rwa [Nat.mul_comm] at hn)
    · rw [value_cons, hvalue, Nat.mul_comm]
      exact Nat.div_add_mod n radices.prod

@[simp] theorem value_zeros : value radices (zeros radices) = 0 := by
  induction radices with
  | nil => rfl
  | cons r radices ih => simpa [zeros] using ih

theorem isNumeral_largest (hpos : ∀ r ∈ radices, 0 < r) :
    IsNumeral radices (largest radices) := by
  induction radices with
  | nil => exact isNumeral_nil
  | cons r radices ih =>
    exact isNumeral_cons.mpr ⟨Nat.sub_lt (hpos r List.mem_cons_self) Nat.one_pos,
      ih fun x hx => hpos x (List.mem_cons_of_mem r hx)⟩

/-- The place value of a digit is the product of the radices after it. -/
theorem value_eq_sum (h : digits.length = radices.length) :
    value radices digits =
      ∑ i ∈ Finset.range radices.length, digits.getD i 0 * (radices.drop (i + 1)).prod := by
  induction radices generalizing digits with
  | nil => rfl
  | cons r radices ih =>
    cases digits with
    | nil => simp at h
    | cons d digits =>
      rw [value_cons, ih (Nat.succ.inj h), List.length_cons, Finset.sum_range_succ']
      simp only [List.getD_cons_zero, List.getD_cons_succ, List.drop_succ_cons, List.drop_zero]
      exact Nat.add_comm _ _

end Numerals

section Odometer

variable {radices digits next : List Nat}

theorem succ_cons (r d : Nat) (radices digits : List Nat) :
    succ (r :: radices) (d :: digits) =
      match succ radices digits with
      | some next => some (d :: next)
      | none => if d + 1 < r then some ((d + 1) :: zeros radices) else none := rfl

/-- The odometer stops exactly at the last number. -/
theorem succ_eq_none_iff (h : IsNumeral radices digits) :
    succ radices digits = none ↔ value radices digits + 1 = radices.prod := by
  induction h with
  | nil => simp [succ]
  | @cons d r digits radices hd htail ih =>
    have hlt := value_lt_prod htail
    rw [value_cons, List.prod_cons]
    have hstep : (d + 1) * radices.prod ≤ r * radices.prod := Nat.mul_le_mul_right _ hd
    rw [Nat.succ_mul] at hstep
    cases hs : succ radices digits with
    | some next =>
      have hne : value radices digits + 1 ≠ radices.prod := fun he => by simp [ih.mpr he] at hs
      simp only [succ, hs, reduceCtorEq, false_iff]
      omega
    | none =>
      have hlast := ih.mp hs
      simp only [succ, hs, ite_eq_right_iff, reduceCtorEq, imp_false, Nat.not_lt]
      constructor
      · intro hr
        obtain rfl : r = d + 1 := Nat.le_antisymm hr hd
        rw [Nat.succ_mul]
        omega
      · intro heq
        have hmul : (d + 1) * radices.prod = r * radices.prod := by rw [Nat.succ_mul]; omega
        exact Nat.le_of_eq (Nat.eq_of_mul_eq_mul_right (by omega) hmul).symm

/-- The odometer moves from a numeral to the numeral of the next number. -/
theorem value_succ (h : IsNumeral radices digits) (hs : succ radices digits = some next) :
    IsNumeral radices next ∧ value radices next = value radices digits + 1 := by
  induction h generalizing next with
  | nil => simp [succ] at hs
  | @cons d r digits radices hd htail ih =>
    cases ht : succ radices digits with
    | some tail =>
      simp only [succ, ht, Option.some.injEq] at hs
      subst hs
      obtain ⟨hnum, hvalue⟩ := ih ht
      exact ⟨isNumeral_cons.mpr ⟨hd, hnum⟩, by rw [value_cons, value_cons, hvalue]; omega⟩
    | none =>
      simp only [succ, ht] at hs
      split at hs
      · rename_i hlt
        cases hs
        have hlast := (succ_eq_none_iff htail).mp ht
        refine ⟨isNumeral_cons.mpr ⟨hlt, isNumeral_zeros (IsNumeral.pos htail)⟩, ?_⟩
        rw [value_cons, value_cons, value_zeros, Nat.succ_mul]
        omega
      · cases hs

end Odometer

end MixedRadix
