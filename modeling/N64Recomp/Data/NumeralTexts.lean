import Mathlib.Data.Nat.Digits.Lemmas
import N64Recomp.Data.MixedRadix

/-!
# Numerals written one after the other

A vector of numbers is written in a base, most significant digits first, with nothing between the
numbers. Where every number is below a bound of its own, this note decides from the bounds alone
whether two vectors can have one text.

Two vectors with one text are read side by side. After some numbers one text leads the other by a
surplus of digits. A surplus grows where the vector in front has a numeral of more digits than the
other, and it can do so only if the number that the other vector will have there may begin with a
digit that is not zero. It is used up at a number of the vector behind, whose numeral takes in the
whole surplus; so the surplus begins with a digit that is not zero, while the numbers before it
that can only be zero have read zeros.

## Main definitions

* `numeral`, `text`: a number and a vector in a base
* `surplus`: the longest surplus after some numbers
* `gap`: how many numbers just before a place can only be zero
* `Separable`: the condition on the bounds

## Main results

* `text_injOn`: under the condition a text is the text of one vector
* `exists_text_eq`: without the condition two vectors have one text
-/

namespace NumeralText

open MixedRadix

/-- A number in a base, most significant digits first. -/
def numeral (b n : Nat) : List Nat := if n = 0 then [0] else (Nat.digits b n).reverse

/-- The numerals of a vector, with nothing between them. -/
def text (b : Nat) (p : List Nat) : List Nat := p.flatMap (numeral b)

/-- The bound at a place; behind the last place a number can only be zero. -/
def count (counts : List Nat) (i : Nat) : Nat := counts.getD i 1

/-- The longest surplus that one vector can have over another after some numbers. A numeral in
front adds all its digits but one to a surplus of `l` digits if the number `l` places further on
may begin with its first digit. -/
def surplus (b : Nat) (counts : List Nat) : Nat → Nat
  | 0 => 0
  | u + 1 =>
    max (surplus b counts u)
      (Nat.findGreatest (fun l => 2 ≤ count counts (u + l)) (surplus b counts u) +
        Nat.log b (count counts u - 1))

/-- How many numbers just before a place can only be zero. -/
def gap (counts : List Nat) : Nat → Nat
  | 0 => 0
  | k + 1 => if count counts k = 1 then gap counts k + 1 else 0

/-- The condition on the bounds: wherever a number may have more digits than there are forced
zeros before it, with one to spare, the number before the zeros and the surplus up to that number
are too small for it. -/
def Separable (b : Nat) (counts : List Nat) : Prop :=
  ∀ k < counts.length, 0 < k → b ^ (gap counts k + 1) < count counts k →
    surplus b counts (k - 1 - gap counts k) ≤ gap counts k ∧
      count counts (k - 1 - gap counts k) ≤ b ^ (gap counts k + 1) + 1

instance (b : Nat) (counts : List Nat) : Decidable (Separable b counts) :=
  inferInstanceAs (Decidable (∀ k < counts.length, _))

/-! ## Numerals -/

section Numeral

variable {b n m : Nat}

@[simp] theorem numeral_zero (b : Nat) : numeral b 0 = [0] := rfl

theorem numeral_of_ne_zero (h : n ≠ 0) : numeral b n = (Nat.digits b n).reverse := if_neg h

theorem numeral_ne_nil (b n : Nat) : numeral b n ≠ [] := by
  by_cases h : n = 0
  · simp [h]
  · rw [numeral_of_ne_zero h, ne_eq, List.reverse_eq_nil_iff]
    exact Nat.digits_ne_nil_iff_ne_zero.mpr h

theorem length_numeral_pos (b n : Nat) : 0 < (numeral b n).length :=
  List.length_pos_iff.mpr (numeral_ne_nil b n)

theorem numeral_injective : Function.Injective (numeral b) := by
  have hzero : ∀ {n : Nat}, n ≠ 0 → numeral b n ≠ [0] := by
    intro n hn h
    rw [numeral_of_ne_zero hn, List.reverse_eq_iff, List.reverse_singleton] at h
    have hvalue := congrArg (Nat.ofDigits b) h
    rw [Nat.ofDigits_digits, Nat.ofDigits_singleton] at hvalue
    exact hn hvalue
  intro n m h
  by_cases hn : n = 0
  · by_contra hne
    exact hzero (fun hm => hne (hn.trans hm.symm)) (h.symm.trans (hn ▸ numeral_zero b))
  · by_cases hm : m = 0
    · exact absurd (h.trans (hm ▸ numeral_zero b)) (hzero hn)
    · rw [numeral_of_ne_zero hn, numeral_of_ne_zero hm, List.reverse_inj] at h
      exact Nat.digits.injective b h

/-- A number that is not zero does not begin with zero. -/
theorem head_numeral_ne_zero {d : Nat} {l : List Nat} (hn : n ≠ 0) (h : numeral b n = d :: l) :
    d ≠ 0 := by
  rw [numeral_of_ne_zero hn, List.reverse_eq_cons_iff] at h
  have hlast := Nat.getLast_digit_ne_zero b hn
  simpa [h] using hlast

theorem ne_zero_of_one_lt_length (h : 1 < (numeral b n).length) : n ≠ 0 := by
  rintro rfl
  simp at h

variable (hb : 1 < b)
include hb

theorem numeral_one : numeral b 1 = [1] := by
  rw [numeral_of_ne_zero Nat.one_ne_zero, Nat.digits_of_lt b 1 Nat.one_ne_zero hb,
    List.reverse_singleton]

theorem lt_of_mem_numeral {d : Nat} (h : d ∈ numeral b n) : d < b := by
  by_cases hn : n = 0
  · rw [hn, numeral_zero, List.mem_singleton] at h
    omega
  · rw [numeral_of_ne_zero hn, List.mem_reverse] at h
    exact Nat.digits_lt_base hb h

/-- Beyond the first digit, the length of a numeral is the size of the number. -/
theorem lt_length_numeral {e : Nat} (he : 0 < e) : e < (numeral b n).length ↔ b ^ e ≤ n := by
  by_cases hn : n = 0
  · have hpow : 0 < b ^ e := Nat.pow_pos (by omega)
    rw [hn, numeral_zero, List.length_singleton]
    omega
  · rw [numeral_of_ne_zero hn, List.length_reverse, Nat.lt_digits_length_iff hb]

/-- The digits of a numeral but one are no more than its bound allows. -/
theorem length_numeral_le {c : Nat} (h : n < c) :
    (numeral b n).length ≤ Nat.log b (c - 1) + 1 := by
  by_contra hlong
  have hlong' : Nat.log b (c - 1) + 1 < (numeral b n).length := by omega
  have hle := (lt_length_numeral hb (Nat.succ_pos _)).mp hlong'
  exact absurd (Nat.lt_pow_succ_log_self hb (c - 1)) (by omega)

/-- A power of the base is a one with zeros. -/
theorem numeral_pow (e : Nat) : numeral b (b ^ e) = 1 :: List.replicate e 0 := by
  have hdigits := Nat.digits_base_pow_mul (k := e) hb Nat.one_pos
  rw [Nat.mul_one, Nat.digits_of_lt b 1 Nat.one_ne_zero hb] at hdigits
  rw [numeral_of_ne_zero (Nat.pow_pos (by omega)).ne', hdigits, List.reverse_append,
    List.reverse_replicate]
  rfl

theorem numeral_pow_add_one (e : Nat) :
    numeral b (b ^ (e + 1) + 1) = 1 :: (List.replicate e 0 ++ [1]) := by
  have hdigits := Nat.digits_append_zeroes_append_digits (n := 1) (k := e) hb Nat.one_pos
  rw [Nat.digits_of_lt b 1 Nat.one_ne_zero hb, List.length_singleton, Nat.mul_one] at hdigits
  rw [numeral_of_ne_zero (by omega : b ^ (e + 1) + 1 ≠ 0), Nat.add_comm (b ^ (e + 1)),
    Nat.add_comm e, ← hdigits]
  simp

/-- The value of a numeral that another begins, with digits behind it that are not all zero. -/
theorem pow_lt_of_numeral_eq_append {a c j d : Nat} {v : List Nat}
    (h : numeral b c = numeral b a ++ v) (hd : v[j]? = some d) (hd0 : d ≠ 0) :
    b ^ (j + 1) + 1 ≤ c := by
  have hvalue : ∀ n, Nat.ofDigits b (numeral b n).reverse = n := by
    intro n
    by_cases hn : n = 0
    · simp [hn]
    · rw [numeral_of_ne_zero hn, List.reverse_reverse, Nat.ofDigits_digits]
  have hj : j < v.length := (List.getElem?_eq_some_iff.mp hd).1
  have hlen := congrArg List.length h
  have hapos := length_numeral_pos b a
  rw [List.length_append] at hlen
  -- the number in front is not zero: the longer numeral begins with its first digit
  have ha : a ≠ 0 := by
    rintro rfl
    have hc : c ≠ 0 := ne_zero_of_one_lt_length (b := b) (by omega)
    exact head_numeral_ne_zero hc (h.trans (by rw [numeral_zero, List.singleton_append])) rfl
  have hsum : c = Nat.ofDigits b v.reverse + b ^ v.length * a := by
    rw [← hvalue c, h, List.reverse_append, Nat.ofDigits_append, hvalue, List.length_reverse]
  have hv : Nat.ofDigits b v.reverse ≠ 0 := by
    intro hzero
    have hall : ∀ l : List Nat, Nat.ofDigits b l = 0 → ∀ x ∈ l, x = 0 := by
      intro l
      induction l with
      | nil => intro _ x hx; cases hx
      | cons y l ih =>
        intro hl x hx
        rw [Nat.ofDigits_cons, Nat.add_eq_zero_iff, Nat.mul_eq_zero] at hl
        rcases List.mem_cons.mp hx with rfl | hx
        · exact hl.1
        · exact ih (hl.2.resolve_left (by omega)) x hx
    exact hd0 (hall _ hzero d (List.mem_reverse.mpr (List.mem_of_getElem? hd)))
  have hpow : b ^ (j + 1) ≤ b ^ v.length := Nat.pow_le_pow_right (by omega) hj
  have hmul : b ^ v.length ≤ b ^ v.length * a := Nat.le_mul_of_pos_right _ (Nat.pos_of_ne_zero ha)
  omega

end Numeral

/-! ## Bounds -/

section Bounds

variable {b : Nat} {counts : List Nat}

theorem take_succ {k : Nat} (hk : k < counts.length) :
    counts.take (k + 1) = counts.take k ++ [count counts k] := by
  rw [List.take_add_one, List.getElem?_eq_getElem hk, count, List.getD_eq_getElem?_getD,
    List.getElem?_eq_getElem hk]
  rfl

/-- A vector grows by a number below the bound at its end. -/
theorem isNumeral_concat {k a : Nat} {p : List Nat} (hk : k < counts.length)
    (h : IsNumeral (counts.take k) p) (ha : a < count counts k) :
    IsNumeral (counts.take (k + 1)) (p ++ [a]) := by
  rw [take_succ hk]
  exact List.rel_append h (List.Forall₂.cons ha List.Forall₂.nil)

@[simp] theorem text_nil (b : Nat) : text b [] = [] := rfl

theorem text_append (b : Nat) (p q : List Nat) : text b (p ++ q) = text b p ++ text b q :=
  List.flatMap_append

@[simp] theorem text_concat (b : Nat) (p : List Nat) (a : Nat) :
    text b (p ++ [a]) = text b p ++ numeral b a := by
  simp [text]

theorem surplus_le_succ (u : Nat) : surplus b counts u ≤ surplus b counts (u + 1) :=
  Nat.le_max_left _ _

/-- What a numeral adds to a surplus that the bounds let it add to. -/
theorem add_log_le_surplus {u l : Nat} (hl : l ≤ surplus b counts u)
    (hcount : 2 ≤ count counts (u + l)) :
    l + Nat.log b (count counts u - 1) ≤ surplus b counts (u + 1) :=
  Nat.le_trans (Nat.add_le_add_right (Nat.le_findGreatest hl hcount) _) (Nat.le_max_right _ _)

theorem gap_le (k : Nat) : gap counts k ≤ k := by
  induction k with
  | zero => exact Nat.le_refl 0
  | succ k ih =>
    rw [gap]
    split_ifs
    · exact Nat.succ_le_succ ih
    · exact Nat.zero_le _

/-- The numbers in the gap can only be zero. -/
theorem count_of_lt_gap {k i : Nat} (h : i < gap counts k) : count counts (k - 1 - i) = 1 := by
  induction k generalizing i with
  | zero => simp [gap] at h
  | succ k ih =>
    rw [gap] at h
    split_ifs at h with hk
    · cases i with
      | zero => exact hk
      | succ i =>
        have hi := ih (i := i) (by omega)
        rwa [show k + 1 - 1 - (i + 1) = k - 1 - i by omega]
    · omega

/-- The number before the gap can be another than zero. -/
theorem count_before_gap {k : Nat} (h : gap counts k < k) :
    count counts (k - 1 - gap counts k) ≠ 1 := by
  induction k with
  | zero => omega
  | succ k ih =>
    rw [gap] at h ⊢
    split_ifs at h ⊢ with hk
    · rw [show k + 1 - 1 - (gap counts k + 1) = k - 1 - gap counts k by omega]
      exact ih (by omega)
    · exact hk

end Bounds

/-! ## The bound on a surplus -/

/-- The digits can be read by `m` numbers from a place on, the last of which begins in them. -/
inductive Readable (b : Nat) (counts : List Nat) : Nat → List Nat → Nat → Prop
  | stop (u : Nat) (v : List Nat) : Readable b counts u v 0
  | past (u : Nat) (v : List Nat) (a : Nat) (ha : a < count counts u) (hv : v ≠ [])
      (h : v <+: numeral b a) : Readable b counts u v 1
  | step (u : Nat) (v : List Nat) (a m : Nat) (ha : a < count counts u)
      (h : Readable b counts (u + 1) v m) : Readable b counts u (numeral b a ++ v) (m + 1)

/-- The state of a surplus before a place: the digits that one text is in front of the other. -/
structure Lead (b : Nat) (counts : List Nat) (s : Nat) (v : List Nat) : Prop where
  /-- However the surplus is read, it is read by no more numbers than the longest surplus has
  digits. -/
  readable_le : ∀ m, Readable b counts s v m → m ≤ surplus b counts s
  /-- A digit that is not zero stands behind as many zeros as the gap needs. -/
  behind_gap : ∀ j d, v[j]? = some d → d ≠ 0 → (∀ i < j, v[i]? = some 0) →
    gap counts s + j + 1 ≤ v.length ∧
      (gap counts s + j + 1 ≤ surplus b counts (s - 1 - gap counts s) ∨
        b ^ (gap counts s + j + 1) + 1 < count counts (s - 1 - gap counts s))

section Reading

variable {b : Nat} {counts : List Nat}

theorem Readable.le_length {u m : Nat} {v : List Nat} (h : Readable b counts u v m) :
    m ≤ v.length := by
  induction h with
  | stop u v => exact Nat.zero_le _
  | past u v a ha hv h => exact List.length_pos_iff.mpr hv
  | step u v a m ha h ih =>
    have hpos := length_numeral_pos b a
    rw [List.length_append]
    omega

/-- Zeros can be read at any place. -/
theorem readable_zeros (hcounts : ∀ i, 0 < count counts i) {v : List Nat} {u m : Nat}
    (h : ∀ i < m, v[i]? = some 0) : Readable b counts u v m := by
  induction m generalizing u v with
  | zero => exact Readable.stop u v
  | succ m ih =>
    obtain ⟨d, v, rfl⟩ := List.exists_cons_of_ne_nil (l := v) (by
      rintro rfl
      exact absurd (h 0 (Nat.succ_pos m)) (by simp))
    obtain rfl : d = 0 := by simpa using h 0 (Nat.succ_pos m)
    exact Readable.step u v 0 m (hcounts u) (ih fun i hi => by
      simpa using h (i + 1) (Nat.succ_lt_succ hi))

/-- A reading of digits with more behind them ends in them, or reads them exactly, or has a
numeral that goes over their end. -/
theorem Readable.split {u m : Nat} {x y : List Nat} (h : Readable b counts u (x ++ y) m) :
    Readable b counts u x m ∨
      (∃ k n, m = k + n ∧ Readable b counts u x k ∧ Readable b counts (u + k) y n) ∨
      (∃ k, Readable b counts u x (k + 1) ∧ 2 ≤ count counts (u + k) ∧
        m + 1 ≤ k + 1 + y.length) := by
  generalize hv : x ++ y = v at h
  induction h generalizing x with
  | stop u v => exact Or.inl (Readable.stop u x)
  | past u v a ha hne hpre =>
    subst hv
    by_cases hx : x = []
    · subst hx
      exact Or.inr (Or.inl ⟨0, 1, rfl, Readable.stop u [], Readable.past u y a ha hne hpre⟩)
    · exact Or.inl (Readable.past u x a ha hx ((List.prefix_append x y).trans hpre))
  | step u v a m ha h ih =>
    rcases List.append_eq_append_iff.mp hv with ⟨z, hz, hy⟩ | ⟨z, hz, hv'⟩
    · -- the numeral goes over the end, or begins behind it
      by_cases hx : x = []
      · subst hx
        refine Or.inr (Or.inl ⟨0, m + 1, (Nat.zero_add _).symm, Readable.stop u [], ?_⟩)
        have hyv : y = numeral b a ++ v := by simpa using hv
        rw [hyv]
        exact Readable.step u v a m ha h
      · by_cases hz0 : z = []
        · -- it ends with the digits
          subst hz0
          rw [List.append_nil] at hz
          rw [List.nil_append] at hy
          subst hy hz
          refine Or.inr (Or.inl ⟨1, m, Nat.add_comm m 1, ?_, h⟩)
          simpa using Readable.step u [] a 0 ha (Readable.stop (u + 1) [])
        · have hxpos := List.length_pos_iff.mpr hx
          have hzpos := List.length_pos_iff.mpr hz0
          have hlen := congrArg List.length hz
          rw [List.length_append] at hlen
          have hane : a ≠ 0 := ne_zero_of_one_lt_length (b := b) (by omega)
          refine Or.inr (Or.inr ⟨0, Readable.past u x a ha hx ⟨z, hz.symm⟩, by
            rw [Nat.add_zero]; omega, ?_⟩)
          have hm := h.le_length
          rw [hy, List.length_append]
          omega
    · -- the numeral ends in the digits: what is behind it is split
      subst hz
      rcases ih hv'.symm with hin | ⟨k, n, rfl, hk, hn⟩ | ⟨k, hk, hcount, hm⟩
      · exact Or.inl (Readable.step u z a m ha hin)
      · refine Or.inr (Or.inl ⟨k + 1, n, by omega, Readable.step u z a k ha hk, ?_⟩)
        rwa [show u + (k + 1) = u + 1 + k by omega]
      · refine Or.inr (Or.inr ⟨k + 1, Readable.step u z a (k + 1) ha hk, ?_, by omega⟩)
        rwa [show u + (k + 1) = u + 1 + k by omega]

/-- What is read first of a numeral with several digits is not zero. -/
theorem Readable.two_le_count {u m c : Nat} (hc : 1 < (numeral b c).length)
    (h : Readable b counts u (numeral b c) (m + 1)) : 2 ≤ count counts u := by
  obtain ⟨d, l, hdl⟩ := List.exists_cons_of_ne_nil (numeral_ne_nil b c)
  have hd : d ≠ 0 := head_numeral_ne_zero (ne_zero_of_one_lt_length hc) hdl
  have hfirst : ∀ {a : Nat} {l' : List Nat}, a < count counts u → numeral b a = d :: l' →
      2 ≤ count counts u := by
    intro a l' ha hal
    have ha0 : a ≠ 0 := by
      rintro rfl
      rw [numeral_zero, List.cons.injEq] at hal
      exact hd hal.1.symm
    omega
  rw [hdl] at h
  generalize hv : d :: l = v at h
  generalize hn : m + 1 = n at h
  cases h with
  | stop u v => omega
  | past u v a ha hne hpre =>
    subst hv
    obtain ⟨t, ht⟩ := hpre
    exact hfirst ha ht.symm
  | step u v a m ha h =>
    obtain ⟨e, l', hal⟩ := List.exists_cons_of_ne_nil (numeral_ne_nil b a)
    rw [hal, List.cons_append, List.cons.injEq] at hv
    exact hfirst ha (hv.1 ▸ hal)

end Reading

/-! ## Two vectors of one text -/

section Leads

variable {b : Nat} {counts : List Nat} {s a c : Nat} {v : List Nat}

/-- A surplus arises where one numeral begins another. -/
theorem Lead.start (hb : 1 < b) (hc : c < count counts s) (h : numeral b c = numeral b a ++ v)
    (hv : v ≠ []) : Lead b counts (s + 1) v := by
  have hvpos := List.length_pos_iff.mpr hv
  have hapos := length_numeral_pos b a
  have hlen := congrArg List.length h
  rw [List.length_append] at hlen
  have hc0 : c ≠ 0 := ne_zero_of_one_lt_length (b := b) (by omega)
  constructor
  · intro m hm
    have hmv := hm.le_length
    have hle := length_numeral_le hb hc
    have hadd : 0 + Nat.log b (count counts s - 1) ≤ surplus b counts (s + 1) :=
      add_log_le_surplus (Nat.zero_le _) (by rw [Nat.add_zero]; omega)
    omega
  · intro j d hd hd0 _
    have hj : j < v.length := (List.getElem?_eq_some_iff.mp hd).1
    have hpow := pow_lt_of_numeral_eq_append hb h hd hd0
    rw [gap, if_neg (by omega : count counts s ≠ 1), Nat.zero_add, Nat.add_sub_cancel, Nat.sub_zero]
    exact ⟨hj, Or.inr (by omega)⟩

/-- The first digit of a numeral is zero only in the numeral of zero. -/
theorem numeral_eq_of_head_zero {l : List Nat} (h : (numeral b c ++ l)[0]? = some 0) :
    numeral b c = [0] := by
  obtain ⟨d, l', hdl⟩ := List.exists_cons_of_ne_nil (numeral_ne_nil b c)
  rw [hdl, List.cons_append, List.getElem?_cons_zero, Option.some.injEq] at h
  by_cases hc : c = 0
  · rw [hc, numeral_zero]
  · exact absurd h (head_numeral_ne_zero hc hdl)

/-- The vector behind reads a numeral of the surplus, and the one in front adds its own. -/
theorem Lead.next (hb : 1 < b) (hcounts : ∀ i, 0 < count counts i)
    (h : Lead b counts s (numeral b a ++ v)) (ha : a < count counts s) (hc : c < count counts s) :
    Lead b counts (s + 1) (v ++ numeral b c) := by
  have hread : ∀ k, Readable b counts (s + 1) v k → k + 1 ≤ surplus b counts s := fun k hk =>
    h.readable_le (k + 1) (Readable.step s v a k ha hk)
  have hle := length_numeral_le hb hc
  constructor
  · intro m hm
    have hmono : surplus b counts s ≤ surplus b counts (s + 1) := surplus_le_succ s
    rcases hm.split with hin | ⟨k, n, rfl, hk, hn⟩ | ⟨k, hk, hcount, hmk⟩
    · have := hread m hin
      omega
    · -- the numeral in front begins with a number of its own
      have hks := hread k hk
      have hnlen := hn.le_length
      cases n with
      | zero => omega
      | succ n =>
        by_cases hlong : 1 < (numeral b c).length
        · have hcount := hn.two_le_count hlong
          rw [show s + 1 + k = s + (k + 1) by omega] at hcount
          have hadd := add_log_le_surplus hks hcount
          omega
        · omega
    · -- a number of the vector behind reads over the end of the old surplus
      have hks := hread (k + 1) hk
      rw [show s + 1 + k = s + (k + 1) by omega] at hcount
      have hadd := add_log_le_surplus (by omega : k + 1 ≤ surplus b counts s) hcount
      omega
  · intro j d hd hd0 hzeros
    have hj := (List.getElem?_eq_some_iff.mp hd).1
    by_cases hone : count counts s = 1
    · -- both numbers are zero: the surplus is rotated, and the gap grows
      obtain rfl : a = 0 := by omega
      obtain rfl : c = 0 := by omega
      rw [numeral_zero, List.length_append, List.length_singleton] at hj
      have hjv : j < v.length := by
        by_contra hge
        obtain rfl : j = v.length := by omega
        rw [numeral_zero, List.getElem?_append_right (Nat.le_refl _), Nat.sub_self] at hd
        exact hd0 (Option.some.inj hd).symm
      have hold := h.behind_gap (j + 1) d (by
        rw [numeral_zero, List.singleton_append, List.getElem?_cons_succ, ← hd,
          List.getElem?_append_left hjv]) hd0 (by
        intro i hi
        cases i with
        | zero => rfl
        | succ i =>
          rw [numeral_zero, List.singleton_append, List.getElem?_cons_succ,
            ← hzeros i (by omega), List.getElem?_append_left (by omega)])
      rw [gap, if_pos hone, show s + 1 - 1 - (gap counts s + 1) = s - 1 - gap counts s by omega,
        show gap counts s + 1 + j + 1 = gap counts s + (j + 1) + 1 by omega]
      simpa [Nat.add_comm] using hold
    · rw [gap, if_neg hone, Nat.zero_add, Nat.add_sub_cancel, Nat.sub_zero]
      refine ⟨hj, Or.inl ?_⟩
      by_cases hjv : j ≤ v.length
      · refine hread j (readable_zeros hcounts fun i hi => ?_)
        rw [← hzeros i hi, List.getElem?_append_left (by omega)]
      · -- the new numeral would begin with a zero
        have hhead := hzeros v.length (by omega)
        rw [List.getElem?_append_right (Nat.le_refl _), Nat.sub_self] at hhead
        have hnumeral := numeral_eq_of_head_zero (l := []) (by simpa using hhead)
        rw [List.length_append, hnumeral, List.length_singleton] at hj
        omega

/-- Under the condition no number of the vector behind goes over the end of the surplus. -/
theorem Lead.length_le (hb : 1 < b) (hsep : Separable b counts) (h : Lead b counts s v)
    (hs : 0 < s) (hlt : s < counts.length) (hv : v ≠ []) (ha : a < count counts s)
    (hpre : v <+: numeral b a) : (numeral b a).length ≤ v.length := by
  by_contra hlong
  obtain ⟨d, l, rfl⟩ := List.exists_cons_of_ne_nil hv
  obtain ⟨t, ht⟩ := hpre
  rw [List.cons_append] at ht
  rw [List.length_cons] at hlong
  have hd0 := head_numeral_ne_zero (ne_zero_of_one_lt_length (b := b) (by omega)) ht.symm
  obtain ⟨hlen, hcause⟩ := h.behind_gap 0 d rfl hd0 (fun i hi => absurd hi (Nat.not_lt_zero i))
  rw [List.length_cons] at hlen
  have hpow : b ^ (gap counts s + 1) ≤ a :=
    (lt_length_numeral hb (Nat.succ_pos _)).mp (by omega)
  obtain ⟨hsurplus, hcount⟩ := hsep s hlt hs (Nat.lt_of_le_of_lt hpow ha)
  rw [Nat.add_zero] at hcause
  omega

/-- A step of the two vectors, where the surplus stays. -/
theorem Lead.step (hb : 1 < b) (hcounts : ∀ i, 0 < count counts i) (hsep : Separable b counts)
    (h : Lead b counts s v) (hs : 0 < s) (hlt : s < counts.length) (hv : v ≠ [])
    (ha : a < count counts s) (hc : c < count counts s) {t : List Nat}
    (hpa : numeral b a <+: t) (hpc : v ++ numeral b c <+: t) :
    ∃ v', v' ≠ [] ∧ v ++ numeral b c = numeral b a ++ v' ∧ Lead b counts (s + 1) v' := by
  have hpv : v <+: t := (List.prefix_append v _).trans hpc
  have hav : numeral b a <+: v := by
    rcases List.prefix_or_prefix_of_prefix hpa hpv with hav | hva
    · exact hav
    · have hlen := h.length_le hb hsep hs hlt hv ha hva
      rw [hva.eq_of_length_le hlen]
  obtain ⟨rest, rfl⟩ := hav
  exact ⟨rest ++ numeral b c, by simp [numeral_ne_nil], List.append_assoc _ _ _,
    h.next hb hcounts ha hc⟩

/-- After some numbers the text of `q` is in front of the text of `p`. -/
def Ahead (b : Nat) (counts : List Nat) (s : Nat) (p q : List Nat) : Prop :=
  ∃ v, v ≠ [] ∧ text b q = text b p ++ v ∧ Lead b counts s v

theorem Ahead.pos {p q : List Nat} (h : Ahead b counts s (p.take s) (q.take s)) : 0 < s := by
  obtain ⟨v, hv, htext, _⟩ := h
  refine Nat.pos_of_ne_zero ?_
  rintro rfl
  exact hv (by simpa using htext.symm)

theorem Ahead.concat (hb : 1 < b) (hcounts : ∀ i, 0 < count counts i) (hsep : Separable b counts)
    {p q : List Nat} (h : Ahead b counts s p q) (hs : 0 < s) (hlt : s < counts.length)
    (ha : a < count counts s) (hc : c < count counts s) {t : List Nat}
    (hp : text b (p ++ [a]) <+: t) (hq : text b (q ++ [c]) <+: t) :
    Ahead b counts (s + 1) (p ++ [a]) (q ++ [c]) := by
  obtain ⟨v, hv, htext, hlead⟩ := h
  rw [text_concat] at hp hq
  rw [htext, List.append_assoc] at hq
  obtain ⟨t, rfl⟩ := (List.prefix_append _ _).trans hp
  obtain ⟨v', hv', hstep, hlead'⟩ := hlead.step hb hcounts hsep hs hlt hv ha hc
    ((List.prefix_append_right_inj _).mp hp) ((List.prefix_append_right_inj _).mp hq)
  exact ⟨v', hv', by rw [text_concat, text_concat, htext, List.append_assoc, hstep,
    List.append_assoc], hlead'⟩

/-- The first numbers that differ put one text in front of the other. -/
theorem ahead_of_ne (hb : 1 < b) {p : List Nat} (ha : a < count counts s) (hc : c < count counts s)
    (hne : a ≠ c) {t : List Nat} (hp : text b (p ++ [a]) <+: t) (hq : text b (p ++ [c]) <+: t) :
    Ahead b counts (s + 1) (p ++ [a]) (p ++ [c]) ∨
      Ahead b counts (s + 1) (p ++ [c]) (p ++ [a]) := by
  rw [text_concat] at hp hq
  obtain ⟨t, rfl⟩ := (List.prefix_append _ _).trans hp
  have hpa := (List.prefix_append_right_inj _).mp hp
  have hpc := (List.prefix_append_right_inj _).mp hq
  have hnonempty : ∀ {x y : Nat} {v : List Nat}, x ≠ y → numeral b x = numeral b y ++ v →
      v ≠ [] := by
    rintro x y v hxy h rfl
    exact hxy (numeral_injective (h.trans (List.append_nil _)))
  rcases List.prefix_or_prefix_of_prefix hpa hpc with ⟨v, hv⟩ | ⟨v, hv⟩
  · have hv0 := hnonempty hne.symm hv.symm
    exact Or.inl ⟨v, hv0, by rw [text_concat, text_concat, List.append_assoc, hv],
      Lead.start hb hc hv.symm hv0⟩
  · have hv0 := hnonempty hne hv.symm
    exact Or.inr ⟨v, hv0, by rw [text_concat, text_concat, List.append_assoc, hv],
      Lead.start hb ha hv.symm hv0⟩

theorem count_pos {p : List Nat} (h : IsNumeral counts p) (i : Nat) :
    0 < count counts i := by
  by_cases hi : i < counts.length
  · obtain ⟨c, hc, hlt⟩ := h.exists_radix (List.getElem?_eq_getElem (h.length_eq ▸ hi))
    rw [count, List.getD_eq_getElem?_getD, hc, Option.getD_some]
    omega
  · rw [count, List.getD_eq_getElem?_getD, List.getElem?_eq_none (Nat.not_lt.mp hi)]
    exact Nat.one_pos

theorem lt_count {p : List Nat} (h : IsNumeral counts p) (hlt : s < p.length) :
    p[s] < count counts s := by
  obtain ⟨c, hc, hlt⟩ := h.exists_radix (List.getElem?_eq_getElem hlt)
  rwa [count, List.getD_eq_getElem?_getD, hc, Option.getD_some]

/-- **Under the condition a text is the text of one vector.** -/
theorem text_injOn (hb : 1 < b) (hsep : Separable b counts) {p q : List Nat}
    (hp : IsNumeral counts p) (hq : IsNumeral counts q) (h : text b p = text b q) : p = q := by
  have hprefix : ∀ (r : List Nat) (k : Nat), text b (r.take k) <+: text b r := by
    intro r k
    conv_rhs => rw [← List.take_append_drop k r]
    rw [text_append]
    exact List.prefix_append _ _
  -- after each number the vectors agree, or one text is in front
  have hrun : ∀ k ≤ counts.length, p.take k = q.take k ∨
      Ahead b counts k (p.take k) (q.take k) ∨ Ahead b counts k (q.take k) (p.take k) := by
    intro k hk
    induction k with
    | zero => exact Or.inl (by simp)
    | succ k ih =>
      have hkp : k < p.length := hp.length_eq ▸ hk
      have hkq : k < q.length := hq.length_eq ▸ hk
      have hpk := hprefix p (k + 1)
      have hqk := hprefix q (k + 1)
      rw [h] at hpk
      rw [← List.take_concat_get' p k hkp] at hpk ⊢
      rw [← List.take_concat_get' q k hkq] at hqk ⊢
      have ha := lt_count hp hkp
      have hc := lt_count hq hkq
      rcases ih (by omega) with heq | hahead | hahead
      · by_cases hne : p[k] = q[k]
        · exact Or.inl (by rw [heq, hne])
        · rw [heq] at hpk ⊢
          exact Or.inr (ahead_of_ne hb ha hc hne hpk hqk)
      · exact Or.inr (Or.inl
          (hahead.concat hb (count_pos hp) hsep hahead.pos hk ha hc hpk hqk))
      · exact Or.inr (Or.inr
          (hahead.concat hb (count_pos hp) hsep hahead.pos hk hc ha hqk hpk))
  have hend := hrun counts.length (Nat.le_refl _)
  rw [List.take_of_length_le (Nat.le_of_eq hp.length_eq),
    List.take_of_length_le (Nat.le_of_eq hq.length_eq)] at hend
  rcases hend with heq | ⟨v, hv, htext, _⟩ | ⟨v, hv, htext, _⟩
  · exact heq
  · exact absurd (List.append_right_eq_self.mp (htext.symm.trans h.symm)) hv
  · exact absurd (List.append_right_eq_self.mp (htext.symm.trans h)) hv

end Leads

/-! ## A surplus of every length, and its end -/

section Reached

variable {b : Nat} {counts : List Nat} {s : Nat} {v : List Nat}

/-- Two vectors of the first numbers, of which the second is in front by these digits. -/
def Reached (b : Nat) (counts : List Nat) (s : Nat) (v : List Nat) : Prop :=
  ∃ p q, IsNumeral (counts.take s) p ∧ IsNumeral (counts.take s) q ∧ text b q = text b p ++ v

theorem Reached.concat {a c : Nat} {v' : List Nat} (h : Reached b counts s v)
    (hs : s < counts.length) (ha : a < count counts s) (hc : c < count counts s)
    (hstep : v ++ numeral b c = numeral b a ++ v') : Reached b counts (s + 1) v' := by
  obtain ⟨p, q, hp, hq, htext⟩ := h
  exact ⟨p ++ [a], q ++ [c], isNumeral_concat hs hp ha, isNumeral_concat hs hq hc, by
    rw [text_concat, text_concat, htext, List.append_assoc, hstep, List.append_assoc]⟩

/-- A surplus of zeros and ones, where each one is at a place that may begin with it. -/
def Marked (counts : List Nat) (s : Nat) (v : List Nat) : Prop :=
  ∀ j d, v[j]? = some d → d = 0 ∨ d = 1 ∧ 2 ≤ count counts (s + j)

theorem Marked.tail {d : Nat} (h : Marked counts s (d :: v)) : Marked counts (s + 1) v := by
  intro j e he
  have hj := h (j + 1) e (by rwa [List.getElem?_cons_succ])
  rwa [show s + 1 + j = s + (j + 1) by omega]

theorem Marked.append {w : List Nat} (hv : Marked counts s v)
    (hw : Marked counts (s + v.length) w) : Marked counts s (v ++ w) := by
  intro j d hd
  by_cases hj : j < v.length
  · rw [List.getElem?_append_left hj] at hd
    exact hv j d hd
  · rw [List.getElem?_append_right (Nat.not_lt.mp hj)] at hd
    have hjw := hw (j - v.length) d hd
    rwa [show s + v.length + (j - v.length) = s + j by omega] at hjw

theorem marked_zeros (s e : Nat) : Marked counts s (List.replicate e 0) := by
  intro j d hd
  exact Or.inl (List.eq_of_mem_replicate (List.mem_of_getElem? hd))

/-- The first digit of a marked surplus can be read as a number. -/
theorem Marked.head (hb : 1 < b) (hcounts : ∀ i, 0 < count counts i) {d : Nat}
    (h : Marked counts s (d :: v)) : numeral b d = [d] ∧ d < count counts s := by
  rcases h 0 d rfl with rfl | ⟨rfl, hcount⟩
  · exact ⟨numeral_zero b, hcounts s⟩
  · exact ⟨numeral_one hb, hcount⟩

/-- **Every surplus up to the longest is reached**, by zeros and ones. -/
theorem exists_reached (hb : 1 < b) (hcounts : ∀ i, 0 < count counts i) (hs : s ≤ counts.length)
    {l : Nat} (hl : l ≤ surplus b counts s) :
    ∃ v, Reached b counts s v ∧ v.length = l ∧ Marked counts s v := by
  induction s generalizing l with
  | zero =>
    obtain rfl : l = 0 := by
      rw [surplus] at hl
      omega
    exact ⟨[], ⟨[], [], by simp, by simp, rfl⟩, rfl, fun j d hd => by simp at hd⟩
  | succ u ih =>
    have hu : u < counts.length := hs
    by_cases hkeep : l ≤ surplus b counts u
    · -- the surplus is kept: a zero behind it
      obtain ⟨v, hreached, hlen, hmarked⟩ := ih (by omega) hkeep
      cases v with
      | nil =>
        exact ⟨[], hreached.concat hu (hcounts u) (hcounts u) rfl, hlen, fun j d hd => by
          simp at hd⟩
      | cons d v =>
        obtain ⟨hd, hlt⟩ := hmarked.head hb hcounts
        refine ⟨v ++ [0], hreached.concat hu hlt (hcounts u) ?_, ?_,
          hmarked.tail.append (marked_zeros _ 1)⟩
        · rw [hd, numeral_zero, List.cons_append, List.singleton_append]
        · simpa using hlen
    · -- the numeral in front is a power of the base
      rw [surplus] at hl
      generalize hfound : Nat.findGreatest (fun l => 2 ≤ count counts (u + l))
        (surplus b counts u) = start at hl
      have hstart : start ≤ surplus b counts u := hfound ▸ Nat.findGreatest_le _
      have he : l - start ≤ Nat.log b (count counts u - 1) := by omega
      have hcount : count counts u - 1 ≠ 0 := by
        intro hzero
        rw [hzero, Nat.log_zero_right] at he
        omega
      have hpow := Nat.pow_le_of_le_log hcount he
      have hone : Marked counts (u + start) [1] := by
        intro j d hd
        obtain ⟨hj, rfl⟩ := List.getElem?_eq_some_iff.mp hd
        obtain rfl : j = 0 := by simpa using hj
        refine Or.inr ⟨rfl, ?_⟩
        by_cases hzero : start = 0
        · subst hzero
          simp only [Nat.add_zero]
          omega
        · exact Nat.findGreatest_of_ne_zero (P := fun l => 2 ≤ count counts (u + l)) hfound hzero
      obtain ⟨v, hreached, hlen, hmarked⟩ := ih (by omega) hstart
      cases v with
      | nil =>
        refine ⟨List.replicate (l - start) 0, hreached.concat (a := 1) (c := b ^ (l - start)) hu
          (by omega) (by omega) ?_, ?_, marked_zeros _ _⟩
        · rw [numeral_pow hb, numeral_one hb, List.nil_append, List.singleton_append]
        · rw [List.length_nil] at hlen
          rw [List.length_replicate]
          omega
      | cons d v =>
        obtain ⟨hd, hlt⟩ := hmarked.head hb hcounts
        refine ⟨v ++ ([1] ++ List.replicate (l - start) 0),
          hreached.concat (c := b ^ (l - start)) hu hlt (by omega) ?_, ?_,
          hmarked.tail.append (Marked.append ?_ (marked_zeros _ _))⟩
        · rw [hd, numeral_pow hb, List.cons_append, List.singleton_append, List.singleton_append]
        · rw [List.length_cons] at hlen
          rw [List.length_append, List.length_append, List.length_replicate, List.length_singleton]
          omega
        · rw [List.length_cons] at hlen
          rwa [show u + 1 + v.length = u + start by omega]

/-- Numbers that can only be zero rotate a surplus that begins with zeros. -/
theorem Reached.rotate (hcounts : ∀ i, 0 < count counts i) {i : Nat}
    (h : Reached b counts s (List.replicate i 0 ++ v)) (hs : s + i ≤ counts.length) :
    Reached b counts (s + i) (v ++ List.replicate i 0) := by
  induction i generalizing s v with
  | zero => simpa using h
  | succ i ih =>
    have hnext : Reached b counts (s + 1) (List.replicate i 0 ++ (v ++ [0])) := by
      refine h.concat (a := 0) (c := 0) (by omega) (hcounts s) (hcounts s) ?_
      simp [List.replicate_succ]
    have hrest := ih hnext (by omega)
    rw [List.append_assoc, List.singleton_append, ← List.replicate_succ] at hrest
    rwa [show s + (i + 1) = s + 1 + i by omega]

/-- Where the condition fails, a surplus of zeros and a one is reached before the gap. -/
theorem reached_before_gap (hb : 1 < b) (hcounts : ∀ i, 0 < count counts i) {k : Nat}
    (hk : k < counts.length) (hgap : gap counts k < k)
    (h : gap counts k < surplus b counts (k - 1 - gap counts k) ∨
      b ^ (gap counts k + 1) + 1 < count counts (k - 1 - gap counts k)) :
    Reached b counts (k - 1 - gap counts k + 1) (List.replicate (gap counts k) 0 ++ [1]) := by
  have hplace : k - 1 - gap counts k + 1 + gap counts k = k := by omega
  have hzero : ∀ j < gap counts k, count counts (k - 1 - gap counts k + (j + 1)) = 1 := by
    intro j hj
    have hcount : count counts (k - 1 - (gap counts k - 1 - j)) = 1 :=
      count_of_lt_gap (by omega)
    rwa [show k - 1 - (gap counts k - 1 - j) = k - 1 - gap counts k + (j + 1) by omega] at hcount
  have hbefore := count_before_gap hgap
  generalize k - 1 - gap counts k = t at *
  generalize gap counts k = g at *
  have hlt : t < counts.length := by omega
  have htwo : 2 ≤ count counts t := by
    have := hcounts t
    omega
  rcases h with hsurplus | hlarge
  · -- a surplus with one digit more than the gap, and a one behind it
    obtain ⟨v, hreached, hlen, hmarked⟩ := exists_reached hb hcounts (Nat.le_of_lt hlt) hsurplus
    obtain ⟨d, rest, rfl⟩ := List.exists_cons_of_ne_nil (l := v) (by
      rintro rfl
      simp at hlen)
    have hrest : rest = List.replicate g 0 := by
      refine List.eq_replicate_iff.mpr ⟨by simpa using hlen, fun x hx => ?_⟩
      obtain ⟨j, hj, rfl⟩ := List.getElem_of_mem hx
      have hjg : j < g := by
        rw [List.length_cons] at hlen
        omega
      rcases hmarked (j + 1) _ (by rw [List.getElem?_cons_succ, List.getElem?_eq_getElem hj]) with
        hx0 | ⟨_, hcount⟩
      · exact hx0
      · have := hzero j hjg
        omega
    obtain ⟨hd, hdlt⟩ := hmarked.head hb hcounts
    refine hreached.concat (a := d) (c := 1) hlt hdlt htwo ?_
    rw [hd, numeral_one hb, hrest, List.cons_append, List.singleton_append]
  · -- the numeral of a one, the zeros and a one begins the surplus
    obtain ⟨v, hreached, hlen, _⟩ := exists_reached (l := 0) hb hcounts (Nat.le_of_lt hlt)
      (Nat.zero_le _)
    obtain rfl := List.eq_nil_of_length_eq_zero hlen
    refine hreached.concat (a := 1) (c := b ^ (g + 1) + 1) hlt htwo hlarge ?_
    rw [numeral_pow_add_one hb, numeral_one hb, List.nil_append, List.singleton_append]

/-- **Without the condition two vectors have one text.** -/
theorem exists_text_eq (hb : 1 < b) (hpos : ∀ c ∈ counts, 0 < c) (h : ¬ Separable b counts) :
    ∃ p q, IsNumeral counts p ∧ IsNumeral counts q ∧ p ≠ q ∧ text b p = text b q := by
  have hcounts := count_pos (isNumeral_zeros hpos)
  simp only [Separable, not_forall] at h
  obtain ⟨k, hk, hk0, hpow, hfail⟩ := h
  have hcause : gap counts k < surplus b counts (k - 1 - gap counts k) ∨
      b ^ (gap counts k + 1) + 1 < count counts (k - 1 - gap counts k) := by omega
  have hgap : gap counts k < k := by
    by_contra hall
    have hkgap : gap counts k = k := Nat.le_antisymm (gap_le k) (Nat.not_lt.mp hall)
    have hfirst : count counts (k - 1 - (k - 1)) = 1 := count_of_lt_gap (by omega)
    rw [Nat.sub_self] at hfirst
    rw [hkgap, show k - 1 - k = 0 by omega, hfirst, surplus] at hcause
    omega
  have hbefore := reached_before_gap hb hcounts hk hgap hcause
  have hplace : k - 1 - gap counts k + 1 + gap counts k = k := by omega
  have hrotated := hbefore.rotate hcounts (by omega)
  rw [hplace] at hrotated
  -- the number at the place reads the whole surplus and the zero behind it
  obtain ⟨p, q, hp, hq, htext⟩ := hrotated
  have hlong := isNumeral_concat hk hp hpow
  have hshort := isNumeral_concat hk hq (hcounts k)
  have hzeros : IsNumeral (counts.drop (k + 1)) (zeros (counts.drop (k + 1))) :=
    isNumeral_zeros fun c hc => hpos c (List.mem_of_mem_drop hc)
  have hwhole : ∀ {r : List Nat}, IsNumeral (counts.take (k + 1)) r →
      IsNumeral counts (r ++ zeros (counts.drop (k + 1))) := by
    intro r hr
    have happend : IsNumeral (counts.take (k + 1) ++ counts.drop (k + 1)) _ :=
      List.rel_append hr hzeros
    rwa [List.take_append_drop] at happend
  refine ⟨_, _, hwhole hlong, hwhole hshort, ?_, ?_⟩
  · intro heq
    obtain ⟨heq, _⟩ := List.append_inj' heq rfl
    obtain ⟨rfl, _⟩ := List.append_inj' heq rfl
    simp at htext
  · have hequal : text b (p ++ [b ^ (gap counts k + 1)]) = text b (q ++ [0]) := by
      rw [text_concat, text_concat, htext, numeral_pow hb, numeral_zero]
      simp [List.replicate_succ']
    rw [text_append b (p ++ _), text_append b (q ++ _), hequal]

-- with at most eleven values for each number a text is read in one way, unless three follow
example : Separable 10 [11, 11] := by decide
example : Separable 10 [11, 1, 11] := by decide
example : ¬ Separable 10 [11, 2, 11] := by decide
example : ¬ Separable 10 [12, 11] := by decide

end Reached

end NumeralText
