import Mathlib.Data.BitVec
import Mathlib.Tactic.LinearCombination
import Mathlib.Tactic.Ring
import N64Recomp.Data.Widths

/-!
# Long products by hand

The product of two words of 64 bits in two words: from the products of the 32-bit limbs, and the
signed product from the unsigned one.

## Main results

* `high_low_limbs`: the schoolbook product
* `mul_signExtend`: the signed product, in the upper word less the operands of the other's sign
-/

namespace LongProduct

/-- The schoolbook product of two words with the limbs `al`, `ah` and `bl`, `bh`. -/
theorem toNat_mul_limbs {al ah bl bh cross : Nat}
    (hcross : cross = al * bl / 2 ^ 32 + al * bh % 2 ^ 32 + ah * bl % 2 ^ 32) :
    (ah * 2 ^ 32 + al) * (bh * 2 ^ 32 + bl) =
      (ah * bh + al * bh / 2 ^ 32 + ah * bl / 2 ^ 32 + cross / 2 ^ 32) * 2 ^ 64 +
        (cross % 2 ^ 32 * 2 ^ 32 + al * bl % 2 ^ 32) := by
  have hexpand : (ah * 2 ^ 32 + al) * (bh * 2 ^ 32 + bl) =
      ah * bh * 2 ^ 64 + (al * bh + ah * bl) * 2 ^ 32 + al * bl := by ring
  rw [hexpand]
  omega

/-- The upper word of a product. -/
def high (x : BitVec 128) : BitVec 64 := (x >>> 64).setWidth 64

/-- The lower word of a product. -/
def low (x : BitVec 128) : BitVec 64 := x.setWidth 64

theorem toNat_eq (x : BitVec 128) : x.toNat = (high x).toNat * 2 ^ 64 + (low x).toNat := by
  have hlt := x.isLt
  rw [high, low, BitVec.toNat_setWidth, BitVec.toNat_setWidth, BitVec.toNat_ushiftRight,
    Nat.shiftRight_eq_div_pow]
  omega

/-- A product from its words. -/
theorem high_low_of_toNat {x : BitVec 128} {h l : BitVec 64}
    (hx : x.toNat = h.toNat * 2 ^ 64 + l.toNat) : high x = h ∧ low x = l := by
  have hsplit := toNat_eq x
  have hh := h.isLt
  have hl := l.isLt
  have hl' := (low x).isLt
  constructor <;> apply BitVec.eq_of_toNat_eq <;> omega

/-- The low word of a product by limbs, from the product of the low limbs and the carries. -/
theorem toNat_low_or (ll cross : BitVec 64) :
    ((ll &&& 0xFFFFFFFF#64) ||| (cross <<< 32)).toNat =
      cross.toNat % 2 ^ 32 * 2 ^ 32 + ll.toNat % 2 ^ 32 := by
  have hmask : (0xFFFFFFFF#64).toNat = 2 ^ 32 - 1 := rfl
  have hlow : ll.toNat % 2 ^ 32 < 2 ^ 32 := Nat.mod_lt _ (by decide)
  have hshift : cross.toNat <<< 32 % 2 ^ 64 = 2 ^ 32 * (cross.toNat % 2 ^ 32) := by
    rw [Nat.shiftLeft_eq]
    omega
  rw [BitVec.toNat_or, BitVec.toNat_and, BitVec.toNat_shiftLeft, hmask,
    Nat.and_two_pow_sub_one_eq_mod, hshift, Nat.or_comm, ← Nat.two_pow_add_eq_or_of_lt hlow]
  omega

/-- A product of two limbs is not reduced. -/
theorem toNat_mul_of_lt {x y : BitVec 64} (hx : x.toNat < 2 ^ 32) (hy : y.toNat < 2 ^ 32) :
    (x * y).toNat = x.toNat * y.toNat ∧ x.toNat * y.toNat ≤ (2 ^ 32 - 1) * (2 ^ 32 - 1) := by
  have hle : x.toNat * y.toNat ≤ (2 ^ 32 - 1) * (2 ^ 32 - 1) :=
    Nat.mul_le_mul (by omega) (by omega)
  exact ⟨by rw [BitVec.toNat_mul, Nat.mod_eq_of_lt (by omega)], hle⟩

/-- **The product from its limbs**: the words of the product of `ah * 2^32 + al` and
`bh * 2^32 + bl`. -/
theorem high_low_limbs {full : BitVec 128} {al ah bl bh cross : BitVec 64}
    (hal : al.toNat < 2 ^ 32) (hah : ah.toNat < 2 ^ 32) (hbl : bl.toNat < 2 ^ 32)
    (hbh : bh.toNat < 2 ^ 32)
    (hfull : full.toNat =
      (ah.toNat * 2 ^ 32 + al.toNat) * (bh.toNat * 2 ^ 32 + bl.toNat))
    (hcross : cross.toNat = (al * bl).toNat / 2 ^ 32 + (al * bh).toNat % 2 ^ 32 +
      (ah * bl).toNat % 2 ^ 32) :
    high full = ah * bh + (al * bh) >>> 32 + (ah * bl) >>> 32 + cross >>> 32 ∧
      low full = ((al * bl) &&& 0xFFFFFFFF#64) ||| (cross <<< 32) := by
  have hlt := full.isLt
  obtain ⟨hll, -⟩ := toNat_mul_of_lt hal hbl
  obtain ⟨hlh, -⟩ := toNat_mul_of_lt hal hbh
  obtain ⟨hhl, -⟩ := toNat_mul_of_lt hah hbl
  obtain ⟨hhh, -⟩ := toNat_mul_of_lt hah hbh
  rw [hll, hlh, hhl] at hcross
  rw [toNat_mul_limbs hcross, ← hll, ← hlh, ← hhl, ← hhh] at hfull
  generalize al * bl = ll at *
  generalize al * bh = lh at *
  generalize ah * bl = hl at *
  generalize ah * bh = hh at *
  clear hll hlh hhl hhh hcross
  have hsum : hh.toNat + lh.toNat / 2 ^ 32 + hl.toNat / 2 ^ 32 + cross.toNat / 2 ^ 32 < 2 ^ 64 := by
    omega
  have hhigh : (hh + lh >>> 32 + hl >>> 32 + cross >>> 32).toNat =
      hh.toNat + lh.toNat / 2 ^ 32 + hl.toNat / 2 ^ 32 + cross.toNat / 2 ^ 32 := by
    simp only [BitVec.toNat_add, BitVec.toNat_ushiftRight, Nat.shiftRight_eq_div_pow]
    rw [Nat.mod_eq_of_lt (b := 2 ^ 64), Nat.mod_eq_of_lt (b := 2 ^ 64)] <;> omega
  refine high_low_of_toNat ?_
  rw [toNat_low_or, hhigh, hfull]

/-- Subtracting a word from the upper one. -/
theorem high_low_sub (x : BitVec 128) (c : BitVec 64) :
    high (x - c.setWidth 128 <<< 64) = high x - c ∧ low (x - c.setWidth 128 <<< 64) = low x := by
  have hx := toNat_eq x
  have hh := (high x).isLt
  have hl := (low x).isLt
  have hc := c.isLt
  refine high_low_of_toNat ?_
  rw [BitVec.toNat_sub, BitVec.toNat_sub, BitVec.toNat_shiftLeft, BitVec.toNat_setWidth,
    Nat.shiftLeft_eq]
  omega

/-- A sign-extended word is the word, less two to the power of its width when it is negative. -/
theorem signExtend_eq (x : BitVec 64) :
    x.signExtend 128 =
      x.setWidth 128 - (if x.slt 0 then 0x10000000000000000#128 else 0) := by
  have hx := x.isLt
  have hneg : x.slt 0 = decide (2 ^ 63 ≤ x.toNat) := by
    rw [BitVec.slt_eq_decide, BitVec.toInt_eq_toNat_cond]
    have hzero : (0 : BitVec 64).toInt = 0 := rfl
    rw [hzero]
    apply decide_eq_decide.mpr
    split <;> omega
  apply BitVec.eq_of_toNat_eq
  rw [hneg, BitVec.toNat_signExtend, BitVec.toNat_sub, BitVec.msb_eq_decide, BitVec.toNat_setWidth]
  by_cases h : 2 ^ 63 ≤ x.toNat
  · have hconst : (0x10000000000000000#128).toNat = 2 ^ 64 := rfl
    rw [decide_eq_true h, if_pos rfl, if_pos rfl, hconst]
    omega
  · have hconst : (0 : BitVec 128).toNat = 0 := rfl
    rw [decide_eq_false h, if_neg Bool.false_ne_true,
      if_neg Bool.false_ne_true, hconst]
    omega

theorem shiftLeft_eq_mul (x : BitVec 128) : x <<< 64 = x * 0x10000000000000000#128 := by
  rw [BitVec.shiftLeft_eq_mul_twoPow]
  rfl

/-- **The signed product** is the unsigned one, with each operand subtracted from the upper word
when the other is negative. -/
theorem mul_signExtend (x y : BitVec 64) :
    x.signExtend 128 * y.signExtend 128 =
      x.setWidth 128 * y.setWidth 128 - (if x.slt 0 then y else 0).setWidth 128 <<< 64 -
        (if y.slt 0 then x else 0).setWidth 128 <<< 64 := by
  have hsquare : (0x10000000000000000#128) * 0x10000000000000000#128 = 0 := by decide
  have hzero : (0 : BitVec 64).setWidth 128 = 0 := by decide
  rw [signExtend_eq, signExtend_eq, shiftLeft_eq_mul, shiftLeft_eq_mul]
  by_cases hx : x.slt 0 <;> by_cases hy : y.slt 0 <;>
    simp only [hx, hy, if_true, if_false, hzero, Bool.false_eq_true]
  · linear_combination hsquare
  · ring
  · ring
  · ring

end LongProduct
