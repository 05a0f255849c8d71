import N64Recomp.Data.Widths

/-!
# Addresses in two halves

The halves of a 32-bit address that two instructions with 16-bit immediates put together. The low
half is sign-extended by the second instruction, so that the high half is one more when the low half
is negative.

## Main definitions

* `immediateOf`, `signedImmediateOf`: the immediate of an instruction word
* `highHalf`, `lowHalf`: the halves of an address

## Main results

* `highHalf_add_low`: the halves make up the address
* `pair_eq_iff`: two instructions compute an address exactly when their immediates are its halves
-/

namespace N64Recomp

/-- The immediate of an instruction word, and its sign extension. -/
def immediateOf (word : BitVec 32) : BitVec 32 := word &&& 0xFFFF
def signedImmediateOf (word : BitVec 32) : BitVec 32 := (word.setWidth 16).signExtend 32

/-- The high and the low half of an address, for a low half that is sign-extended. -/
def highHalf (x : BitVec 32) : BitVec 32 := (x >>> 16) + ((x >>> 15) &&& 1)
def lowHalf (x : BitVec 32) : BitVec 32 := x &&& 0xFFFF

theorem toNat_signedImmediateOf (x : BitVec 32) : (signedImmediateOf x).toNat =
    x.toNat % 2 ^ 16 + if 2 ^ 15 ≤ x.toNat % 2 ^ 16 then 2 ^ 32 - 2 ^ 16 else 0 := by
  have hmsb : (x.setWidth 16).msb = decide (2 ^ 15 ≤ x.toNat % 2 ^ 16) := by
    rw [BitVec.msb_eq_decide, BitVec.toNat_setWidth]
  have hlt : x.toNat % 2 ^ 16 < 2 ^ 32 := by omega
  unfold signedImmediateOf
  rw [BitVec.toNat_signExtend, hmsb, BitVec.toNat_setWidth, BitVec.toNat_setWidth,
    Nat.mod_eq_of_lt hlt]
  simp only [decide_eq_true_eq]

theorem toNat_highHalf (x : BitVec 32) :
    (highHalf x).toNat = x.toNat / 2 ^ 16 + x.toNat / 2 ^ 15 % 2 := by
  have hx := x.isLt
  unfold highHalf
  rw [BitVec.toNat_add, BitVec.toNat_and, BitVec.toNat_ushiftRight, BitVec.toNat_ushiftRight,
    Nat.shiftRight_eq_div_pow, Nat.shiftRight_eq_div_pow]
  have hand : x.toNat / 2 ^ 15 &&& (1 : BitVec 32).toNat = x.toNat / 2 ^ 15 % 2 :=
    Nat.and_one_is_mod _
  rw [hand]
  omega

/-- The high half, shifted, and the sign-extended low half make up the address. -/
theorem highHalf_add_low (x : BitVec 32) : (highHalf x <<< 16) + signedImmediateOf x = x := by
  have hx := x.isLt
  apply BitVec.eq_of_toNat_eq
  rw [BitVec.toNat_add, BitVec.toNat_shiftLeft, toNat_signedImmediateOf, toNat_highHalf,
    Nat.shiftLeft_eq]
  split <;> omega

theorem toNat_lowHalf (x : BitVec 32) : (lowHalf x).toNat = x.toNat % 2 ^ 16 := by
  have hmask : (0xFFFF : BitVec 32).toNat = 2 ^ 16 - 1 := by decide
  rw [lowHalf, BitVec.toNat_and, hmask, Nat.and_two_pow_sub_one_eq_mod]

/-- The low half of a sum does not depend on a high half. -/
theorem lowHalf_shift_add (h x : BitVec 32) : lowHalf ((h <<< 16) + x) = lowHalf x := by
  apply BitVec.eq_of_toNat_eq
  rw [toNat_lowHalf, toNat_lowHalf, BitVec.toNat_add, BitVec.toNat_shiftLeft, Nat.shiftLeft_eq]
  omega

theorem signedImmediateOf_eq_iff {x y : BitVec 32} :
    signedImmediateOf x = signedImmediateOf y ↔ lowHalf x = lowHalf y := by
  rw [← BitVec.toNat_inj, ← BitVec.toNat_inj, toNat_signedImmediateOf, toNat_signedImmediateOf,
    toNat_lowHalf, toNat_lowHalf]
  constructor
  · intro h
    split at h <;> split at h <;> omega
  · intro h
    rw [h]

/-- Two instructions compute an address exactly when their immediates are its halves. -/
theorem pair_eq_iff (hi lo x : BitVec 32) :
    (hi <<< 16) + signedImmediateOf lo = x ↔
      hi <<< 16 = highHalf x <<< 16 ∧ lowHalf lo = lowHalf x := by
  constructor
  · intro h
    have hlow : lowHalf lo = lowHalf x := by
      have hx := congrArg lowHalf h
      rw [lowHalf_shift_add] at hx
      rw [← hx]
      apply BitVec.eq_of_toNat_eq
      rw [toNat_lowHalf, toNat_lowHalf, toNat_signedImmediateOf]
      split <;> omega
    refine ⟨?_, hlow⟩
    rw [signedImmediateOf_eq_iff.mpr hlow] at h
    have hx := highHalf_add_low x
    exact (BitVec.add_left_inj _).mp (h.trans hx.symm)
  · rintro ⟨hhigh, hlow⟩
    rw [hhigh, signedImmediateOf_eq_iff.mpr hlow, highHalf_add_low]

end N64Recomp
