import N64Recomp.CGenerator.Operands
import N64Recomp.Runtime.Unaligned

/-!
# The values of the printed operands

A printed register is a `gpr`, except that `$zero` prints as an `int` literal, and a printed
immediate is a small `int`. The operators of the emitted code see through that difference: on
the images of such operands they act as the operators on 64-bit values do.

## Main definitions

* `IsOperand`: a value that a printed register or immediate may have

## Main results

* `IsOperand.add`, `IsOperand.sub`, `IsOperand.bitwise`: the arithmetic of operands
* `isOperand_gprToString`, `isOperand_signedLiteral`: what the printed operands hold
-/

namespace N64Recomp

open CLang CLang.CType Mips

/-- A value with the image `x`: a `gpr`, or an `int` far from the bounds of its type. -/
structure IsOperand (v : CVal) (x : BitVec 64) : Prop where
  bits : v.bits = x
  type : v.ty = uint64 ∨ v.ty = int32 ∧ -(2 ^ 16) ≤ x.toInt ∧ x.toInt < 2 ^ 17

theorem wrap_int32_ofInt {n : Int} (hl : -(2 ^ 31) ≤ n) (hu : n < 2 ^ 31) :
    int32.wrap (BitVec.ofInt 64 n) = BitVec.ofInt 64 n := by
  have hword : word (BitVec.ofInt 64 n) = BitVec.ofInt 32 n := by
    apply BitVec.eq_of_toNat_eq
    rw [BitVec.toNat_setWidth, BitVec.toNat_ofInt, BitVec.toNat_ofInt]
    omega
  rw [wrap_int32_eq, hword, ofWord, BitVec.signExtend,
    BitVec.toInt_ofInt_eq_self (by decide) (by omega) (by omega)]

theorem wrap_int32_of_small {x : BitVec 64} (hl : -(2 ^ 31) ≤ x.toInt) (hu : x.toInt < 2 ^ 31) :
    int32.wrap x = x := by
  have h := wrap_int32_ofInt hl hu
  rwa [BitVec.ofInt_toInt] at h

theorem inRange_int32 {n : Int} (hl : -(2 ^ 31) ≤ n) (hu : n < 2 ^ 31) : int32.inRange n := by
  have h : -2 ^ (32 - 1) ≤ n ∧ n < 2 ^ (32 - 1) := by omega
  simp only [CType.inRange, signed_int32, if_true, width]
  exact decide_eq_true h

namespace IsOperand

variable {a b : CVal} {x y : BitVec 64}

theorem field (x : BitVec 64) : IsOperand (gpr x) x := ⟨rfl, .inl rfl⟩

theorem int_of_small {x : BitVec 64} (hl : -(2 ^ 16) ≤ x.toInt) (hu : x.toInt < 2 ^ 17) :
    IsOperand (CVal.ofBits int32 x) x :=
  ⟨wrap_int32_of_small (by omega) (by omega), .inr ⟨rfl, hl, hu⟩⟩

/-- A small literal. -/
theorem intLit {n : Nat} (hn : n < 2 ^ 16) : IsOperand (intLit n) (BitVec.ofNat 64 n) := by
  have hnat : (BitVec.ofNat 64 n).toNat = n := by
    rw [BitVec.toNat_ofNat, Nat.mod_eq_of_lt (by omega)]
  have hint : (BitVec.ofNat 64 n).toInt = n := by
    rw [BitVec.toInt_eq_toNat_of_lt (by omega), hnat]
  exact int_of_small (by omega) (by omega)

theorem zero : IsOperand (N64Recomp.intLit 0) 0 := intLit (by decide)

/-- An operand is one of the two forms. -/
theorem cases (h : IsOperand a x) :
    a = gpr x ∨ a = CVal.ofBits int32 x ∧ -(2 ^ 16) ≤ x.toInt ∧ x.toInt < 2 ^ 17 := by
  obtain ⟨hbits, ht | ⟨ht, hl, hu⟩⟩ := h
  · exact .inl (by rw [← CVal.ofBits_self a, ht, hbits])
  · exact .inr ⟨by rw [← CVal.ofBits_self a, ht, hbits], hl, hu⟩

theorem isAddress (h : IsOperand a x) : IsAddress a := h.type.imp_right And.left

/-- An operand's image is the image in its promoted type. -/
theorem promote_wrap (h : IsOperand a x) : a.ty.promote.wrap a.bits = a.bits := by
  have hty : a.ty.promote = a.ty := by
    obtain ht | ⟨ht, -⟩ := h.type <;> rw [ht] <;> rfl
  rw [hty, a.canonical]

/-- A sum; when it is an `int` it stays far from the bounds of the type. -/
theorem add (ha : IsOperand a x) (hb : IsOperand b y) :
    ∃ s, a.add b = some s ∧ s.bits = x + y ∧
      (s.ty = uint64 ∨ s.ty = int32 ∧ -(2 ^ 17) ≤ (x + y).toInt ∧ (x + y).toInt < 2 ^ 18) := by
  obtain rfl | ⟨rfl, hlx, hux⟩ := ha.cases
  · exact ⟨_, CVal.add_uint64_left x b, by simp [hb.bits], .inl rfl⟩
  obtain rfl | ⟨rfl, hly, huy⟩ := hb.cases
  · exact ⟨_, CVal.add_uint64_right y _, by rw [CVal.ofBits_bits, wrap_uint64, ha.bits], .inl rfl⟩
  have hx : int32.wrap x = x := ha.bits
  have hy : int32.wrap y = y := hb.bits
  have hsum : (x + y).toInt = x.toInt + y.toInt := by
    rw [BitVec.toInt_add, Int.bmod_eq_of_le (by omega) (by omega)]
  refine ⟨_, CVal.add_int32 x y ?_, ?_, .inr ⟨rfl, by omega, by omega⟩⟩
  · rw [hx, hy]
    exact inRange_int32 (by omega) (by omega)
  · rw [CVal.ofBits_bits, hx, hy, wrap_int32_of_small (by omega) (by omega)]

theorem sub (ha : IsOperand a x) (hb : IsOperand b y) :
    ∃ s, a.sub b = some s ∧ s.bits = x - y ∧ IsAddress s := by
  obtain rfl | ⟨rfl, hlx, hux⟩ := ha.cases
  · exact ⟨_, CVal.sub_uint64_left x b, by simp [hb.bits], .inl rfl⟩
  obtain rfl | ⟨rfl, hly, huy⟩ := hb.cases
  · exact ⟨_, CVal.sub_uint64_right y _, by rw [CVal.ofBits_bits, wrap_uint64, ha.bits], .inl rfl⟩
  have hx : int32.wrap x = x := ha.bits
  have hy : int32.wrap y = y := hb.bits
  have hdiff : (x - y).toInt = x.toInt - y.toInt := by
    rw [BitVec.toInt_sub, Int.bmod_eq_of_le (by omega) (by omega)]
  refine ⟨_, CVal.sub_int32 x y ?_, ?_, .inr rfl⟩
  · rw [hx, hy]
    exact inRange_int32 (by omega) (by omega)
  · rw [CVal.ofBits_bits, hx, hy, wrap_int32_of_small (by omega) (by omega)]

/-- A bitwise operator that commutes with the conversion to `int`. -/
theorem bitwise {f : BitVec 64 → BitVec 64 → BitVec 64}
    (hf : ∀ x y, int32.wrap (f x y) = f (int32.wrap x) (int32.wrap y))
    (ha : IsOperand a x) (hb : IsOperand b y) :
    (CVal.bitwise f a b).bits = f x y ∧ IsAddress (CVal.bitwise f a b) := by
  obtain rfl | ⟨rfl, -⟩ := ha.cases
  · exact ⟨by simp [hb.bits], .inl (by simp)⟩
  obtain rfl | ⟨rfl, -⟩ := hb.cases
  · have hx : int32.wrap x = x := ha.bits
    exact ⟨by simp [hx], .inl (by simp)⟩
  have hx : int32.wrap x = x := ha.bits
  have hy : int32.wrap y = y := hb.bits
  rw [CVal.bitwise_same x y common_int32_int32]
  exact ⟨by rw [CVal.ofBits_bits, hx, hy, hf, hx, hy], .inr rfl⟩

theorem and (ha : IsOperand a x) (hb : IsOperand b y) : (a.and b).bits = x &&& y :=
  (bitwise (fun x y => by simp only [wrap, BitVec.setWidth_and, BitVec.signExtend_and]) ha hb).1

theorem xor (ha : IsOperand a x) (hb : IsOperand b y) : (a.xor b).bits = x ^^^ y :=
  (bitwise wrap_int32_xor ha hb).1

theorem or (ha : IsOperand a x) (hb : IsOperand b y) :
    (a.or b).bits = x ||| y ∧ IsAddress (a.or b) :=
  bitwise (fun x y => by simp only [wrap, BitVec.setWidth_or, BitVec.signExtend_or]) ha hb

/-- The comparison of two operands of which one is a `gpr`. -/
theorem lt_unsigned (ha : IsOperand a x) (hb : IsOperand b y)
    (h : a.ty = uint64 ∨ b.ty = uint64) : a.lt b = CVal.ofBool (x.ult y) := by
  have hty : common a.ty b.ty = uint64 := by
    obtain h | h := h <;> rw [h] <;> simp
  simp [CVal.lt, hty, ha.bits, hb.bits]

theorem eq (ha : IsOperand a x) (hb : IsOperand b y) : a.eq b = CVal.ofBool (x == y) := by
  obtain rfl | ⟨rfl, -⟩ := ha.cases
  · simp [CVal.eq, hb.bits]
  obtain rfl | ⟨rfl, -⟩ := hb.cases
  · have hx : int32.wrap x = x := ha.bits
    simp [CVal.eq, hx]
  have hx : int32.wrap x = x := ha.bits
  have hy : int32.wrap y = y := hb.bits
  simp [CVal.eq, hx, hy]

end IsOperand

/-! ### Addresses -/

/-- The address of a load or a store. -/
theorem IsOperand.address {base imm : CVal} {x y : BitVec 64} (ha : IsOperand base x)
    (hb : IsOperand imm y) :
    ∃ s, base.add imm = some s ∧ s.bits = x + y ∧ IsAddress s := by
  obtain ⟨s, hs, hbits, hty⟩ := ha.add hb
  exact ⟨s, hs, hbits, hty.imp_right And.left⟩

/-- `SD(val, imm, base)` at an aligned address. -/
theorem sd_eq (rdram : Rdram) {base imm : CVal} {x y : BitVec 64} (ha : IsOperand base x)
    (hb : IsOperand imm y) (h8 : (x + y).toNat % 8 = 0) (val : CVal) :
    ∃ rdram' : Rdram, sd rdram val imm base = some rdram' ∧
      rdram'.guest = rdram.guest.write (window (x + y)) 8 val.bits := by
  obtain ⟨s, hs, hbits, hty⟩ := ha.add hb
  have hadd : ∀ n, n < 8 →
      ∃ s', s.add (intLit n) = some s' ∧ s'.bits = x + y + BitVec.ofNat 64 n := by
    intro n hn
    have hlit := IsOperand.intLit (n := n) (by omega)
    obtain h | ⟨h, hl, hu⟩ := hty
    · rw [← CVal.ofBits_self s, h, hbits]
      exact ⟨_, CVal.add_uint64_left _ _, by rw [CVal.ofBits_bits, wrap_uint64, hlit.bits]⟩
    · have hnat : (BitVec.ofNat 64 n).toNat = n := by
        rw [BitVec.toNat_ofNat, Nat.mod_eq_of_lt (by omega)]
      have hint : (BitVec.ofNat 64 n).toInt = n := by
        rw [BitVec.toInt_eq_toNat_of_lt (by omega), hnat]
      have hsum : (x + y + BitVec.ofNat 64 n).toInt = (x + y).toInt + n := by
        rw [BitVec.toInt_add, hint, Int.bmod_eq_of_le (by omega) (by omega)]
      have hwrap : int32.wrap (x + y) = x + y := wrap_int32_of_small (by omega) (by omega)
      have hwrapn : int32.wrap (BitVec.ofNat 64 n) = BitVec.ofNat 64 n := hlit.bits
      rw [← CVal.ofBits_self s, h, hbits]
      refine ⟨_, CVal.add_int32 (x + y) (BitVec.ofNat 64 n) ?_, ?_⟩
      · rw [hwrap, hwrapn, hint]
        exact inRange_int32 (by omega) (by omega)
      · rw [CVal.ofBits_bits, hwrap, hwrapn, wrap_int32_of_small (by omega) (by omega)]
  obtain ⟨s₄, hs₄, hbits₄⟩ := hadd 4 (by decide)
  obtain ⟨s₀, hs₀, hbits₀⟩ := hadd 0 (by decide)
  have h4 : (window (x + y + 4#64)).toNat % 4 = 0 := by
    rw [window_toNat_mod (by decide), add_four_mod h8]
  have h0 : (window (x + y)).toNat % 4 = 0 := by
    rw [window_toNat_mod (by decide)]
    omega
  have hwin : window (x + y + 4#64) = window (x + y) + 4#30 := window_add _ 4#64
  obtain ⟨rdram₁, hstore₁, hguest₁⟩ :=
    store_eq rdram (t := uint32) (reverses_four h4) h4 (CVal.ofBits uint32 val.bits)
  obtain ⟨rdram₂, hstore₂, hguest₂⟩ :=
    store_eq rdram₁ (t := uint32) (reverses_four h0) h0 (CVal.ofBits uint32 (val.bits >>> 32))
  refine ⟨rdram₂, ?_, ?_⟩
  · simp only [sd, hs, hs₄, hs₀, Option.bind_eq_bind, Option.bind_some, windowOffset_eq, hbits₄,
      hbits₀, CVal.convert, shr_uint64_intLit _ (show 0 < 64 by decide),
      shr_uint64_intLit _ (show 32 < 64 by decide), CVal.ofBits_bits, wrap_uint64,
      BitVec.ushiftRight_zero, hstore₁, BitVec.add_zero, hstore₂]
  · have hword : ∀ z, (CVal.ofBits uint32 z).bits.setWidth (8 * (uint32.width / 8)) =
        z.setWidth (8 * 4) := fun z => word_wrap_uint32 z
    rw [hguest₂, hguest₁, hword, hword, hwin, Mips.Memory.write_append (by decide)]
    rfl

/-! ### Comparisons of `SIGNED` values -/

theorem lt_int64 (x y : BitVec 64) :
    (CVal.ofBits int64 x).lt (CVal.ofBits int64 y) = CVal.ofBool (x.slt y) := by
  simp [CVal.lt]

theorem lt_int64_int32 {x y : BitVec 64} (hy : int32.wrap y = y) :
    (CVal.ofBits int64 x).lt (CVal.ofBits int32 y) = CVal.ofBool (x.slt y) := by
  simp [CVal.lt, hy]

theorem lt_int32_int64 {x y : BitVec 64} (hx : int32.wrap x = x) :
    (CVal.ofBits int32 x).lt (CVal.ofBits int64 y) = CVal.ofBool (x.slt y) := by
  simp [CVal.lt, hx, CType.common]

theorem le_int64_int32 {x y : BitVec 64} (hy : int32.wrap y = y) :
    (CVal.ofBits int64 x).le (CVal.ofBits int32 y) = CVal.ofBool (x.sle y) := by
  simp [CVal.le, hy]

theorem le_int32_int64 {x y : BitVec 64} (hx : int32.wrap x = x) :
    (CVal.ofBits int32 x).le (CVal.ofBits int64 y) = CVal.ofBool (x.sle y) := by
  simp [CVal.le, hx, CType.common]

@[simp] theorem truthy_ofBool (b : Bool) : (CVal.ofBool b).truthy = b := by
  cases b <;> decide

@[simp] theorem ofBool_bits (b : Bool) : (CVal.ofBool b).bits = Mips.ofBool b := by
  cases b <;> decide

/-! ### What the printed operands hold -/

section Printed

open CGenerator

/-- The guest state that a machine keeps. -/
def Machine.toMips (m : Machine) : Mips.State 30 where
  gpr r := if r = 0 then 0 else m.gpr r
  gpr_zero := if_pos rfl
  hi := m.hi
  lo := m.lo
  fpCondition := m.c1cs ≠ 0
  mem := m.rdram.guest

variable (m : Machine)

theorem isOperand_gprToString (r : Fin 32) :
    ∃ v, (gprToString r).eval m.env = some v ∧ IsOperand v (m.toMips.gpr r) := by
  by_cases hr : r = 0
  · subst hr
    exact ⟨_, rfl, IsOperand.zero⟩
  · refine ⟨gpr (m.gpr r), ?_, ?_⟩
    · simp [gprToString, hr, Machine.env]
    · rw [show m.toMips.gpr r = m.gpr r from if_neg hr]
      exact IsOperand.field _

/-- A register other than `$zero` is a `gpr`. -/
theorem eval_gprToString {r : Fin 32} (hr : r ≠ 0) :
    (gprToString r).eval m.env = some (gpr (m.toMips.gpr r)) := by
  rw [show m.toMips.gpr r = m.gpr r from if_neg hr]
  simp [gprToString, hr, Machine.env]

theorem eval_gprToString_zero : (gprToString 0).eval m.env = some (intLit 0) := rfl

theorem eval_literal (n : Nat) : (literal n).eval m.env = some (intLit n) := rfl

theorem eval_signedLiteral {n : Int} (hl : -(2 ^ 15) ≤ n) (hu : n < 2 ^ 15) :
    (signedLiteral n).eval m.env = some (CVal.ofBits int32 (BitVec.ofInt 64 n)) := by
  by_cases hn : n < 0
  · have habs : ((n.natAbs : Nat) : Int) = -n := by omega
    have hwrap : int32.wrap (BitVec.ofInt 64 (-n)) = BitVec.ofInt 64 (-n) :=
      wrap_int32_ofInt (by omega) (by omega)
    have hint : (BitVec.ofInt 64 (-n)).toInt = -n :=
      BitVec.toInt_ofInt_eq_self (by decide) (by omega) (by omega)
    have hrange : int32.inRange n := inRange_int32 (by omega) (by omega)
    have hneg : -BitVec.ofInt 64 (-n) = BitVec.ofInt 64 n := by
      rw [← BitVec.ofInt_neg, Int.neg_neg]
    simp [signedLiteral, hn, literal, CVal.neg, CVal.arith, hwrap, hint,
      habs, hrange, hneg]
  · have habs : ((n.natAbs : Nat) : Int) = n := by omega
    simp [signedLiteral, hn, literal, habs]

/-- A printed signed immediate. -/
theorem isOperand_immS16 (imm : BitVec 16) :
    ∃ v, (signedLiteral imm.toInt).eval m.env = some v ∧
      IsOperand v (imm.signExtend 64) ∧ v = CVal.ofBits int32 (imm.signExtend 64) := by
  have hl : -(2 ^ 15) ≤ imm.toInt := BitVec.le_toInt imm
  have hu : imm.toInt < 2 ^ 15 := BitVec.toInt_lt
  have hint : (imm.signExtend 64).toInt = imm.toInt := BitVec.toInt_signExtend_of_le (by decide)
  refine ⟨_, eval_signedLiteral m hl hu, ?_, rfl⟩
  exact IsOperand.int_of_small (x := imm.signExtend 64) (by omega) (by omega)

/-- A printed unsigned immediate. -/
theorem isOperand_immU16 (imm : BitVec 16) :
    ∃ v, (literal imm.toNat).eval m.env = some v ∧ IsOperand v (imm.setWidth 64) := by
  have hlt := imm.isLt
  have hint : (imm.setWidth 64).toInt = imm.toNat := by
    rw [BitVec.toInt_eq_toNat_of_lt] <;> rw [BitVec.toNat_setWidth] <;> omega
  have hext : BitVec.ofInt 64 imm.toNat = imm.setWidth 64 := by
    rw [BitVec.ofInt_natCast, BitVec.ofNat_toNat]
  have heval : (literal imm.toNat).eval m.env = some (CVal.ofBits int32 (imm.setWidth 64)) :=
    congrArg (fun x => some (CVal.ofBits int32 x)) hext
  exact ⟨_, heval, IsOperand.int_of_small (x := imm.setWidth 64) (by omega) (by omega)⟩

end Printed

end N64Recomp
