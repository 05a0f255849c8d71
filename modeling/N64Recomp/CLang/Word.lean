import N64Recomp.CLang.Integer

/-!
# C values of 32 bits

The values of the types `int32_t` and `uint32_t` by their words of 32 bits: operators whose result
does not depend on the type work on the words, and those whose result does are given for each type.

## Main definitions

* `CVal.toWord`, `CVal.ofWord`, `CVal.ofSigned`: values and words
* `CVal.Is32`: the values of the two types

## Main results

* `toWord_and`, `toWord_compl`, ...: bitwise operators
* `shl_ofWord`, `shr_ofWord`, `shr_ofSigned`: shifts by less than 32
* `lt_ofSigned`, `lt_of_uint32`, `eq_of_is32`: comparisons
-/

namespace CLang.CVal

/-- The word of a value: its conversion to `uint32_t`. -/
def toWord (v : CVal) : BitVec 32 := v.bits.setWidth 32

/-- A word as a `uint32_t`. -/
def ofWord (x : BitVec 32) : CVal := CVal.ofBits .uint32 (x.setWidth 64)

/-- A word as an `int32_t`. -/
def ofSigned (x : BitVec 32) : CVal := CVal.ofBits .int32 (x.setWidth 64)

/-- A value of one of the two types. -/
def Is32 (v : CVal) : Prop := v.ty = .int32 ∨ v.ty = .uint32

section Values

variable {a b : CVal} {x y : BitVec 32}

theorem is32_ofWord : Is32 (ofWord x) := Or.inr rfl

theorem is32_ofSigned : Is32 (ofSigned x) := Or.inl rfl

theorem toWord_ofBits_int32 (z : BitVec 64) : toWord (CVal.ofBits .int32 z) = z.setWidth 32 := by
  unfold toWord
  rw [CVal.ofBits_bits, CType.wrap, CType.setWidth_signExtend_64 (by decide)]

theorem toWord_ofBits_uint32 (z : BitVec 64) : toWord (CVal.ofBits .uint32 z) = z.setWidth 32 := by
  unfold toWord
  rw [CVal.ofBits_bits, CType.wrap, CType.setWidth_setWidth_64 (by decide)]

@[simp] theorem toWord_ofWord (x : BitVec 32) : toWord (ofWord x) = x := by
  rw [ofWord, toWord_ofBits_uint32, CType.setWidth_setWidth_64 (by decide)]

@[simp] theorem toWord_ofSigned (x : BitVec 32) : toWord (ofSigned x) = x := by
  rw [ofSigned, toWord_ofBits_int32, CType.setWidth_setWidth_64 (by decide)]

/-- A value of a signed type is sign-extended. -/
theorem toWord_ofBits_signed {w : Nat} {t : CType} (hw : w ≤ 64)
    (ht : ∀ z, t.wrap z = (z.setWidth w).signExtend 64) (x : BitVec w) :
    toWord (CVal.ofBits t (x.setWidth 64)) = x.signExtend 32 := by
  rw [toWord, CVal.ofBits_bits, ht, CType.setWidth_setWidth_64 hw]
  ext i hi
  have h64 : i < 64 := by omega
  simp [BitVec.getElem_signExtend, h64]

/-- A value of an unsigned type is zero-extended. -/
theorem toWord_ofBits_unsigned {w : Nat} {t : CType} (hw : w ≤ 64)
    (ht : ∀ z, t.wrap z = (z.setWidth w).setWidth 64) (x : BitVec w) :
    toWord (CVal.ofBits t (x.setWidth 64)) = x.setWidth 32 := by
  rw [toWord, CVal.ofBits_bits, ht, CType.setWidth_setWidth_64 hw]
  ext i hi
  simp

/-- A value of 32 bits is the word of its type. -/
theorem Is32.eq (h : Is32 a) : a = ofSigned (toWord a) ∨ a = ofWord (toWord a) := by
  obtain ⟨t, bits, hcanonical⟩ := a
  rcases h with h | h
  · obtain rfl : t = .int32 := h
    refine Or.inl (CVal.ext_bits rfl ?_)
    rw [ofSigned, CVal.ofBits_bits, toWord, CType.wrap, CType.setWidth_setWidth_64 (by decide)]
    exact hcanonical.symm
  · obtain rfl : t = .uint32 := h
    refine Or.inr (CVal.ext_bits rfl ?_)
    rw [ofWord, CVal.ofBits_bits, toWord, CType.wrap, CType.setWidth_setWidth_64 (by decide)]
    exact hcanonical.symm

theorem wrap_setWidth_int32 (z : BitVec 64) : (CType.int32.wrap z).setWidth 32 = z.setWidth 32 :=
  CType.setWidth_signExtend_64 (by decide) _

theorem wrap_setWidth_uint32 (z : BitVec 64) : (CType.uint32.wrap z).setWidth 32 = z.setWidth 32 :=
  CType.setWidth_setWidth_64 (by decide) _

/-- The common type of two values of 32 bits. -/
theorem Is32.common (ha : Is32 a) (hb : Is32 b) :
    CType.common a.ty b.ty = .int32 ∧ a.ty = .int32 ∧ b.ty = .int32 ∨
      CType.common a.ty b.ty = .uint32 := by
  rcases ha with ha | ha <;> rcases hb with hb | hb <;> rw [ha, hb] <;> decide

/-- Bitwise operators work on the words. -/
theorem toWord_bitwise (ha : Is32 a) (hb : Is32 b) {f : BitVec 64 → BitVec 64 → BitVec 64}
    {g : BitVec 32 → BitVec 32 → BitVec 32}
    (hf : ∀ x y, (f x y).setWidth 32 = g (x.setWidth 32) (y.setWidth 32)) :
    Is32 (CVal.bitwise f a b) ∧ toWord (CVal.bitwise f a b) = g (toWord a) (toWord b) := by
  unfold CVal.bitwise
  dsimp only
  rcases ha.common hb with ⟨h, -, -⟩ | h
  · rw [h, toWord_ofBits_int32, hf, wrap_setWidth_int32, wrap_setWidth_int32]
    exact ⟨Or.inl rfl, rfl⟩
  · rw [h, toWord_ofBits_uint32, hf, wrap_setWidth_uint32, wrap_setWidth_uint32]
    exact ⟨Or.inr rfl, rfl⟩

theorem toWord_and (ha : Is32 a) (hb : Is32 b) :
    Is32 (a.and b) ∧ toWord (a.and b) = toWord a &&& toWord b :=
  toWord_bitwise ha hb fun _ _ => BitVec.setWidth_and

theorem toWord_or (ha : Is32 a) (hb : Is32 b) :
    Is32 (a.or b) ∧ toWord (a.or b) = toWord a ||| toWord b :=
  toWord_bitwise ha hb fun _ _ => BitVec.setWidth_or

theorem toWord_xor (ha : Is32 a) (hb : Is32 b) :
    Is32 (a.xor b) ∧ toWord (a.xor b) = toWord a ^^^ toWord b :=
  toWord_bitwise ha hb fun _ _ => BitVec.setWidth_xor

theorem toWord_compl (ha : Is32 a) : toWord a.compl = ~~~toWord a := by
  have hnot : ∀ z : BitVec 64, (~~~z).setWidth 32 = ~~~(z.setWidth 32) := fun z =>
    BitVec.setWidth_not (by decide)
  unfold CVal.compl
  rcases ha with ha | ha <;> rw [ha]
  · exact (toWord_ofBits_int32 _).trans (hnot _)
  · exact (toWord_ofBits_uint32 _).trans (hnot _)

/-! ### Shifts -/

/-- The image of a small value is the value. -/
theorem Is32.bits_toNat (ha : Is32 a) (h : (toWord a).toNat < 2 ^ 31) :
    a.bits.toNat = (toWord a).toNat := by
  generalize hx : toWord a = x at h
  rcases ha.eq with heq | heq
  · have hmsb : x.msb = false := by
      rw [BitVec.msb_eq_decide, decide_eq_false_iff_not]
      omega
    rw [heq, hx, ofSigned, CVal.ofBits_bits, CType.wrap, CType.setWidth_setWidth_64 (by decide),
      BitVec.signExtend_eq_setWidth_of_msb_false hmsb, BitVec.toNat_setWidth]
    omega
  · rw [heq, hx, ofWord, CVal.ofBits_bits, CType.wrap, CType.setWidth_setWidth_64 (by decide),
      BitVec.toNat_setWidth]
    omega

theorem Is32.promote_wrap (ha : Is32 a) : a.ty.promote.wrap a.bits = a.bits := by
  have hpromote : a.ty.promote = a.ty := by
    rcases ha with ha | ha <;> rw [ha] <;> rfl
  rw [hpromote, a.canonical]

theorem setWidth_shiftLeft_64 (x : BitVec 32) (n : Nat) :
    (x.setWidth 64 <<< n).setWidth 32 = x <<< n := by
  ext i hi
  simp

theorem setWidth_ushiftRight_64 (x : BitVec 32) (n : Nat) :
    (x.setWidth 64 >>> n).setWidth 32 = x >>> n := by
  ext i hi
  simp only [BitVec.getElem_setWidth, BitVec.getLsbD_ushiftRight, BitVec.getLsbD_setWidth,
    BitVec.getElem_ushiftRight]
  by_cases h : n + i < 32
  · simp [show n + i < 64 by omega]
  · simp [BitVec.getLsbD_of_ge x (n + i) (by omega)]

theorem setWidth_sshiftRight_64 {n : Nat} (hn : n < 32) (x : BitVec 32) :
    ((x.signExtend 64).sshiftRight n).setWidth 32 = x.sshiftRight n := by
  ext i hi
  rw [BitVec.getElem_setWidth, BitVec.getLsbD_sshiftRight, BitVec.getElem_sshiftRight]
  simp only [show ¬ 64 ≤ i by omega, show n + i < 64 by omega, decide_false, Bool.not_false,
    Bool.true_and, if_true, BitVec.getLsbD_signExtend, decide_true]
  by_cases h : n + i < 32
  · simp [h]
  · simp [h]

variable (x) (hb : Is32 b) (hcount : (toWord b).toNat < 32)

include hb hcount

theorem shl_ofWord :
    ∃ v, (ofWord x).shl b = some v ∧ toWord v = x <<< (toWord b).toNat := by
  have hn := hb.bits_toNat (by omega)
  refine ⟨_, CVal.shl_eq hb.promote_wrap (by rw [hn]; exact hcount), ?_⟩
  rw [hn]
  exact (toWord_ofBits_uint32 _).trans (by
    rw [ofWord, CVal.ofBits_bits, CType.wrap, CType.setWidth_setWidth_64 (by decide),
      setWidth_shiftLeft_64])

theorem shr_ofWord :
    ∃ v, (ofWord x).shr b = some v ∧ toWord v = x >>> (toWord b).toNat := by
  have hn := hb.bits_toNat (by omega)
  refine ⟨_, CVal.shr_eq_of_unsigned rfl hb.promote_wrap (by rw [hn]; exact hcount), ?_⟩
  rw [hn]
  have himage : CType.uint32.wrap (ofWord x).bits = x.setWidth 64 := by
    rw [ofWord, CVal.ofBits_bits, CType.wrap_wrap, CType.wrap,
      CType.setWidth_setWidth_64 (by decide)]
  refine (toWord_ofBits_uint32 _).trans ?_
  change BitVec.setWidth 32 (CType.uint32.wrap (ofWord x).bits >>> _) = _
  rw [himage, setWidth_ushiftRight_64]

theorem shr_ofSigned :
    ∃ v, (ofSigned x).shr b = some v ∧ toWord v = x.sshiftRight (toWord b).toNat := by
  have hn := hb.bits_toNat (by omega)
  refine ⟨_, CVal.shr_eq_of_signed rfl hb.promote_wrap (by rw [hn]; exact hcount), ?_⟩
  rw [hn]
  have himage : CType.int32.wrap (ofSigned x).bits = x.signExtend 64 := by
    rw [ofSigned, CVal.ofBits_bits, CType.wrap_wrap, CType.wrap,
      CType.setWidth_setWidth_64 (by decide)]
  refine (toWord_ofBits_int32 _).trans ?_
  change BitVec.setWidth 32 ((CType.int32.wrap (ofSigned x).bits).sshiftRight _) = _
  rw [himage, setWidth_sshiftRight_64 hcount]

omit hb hcount

/-! ### Comparisons -/

theorem toInt_wrap_int32 (x : BitVec 32) : (CType.int32.wrap (x.setWidth 64)).toInt = x.toInt := by
  rw [CType.wrap, CType.setWidth_setWidth_64 (by decide), BitVec.toInt_signExtend_of_le (by decide)]

theorem toNat_wrap_uint32 (z : BitVec 64) :
    (CType.uint32.wrap z).toNat = (z.setWidth 32).toNat := by
  rw [CType.wrap, BitVec.toNat_setWidth]
  have hlt := (z.setWidth 32).isLt
  omega

theorem lt_ofSigned (x y : BitVec 32) :
    (ofSigned x).lt (ofSigned y) = CVal.ofBool (x.slt y) := by
  unfold CVal.lt ofSigned
  simp only [CVal.ofBits_ty, CType.common_int32_int32, CType.signed_int32, if_true,
    CVal.ofBits_bits, CType.wrap_wrap, BitVec.slt_eq_decide, toInt_wrap_int32]

theorem le_ofSigned (x y : BitVec 32) :
    (ofSigned x).le (ofSigned y) = CVal.ofBool (x.sle y) := by
  unfold CVal.le ofSigned
  simp only [CVal.ofBits_ty, CType.common_int32_int32, CType.signed_int32, if_true,
    CVal.ofBits_bits, CType.wrap_wrap, BitVec.sle_eq_decide, toInt_wrap_int32]

/-- A comparison with an unsigned operand is unsigned. -/
theorem lt_of_uint32 (hcommon : CType.common a.ty b.ty = .uint32) :
    a.lt b = CVal.ofBool ((toWord a).ult (toWord b)) := by
  unfold CVal.lt
  rw [hcommon]
  simp only [CType.signed_uint32, Bool.false_eq_true, if_false, BitVec.ult_eq_decide,
    toNat_wrap_uint32]
  rfl

theorem eq_of_is32 (ha : Is32 a) (hb : Is32 b) :
    a.eq b = CVal.ofBool (toWord a == toWord b) := by
  unfold CVal.eq
  dsimp only
  congr 1
  rw [Bool.eq_iff_iff, beq_iff_eq, beq_iff_eq]
  rcases ha.common hb with ⟨h, -, -⟩ | h
  · rw [h]
    constructor
    · intro heq
      have hword := congrArg (BitVec.setWidth 32) heq
      rwa [wrap_setWidth_int32, wrap_setWidth_int32] at hword
    · intro heq
      exact congrArg (BitVec.signExtend 64) heq
  · rw [h]
    constructor
    · intro heq
      have hword := congrArg (BitVec.setWidth 32) heq
      rwa [wrap_setWidth_uint32, wrap_setWidth_uint32] at hword
    · intro heq
      exact congrArg (BitVec.setWidth 64) heq

@[simp] theorem truthy_ofBool (c : Bool) : (CVal.ofBool c).truthy = c := by
  cases c <;> rfl

end Values


end CLang.CVal
