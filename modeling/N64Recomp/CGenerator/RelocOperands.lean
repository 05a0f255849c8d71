import N64Recomp.CGenerator.Yields
import N64Recomp.Data.Halves

/-!
# The values of relocated immediates

The immediate of a relocated instruction prints as a half of the run-time address of its target, the
sum of an `int` and a hexadecimal literal. The sum is undefined where it leaves the `int`s.

## Main definitions

* `relocBase`, `relocInRange`: the run-time base of the target's section, and where the sum is defined
* `IsWord`: a value of 32 bits
* `relocLuiText`, `relocLowText`: the printed halves

## Main results

* `eval_relocAddress`, `eval_relocAddress_none`: the sum is defined exactly in range
* `yields_relocLui`, `yields_relocLow`: a printed pair makes up the address
-/

namespace N64Recomp

open CLang CLang.CType Mips CGenerator

/-- `section_addresses[section_index]`, or that of a reference section. -/
def relocBase (m : Machine) (ctx : InstructionContext) : BitVec 32 :=
  if ctx.relocTagAsReference then m.referenceSectionAddresses ctx.relocSectionIndex
  else m.sectionAddresses ctx.relocSectionIndex

/-- An offset below `2^31` is an `int`, and then the sum must be one too. -/
def relocInRange (base offset : BitVec 32) : Bool :=
  2 ^ 31 ≤ offset.toNat || base.toInt + offset.toNat < 2 ^ 31

/-- A value of 32 bits. -/
structure IsWord (v : CVal) (w : BitVec 32) : Prop where
  bits : word v.bits = w
  type : v.ty = int32 ∨ v.ty = uint32

variable {m : Machine} {ctx : InstructionContext}

/-! ### The address -/

variable (m ctx) in
theorem object_sectionAddress : m.object (.sectionAddress ctx.relocTagAsReference
      ctx.relocSectionIndex) = some (CVal.ofBits int32 ((relocBase m ctx).setWidth 64)) := by
  unfold relocBase
  cases ctx.relocTagAsReference <;> rfl

theorem eval_hexLiteral (x : BitVec 32) : (hexLiteral x).eval m.env =
    some (CVal.ofBits (if x.toNat < 2 ^ 31 then int32 else uint32) (x.setWidth 64)) := by
  have hbits : BitVec.ofInt 64 x.toNat = x.setWidth 64 := by
    rw [BitVec.ofInt_natCast, BitVec.ofNat_toNat]
  unfold hexLiteral
  split <;> simp only [Expr.eval_lit, hbits]

theorem toInt_wrap_int32 (x : BitVec 32) : (int32.wrap (x.setWidth 64)).toInt = x.toInt := by
  rw [wrap_int32_setWidth, BitVec.toInt_signExtend_of_le (by decide)]

theorem inRange_base_add {base offset : BitVec 32} (hoffset : offset.toNat < 2 ^ 31) :
    int32.inRange ((int32.wrap (base.setWidth 64)).toInt + (int32.wrap (offset.setWidth 64)).toInt) =
      relocInRange base offset := by
  have hlow := BitVec.le_toInt base
  have hint : offset.toInt = offset.toNat := BitVec.toInt_eq_toNat_of_lt (by omega)
  have hlt : ¬ 2 ^ 31 ≤ offset.toNat := by omega
  rw [toInt_wrap_int32, toInt_wrap_int32, hint, CType.inRange, if_pos signed_int32, relocInRange,
    decide_eq_false hlt, Bool.false_or]
  have hiff : (-2 ^ (32 - 1) ≤ base.toInt + (offset.toNat : Int) ∧
      base.toInt + (offset.toNat : Int) < 2 ^ (32 - 1)) ↔
      base.toInt + (offset.toNat : Int) < 2 ^ 31 := by
    omega
  exact decide_eq_decide.mpr hiff

/-- In range the printed address is the word of the target. -/
theorem eval_relocAddress (h : relocInRange (relocBase m ctx) ctx.relocTargetSectionOffset = true) :
    ∃ v, (relocAddress ctx).eval m.env = some v ∧
      IsWord v (relocBase m ctx + ctx.relocTargetSectionOffset) := by
  generalize hbase : relocBase m ctx = base at h
  generalize hoffset : ctx.relocTargetSectionOffset = offset at h
  have hvar := object_sectionAddress m ctx
  rw [hbase] at hvar
  unfold relocAddress
  simp only [Expr.eval_var, Expr.eval_binary, Machine.env_var, hvar, hoffset, Option.bind_some,
    eval_hexLiteral, BinOp.apply]
  by_cases hsmall : offset.toNat < 2 ^ 31
  · rw [if_pos hsmall]
    refine ⟨_, CVal.add_int32 _ _ ((inRange_base_add hsmall).trans h), ?_, .inl rfl⟩
    rw [CVal.ofBits_bits, word_wrap_int32, word, BitVec.setWidth_add _ _ (by decide)]
    have hword : ∀ x : BitVec 32, word (int32.wrap (x.setWidth 64)) = x := fun x => by
      rw [word_wrap_int32, word_setWidth_64]
    rw [show (int32.wrap (base.setWidth 64)).setWidth 32 = base from hword base,
      show (int32.wrap (offset.setWidth 64)).setWidth 32 = offset from hword offset]
  · rw [if_neg hsmall]
    refine ⟨_, CVal.add_of_unsigned rfl, ?_, .inr rfl⟩
    simp only [CVal.ofBits_bits, CVal.ofBits_ty]
    have hcommon : common int32 uint32 = uint32 := rfl
    rw [hcommon, word_wrap_uint32, word, BitVec.setWidth_add _ _ (by decide)]
    rw [show (int32.wrap (base.setWidth 64)).setWidth 32 = base from
        (word_wrap_int32 _).trans (word_setWidth_64 base),
      show (uint32.wrap (offset.setWidth 64)).setWidth 32 = offset from
        (word_wrap_uint32 _).trans (word_setWidth_64 offset)]

/-- Out of range the printed address is undefined. -/
theorem eval_relocAddress_none
    (h : relocInRange (relocBase m ctx) ctx.relocTargetSectionOffset = false) :
    (relocAddress ctx).eval m.env = none := by
  generalize hbase : relocBase m ctx = base at h
  generalize hoffset : ctx.relocTargetSectionOffset = offset at h
  have hvar := object_sectionAddress m ctx
  rw [hbase] at hvar
  have hsmall : offset.toNat < 2 ^ 31 := by
    apply Nat.lt_of_not_le
    intro hlarge
    rw [relocInRange, decide_eq_true hlarge, Bool.true_or] at h
    cases h
  have hrange := (inRange_base_add hsmall).trans h
  unfold relocAddress
  simp only [Expr.eval_var, Expr.eval_binary, Machine.env_var, hvar, hoffset, Option.bind_some,
    eval_hexLiteral, BinOp.apply, if_pos hsmall]
  simp only [CVal.add, CVal.ofBits_ty, CVal.ofBits_bits, common_int32_int32, wrap_wrap, CVal.arith,
    signed_int32, hrange, Bool.not_false, Bool.and_self, if_true]

/-! ### The halves -/

section Halves

variable {v : CVal} {w : BitVec 32}

theorem IsWord.cases (h : IsWord v w) :
    v = CVal.ofBits int32 (w.setWidth 64) ∨ v = CVal.ofBits uint32 (w.setWidth 64) := by
  obtain ⟨hword, ht | ht⟩ := h
  · refine .inl (CVal.ext_bits ht ?_)
    rw [CVal.ofBits_bits, ← v.canonical, ht, wrap_int32_eq, hword, wrap_int32_setWidth]
  · refine .inr (CVal.ext_bits ht ?_)
    rw [CVal.ofBits_bits, ← v.canonical, ht, wrap_uint32_setWidth]
    exact congrArg (BitVec.setWidth 64) hword

theorem word_signExtend_sshiftRight (w : BitVec 32) (n : Nat) :
    word ((w.signExtend 64).sshiftRight n) = w.sshiftRight n := by
  apply BitVec.eq_of_getLsbD_eq
  intro j hj
  rw [BitVec.getLsbD_setWidth, BitVec.getLsbD_sshiftRight, BitVec.getLsbD_sshiftRight,
    BitVec.getLsbD_signExtend, BitVec.msb_signExtend]
  by_cases hin : n + j < 32
  · simp [hj, hin, show n + j < 64 by omega, show ¬ 64 ≤ j by omega, show ¬ 32 ≤ j by omega]
  · by_cases hin' : n + j < 64 <;>
      simp [hj, hin, hin', show ¬ 64 ≤ j by omega, show ¬ 32 ≤ j by omega]

/-- A word shifted right, by the signedness of its type. -/
theorem IsWord.shr (h : IsWord v w) {n : Nat} (hn : n < 32) :
    ∃ s, v.shr (intLit n) = some s ∧
      (v.ty = int32 ∧ s.ty = int32 ∧ word s.bits = w.sshiftRight n ∨
        v.ty = uint32 ∧ s.ty = uint32 ∧ word s.bits = w >>> n) := by
  have hlit := IsOperand.intLit (n := n) (by omega)
  have hcount : (intLit n).bits.toNat = n := by
    rw [hlit.bits, BitVec.toNat_ofNat, Nat.mod_eq_of_lt (by omega)]
  have hcanon : (intLit n).ty.promote.wrap (intLit n).bits = (intLit n).bits := hlit.promote_wrap
  obtain rfl | rfl := h.cases
  · have hshr := CVal.shr_eq_of_signed (a := CVal.ofBits int32 (w.setWidth 64)) rfl hcanon
      (by rw [hcount]; exact hn)
    rw [hcount] at hshr
    refine ⟨_, hshr, .inl ⟨rfl, rfl, ?_⟩⟩
    have hwrap : int32.promote.wrap (int32.wrap (w.setWidth 64)) = w.signExtend 64 :=
      (wrap_wrap int32 _).trans (wrap_int32_setWidth w)
    simp only [CVal.ofBits_ty, CVal.ofBits_bits, hwrap]
    rw [promote_int32, word_wrap_int32]
    exact word_signExtend_sshiftRight w n
  · have hshr := CVal.shr_eq_of_unsigned (a := CVal.ofBits uint32 (w.setWidth 64)) rfl hcanon
      (by rw [hcount]; exact hn)
    rw [hcount] at hshr
    refine ⟨_, hshr, .inr ⟨rfl, rfl, ?_⟩⟩
    simp only [CVal.ofBits_ty, CVal.ofBits_bits, promote_uint32, wrap_wrap]
    rw [word_wrap_uint32, word_wrap_ushiftRight, word_setWidth_64]

theorem sshiftRight_shiftLeft (w : BitVec 32) : w.sshiftRight 16 <<< 16 = (w >>> 16) <<< 16 := by
  apply BitVec.eq_of_getLsbD_eq
  intro j hj
  simp only [BitVec.getLsbD_shiftLeft, BitVec.getLsbD_sshiftRight, BitVec.getLsbD_ushiftRight]
  by_cases h : j < 16
  · simp [h]
  · simp [h, show 16 + (j - 16) < 32 by omega, show ¬ 32 ≤ j - 16 by omega]

theorem sshiftRight_and_one (w : BitVec 32) :
    w.sshiftRight 15 &&& 1#32 = (w >>> 15) &&& 1#32 := by
  apply BitVec.eq_of_getLsbD_eq
  intro j hj
  simp only [BitVec.getLsbD_and, BitVec.getLsbD_sshiftRight, BitVec.getLsbD_ushiftRight]
  by_cases h : j = 0
  · subst h
    simp
  · simp [h]

/-- The lowest bit of a value of 32 bits. -/
theorem and_one_eq {b : CVal} (ht : b.ty = int32 ∨ b.ty = uint32) :
    b.and (intLit 1) = CVal.ofBits b.ty (b.bits &&& 1) := by
  have hcommon : common b.ty int32 = b.ty := by obtain h | h := ht <;> rw [h] <;> rfl
  have hone : b.ty.wrap (int32.wrap 1) = 1 := by obtain h | h := ht <;> rw [h] <;> decide
  have hlit : (intLit 1).bits = int32.wrap 1 := rfl
  rw [CVal.and, CVal.bitwise, CVal.ofBits_ty, hcommon, b.canonical, hlit, hone]

theorem toNat_and_one (x : BitVec 64) : (x &&& 1).toNat < 2 := by
  have hone : (1 : BitVec 64).toNat = 1 := rfl
  rw [BitVec.toNat_and, hone, Nat.and_one_is_mod]
  omega

theorem word_add_and_one {x y : BitVec 64} {w : BitVec 32}
    (hx : word x <<< 16 = (w >>> 16) <<< 16) (hy : word y &&& 1#32 = (w >>> 15) &&& 1#32) :
    word (x + (y &&& 1)) <<< 16 = highHalf w <<< 16 := by
  have hand : word (y &&& 1) = (w >>> 15) &&& 1#32 := by
    rw [word, BitVec.setWidth_and]
    exact hy
  have hsum : word (x + (y &&& 1)) = word x + word (y &&& 1) := BitVec.setWidth_add _ _ (by decide)
  have hhigh : highHalf w = (w >>> 16) + ((w >>> 15) &&& 1#32) := rfl
  rw [hsum, hand, hhigh, BitVec.shiftLeft_add_distrib, BitVec.shiftLeft_add_distrib, hx]

/-- `HI16(x)` is the high half of the word, in the bits that an instruction has room for. -/
theorem IsWord.high (h : IsWord v w) :
    ∃ a b s, v.shr (intLit 16) = some a ∧ v.shr (intLit 15) = some b ∧
      a.add (b.and (intLit 1)) = some s ∧ word s.bits <<< 16 = highHalf w <<< 16 := by
  obtain ⟨a, ha, hcasea⟩ := h.shr (show 16 < 32 by decide)
  obtain ⟨b, hb, hcaseb⟩ := h.shr (show 15 < 32 by decide)
  obtain ⟨hv, hta, hwa⟩ | ⟨hv, hta, hwa⟩ := hcasea
  · obtain ⟨-, htb, hwb⟩ : v.ty = int32 ∧ b.ty = int32 ∧ _ :=
      hcaseb.resolve_right fun h => by rw [hv] at h; cases h.1
    -- the shifted `int` is small, so that the sum is an `int`
    have hbits : a.bits = (w.sshiftRight 16).signExtend 64 := by
      rw [← a.canonical, hta, wrap_int32_eq, hwa]
    have hint : a.bits.toInt = w.toInt / 2 ^ 16 := by
      rw [hbits, BitVec.toInt_signExtend_of_le (by decide), BitVec.toInt_sshiftRight,
        Int.shiftRight_eq_div_pow]
      rfl
    have hlow := BitVec.le_toInt w
    have hhigh := BitVec.toInt_lt (x := w)
    have hopa : IsOperand a a.bits := ⟨rfl, .inr ⟨hta, by omega, by omega⟩⟩
    have hone := toNat_and_one b.bits
    have hinto : (b.bits &&& 1).toInt = (b.bits &&& 1).toNat :=
      BitVec.toInt_eq_toNat_of_lt (by omega)
    have hopb : IsOperand (b.and (intLit 1)) (b.bits &&& 1) := by
      rw [and_one_eq (.inl htb), htb]
      exact IsOperand.int_of_small (by omega) (by omega)
    obtain ⟨s, hs, hsbits, -⟩ := hopa.add hopb
    refine ⟨a, b, s, ha, hb, hs, ?_⟩
    rw [hsbits]
    exact word_add_and_one (by rw [hwa, sshiftRight_shiftLeft])
      (by rw [hwb, sshiftRight_and_one])
  · obtain ⟨-, htb, hwb⟩ : v.ty = uint32 ∧ b.ty = uint32 ∧ _ :=
      hcaseb.resolve_left fun h => by rw [hv] at h; cases h.1
    have hcommon : common a.ty (b.and (intLit 1)).ty = uint32 := by
      rw [and_one_eq (.inr htb), CVal.ofBits_ty, hta, htb]
      rfl
    refine ⟨a, b, _, ha, hb, CVal.add_of_unsigned (by rw [hcommon]; rfl), ?_⟩
    have hsmall : uint32.wrap (b.bits &&& 1) = b.bits &&& 1 := by
      have hone := toNat_and_one b.bits
      apply BitVec.eq_of_toNat_eq
      simp only [wrap, BitVec.toNat_setWidth]
      omega
    rw [hcommon, CVal.ofBits_bits, word_wrap_uint32, and_one_eq (.inr htb), htb,
      CVal.ofBits_bits, hsmall]
    exact word_add_and_one (by rw [hwa]) (by rw [hwb])

theorem setWidth_16_wrap {t : CType} (ht : t = int32 ∨ t = uint32) (x : BitVec 64) :
    (t.wrap x).setWidth 16 = x.setWidth 16 := by
  have hword : word (t.wrap x) = word x := by
    obtain rfl | rfl := ht
    · exact word_wrap_int32 x
    · exact word_wrap_uint32 x
  have hsplit : ∀ y : BitVec 64, y.setWidth 16 = (word y).setWidth 16 := fun y =>
    (BitVec.setWidth_setWidth_of_le y (by decide)).symm
  rw [hsplit, hword, ← hsplit]

/-- `LO16(x)` has the low bits of the word. -/
theorem IsWord.low (h : IsWord v w) : (v.and (intLit 0xFFFF)).bits.setWidth 16 = w.setWidth 16 := by
  have hcommon : common v.ty int32 = v.ty := by obtain h | h := h.type <;> rw [h] <;> rfl
  have hmask : (v.ty.wrap (int32.wrap 0xFFFF)).setWidth 16 = BitVec.allOnes 16 := by
    rw [setWidth_16_wrap h.type]
    decide
  have hlit : (intLit 0xFFFF).bits = int32.wrap 0xFFFF := rfl
  have hbits : (v.and (intLit 0xFFFF)).bits =
      v.ty.wrap (v.ty.wrap v.bits &&& v.ty.wrap (int32.wrap 0xFFFF)) := by
    rw [CVal.and, CVal.bitwise, CVal.ofBits_bits, CVal.ofBits_ty, hcommon, hlit]
  have hword : v.bits.setWidth 16 = w.setWidth 16 := by
    rw [← h.bits]
    exact (BitVec.setWidth_setWidth_of_le v.bits (by decide)).symm
  rw [hbits, setWidth_16_wrap h.type, BitVec.setWidth_and, hmask, BitVec.and_allOnes,
    setWidth_16_wrap h.type, hword]

end Halves

theorem ofWord_signExtend (imm : BitVec 16) :
    ofWord (imm.signExtend 32) = imm.signExtend 64 := by
  have hint : (imm.signExtend 32).toInt = imm.toInt := BitVec.toInt_signExtend_of_le (by decide)
  rw [ofWord, BitVec.signExtend, hint, BitVec.signExtend]

/-! ### The printed pair -/

section Printed

/-- `S32(RELOC_HI16(section, offset) << 16)`. -/
def relocLuiText (ctx : InstructionContext) : CExpr :=
  unaryAffixes .lui (.binary .add (.binary .shr (relocAddress ctx) (literal 16))
    (.binary .and (.binary .shr (relocAddress ctx) (literal 15)) (literal 1)))

/-- `(int16_t)RELOC_LO16(section, offset)`. -/
def relocLowText (ctx : InstructionContext) : CExpr :=
  .cast int16 (.binary .and (relocAddress ctx) (literal 0xFFFF))

theorem getOperand_relocLui (h : ctx.relocType = .hi16) :
    getOperand .immU16 .lui ctx = .ok (relocLuiText ctx) := by
  simp only [getOperand, operandText, unsignedReloc, h, ne_eq, reduceCtorEq, not_false_eq_true,
    if_true]
  rfl

theorem getOperand_relocLow (h : ctx.relocType = .lo16) :
    getOperand .immS16 .none ctx = .ok (relocLowText ctx) := by
  simp only [getOperand, operandText, signedReloc, unsignedReloc, h, ne_eq, reduceCtorEq,
    not_false_eq_true, if_true]
  rfl

theorem yields_relocLui
    (hrange : relocInRange (relocBase m ctx) ctx.relocTargetSectionOffset = true) :
    Yields m (relocLuiText ctx)
      (ofWord (highHalf (relocBase m ctx + ctx.relocTargetSectionOffset) <<< 16)) := by
  obtain ⟨v, hv, hword⟩ := eval_relocAddress hrange
  obtain ⟨a, b, s, ha, hb, hs, hbits⟩ := hword.high
  have hlit : ∀ n, (literal n).eval m.env = some (intLit n) := eval_literal m
  have h16 : (intLit 16).bits.toNat = 16 := by decide
  have hshl := CVal.shl_eq (a := s.convert uint32) (b := intLit 16) (by decide)
    (show (intLit 16).bits.toNat < 32 by decide)
  rw [h16] at hshl
  refine ⟨(CVal.ofBits uint32 (uint32.wrap s.bits <<< 16)).convert int32, ?_, ?_⟩
  · simp only [relocLuiText, unaryAffixes, Expr.eval_binary, Expr.eval_call₁, hv, hlit, BinOp.apply,
      Option.bind_some, ha, hb, hs, Machine.env_call, Callee.apply_one, Callee.apply₁, hshl]
    rfl
  · rw [CVal.convert, CVal.ofBits_bits, CVal.ofBits_bits, wrap_int32_eq, word_wrap_uint32,
      word_shiftLeft, word_wrap_uint32, hbits]

theorem yields_relocLow
    (hrange : relocInRange (relocBase m ctx) ctx.relocTargetSectionOffset = true) :
    Yields m (relocLowText ctx)
      (ofWord (signedImmediateOf (relocBase m ctx + ctx.relocTargetSectionOffset))) := by
  obtain ⟨v, hv, hword⟩ := eval_relocAddress hrange
  refine ⟨(v.and (intLit 0xFFFF)).convert int16, ?_, ?_⟩
  · simp only [relocLowText, Expr.eval_cast, Expr.eval_binary, hv, eval_literal, BinOp.apply,
      Option.bind_some, Option.map_some]
  · rw [CVal.convert, CVal.ofBits_bits, wrap, hword.low, signedImmediateOf, ofWord_signExtend]

/-- Out of range neither half has a value. -/
theorem not_yields_reloc
    (hrange : relocInRange (relocBase m ctx) ctx.relocTargetSectionOffset = false)
    (x : BitVec 64) : ¬ Yields m (relocLuiText ctx) x ∧ ¬ Yields m (relocLowText ctx) x := by
  have hnone := eval_relocAddress_none hrange
  constructor
  · rintro ⟨v, hv, -⟩
    simp [relocLuiText, unaryAffixes, hnone] at hv
  · rintro ⟨v, hv, -⟩
    simp [relocLowText, hnone] at hv

end Printed

end N64Recomp
