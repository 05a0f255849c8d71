import N64Recomp.CGenerator.Values

/-!
# The values of the printed expressions

The value of every shape of expression that the decode tables print, when its operands hold given
64-bit values. A statement assigns to 64-bit objects, so that only the image of a value matters.

## Main definitions

* `Holds`, `Yields`, `Counts`: the expression is an operand, has an image, is a shift count

## Main results

* `yields_add32`, `yields_sll64`, `yields_cond`, ...: one for each shape
* `yields_load`, `exec_store`: the loads and the stores
-/

namespace N64Recomp

open CLang CLang.CType Mips CGenerator

section Yields

variable (m : Machine)

/-- The expression is an operand that holds `x`. -/
def Holds (e : CExpr) (x : BitVec 64) : Prop := ∃ v, e.eval m.env = some v ∧ IsOperand v x

/-- The expression has a value with the image `x`. -/
def Yields (e : CExpr) (x : BitVec 64) : Prop := ∃ v, e.eval m.env = some v ∧ v.bits = x

/-- The expression is a shift count of `n`. -/
def Counts (e : CExpr) (n : Nat) : Prop :=
  ∃ v, e.eval m.env = some v ∧ v.ty.promote.wrap v.bits = v.bits ∧ v.bits.toNat = n

variable {m} {a b : CExpr} {x y : BitVec 64}

theorem Holds.yields (h : Holds m a x) : Yields m a x := by
  obtain ⟨v, hv, hx⟩ := h
  exact ⟨v, hv, hx.bits⟩

theorem holds_gpr (r : Fin 32) : Holds m (gprToString r) (m.toMips.gpr r) :=
  isOperand_gprToString m r

theorem yields_add32 (ha : Holds m a x) (hb : Holds m b y) :
    Yields m (.call₂ .add32 a b) (ofWord (word x + word y)) := by
  obtain ⟨va, hva, hxa⟩ := ha
  obtain ⟨vb, hvb, hxb⟩ := hb
  obtain ⟨s, hs, hbits, -⟩ := hxa.add hxb
  refine ⟨(s.convert int32).convert uint64, ?_, ?_⟩
  · simp [hva, hvb, hs]
  · rw [CVal.convert_bits_uint64, CVal.convert, CVal.ofBits_bits, hbits, wrap_int32_eq, word,
      BitVec.setWidth_add _ _ (by decide)]

theorem yields_sub32 (ha : Holds m a x) (hb : Holds m b y) :
    Yields m (.call₂ .sub32 a b) (ofWord (word x - word y)) := by
  obtain ⟨va, hva, hxa⟩ := ha
  obtain ⟨vb, hvb, hxb⟩ := hb
  obtain ⟨s, hs, hbits, -⟩ := hxa.sub hxb
  refine ⟨(s.convert int32).convert uint64, ?_, ?_⟩
  · simp [hva, hvb, hs]
  · rw [CVal.convert_bits_uint64, CVal.convert, CVal.ofBits_bits, hbits, wrap_int32_eq, word,
      BitVec.sub_eq_add_neg, BitVec.setWidth_add _ _ (by decide),
      BitVec.setWidth_neg_of_le (by decide), ← BitVec.sub_eq_add_neg]

theorem yields_add (ha : Holds m a x) (hb : Holds m b y) :
    Yields m (.binary .add a b) (x + y) := by
  obtain ⟨va, hva, hxa⟩ := ha
  obtain ⟨vb, hvb, hxb⟩ := hb
  obtain ⟨s, hs, hbits, -⟩ := hxa.add hxb
  exact ⟨s, by simp [hva, hvb, hs], hbits⟩

theorem yields_sub (ha : Holds m a x) (hb : Holds m b y) :
    Yields m (.binary .sub a b) (x - y) := by
  obtain ⟨va, hva, hxa⟩ := ha
  obtain ⟨vb, hvb, hxb⟩ := hb
  obtain ⟨s, hs, hbits, -⟩ := hxa.sub hxb
  exact ⟨s, by simp [hva, hvb, hs], hbits⟩

theorem yields_and (ha : Holds m a x) (hb : Holds m b y) :
    Yields m (.binary .and a b) (x &&& y) := by
  obtain ⟨va, hva, hxa⟩ := ha
  obtain ⟨vb, hvb, hxb⟩ := hb
  exact ⟨va.and vb, by simp [hva, hvb], hxa.and hxb⟩

theorem yields_or (ha : Holds m a x) (hb : Holds m b y) :
    Yields m (.binary .or a b) (x ||| y) := by
  obtain ⟨va, hva, hxa⟩ := ha
  obtain ⟨vb, hvb, hxb⟩ := hb
  exact ⟨va.or vb, by simp [hva, hvb], (hxa.or hxb).1⟩

theorem yields_xor (ha : Holds m a x) (hb : Holds m b y) :
    Yields m (.binary .xor a b) (x ^^^ y) := by
  obtain ⟨va, hva, hxa⟩ := ha
  obtain ⟨vb, hvb, hxb⟩ := hb
  exact ⟨va.xor vb, by simp [hva, hvb], hxa.xor hxb⟩

/-- The complement of a value whose type is its own promotion. -/
theorem compl_bits {v : CVal} (h : IsAddress v) : v.compl.bits = ~~~v.bits := by
  obtain ht | ht := h
  · simp [CVal.compl, ht]
  · have hcanon : int32.wrap v.bits = v.bits := ht ▸ v.canonical
    have hnot : int32.wrap (~~~v.bits) = ~~~int32.wrap v.bits := by
      simp only [wrap, BitVec.setWidth_not (by decide : 32 ≤ 64)]
      rw [BitVec.signExtend_not (by decide)]
    simp [CVal.compl, ht, hnot, hcanon]

theorem yields_nor (ha : Holds m a x) (hb : Holds m b y) :
    Yields m (.unary .compl (.binary .or a b)) (~~~(x ||| y)) := by
  obtain ⟨va, hva, hxa⟩ := ha
  obtain ⟨vb, hvb, hxb⟩ := hb
  obtain ⟨hbits, hty⟩ := hxa.or hxb
  refine ⟨(va.or vb).compl, by simp [hva, hvb], ?_⟩
  rw [compl_bits hty, hbits]

/-! ### Shifts -/

theorem counts_literal {n : Nat} (hn : n < 2 ^ 16) : Counts m (literal n) n := by
  have hop := IsOperand.intLit hn
  refine ⟨intLit n, rfl, hop.promote_wrap, ?_⟩
  rw [hop.bits, BitVec.toNat_ofNat, Nat.mod_eq_of_lt (by omega)]

theorem counts_sa32 (sa : Fin 32) :
    Counts m (.binary .add (literal sa.val) (literal 32)) (sa.val + 32) := by
  have hsa := sa.isLt
  obtain ⟨s, hs, hbits, hty⟩ :=
    (IsOperand.intLit (n := sa.val) (by omega)).address (IsOperand.intLit (n := 32) (by decide))
  have hcanon : s.ty.promote.wrap s.bits = s.bits := by
    have hp : s.ty.promote = s.ty := by obtain h | h := hty <;> rw [h] <;> rfl
    rw [hp, s.canonical]
  refine ⟨s, by simp [eval_literal, hs], hcanon, ?_⟩
  rw [hbits, ← BitVec.ofNat_add, BitVec.toNat_ofNat, Nat.mod_eq_of_lt (by omega)]

/-- A shift amount masked to its low bits. -/
theorem counts_mask (ha : Holds m a x) {n : Nat} (hn : n ≤ 6) :
    Counts m (.binary .and a (literal (2 ^ n - 1))) (x.toNat % 2 ^ n) := by
  have hpow : 2 ^ n ≤ 2 ^ 6 := Nat.pow_le_pow_right (by decide) hn
  have hmask := IsOperand.intLit (n := 2 ^ n - 1) (by omega)
  obtain ⟨v, hv, hx⟩ := ha
  have hand := IsOperand.bitwise (f := (· &&& ·))
    (fun x y => by simp only [wrap, BitVec.setWidth_and, BitVec.signExtend_and]) hx hmask
  refine ⟨v.and (intLit (2 ^ n - 1)), ?_, ?_, ?_⟩
  · simp [hv, eval_literal]
  · have hp : (v.and (intLit (2 ^ n - 1))).ty.promote = (v.and (intLit (2 ^ n - 1))).ty := by
      obtain h | h := hand.2 <;> rw [CVal.and, h] <;> rfl
    rw [hp, CVal.canonical]
  · rw [hx.and hmask, and_mask_toNat x (by omega)]

variable {c : CExpr} {n : Nat}

/-- A word shifted left: the shift of the 64-bit operand has the shifted word as its low word. -/
theorem yields_sll32 (ha : Holds m a x) (hc : Counts m c n) (hn : n < 32) :
    Yields m (.call₁ .s32 (.binary .shl a c)) (ShiftOp.sll.eval x n) := by
  obtain ⟨va, hva, hxa⟩ := ha
  obtain ⟨vc, hvc, hcanon, hcount⟩ := hc
  have hwidth : n < va.ty.promote.width := by
    obtain h | ⟨h, -⟩ := hxa.type <;> rw [h] <;> simp [width] <;> omega
  have hshl := CVal.shl_eq (a := va) hcanon (hcount ▸ hwidth)
  rw [hcount] at hshl
  refine ⟨_, by simp [hva, hvc, hshl]; rfl, ?_⟩
  have hword : word (va.ty.promote.wrap (x <<< n)) = word (x <<< n) := by
    obtain h | ⟨h, -⟩ := hxa.type <;> rw [h]
    · rfl
    · exact word_wrap_int32 _
  simp [wrap_int32_eq, hxa.bits, hword, ShiftOp.eval]

theorem yields_srl32 (ha : Holds m a x) (hc : Counts m c n) (hn : n < 32) :
    Yields m (.call₁ .s32 (.binary .shr (.call₁ .u32 a) c)) (ShiftOp.srl.eval x n) := by
  obtain ⟨va, hva, hxa⟩ := ha
  obtain ⟨vc, hvc, hcanon, hcount⟩ := hc
  have hshr := CVal.shr_eq_of_unsigned (a := va.convert uint32) rfl hcanon (hcount ▸ hn)
  rw [hcount] at hshr
  refine ⟨_, by simp [hva, hvc, hshr]; rfl, ?_⟩
  simp [CVal.convert, hxa.bits, wrap_int32_eq, word_wrap_ushiftRight, ShiftOp.eval]

theorem yields_sra32 (ha : Holds m a x) (hc : Counts m c n) (hn : n < 64) :
    Yields m (.call₁ .s32 (.binary .shr (.call₁ .signed a) c)) (ShiftOp.sra.eval x n) := by
  obtain ⟨va, hva, hxa⟩ := ha
  obtain ⟨vc, hvc, hcanon, hcount⟩ := hc
  have hshr := CVal.shr_eq_of_signed (a := va.convert int64) rfl hcanon (hcount ▸ hn)
  rw [hcount] at hshr
  refine ⟨_, by simp [hva, hvc, hshr]; rfl, ?_⟩
  simp [CVal.convert, hxa.bits, wrap_int32_eq, ShiftOp.eval]

theorem yields_sra64 (ha : Holds m a x) (hc : Counts m c n) (hn : n < 64) :
    Yields m (.binary .shr (.call₁ .signed a) c) (ShiftOp.dsra.eval x n) := by
  obtain ⟨va, hva, hxa⟩ := ha
  obtain ⟨vc, hvc, hcanon, hcount⟩ := hc
  have hshr := CVal.shr_eq_of_signed (a := va.convert int64) rfl hcanon (hcount ▸ hn)
  rw [hcount] at hshr
  refine ⟨_, by simp [hva, hvc, hshr]; rfl, ?_⟩
  simp [CVal.convert, hxa.bits, ShiftOp.eval]

/-- The doubleword shifts have no cast: on the literal `0` they are shifts of an `int`. -/
theorem yields_sll64 {r : Fin 32} (hc : Counts m c n) (hn : n < 64) (hr : r = 0 → n < 32) :
    Yields m (.binary .shl (gprToString r) c) (ShiftOp.dsll.eval (m.toMips.gpr r) n) := by
  obtain ⟨va, hva, hxa⟩ := holds_gpr (m := m) r
  obtain ⟨vc, hvc, hcanon, hcount⟩ := hc
  by_cases hzero : r = 0
  · subst hzero
    obtain rfl : intLit 0 = va := Option.some.inj hva
    have hshl := CVal.shl_eq (a := intLit 0) hcanon (hcount ▸ hr rfl)
    rw [hcount] at hshl
    refine ⟨_, by simp [hva, hvc, hshl]; rfl, ?_⟩
    simp [m.toMips.gpr_zero, ShiftOp.eval, wrap]
  · obtain rfl : gpr _ = va := Option.some.inj ((eval_gprToString m hzero).symm.trans hva)
    have hshl := CVal.shl_eq (a := gpr (m.toMips.gpr r)) hcanon (hcount ▸ hn)
    rw [hcount] at hshl
    exact ⟨_, by simp [hva, hvc, hshl]; rfl, by simp [ShiftOp.eval]⟩

theorem yields_srl64 {r : Fin 32} (hc : Counts m c n) (hn : n < 64) (hr : r = 0 → n < 32) :
    Yields m (.binary .shr (gprToString r) c) (ShiftOp.dsrl.eval (m.toMips.gpr r) n) := by
  obtain ⟨va, hva, hxa⟩ := holds_gpr (m := m) r
  obtain ⟨vc, hvc, hcanon, hcount⟩ := hc
  by_cases hzero : r = 0
  · subst hzero
    obtain rfl : intLit 0 = va := Option.some.inj hva
    have hshr := CVal.shr_eq_of_signed (a := intLit 0) rfl hcanon (hcount ▸ hr rfl)
    rw [hcount] at hshr
    refine ⟨_, by simp [hva, hvc, hshr]; rfl, ?_⟩
    simp [m.toMips.gpr_zero, ShiftOp.eval, wrap]
  · obtain rfl : gpr _ = va := Option.some.inj ((eval_gprToString m hzero).symm.trans hva)
    have hshr := CVal.shr_eq_of_unsigned (a := gpr (m.toMips.gpr r)) rfl hcanon (hcount ▸ hn)
    rw [hcount] at hshr
    exact ⟨_, by simp [hva, hvc, hshr]; rfl, by simp [ShiftOp.eval]⟩

/-- `S32(U32(imm) << 16)`. -/
theorem yields_lui (imm : BitVec 16) :
    Yields m (unaryAffixes .lui (literal imm.toNat)) (ofWord (imm.setWidth 32 <<< 16)) := by
  obtain ⟨v, hv, hx⟩ := isOperand_immU16 m imm
  obtain ⟨vc, hvc, hcanon, hcount⟩ := counts_literal (m := m) (n := 16) (by decide)
  have hshl := CVal.shl_eq (a := v.convert uint32) hcanon
    (show vc.bits.toNat < 32 by rw [hcount]; decide)
  rw [hcount] at hshl
  have hword : word (imm.setWidth 64) = imm.setWidth 32 := by
    apply BitVec.eq_of_toNat_eq
    have hlt := imm.isLt
    rw [BitVec.toNat_setWidth, BitVec.toNat_setWidth, BitVec.toNat_setWidth]
    omega
  refine ⟨_, by simp [unaryAffixes, hv, hvc, hshl]; rfl, ?_⟩
  simp [CVal.convert, hx.bits, wrap_int32_eq, hword]

/-! ### Comparisons -/

/-- The printed form of a comparison's result. -/
theorem yields_cond {e : CExpr} {p : Bool} (h : e.eval m.env = some (CVal.ofBool p)) :
    Yields m (.cond e (literal 1) (literal 0)) (Mips.ofBool p) := by
  cases p
  · exact ⟨intLit 0, by simp [h, eval_literal], by decide⟩
  · exact ⟨intLit 1, by simp [h, eval_literal], by decide⟩

theorem eval_lt_signed (ha : Holds m a x) (hb : Holds m b y) :
    (Expr.binary .lt (.call₁ .signed a) (.call₁ .signed b)).eval m.env =
      some (CVal.ofBool (x.slt y)) := by
  obtain ⟨va, hva, hxa⟩ := ha
  obtain ⟨vb, hvb, hxb⟩ := hb
  simp [hva, hvb, CVal.convert, hxa.bits, hxb.bits,
    lt_int64]

/-- A `SIGNED` operand against an `int`. -/
theorem eval_lt_signed_int (ha : Holds m a x) {v : CVal} (hb : b.eval m.env = some v)
    (hv : v = CVal.ofBits int32 y) (hy : int32.wrap y = y) :
    (Expr.binary .lt (.call₁ .signed a) b).eval m.env = some (CVal.ofBool (x.slt y)) := by
  obtain ⟨va, hva, hxa⟩ := ha
  simp [hva, hb, hv, CVal.convert, hxa.bits,
    lt_int64_int32 hy]

theorem holds_immS16 (imm : BitVec 16) : Holds m (signedLiteral imm.toInt) (imm.signExtend 64) := by
  obtain ⟨v, hv, hx, -⟩ := isOperand_immS16 m imm
  exact ⟨v, hv, hx⟩

theorem holds_immU16 (imm : BitVec 16) : Holds m (literal imm.toNat) (imm.setWidth 64) :=
  isOperand_immU16 m imm

theorem wrap_int32_imm (imm : BitVec 16) : int32.wrap (imm.signExtend 64) = imm.signExtend 64 := by
  have hl : -(2 ^ 15) ≤ imm.toInt := BitVec.le_toInt imm
  have hu : imm.toInt < 2 ^ 15 := BitVec.toInt_lt
  exact wrap_int32_ofInt (by omega) (by omega)

theorem eval_sltu (r q : Fin 32) :
    (Expr.binary .lt (gprToString r) (gprToString q)).eval m.env =
      some (CVal.ofBool ((m.toMips.gpr r).ult (m.toMips.gpr q))) := by
  obtain ⟨va, hva, hxa⟩ := holds_gpr (m := m) r
  obtain ⟨vb, hvb, hxb⟩ := holds_gpr (m := m) q
  have hlt : va.lt vb = CVal.ofBool ((m.toMips.gpr r).ult (m.toMips.gpr q)) := by
    obtain rfl | ⟨rfl, -⟩ := hxa.cases
    · exact hxa.lt_unsigned hxb (.inl rfl)
    obtain rfl | ⟨rfl, -⟩ := hxb.cases
    · exact hxa.lt_unsigned hxb (.inr rfl)
    -- two literals: both registers are `$zero`
    have hzero : ∀ s : Fin 32, ∀ v, (gprToString s).eval m.env = some v → v.ty = int32 → s = 0 := by
      intro s v hv hty
      refine Decidable.byContradiction fun hs => ?_
      obtain rfl := Option.some.inj ((eval_gprToString m hs).symm.trans hv)
      cases hty
    rw [hzero r _ hva rfl, hzero q _ hvb rfl, m.toMips.gpr_zero]
    rfl
  simp [hva, hvb, hlt]

/-- Against a non-negative value zero compares the same signed and unsigned. -/
theorem zero_slt_eq_ult {y : BitVec 64} (hy : 0 ≤ y.toInt) :
    (0 : BitVec 64).slt y = (0 : BitVec 64).ult y := by
  have hint : y.toInt = y.toNat := by
    rw [BitVec.toInt_eq_toNat_cond] at hy ⊢
    split at hy <;> split <;> omega
  have hzero : (0 : BitVec 64).toInt = ((0 : BitVec 64).toNat : Int) := rfl
  rw [BitVec.slt_eq_decide, BitVec.ult_eq_decide, hint, hzero]
  simp only [Int.ofNat_lt]

theorem eval_sltiu {r : Fin 32} {imm : BitVec 16} (h : r = 0 → 0 ≤ imm.toInt) :
    (Expr.binary .lt (gprToString r) (signedLiteral imm.toInt)).eval m.env =
      some (CVal.ofBool ((m.toMips.gpr r).ult (imm.signExtend 64))) := by
  obtain ⟨va, hva, hxa⟩ := holds_gpr (m := m) r
  obtain ⟨vb, hvb, hxb, rfl⟩ := isOperand_immS16 m imm
  have hlt : va.lt (CVal.ofBits int32 (imm.signExtend 64)) =
      CVal.ofBool ((m.toMips.gpr r).ult (imm.signExtend 64)) := by
    by_cases hr : r = 0
    · subst hr
      obtain rfl : intLit 0 = va := Option.some.inj hva
      have hint : 0 ≤ (imm.signExtend 64).toInt := by
        rw [BitVec.toInt_signExtend_of_le (by decide)]
        exact h rfl
      rw [m.toMips.gpr_zero, ← zero_slt_eq_ult hint]
      simp [CVal.lt, wrap_int32_imm]
      rfl
    · obtain rfl : gpr _ = va := Option.some.inj ((eval_gprToString m hr).symm.trans hva)
      exact hxa.lt_unsigned hxb (.inl rfl)
  simp [hva, hvb, hlt]

theorem eval_eq (ha : Holds m a x) (hb : Holds m b y) :
    (Expr.binary .eq a b).eval m.env = some (CVal.ofBool (x == y)) := by
  obtain ⟨va, hva, hxa⟩ := ha
  obtain ⟨vb, hvb, hxb⟩ := hb
  simp [hva, hvb, hxa.eq hxb]

theorem eval_ne (ha : Holds m a x) (hb : Holds m b y) :
    (Expr.binary .ne a b).eval m.env = some (CVal.ofBool (x != y)) := by
  obtain ⟨va, hva, hxa⟩ := ha
  obtain ⟨vb, hvb, hxb⟩ := hb
  simp only [Expr.eval_binary, hva, hvb, BinOp.apply, hxa.eq hxb, CVal.lnot, truthy_ofBool,
    Option.bind_some]
  rfl

/-- A comparison of a `SIGNED` operand with a plain zero. -/
theorem eval_signed_zero (ha : Holds m a x) :
    (Expr.binary .ge (.call₁ .signed a) (literal 0)).eval m.env =
        some (CVal.ofBool ((0 : BitVec 64).sle x)) ∧
      (Expr.binary .gt (.call₁ .signed a) (literal 0)).eval m.env =
        some (CVal.ofBool ((0 : BitVec 64).slt x)) ∧
      (Expr.binary .le (.call₁ .signed a) (literal 0)).eval m.env =
        some (CVal.ofBool (x.sle 0)) ∧
      (Expr.binary .lt (.call₁ .signed a) (literal 0)).eval m.env =
        some (CVal.ofBool (x.slt 0)) := by
  obtain ⟨va, hva, hxa⟩ := ha
  have hzero : int32.wrap (0 : BitVec 64) = 0 := by decide
  simp only [Expr.eval_lit, Expr.eval_binary, Expr.eval_call₁, hva, literal, Machine.env_call,
    Callee.apply_one, Callee.apply₁, BinOp.apply, CVal.convert, hxa.bits, Option.bind_some,
    Option.some.injEq]
  exact ⟨le_int32_int64 hzero, lt_int32_int64 hzero, le_int64_int32 hzero, lt_int64_int32 hzero⟩

/-- The condition signal, as a value and negated. -/
theorem eval_c1cs :
    ∃ v, (Expr.var Object.c1cs : CExpr).eval m.env = some v ∧
      v.truthy = m.toMips.fpCondition ∧
      (Expr.unary .lnot (.var Object.c1cs) : CExpr).eval m.env =
        some (CVal.ofBool (!m.toMips.fpCondition)) := by
  have hiff : int32.wrap (m.c1cs.setWidth 64) = 0 ↔ m.c1cs = 0 := by
    constructor
    · intro h
      have hword := congrArg word h
      rwa [word_wrap_int32, word_setWidth_64] at hword
    · intro h
      rw [h]
      decide
  have htruthy : (CVal.ofBits int32 (m.c1cs.setWidth 64)).truthy = m.toMips.fpCondition :=
    decide_eq_decide.mpr (not_congr hiff)
  refine ⟨_, rfl, htruthy, ?_⟩
  simp [CVal.lnot, htruthy]

/-! ### Loads -/

section Loads

/-- The two operands of an address. -/
theorem exists_address (ha : Holds m a x) (hb : Holds m b y) :
    ∃ va vb s, a.eval m.env = some va ∧ b.eval m.env = some vb ∧ va.bits = x ∧ vb.bits = y ∧
      vb.add va = some s ∧ s.bits = x + y ∧ IsAddress s := by
  obtain ⟨va, hva, hxa⟩ := ha
  obtain ⟨vb, hvb, hxb⟩ := hb
  obtain ⟨s, hs, hbits, hty⟩ := hxb.address hxa
  exact ⟨va, vb, s, hva, hvb, hxa.bits, hxb.bits, hs, by rw [hbits, BitVec.add_comm], hty⟩

theorem wrap_int16_setWidth (z : BitVec 16) : int16.wrap (z.setWidth 64) = z.signExtend 64 :=
  congrArg (BitVec.signExtend 64) (setWidth_setWidth_64 (by decide) z)

theorem wrap_uint16_setWidth (z : BitVec 16) : uint16.wrap (z.setWidth 64) = z.setWidth 64 :=
  congrArg (BitVec.setWidth 64) (setWidth_setWidth_64 (by decide) z)

theorem wrap_int8_setWidth (z : BitVec 8) : int8.wrap (z.setWidth 64) = z.signExtend 64 :=
  congrArg (BitVec.signExtend 64) (setWidth_setWidth_64 (by decide) z)

theorem wrap_uint8_setWidth (z : BitVec 8) : uint8.wrap (z.setWidth 64) = z.setWidth 64 :=
  congrArg (BitVec.setWidth 64) (setWidth_setWidth_64 (by decide) z)

theorem wrap_int32_setWidth (z : BitVec 32) : int32.wrap (z.setWidth 64) = z.signExtend 64 :=
  congrArg (BitVec.signExtend 64) (setWidth_setWidth_64 (by decide) z)

theorem wrap_uint32_setWidth (z : BitVec 32) : uint32.wrap (z.setWidth 64) = z.setWidth 64 :=
  congrArg (BitVec.setWidth 64) (setWidth_setWidth_64 (by decide) z)

/-- The macro or helper that an instruction loads with. -/
def loadCallee : LoadOp → Callee
  | .lb => .memB
  | .lbu => .memBU
  | .lh => .memH
  | .lhu => .memHU
  | .lw => .memW
  | .lwu => .memWU
  | .ld => .ld
  | .lwl => .doLwl
  | .lwr => .doLwr
  | .ldl => .doLdl
  | .ldr => .doLdr

/-- Whether the load also takes the old value of its destination. -/
def loadTakesOutput : LoadOp → Bool
  | .lwl | .lwr | .ldl | .ldr => true
  | _ => false

theorem yields_load {op : LoadOp} (hop : loadTakesOutput op = false) (ha : Holds m a x)
    (hb : Holds m b y) (hal : (x + y).toNat % op.alignment = 0) (k : Nat) (z : BitVec 64) :
    Yields m (.call₂ (loadCallee op) a b) (op.eval m.toMips.mem (window (x + y)) k z) := by
  obtain ⟨va, vb, s, hva, hvb, hx, hy, hs, hbits, hty⟩ := exists_address ha hb
  simp only [Yields, Expr.eval_call₂, hva, hvb, Option.bind_some, Machine.env_call]
  cases op <;> simp only [loadTakesOutput, reduceCtorEq, LoadOp.alignment] at hop hal
  case lb =>
    exact ⟨_, memBOffset_load m.rdram int8 rfl hs hty, hbits ▸ wrap_int8_setWidth _⟩
  case lbu =>
    exact ⟨_, memBOffset_load m.rdram uint8 rfl hs hty, hbits ▸ wrap_uint8_setWidth _⟩
  case lh =>
    exact ⟨_, memHOffset_load m.rdram int16 rfl hs hty (hbits ▸ hal),
      hbits ▸ wrap_int16_setWidth _⟩
  case lhu =>
    exact ⟨_, memHOffset_load m.rdram uint16 rfl hs hty (hbits ▸ hal),
      hbits ▸ wrap_uint16_setWidth _⟩
  case lw =>
    exact ⟨_, memW_eq m.rdram hs (hbits ▸ hal), hbits ▸ wrap_int32_setWidth _⟩
  case lwu =>
    exact ⟨_, memWOffset_load m.rdram uint32 rfl hs (hbits ▸ hal), hbits ▸ wrap_uint32_setWidth _⟩
  case ld => exact ⟨_, loadDoubleword_eq m.rdram (by rw [hx, hy]) hal, rfl⟩

theorem yields_loadUnaligned {op : LoadOp} (hop : loadTakesOutput op = true) {out : CExpr}
    {z : BitVec 64} (hout : Holds m out z) (ha : Holds m a x) (hb : Holds m b y) :
    Yields m (.call₃ (loadCallee op) out a b)
      (op.eval m.toMips.mem (window (x + y)) ((x + y).toNat % 8) z) := by
  obtain ⟨vo, hvo, hz⟩ := hout
  obtain ⟨va, hva, hxa⟩ := ha
  obtain ⟨vb, hvb, hxb⟩ := hb
  have hsum : va.bits + vb.bits = x + y := by rw [hxa.bits, hxb.bits]
  simp only [Yields, Expr.eval_call₃, hvo, hva, hvb, Option.bind_some, Machine.env_call, ← hz.bits]
  cases op <;> simp only [loadTakesOutput, reduceCtorEq] at hop
  case lwl => exact doLwl_eq m.rdram vo hsum
  case lwr => exact doLwr_eq m.rdram vo hsum
  case ldl => exact doLdl_eq m.rdram vo hsum
  case ldr => exact doLdr_eq m.rdram vo hsum

end Loads

/-! ### Stores -/

section Stores

variable {value : CExpr} {z : BitVec 64}

/-- A statement that replaces the memory. -/
theorem toMips_withRdram {rdram' : Rdram} {mem : Memory 30} (h : rdram'.guest = mem) :
    { m with rdram := rdram' }.toMips = { m.toMips with mem } := by
  subst h
  rfl

theorem exec_assignMem {type : StoreOpType} {op : Mips.StoreOp}
    (hop : (type, op) ∈ [(StoreOpType.sw, Mips.StoreOp.sw), (.sh, .sh), (.sb, .sb)])
    (hb : Holds m b x) (ha : Holds m a y) (hv : Holds m value z)
    (hal : (x + y).toNat % op.alignment = 0) (k : Nat) :
    ∃ m', (CStatement.assignMem type a b value).exec m = some m' ∧
      m'.toMips = { m.toMips with mem := op.eval m.toMips.mem (window (x + y)) k z } := by
  obtain ⟨va, hva, hxa⟩ := ha
  obtain ⟨vb, hvb, hxb⟩ := hb
  obtain ⟨vv, hvv, hz⟩ := hv
  obtain ⟨s, hs, hbits, hty⟩ := hxb.address hxa
  simp only [CStatement.exec, hva, hvb, hvv, Option.bind_eq_bind, Option.bind_some]
  simp only [List.mem_cons, Prod.mk.injEq, List.not_mem_nil, or_false] at hop
  obtain ⟨rfl, rfl⟩ | ⟨rfl, rfl⟩ | ⟨rfl, rfl⟩ := hop
  · obtain ⟨rdram', hstore, hguest⟩ := setMemW_eq m.rdram hs (hbits ▸ hal) vv
    refine ⟨{ m with rdram := rdram' }, by simp [assignMem, hstore], toMips_withRdram ?_⟩
    rw [hguest, hbits, hz.bits]
    rfl
  · obtain ⟨rdram', hstore, hguest⟩ := setMemH_eq m.rdram hs hty (hbits ▸ hal) vv
    refine ⟨{ m with rdram := rdram' }, by simp [assignMem, hstore], toMips_withRdram ?_⟩
    rw [hguest, hbits, hz.bits]
    rfl
  · obtain ⟨rdram', hstore, hguest⟩ := setMemB_eq m.rdram hs hty vv
    refine ⟨{ m with rdram := rdram' }, by simp [assignMem, hstore], toMips_withRdram ?_⟩
    rw [hguest, hbits, hz.bits]
    rfl

theorem exec_sd (hb : Holds m b x) (ha : Holds m a y) (hv : Holds m value z)
    (hal : (x + y).toNat % 8 = 0) (k : Nat) :
    ∃ m', (CStatement.sd value a b).exec m = some m' ∧
      m'.toMips = { m.toMips with mem := StoreOp.eval m.toMips.mem (window (x + y)) k z .sd } := by
  obtain ⟨va, hva, hxa⟩ := ha
  obtain ⟨vb, hvb, hxb⟩ := hb
  obtain ⟨vv, hvv, hz⟩ := hv
  obtain ⟨rdram', hstore, hguest⟩ := sd_eq m.rdram hxb hxa hal vv
  refine ⟨{ m with rdram := rdram' }, ?_, toMips_withRdram ?_⟩
  · simp [CStatement.exec, hva, hvb, hvv, hstore]
  · rw [hguest, hz.bits]
    rfl

theorem exec_callStore {type : StoreOpType} {op : Mips.StoreOp}
    (hop : (type, op) ∈ [(StoreOpType.swl, Mips.StoreOp.swl), (.swr, .swr), (.sdl, .sdl),
      (.sdr, .sdr)])
    (hb : Holds m b x) (ha : Holds m a y) (hv : Holds m value z) :
    ∃ m', (CStatement.call type a b value).exec m = some m' ∧
      m'.toMips = { m.toMips with
        mem := op.eval m.toMips.mem (window (x + y)) ((x + y).toNat % 8) z } := by
  obtain ⟨va, hva, hxa⟩ := ha
  obtain ⟨vb, hvb, hxb⟩ := hb
  obtain ⟨vv, hvv, hz⟩ := hv
  have hsum : va.bits + vb.bits = x + y := by rw [hxa.bits, hxb.bits, BitVec.add_comm]
  simp only [CStatement.exec, hva, hvb, hvv, Option.bind_eq_bind, Option.bind_some, ← hz.bits]
  simp only [List.mem_cons, Prod.mk.injEq, List.not_mem_nil, or_false] at hop
  obtain ⟨rfl, rfl⟩ | ⟨rfl, rfl⟩ | ⟨rfl, rfl⟩ | ⟨rfl, rfl⟩ := hop
  · obtain ⟨rdram', hstore, hguest⟩ := doSwl_eq m.rdram vv hsum
    exact ⟨{ m with rdram := rdram' }, by simp [callStore, hstore], toMips_withRdram hguest⟩
  · obtain ⟨rdram', hstore, hguest⟩ := doSwr_eq m.rdram vv hsum
    exact ⟨{ m with rdram := rdram' }, by simp [callStore, hstore], toMips_withRdram hguest⟩
  · obtain ⟨rdram', hstore, hguest⟩ := doSdl_eq m.rdram vv hsum
    exact ⟨{ m with rdram := rdram' }, by simp [callStore, hstore], toMips_withRdram hguest⟩
  · obtain ⟨rdram', hstore, hguest⟩ := doSdr_eq m.rdram vv hsum
    exact ⟨{ m with rdram := rdram' }, by simp [callStore, hstore], toMips_withRdram hguest⟩

end Stores

end Yields

end N64Recomp
