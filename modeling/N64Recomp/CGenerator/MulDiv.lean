import N64Recomp.CGenerator.Yields
import N64Recomp.Data.LongProduct
import N64Recomp.Mips.MulDiv

/-!
# The multiplications and divisions in C

The C that is printed for the instructions that write `hi` and `lo`, with the helpers of the runtime
header. The products of 64 bits by 64 bits are computed by a 128-bit type or an intrinsic of the
compiler, or by hand from products of 32-bit limbs.

## Main definitions

* `dmultu`, `dmult`: the helpers for the long products, one of each for a compiler
* `ddiv`, `ddivu`: the helpers for the divisions of doublewords
* `CGenerator.emitMuldiv`, `execMulDiv`: the printed text, and what it does

## Main results

* `dmultuLimbs_eq`, `dmultLimbs_eq`: the products by hand are the products
* `exec_emitMuldiv`: what the printed text leaves, and when it is defined
-/

namespace N64Recomp

open CLang CLang.CType Mips CGenerator

/-! ### The helpers -/

/-- How a compiler computes the long products. -/
inductive LongProducts
  | limbs | int128
  deriving DecidableEq, Repr

/-- `DMULTU` from products of 32-bit limbs. -/
def dmultuLimbs (a b : BitVec 64) : HiLo :=
  let aLo := (word a).setWidth 64
  let aHi := a >>> 32
  let bLo := (word b).setWidth 64
  let bHi := b >>> 32
  let ll := aLo * bLo
  let lh := aLo * bHi
  let hl := aHi * bLo
  let hh := aHi * bHi
  let cross := (ll >>> 32) + (word lh).setWidth 64 + (word hl).setWidth 64
  ⟨hh + (lh >>> 32) + (hl >>> 32) + (cross >>> 32), (ll &&& 0xFFFFFFFF#64) ||| (cross <<< 32)⟩

/-- `DMULT` from the unsigned product. -/
def dmultLimbs (a b : BitVec 64) : HiLo :=
  let u := dmultuLimbs a b
  let uhi := if a.slt 0 then u.hi - b else u.hi
  let uhi := if b.slt 0 then uhi - a else uhi
  ⟨uhi, u.lo⟩

/-- `DMULTU(a, b, &lo, &hi)`. -/
def dmultu (products : LongProducts) (a b : BitVec 64) : HiLo :=
  match products with
  | .limbs => dmultuLimbs a b
  | .int128 =>
    let full128 : BitVec 128 := a.setWidth 128 * b.setWidth 128
    ⟨(full128 >>> 64).setWidth 64, full128.setWidth 64⟩

/-- `DMULT(a, b, &lo, &hi)`. -/
def dmult (products : LongProducts) (a b : BitVec 64) : HiLo :=
  match products with
  | .limbs => dmultLimbs a b
  | .int128 =>
    let full128 : BitVec 128 := a.signExtend 128 * b.signExtend 128
    ⟨(full128.sshiftRight 64).setWidth 64, full128.setWidth 64⟩

/-- `DDIV(a, b, &quot, &rem)`, for values of type `int64_t`. -/
def ddiv (a b : CVal) : Option HiLo := do
  let overflow := ((a.convert uint64).eq (CVal.ofBits uint64 0x8000000000000000)).truthy &&
    (b.eq (CVal.ofBits int64 (-1))).truthy
  let quot ← if overflow then some a else a.div b
  let rem ← if overflow then some (intLit 0) else a.mod b
  return ⟨rem.bits, quot.bits⟩

/-- `DDIVU(a, b, &quot, &rem)`, for values of type `uint64_t`. -/
def ddivu (a b : CVal) : Option HiLo := do
  let quot ← a.div b
  let rem ← a.mod b
  return ⟨rem.bits, quot.bits⟩

/-! ### The printed text -/

/-- What the text names: the objects of the function, and its local `result`. -/
inductive MulDivObject
  | object (x : Object)
  | result
  deriving DecidableEq, Repr

abbrev MulDivExpr := Expr MulDivObject Callee

/-- The helpers that the text calls with `&lo` and `&hi`. -/
inductive MulDivHelper
  | dmult | dmultu | ddiv | ddivu
  deriving DecidableEq, Repr

/-- The statements of the text. -/
inductive MulDivStatement
  | assign (output : MulDivObject) (value : MulDivExpr)
  | call (helper : MulDivHelper) (a b : MulDivExpr)
  deriving DecidableEq, Repr

namespace CGenerator

/-- `gpr_to_string`, among the names of the text. -/
def mulDivGpr (r : Fin 32) : MulDivExpr :=
  if r = 0 then .lit int32 0 else .var (.object (.gpr r))

/-- `lo = S32(result >> 0); hi = S32(result >> 32);` -/
def splitResult : List MulDivStatement :=
  [.assign (.object .lo) (.call₁ .s32 (.binary .shr (.var .result) (.lit int32 0))),
    .assign (.object .hi) (.call₁ .s32 (.binary .shr (.var .result) (.lit int32 32)))]

/-- The text of an instruction; none for one that is no multiplication or division. -/
def emitMuldiv (id : InstrId) (reg1 reg2 : Fin 32) : Option (List MulDivStatement) :=
  let a := mulDivGpr reg1
  let b := mulDivGpr reg2
  let sWord (e : MulDivExpr) : MulDivExpr := .call₁ .s64 (.call₁ .s32 e)
  let uWord (e : MulDivExpr) : MulDivExpr := .call₁ .u32 e
  -- `U64(e)` is spelled as a cast
  let u64 (e : MulDivExpr) : MulDivExpr := .cast uint64 e
  let s64 (e : MulDivExpr) : MulDivExpr := .call₁ .s64 e
  match id with
  | .mult => some (.assign .result (.binary .mul (sWord a) (sWord b)) :: splitResult)
  | .multu =>
    some (.assign .result (.binary .mul (u64 (uWord a)) (u64 (uWord b))) :: splitResult)
  | .dmult => some [.call .dmult (s64 a) (s64 b)]
  | .dmultu => some [.call .dmultu (u64 a) (u64 b)]
  | .div => some [
      .assign (.object .lo) (.call₁ .s32 (.binary .div (sWord a) (sWord b))),
      .assign (.object .hi) (.call₁ .s32 (.binary .mod (sWord a) (sWord b)))]
  | .divu => some [
      .assign (.object .lo) (.call₁ .s32 (.binary .div (uWord a) (uWord b))),
      .assign (.object .hi) (.call₁ .s32 (.binary .mod (uWord a) (uWord b)))]
  | .ddiv => some [.call .ddiv (s64 a) (s64 b)]
  | .ddivu => some [.call .ddivu (u64 a) (u64 b)]
  | _ => none

end CGenerator

/-! ### Execution -/

/-- The function's state, with its local `result`. -/
structure MulDivMachine where
  machine : Machine
  result : BitVec 64

def MulDivMachine.env (m : MulDivMachine) : Env MulDivObject Callee where
  var
    | .object x => m.machine.object x
    | .result => some (gpr m.result)
  call := Callee.apply m.machine.rdram

@[simp] theorem MulDivMachine.env_object (m : MulDivMachine) (x : Object) :
    m.env.var (.object x) = m.machine.object x := rfl

@[simp] theorem MulDivMachine.env_result (m : MulDivMachine) :
    m.env.var .result = some (gpr m.result) := rfl

@[simp] theorem MulDivMachine.env_call (m : MulDivMachine) :
    m.env.call = Callee.apply m.machine.rdram := rfl

/-- What a helper computes. -/
def MulDivHelper.apply (products : LongProducts) (a b : CVal) : MulDivHelper → Option HiLo
  | dmult => some (N64Recomp.dmult products (a.convert int64).bits (b.convert int64).bits)
  | dmultu => some (N64Recomp.dmultu products (a.convert uint64).bits (b.convert uint64).bits)
  | ddiv => N64Recomp.ddiv (a.convert int64) (b.convert int64)
  | ddivu => N64Recomp.ddivu (a.convert uint64) (b.convert uint64)

/-- The machine with other values of `hi` and `lo`. -/
def Machine.setHiLo (m : Machine) (x : HiLo) : Machine := { m with hi := x.hi, lo := x.lo }

/-- What a statement of the text does; `none` is undefined behaviour. -/
def MulDivStatement.exec (products : LongProducts) (m : MulDivMachine) :
    MulDivStatement → Option MulDivMachine
  | assign output value => do
    let v ← value.eval m.env
    match output with
    | .object x => return { m with machine := ← m.machine.assign v x }
    | .result => return { m with result := (v.convert uint64).bits }
  | call helper a b => do
    let x ← helper.apply products (← a.eval m.env) (← b.eval m.env)
    return { m with machine := m.machine.setHiLo x }

/-- The statements in sequence. -/
def execMulDiv (products : LongProducts) (m : MulDivMachine) (text : List MulDivStatement) :
    Option MulDivMachine :=
  text.foldlM (MulDivStatement.exec products) m

/-! ### The long products -/

section LongProducts

variable (a b : BitVec 64)

theorem toNat_word_setWidth (x : BitVec 64) : ((word x).setWidth 64).toNat = x.toNat % 2 ^ 32 := by
  rw [BitVec.toNat_setWidth, BitVec.toNat_setWidth]
  omega

/-- The carries of the product by hand. -/
theorem toNat_cross (ll lh hl : BitVec 64) :
    ((ll >>> 32) + (word lh).setWidth 64 + (word hl).setWidth 64).toNat =
      ll.toNat / 2 ^ 32 + lh.toNat % 2 ^ 32 + hl.toNat % 2 ^ 32 := by
  have hlt := ll.isLt
  rw [BitVec.toNat_add, BitVec.toNat_add, toNat_word_setWidth, toNat_word_setWidth,
    BitVec.toNat_ushiftRight, Nat.shiftRight_eq_div_pow]
  omega

/-- The products by hand are the products. -/
theorem dmultuLimbs_eq : dmultuLimbs a b = MulDivOp.dmultu.eval a b := by
  have ha := a.isLt
  have hb := b.isLt
  have hal := toNat_word_setWidth a
  have hbl := toNat_word_setWidth b
  have hah : (a >>> 32).toNat = a.toNat / 2 ^ 32 := by
    rw [BitVec.toNat_ushiftRight, Nat.shiftRight_eq_div_pow]
  have hbh : (b >>> 32).toNat = b.toNat / 2 ^ 32 := by
    rw [BitVec.toNat_ushiftRight, Nat.shiftRight_eq_div_pow]
  have hproduct : (a.setWidth 128 * b.setWidth 128 : BitVec 128).toNat = a.toNat * b.toNat := by
    have hle : a.toNat * b.toNat ≤ (2 ^ 64 - 1) * (2 ^ 64 - 1) :=
      Nat.mul_le_mul (by omega) (by omega)
    rw [BitVec.toNat_mul, BitVec.toNat_setWidth, BitVec.toNat_setWidth,
      Nat.mod_eq_of_lt (a := a.toNat) (by omega), Nat.mod_eq_of_lt (a := b.toNat) (by omega),
      Nat.mod_eq_of_lt (by omega)]
  have hfull : (a.setWidth 128 * b.setWidth 128 : BitVec 128).toNat =
      ((a >>> 32).toNat * 2 ^ 32 + ((word a).setWidth 64).toNat) *
        ((b >>> 32).toNat * 2 ^ 32 + ((word b).setWidth 64).toNat) := by
    rw [hproduct, hal, hah, hbl, hbh]
    congr 1 <;> omega
  obtain ⟨hhi, hlo⟩ := LongProduct.high_low_limbs (by omega) (by omega) (by omega) (by omega) hfull
    (toNat_cross _ _ _)
  exact HiLo.ext hhi.symm hlo.symm

theorem dmultLimbs_eq : dmultLimbs a b = MulDivOp.dmult.eval a b := by
  have hsub := LongProduct.high_low_sub
  simp only [dmultLimbs, dmultuLimbs_eq, MulDivOp.eval, HiLo.ofLong, LongProduct.mul_signExtend,
    HiLo.mk.injEq]
  change _ = LongProduct.high _ ∧ _ = LongProduct.low _
  rw [(hsub _ _).1, (hsub _ _).1, (hsub _ _).2, (hsub _ _).2]
  refine ⟨?_, rfl⟩
  generalize a.slt 0 = aNegative
  generalize b.slt 0 = bNegative
  cases aNegative <;> cases bNegative <;> simp [LongProduct.high]

theorem dmult_eq (products : LongProducts) : dmult products a b = MulDivOp.dmult.eval a b := by
  cases products with
  | limbs => exact dmultLimbs_eq a b
  | int128 =>
    refine HiLo.ext ?_ rfl
    apply BitVec.eq_of_getLsbD_eq
    intro j hj
    simp [dmult, MulDivOp.eval, HiLo.ofLong, -BitVec.getLsbD_eq_getElem, BitVec.getLsbD_sshiftRight,
      hj, show 64 + j < 128 by omega, show ¬ 128 ≤ j by omega]

theorem dmultu_eq (products : LongProducts) : dmultu products a b = MulDivOp.dmultu.eval a b := by
  cases products with
  | limbs => exact dmultuLimbs_eq a b
  | int128 => rfl

/-- The words of a long product, as one integer. -/
theorem ofLong_toNat (x : BitVec 128) :
    (HiLo.ofLong x).hi.toNat * 2 ^ 64 + (HiLo.ofLong x).lo.toNat = x.toNat :=
  (LongProduct.toNat_eq x).symm

theorem ofLong_toInt (x : BitVec 128) :
    (HiLo.ofLong x).hi.toInt * 2 ^ 64 + (HiLo.ofLong x).lo.toNat = x.toInt := by
  have hx := ofLong_toNat x
  have hlt := x.isLt
  have hlo := (HiLo.ofLong x).lo.isLt
  rw [BitVec.toInt_eq_toNat_cond, BitVec.toInt_eq_toNat_cond]
  split <;> split <;> omega

/-- **The products by hand are the exact ones**, which the other compilers compute with 128 bits. -/
theorem limbs_exact (a b : BitVec 64) :
    dmultu .limbs a b = dmultu .int128 a b ∧ dmult .limbs a b = dmult .int128 a b ∧
      (dmultu .limbs a b).hi.toNat * 2 ^ 64 + (dmultu .limbs a b).lo.toNat = a.toNat * b.toNat ∧
      (dmult .limbs a b).hi.toInt * 2 ^ 64 + (dmult .limbs a b).lo.toNat = a.toInt * b.toInt := by
  have ha := a.isLt
  have hb := b.isLt
  refine ⟨by rw [dmultu_eq, dmultu_eq], by rw [dmult_eq, dmult_eq], ?_, ?_⟩
  · have hle : a.toNat * b.toNat ≤ (2 ^ 64 - 1) * (2 ^ 64 - 1) :=
      Nat.mul_le_mul (by omega) (by omega)
    rw [dmultu_eq, MulDivOp.eval, ofLong_toNat, BitVec.toNat_mul, BitVec.toNat_setWidth,
      BitVec.toNat_setWidth, Nat.mod_eq_of_lt (a := a.toNat) (by omega),
      Nat.mod_eq_of_lt (a := b.toNat) (by omega), Nat.mod_eq_of_lt (by omega)]
  · have hal := BitVec.le_toInt a
    have hau := BitVec.toInt_lt (x := a)
    have hbl := BitVec.le_toInt b
    have hbu := BitVec.toInt_lt (x := b)
    have habs : (a.toInt * b.toInt).natAbs ≤ 2 ^ 63 * 2 ^ 63 := by
      rw [Int.natAbs_mul]
      exact Nat.mul_le_mul (by omega) (by omega)
    rw [dmult_eq, MulDivOp.eval, ofLong_toInt, BitVec.toInt_mul,
      BitVec.toInt_signExtend_of_le (by decide), BitVec.toInt_signExtend_of_le (by decide),
      Int.bmod_eq_of_le (by omega) (by omega)]

end LongProducts

/-! ### The divisions -/

section Divisions

variable (x y : BitVec 64)

theorem toInt_word : (word x).toInt = x.toInt.bmod (2 ^ 32) := by
  rw [BitVec.toInt_setWidth, BitVec.toInt_eq_toNat_bmod x, Int.bmod_bmod_of_dvd (by decide)]

/-- A quotient of sign-extended words has the quotient of the words as its low word. -/
theorem word_sdiv_ofWord (a b : BitVec 32) : word ((ofWord a).sdiv (ofWord b)) = a.sdiv b := by
  have ha : (ofWord a).toInt = a.toInt := BitVec.toInt_signExtend_of_le (by decide)
  have hb : (ofWord b).toInt = b.toInt := BitVec.toInt_signExtend_of_le (by decide)
  apply BitVec.eq_of_toInt_eq
  rw [toInt_word, BitVec.toInt_sdiv, BitVec.toInt_sdiv, ha, hb,
    Int.bmod_bmod_of_dvd (by decide)]

theorem word_srem_ofWord (a b : BitVec 32) : word ((ofWord a).srem (ofWord b)) = a.srem b := by
  have ha : (ofWord a).toInt = a.toInt := BitVec.toInt_signExtend_of_le (by decide)
  have hb : (ofWord b).toInt = b.toInt := BitVec.toInt_signExtend_of_le (by decide)
  apply BitVec.eq_of_toInt_eq
  rw [toInt_word, BitVec.toInt_srem, ha, hb, ← BitVec.toInt_srem, BitVec.toInt_bmod_cancel]

theorem word_udiv_setWidth (a b : BitVec 32) :
    word (a.setWidth 64 / b.setWidth 64) = a / b := by
  have ha := a.isLt
  have hb := b.isLt
  have hle := Nat.div_le_self a.toNat b.toNat
  apply BitVec.eq_of_toNat_eq
  rw [BitVec.toNat_setWidth, BitVec.toNat_udiv, BitVec.toNat_udiv, BitVec.toNat_setWidth,
    BitVec.toNat_setWidth, Nat.mod_eq_of_lt (a := a.toNat) (by omega),
    Nat.mod_eq_of_lt (a := b.toNat) (by omega), Nat.mod_eq_of_lt (by omega)]

theorem word_umod_setWidth (a b : BitVec 32) :
    word (a.setWidth 64 % b.setWidth 64) = a % b := by
  have ha := a.isLt
  have hb := b.isLt
  have hle := Nat.mod_le a.toNat b.toNat
  apply BitVec.eq_of_toNat_eq
  rw [BitVec.toNat_setWidth, BitVec.toNat_umod, BitVec.toNat_umod, BitVec.toNat_setWidth,
    BitVec.toNat_setWidth, Nat.mod_eq_of_lt (a := a.toNat) (by omega),
    Nat.mod_eq_of_lt (a := b.toNat) (by omega), Nat.mod_eq_of_lt (by omega)]

/-- A sign-extended word is zero or minus the least doubleword only as the word is. -/
theorem ofWord_eq_zero_iff (w : BitVec 32) : ofWord w = 0 ↔ w = 0 := by
  constructor
  · intro h
    rw [← word_ofWord w, h]
    rfl
  · rintro rfl
    decide

theorem ofWord_ne_intMin (w : BitVec 32) : ofWord w ≠ BitVec.intMin 64 := by
  intro h
  have hint := congrArg BitVec.toInt h
  have hw : (ofWord w).toInt = w.toInt := BitVec.toInt_signExtend_of_le (by decide)
  have hl := BitVec.le_toInt w
  have hmin : (BitVec.intMin 64).toInt = -2 ^ 63 := by decide
  rw [hw, hmin] at hint
  omega

/-- `DDIV` guards the quotient that overflows, and not a zero divisor. -/
theorem ddiv_eq : ddiv (CVal.ofBits int64 x) (CVal.ofBits int64 y) =
    if y = 0 then none else some (MulDivOp.ddiv.eval x y) := by
  have heq : ∀ z w : BitVec 64, ((CVal.ofBits uint64 z).eq (CVal.ofBits uint64 w)).truthy = (z == w) ∧
      ((CVal.ofBits int64 z).eq (CVal.ofBits int64 w)).truthy = (z == w) := by
    intro z w
    simp [CVal.eq]
  by_cases hover : x = BitVec.intMin 64 ∧ y = -1
  · obtain ⟨rfl, rfl⟩ := hover
    decide
  · have hfalse : ((((CVal.ofBits int64 x).convert uint64).eq
        (CVal.ofBits uint64 0x8000000000000000)).truthy &&
        ((CVal.ofBits int64 y).eq (CVal.ofBits int64 (-1))).truthy) = false := by
      rw [CVal.convert_ofBits, wrap_int64, (heq _ _).1, (heq _ _).2]
      by_cases hx : x = BitVec.intMin 64
      · have hy : y ≠ -1 := fun hy => hover ⟨hx, hy⟩
        rw [beq_eq_false_iff_ne.mpr hy, Bool.and_false]
      · have hx' : x ≠ 0x8000000000000000 := hx
        rw [beq_eq_false_iff_ne.mpr hx', Bool.false_and]
    simp only [ddiv, hfalse, Bool.false_eq_true, if_false, CVal.div_int64, CVal.mod_int64]
    by_cases hy : y = 0
    · rw [if_pos (.inl hy), if_pos hy]
      rfl
    · rw [if_neg (fun h => h.elim hy hover), if_neg (fun h => h.elim hy hover), if_neg hy]
      rfl

/-- `DDIVU` does not guard a zero divisor. -/
theorem ddivu_eq : ddivu (CVal.ofBits uint64 x) (CVal.ofBits uint64 y) =
    if y = 0 then none else some (MulDivOp.ddivu.eval x y) := by
  rw [ddivu, CVal.div_of_unsigned x y rfl rfl, CVal.mod_of_unsigned x y rfl rfl]
  by_cases hy : y = 0
  · rw [wrap_uint64, if_pos hy, if_pos hy, if_pos hy]
    rfl
  · rw [wrap_uint64, if_neg hy, if_neg hy, if_neg hy]
    rfl

end Divisions

/-! ### What the printed text does -/

/-- The instruction of an identity. -/
def mulDivOp : InstrId → Option MulDivOp
  | .mult => some .mult
  | .multu => some .multu
  | .dmult => some .dmult
  | .dmultu => some .dmultu
  | .div => some .div
  | .divu => some .divu
  | .ddiv => some .ddiv
  | .ddivu => some .ddivu
  | _ => none

section Text

variable (m : MulDivMachine) (products : LongProducts) (r : Fin 32)

theorem eval_mulDivGpr :
    ∃ v, (mulDivGpr r).eval m.env = some v ∧ v.bits = m.machine.toMips.gpr r := by
  by_cases hr : r = 0
  · subst hr
    exact ⟨_, rfl, IsOperand.zero.bits⟩
  · refine ⟨gpr (m.machine.gpr r), ?_, (if_neg hr).symm⟩
    simp [mulDivGpr, hr, MulDivMachine.env]

/-- A register as each of the texts reads it. -/
structure ReadsAs (x : BitVec 64) : Prop where
  sWord : (Expr.call₁ .s64 (.call₁ .s32 (mulDivGpr r))).eval m.env =
    some (CVal.ofBits int64 (ofWord (word x)))
  uWord : (Expr.call₁ .u32 (mulDivGpr r)).eval m.env =
    some (CVal.ofBits uint32 ((word x).setWidth 64))
  uWord64 : (Expr.cast uint64 (.call₁ .u32 (mulDivGpr r))).eval m.env =
    some (CVal.ofBits uint64 ((word x).setWidth 64))
  s64 : (Expr.call₁ .s64 (mulDivGpr r)).eval m.env = some (CVal.ofBits int64 x)
  u64 : (Expr.cast uint64 (mulDivGpr r)).eval m.env = some (CVal.ofBits uint64 x)

theorem readsAs : ReadsAs m r (m.machine.toMips.gpr r) := by
  obtain ⟨v, hv, hx⟩ := eval_mulDivGpr m r
  constructor <;>
    simp only [Expr.eval_cast, Expr.eval_call₁, hv, Option.bind_some, Option.map_some,
      MulDivMachine.env_call, Callee.apply_one, Callee.apply₁, CVal.convert, hx, CVal.ofBits_bits,
      Option.some.injEq]
  · rfl
  · exact (CVal.ofBits_wrap _ uint32).symm
  · exact CVal.ofBits_wrap _ uint64

/-- `S32(result >> n)`. -/
theorem eval_resultShr {n : Nat} (hn : n < 64) :
    (Expr.call₁ .s32 (.binary .shr (.var .result) (.lit int32 n)) : MulDivExpr).eval m.env =
      some (CVal.ofBits int32 (m.result >>> n)) := by
  have hlit : (Expr.lit int32 n : MulDivExpr).eval m.env = some (intLit n) := rfl
  simp only [Expr.eval_lit] at hlit
  simp only [Expr.eval_lit, Expr.eval_var, Expr.eval_binary, Expr.eval_call₁,
    MulDivMachine.env_result, MulDivMachine.env_call, Option.bind_some, BinOp.apply,
    Callee.apply_one, Callee.apply₁]
  rw [show CVal.ofBits int32 (BitVec.ofInt 64 n) = intLit n from rfl,
    shr_uint64_intLit m.result hn]
  rfl

theorem execMulDiv_cons {s : MulDivStatement} {text : List MulDivStatement} {m' : MulDivMachine}
    (h : s.exec products m = some m') :
    execMulDiv products m (s :: text) = execMulDiv products m' text := by
  simp [execMulDiv, h]

theorem exec_assign_object {e : MulDivExpr} {v : CVal} {x : Object} {machine' : Machine}
    (he : e.eval m.env = some v) (hx : m.machine.assign v x = some machine') :
    (MulDivStatement.assign (.object x) e).exec products m =
      some { m with machine := machine' } := by
  simp [MulDivStatement.exec, he, hx]

/-- Two assignments of `int` values to `lo` and to `hi`. -/
theorem exec_assign_lo_hi {e₁ e₂ : MulDivExpr} {x y : BitVec 64}
    (hlo : e₁.eval m.env = some (CVal.ofBits int32 x))
    (hhi : e₂.eval { m with machine := { m.machine with lo := ofWord (word x) } }.env =
      some (CVal.ofBits int32 y)) :
    execMulDiv products m [.assign (.object .lo) e₁, .assign (.object .hi) e₂] =
      some { m with machine := m.machine.setHiLo ⟨ofWord (word y), ofWord (word x)⟩ } := by
  have h₁ := exec_assign_object m products (x := .lo) hlo rfl
  rw [execMulDiv_cons m products h₁]
  have h₂ := exec_assign_object _ products (x := .hi) hhi rfl
  exact execMulDiv_cons _ products h₂

/-- `lo = S32(result >> 0); hi = S32(result >> 32);` -/
theorem exec_splitResult :
    execMulDiv products m splitResult =
      some { m with machine := m.machine.setHiLo (.ofProduct m.result) } := by
  have hlo := eval_resultShr m (n := 0) (by decide)
  rw [BitVec.ushiftRight_zero] at hlo
  exact exec_assign_lo_hi m products hlo (eval_resultShr _ (n := 32) (by decide))

/-- `result = a * b;`, and its words to `lo` and `hi`. -/
theorem exec_product {e₁ e₂ : MulDivExpr} {v₁ v₂ v : CVal} (h₁ : e₁.eval m.env = some v₁)
    (h₂ : e₂.eval m.env = some v₂) (hv : v₁.mul v₂ = some v) :
    execMulDiv products m (.assign .result (.binary .mul e₁ e₂) :: splitResult) =
      some { machine := m.machine.setHiLo (.ofProduct v.bits), result := v.bits } := by
  have hresult : (MulDivStatement.assign .result (.binary .mul e₁ e₂)).exec products m =
      some { m with result := v.bits } := by
    simp [MulDivStatement.exec, h₁, h₂, hv]
  rw [execMulDiv_cons m products hresult, exec_splitResult]

/-- A division and its remainder, of operands that do not read `lo`. -/
theorem exec_division {e₁ e₂ : MulDivExpr} {v₁ v₂ : CVal}
    (h₁ : ∀ machine', machine'.toMips.gpr = m.machine.toMips.gpr →
      e₁.eval { m with machine := machine' }.env = some v₁)
    (h₂ : ∀ machine', machine'.toMips.gpr = m.machine.toMips.gpr →
      e₂.eval { m with machine := machine' }.env = some v₂) :
    execMulDiv products m [
        .assign (.object .lo) (.call₁ .s32 (.binary .div e₁ e₂)),
        .assign (.object .hi) (.call₁ .s32 (.binary .mod e₁ e₂))] =
      (v₁.div v₂).bind fun q => (v₁.mod v₂).map fun r =>
        { m with machine := m.machine.setHiLo ⟨ofWord (word r.bits), ofWord (word q.bits)⟩ } := by
  have hdiv : (Expr.call₁ .s32 (.binary .div e₁ e₂)).eval m.env =
      (v₁.div v₂).map fun q => CVal.ofBits int32 q.bits := by
    simp only [Expr.eval_binary, Expr.eval_call₁, h₁ m.machine rfl, h₂ m.machine rfl,
      Option.bind_some, BinOp.apply]
    cases v₁.div v₂ <;> rfl
  have hmod : ∀ x, (Expr.call₁ .s32 (.binary .mod e₁ e₂)).eval
      { m with machine := { m.machine with lo := x } }.env =
      (v₁.mod v₂).map fun r => CVal.ofBits int32 r.bits := by
    intro x
    simp only [Expr.eval_binary, Expr.eval_call₁, h₁ { m.machine with lo := x } rfl,
      h₂ { m.machine with lo := x } rfl, Option.bind_some, BinOp.apply]
    cases v₁.mod v₂ <;> rfl
  cases hq : v₁.div v₂ with
  | none =>
    rw [hq] at hdiv
    simp [execMulDiv, MulDivStatement.exec, hdiv]
  | some q =>
    rw [hq] at hdiv
    cases hr : v₁.mod v₂ with
    | none => simp [CVal.mod, hq] at hr
    | some r =>
      rw [hr] at hmod
      exact exec_assign_lo_hi m products hdiv (hmod _)

/-- A product of sign-extended words does not overflow. -/
theorem mul_ofWord (a b : BitVec 32) :
    (CVal.ofBits int64 (ofWord a)).mul (CVal.ofBits int64 (ofWord b)) =
      some (CVal.ofBits int64 (ofWord a * ofWord b)) := by
  have habs : ∀ w : BitVec 32, (ofWord w).toInt.natAbs ≤ 2 ^ 31 := by
    intro w
    have hw : (ofWord w).toInt = w.toInt := BitVec.toInt_signExtend_of_le (by decide)
    have hl := BitVec.le_toInt w
    have hu := BitVec.toInt_lt (x := w)
    omega
  have hprod : ((ofWord a).toInt * (ofWord b).toInt).natAbs ≤ 2 ^ 31 * 2 ^ 31 := by
    rw [Int.natAbs_mul]
    exact Nat.mul_le_mul (habs a) (habs b)
  have hrange : int64.inRange ((ofWord a).toInt * (ofWord b).toInt) := by
    simp only [CType.inRange, signed_int64, if_true, width]
    exact decide_eq_true (by omega)
  simp [CVal.mul, CVal.arith, hrange]

/-- A call of a helper. -/
theorem exec_call {helper : MulDivHelper} {e₁ e₂ : MulDivExpr} {v₁ v₂ : CVal}
    (h₁ : e₁.eval m.env = some v₁) (h₂ : e₂.eval m.env = some v₂) :
    execMulDiv products m [.call helper e₁ e₂] =
      (helper.apply products v₁ v₂).map fun x => { m with machine := m.machine.setHiLo x } := by
  simp only [execMulDiv, List.foldlM_cons, List.foldlM_nil, MulDivStatement.exec, h₁, h₂,
    Option.bind_eq_bind, Option.bind_some]
  cases helper.apply products v₁ v₂ <;> rfl

/-- A call of a helper that does not guard a zero divisor. -/
theorem exec_division_call {helper : MulDivHelper} {e₁ e₂ : MulDivExpr} {v₁ v₂ : CVal}
    {y : BitVec 64} {z : HiLo} (h₁ : e₁.eval m.env = some v₁) (h₂ : e₂.eval m.env = some v₂)
    (h : helper.apply products v₁ v₂ = if y = 0 then none else some z) :
    (execMulDiv products m [.call helper e₁ e₂]).map MulDivMachine.machine =
      if y == 0 then none else some (m.machine.setHiLo z) := by
  rw [exec_call m products h₁ h₂, h]
  by_cases hy : y = 0
  · rw [if_pos hy, if_pos (beq_iff_eq.mpr hy)]
    rfl
  · rw [if_neg hy, if_neg (fun h => hy (beq_iff_eq.mp h))]
    rfl

/-- **The C of a multiplication or a division** leaves what the instruction leaves, and is
undefined exactly where it divides by zero. -/
theorem exec_emitMuldiv {id : InstrId} {op : MulDivOp} (hop : mulDivOp id = some op)
    (reg1 reg2 : Fin 32) :
    ∃ text, emitMuldiv id reg1 reg2 = some text ∧
      (execMulDiv products m text).map MulDivMachine.machine =
        if op.dividesByZero (m.machine.toMips.gpr reg2) then none
        else some (m.machine.setHiLo
          (op.eval (m.machine.toMips.gpr reg1) (m.machine.toMips.gpr reg2))) := by
  have hx := readsAs m reg1
  have hy := readsAs m reg2
  have hx' : ∀ machine', machine'.toMips.gpr = m.machine.toMips.gpr →
      ReadsAs { m with machine := machine' } reg1 (m.machine.toMips.gpr reg1) :=
    fun machine' h => h ▸ readsAs _ reg1
  have hy' : ∀ machine', machine'.toMips.gpr = m.machine.toMips.gpr →
      ReadsAs { m with machine := machine' } reg2 (m.machine.toMips.gpr reg2) :=
    fun machine' h => h ▸ readsAs _ reg2
  generalize m.machine.toMips.gpr reg1 = x at *
  generalize m.machine.toMips.gpr reg2 = y at *
  cases id <;> first | (cases hop; done) | (obtain rfl := Option.some.inj hop)
  all_goals refine ⟨_, rfl, ?_⟩
  case mult =>
    rw [exec_product m products hx.sWord hy.sWord (mul_ofWord _ _)]
    rfl
  case multu =>
    rw [exec_product m products hx.uWord64 hy.uWord64 (CVal.mul_uint64_left _ _)]
    rfl
  case dmult =>
    rw [exec_call m products hx.s64 hy.s64]
    exact congrArg (fun z => some (m.machine.setHiLo z)) (dmult_eq x y products)
  case dmultu =>
    rw [exec_call m products hx.u64 hy.u64]
    exact congrArg (fun z => some (m.machine.setHiLo z)) (dmultu_eq x y products)
  case div =>
    rw [exec_division m products (fun machine' h => (hx' machine' h).sWord)
      (fun machine' h => (hy' machine' h).sWord), CVal.div_int64, CVal.mod_int64]
    change _ = if word y == 0 then none else _
    by_cases hzero : word y = 0
    · rw [if_pos (.inl ((ofWord_eq_zero_iff _).mpr hzero)), if_pos (beq_iff_eq.mpr hzero)]
      rfl
    · have hdefined : ¬(ofWord (word y) = 0 ∨ (ofWord (word x) = BitVec.intMin 64 ∧
          ofWord (word y) = -1)) := fun h =>
        h.elim (fun h => hzero ((ofWord_eq_zero_iff _).mp h)) fun h => ofWord_ne_intMin _ h.1
      rw [if_neg hdefined, if_neg hdefined, if_neg (fun h => hzero (beq_iff_eq.mp h))]
      simp only [Option.bind_some, Option.map_some, CVal.ofBits_bits, wrap_int64,
        word_sdiv_ofWord, word_srem_ofWord]
      rfl
  case divu =>
    rw [exec_division m products (fun machine' h => (hx' machine' h).uWord)
      (fun machine' h => (hy' machine' h).uWord), CVal.div_of_unsigned _ _ rfl rfl,
      CVal.mod_of_unsigned _ _ rfl rfl, wrap_uint32_setWidth, wrap_uint32_setWidth]
    change _ = if word y == 0 then none else _
    by_cases hzero : word y = 0
    · have hzero' : (word y).setWidth 64 = 0 := by rw [hzero]; rfl
      rw [if_pos hzero', if_pos (beq_iff_eq.mpr hzero)]
      rfl
    · have hzero' : (word y).setWidth 64 ≠ 0 := fun h =>
        hzero (by rw [← word_setWidth_64 (word y), h]; rfl)
      rw [if_neg hzero', if_neg hzero', if_neg (fun h => hzero (beq_iff_eq.mp h))]
      simp only [Option.bind_some, Option.map_some, CVal.ofBits_bits, word_wrap_uint32,
        word_udiv_setWidth, word_umod_setWidth]
      rfl
  case ddiv =>
    exact exec_division_call m products hx.s64 hy.s64 (ddiv_eq x y)
  case ddivu =>
    exact exec_division_call m products hx.u64 hy.u64 (ddivu_eq x y)

end Text


end N64Recomp
