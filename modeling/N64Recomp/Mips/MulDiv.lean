import Mathlib.Data.BitVec
import Mathlib.Tactic.LinearCombination
import N64Recomp.Mips.Integer

/-!
# The MIPS III multiplications and divisions

The instructions that write `hi` and `lo`. The word instructions are defined on sign-extended
words, the divisions for a divisor other than zero. The quotient of the most negative integer by
`-1` wraps.

## Main definitions

* `MulDivOp.eval`: the values of `hi` and `lo`
* `upperExcess`: how a register deviates from the sign extension of its low word

## Main results

* `eq_ofWord_add`: a register is its low word and its deviation
* `mul_eq_iff`: when a product of two registers is that of their low words
-/

namespace Mips

/-- The multiplications and divisions. -/
inductive MulDivOp
  | mult | multu | dmult | dmultu | div | divu | ddiv | ddivu
  deriving DecidableEq, Repr

/-- The two result registers. -/
@[ext]
structure HiLo where
  hi : BitVec 64
  lo : BitVec 64
  deriving DecidableEq, Repr

/-- A doubleword product in two sign-extended words. -/
def HiLo.ofProduct (x : BitVec 64) : HiLo := ⟨ofWord (word (x >>> 32)), ofWord (word x)⟩

/-- A product of 128 bits in two doublewords. -/
def HiLo.ofLong (x : BitVec 128) : HiLo := ⟨(x >>> 64).setWidth 64, x.setWidth 64⟩

/-- What an instruction leaves. -/
def MulDivOp.eval (x y : BitVec 64) : MulDivOp → HiLo
  | mult => .ofProduct (ofWord (word x) * ofWord (word y))
  | multu => .ofProduct ((word x).setWidth 64 * (word y).setWidth 64)
  | dmult => .ofLong (x.signExtend 128 * y.signExtend 128)
  | dmultu => .ofLong (x.setWidth 128 * y.setWidth 128)
  | div => ⟨ofWord ((word x).srem (word y)), ofWord ((word x).sdiv (word y))⟩
  | divu => ⟨ofWord (word x % word y), ofWord (word x / word y)⟩
  | ddiv => ⟨x.srem y, x.sdiv y⟩
  | ddivu => ⟨x % y, x / y⟩

/-- The instructions on words. -/
def MulDivOp.isWord : MulDivOp → Bool
  | mult | multu | div | divu => true
  | _ => false

def MulDivOp.isDivision : MulDivOp → Bool
  | div | divu | ddiv | ddivu => true
  | _ => false

/-- Whether an instruction divides by zero, at the width that it reads. -/
def MulDivOp.dividesByZero (op : MulDivOp) (y : BitVec 64) : Bool :=
  op.isDivision && if op.isWord then word y == 0 else y == 0

/-- Whether a register holds a sign-extended word. -/
def IsSignExtended (x : BitVec 64) : Prop := ofWord (word x) = x

instance (x : BitVec 64) : Decidable (IsSignExtended x) := inferInstanceAs (Decidable (_ = _))

/-- The operands on which an instruction is defined. -/
def MulDivOp.Defined (op : MulDivOp) (x y : BitVec 64) : Prop :=
  (op.isWord → IsSignExtended x ∧ IsSignExtended y) ∧ (op.isDivision → y ≠ 0)

instance (op : MulDivOp) (x y : BitVec 64) : Decidable (op.Defined x y) :=
  inferInstanceAs (Decidable (_ ∧ _))

/-! ### Registers that do not hold a sign-extended word -/

/-- The upper half of a register, less the sign of its low word. -/
def upperExcess (x : BitVec 64) : BitVec 32 :=
  word (x >>> 32) - word (ofWord (word x) >>> 32)

section Excess

variable (x y : BitVec 64)

/-- The low word and the upper half of a register, as numbers. -/
theorem toNat_eq : x.toNat = (word (x >>> 32)).toNat * 2 ^ 32 + (word x).toNat := by
  have hlt := x.isLt
  rw [BitVec.toNat_setWidth, BitVec.toNat_setWidth, BitVec.toNat_ushiftRight,
    Nat.shiftRight_eq_div_pow]
  omega

/-- A register is its low word, and its deviation in the upper half. -/
theorem eq_ofWord_add : x = ofWord (word x) + (upperExcess x).setWidth 64 <<< 32 := by
  have hx := toNat_eq x
  have hword := toNat_eq (ofWord (word x))
  rw [word_ofWord] at hword
  have hltx := (word (x >>> 32)).isLt
  have hltw := (word (ofWord (word x) >>> 32)).isLt
  apply BitVec.eq_of_toNat_eq
  rw [BitVec.toNat_add, BitVec.toNat_shiftLeft, BitVec.toNat_setWidth, upperExcess,
    BitVec.toNat_sub, Nat.shiftLeft_eq]
  omega

theorem shiftLeft_eq_zero_iff : x <<< 32 = 0 ↔ word x = 0 := by
  rw [← BitVec.toNat_inj, ← BitVec.toNat_inj, BitVec.toNat_shiftLeft, BitVec.toNat_setWidth,
    Nat.shiftLeft_eq]
  have hzero : (0 : BitVec 64).toNat = 0 := rfl
  have hzero' : (0 : BitVec 32).toNat = 0 := rfl
  rw [hzero, hzero']
  omega

theorem shiftLeft_eq_mul : x <<< 32 = x * 0x100000000#64 := by
  rw [BitVec.shiftLeft_eq_mul_twoPow]
  rfl

/-- **A product is that of the low words** exactly when the deviations of the operands cancel. -/
theorem mul_eq_iff : x * y = ofWord (word x) * ofWord (word y) ↔
    upperExcess x * word y + upperExcess y * word x = 0 := by
  have hsquare : (0x100000000#64) * 0x100000000#64 = 0 := by decide
  have hsplit : x * y = ofWord (word x) * ofWord (word y) +
      ((upperExcess x).setWidth 64 * ofWord (word y) +
        (upperExcess y).setWidth 64 * ofWord (word x)) <<< 32 := by
    conv_lhs => rw [eq_ofWord_add x, eq_ofWord_add y]
    simp only [shiftLeft_eq_mul]
    linear_combination (upperExcess x).setWidth 64 * (upperExcess y).setWidth 64 * hsquare
  have hword : word ((upperExcess x).setWidth 64 * ofWord (word y) +
        (upperExcess y).setWidth 64 * ofWord (word x)) =
      upperExcess x * word y + upperExcess y * word x := by
    have hself : ∀ w : BitVec 32, (w.setWidth 64).setWidth 32 = w := fun w => by
      rw [BitVec.setWidth_setWidth_of_le _ (by decide), BitVec.setWidth_eq]
    rw [word, BitVec.setWidth_add _ _ (by decide), BitVec.setWidth_mul _ _ (by decide),
      BitVec.setWidth_mul _ _ (by decide), hself, hself]
    exact congrArg₂ (fun u v => upperExcess x * u + upperExcess y * v) (word_ofWord (word y))
      (word_ofWord (word x))
  rw [hsplit, ← hword, ← shiftLeft_eq_zero_iff]
  exact add_eq_left

/-- A sign-extended word does not deviate. -/
theorem upperExcess_ofWord (w : BitVec 32) : upperExcess (ofWord w) = 0 := by
  rw [upperExcess, word_ofWord]
  exact BitVec.sub_self _

end Excess

end Mips
