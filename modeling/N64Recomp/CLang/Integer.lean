import N64Recomp.Data.Widths

/-!
# C integer values

The integer types of an LP64 C implementation with two's-complement representation, their
values, and the operators of the language on them: integer promotion, the usual arithmetic
conversions, wrapping conversions, and the operators that are undefined on some operands.

A value is stored as its 64-bit image: the low bits of its type, extended by the signedness of
the type. On images the conversions between the types are plain truncations and extensions, and
the signed and unsigned comparisons of the type are those of the image.

## Main definitions

* `CType`, `CType.wrap`: the integer types, and the image of a bit pattern in a type
* `CVal`: a type with an image of that type
* `CVal.add`, `CVal.shl`, ...: the operators; `none` is undefined behaviour

## Main results

* `CType.wrap_wrap`: conversion to a type is idempotent
* `CVal.shl_ofBits`, `CVal.shr_ofBits`, ...: the operators on images
-/

namespace CLang

/-- The integer types. `int` is `int32`. -/
inductive CType
  | int8 | uint8 | int16 | uint16 | int32 | uint32 | int64 | uint64
  deriving DecidableEq, Repr

namespace CType

/-- The number of value bits, sign included. -/
def width : CType → Nat
  | int8 | uint8 => 8
  | int16 | uint16 => 16
  | int32 | uint32 => 32
  | int64 | uint64 => 64

def signed : CType → Bool
  | int8 | int16 | int32 | int64 => true
  | uint8 | uint16 | uint32 | uint64 => false

/-- The image in a type of a 64-bit pattern: its low bits, extended by the type's signedness. -/
def wrap : CType → BitVec 64 → BitVec 64
  | int8, x => (x.setWidth 8).signExtend 64
  | uint8, x => (x.setWidth 8).setWidth 64
  | int16, x => (x.setWidth 16).signExtend 64
  | uint16, x => (x.setWidth 16).setWidth 64
  | int32, x => (x.setWidth 32).signExtend 64
  | uint32, x => (x.setWidth 32).setWidth 64
  | int64, x | uint64, x => x

theorem setWidth_signExtend_64 {w : Nat} (hw : w ≤ 64) (y : BitVec w) :
    (y.signExtend 64).setWidth w = y := by
  ext i hi
  have h64 : i < 64 := Nat.lt_of_lt_of_le hi hw
  simp [BitVec.getElem_signExtend, hi, h64]

theorem setWidth_setWidth_64 {w : Nat} (hw : w ≤ 64) (y : BitVec w) :
    (y.setWidth 64).setWidth w = y := by
  ext i hi
  have h64 : i < 64 := Nat.lt_of_lt_of_le hi hw
  simp [h64, hi]

/-- The image of an image is itself: conversion to a type is idempotent. -/
@[simp] theorem wrap_wrap (t : CType) (x : BitVec 64) : t.wrap (t.wrap x) = t.wrap x := by
  cases t <;> simp only [wrap]
  all_goals first
    | rw [setWidth_signExtend_64 (by decide)]
    | rw [setWidth_setWidth_64 (by decide)]

@[simp] theorem wrap_int64 (x : BitVec 64) : int64.wrap x = x := rfl

@[simp] theorem wrap_uint64 (x : BitVec 64) : uint64.wrap x = x := rfl

/-- Whether an integer is a value of the type. -/
def inRange (t : CType) (n : Int) : Bool :=
  if t.signed then -(2 ^ (t.width - 1) : Int) ≤ n ∧ n < 2 ^ (t.width - 1)
  else 0 ≤ n ∧ n < 2 ^ t.width

/-- Integer promotion: the types narrower than `int` become `int`. -/
def promote : CType → CType
  | int8 | uint8 | int16 | uint16 | int32 => int32
  | uint32 => uint32
  | int64 => int64
  | uint64 => uint64

/-- The usual arithmetic conversions: the common type of two promoted operands. -/
def common (s t : CType) : CType :=
  match s.promote, t.promote with
  | uint64, _ | _, uint64 => uint64
  | int64, _ | _, int64 => int64
  | uint32, _ | _, uint32 => uint32
  | _, _ => int32

@[simp] theorem signed_uint64 : uint64.signed = false := rfl

@[simp] theorem signed_uint32 : uint32.signed = false := rfl

@[simp] theorem signed_int64 : int64.signed = true := rfl

@[simp] theorem signed_int32 : int32.signed = true := rfl

@[simp] theorem promote_uint64 : uint64.promote = uint64 := rfl

@[simp] theorem promote_uint32 : uint32.promote = uint32 := rfl

@[simp] theorem promote_int64 : int64.promote = int64 := rfl

@[simp] theorem promote_int32 : int32.promote = int32 := rfl

@[simp] theorem common_uint64_left (t : CType) : common uint64 t = uint64 := by
  cases t <;> rfl

@[simp] theorem common_uint64_right (t : CType) : common t uint64 = uint64 := by
  cases t <;> rfl

@[simp] theorem common_int64_int32 : common int64 int32 = int64 := rfl

@[simp] theorem common_int32_int32 : common int32 int32 = int32 := rfl

@[simp] theorem common_uint32_int32 : common uint32 int32 = uint32 := rfl

@[simp] theorem common_uint32_uint32 : common uint32 uint32 = uint32 := rfl

@[simp] theorem common_int64_int64 : common int64 int64 = int64 := rfl

end CType

open CType

/-- A value: a type and an image of that type. -/
structure CVal where
  ty : CType
  bits : BitVec 64
  canonical : ty.wrap bits = bits

namespace CVal

/-- The value of type `t` congruent to a bit pattern. -/
def ofBits (t : CType) (x : BitVec 64) : CVal := ⟨t, t.wrap x, wrap_wrap t x⟩

@[simp] theorem ofBits_ty (t : CType) (x : BitVec 64) : (ofBits t x).ty = t := rfl

@[simp] theorem ofBits_bits (t : CType) (x : BitVec 64) : (ofBits t x).bits = t.wrap x := rfl

theorem ext_bits {a b : CVal} (ht : a.ty = b.ty) (hb : a.bits = b.bits) : a = b := by
  obtain ⟨t, x, _⟩ := a
  obtain ⟨t', x', _⟩ := b
  obtain rfl : t = t' := ht
  obtain rfl : x = x' := hb
  rfl

@[simp] theorem ofBits_self (a : CVal) : ofBits a.ty a.bits = a :=
  ext_bits rfl a.canonical

/-- An `int`. -/
def int (n : Int) : CVal := ofBits int32 (BitVec.ofInt 64 n)

/-- The truth value of a comparison. -/
def ofBool (b : Bool) : CVal := int (if b then 1 else 0)

/-- A value controls a branch by being non-zero. -/
def truthy (a : CVal) : Bool := a.bits ≠ 0

/-- A cast, or the conversion of an assignment or an argument. -/
def convert (t : CType) (a : CVal) : CVal := ofBits t a.bits

/-- An arithmetic result: undefined when the type is signed and cannot hold the exact value. -/
def arith (t : CType) (exact : Int) (x : BitVec 64) : Option CVal :=
  if t.signed && !t.inRange exact then none else some (ofBits t x)

def add (a b : CVal) : Option CVal :=
  let t := common a.ty b.ty
  arith t ((t.wrap a.bits).toInt + (t.wrap b.bits).toInt) (a.bits + b.bits)

def sub (a b : CVal) : Option CVal :=
  let t := common a.ty b.ty
  arith t ((t.wrap a.bits).toInt - (t.wrap b.bits).toInt) (a.bits - b.bits)

def mul (a b : CVal) : Option CVal :=
  let t := common a.ty b.ty
  arith t ((t.wrap a.bits).toInt * (t.wrap b.bits).toInt) (a.bits * b.bits)

def neg (a : CVal) : Option CVal :=
  let t := a.ty.promote
  arith t (-(t.wrap a.bits).toInt) (-a.bits)

/-- The quotient, truncated towards zero. A zero divisor is undefined, as is a quotient that the
type cannot hold. -/
def div (a b : CVal) : Option CVal :=
  let t := common a.ty b.ty
  let x := t.wrap a.bits
  let y := t.wrap b.bits
  if y = 0 then none
  else if t.signed then arith t (x.toInt.tdiv y.toInt) (x.sdiv y)
  else some (ofBits t (x / y))

/-- The remainder, where the quotient is defined. -/
def mod (a b : CVal) : Option CVal :=
  let t := common a.ty b.ty
  let x := t.wrap a.bits
  let y := t.wrap b.bits
  (div a b).map fun _ => ofBits t (if t.signed then x.srem y else x % y)

def bitwise (f : BitVec 64 → BitVec 64 → BitVec 64) (a b : CVal) : CVal :=
  let t := common a.ty b.ty
  ofBits t (f (t.wrap a.bits) (t.wrap b.bits))

def and : CVal → CVal → CVal := bitwise (· &&& ·)

def or : CVal → CVal → CVal := bitwise (· ||| ·)

def xor : CVal → CVal → CVal := bitwise (· ^^^ ·)

def compl (a : CVal) : CVal := ofBits a.ty.promote (~~~a.bits)

/-- A shift count, when it is below the width of the shifted operand's promoted type. -/
def shiftCount (a b : CVal) : Option Nat :=
  let n := (b.ty.promote.wrap b.bits)
  if n.toNat < a.ty.promote.width then some n.toNat else none

/-- The shifts of signed operands are those of the two's-complement image. -/
def shl (a b : CVal) : Option CVal :=
  (shiftCount a b).map fun n => ofBits a.ty.promote (a.bits <<< n)

def shr (a b : CVal) : Option CVal :=
  (shiftCount a b).map fun n =>
    let t := a.ty.promote
    ofBits t (if t.signed then (t.wrap a.bits).sshiftRight n else t.wrap a.bits >>> n)

def lt (a b : CVal) : CVal :=
  let t := common a.ty b.ty
  ofBool (if t.signed then (t.wrap a.bits).slt (t.wrap b.bits)
    else (t.wrap a.bits).ult (t.wrap b.bits))

def le (a b : CVal) : CVal :=
  let t := common a.ty b.ty
  ofBool (if t.signed then (t.wrap a.bits).sle (t.wrap b.bits)
    else (t.wrap a.bits).ule (t.wrap b.bits))

def eq (a b : CVal) : CVal :=
  let t := common a.ty b.ty
  ofBool (t.wrap a.bits == t.wrap b.bits)

def lnot (a : CVal) : CVal := ofBool (!a.truthy)

/-! ### The operators on images -/

section Images

variable (x y : BitVec 64)

@[simp] theorem convert_ofBits (s t : CType) : (ofBits s x).convert t = ofBits t (s.wrap x) := rfl

@[simp] theorem ofBits_wrap (t : CType) : ofBits t (t.wrap x) = ofBits t x :=
  ext_bits rfl (wrap_wrap t x)

@[simp] theorem convert_bits_uint64 (a : CVal) : (a.convert uint64).bits = a.bits := rfl

theorem add_of_unsigned {a b : CVal} (h : (common a.ty b.ty).signed = false) :
    a.add b = some (ofBits (common a.ty b.ty) (a.bits + b.bits)) := by
  simp [add, arith, h]

theorem sub_of_unsigned {a b : CVal} (h : (common a.ty b.ty).signed = false) :
    a.sub b = some (ofBits (common a.ty b.ty) (a.bits - b.bits)) := by
  simp [sub, arith, h]

@[simp] theorem add_uint64_left (b : CVal) :
    (ofBits uint64 x).add b = some (ofBits uint64 (x + b.bits)) := by
  rw [add_of_unsigned (by simp)]
  simp

@[simp] theorem add_uint64_right (a : CVal) :
    a.add (ofBits uint64 x) = some (ofBits uint64 (a.bits + x)) := by
  rw [add_of_unsigned (by simp)]
  simp

@[simp] theorem sub_uint64_left (b : CVal) :
    (ofBits uint64 x).sub b = some (ofBits uint64 (x - b.bits)) := by
  rw [sub_of_unsigned (by simp)]
  simp

@[simp] theorem sub_uint64_right (a : CVal) :
    a.sub (ofBits uint64 x) = some (ofBits uint64 (a.bits - x)) := by
  rw [sub_of_unsigned (by simp)]
  simp

@[simp] theorem mul_uint64_left (b : CVal) :
    (ofBits uint64 x).mul b = some (ofBits uint64 (x * b.bits)) := by
  simp [mul, arith]

/-- A sum of `int` operands whose exact value is an `int`. -/
theorem add_int32 (h : int32.inRange ((int32.wrap x).toInt + (int32.wrap y).toInt)) :
    (ofBits int32 x).add (ofBits int32 y) = some (ofBits int32 (int32.wrap x + int32.wrap y)) := by
  simp [add, arith, h]

/-- A difference of `int` operands whose exact value is an `int`. -/
theorem sub_int32 (h : int32.inRange ((int32.wrap x).toInt - (int32.wrap y).toInt)) :
    (ofBits int32 x).sub (ofBits int32 y) = some (ofBits int32 (int32.wrap x - int32.wrap y)) := by
  simp [sub, arith, h]

@[simp] theorem bitwise_uint64_left (f : BitVec 64 → BitVec 64 → BitVec 64) (b : CVal) :
    bitwise f (ofBits uint64 x) b = ofBits uint64 (f x b.bits) := by
  simp [bitwise]

@[simp] theorem bitwise_uint64_right (f : BitVec 64 → BitVec 64 → BitVec 64) (a : CVal) :
    bitwise f a (ofBits uint64 x) = ofBits uint64 (f a.bits x) := by
  simp [bitwise]

theorem and_uint64 (y : BitVec 64) : (ofBits uint64 x).and (ofBits uint64 y) =
    ofBits uint64 (x &&& y) := by
  rw [CVal.and, bitwise_uint64_left, ofBits_bits, wrap_uint64]

theorem or_uint64 (y : BitVec 64) : (ofBits uint64 x).or (ofBits uint64 y) =
    ofBits uint64 (x ||| y) := by
  rw [CVal.or, bitwise_uint64_left, ofBits_bits, wrap_uint64]

theorem compl_uint64 : (ofBits uint64 x).compl = ofBits uint64 (~~~x) := by
  rw [CVal.compl, ofBits_bits, wrap_uint64, ofBits_ty, promote_uint64]

/-- A bitwise operator on two operands of one promoted type. -/
theorem bitwise_same {t : CType} (ht : common t t = t) (f : BitVec 64 → BitVec 64 → BitVec 64) :
    bitwise f (ofBits t x) (ofBits t y) = ofBits t (f (t.wrap x) (t.wrap y)) := by
  simp [bitwise, ht]

/-- A shift count below the width. -/
theorem shiftCount_eq {a b : CVal} (hp : b.ty.promote.wrap b.bits = b.bits)
    (h : b.bits.toNat < a.ty.promote.width) : shiftCount a b = some b.bits.toNat := by
  simp [shiftCount, hp, h]

theorem shl_eq {a b : CVal} (hp : b.ty.promote.wrap b.bits = b.bits)
    (h : b.bits.toNat < a.ty.promote.width) :
    a.shl b = some (ofBits a.ty.promote (a.bits <<< b.bits.toNat)) := by
  simp [shl, shiftCount_eq hp h]

theorem shr_eq_of_unsigned {a b : CVal} (hs : a.ty.promote.signed = false)
    (hp : b.ty.promote.wrap b.bits = b.bits) (h : b.bits.toNat < a.ty.promote.width) :
    a.shr b = some (ofBits a.ty.promote (a.ty.promote.wrap a.bits >>> b.bits.toNat)) := by
  simp [shr, shiftCount_eq hp h, hs]

theorem shr_eq_of_signed {a b : CVal} (hs : a.ty.promote.signed = true)
    (hp : b.ty.promote.wrap b.bits = b.bits) (h : b.bits.toNat < a.ty.promote.width) :
    a.shr b = some (ofBits a.ty.promote
      ((a.ty.promote.wrap a.bits).sshiftRight b.bits.toNat)) := by
  simp [shr, shiftCount_eq hp h, hs]

/-- A shift count at or above the width is undefined. -/
theorem shl_eq_none {a b : CVal} (hp : b.ty.promote.wrap b.bits = b.bits)
    (h : a.ty.promote.width ≤ b.bits.toNat) : a.shl b = none := by
  simp [shl, shiftCount, hp, Nat.not_lt.mpr h]

end Images

/-! ### Division -/

section Division

variable (x y : BitVec 64)

/-- An `int64_t` quotient that does not overflow is a value of the type. -/
theorem inRange_tdiv (h : x ≠ BitVec.intMin 64 ∨ y ≠ -1) :
    int64.inRange (x.toInt.tdiv y.toInt) := by
  rw [← BitVec.toInt_sdiv_of_ne_or_ne x y h]
  have hl := BitVec.le_toInt (x.sdiv y)
  have hu := BitVec.toInt_lt (x := x.sdiv y)
  simp only [inRange, signed_int64, if_true, width]
  exact decide_eq_true ⟨hl, hu⟩

theorem inRange_intMin_tdiv :
    int64.inRange ((BitVec.intMin 64).toInt.tdiv (-1 : BitVec 64).toInt) = false := by
  decide

theorem div_int64 : (ofBits int64 x).div (ofBits int64 y) =
    if y = 0 ∨ (x = BitVec.intMin 64 ∧ y = -1) then none
    else some (ofBits int64 (x.sdiv y)) := by
  simp only [div, ofBits_ty, ofBits_bits, common_int64_int64, wrap_int64, signed_int64, if_true,
    arith, Bool.true_and]
  by_cases hy : y = 0
  · simp [hy]
  by_cases hover : x = BitVec.intMin 64 ∧ y = -1
  · obtain ⟨rfl, rfl⟩ := hover
    rw [inRange_intMin_tdiv]
    simp
  · rw [inRange_tdiv x y (Decidable.not_and_iff_not_or_not.mp hover), if_neg hy,
      if_neg (show ¬(y = 0 ∨ x = BitVec.intMin 64 ∧ y = -1) from fun h => h.elim hy hover)]
    rfl

theorem mod_int64 : (ofBits int64 x).mod (ofBits int64 y) =
    if y = 0 ∨ (x = BitVec.intMin 64 ∧ y = -1) then none
    else some (ofBits int64 (x.srem y)) := by
  rw [mod, div_int64]
  by_cases h : y = 0 ∨ (x = BitVec.intMin 64 ∧ y = -1)
  · rw [if_pos h, if_pos h]
    rfl
  · rw [if_neg h, if_neg h]
    rfl

/-- Two operands of one unsigned promoted type. -/
theorem div_of_unsigned {t : CType} (ht : common t t = t) (hs : t.signed = false) :
    (ofBits t x).div (ofBits t y) =
      if t.wrap y = 0 then none else some (ofBits t (t.wrap x / t.wrap y)) := by
  simp [div, ht, hs]

theorem mod_of_unsigned {t : CType} (ht : common t t = t) (hs : t.signed = false) :
    (ofBits t x).mod (ofBits t y) =
      if t.wrap y = 0 then none else some (ofBits t (t.wrap x % t.wrap y)) := by
  rw [mod, div_of_unsigned x y ht hs]
  by_cases hy : t.wrap y = 0
  · rw [if_pos hy, if_pos hy]
    rfl
  · rw [if_neg hy, if_neg hy]
    simp [ht, hs]

end Division

end CVal

end CLang
