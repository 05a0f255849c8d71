import N64Recomp.CLang.Expr
import N64Recomp.Mips.Memory

/-!
# The runtime header

What the emitted code names: the fields of the context and the locals of a function, and the
macros and helper functions of `recomp.h`. `rdram` is a window of 2^30 bytes of the host; every
access is confined to it by `RECOMP_MEM_MASK`. A macro is a function on values, since its
arguments keep their types.

## Main definitions

* `Machine`: the state that the emitted statements read and write
* `Rdram.load`, `Rdram.store`: a dereference of a host pointer into the window
* `memW`, `memH`, `memB`, `doLwl`, `doSwl`, ...: the macros and the helpers
* `Callee`, `Callee.apply`: the names that an emitted expression may call
-/

namespace N64Recomp

open CLang CLang.CType

/-- The host's bytes of the window. -/
abbrev Rdram := Mips.Memory 30

/-- The registers and locals of a function under execution, and the memory window. -/
structure Machine where
  gpr : Fin 32 → BitVec 64
  hi : BitVec 64
  lo : BitVec 64
  c1cs : BitVec 32
  rdram : Rdram
  sectionAddresses : BitVec 32 → BitVec 32
  referenceSectionAddresses : BitVec 32 → BitVec 32

/-- `(gpr)val`. -/
abbrev gpr (x : BitVec 64) : CVal := CVal.ofBits uint64 x

/-- A literal of type `int`. -/
abbrev intLit (n : Nat) : CVal := CVal.ofBits int32 (BitVec.ofNat 64 n)

namespace Rdram

/-- A little-endian read of an object of the type at an offset from `rdram`. Undefined outside
the window, and at an offset the object is not aligned at. -/
def load (rdram : Rdram) (t : CType) (offset : CVal) : Option CVal :=
  let size := t.width / 8
  let o := offset.bits
  if o.toNat < 2 ^ 30 ∧ o.toNat % size = 0 then
    some (CVal.ofBits t ((Mips.ofBytes size fun i =>
      rdram (o.setWidth 30 + BitVec.ofNat 30 (size - 1 - i))).setWidth 64))
  else none

/-- A little-endian write of an object of the type. -/
def store (rdram : Rdram) (t : CType) (offset value : CVal) : Option Rdram :=
  let size := t.width / 8
  let o := offset.bits
  if o.toNat < 2 ^ 30 ∧ o.toNat % size = 0 then
    some (rdram.writeBytes (o.setWidth 30) size fun i =>
      Mips.byte size (value.bits.setWidth (8 * size)) (size - 1 - i))
  else none

end Rdram

/-! ### Addresses -/

/-- `RECOMP_MEM_MASK`. -/
def recompMemMask : CVal := CVal.ofBits uint32 0x3FFFFFFF

/-- `(address - 0xFFFFFFFF80000000) & RECOMP_MEM_MASK`. -/
def windowOffset (address : CVal) : Option CVal :=
  (address.sub (CVal.ofBits uint64 0xFFFFFFFF80000000)).map fun x => x.and recompMemMask

/-- The offset of `MEM_W` and `MEM_WU`. -/
def memWOffset (offset reg : CVal) : Option CVal :=
  (reg.add offset).bind windowOffset

/-- The offset of `MEM_H` and `MEM_HU`. -/
def memHOffset (offset reg : CVal) : Option CVal :=
  (reg.add offset).bind fun x => windowOffset (x.xor (intLit 2))

/-- The offset of `MEM_B` and `MEM_BU`. -/
def memBOffset (offset reg : CVal) : Option CVal :=
  (reg.add offset).bind fun x => windowOffset (x.xor (intLit 3))

/-- `MEM_W(offset, reg)`. -/
def memW (rdram : Rdram) (offset reg : CVal) : Option CVal :=
  (memWOffset offset reg).bind (rdram.load int32)

/-- `MEM_W(offset, reg) = value`. -/
def setMemW (rdram : Rdram) (offset reg value : CVal) : Option Rdram :=
  (memWOffset offset reg).bind fun o => rdram.store int32 o value

/-! ### Helper functions -/

section Helpers

variable (rdram : Rdram)

/-- `load_doubleword(rdram, reg, offset)`. -/
def loadDoubleword (reg offset : CVal) : Option CVal := do
  let reg := reg.convert uint64
  let offset := offset.convert uint64
  let lo ← memW rdram reg (← offset.add (intLit 4))
  let hi ← memW rdram reg (← offset.add (intLit 0))
  let lo := (lo.convert uint32).convert uint64
  let hi := (hi.convert uint32).convert uint64
  return (← lo.shl (intLit 0)).or (← hi.shl (intLit 32))

/-- `0xFFFFFFFFu`. -/
def ones32 : CVal := CVal.ofBits uint32 0xFFFFFFFF

/-- `0xFFFFFFFFFFFFFFFFu`. -/
def ones64 : CVal := CVal.ofBits uint64 0xFFFFFFFFFFFFFFFF

/-- `do_lwl(rdram, initial_value, offset, reg)`. -/
def doLwl (initialValue offset reg : CVal) : Option CVal := do
  let initialValue := initialValue.convert uint64
  let address ← (offset.convert uint64).add (reg.convert uint64)
  let wordAddress := address.and (intLit 3).compl
  let loadedValue := (← memW rdram (intLit 0) wordAddress).convert uint32
  let misalignment := address.and (intLit 3)
  let maskedValue := initialValue.and
    (((← ones32.shl (← misalignment.mul (intLit 8))).compl.convert uint32).convert uint64)
  let loadedValue := (← loadedValue.shl (← misalignment.mul (intLit 8))).convert uint32
  return ((maskedValue.or loadedValue).convert int32).convert uint64

/-- `do_lwr(rdram, initial_value, offset, reg)`. -/
def doLwr (initialValue offset reg : CVal) : Option CVal := do
  let initialValue := initialValue.convert uint64
  let address ← (offset.convert uint64).add (reg.convert uint64)
  let wordAddress := address.and (intLit 3).compl
  let loadedValue := (← memW rdram (intLit 0) wordAddress).convert uint32
  let misalignment := address.and (intLit 3)
  let maskedValue := initialValue.and
    (((← ones32.shr (← (intLit 24).sub (← misalignment.mul (intLit 8)))).compl.convert
      uint32).convert uint64)
  let loadedValue :=
    (← loadedValue.shr (← (intLit 24).sub (← misalignment.mul (intLit 8)))).convert uint32
  return ((maskedValue.or loadedValue).convert int32).convert uint64

/-- `do_swl(rdram, offset, reg, val)`. -/
def doSwl (offset reg val : CVal) : Option Rdram := do
  let val := val.convert uint64
  let address ← (offset.convert uint64).add (reg.convert uint64)
  let wordAddress := address.and (intLit 3).compl
  let initialValue := (← memW rdram (intLit 0) wordAddress).convert uint32
  let misalignment := address.and (intLit 3)
  let maskedInitialValue := (initialValue.and
    (← ones32.shr (← misalignment.mul (intLit 8))).compl).convert uint32
  let shiftedInputValue :=
    (← (val.convert uint32).shr (← misalignment.mul (intLit 8))).convert uint32
  setMemW rdram (intLit 0) wordAddress (maskedInitialValue.or shiftedInputValue)

/-- `do_swr(rdram, offset, reg, val)`. -/
def doSwr (offset reg val : CVal) : Option Rdram := do
  let val := val.convert uint64
  let address ← (offset.convert uint64).add (reg.convert uint64)
  let wordAddress := address.and (intLit 3).compl
  let initialValue := (← memW rdram (intLit 0) wordAddress).convert uint32
  let misalignment := address.and (intLit 3)
  let maskedInitialValue := (initialValue.and
    (← ones32.shl (← (intLit 24).sub (← misalignment.mul (intLit 8)))).compl).convert uint32
  let shiftedInputValue :=
    (← (val.convert uint32).shl (← (intLit 24).sub (← misalignment.mul (intLit 8)))).convert
      uint32
  setMemW rdram (intLit 0) wordAddress (maskedInitialValue.or shiftedInputValue)

/-- `do_ldl(rdram, initial_value, offset, reg)`. -/
def doLdl (initialValue offset reg : CVal) : Option CVal := do
  let initialValue := initialValue.convert uint64
  let address ← (offset.convert uint64).add (reg.convert uint64)
  let dwordAddress := address.and (intLit 7).compl
  let loadedValue ← loadDoubleword rdram (intLit 0) dwordAddress
  let misalignment := address.and (intLit 7)
  let maskedValue := initialValue.and (← ones64.shl (← misalignment.mul (intLit 8))).compl
  let loadedValue ← loadedValue.shl (← misalignment.mul (intLit 8))
  return maskedValue.or loadedValue

/-- `do_ldr(rdram, initial_value, offset, reg)`. -/
def doLdr (initialValue offset reg : CVal) : Option CVal := do
  let initialValue := initialValue.convert uint64
  let address ← (offset.convert uint64).add (reg.convert uint64)
  let dwordAddress := address.and (intLit 7).compl
  let loadedValue ← loadDoubleword rdram (intLit 0) dwordAddress
  let misalignment := address.and (intLit 7)
  let maskedValue := initialValue.and
    (← ones64.shr (← (intLit 56).sub (← misalignment.mul (intLit 8)))).compl
  let loadedValue ← loadedValue.shr (← (intLit 56).sub (← misalignment.mul (intLit 8)))
  return maskedValue.or loadedValue

/-- The two word stores that end `do_sdl` and `do_sdr`. -/
def storeDoubleword (dwordAddress ret : CVal) : Option Rdram := do
  let lo := ret.convert uint32
  let hi := (← ret.shr (intLit 32)).convert uint32
  let rdram ← setMemW rdram (intLit 0) (← dwordAddress.add (intLit 4)) lo
  setMemW rdram (intLit 0) (← dwordAddress.add (intLit 0)) hi

/-- `do_sdl(rdram, offset, reg, val)`. -/
def doSdl (offset reg val : CVal) : Option Rdram := do
  let val := val.convert uint64
  let address ← (offset.convert uint64).add (reg.convert uint64)
  let dwordAddress := address.and (intLit 7).compl
  let initialValue ← loadDoubleword rdram (intLit 0) dwordAddress
  let misalignment := address.and (intLit 7)
  let maskedInitialValue :=
    initialValue.and (← ones64.shr (← misalignment.mul (intLit 8))).compl
  let shiftedInputValue ← val.shr (← misalignment.mul (intLit 8))
  storeDoubleword rdram dwordAddress (maskedInitialValue.or shiftedInputValue)

/-- `do_sdr(rdram, offset, reg, val)`. -/
def doSdr (offset reg val : CVal) : Option Rdram := do
  let val := val.convert uint64
  let address ← (offset.convert uint64).add (reg.convert uint64)
  let dwordAddress := address.and (intLit 7).compl
  let initialValue ← loadDoubleword rdram (intLit 0) dwordAddress
  let misalignment := address.and (intLit 7)
  let maskedInitialValue := initialValue.and
    (← ones64.shl (← (intLit 56).sub (← misalignment.mul (intLit 8)))).compl
  let shiftedInputValue ← val.shl (← (intLit 56).sub (← misalignment.mul (intLit 8)))
  storeDoubleword rdram dwordAddress (maskedInitialValue.or shiftedInputValue)

/-- `SD(val, offset, reg)`. -/
def sd (val offset reg : CVal) : Option Rdram := do
  let low ← windowOffset (← (← reg.add offset).add (intLit 4))
  let rdram ← rdram.store uint32 low ((← (val.convert uint64).shr (intLit 0)).convert uint32)
  let high ← windowOffset (← (← reg.add offset).add (intLit 0))
  rdram.store uint32 high ((← (val.convert uint64).shr (intLit 32)).convert uint32)

end Helpers

/-! ### What the emitted text names -/

/-- The lvalues of the emitted code. -/
inductive Object
  | gpr (r : Fin 32)
  | hi | lo | c1cs
  /-- `section_addresses[index]`, or the reference sections' array. -/
  | sectionAddress (reference : Bool) (index : BitVec 32)
  /-- `ctx->f{i}.fl`, `ctx->f{i}.d`, `ctx->f{i}.u32l`, `ctx->f{i}.u64`. -/
  | fprFl (i : Fin 32) | fprD (i : Fin 32) | fprU32l (i : Fin 32) | fprU64 (i : Fin 32)
  /-- `ctx->f_odd[index]`. -/
  | fOdd (index : Nat)
  deriving DecidableEq, Repr

/-- The functions and macros over floating-point values. -/
inductive FloatCallee
  | mulS | mulD | divS | divD | fabsf | fabs | sqrtf | sqrt
  | cvtSW | cvtWS | cvtDW | cvtWD | cvtDS | cvtSD | cvtDL | cvtLD | cvtSL | cvtLS
  | truncWS | truncWD | truncLS | truncLD | lroundf | lround | llroundf | llround
  | ceilf | ceil | floorf | floor
  deriving DecidableEq, Repr

/-- The functions and macros that the emitted expressions call. -/
inductive Callee
  | signed | s32 | u32 | s64 | add32 | sub32
  | memW | memWU | memH | memHU | memB | memBU | ld
  | doLdl | doLdr | doLwl | doLwr
  | float (f : FloatCallee)
  deriving DecidableEq, Repr

/-- What a call with one argument returns. Floating-point values are not modelled. -/
def Callee.apply₁ (a : CVal) : Callee → Option CVal
  | .signed => some (a.convert int64)
  | .s32 => some (a.convert int32)
  | .u32 => some (a.convert uint32)
  | .s64 => some (a.convert int64)
  | _ => none

/-- What a call with two arguments returns: the addresses are `(offset, reg)`. -/
def Callee.apply₂ (rdram : Rdram) (a b : CVal) : Callee → Option CVal
  | .add32 => (a.add b).map fun x => (x.convert int32).convert uint64
  | .sub32 => (a.sub b).map fun x => (x.convert int32).convert uint64
  | .memW => N64Recomp.memW rdram a b
  | .memWU => (memWOffset a b).bind (rdram.load uint32)
  | .memH => (memHOffset a b).bind (rdram.load int16)
  | .memHU => (memHOffset a b).bind (rdram.load uint16)
  | .memB => (memBOffset a b).bind (rdram.load int8)
  | .memBU => (memBOffset a b).bind (rdram.load uint8)
  | .ld => loadDoubleword rdram a b
  | _ => none

/-- What a call with an initial value, an offset and a register returns. -/
def Callee.apply₃ (rdram : Rdram) (initialValue offset reg : CVal) : Callee → Option CVal
  | .doLdl => N64Recomp.doLdl rdram initialValue offset reg
  | .doLdr => N64Recomp.doLdr rdram initialValue offset reg
  | .doLwl => N64Recomp.doLwl rdram initialValue offset reg
  | .doLwr => N64Recomp.doLwr rdram initialValue offset reg
  | _ => none

attribute [simp] Callee.apply₁ Callee.apply₂ Callee.apply₃

/-- What a call returns. -/
def Callee.apply (rdram : Rdram) (callee : Callee) : List CVal → Option CVal
  | [a] => callee.apply₁ a
  | [a, b] => callee.apply₂ rdram a b
  | [a, b, c] => callee.apply₃ rdram a b c
  | _ => none

section Calls

variable (rdram : Rdram) (callee : Callee) (a b c : CVal)

@[simp] theorem Callee.apply_one : callee.apply rdram [a] = callee.apply₁ a := rfl

@[simp] theorem Callee.apply_two : callee.apply rdram [a, b] = callee.apply₂ rdram a b := rfl

@[simp] theorem Callee.apply_three :
    callee.apply rdram [a, b, c] = callee.apply₃ rdram a b c := rfl

end Calls

/-- What an object holds. -/
def Machine.object (m : Machine) : Object → Option CVal
  | .gpr r => some (N64Recomp.gpr (m.gpr r))
  | .hi => some (N64Recomp.gpr m.hi)
  | .lo => some (N64Recomp.gpr m.lo)
  | .c1cs => some (CVal.ofBits int32 (m.c1cs.setWidth 64))
  | .sectionAddress false i => some (CVal.ofBits int32 ((m.sectionAddresses i).setWidth 64))
  | .sectionAddress true i =>
    some (CVal.ofBits int32 ((m.referenceSectionAddresses i).setWidth 64))
  | _ => none

attribute [simp] Machine.object

/-- The environment that the emitted expressions are evaluated in. -/
def Machine.env (m : Machine) : Env Object Callee where
  var := m.object
  call := Callee.apply m.rdram

@[simp] theorem Machine.env_var (m : Machine) : m.env.var = m.object := rfl

@[simp] theorem Machine.env_call (m : Machine) : m.env.call = Callee.apply m.rdram := rfl

end N64Recomp
