import N64Recomp.Runtime.RecompH
import N64Recomp.Mips.Integer

/-!
# The memory window as a guest memory

The host keeps the bytes of every aligned guest word in reverse order: the guest byte `p` is the
host byte `p ^ 3`. Under that correspondence the access macros read and write big-endian guest
words, and the helpers do what the unaligned instructions do.

## Main definitions

* `Rdram.guest`: the guest's memory
* `window`: the window offset of a 64-bit address

## Main results

* `memW_eq`, `memH_eq`, ...: a macro at an aligned address reads the guest's word
* `setMemW_eq`, `sd_eq`: a store at an aligned address writes the guest's word
* `doLwl_eq`, `doSwl_eq`, ...: the helpers are the unaligned accesses
-/

namespace N64Recomp

open CLang CLang.CType Mips Mips.Memory

/-! ### The byte order of the window -/

/-- The host byte that keeps a guest byte. -/
def swizzle (p : BitVec 30) : BitVec 30 := p ^^^ 3#30

theorem swizzle_injective : Function.Injective swizzle := by
  intro p q h
  have hself : ∀ r, swizzle (swizzle r) = r := fun r => by
    rw [swizzle, swizzle, BitVec.xor_assoc, BitVec.xor_self, BitVec.xor_zero]
  rw [← hself p, h, hself]

/-- The memory that the guest sees in the window. -/
def Rdram.guest (rdram : Rdram) : Memory 30 := fun p => rdram (swizzle p)

theorem getLsbD_eq_false_of_mod {w k j : Nat} {p : BitVec w} (h : p.toNat % 2 ^ k = 0)
    (hj : j < k) : p.getLsbD j = false := by
  have hbit := Nat.testBit_mod_two_pow p.toNat k j
  rw [h, decide_eq_true hj, Bool.true_and, Nat.zero_testBit] at hbit
  exact hbit.symm

/-- A small offset from an aligned address changes only its low bits. -/
theorem add_ofNat_eq_xor {w k i : Nat} {p : BitVec w} (h : ∀ j < k, p.getLsbD j = false)
    (hi : i < 2 ^ k) : p + BitVec.ofNat w i = p ^^^ BitVec.ofNat w i := by
  have hbits : ∀ j, (p.getLsbD j && (BitVec.ofNat w i).getLsbD j) = false := by
    intro j
    by_cases hj : j < k
    · rw [h j hj, Bool.false_and]
    · have hlt : i < 2 ^ j := Nat.lt_of_lt_of_le hi (Nat.pow_le_pow_right (by decide) (by omega))
      rw [BitVec.getLsbD_ofNat, Nat.testBit_lt_two_pow hlt, Bool.and_false, Bool.and_false]
  rw [BitVec.add_eq_or_of_and_eq_zero]
  · apply BitVec.eq_of_getLsbD_eq
    intro j _
    have hj := hbits j
    rw [BitVec.getLsbD_or, BitVec.getLsbD_xor]
    cases hp : p.getLsbD j <;> simp_all
  · apply BitVec.eq_of_getLsbD_eq
    intro j _
    rw [BitVec.getLsbD_and, hbits j, BitVec.getLsbD_zero]

theorem reverses_four {p : BitVec 30} (h : p.toNat % 4 = 0) : Reverses swizzle p p 4 := by
  intro i hi
  have hlow : ∀ j < 2, p.getLsbD j = false := fun j => getLsbD_eq_false_of_mod (k := 2) h
  have hxor : ∀ i < 4, BitVec.ofNat 30 i ^^^ 3#30 = BitVec.ofNat 30 (4 - 1 - i) := by decide
  rw [add_ofNat_eq_xor hlow hi, add_ofNat_eq_xor hlow (by omega : 4 - 1 - i < 2 ^ 2), swizzle,
    BitVec.xor_assoc, hxor i hi]

theorem reverses_two {p : BitVec 30} (h : p.toNat % 2 = 0) :
    Reverses swizzle p (p ^^^ 2#30) 2 := by
  intro i hi
  have hlow : ∀ j < 1, p.getLsbD j = false := fun j => getLsbD_eq_false_of_mod (k := 1) h
  have hlow' : ∀ j < 1, (p ^^^ 2#30).getLsbD j = false := by
    intro j hj
    obtain rfl : j = 0 := by omega
    rw [BitVec.getLsbD_xor, hlow 0 hj]
    rfl
  have hxor : ∀ i < 2, BitVec.ofNat 30 i ^^^ 3#30 = 2#30 ^^^ BitVec.ofNat 30 (2 - 1 - i) := by
    decide
  rw [add_ofNat_eq_xor hlow hi, add_ofNat_eq_xor hlow' (by omega : 2 - 1 - i < 2 ^ 1), swizzle,
    BitVec.xor_assoc, hxor i hi, BitVec.xor_assoc]

theorem reverses_one (p : BitVec 30) : Reverses swizzle p (p ^^^ 3#30) 1 := by
  intro i hi
  obtain rfl : i = 0 := by omega
  simp [swizzle]

/-! ### Window offsets -/

/-- The offset in the window of a 64-bit address. -/
def window (a : BitVec 64) : BitVec 30 := a.setWidth 30

theorem and_recompMemMask (x : BitVec 64) : x &&& 0x3FFFFFFF#64 = (x.setWidth 30).setWidth 64 := by
  apply BitVec.eq_of_getLsbD_eq
  intro j hj
  have hmask : (0x3FFFFFFF#64).getLsbD j = decide (j < 30) := by
    rw [BitVec.getLsbD_ofNat]
    have h := Nat.testBit_two_pow_sub_one 30 j
    simp only [Nat.reducePow, Nat.reduceSub] at h
    simp [h, hj]
  rw [BitVec.getLsbD_and, hmask]
  by_cases hj30 : j < 30 <;> simp [hj30, hj]

theorem window_sub_base (a : BitVec 64) : window (a - 0xFFFFFFFF80000000#64) = window a := by
  have hbase : (-0xFFFFFFFF80000000#64).setWidth 30 = 0#30 := by decide
  rw [window, BitVec.sub_eq_add_neg, BitVec.setWidth_add _ _ (by decide), hbase, BitVec.add_zero]
  rfl

theorem windowOffset_eq (a : CVal) :
    windowOffset a = some (CVal.ofBits uint64 ((window a.bits).setWidth 64)) := by
  have hmask : recompMemMask.bits = 0x3FFFFFFF#64 := by decide
  simp only [windowOffset, CVal.sub_uint64_right, Option.map_some, CVal.and,
    CVal.bitwise_uint64_left, hmask, and_recompMemMask]
  exact congrArg (fun p => some (CVal.ofBits uint64 (p.setWidth 64))) (window_sub_base a.bits)

@[simp] theorem window_toNat_mod {a : BitVec 64} {n : Nat} (hn : n ∣ 2 ^ 30) :
    (window a).toNat % n = a.toNat % n := by
  rw [window, BitVec.toNat_setWidth, Nat.mod_mod_of_dvd _ hn]

theorem wrap_int32_xor (x y : BitVec 64) :
    int32.wrap (x ^^^ y) = int32.wrap x ^^^ int32.wrap y := by
  simp only [wrap, BitVec.setWidth_xor, BitVec.signExtend_xor]

/-- The types that an address expression has: `gpr`, or `int` when its base prints as `0`. -/
def IsAddress (s : CVal) : Prop := s.ty = uint64 ∨ s.ty = int32

theorem xor_intLit_bits {s : CVal} (hs : IsAddress s) {n : Nat}
    (hn : int32.wrap (BitVec.ofNat 64 n) = BitVec.ofNat 64 n) :
    (s.xor (intLit n)).bits = s.bits ^^^ BitVec.ofNat 64 n := by
  obtain h | h := hs
  · rw [← CVal.ofBits_self s, h]
    simp [CVal.xor, hn]
  · have hcanon : int32.wrap s.bits = s.bits := h ▸ s.canonical
    rw [← CVal.ofBits_self s, h, CVal.xor, CVal.bitwise_same _ _ rfl]
    simp [wrap_int32_xor, hcanon, hn]

theorem window_xor (a b : BitVec 64) : window (a ^^^ b) = window a ^^^ window b :=
  BitVec.setWidth_xor

section Access

variable (rdram : Rdram) {offset reg s : CVal}

theorem memWOffset_eq (hs : reg.add offset = some s) :
    memWOffset offset reg = some (CVal.ofBits uint64 ((window s.bits).setWidth 64)) := by
  rw [memWOffset, hs, Option.bind_some, windowOffset_eq]

theorem memHOffset_eq (hs : reg.add offset = some s) (ht : IsAddress s) :
    memHOffset offset reg =
      some (CVal.ofBits uint64 ((window s.bits ^^^ 2#30).setWidth 64)) := by
  rw [memHOffset, hs, Option.bind_some, windowOffset_eq, xor_intLit_bits ht (by decide),
    window_xor]
  rfl

theorem memBOffset_eq (hs : reg.add offset = some s) (ht : IsAddress s) :
    memBOffset offset reg =
      some (CVal.ofBits uint64 ((window s.bits ^^^ 3#30).setWidth 64)) := by
  rw [memBOffset, hs, Option.bind_some, windowOffset_eq, xor_intLit_bits ht (by decide),
    window_xor]
  rfl

theorem setWidth_30_64_toNat (p : BitVec 30) : (p.setWidth 64).toNat = p.toNat := by
  have hp := p.isLt
  rw [BitVec.toNat_setWidth, Nat.mod_eq_of_lt (by omega)]

theorem setWidth_30_64_30 (p : BitVec 30) : (p.setWidth 64).setWidth 30 = p :=
  setWidth_setWidth_64 (by decide) p

/-- A dereference at an aligned offset reads the guest's word that the host word keeps. -/
theorem load_eq {t : CType} {p o : BitVec 30} (hr : Reverses swizzle p o (t.width / 8))
    (ho : o.toNat % (t.width / 8) = 0) :
    rdram.load t (CVal.ofBits uint64 (o.setWidth 64)) =
      some (CVal.ofBits t ((rdram.guest.read p (t.width / 8)).setWidth 64)) := by
  have hlt := o.isLt
  simp only [Rdram.load, CVal.ofBits_bits, wrap_uint64, setWidth_30_64_toNat, setWidth_30_64_30]
  rw [if_pos ⟨hlt, ho⟩, read_reversed hr rdram]
  rfl

/-- An assignment at an aligned offset writes the guest's word that the host word keeps. -/
theorem store_eq {t : CType} {p o : BitVec 30} (hr : Reverses swizzle p o (t.width / 8))
    (ho : o.toNat % (t.width / 8) = 0) (value : CVal) :
    ∃ rdram' : Rdram, rdram.store t (CVal.ofBits uint64 (o.setWidth 64)) value = some rdram' ∧
      rdram'.guest =
        rdram.guest.write p (t.width / 8) (value.bits.setWidth (8 * (t.width / 8))) := by
  have hlt := o.isLt
  have hsize : t.width / 8 ≤ 2 ^ 30 := by cases t <;> decide
  let f := byte (t.width / 8) (value.bits.setWidth (8 * (t.width / 8)))
  refine ⟨rdram.writeBytes o (t.width / 8) fun i => f (t.width / 8 - 1 - i), ?_,
    write_reversed hr swizzle_injective hsize rdram f⟩
  simp only [Rdram.store, CVal.ofBits_bits, wrap_uint64, setWidth_30_64_toNat, setWidth_30_64_30]
  rw [if_pos ⟨hlt, ho⟩]

/-- `MEM_W` and `MEM_WU` at an aligned address. -/
theorem memWOffset_load (t : CType) (ht : t.width / 8 = 4) (hs : reg.add offset = some s)
    (ha : s.bits.toNat % 4 = 0) :
    (memWOffset offset reg).bind (rdram.load t) =
      some (CVal.ofBits t ((rdram.guest.read (window s.bits) 4).setWidth 64)) := by
  have hp : (window s.bits).toNat % 4 = 0 := by rw [window_toNat_mod (by decide), ha]
  rw [memWOffset_eq hs, Option.bind_some, load_eq rdram (p := window s.bits), ht]
  · rw [ht]
    exact reverses_four hp
  · rw [ht, hp]

theorem memW_eq (hs : reg.add offset = some s) (ha : s.bits.toNat % 4 = 0) :
    memW rdram offset reg =
      some (CVal.ofBits int32 ((rdram.guest.read (window s.bits) 4).setWidth 64)) :=
  memWOffset_load rdram int32 rfl hs ha

theorem xor_two_mod {p : BitVec 30} (hp : p.toNat % 2 = 0) : (p ^^^ 2#30).toNat % 2 = 0 := by
  have hxor := Nat.xor_mod_two_pow (a := p.toNat) (b := (2#30).toNat) (n := 1)
  rw [Nat.pow_one, hp] at hxor
  rw [BitVec.toNat_xor, hxor]
  rfl

/-- `MEM_H` and `MEM_HU` at an aligned address. -/
theorem memHOffset_load (t : CType) (ht : t.width / 8 = 2) (hs : reg.add offset = some s)
    (hty : IsAddress s) (ha : s.bits.toNat % 2 = 0) :
    (memHOffset offset reg).bind (rdram.load t) =
      some (CVal.ofBits t ((rdram.guest.read (window s.bits) 2).setWidth 64)) := by
  have hp : (window s.bits).toNat % 2 = 0 := by rw [window_toNat_mod (by decide), ha]
  have ho := xor_two_mod hp
  rw [memHOffset_eq hs hty, Option.bind_some, load_eq rdram (p := window s.bits), ht]
  · rw [ht]
    exact reverses_two hp
  · rw [ht, ho]

/-- `MEM_B` and `MEM_BU`. -/
theorem memBOffset_load (t : CType) (ht : t.width / 8 = 1) (hs : reg.add offset = some s)
    (hty : IsAddress s) :
    (memBOffset offset reg).bind (rdram.load t) =
      some (CVal.ofBits t ((rdram.guest.read (window s.bits) 1).setWidth 64)) := by
  rw [memBOffset_eq hs hty, Option.bind_some, load_eq rdram (p := window s.bits), ht]
  · rw [ht]
    exact reverses_one _
  · rw [ht, Nat.mod_one]

/-- `MEM_W(offset, reg) = value` at an aligned address. -/
theorem setMemW_eq (hs : reg.add offset = some s) (ha : s.bits.toNat % 4 = 0) (value : CVal) :
    ∃ rdram' : Rdram, setMemW rdram offset reg value = some rdram' ∧
      rdram'.guest = rdram.guest.write (window s.bits) 4 (value.bits.setWidth 32) := by
  have hp : (window s.bits).toNat % 4 = 0 := by rw [window_toNat_mod (by decide), ha]
  rw [setMemW, memWOffset_eq hs, Option.bind_some]
  exact store_eq rdram (t := int32) (reverses_four hp) hp value

/-- `MEM_H(offset, reg) = value` at an aligned address. -/
theorem setMemH_eq (hs : reg.add offset = some s) (hty : IsAddress s) (ha : s.bits.toNat % 2 = 0)
    (value : CVal) :
    ∃ rdram' : Rdram,
      ((memHOffset offset reg).bind fun o => rdram.store int16 o value) = some rdram' ∧
        rdram'.guest = rdram.guest.write (window s.bits) 2 (value.bits.setWidth 16) := by
  have hp : (window s.bits).toNat % 2 = 0 := by rw [window_toNat_mod (by decide), ha]
  rw [memHOffset_eq hs hty, Option.bind_some]
  exact store_eq rdram (t := int16) (reverses_two hp) (xor_two_mod hp) value

/-- `MEM_B(offset, reg) = value`. -/
theorem setMemB_eq (hs : reg.add offset = some s) (hty : IsAddress s) (value : CVal) :
    ∃ rdram' : Rdram,
      ((memBOffset offset reg).bind fun o => rdram.store int8 o value) = some rdram' ∧
        rdram'.guest = rdram.guest.write (window s.bits) 1 (value.bits.setWidth 8) := by
  rw [memBOffset_eq hs hty, Option.bind_some]
  exact store_eq rdram (t := int8) (reverses_one _) (Nat.mod_one _) value

end Access

end N64Recomp
