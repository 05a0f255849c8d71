import N64Recomp.CGenerator.Values
import N64Recomp.Mips.UnalignedPairs

/-!
# One big-endian memory

The window keeps every word of the guest in the byte order of the host. Through the macros of the
runtime header and through its unaligned helpers it is one big-endian memory.

## Main definitions

* `ViewLoads`, `ViewStores`: the accesses of one macro
* `LoadsAs`, `StoresAs`: a helper does what an instruction does, byte by byte
* `BigEndian`: the accesses of the header, together

## Main results

* `rdram_bigEndian`: the accesses of every window
-/

namespace N64Recomp

open CLang CLang.CType Mips Mips.Memory

/-! ### The accesses -/

section Accesses

variable (rdram : Rdram)

/-- A macro reads the big-endian words of a type at its naturally aligned addresses. -/
def ViewLoads (t : CType) (offsetOf : CVal → CVal → Option CVal) : Prop :=
  ∀ offset reg x y, IsOperand reg x → IsOperand offset y → (x + y).toNat % (t.width / 8) = 0 →
    (offsetOf offset reg).bind (rdram.load t) =
      some (CVal.ofBits t ((rdram.guest.read (window (x + y)) (t.width / 8)).setWidth 64))

/-- A macro writes the big-endian words of a type at its naturally aligned addresses. -/
def ViewStores (t : CType) (offsetOf : CVal → CVal → Option CVal) : Prop :=
  ∀ offset reg x y value, IsOperand reg x → IsOperand offset y →
    (x + y).toNat % (t.width / 8) = 0 →
    ∃ rdram' : Rdram, ((offsetOf offset reg).bind fun o => rdram.store t o value) = some rdram' ∧
      rdram'.guest = rdram.guest.write (window (x + y)) (t.width / 8)
        (value.bits.setWidth (8 * (t.width / 8)))

/-- What a helper returns for a register value at an address. -/
abbrev LoadHelper := Rdram → CVal → CVal → CVal → Option CVal

/-- What a helper leaves for a register value at an address. -/
abbrev StoreHelper := Rdram → CVal → CVal → CVal → Option Rdram

/-- A helper returns what the instruction loads, at any address. -/
def LoadsAs (op : Mips.LoadOp) (helper : LoadHelper) : Prop :=
  ∀ initialValue offset reg a, offset.bits + reg.bits = a →
    ∃ v, helper rdram initialValue offset reg = some v ∧
      v.bits = op.eval rdram.guest (window a) (a.toNat % 8) initialValue.bits

/-- A helper leaves what the instruction stores, at any address. -/
def StoresAs (op : Mips.StoreOp) (helper : StoreHelper) : Prop :=
  ∀ offset reg val a, offset.bits + reg.bits = a →
    ∃ rdram' : Rdram, helper rdram offset reg val = some rdram' ∧
      rdram'.guest = op.eval rdram.guest (window a) (a.toNat % 8) val.bits

/-- A left and a right load at the first and the last of `n` bytes merge into the same result, in
either order. -/
def LoadsPair (left right : LoadHelper) (n : Nat)
    (result : Mips.Memory 30 → BitVec 30 → BitVec 64) : Prop :=
  ∀ initialValue offset reg offset' reg' a, offset.bits + reg.bits = a →
    offset'.bits + reg'.bits = a + BitVec.ofNat 64 (n - 1) →
    (∃ v, ((left rdram initialValue offset reg).bind fun v => right rdram v offset' reg') = some v ∧
      v.bits = result rdram.guest (window a)) ∧
    ∃ v, ((right rdram initialValue offset' reg').bind fun v => left rdram v offset reg) = some v ∧
      v.bits = result rdram.guest (window a)

/-- A left and a right store at the first and the last of `n` bytes write the bytes of a word, in
either order. -/
def StoresPair (left right : StoreHelper) (n : Nat) : Prop :=
  ∀ offset reg offset' reg' val a, offset.bits + reg.bits = a →
    offset'.bits + reg'.bits = a + BitVec.ofNat 64 (n - 1) →
    (∃ rdram' : Rdram,
      ((left rdram offset reg val).bind fun r => right r offset' reg' val) = some rdram' ∧
        rdram'.guest = rdram.guest.write (window a) n (val.bits.setWidth (8 * n))) ∧
    ∃ rdram' : Rdram,
      ((right rdram offset' reg' val).bind fun r => left r offset reg val) = some rdram' ∧
        rdram'.guest = rdram.guest.write (window a) n (val.bits.setWidth (8 * n))

/-- The accesses of the runtime header to one big-endian memory. -/
structure BigEndian : Prop where
  /-- `MEM_B`, `MEM_BU`, `MEM_H`, `MEM_HU`, `MEM_W`, `MEM_WU` as values. -/
  load_byte : ∀ t ∈ [int8, uint8], ViewLoads rdram t memBOffset
  load_half : ∀ t ∈ [int16, uint16], ViewLoads rdram t memHOffset
  load_word : ∀ t ∈ [int32, uint32], ViewLoads rdram t memWOffset
  /-- The same assigned to. -/
  store_byte : ∀ t ∈ [int8, uint8], ViewStores rdram t memBOffset
  store_half : ∀ t ∈ [int16, uint16], ViewStores rdram t memHOffset
  store_word : ∀ t ∈ [int32, uint32], ViewStores rdram t memWOffset
  /-- `LD` and `SD`. -/
  load_doubleword : ∀ offset reg x y, IsOperand reg x → IsOperand offset y →
    (x + y).toNat % 8 = 0 →
    loadDoubleword rdram offset reg = some (gpr (rdram.guest.read (window (x + y)) 8))
  store_doubleword : ∀ val offset reg x y, IsOperand reg x → IsOperand offset y →
    (x + y).toNat % 8 = 0 → ∃ rdram' : Rdram, sd rdram val offset reg = some rdram' ∧
      rdram'.guest = rdram.guest.write (window (x + y)) 8 val.bits
  lwl : LoadsAs rdram .lwl doLwl
  lwr : LoadsAs rdram .lwr doLwr
  ldl : LoadsAs rdram .ldl doLdl
  ldr : LoadsAs rdram .ldr doLdr
  swl : StoresAs rdram .swl doSwl
  swr : StoresAs rdram .swr doSwr
  sdl : StoresAs rdram .sdl doSdl
  sdr : StoresAs rdram .sdr doSdr
  lwl_lwr : LoadsPair rdram doLwl doLwr 4 fun mem p => ofWord (mem.read p 4)
  ldl_ldr : LoadsPair rdram doLdl doLdr 8 fun mem p => mem.read p 8
  swl_swr : StoresPair rdram doSwl doSwr 4
  sdl_sdr : StoresPair rdram doSdl doSdr 8

end Accesses

/-! ### The views -/

section Views

variable (rdram : Rdram) {t : CType}

theorem viewLoads_byte (ht : t.width / 8 = 1) : ViewLoads rdram t memBOffset := by
  intro offset reg x y hreg hoffset _
  obtain ⟨s, hs, hbits, haddress⟩ := hreg.address hoffset
  have hload := memBOffset_load rdram t ht hs haddress
  rwa [hbits, ← ht] at hload

theorem viewLoads_half (ht : t.width / 8 = 2) : ViewLoads rdram t memHOffset := by
  intro offset reg x y hreg hoffset ha
  obtain ⟨s, hs, hbits, haddress⟩ := hreg.address hoffset
  have hload := memHOffset_load rdram t ht hs haddress (by rwa [hbits, ← ht])
  rwa [hbits, ← ht] at hload

theorem viewLoads_word (ht : t.width / 8 = 4) : ViewLoads rdram t memWOffset := by
  intro offset reg x y hreg hoffset ha
  obtain ⟨s, hs, hbits, -⟩ := hreg.address hoffset
  have hload := memWOffset_load rdram t ht hs (by rwa [hbits, ← ht])
  rwa [hbits, ← ht] at hload

theorem viewStores_byte (ht : t.width / 8 = 1) : ViewStores rdram t memBOffset := by
  intro offset reg x y value hreg hoffset _
  obtain ⟨s, hs, hbits, haddress⟩ := hreg.address hoffset
  rw [memBOffset_eq hs haddress, Option.bind_some, hbits]
  exact store_eq rdram (ht ▸ reverses_one _) (ht ▸ Nat.mod_one _) value

theorem viewStores_half (ht : t.width / 8 = 2) : ViewStores rdram t memHOffset := by
  intro offset reg x y value hreg hoffset ha
  obtain ⟨s, hs, hbits, haddress⟩ := hreg.address hoffset
  have hp : (window (x + y)).toNat % 2 = 0 := by rw [window_toNat_mod (by decide), ← ht, ha]
  rw [memHOffset_eq hs haddress, Option.bind_some, hbits]
  exact store_eq rdram (ht ▸ reverses_two hp) (ht ▸ xor_two_mod hp) value

theorem viewStores_word (ht : t.width / 8 = 4) : ViewStores rdram t memWOffset := by
  intro offset reg x y value hreg hoffset ha
  obtain ⟨s, hs, hbits, -⟩ := hreg.address hoffset
  have hp : (window (x + y)).toNat % 4 = 0 := by rw [window_toNat_mod (by decide), ← ht, ha]
  rw [memWOffset_eq hs, Option.bind_some, hbits]
  exact store_eq rdram (ht ▸ reverses_four hp) (ht ▸ hp) value

end Views

/-! ### The pairs -/

section Pairs

variable (rdram : Rdram) {n : Nat}

/-- The last byte of a word has the address of its last byte in the window. -/
theorem window_last (a : BitVec 64) (n : Nat) :
    window (a + BitVec.ofNat 64 n) = window a + BitVec.ofNat 30 n := by
  rw [window_add]
  congr 1
  apply BitVec.eq_of_toNat_eq
  rw [window, BitVec.toNat_setWidth, BitVec.toNat_ofNat, BitVec.toNat_ofNat]
  omega

theorem add_toNat_mod_eight (a : BitVec 64) (n : Nat) :
    (a + BitVec.ofNat 64 n).toNat % 8 = (a.toNat % 8 + n) % 8 := by
  rw [BitVec.toNat_add, BitVec.toNat_ofNat]
  omega

/-- Two helpers that do what two instructions do, whose results are the same in either order. -/
theorem loadsPair_of_loadsAs {left right : Mips.LoadOp} {leftHelper rightHelper : LoadHelper}
    {result : Mips.Memory 30 → BitVec 30 → BitVec 64}
    (hleft : LoadsAs rdram left leftHelper) (hright : LoadsAs rdram right rightHelper)
    (hresult : ∀ (p : BitVec 30) (k : Nat) (x : BitVec 64), k < 8 →
      right.eval rdram.guest (p + BitVec.ofNat 30 (n - 1)) ((k + (n - 1)) % 8)
          (left.eval rdram.guest p k x) = result rdram.guest p ∧
        left.eval rdram.guest p k
          (right.eval rdram.guest (p + BitVec.ofNat 30 (n - 1)) ((k + (n - 1)) % 8) x) =
          result rdram.guest p) :
    LoadsPair rdram leftHelper rightHelper n result := by
  intro initialValue offset reg offset' reg' a ha ha'
  have hk : a.toNat % 8 < 8 := Nat.mod_lt _ (by decide)
  have hwindow := window_last a (n - 1)
  have hmod := add_toNat_mod_eight a (n - 1)
  constructor
  · obtain ⟨v, hv, hvbits⟩ := hleft initialValue offset reg a ha
    obtain ⟨v', hv', hvbits'⟩ := hright v offset' reg' _ ha'
    refine ⟨v', by rw [hv, Option.bind_some, hv'], ?_⟩
    rw [hvbits', hvbits, hwindow, hmod, (hresult _ _ _ hk).1]
  · obtain ⟨v, hv, hvbits⟩ := hright initialValue offset' reg' _ ha'
    obtain ⟨v', hv', hvbits'⟩ := hleft v offset reg a ha
    refine ⟨v', by rw [hv, Option.bind_some, hv'], ?_⟩
    rw [hvbits', hvbits, hwindow, hmod, (hresult _ _ _ hk).2]

theorem storesPair_of_storesAs {left right : Mips.StoreOp} {leftHelper rightHelper : StoreHelper}
    (hleft : ∀ r, StoresAs r left leftHelper)
    (hright : ∀ r, StoresAs r right rightHelper)
    (hresult : ∀ (mem : Mips.Memory 30) (p : BitVec 30) (k : Nat) (x : BitVec 64), k < 8 →
      right.eval (left.eval mem p k x) (p + BitVec.ofNat 30 (n - 1)) ((k + (n - 1)) % 8) x =
          mem.write p n (x.setWidth (8 * n)) ∧
        left.eval (right.eval mem (p + BitVec.ofNat 30 (n - 1)) ((k + (n - 1)) % 8) x) p k x =
          mem.write p n (x.setWidth (8 * n))) :
    StoresPair rdram leftHelper rightHelper n := by
  intro offset reg offset' reg' val a ha ha'
  have hk : a.toNat % 8 < 8 := Nat.mod_lt _ (by decide)
  have hwindow := window_last a (n - 1)
  have hmod := add_toNat_mod_eight a (n - 1)
  constructor
  · obtain ⟨r, hr, hguest⟩ := hleft rdram offset reg val a ha
    obtain ⟨r', hr', hguest'⟩ := hright r offset' reg' val _ ha'
    refine ⟨r', by rw [hr, Option.bind_some, hr'], ?_⟩
    rw [hguest', hguest, hwindow, hmod, (hresult _ _ _ _ hk).1]
  · obtain ⟨r, hr, hguest⟩ := hright rdram offset' reg' val _ ha'
    obtain ⟨r', hr', hguest'⟩ := hleft r offset reg val a ha
    refine ⟨r', by rw [hr, Option.bind_some, hr'], ?_⟩
    rw [hguest', hguest, hwindow, hmod, (hresult _ _ _ _ hk).2]

end Pairs

/-- **The header's accesses are those of one big-endian memory**, for every window, address and
register value. -/
theorem rdram_bigEndian (rdram : Rdram) : BigEndian rdram := by
  have hlwl : ∀ r, LoadsAs r .lwl doLwl := fun r x offset reg a ha => doLwl_eq r x ha
  have hlwr : ∀ r, LoadsAs r .lwr doLwr := fun r x offset reg a ha => doLwr_eq r x ha
  have hldl : ∀ r, LoadsAs r .ldl doLdl := fun r x offset reg a ha => doLdl_eq r x ha
  have hldr : ∀ r, LoadsAs r .ldr doLdr := fun r x offset reg a ha => doLdr_eq r x ha
  have hswl : ∀ r, StoresAs r .swl doSwl := fun r offset reg x a ha => doSwl_eq r x ha
  have hswr : ∀ r, StoresAs r .swr doSwr := fun r offset reg x a ha => doSwr_eq r x ha
  have hsdl : ∀ r, StoresAs r .sdl doSdl := fun r offset reg x a ha => doSdl_eq r x ha
  have hsdr : ∀ r, StoresAs r .sdr doSdr := fun r offset reg x a ha => doSdr_eq r x ha
  exact {
    load_byte := by
      rintro t ht
      simp only [List.mem_cons, List.not_mem_nil, or_false] at ht
      rcases ht with rfl | rfl <;> exact viewLoads_byte rdram rfl
    load_half := by
      rintro t ht
      simp only [List.mem_cons, List.not_mem_nil, or_false] at ht
      rcases ht with rfl | rfl <;> exact viewLoads_half rdram rfl
    load_word := by
      rintro t ht
      simp only [List.mem_cons, List.not_mem_nil, or_false] at ht
      rcases ht with rfl | rfl <;> exact viewLoads_word rdram rfl
    store_byte := by
      rintro t ht
      simp only [List.mem_cons, List.not_mem_nil, or_false] at ht
      rcases ht with rfl | rfl <;> exact viewStores_byte rdram rfl
    store_half := by
      rintro t ht
      simp only [List.mem_cons, List.not_mem_nil, or_false] at ht
      rcases ht with rfl | rfl <;> exact viewStores_half rdram rfl
    store_word := by
      rintro t ht
      simp only [List.mem_cons, List.not_mem_nil, or_false] at ht
      rcases ht with rfl | rfl <;> exact viewStores_word rdram rfl
    load_doubleword := fun offset reg x y hreg hoffset h8 =>
      loadDoubleword_eq rdram (by rw [hoffset.bits, hreg.bits, BitVec.add_comm]) h8
    store_doubleword := fun val offset reg x y hreg hoffset h8 => sd_eq rdram hreg hoffset h8 val
    lwl := hlwl rdram
    lwr := hlwr rdram
    ldl := hldl rdram
    ldr := hldr rdram
    swl := hswl rdram
    swr := hswr rdram
    sdl := hsdl rdram
    sdr := hsdr rdram
    lwl_lwr := loadsPair_of_loadsAs rdram (hlwl rdram) (hlwr rdram)
      fun p k x _ => ⟨eval_lwl_lwr _ p k x, eval_lwr_lwl _ p k x⟩
    ldl_ldr := loadsPair_of_loadsAs rdram (hldl rdram) (hldr rdram)
      fun p k x hk => ⟨eval_ldl_ldr _ p k x hk, eval_ldr_ldl _ p k x hk⟩
    swl_swr := storesPair_of_storesAs rdram hswl hswr
      fun mem p k x _ => eval_swl_swr mem p k x (by decide)
    sdl_sdr := storesPair_of_storesAs rdram hsdl hsdr
      fun mem p k x hk => by
        rw [BitVec.setWidth_eq]
        exact eval_sdl_sdr mem p k x (by decide) hk }

end N64Recomp
