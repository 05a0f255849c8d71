import N64Recomp.CGenerator.Yields
import N64Recomp.LiveGenerator.Operands

/-!
# The live generator: execution

The memory that the generated code works on, as a host of its instructions: the registers in the
context, the memory window, and the runtime bases of the sections. Only the accesses that stay in
the window are modelled, and a memory operand has to be aligned at its size.

## Main definitions

* `LiveMemory`, `liveHost`: the memory, and its accesses
* `liveMachine`: the state of the guest's program in a state of the generated code

## Main results

* `load_rdram`, `load_eight`: a load in the window reads the guest's memory
* `store_rdram`, `store_eight`: a store in the window writes it
-/

namespace N64Recomp

open CLang CLang.CType Registers
open Sljit (Reg Host State)

/-- The memory of the generated code. -/
structure LiveMemory where
  gpr : Fin 32 → BitVec 64
  rdram : Rdram
  sectionAddresses : BitVec 32 → BitVec 32
  referenceSectionAddresses : BitVec 32 → BitVec 32

/-- The first address of the memory window. -/
def rdramBase : BitVec 64 := 0xFFFFFFFF80000000

/-- The unsigned type of a number of bytes. -/
def unsignedOf : Nat → CType
  | 1 => uint8
  | 2 => uint16
  | 4 => uint32
  | _ => uint64

/-- The low bytes of a word. -/
def lowBytes (size : Nat) (x : BitVec 64) : BitVec 64 := (x.setWidth (8 * size)).setWidth 64

namespace LiveMemory

/-- The runtime base of a section. -/
def sectionAddress (mem : LiveMemory) (reference : Bool) (index : BitVec 32) : BitVec 32 :=
  if reference then mem.referenceSectionAddresses index else mem.sectionAddresses index

/-- The host is little-endian, so that the low bytes of a field are at its address. -/
def load (reg : Reg → BitVec 64) (mem : LiveMemory) (slot : Slot) (size : Nat) :
    Option (BitVec 64) :=
  match slot with
  | .gpr r => some (lowBytes size (mem.gpr r))
  | .rdram index =>
    (mem.rdram.load (unsignedOf size) (N64Recomp.gpr (reg index - rdramBase))).map CVal.bits
  | .sectionAddress reference index =>
    some (lowBytes size ((mem.sectionAddress reference index).setWidth 64))
  | _ => none

def store (reg : Reg → BitVec 64) (mem : LiveMemory) (slot : Slot) (size : Nat)
    (x : BitVec 64) : Option LiveMemory :=
  match slot with
  | .gpr r =>
    let y := lowBytes size x ||| (mem.gpr r &&& ~~~lowBytes size (BitVec.allOnes 64))
    some { mem with gpr := fun q => if q = r then y else mem.gpr q }
  | .rdram index =>
    (mem.rdram.store (unsignedOf size) (N64Recomp.gpr (reg index - rdramBase))
      (N64Recomp.gpr x)).map fun rdram => { mem with rdram }
  | _ => none

end LiveMemory

/-- The host of the generated code. What a 32-bit operation leaves in the upper half of its
register is any function of the registers and of the result. -/
def liveHost (upper : (Reg → BitVec 64) → BitVec 32 → BitVec 32) : Host Slot LiveMemory :=
  ⟨LiveMemory.load, LiveMemory.store, upper⟩

/-- The state of the guest's program: `hi`, `lo` and the condition are in registers. -/
def liveMachine (s : State LiveMemory) : Machine where
  gpr := s.mem.gpr
  hi := s.reg hi
  lo := s.reg lo
  c1cs := (s.reg c1cs).setWidth 32
  rdram := s.mem.rdram
  sectionAddresses := s.mem.sectionAddresses
  referenceSectionAddresses := s.mem.referenceSectionAddresses

section Accesses

variable {upper : (Reg → BitVec 64) → BitVec 32 → BitVec 32} {s : State LiveMemory}

@[simp] theorem lowBytes_eight (x : BitVec 64) : lowBytes 8 x = x := by
  simp [lowBytes]

theorem setWidth_lowBytes {size n : Nat} (hn : n ≤ 8 * size) (x : BitVec 64) :
    (lowBytes size x).setWidth n = x.setWidth n := by
  apply BitVec.eq_of_getLsbD_eq
  intro j hj
  simp only [lowBytes, BitVec.getLsbD_setWidth]
  by_cases h : j < 64
  · simp [h, show j < 8 * size by omega]
  · simp [h, BitVec.getLsbD_of_ge x j (by omega)]

@[simp] theorem setWidth_lowBytes_four (x : BitVec 64) :
    (lowBytes 4 x).setWidth 32 = x.setWidth 32 :=
  setWidth_lowBytes (by decide) x

@[simp] theorem setWidth_lowBytes_two (x : BitVec 64) :
    (lowBytes 2 x).setWidth 16 = x.setWidth 16 :=
  setWidth_lowBytes (by decide) x

@[simp] theorem setWidth_lowBytes_one (x : BitVec 64) :
    (lowBytes 1 x).setWidth 8 = x.setWidth 8 :=
  setWidth_lowBytes (by decide) x

@[simp] theorem liveHost_upper : (liveHost upper).upper = upper := rfl

@[simp] theorem load_gpr (reg : Reg → BitVec 64) (mem : LiveMemory) (r : Fin 32) (size : Nat) :
    (liveHost upper).load reg mem (.gpr r) size = some (lowBytes size (mem.gpr r)) := rfl

@[simp] theorem store_gpr (reg : Reg → BitVec 64) (mem : LiveMemory) (r : Fin 32)
    (x : BitVec 64) :
    (liveHost upper).store reg mem (.gpr r) 8 x =
      some { mem with gpr := fun q => if q = r then x else mem.gpr q } := by
  simp [liveHost, LiveMemory.store]

@[simp] theorem load_sectionAddress (reg : Reg → BitVec 64) (mem : LiveMemory) (reference : Bool)
    (index : BitVec 32) (size : Nat) :
    (liveHost upper).load reg mem (.sectionAddress reference index) size =
      some (lowBytes size ((mem.sectionAddress reference index).setWidth 64)) := rfl

/-- The guest's registers in the memory of the generated code. -/
def liveGpr (mem : LiveMemory) (r : Fin 32) : BitVec 64 := if r = 0 then 0 else mem.gpr r

variable (upper) in
@[simp] theorem read_getGprValues (t : State LiveMemory) (size : Nat) (r : Fin 32) :
    t.read (liveHost upper) size (LiveGenerator.getGprValues r) = some (lowBytes size (liveGpr t.mem r)) := by
  by_cases hr : r = 0
  · simp [LiveGenerator.getGprValues, liveGpr, hr, lowBytes]
  · simp [LiveGenerator.getGprValues, liveGpr, hr]

/-! ### The window -/

/-- An address in the window. -/
def InWindow (address : BitVec 64) : Prop := (address - rdramBase).toNat < 2 ^ 30

instance (address : BitVec 64) : Decidable (InWindow address) :=
  inferInstanceAs (Decidable (_ < _))

/-- The offset of an address in the window. -/
theorem sub_rdramBase {a : BitVec 64} (h : InWindow a) : a - rdramBase = (window a).setWidth 64 := by
  have hwin : window (a - rdramBase) = window a := window_sub_base a
  apply BitVec.eq_of_toNat_eq
  rw [← hwin, setWidth_30_64_toNat, window, BitVec.toNat_setWidth, Nat.mod_eq_of_lt h]

theorem inWindow_iff (a : BitVec 64) : InWindow a ↔ a >>> 30 = 0x3FFFFFFFE#64 := by
  have hlt := a.isLt
  rw [InWindow, BitVec.toNat_sub, ← BitVec.toNat_inj, BitVec.toNat_ushiftRight,
    Nat.shiftRight_eq_div_pow]
  have hbase : rdramBase.toNat = 0xFFFFFFFF80000000 := rfl
  have hconst : (0x3FFFFFFFE#64).toNat = 0x3FFFFFFFE := rfl
  rw [hbase, hconst]
  omega

/-- Changing the low bits of an address does not take it out of the window. -/
theorem InWindow.xor {a : BitVec 64} (h : InWindow a) {x : BitVec 64} (hx : x >>> 30 = 0) :
    InWindow (a ^^^ x) := by
  rw [inWindow_iff] at h ⊢
  rw [BitVec.ushiftRight_xor_distrib, h, hx]
  rfl

theorem InWindow.and {a : BitVec 64} (h : InWindow a) {x : BitVec 64}
    (hx : x >>> 30 = 0x3FFFFFFFF#64) : InWindow (a &&& x) := by
  rw [inWindow_iff] at h ⊢
  rw [BitVec.ushiftRight_and_distrib, h, hx]
  rfl

/-! ### Loads in the window -/

section Loads

variable {reg : Reg → BitVec 64} {mem : LiveMemory} {index : Reg} {a : BitVec 64} {p : BitVec 30}

/-- A load of an object that the window keeps with its bytes reversed. -/
theorem load_rdram {n : Nat} (hn : n ∈ [1, 2, 4]) (h : InWindow (reg index))
    (hr : Mips.Memory.Reverses swizzle p (window (reg index)) n)
    (ho : (window (reg index)).toNat % n = 0) :
    (liveHost upper).load reg mem (.rdram index) n =
      some ((mem.rdram.guest.read p n).setWidth 64) := by
  change (mem.rdram.load (unsignedOf n) (gpr (reg index - rdramBase))).map CVal.bits = _
  simp only [List.mem_cons, List.not_mem_nil, or_false] at hn
  rw [sub_rdramBase h]
  obtain rfl | rfl | rfl := hn
  · exact (congrArg (Option.map CVal.bits) (load_eq (t := uint8) mem.rdram hr ho)).trans
      (congrArg some (wrap_uint8_setWidth _))
  · exact (congrArg (Option.map CVal.bits) (load_eq (t := uint16) mem.rdram hr ho)).trans
      (congrArg some (wrap_uint16_setWidth _))
  · exact (congrArg (Option.map CVal.bits) (load_eq (t := uint32) mem.rdram hr ho)).trans
      (congrArg some (wrap_uint32_setWidth _))

theorem load_four (h : InWindow (reg index)) (ha : (reg index).toNat % 4 = 0) :
    (liveHost upper).load reg mem (.rdram index) 4 =
      some ((mem.rdram.guest.read (window (reg index)) 4).setWidth 64) := by
  have hp : (window (reg index)).toNat % 4 = 0 := by rw [window_toNat_mod (by decide), ha]
  exact load_rdram (by decide) h (reverses_four hp) hp

theorem load_two (h : InWindow a) (hindex : reg index = a ^^^ 2#64) (ha : a.toNat % 2 = 0) :
    (liveHost upper).load reg mem (.rdram index) 2 =
      some ((mem.rdram.guest.read (window a) 2).setWidth 64) := by
  have hp : (window a).toNat % 2 = 0 := by rw [window_toNat_mod (by decide), ha]
  have hwin : window (reg index) = window a ^^^ 2#30 := by rw [hindex, window_xor]; rfl
  refine load_rdram (by decide) (hindex ▸ h.xor (by decide)) ?_ ?_
  · rw [hwin]
    exact reverses_two hp
  · rw [hwin, xor_two_mod hp]

theorem load_one (h : InWindow a) (hindex : reg index = a ^^^ 3#64) :
    (liveHost upper).load reg mem (.rdram index) 1 =
      some ((mem.rdram.guest.read (window a) 1).setWidth 64) := by
  have hwin : window (reg index) = window a ^^^ 3#30 := by rw [hindex, window_xor]; rfl
  refine load_rdram (by decide) (hindex ▸ h.xor (by decide)) ?_ (Nat.mod_one _)
  rw [hwin]
  exact reverses_one _

/-- A doubleword of the host is the guest's with its words exchanged. -/
theorem ofBytes_eight (rdram : Rdram) {p : BitVec 30} (hp : p.toNat % 8 = 0) :
    Mips.ofBytes 8 (fun i => rdram (p + BitVec.ofNat 30 (8 - 1 - i))) =
      (rdram.guest.read (p + 4#30) 4 ++ rdram.guest.read p 4 : BitVec (8 * 4 + 8 * 4)) := by
  have hlow : ∀ j < 3, p.getLsbD j = false := fun j => getLsbD_eq_false_of_mod (k := 3) hp
  have hat : ∀ i < 8, rdram.guest (p + BitVec.ofNat 30 i) = rdram (p ^^^ BitVec.ofNat 30 (i ^^^ 3)) := by
    intro i hi
    rw [Rdram.guest, swizzle, add_ofNat_eq_xor hlow hi, BitVec.xor_assoc, ← BitVec.ofNat_xor]
  have hfour : ∀ i, p + 4#30 + BitVec.ofNat 30 i = p + BitVec.ofNat 30 (4 + i) := by
    intro i
    rw [BitVec.add_assoc, ← BitVec.ofNat_add]
  have hxor : ∀ i < 8, 8 - 1 - i = (if i < 4 then 4 + i else i - 4) ^^^ 3 := by decide
  have hle : (Mips.ofBytes 8 fun i => rdram (p + BitVec.ofNat 30 (8 - 1 - i))) =
      Mips.ofBytes 8 fun i =>
        if i < 4 then rdram.guest (p + 4#30 + BitVec.ofNat 30 i)
        else rdram.guest (p + BitVec.ofNat 30 (i - 4)) := by
    refine Mips.ofBytes_congr fun i hi => ?_
    rw [add_ofNat_eq_xor hlow (by omega), hxor i hi]
    split
    · rw [hfour, hat _ (by omega)]
    · rw [hat _ (by omega)]
  rw [hle]
  apply BitVec.eq_of_getLsbD_eq
  intro j hj
  rw [BitVec.getLsbD_append]
  simp only [Mips.Memory.read, Mips.getLsbD_ofBytes]
  by_cases hj4 : j < 8 * 4
  · simp only [hj4, show j < 8 * 8 by omega, show ¬ 8 - 1 - j / 8 < 4 by omega, if_true, if_false,
      decide_true, show 8 - 1 - j / 8 - 4 = 4 - 1 - j / 8 by omega]
  · rw [if_pos (show 8 - 1 - j / 8 < 4 by omega)]
    simp only [hj4, show j < 8 * 8 by omega, if_false, decide_true,
      show 8 - 1 - j / 8 = 4 - 1 - (j - 8 * 4) / 8 by omega, show j - 8 * 4 < 8 * 4 by omega,
      show (j - 8 * 4) % 8 = j % 8 by omega]

/-- The rotation by half of a doubleword exchanges its words. -/
theorem rotateLeft_append (x y : BitVec 32) :
    (x ++ y : BitVec (32 + 32)).rotateLeft 32 = (y ++ x : BitVec (32 + 32)) := by
  apply BitVec.eq_of_getLsbD_eq
  intro j hj
  rw [BitVec.getLsbD_rotateLeft, BitVec.getLsbD_append, BitVec.getLsbD_append,
    BitVec.getLsbD_append]
  by_cases hj32 : j < 32
  · simp [hj32]
  · simp [hj32, hj, show j - 32 < 32 by omega]

/-- A doubleword load, with the words of the host exchanged. -/
theorem load_eight (h : InWindow (reg index)) (ha : (reg index).toNat % 8 = 0) :
    ((liveHost upper).load reg mem (.rdram index) 8).map (·.rotateLeft 32) =
      some (mem.rdram.guest.read (window (reg index)) 8) := by
  have hp : (window (reg index)).toNat % 8 = 0 := by rw [window_toNat_mod (by decide), ha]
  change ((mem.rdram.load uint64 (gpr (reg index - rdramBase))).map CVal.bits).map _ = _
  have hlt := (window (reg index)).isLt
  rw [sub_rdramBase h, Rdram.load]
  simp only [CVal.ofBits_bits, wrap_uint64, setWidth_30_64_toNat, setWidth_30_64_30]
  rw [if_pos ⟨hlt, hp⟩]
  simp only [Option.map_some, CVal.ofBits_bits, wrap_uint64]
  have hrotate := rotateLeft_append (mem.rdram.guest.read (window (reg index) + 4#30) 4)
    (mem.rdram.guest.read (window (reg index)) 4)
  rw [Mips.Memory.read_append]
  exact congrArg some ((congrArg (fun x : BitVec 64 => x.rotateLeft 32)
    ((BitVec.setWidth_eq _).trans (ofBytes_eight mem.rdram hp))).trans hrotate)

end Loads

/-! ### Stores in the window -/

section Stores

variable {reg : Reg → BitVec 64} {mem : LiveMemory} {index : Reg} {a : BitVec 64} {p : BitVec 30}
variable {x : BitVec 64}

/-- The memory after a store in the window. -/
def LiveMemory.withRdram (mem : LiveMemory) (rdram : Rdram) : LiveMemory := { mem with rdram }

/-- A store of an object that the window keeps with its bytes reversed. -/
theorem store_rdram {n : Nat} (hn : n ∈ [1, 2, 4]) (h : InWindow (reg index))
    (hr : Mips.Memory.Reverses swizzle p (window (reg index)) n)
    (ho : (window (reg index)).toNat % n = 0) :
    ∃ rdram' : Rdram,
      (liveHost upper).store reg mem (.rdram index) n x = some (mem.withRdram rdram') ∧
        rdram'.guest = mem.rdram.guest.write p n (x.setWidth (8 * n)) := by
  change ∃ rdram' : Rdram, (mem.rdram.store (unsignedOf n) (gpr (reg index - rdramBase))
    (gpr x)).map mem.withRdram = _ ∧ _
  simp only [List.mem_cons, List.not_mem_nil, or_false] at hn
  rw [sub_rdramBase h]
  obtain rfl | rfl | rfl := hn
  · obtain ⟨rdram', hstore, hguest⟩ := store_eq (t := uint8) mem.rdram hr ho (gpr x)
    exact ⟨rdram', congrArg (Option.map mem.withRdram) hstore, hguest⟩
  · obtain ⟨rdram', hstore, hguest⟩ := store_eq (t := uint16) mem.rdram hr ho (gpr x)
    exact ⟨rdram', congrArg (Option.map mem.withRdram) hstore, hguest⟩
  · obtain ⟨rdram', hstore, hguest⟩ := store_eq (t := uint32) mem.rdram hr ho (gpr x)
    exact ⟨rdram', congrArg (Option.map mem.withRdram) hstore, hguest⟩

theorem store_four (h : InWindow (reg index)) (ha : (reg index).toNat % 4 = 0) :
    ∃ rdram' : Rdram,
      (liveHost upper).store reg mem (.rdram index) 4 x = some (mem.withRdram rdram') ∧
        rdram'.guest = mem.rdram.guest.write (window (reg index)) 4 (x.setWidth 32) := by
  have hp : (window (reg index)).toNat % 4 = 0 := by rw [window_toNat_mod (by decide), ha]
  exact store_rdram (by decide) h (reverses_four hp) hp

theorem store_two (h : InWindow a) (hindex : reg index = a ^^^ 2#64) (ha : a.toNat % 2 = 0) :
    ∃ rdram' : Rdram,
      (liveHost upper).store reg mem (.rdram index) 2 x = some (mem.withRdram rdram') ∧
        rdram'.guest = mem.rdram.guest.write (window a) 2 (x.setWidth 16) := by
  have hp : (window a).toNat % 2 = 0 := by rw [window_toNat_mod (by decide), ha]
  have hwin : window (reg index) = window a ^^^ 2#30 := by rw [hindex, window_xor]; rfl
  refine store_rdram (by decide) (hindex ▸ h.xor (by decide)) ?_ ?_
  · rw [hwin]
    exact reverses_two hp
  · rw [hwin, xor_two_mod hp]

theorem store_one (h : InWindow a) (hindex : reg index = a ^^^ 3#64) :
    ∃ rdram' : Rdram,
      (liveHost upper).store reg mem (.rdram index) 1 x = some (mem.withRdram rdram') ∧
        rdram'.guest = mem.rdram.guest.write (window a) 1 (x.setWidth 8) := by
  have hwin : window (reg index) = window a ^^^ 3#30 := by rw [hindex, window_xor]; rfl
  refine store_rdram (by decide) (hindex ▸ h.xor (by decide)) ?_ (Nat.mod_one _)
  rw [hwin]
  exact reverses_one _

/-- The place in its doubleword of an address with its low bits changed. -/
theorem xor_sub_toNat {p q : BitVec 30} (hp : p.toNat % 8 = 0) (hq : (q - p).toNat < 8) :
    (swizzle q - p).toNat = (q - p).toNat ^^^ 3 := by
  have hlow : ∀ j < 3, p.getLsbD j = false := fun j => getLsbD_eq_false_of_mod (k := 3) hp
  have hlt : (q - p).toNat ^^^ 3 < 2 ^ 3 := Nat.xor_lt_two_pow hq (by decide)
  have hq' : swizzle q = p + BitVec.ofNat 30 ((q - p).toNat ^^^ 3) := by
    rw [add_ofNat_eq_xor hlow hlt, BitVec.ofNat_xor, ← BitVec.xor_assoc,
      ← add_ofNat_eq_xor hlow hq, ← Mips.Memory.eq_add_of_sub_toNat rfl]
    rfl
  rw [hq', Mips.Memory.add_ofNat_sub_toNat (by omega)]

/-- The bytes of a doubleword whose words are exchanged. -/
theorem byte_rotateLeft (x : BitVec 64) {d : Nat} (hd : d < 8) :
    Mips.byte 8 (x.rotateLeft 32) (8 - 1 - (d ^^^ 3)) = Mips.byte 8 x d := by
  have hindex : ∀ d < 8, 8 - 1 - (d ^^^ 3) = if d < 4 then d + 4 else d - 4 := by decide
  apply BitVec.eq_of_getLsbD_eq
  intro j hj
  rw [hindex d hd, Mips.getLsbD_byte, Mips.getLsbD_byte, BitVec.getLsbD_rotateLeft]
  by_cases h4 : d < 4
  · have hlt : 8 * (3 - d) + j < 32 := by omega
    have hidx : 32 + (8 * (3 - d) + j) = 8 * (7 - d) + j := by omega
    simp [-BitVec.getLsbD_eq_getElem, hj, h4, hlt, hidx]
  · simp [-BitVec.getLsbD_eq_getElem, hj, h4, show ¬ 8 * (8 - 1 - (d - 4)) + j < 32 by omega,
      show 8 * (8 - 1 - (d - 4)) + j - 32 = 8 * (8 - 1 - d) + j by omega,
      show 8 * (8 - 1 - (d - 4)) + j < 64 by omega]

/-- A doubleword store, with the words of the host exchanged. -/
theorem store_eight (h : InWindow (reg index)) (ha : (reg index).toNat % 8 = 0) :
    ∃ rdram' : Rdram,
      (liveHost upper).store reg mem (.rdram index) 8 (x.rotateLeft 32) =
          some (mem.withRdram rdram') ∧
        rdram'.guest = mem.rdram.guest.write (window (reg index)) 8 x := by
  have hp : (window (reg index)).toNat % 8 = 0 := by rw [window_toNat_mod (by decide), ha]
  change ∃ rdram' : Rdram, (mem.rdram.store uint64 (gpr (reg index - rdramBase))
    (gpr (x.rotateLeft 32))).map mem.withRdram = _ ∧ _
  rw [sub_rdramBase h]
  generalize window (reg index) = p at hp
  refine ⟨mem.rdram.writeBytes p 8 fun i => Mips.byte 8 (x.rotateLeft 32) (8 - 1 - i), ?_, ?_⟩
  · simp only [Rdram.store, CVal.ofBits_bits, wrap_uint64, setWidth_30_64_toNat, setWidth_30_64_30]
    rw [if_pos ⟨p.isLt, hp⟩]
    rfl
  · funext q
    change (if (swizzle q - p).toNat < 8 then
      Mips.byte 8 (x.rotateLeft 32) (8 - 1 - (swizzle q - p).toNat) else mem.rdram (swizzle q)) =
      if (q - p).toNat < 8 then Mips.byte 8 x (q - p).toNat else mem.rdram (swizzle q)
    by_cases hq : (q - p).toNat < 8
    · have hlt : (q - p).toNat ^^^ 3 < 8 := Nat.xor_lt_two_pow (n := 3) hq (by decide)
      rw [if_pos hq, xor_sub_toNat hp hq, if_pos hlt, byte_rotateLeft x hq]
    · rw [if_neg hq, if_neg]
      -- the place of `q` is that of its host byte, swizzled back
      intro hswizzled
      have hback := xor_sub_toNat hp hswizzled
      have hself : swizzle (swizzle q) = q := by
        rw [swizzle, swizzle, BitVec.xor_assoc, BitVec.xor_self, BitVec.xor_zero]
      have hlt : (swizzle q - p).toNat ^^^ 3 < 8 :=
        Nat.xor_lt_two_pow (n := 3) hswizzled (by decide)
      rw [hself] at hback
      omega

end Stores

end Accesses

end N64Recomp
