import N64Recomp.LiveGenerator.Loads

/-!
# The stores of the live generator

The code of a store has the address in `temp_reg1` when it begins. The unaligned stores read the
word around the address, and write it back with a part of the source in it.

## Main results

* `leavesMem_store`: the stores do what the instructions do
-/

namespace N64Recomp

open CLang CLang.CType Registers LiveGenerator
open Mips hiding Reg State
open Sljit (Reg State Instr MovType Op2 Cond)

section Stores

variable (upper : (Reg → BitVec 64) → BitVec 32 → BitVec 32)

/-- The code writes the memory of the guest. -/
def LeavesMem (s : State LiveMemory) (code : List LiveInstr) (mem : Mips.Memory 30) : Prop :=
  ∃ s', Sljit.run (liveHost upper) code s = some s' ∧
    (liveMachine s').toMips = { (liveMachine s).toMips with mem }

variable {s : State LiveMemory} {src : LiveOperand} {x : BitVec 64}

/-- A write of the memory. -/
theorem toMips_writeRdram {t : State LiveMemory} {rdram : Rdram} {mem : Mips.Memory 30}
    (hmem : t.mem = s.mem.withRdram rdram) (hguest : rdram.guest = mem)
    (hhi : t.reg hi = s.reg hi) (hlo : t.reg lo = s.reg lo) (hc1cs : t.reg c1cs = s.reg c1cs) :
    (liveMachine t).toMips = { (liveMachine s).toMips with mem } := by
  subst hguest
  apply Mips.State.ext
  case gpr => simp only [liveMachine, Machine.toMips, hmem, LiveMemory.withRdram]
  case hi => exact hhi
  case lo => exact hlo
  case fpCondition => rw [liveMachine, liveMachine, Machine.toMips, Machine.toMips, hc1cs]
  case mem => simp only [liveMachine, Machine.toMips, hmem, LiveMemory.withRdram]

theorem Rdram.store_congr {t : CType} {v w : CVal}
    (h : v.bits.setWidth (8 * (t.width / 8)) = w.bits.setWidth (8 * (t.width / 8)))
    (rdram : Rdram) (offset : CVal) : rdram.store t offset v = rdram.store t offset w := by
  simp only [Rdram.store, h]

/-- A store uses only the address in its index register, and the low bytes of the value. -/
theorem store_congr {n : Nat} (hn : n ∈ [1, 2, 4, 8]) {reg reg' : Reg → BitVec 64} {index : Reg}
    (hreg : reg index = reg' index) {x y : BitVec 64}
    (hxy : x.setWidth (8 * n) = y.setWidth (8 * n)) (mem : LiveMemory) :
    (liveHost upper).store reg mem (.rdram index) n x =
      (liveHost upper).store reg' mem (.rdram index) n y := by
  have hstore : mem.rdram.store (unsignedOf n) (gpr (reg index - rdramBase)) (gpr x) =
      mem.rdram.store (unsignedOf n) (gpr (reg' index - rdramBase)) (gpr y) := by
    rw [hreg]
    simp only [List.mem_cons, List.not_mem_nil, or_false] at hn
    obtain rfl | rfl | rfl | rfl := hn
    · exact Rdram.store_congr (t := uint8) (v := gpr x) (w := gpr y) hxy _ _
    · exact Rdram.store_congr (t := uint16) (v := gpr x) (w := gpr y) hxy _ _
    · exact Rdram.store_congr (t := uint32) (v := gpr x) (w := gpr y) hxy _ _
    · exact Rdram.store_congr (t := uint64) (v := gpr x) (w := gpr y) hxy _ _
  exact congrArg (Option.map mem.withRdram) hstore

variable {b : BitVec 64} {p : BitVec 30}

/-- A store of the low bytes `z`, whatever the registers hold besides the address. -/
theorem exists_store_rdram {n : Nat} (hn : n ∈ [1, 2, 4]) (hb : InWindow b)
    (hr : Mips.Memory.Reverses swizzle p (window b) n) (ho : (window b).toNat % n = 0)
    (mem : LiveMemory) (index : Reg) (z : BitVec (8 * n)) :
    ∃ rdram' : Rdram, rdram'.guest = mem.rdram.guest.write p n z ∧
      ∀ (reg : Reg → BitVec 64) (x : BitVec 64), reg index = b → x.setWidth (8 * n) = z →
        (liveHost upper).store reg mem (.rdram index) n x = some (mem.withRdram rdram') := by
  have hz : (z.setWidth 64).setWidth (8 * n) = z := by
    refine setWidth_setWidth_64 ?_ z
    simp only [List.mem_cons, List.not_mem_nil, or_false] at hn
    omega
  obtain ⟨rdram', hstore, hguest⟩ : ∃ rdram' : Rdram, (liveHost upper).store (fun _ => b) mem
      (.rdram index) n (z.setWidth 64) = some (mem.withRdram rdram') ∧ _ :=
    store_rdram hn hb hr ho
  refine ⟨rdram', by rw [hguest, hz], fun reg x hreg hx => ?_⟩
  rw [← hstore]
  exact store_congr upper (List.mem_append_left [8] hn) hreg (hx.trans hz.symm) mem

theorem exists_store_four (hb : InWindow b) (hal : b.toNat % 4 = 0) (mem : LiveMemory)
    (index : Reg) (z : BitVec 32) :
    ∃ rdram' : Rdram, rdram'.guest = mem.rdram.guest.write (window b) 4 z ∧
      ∀ (reg : Reg → BitVec 64) (x : BitVec 64), reg index = b → word x = z →
        (liveHost upper).store reg mem (.rdram index) 4 x = some (mem.withRdram rdram') := by
  have hp : (window b).toNat % 4 = 0 := by rw [window_toNat_mod (by decide), hal]
  exact exists_store_rdram upper (by decide) hb (reverses_four hp) hp mem index z

theorem exists_store_eight (hb : InWindow b) (hal : b.toNat % 8 = 0) (mem : LiveMemory)
    (index : Reg) (x : BitVec 64) :
    ∃ rdram' : Rdram, rdram'.guest = mem.rdram.guest.write (window b) 8 x ∧
      ∀ reg : Reg → BitVec 64, reg index = b →
        (liveHost upper).store reg mem (.rdram index) 8 (x.rotateLeft 32) =
          some (mem.withRdram rdram') := by
  obtain ⟨rdram', hstore, hguest⟩ : ∃ rdram' : Rdram, (liveHost upper).store (fun _ => b) mem
      (.rdram index) 8 (x.rotateLeft 32) = some (mem.withRdram rdram') ∧ _ := store_eight hb hal
  refine ⟨rdram', hguest, fun reg hreg => ?_⟩
  rw [← hstore]
  exact store_congr upper (by decide) hreg rfl mem

/-! ### Aligned stores -/

variable (q : Fin 32) {a : BitVec 64}

theorem leavesMem_sw (ha : s.reg tempReg1 = a) (hwindow : InWindow a)
    (hal : a.toNat % 4 = 0) (k : Nat) :
    LeavesMem upper s (storeCode .sw (getGprValues q))
      (StoreOp.eval s.mem.rdram.guest (window a) k (liveGpr s.mem q) .sw) := by
  obtain ⟨rdram', hguest, hstore⟩ :=
    exists_store_four upper hwindow hal s.mem tempReg1 (word (liveGpr s.mem q))
  refine ⟨_, by simp [storeCode, ha, hstore]; rfl, ?_⟩
  exact toMips_writeRdram rfl hguest rfl rfl rfl

theorem leavesMem_sh (ha : s.reg tempReg1 = a) (hwindow : InWindow a)
    (hal : a.toNat % 2 = 0) (k : Nat) :
    LeavesMem upper s (storeCode .sh (getGprValues q))
      (StoreOp.eval s.mem.rdram.guest (window a) k (liveGpr s.mem q) .sh) := by
  have hp : (window a).toNat % 2 = 0 := by rw [window_toNat_mod (by decide), hal]
  have hwin : window (a ^^^ 2#64) = window a ^^^ 2#30 := by rw [window_xor]; rfl
  obtain ⟨rdram', hguest, hstore⟩ := exists_store_rdram upper (n := 2) (b := a ^^^ 2#64)
    (by decide) (hwindow.xor (by decide)) (hwin ▸ reverses_two hp) (hwin ▸ xor_two_mod hp) s.mem
    tempReg1 ((liveGpr s.mem q).setWidth 16)
  simp only [Nat.reduceMul] at hstore
  refine ⟨_, by simp [storeCode, ha, hstore]; rfl, ?_⟩
  exact toMips_writeRdram rfl hguest rfl rfl rfl

theorem leavesMem_sb (ha : s.reg tempReg1 = a) (hwindow : InWindow a) (k : Nat) :
    LeavesMem upper s (storeCode .sb (getGprValues q))
      (StoreOp.eval s.mem.rdram.guest (window a) k (liveGpr s.mem q) .sb) := by
  have hwin : window (a ^^^ 3#64) = window a ^^^ 3#30 := by rw [window_xor]; rfl
  obtain ⟨rdram', hguest, hstore⟩ := exists_store_rdram upper (n := 1) (b := a ^^^ 3#64)
    (by decide) (hwindow.xor (by decide)) (hwin ▸ reverses_one _) (Nat.mod_one _) s.mem tempReg1
    ((liveGpr s.mem q).setWidth 8)
  simp only [Nat.reduceMul] at hstore
  refine ⟨_, by simp [storeCode, ha, hstore]; rfl, ?_⟩
  exact toMips_writeRdram rfl hguest rfl rfl rfl

theorem leavesMem_sd (ha : s.reg tempReg1 = a) (hwindow : InWindow a) (hal : a.toNat % 8 = 0)
    (k : Nat) :
    LeavesMem upper s (storeCode .sd (getGprValues q))
      (StoreOp.eval s.mem.rdram.guest (window a) k (liveGpr s.mem q) .sd) := by
  obtain ⟨rdram', hguest, hstore⟩ :=
    exists_store_eight upper hwindow hal s.mem tempReg1 (liveGpr s.mem q)
  refine ⟨_, by simp [storeCode, ha, hstore]; rfl, ?_⟩
  exact toMips_writeRdram rfl hguest rfl rfl rfl

/-! ### Unaligned stores -/

theorem word_ushiftRight_and (x : BitVec 64) (n : Nat) :
    word (x >>> n) &&& BitVec.allOnes 32 >>> n = word x >>> n := by
  apply BitVec.eq_of_getLsbD_eq
  intro j hj
  simp only [BitVec.getLsbD_and, BitVec.getLsbD_setWidth, BitVec.getLsbD_ushiftRight,
    BitVec.getLsbD_allOnes, hj, decide_true, Bool.true_and, Bool.and_comm]

/-- The source, shifted into place, in the word that the memory has. -/
theorem store_merge {w : Nat} {v m z y : BitVec w} (h : z &&& m = y) :
    ((z &&& m) ||| (v &&& (m ^^^ BitVec.allOnes w))) = ((v &&& ~~~m) ||| y) := by
  rw [h, BitVec.xor_allOnes, BitVec.or_comm]

theorem leavesMem_swl (ha : s.reg tempReg1 = a) (hwindow : InWindow a) :
    LeavesMem upper s (storeCode .swl (getGprValues q))
      (StoreOp.eval s.mem.rdram.guest (window a) (a.toNat % 8) (liveGpr s.mem q) .swl) := by
  have hbase : InWindow (a &&& ~~~3#64) := hwindow.and (by decide)
  have hal : (a &&& ~~~3#64).toNat % 4 = 0 := alignDown_mod a (n := 2) (by decide)
  obtain ⟨v, hv, hload⟩ := exists_load_four upper s.mem tempReg1 hbase hal
  have hcount : ((a &&& 3#64) <<< 3).toNat = 8 * (a.toNat % 4) :=
    shiftLeft_misalignment a (n := 2) (by decide)
  have hcount32 := shiftLeft_misalignment_word a
  have hk : 8 * (a.toNat % 4) < 32 := by omega
  have hk64 : 8 * (a.toNat % 4) < 64 := by omega
  obtain ⟨rdram', hguest, hstore⟩ := exists_store_four upper hbase hal s.mem tempReg1
    ((word (liveGpr s.mem q >>> (8 * (a.toNat % 4))) &&& 0xFFFFFFFF#32 >>> (8 * (a.toNat % 4))) |||
      (v &&& (0xFFFFFFFF#32 >>> (8 * (a.toNat % 4)) ^^^ 0xFFFFFFFF#32)))
  rw [eval_swl, ← hv]
  refine ⟨_, by simp [storeCode, emitUnalignedStore, loadAlignedWord, wordSize, wordMask, ha,
    hload, hcount, hcount32, hk, hk64, hstore, word_ofWord]; rfl, ?_⟩
  refine toMips_writeRdram rfl ?_ rfl rfl rfl
  exact hguest.trans (congrArg _ (store_merge (word_ushiftRight_and _ _)))

theorem leavesMem_swr (ha : s.reg tempReg1 = a) (hwindow : InWindow a) :
    LeavesMem upper s (storeCode .swr (getGprValues q))
      (StoreOp.eval s.mem.rdram.guest (window a) (a.toNat % 8) (liveGpr s.mem q) .swr) := by
  have hbase : InWindow (a &&& ~~~3#64) := hwindow.and (by decide)
  have hal : (a &&& ~~~3#64).toNat % 4 = 0 := alignDown_mod a (n := 2) (by decide)
  obtain ⟨v, hv, hload⟩ := exists_load_four upper s.mem tempReg1 hbase hal
  have hcount : ((3#64 - (a &&& 3#64)) <<< 3).toNat = 8 * (4 - 1 - a.toNat % 4) :=
    sub_misalignment_shiftLeft a (n := 2) (by decide)
  have hcount32 := sub_misalignment_word a
  have hk : 8 * (4 - 1 - a.toNat % 4) < 32 := by omega
  have hk64 : 8 * (4 - 1 - a.toNat % 4) < 64 := by omega
  obtain ⟨rdram', hguest, hstore⟩ := exists_store_four upper hbase hal s.mem tempReg1
    ((word (liveGpr s.mem q <<< (8 * (4 - 1 - a.toNat % 4))) &&&
        0xFFFFFFFF#32 <<< (8 * (4 - 1 - a.toNat % 4))) |||
      (v &&& (0xFFFFFFFF#32 <<< (8 * (4 - 1 - a.toNat % 4)) ^^^ 0xFFFFFFFF#32)))
  rw [eval_swr, ← hv]
  refine ⟨_, by simp [storeCode, emitUnalignedStore, loadAlignedWord, wordSize, wordMask, ha,
    hload, hcount, hcount32, hk, hk64, hstore, word_ofWord]; rfl, ?_⟩
  refine toMips_writeRdram rfl ?_ rfl rfl rfl
  rw [word_shiftLeft] at hguest
  exact hguest.trans (congrArg _ (store_merge (shiftLeft_and_allOnes _ _)))

theorem leavesMem_sdl (ha : s.reg tempReg1 = a) (hwindow : InWindow a) :
    LeavesMem upper s (storeCode .sdl (getGprValues q))
      (StoreOp.eval s.mem.rdram.guest (window a) (a.toNat % 8) (liveGpr s.mem q) .sdl) := by
  have hbase : InWindow (a &&& ~~~7#64) := hwindow.and (by decide)
  have hal : (a &&& ~~~7#64).toNat % 8 = 0 := alignDown_mod a (n := 3) (by decide)
  obtain ⟨v, hrotate, hload⟩ := exists_load_eight upper s.mem tempReg1 hbase hal
  have hcount : ((a &&& 7#64) <<< 3).toNat = 8 * (a.toNat % 8) :=
    shiftLeft_misalignment a (n := 3) (by decide)
  have hk : 8 * (a.toNat % 8) < 64 := by omega
  obtain ⟨rdram', hguest, hstore⟩ := exists_store_eight upper hbase hal s.mem tempReg1
    ((liveGpr s.mem q >>> (8 * (a.toNat % 8)) &&&
        0xFFFFFFFFFFFFFFFF#64 >>> (8 * (a.toNat % 8))) |||
      (v.rotateLeft 32 &&&
        (0xFFFFFFFFFFFFFFFF#64 >>> (8 * (a.toNat % 8)) ^^^ 0xFFFFFFFFFFFFFFFF#64)))
  rw [eval_sdl, ← hrotate]
  refine ⟨_, by simp [storeCode, emitUnalignedStore, loadAlignedWord, wordSize, wordMask, ha,
    hload, hcount, hk, hstore]; rfl, ?_⟩
  refine toMips_writeRdram rfl ?_ rfl rfl rfl
  exact hguest.trans (congrArg _ (store_merge (ushiftRight_and_allOnes _ _)))

theorem leavesMem_sdr (ha : s.reg tempReg1 = a) (hwindow : InWindow a) :
    LeavesMem upper s (storeCode .sdr (getGprValues q))
      (StoreOp.eval s.mem.rdram.guest (window a) (a.toNat % 8) (liveGpr s.mem q) .sdr) := by
  have hbase : InWindow (a &&& ~~~7#64) := hwindow.and (by decide)
  have hal : (a &&& ~~~7#64).toNat % 8 = 0 := alignDown_mod a (n := 3) (by decide)
  obtain ⟨v, hrotate, hload⟩ := exists_load_eight upper s.mem tempReg1 hbase hal
  have hcount : ((7#64 - (a &&& 7#64)) <<< 3).toNat = 8 * (8 - 1 - a.toNat % 8) :=
    sub_misalignment_shiftLeft a (n := 3) (by decide)
  have hk : 8 * (8 - 1 - a.toNat % 8) < 64 := by omega
  obtain ⟨rdram', hguest, hstore⟩ := exists_store_eight upper hbase hal s.mem tempReg1
    ((liveGpr s.mem q <<< (8 * (8 - 1 - a.toNat % 8)) &&&
        0xFFFFFFFFFFFFFFFF#64 <<< (8 * (8 - 1 - a.toNat % 8))) |||
      (v.rotateLeft 32 &&&
        (0xFFFFFFFFFFFFFFFF#64 <<< (8 * (8 - 1 - a.toNat % 8)) ^^^ 0xFFFFFFFFFFFFFFFF#64)))
  rw [eval_sdr, ← hrotate]
  refine ⟨_, by simp [storeCode, emitUnalignedStore, loadAlignedWord, wordSize, wordMask, ha,
    hload, hcount, hk, hstore]; rfl, ?_⟩
  refine toMips_writeRdram rfl ?_ rfl rfl rfl
  exact hguest.trans (congrArg _ (store_merge (shiftLeft_and_allOnes _ _)))

/-- The operation of a store. -/
def storeType : Mips.StoreOp → StoreOpType
  | .sb => .sb
  | .sh => .sh
  | .sw => .sw
  | .sd => .sd
  | .swl => .swl
  | .swr => .swr
  | .sdl => .sdl
  | .sdr => .sdr

/-- The stores do what the instructions do. -/
theorem leavesMem_store (op : Mips.StoreOp) (ha : s.reg tempReg1 = a) (hwindow : InWindow a)
    (hal : a.toNat % op.alignment = 0) :
    LeavesMem upper s (storeCode (storeType op) (getGprValues q))
      (op.eval s.mem.rdram.guest (window a) (a.toNat % 8) (liveGpr s.mem q)) := by
  cases op with
  | sb => exact leavesMem_sb upper q ha hwindow _
  | sh => exact leavesMem_sh upper q ha hwindow hal _
  | sw => exact leavesMem_sw upper q ha hwindow hal _
  | sd => exact leavesMem_sd upper q ha hwindow hal _
  | swl => exact leavesMem_swl upper q ha hwindow
  | swr => exact leavesMem_swr upper q ha hwindow
  | sdl => exact leavesMem_sdl upper q ha hwindow
  | sdr => exact leavesMem_sdr upper q ha hwindow

end Stores

end N64Recomp
