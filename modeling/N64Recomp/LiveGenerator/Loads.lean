import N64Recomp.LiveGenerator.Arithmetic

/-!
# The loads of the live generator

The code of a load adds the address, swizzles it, and extends what it loads. The unaligned loads
shift and mask the word around the address.

## Main results

* `leavesGpr_load`: the loads do what the instructions do, except for the upper half that `lwr` keeps
-/

namespace N64Recomp

open CLang CLang.CType Registers LiveGenerator
open Mips hiding Reg State
open Sljit (Reg State Instr MovType Op2 Cond)

section Loads

variable (upper : (Reg → BitVec 64) → BitVec 32 → BitVec 32)
variable {s : State LiveMemory} {r : Fin 32} {src2 : LiveOperand} {y : BitVec 64} (r₁ : Fin 32)

/-- The code of a load, when the access is defined. -/
theorem leavesGpr_emitLoad (hr : r ≠ 0) (h : LiveReads upper s src2 y) {op : MovType}
    {addressXor v z : BitVec 64}
    (hload : ∀ reg : Reg → BitVec 64, reg tempReg1 = (liveGpr s.mem r₁ + y) ^^^ addressXor →
      (liveHost upper).load reg s.mem (.rdram tempReg1) op.size = some v)
    (hz : ∀ above, op.extend above v = z) :
    LeavesGpr upper s (emitLoad (.mem (.gpr r)) (getGprValues r₁) src2 op addressXor) r z := by
  by_cases hxor : addressXor = 0#64
  · subst hxor
    refine ⟨_, by simp [emitLoad, h.doubleword, hload, hz]; rfl, ?_⟩
    exact toMips_writeGpr hr rfl rfl rfl rfl rfl
  · refine ⟨_, by simp [emitLoad, h.doubleword, hxor, hload, hz]; rfl, ?_⟩
    exact toMips_writeGpr hr rfl rfl rfl rfl rfl

/-- The word that a load finds, whatever the registers hold besides the address. -/
theorem exists_load_four (mem : LiveMemory) (index : Reg) {b : BitVec 64} (hb : InWindow b)
    (hal : b.toNat % 4 = 0) :
    ∃ v : BitVec 32, v = mem.rdram.guest.read (window b) 4 ∧
      ∀ reg : Reg → BitVec 64, reg index = b →
        (liveHost upper).load reg mem (.rdram index) 4 = some (v.setWidth 64) :=
  ⟨_, rfl, fun _ hreg => hreg ▸ load_four (hreg ▸ hb) (hreg ▸ hal)⟩

/-- The doubleword that a load finds, before its words are exchanged. -/
theorem exists_load_eight (mem : LiveMemory) (index : Reg) {b : BitVec 64} (hb : InWindow b)
    (hal : b.toNat % 8 = 0) :
    ∃ v, v.rotateLeft 32 = mem.rdram.guest.read (window b) 8 ∧
      ∀ reg : Reg → BitVec 64, reg index = b →
        (liveHost upper).load reg mem (.rdram index) 8 = some v := by
  have hmap : ((liveHost upper).load (fun _ => b) mem (.rdram index) 8).map (·.rotateLeft 32) =
      some (mem.rdram.guest.read (window b) 8) := load_eight hb hal
  obtain ⟨v, hv, hrotate⟩ := Option.map_eq_some_iff.mp hmap
  refine ⟨v, hrotate, fun reg hreg => ?_⟩
  simpa only [liveHost, LiveMemory.load, hreg] using hv

/-- The operation of a load. -/
def loadType : LoadOp → BinaryOpType
  | .lb => .lb
  | .lbu => .lbu
  | .lh => .lh
  | .lhu => .lhu
  | .lw => .lw
  | .lwu => .lwu
  | .ld => .ld
  | .lwl => .lwl
  | .lwr => .lwr
  | .ldl => .ldl
  | .ldr => .ldr

/-- The aligned loads do what the instructions do. -/
theorem leavesGpr_alignedLoad (hr : r ≠ 0) (h : LiveReads upper s src2 y) {op : LoadOp}
    (hop : loadTakesOutput op = false) (cmpUnsigned : Bool)
    (hwindow : InWindow (liveGpr s.mem r₁ + y))
    (hal : (liveGpr s.mem r₁ + y).toNat % op.alignment = 0) (k : Nat) (x : BitVec 64) :
    ∃ code, binaryCode (.mem (.gpr r)) (getGprValues r₁) src2 (loadType op) cmpUnsigned = some code ∧
      LeavesGpr upper s code r
        (op.eval s.mem.rdram.guest (window (liveGpr s.mem r₁ + y)) k x) := by
  generalize ha : liveGpr s.mem r₁ + y = a at *
  cases op <;> simp only [loadTakesOutput, reduceCtorEq, LoadOp.alignment] at hop hal
  case lb =>
    exact ⟨_, rfl, leavesGpr_emitLoad upper r₁ hr h
      (fun reg hreg => load_one hwindow (hreg.trans (congrArg (· ^^^ 3) ha)))
      fun _ => wrap_int8_setWidth _⟩
  case lbu =>
    exact ⟨_, rfl, leavesGpr_emitLoad upper r₁ hr h
      (fun reg hreg => load_one hwindow (hreg.trans (congrArg (· ^^^ 3) ha)))
      fun _ => wrap_uint8_setWidth _⟩
  case lh =>
    exact ⟨_, rfl, leavesGpr_emitLoad upper r₁ hr h
      (fun reg hreg => load_two hwindow (hreg.trans (congrArg (· ^^^ 2) ha)) hal)
      fun _ => wrap_int16_setWidth _⟩
  case lhu =>
    exact ⟨_, rfl, leavesGpr_emitLoad upper r₁ hr h
      (fun reg hreg => load_two hwindow (hreg.trans (congrArg (· ^^^ 2) ha)) hal)
      fun _ => wrap_uint16_setWidth _⟩
  case lw =>
    refine ⟨_, rfl, leavesGpr_emitLoad upper r₁ hr h (fun reg hreg => ?_)
      fun _ => wrap_int32_setWidth _⟩
    have hreg' : reg tempReg1 = a := hreg.trans ((congrArg (· ^^^ 0) ha).trans BitVec.xor_zero)
    exact hreg' ▸ load_four (hreg' ▸ hwindow) (hreg' ▸ hal)
  case lwu =>
    refine ⟨_, rfl, leavesGpr_emitLoad upper r₁ hr h (fun reg hreg => ?_)
      fun _ => wrap_uint32_setWidth _⟩
    have hreg' : reg tempReg1 = a := hreg.trans ((congrArg (· ^^^ 0) ha).trans BitVec.xor_zero)
    exact hreg' ▸ load_four (hreg' ▸ hwindow) (hreg' ▸ hal)
  case ld =>
    obtain ⟨v, hrotate, hload⟩ := exists_load_eight upper s.mem tempReg1 hwindow hal
    refine ⟨_, rfl, _, by simp [h.doubleword, ha, hload]; rfl, ?_⟩
    exact toMips_writeGpr hr rfl hrotate rfl rfl rfl

/-! ### Unaligned loads -/

/-- The shift counts of the unaligned accesses, eight times the misalignment. -/
theorem shiftLeft_misalignment (a : BitVec 64) {n : Nat} (hn : n ≤ 3) :
    ((a &&& BitVec.ofNat 64 (2 ^ n - 1)) <<< 3).toNat = 8 * (a.toNat % 2 ^ n) := by
  have hmul := misalignment_mul a hn
  rw [BitVec.toNat_mul] at hmul
  rw [BitVec.toNat_shiftLeft, Nat.shiftLeft_eq]
  exact hmul

theorem shiftLeft_misalignment_word (a : BitVec 64) :
    (((a.setWidth 32 : BitVec 32) &&& 3#32) <<< 3).toNat = 8 * (a.toNat % 4) := by
  have hcount := shiftLeft_misalignment a (n := 2) (by decide)
  have hword : (((a &&& 3#64) <<< 3).setWidth 32).toNat = 8 * (a.toNat % 4) := by
    rw [BitVec.toNat_setWidth]
    exact (congrArg (· % 2 ^ 32) hcount).trans (Nat.mod_eq_of_lt (by omega))
  simpa using hword

theorem sub_misalignment_shiftLeft (a : BitVec 64) {n : Nat} (hn : n ≤ 3) :
    ((BitVec.ofNat 64 (2 ^ n - 1) - (a &&& BitVec.ofNat 64 (2 ^ n - 1))) <<< 3).toNat =
      8 * (2 ^ n - 1 - a.toNat % 2 ^ n) := by
  have hpow : 2 ^ n ≤ 2 ^ 3 := Nat.pow_le_pow_right (by decide) hn
  have hlt : a.toNat % 2 ^ n < 2 ^ n := Nat.mod_lt _ (Nat.two_pow_pos n)
  rw [BitVec.toNat_shiftLeft, Nat.shiftLeft_eq, BitVec.toNat_sub, and_mask_toNat a (by omega),
    BitVec.toNat_ofNat]
  omega

theorem sub_misalignment_word (a : BitVec 64) :
    (((3#64 - (a &&& 3#64)).setWidth 32 : BitVec 32) <<< 3).toNat = 8 * (4 - 1 - a.toNat % 4) := by
  have hand : (a &&& 3#64).toNat = a.toNat % 4 := and_mask_toNat a (n := 2) (by decide)
  have hthree : (3#64).toNat = 3 := rfl
  rw [BitVec.toNat_shiftLeft, Nat.shiftLeft_eq, BitVec.toNat_setWidth, BitVec.toNat_sub, hand,
    hthree]
  omega

theorem shiftLeft_and_allOnes {w : Nat} (v : BitVec w) (n : Nat) :
    v <<< n &&& BitVec.allOnes w <<< n = v <<< n := by
  rw [← BitVec.shiftLeft_and_distrib, BitVec.and_allOnes]

theorem ushiftRight_and_allOnes {w : Nat} (v : BitVec w) (n : Nat) :
    v >>> n &&& BitVec.allOnes w >>> n = v >>> n := by
  rw [← BitVec.ushiftRight_and_distrib, BitVec.and_allOnes]

/-- The mask of the bytes that a left load takes is negative, so that the register's upper half
is replaced. -/
theorem merge_ofWord (x : BitVec 64) (v m : BitVec 32) (hm : m.msb = true) :
    ((x &&& ~~~ofWord m) ||| (ofWord v &&& ofWord m)) = ofWord ((v &&& m) ||| (word x &&& ~~~m)) := by
  apply BitVec.eq_of_getLsbD_eq
  intro j hj
  simp only [BitVec.getLsbD_or, BitVec.getLsbD_and, BitVec.getLsbD_not, BitVec.getLsbD_signExtend,
    BitVec.getLsbD_setWidth, BitVec.msb_or, BitVec.msb_and, BitVec.msb_not, hm, hj, decide_true,
    Bool.true_and]
  by_cases h : j < 32
  · simp [h, Bool.or_comm]
  · simp [h]

theorem merge_doubleword {x v m : BitVec 64} (n : BitVec 64) (h : v &&& m = n) :
    ((x &&& (m ^^^ 0xFFFFFFFFFFFFFFFF#64)) ||| (v &&& m)) = (n ||| (x &&& ~~~m)) := by
  rw [xor_minus_one, h, BitVec.or_comm]

theorem leavesGpr_lwl (hr : r ≠ 0) (h : LiveReads upper s src2 y)
    (hwindow : InWindow (liveGpr s.mem r₁ + y)) :
    LeavesGpr upper s (emitUnalignedLoad (.mem (.gpr r)) (getGprValues r₁) src2 true false) r
      (LoadOp.eval s.mem.rdram.guest (window (liveGpr s.mem r₁ + y))
        ((liveGpr s.mem r₁ + y).toNat % 8) (s.mem.gpr r) .lwl) := by
  generalize ha : liveGpr s.mem r₁ + y = a at *
  obtain ⟨v, hv, hload⟩ := exists_load_four upper s.mem tempReg1
    (hwindow.and (x := ~~~3#64) (by decide)) (alignDown_mod a (n := 2) (by decide))
  have hcount : ((a &&& 3#64) <<< 3).toNat = 8 * (a.toNat % 4) :=
    shiftLeft_misalignment a (n := 2) (by decide)
  have hcount32 := shiftLeft_misalignment_word a
  have hk : 8 * (a.toNat % 4) < 32 := by omega
  have hk64 : 8 * (a.toNat % 4) < 64 := by omega
  rw [eval_lwl, ← hv]
  refine ⟨_, by simp [emitUnalignedLoad, loadAlignedWord, wordSize, wordMask, h.doubleword, ha,
    hload, hcount, hcount32, hk, hk64]; rfl, ?_⟩
  refine toMips_writeGpr hr rfl ?_ rfl rfl rfl
  generalize 8 * (a.toNat % 4) = n at hk ⊢
  have hmask : (BitVec.allOnes 32 <<< n).msb = true := by
    rw [BitVec.msb_shiftLeft, BitVec.getMsbD_allOnes, decide_eq_true hk]
  calc ((s.mem.gpr r &&& (ofWord (BitVec.allOnes 32 <<< n) ^^^ 0xFFFFFFFFFFFFFFFF#64)) |||
        (ofWord (word (ofWord v) <<< n) &&& ofWord (BitVec.allOnes 32 <<< n)))
      = ofWord ((v <<< n &&& BitVec.allOnes 32 <<< n) |||
          (word (s.mem.gpr r) &&& ~~~(BitVec.allOnes 32 <<< n))) := by
        rw [xor_minus_one, merge_ofWord _ _ _ hmask, word_ofWord]
    _ = _ := by rw [shiftLeft_and_allOnes]

/-- What a right load of a word leaves: the upper half of the register stays unless all four bytes
are loaded. -/
def lwrResult (x : BitVec 64) (k : Nat) (z : BitVec 32) : BitVec 64 :=
  if k % 4 = 3 then ofWord z else (x >>> 32).setWidth 32 ++ z

theorem word_lwrResult (x : BitVec 64) (k : Nat) (z : BitVec 32) : word (lwrResult x k z) = z := by
  rw [lwrResult]
  split
  · exact word_ofWord z
  · exact word_append _ z

theorem merge_append (x : BitVec 64) (v : BitVec 32) {n : Nat} (hn : 0 < n) :
    ((x &&& ~~~ofWord (BitVec.allOnes 32 >>> n)) |||
      (ofWord v >>> n &&& ofWord (BitVec.allOnes 32 >>> n))) =
      ((x >>> 32).setWidth 32 ++ (v >>> n ||| (word x &&& ~~~(BitVec.allOnes 32 >>> n))) :
        BitVec (32 + 32)) := by
  have hmsb : (BitVec.allOnes 32 >>> n).msb = false := by
    rw [BitVec.msb_ushiftRight, decide_eq_true hn, Bool.not_true, Bool.false_and]
  apply BitVec.eq_of_getLsbD_eq
  intro j hj
  simp only [BitVec.getLsbD_or, BitVec.getLsbD_and, BitVec.getLsbD_not, BitVec.getLsbD_signExtend,
    BitVec.getLsbD_setWidth, BitVec.getLsbD_append, BitVec.getLsbD_ushiftRight,
    BitVec.getLsbD_allOnes, hmsb, hj, decide_true, Bool.true_and]
  by_cases h : j < 32
  · by_cases hnj : n + j < 32
    · simp [h, hnj, show n + j < 64 by omega]
    · simp [h, hnj, BitVec.getLsbD_of_ge v (n + j) (by omega)]
  · simp [h, show 32 + (j - 32) = j by omega, show j - 32 < 32 by omega]

theorem leavesGpr_lwr (hr : r ≠ 0) (h : LiveReads upper s src2 y)
    (hwindow : InWindow (liveGpr s.mem r₁ + y)) :
    LeavesGpr upper s (emitUnalignedLoad (.mem (.gpr r)) (getGprValues r₁) src2 false false) r
      (lwrResult (s.mem.gpr r) (liveGpr s.mem r₁ + y).toNat
        (word (LoadOp.eval s.mem.rdram.guest (window (liveGpr s.mem r₁ + y))
          ((liveGpr s.mem r₁ + y).toNat % 8) (s.mem.gpr r) .lwr))) := by
  generalize ha : liveGpr s.mem r₁ + y = a at *
  obtain ⟨v, hv, hload⟩ := exists_load_four upper s.mem tempReg1
    (hwindow.and (x := ~~~3#64) (by decide)) (alignDown_mod a (n := 2) (by decide))
  have hcount : ((3#64 - (a &&& 3#64)) <<< 3).toNat = 8 * (4 - 1 - a.toNat % 4) :=
    sub_misalignment_shiftLeft a (n := 2) (by decide)
  have hcount32 := sub_misalignment_word a
  have hk : 8 * (4 - 1 - a.toNat % 4) < 32 := by omega
  have hk64 : 8 * (4 - 1 - a.toNat % 4) < 64 := by omega
  rw [eval_lwr, word_ofWord, ← hv]
  refine ⟨_, by simp [emitUnalignedLoad, loadAlignedWord, wordSize, wordMask, h.doubleword, ha,
    hload, hcount, hcount32, hk, hk64]; rfl, ?_⟩
  refine toMips_writeGpr hr rfl ?_ rfl rfl rfl
  change ((s.mem.gpr r &&& (ofWord (BitVec.allOnes 32 >>> (8 * (3 - a.toNat % 4))) ^^^
    0xFFFFFFFFFFFFFFFF#64)) ||| (ofWord v >>> (8 * (3 - a.toNat % 4)) &&&
      ofWord (BitVec.allOnes 32 >>> (8 * (3 - a.toNat % 4))))) = _
  rw [xor_minus_one, lwrResult]
  split
  · -- the mask is all ones
    have hzero : 8 * (3 - a.toNat % 4) = 0 := by omega
    have hones : ofWord (BitVec.allOnes 32) = BitVec.allOnes 64 := by decide
    rw [hzero, BitVec.ushiftRight_zero, BitVec.ushiftRight_zero, BitVec.ushiftRight_zero, hones]
    simp only [BitVec.not_allOnes, BitVec.and_zero, BitVec.zero_or, BitVec.or_zero,
      BitVec.and_allOnes]
  · exact merge_append _ _ (by omega)

theorem leavesGpr_ldl (hr : r ≠ 0) (h : LiveReads upper s src2 y)
    (hwindow : InWindow (liveGpr s.mem r₁ + y)) :
    LeavesGpr upper s (emitUnalignedLoad (.mem (.gpr r)) (getGprValues r₁) src2 true true) r
      (LoadOp.eval s.mem.rdram.guest (window (liveGpr s.mem r₁ + y))
        ((liveGpr s.mem r₁ + y).toNat % 8) (s.mem.gpr r) .ldl) := by
  generalize ha : liveGpr s.mem r₁ + y = a at *
  obtain ⟨v, hrotate, hload⟩ := exists_load_eight upper s.mem tempReg1
    (hwindow.and (x := ~~~7#64) (by decide)) (alignDown_mod a (n := 3) (by decide))
  have hcount : ((a &&& 7#64) <<< 3).toNat = 8 * (a.toNat % 8) :=
    shiftLeft_misalignment a (n := 3) (by decide)
  have hk : 8 * (a.toNat % 8) < 64 := by omega
  rw [eval_ldl, ← hrotate]
  refine ⟨_, by simp [emitUnalignedLoad, loadAlignedWord, wordSize, wordMask, h.doubleword, ha,
    hload, hcount, hk]; rfl, ?_⟩
  refine toMips_writeGpr hr rfl ?_ rfl rfl rfl
  exact merge_doubleword _ (shiftLeft_and_allOnes _ _)

theorem leavesGpr_ldr (hr : r ≠ 0) (h : LiveReads upper s src2 y)
    (hwindow : InWindow (liveGpr s.mem r₁ + y)) :
    LeavesGpr upper s (emitUnalignedLoad (.mem (.gpr r)) (getGprValues r₁) src2 false true) r
      (LoadOp.eval s.mem.rdram.guest (window (liveGpr s.mem r₁ + y))
        ((liveGpr s.mem r₁ + y).toNat % 8) (s.mem.gpr r) .ldr) := by
  generalize ha : liveGpr s.mem r₁ + y = a at *
  obtain ⟨v, hrotate, hload⟩ := exists_load_eight upper s.mem tempReg1
    (hwindow.and (x := ~~~7#64) (by decide)) (alignDown_mod a (n := 3) (by decide))
  have hcount : ((7#64 - (a &&& 7#64)) <<< 3).toNat = 8 * (8 - 1 - a.toNat % 8) :=
    sub_misalignment_shiftLeft a (n := 3) (by decide)
  have hk : 8 * (8 - 1 - a.toNat % 8) < 64 := by omega
  rw [eval_ldr, ← hrotate]
  refine ⟨_, by simp [emitUnalignedLoad, loadAlignedWord, wordSize, wordMask, h.doubleword, ha,
    hload, hcount, hk]; rfl, ?_⟩
  refine toMips_writeGpr hr rfl ?_ rfl rfl rfl
  exact merge_doubleword _ (ushiftRight_and_allOnes _ _)

/-- What the code of a load leaves in the register `r`. -/
def liveLoad (mem : LiveMemory) (op : LoadOp) (a : BitVec 64) (r : Fin 32) : BitVec 64 :=
  let z := op.eval mem.rdram.guest (window a) (a.toNat % 8) (mem.gpr r)
  if op = .lwr then lwrResult (mem.gpr r) a.toNat (word z) else z

/-- **The loads do what the instructions do**, except for the upper half that `lwr` keeps. -/
theorem leavesGpr_load (hr : r ≠ 0) (h : LiveReads upper s src2 y) (op : LoadOp)
    (cmpUnsigned : Bool) (hwindow : InWindow (liveGpr s.mem r₁ + y))
    (hal : (liveGpr s.mem r₁ + y).toNat % op.alignment = 0) :
    ∃ code, binaryCode (.mem (.gpr r)) (getGprValues r₁) src2 (loadType op) cmpUnsigned = some code ∧
      LeavesGpr upper s code r (liveLoad s.mem op (liveGpr s.mem r₁ + y) r) := by
  cases op with
  | lwl => exact ⟨_, rfl, leavesGpr_lwl upper r₁ hr h hwindow⟩
  | lwr => exact ⟨_, rfl, leavesGpr_lwr upper r₁ hr h hwindow⟩
  | ldl => exact ⟨_, rfl, leavesGpr_ldl upper r₁ hr h hwindow⟩
  | ldr => exact ⟨_, rfl, leavesGpr_ldr upper r₁ hr h hwindow⟩
  | _ =>
    exact leavesGpr_alignedLoad upper r₁ hr h rfl cmpUnsigned hwindow hal
      ((liveGpr s.mem r₁ + y).toNat % 8) (s.mem.gpr r)

end Loads

end N64Recomp
