import N64Recomp.LiveGenerator.Machine
import N64Recomp.Mips.MulDiv

/-!
# The arithmetic of the live generator

What the code of the operations without memory accesses leaves in its destination, one lemma for
each shape of code.

## Main definitions

* `LiveReads`: the value of a source operand
* `LeavesGpr`: the code writes a register of the guest and nothing else

## Main results

* `leavesGpr_alu32`, `leavesGpr_alu64`, `leavesGpr_icmp`, ...: one for each shape
-/

namespace N64Recomp

open CLang Registers LiveGenerator
open Mips hiding Reg State
open Sljit (Reg State Instr MovType Op2 Cond)

section Arithmetic

variable (upper : (Reg → BitVec 64) → BitVec 32 → BitVec 32)

/-- The operand has a value, at either width. -/
structure LiveReads (s : State LiveMemory) (src : LiveOperand) (y : BitVec 64) : Prop where
  doubleword : s.read (liveHost upper) 8 src = some y
  low : ∃ z, s.read (liveHost upper) 4 src = some z ∧ word z = word y

/-- The code writes a register of the guest. -/
def LeavesGpr (s : State LiveMemory) (code : List LiveInstr) (r : Fin 32) (x : BitVec 64) : Prop :=
  ∃ s', Sljit.run (liveHost upper) code s = some s' ∧
    (liveMachine s').toMips = (liveMachine s).toMips.setReg r x

variable {s : State LiveMemory} {r : Fin 32} {src2 : LiveOperand} {x y : BitVec 64}

theorem reads_gpr (q : Fin 32) : LiveReads upper s (getGprValues q) ((liveMachine s).toMips.gpr q) :=
  ⟨read_getGprValues upper s 8 q |>.trans (congrArg some (lowBytes_eight _)),
    _, read_getGprValues upper s 4 q, setWidth_lowBytes_four _⟩

theorem reads_imm (y : BitVec 64) : LiveReads upper s (.imm y) y := ⟨rfl, y, rfl, rfl⟩

theorem reads_reg (q : Reg) : LiveReads upper s (.reg q) (s.reg q) := ⟨rfl, _, rfl, rfl⟩

/-- A write of a register other than `$zero`. -/
theorem toMips_writeGpr {t : State LiveMemory} {z : BitVec 64} (hr : r ≠ 0)
    (hmem : t.mem = { s.mem with gpr := fun q => if q = r then z else s.mem.gpr q }) (hz : z = x)
    (hhi : t.reg hi = s.reg hi) (hlo : t.reg lo = s.reg lo) (hc1cs : t.reg c1cs = s.reg c1cs) :
    (liveMachine t).toMips = (liveMachine s).toMips.setReg r x := by
  subst hz
  apply Mips.State.ext
  case gpr =>
    funext q
    by_cases hq : q = r
    · simp [liveMachine, Machine.toMips, Mips.State.setReg, hmem, hq, hr]
    · simp [liveMachine, Machine.toMips, Mips.State.setReg, hmem, hq]
  case hi => exact hhi
  case lo => exact hlo
  case fpCondition =>
    simp only [liveMachine, Machine.toMips, hc1cs, Mips.State.setReg]
    rfl
  case mem => simp only [liveMachine, Machine.toMips, hmem, Mips.State.setReg]

theorem xor_minus_one (x : BitVec 64) : x ^^^ 0xFFFFFFFFFFFFFFFF#64 = ~~~x := BitVec.xor_allOnes

variable (r₁ : Fin 32)

/-- A 32-bit operation, and the extension of its result. -/
theorem leavesGpr_alu32 (hr : r ≠ 0) (h : LiveReads upper s src2 y) {op : Op2} {z : BitVec 32}
    (hop : op.eval (word (liveGpr s.mem r₁)) (word y) = some z) :
    LeavesGpr upper s (emitAlu32 (.mem (.gpr r)) (getGprValues r₁) src2 op) r (ofWord z) := by
  obtain ⟨y', hy', hword⟩ := h.low
  rw [← hword] at hop
  refine ⟨_, by simp [emitAlu32, storeSext32, hy', hop]; rfl, ?_⟩
  exact toMips_writeGpr hr rfl rfl rfl rfl rfl

theorem leavesGpr_alu64 (hr : r ≠ 0) (h : LiveReads upper s src2 y) {op : Op2} {z : BitVec 64}
    (hop : op.eval (liveGpr s.mem r₁) y = some z) :
    LeavesGpr upper s (emitAlu64 (.mem (.gpr r)) (getGprValues r₁) src2 op) r z := by
  refine ⟨_, by simp [emitAlu64, h.doubleword, hop]; rfl, ?_⟩
  exact toMips_writeGpr hr rfl rfl rfl rfl rfl

/-- A comparison, and its flag. -/
theorem leavesGpr_icmp (hr : r ≠ 0) (h : LiveReads upper s src2 y) (cmpUnsigned : Bool)
    (opUnsigned opSigned : Cond) :
    LeavesGpr upper s
      (emitIcmp (.mem (.gpr r)) (getGprValues r₁) src2 cmpUnsigned opUnsigned opSigned) r
      (Mips.ofBool ((if cmpUnsigned then opUnsigned else opSigned).eval (liveGpr s.mem r₁) y)) := by
  refine ⟨_, by simp [emitIcmp, h.doubleword, State.holds]; rfl, ?_⟩
  exact toMips_writeGpr hr rfl rfl rfl rfl rfl

theorem leavesGpr_nor (hr : r ≠ 0) (h : LiveReads upper s src2 y) :
    LeavesGpr upper s [.op2 .or false (.reg tempReg1) (getGprValues r₁) src2,
        .op2 .xor false (.mem (.gpr r)) (.reg tempReg1) (.imm (-1))] r
      (~~~(liveGpr s.mem r₁ ||| y)) := by
  refine ⟨_, by simp [h.doubleword]; rfl, ?_⟩
  exact toMips_writeGpr hr rfl (xor_minus_one _) rfl rfl rfl

/-- A shift count that is masked as a word. -/
theorem toNat_masked_count (above : BitVec 32) {y' y : BitVec 64} (h : word y' = word y) :
    (above ++ (word y' &&& 0b11111#32) : BitVec (32 + 32)).toNat % 64 = y.toNat % 32 := by
  have hlow := congrArg BitVec.toNat (word_append above (word y' &&& 0b11111#32))
  have hmask : (word y' &&& 0b11111#32).toNat = y.toNat % 32 := by
    have hconst : (0b11111#32).toNat = 2 ^ 5 - 1 := rfl
    rw [h, BitVec.toNat_and, hconst, Nat.and_two_pow_sub_one_eq_mod, BitVec.toNat_setWidth]
    omega
  rw [hmask, BitVec.toNat_setWidth] at hlow
  omega

/-- The arithmetic right shift of a word shifts the whole register. -/
theorem leavesGpr_sra32 (hr : r ≠ 0) (h : LiveReads upper s src2 y) {n : Nat}
    (hn : y.toNat % 32 = n) :
    LeavesGpr upper s ([.op2 .and true (.reg tempReg1) src2 (.imm 0b11111),
        .op2 .mashr false (.reg tempReg1) (getGprValues r₁) (.reg tempReg1)] ++
        storeSext32 (.mem (.gpr r))) r
      (ShiftOp.sra.eval (liveGpr s.mem r₁) n) := by
  subst hn
  obtain ⟨y', hy', hword⟩ := h.low
  refine ⟨_, by simp [storeSext32, hy']; rfl, ?_⟩
  refine toMips_writeGpr hr rfl ?_ rfl rfl rfl
  exact congrArg (fun n => ofWord (word ((liveGpr s.mem r₁).sshiftRight n)))
    (toNat_masked_count _ hword)

/-- A move to a register of the guest. -/
theorem leavesGpr_mov (hr : r ≠ 0) {src : LiveOperand} (h : LiveReads upper s src x) :
    LeavesGpr upper s [.op1 .mov (.mem (.gpr r)) src] r x := by
  refine ⟨_, by simp [h.doubleword]; rfl, ?_⟩
  exact toMips_writeGpr hr rfl rfl rfl rfl rfl

end Arithmetic

end N64Recomp
