import N64Recomp.CGenerator.MulDiv
import N64Recomp.LiveGenerator.Machine

/-!
# The multiplications and divisions of the live generator

The code that `LiveGenerator` emits for the instructions that write `hi` and `lo`, and where it
leaves what the C leaves. A zero divisor is branched around here, and is not guarded in C. The
second operand of the signed word product is read at 35 bits here, and at 32 bits in C.

## Main definitions

* `LiveGenerator.emitMuldiv`: the code
* `liveHiLo`: what the code leaves
* `MulDivAgrees`: when the code does what the C does, and what the instruction does

## Main results

* `run_emitMuldiv`: the code of an instruction never traps, and leaves `liveHiLo`
* `mulDiv_agrees_iff`: the operands on which the two agree
-/

namespace N64Recomp

open CLang Registers
open Mips hiding Reg State
open Sljit (Reg State Instr MovType Op2)

namespace LiveGenerator

section Code

variable (src1 src2 : LiveOperand)

/-- The words of the product in `R0` and `R1`. -/
def mul32Tail (isSigned : Bool) : List LiveInstr :=
  [.lmul isSigned,
    .op2 .ashr false (.reg hi) (.reg (.r 0)) (.imm 32),
    .op1 .s32 (.reg lo) (.reg (.r 0))]

/-- The product of two words. The second operand of the signed product has 35 bits. -/
def emitMul32 (isSigned : Bool) : List LiveInstr :=
  (if isSigned then
    [.op1 .mov (.reg (.r 0)) src1,
      .op2 .shl false (.reg (.r 1)) src2 (.imm 29),
      .op2 .ashr false (.reg (.r 1)) (.reg (.r 1)) (.imm 29)]
  else [.op1 .u32 (.reg (.r 0)) src1, .op1 .u32 (.reg (.r 1)) src2]) ++
  mul32Tail isSigned

/-- The product of two doublewords. -/
def emitMul64 (isSigned : Bool) : List LiveInstr :=
  [.op1 .mov (.reg (.r 0)) src1, .op1 .mov (.reg (.r 1)) src2, .lmul isSigned,
    .op1 .mov (.reg hi) (.reg (.r 1)), .op1 .mov (.reg lo) (.reg (.r 0))]

/-- Replaces the divisor of the quotient that overflows by one. -/
def guardOverflow : List LiveInstr :=
  [.op2 .xor false (.reg tempReg3) (.reg tempReg1) (.imm (BitVec.intMin 64)),
    .op2 .xor false (.reg tempReg4) (.reg tempReg2) (.imm (-1)),
    .op2SetZ .or (.reg tempReg3) (.reg tempReg3) (.reg tempReg4),
    .select .equal (.r 1) (.imm 1) (.r 1)]

/-- The labels of a division. -/
def afterDivision : Nat := 0
def endLabel : Nat := 1

/-- How the results are written. -/
def saveOpcode (doubleword : Bool) : MovType := if doubleword then .mov else .s32

/-- What stands after the division: the results for a zero divisor. -/
def zeroDivisor (doubleword isSigned : Bool) : List LiveInstr :=
  .op1 (saveOpcode doubleword) (.reg hi) (.reg (.r 0)) ::
    if isSigned then
      [.op2 .xor false (.reg lo) (.reg (.r 0)) (.imm (-1)),
        .op2 .ashr false (.reg lo) (.reg lo) (.imm 63),
        .op2 .or false (.reg lo) (.reg lo) (.imm 1)]
    else [.op1 .mov (.reg lo) (.imm (-1))]

/-- The division of `R0` by `R1`, unless `R1` is zero. The signed division of words is one of
doublewords. -/
def divmodTail (doubleword isSigned : Bool) : List LiveInstr :=
  [.cmp .equal (.reg (.r 1)) (.imm 0) afterDivision,
    .divmod (!doubleword && !isSigned) isSigned,
    .op1 (saveOpcode doubleword) (.reg hi) (.reg (.r 1)),
    .op1 (saveOpcode doubleword) (.reg lo) (.reg (.r 0)),
    .jump endLabel,
    .label afterDivision] ++
  zeroDivisor doubleword isSigned ++ [.label endLabel]

/-- The quotient and the remainder. -/
def emitDivmod (doubleword isSigned : Bool) : List LiveInstr :=
  let loadOpcode : MovType := if doubleword then .mov else if isSigned then .s32 else .u32
  [.op1 loadOpcode (.reg (.r 0)) src1, .op1 loadOpcode (.reg (.r 1)) src2] ++
  (if doubleword && isSigned then guardOverflow else []) ++
  divmodTail doubleword isSigned

end Code

/-- The code of an instruction; none for one that is no multiplication or division. -/
def emitMuldiv (id : InstrId) (reg1 reg2 : Fin 32) : Option (List LiveInstr) :=
  let src1 := getGprValues reg1
  let src2 := getGprValues reg2
  match id with
  | .mult => some (emitMul32 src1 src2 true)
  | .multu => some (emitMul32 src1 src2 false)
  | .dmult => some (emitMul64 src1 src2 true)
  | .dmultu => some (emitMul64 src1 src2 false)
  | .div => some (emitDivmod src1 src2 false true)
  | .divu => some (emitDivmod src1 src2 false false)
  | .ddiv => some (emitDivmod src1 src2 true true)
  | .ddivu => some (emitDivmod src1 src2 true false)
  | _ => none

end LiveGenerator

open LiveGenerator

/-! ### What the code leaves -/

/-- A register as a value of 35 bits. -/
def signExtend35 (y : BitVec 64) : BitVec 64 := (y <<< 29).sshiftRight 29

/-- What the code leaves in `hi` and `lo`. -/
def liveHiLo (op : MulDivOp) (x y : BitVec 64) : HiLo :=
  if op.dividesByZero y then
    let dividend := if op.isWord then ofWord (word x) else x
    ⟨dividend, if op = .div ∨ op = .ddiv then (dividend ^^^ -1).sshiftRight 63 ||| 1 else -1⟩
  else if op = .mult then .ofProduct (x * signExtend35 y)
  else op.eval x y

section Run

variable (upper : (Reg → BitVec 64) → BitVec 32 → BitVec 32) {s : State LiveMemory}

/-- A state that differs in the result registers, and in scratch registers. -/
theorem liveMachine_eq_setHiLo {s' : State LiveMemory} {z : HiLo} (hmem : s'.mem = s.mem)
    (hc1cs : s'.reg c1cs = s.reg c1cs) (hhi : s'.reg hi = z.hi) (hlo : s'.reg lo = z.lo) :
    liveMachine s' = (liveMachine s).setHiLo z := by
  simp [liveMachine, Machine.setHiLo, hmem, hc1cs, hhi, hlo]

/-- The low half of a product does not depend on the signs. -/
theorem longMultiply_snd (isSigned : Bool) (x y : BitVec 64) :
    (Sljit.longMultiply isSigned x y).2 = x * y := by
  have hself : ∀ z : BitVec 64, (z.signExtend 128).setWidth 64 = z := by
    intro z
    apply BitVec.eq_of_getLsbD_eq
    intro j hj
    simp [-BitVec.getLsbD_eq_getElem, BitVec.getLsbD_signExtend, hj, show j < 128 by omega]
  cases isSigned with
  | true =>
    change (x.signExtend 128 * y.signExtend 128).setWidth 64 = _
    rw [BitVec.setWidth_mul _ _ (by decide), hself, hself]
  | false =>
    change (x.setWidth 128 * y.setWidth 128).setWidth 64 = _
    rw [BitVec.setWidth_mul _ _ (by decide), BitVec.setWidth_setWidth_of_le _ (by decide),
      BitVec.setWidth_setWidth_of_le _ (by decide), BitVec.setWidth_eq, BitVec.setWidth_eq]

theorem sshiftRight_32 (z : BitVec 64) : z.sshiftRight 32 = ofWord (word (z >>> 32)) := by
  apply BitVec.eq_of_getLsbD_eq
  intro j hj
  rw [BitVec.getLsbD_sshiftRight, ofWord, word, BitVec.getLsbD_signExtend]
  by_cases hj32 : j < 32
  · simp [-BitVec.getLsbD_eq_getElem, hj, hj32, show 32 + j < 64 by omega]
  · simp [-BitVec.getLsbD_eq_getElem, hj, hj32, show ¬ 32 + j < 64 by omega,
      BitVec.msb_eq_getLsbD_last]

theorem run_mul32Tail (isSigned : Bool) :
    ∃ s', Sljit.run (liveHost upper) (mul32Tail isSigned) s = some s' ∧
      liveMachine s' =
        (liveMachine s).setHiLo (.ofProduct (s.reg (.r 0) * s.reg (.r 1))) := by
  refine ⟨_, by simp [mul32Tail, MovType.extend, longMultiply_snd]; rfl,
    liveMachine_eq_setHiLo ?_ ?_ ?_ ?_⟩
  · simp
  · simp
  · simpa [HiLo.ofProduct] using sshiftRight_32 _
  · simp [HiLo.ofProduct, ofWord, word]

/-- The code of a product of words, after the operands are read. -/
theorem run_emitMul32 (isSigned : Bool) (r₁ r₂ : Fin 32) :
    ∃ t, liveMachine t = liveMachine s ∧
      t.reg (.r 0) * t.reg (.r 1) = (if isSigned then
        liveGpr s.mem r₁ * signExtend35 (liveGpr s.mem r₂)
        else (word (liveGpr s.mem r₁)).setWidth 64 * (word (liveGpr s.mem r₂)).setWidth 64) ∧
      Sljit.run (liveHost upper) (emitMul32 (getGprValues r₁) (getGprValues r₂) isSigned) s =
        Sljit.run (liveHost upper) (mul32Tail isSigned) t := by
  cases isSigned with
  | true =>
    refine ⟨_, ?_, ?_, by simp [emitMul32]; rfl⟩
    · simp [liveMachine]
    · simp [signExtend35]
  | false =>
    refine ⟨_, ?_, ?_, by simp [emitMul32]; rfl⟩
    · simp [liveMachine]
    · simp

/-- A result as it is written. -/
def saved (doubleword : Bool) (x : BitVec 64) : BitVec 64 :=
  if doubleword then x else ofWord (word x)

theorem extend_saveOpcode (above : BitVec 32 → BitVec 32) (doubleword : Bool) (x : BitVec 64) :
    (saveOpcode doubleword).extend above x = saved doubleword x := by
  cases doubleword <;> rfl

theorem saved_ofWord (w : BitVec 32) : saved false (ofWord w) = ofWord w :=
  congrArg ofWord (word_ofWord w)

theorem saved_setWidth (w : BitVec 32) : saved false (w.setWidth 64) = ofWord w :=
  congrArg ofWord (word_setWidth_64 w)

/-- The division that is not skipped. -/
theorem run_divmodTail (doubleword isSigned : Bool) {q r : BitVec 64} (hzero : s.reg (.r 1) ≠ 0)
    (hdiv : (Instr.divmod (!doubleword && !isSigned) isSigned : LiveInstr).exec (liveHost upper) s =
      some ((s.setReg (.r 0) q).setReg (.r 1) r)) :
    ∃ s', Sljit.run (liveHost upper) (divmodTail doubleword isSigned) s = some s' ∧
      liveMachine s' = (liveMachine s).setHiLo ⟨saved doubleword r, saved doubleword q⟩ := by
  have hcmp : Sljit.Cond.equal.eval (s.reg (.r 1)) 0 = false := beq_eq_false_iff_ne.mpr hzero
  have hafter : Sljit.after endLabel
      (.label afterDivision :: (zeroDivisor doubleword isSigned ++ [.label endLabel])) =
      some [] := by
    cases isSigned <;> rfl
  refine ⟨((((s.setReg (.r 0) q).setReg (.r 1) r).setReg hi (saved doubleword r)).setReg lo
    (saved doubleword q)), ?_, liveMachine_eq_setHiLo rfl rfl rfl rfl⟩
  simp only [divmodTail, List.cons_append, List.nil_append, Sljit.run_cmp,
    State.read_reg, State.read_imm, Option.bind_some, hcmp]
  rw [if_neg Bool.false_ne_true, Sljit.run_cons rfl, hdiv]
  simp only [Option.bind_some, Sljit.run_op1, State.read_reg, State.write_reg, extend_saveOpcode,
    Sljit.run_jump, hafter, Sljit.run_nil]
  rfl

/-- A zero divisor. -/
theorem run_divmodTail_zero (doubleword isSigned : Bool) (hzero : s.reg (.r 1) = 0) :
    ∃ s', Sljit.run (liveHost upper) (divmodTail doubleword isSigned) s = some s' ∧
      liveMachine s' = (liveMachine s).setHiLo
        ⟨saved doubleword (s.reg (.r 0)),
          if isSigned then (s.reg (.r 0) ^^^ -1).sshiftRight 63 ||| 1 else -1⟩ := by
  cases isSigned with
  | true =>
    refine ⟨_, by simp [divmodTail, zeroDivisor, hzero, Sljit.Cond.eval, extend_saveOpcode,
      Sljit.op2Result]; rfl, liveMachine_eq_setHiLo ?_ ?_ ?_ ?_⟩
    all_goals simp
  | false =>
    refine ⟨_, by simp [divmodTail, zeroDivisor, hzero, Sljit.Cond.eval, extend_saveOpcode]; rfl,
      liveMachine_eq_setHiLo ?_ ?_ ?_ ?_⟩
    all_goals simp

/-- The guard of the quotient that overflows. -/
theorem run_guardOverflow (code : List LiveInstr) :
    ∃ t, liveMachine t = liveMachine s ∧ t.reg (.r 0) = s.reg (.r 0) ∧
      t.reg (.r 1) = (if s.reg (.r 0) = BitVec.intMin 64 ∧ s.reg (.r 1) = -1 then 1
        else s.reg (.r 1)) ∧
      Sljit.run (liveHost upper) (guardOverflow ++ code) s = Sljit.run (liveHost upper) code t := by
  refine ⟨_, ?_, ?_, ?_, by simp [guardOverflow, State.holds]; rfl⟩
  · simp [liveMachine]
  · simp
  · simp

/-- The state after the operands are read. -/
def loaded (s : State LiveMemory) (a b : BitVec 64) : State LiveMemory :=
  (s.setReg (.r 0) a).setReg (.r 1) b

@[simp] theorem liveMachine_loaded (a b : BitVec 64) :
    liveMachine (loaded s a b) = liveMachine s := rfl

@[simp] theorem loaded_zero (a b : BitVec 64) : (loaded s a b).reg (.r 0) = a := rfl

@[simp] theorem loaded_one (a b : BitVec 64) : (loaded s a b).reg (.r 1) = b := rfl

variable (x y : BitVec 64)

/-- The division of two words, as doublewords. -/
theorem run_div (hzero : word y ≠ 0) :
    ∃ s', Sljit.run (liveHost upper) (divmodTail false true)
        (loaded s (ofWord (word x)) (ofWord (word y))) = some s' ∧
      liveMachine s' = (liveMachine s).setHiLo (MulDivOp.div.eval x y) := by
  have hzero' : ofWord (word y) ≠ 0 := fun h => hzero ((ofWord_eq_zero_iff _).mp h)
  have hdiv := Sljit.divide_signed hzero' fun h => ofWord_ne_intMin (word x) h.1
  obtain ⟨s', hrun, hs'⟩ := run_divmodTail upper false true (s := loaded s _ _) hzero'
    (Sljit.exec_divmod (liveHost upper) hdiv)
  refine ⟨s', hrun, hs'.trans ?_⟩
  simp only [saved, Bool.false_eq_true, if_false, word_sdiv_ofWord, word_srem_ofWord]
  rfl

theorem run_divu (hzero : word y ≠ 0) :
    ∃ s', Sljit.run (liveHost upper) (divmodTail false false)
        (loaded s ((word x).setWidth 64) ((word y).setWidth 64)) = some s' ∧
      liveMachine s' = (liveMachine s).setHiLo (MulDivOp.divu.eval x y) := by
  have hzero' : (word y).setWidth 64 ≠ 0 := fun h =>
    hzero (by rw [← word_setWidth_64 (word y), h]; rfl)
  have hdiv : Sljit.divide false (word ((word x).setWidth 64)) (word ((word y).setWidth 64)) =
      some (word x / word y, word x % word y) := by
    rw [word_setWidth_64, word_setWidth_64]
    exact Sljit.divide_unsigned hzero
  obtain ⟨s', hrun, hs'⟩ := run_divmodTail upper false false (s := loaded s _ _) hzero'
    (Sljit.exec_divmod32 (liveHost upper) hdiv)
  refine ⟨s', hrun, hs'.trans ?_⟩
  simp only [saved, Bool.false_eq_true, if_false, word_append]
  rfl

theorem run_ddivu (hzero : y ≠ 0) :
    ∃ s', Sljit.run (liveHost upper) (divmodTail true false) (loaded s x y) = some s' ∧
      liveMachine s' = (liveMachine s).setHiLo (MulDivOp.ddivu.eval x y) := by
  have hdiv := Sljit.divide_unsigned (x := x) hzero
  obtain ⟨s', hrun, hs'⟩ := run_divmodTail upper true false (s := loaded s _ _) hzero
    (Sljit.exec_divmod (liveHost upper) hdiv)
  exact ⟨s', hrun, hs'⟩

/-- The quotient that overflows is also one by the divisor one. -/
theorem divide_guarded (hzero : y ≠ 0) :
    Sljit.divide true x (if x = BitVec.intMin 64 ∧ y = -1 then 1 else y) =
      some (x.sdiv y, x.srem y) := by
  by_cases hover : x = BitVec.intMin 64 ∧ y = -1
  · obtain ⟨rfl, rfl⟩ := hover
    decide
  · rw [if_neg hover]
    exact Sljit.divide_signed hzero hover

theorem run_ddiv (hzero : y ≠ 0) :
    ∃ s', Sljit.run (liveHost upper) (guardOverflow ++ divmodTail true true) (loaded s x y) =
        some s' ∧
      liveMachine s' = (liveMachine s).setHiLo (MulDivOp.ddiv.eval x y) := by
  obtain ⟨t, ht, hdividend, hdivisor, hguard⟩ :=
    run_guardOverflow upper (s := loaded s x y) (divmodTail true true)
  rw [loaded_zero] at hdividend
  rw [loaded_zero, loaded_one] at hdivisor
  have hzero' : t.reg (.r 1) ≠ 0 := by
    rw [hdivisor]
    split
    · decide
    · exact hzero
  have hdiv := divide_guarded x y hzero
  rw [← hdivisor, ← hdividend] at hdiv
  obtain ⟨s', hrun, hs'⟩ := run_divmodTail upper true true hzero'
    (Sljit.exec_divmod (liveHost upper) hdiv)
  rw [ht, hdividend] at hs'
  exact ⟨s', hguard.trans hrun, hs'⟩

theorem run_ddiv_zero (hzero : y = 0) :
    ∃ s', Sljit.run (liveHost upper) (guardOverflow ++ divmodTail true true) (loaded s x y) =
        some s' ∧
      liveMachine s' = (liveMachine s).setHiLo ⟨x, (x ^^^ -1).sshiftRight 63 ||| 1⟩ := by
  obtain ⟨t, ht, hdividend, hdivisor, hguard⟩ :=
    run_guardOverflow upper (s := loaded s x y) (divmodTail true true)
  rw [loaded_zero] at hdividend
  have hzero' : t.reg (.r 1) = 0 := by
    rw [hdivisor, loaded_one, if_neg (fun h => absurd (hzero.symm.trans h.2) (by decide)), hzero]
  obtain ⟨s', hrun, hs'⟩ := run_divmodTail_zero upper true true hzero'
  rw [ht, hdividend] at hs'
  exact ⟨s', hguard.trans hrun, hs'⟩

theorem run_emitMul64 (isSigned : Bool) (r₁ r₂ : Fin 32) :
    ∃ s', Sljit.run (liveHost upper) (emitMul64 (getGprValues r₁) (getGprValues r₂) isSigned) s =
        some s' ∧
      liveMachine s' = (liveMachine s).setHiLo
        ⟨(Sljit.longMultiply isSigned (liveGpr s.mem r₁) (liveGpr s.mem r₂)).1,
          (Sljit.longMultiply isSigned (liveGpr s.mem r₁) (liveGpr s.mem r₂)).2⟩ := by
  refine ⟨_, by simp [emitMul64]; rfl, liveMachine_eq_setHiLo ?_ ?_ ?_ ?_⟩
  all_goals simp

/-- The code of a division, after the operands are read. -/
theorem run_emitDivmod (doubleword isSigned : Bool) (r₁ r₂ : Fin 32) :
    let extend (x : BitVec 64) : BitVec 64 :=
      if doubleword then x else if isSigned then ofWord (word x) else (word x).setWidth 64
    Sljit.run (liveHost upper)
        (emitDivmod (getGprValues r₁) (getGprValues r₂) doubleword isSigned) s =
      Sljit.run (liveHost upper)
        ((if doubleword && isSigned then guardOverflow else []) ++ divmodTail doubleword isSigned)
        (loaded s (extend (liveGpr s.mem r₁)) (extend (liveGpr s.mem r₂))) := by
  cases doubleword <;> cases isSigned <;>
    simp [emitDivmod, loaded, ofWord]

end Run

theorem liveHiLo_of_division (op : MulDivOp) {x y : BitVec 64} (hop : op ≠ .mult)
    (h : op.dividesByZero y = false) : liveHiLo op x y = op.eval x y := by
  simp [liveHiLo, h, hop]

/-- The results for a zero divisor, of a signed and of an unsigned division. -/
theorem liveHiLo_signed (op : MulDivOp) {x y : BitVec 64} (h : op.dividesByZero y = true)
    (hop : op = .div ∨ op = .ddiv) :
    let dividend := if op.isWord then ofWord (word x) else x
    liveHiLo op x y = ⟨dividend, (dividend ^^^ -1).sshiftRight 63 ||| 1⟩ := by
  simp [liveHiLo, h, hop]

theorem liveHiLo_unsigned (op : MulDivOp) {x y : BitVec 64} (h : op.dividesByZero y = true)
    (hop : ¬(op = .div ∨ op = .ddiv)) :
    liveHiLo op x y = ⟨if op.isWord then ofWord (word x) else x, -1⟩ := by
  simp [liveHiLo, h, hop]

/-- **The code of a multiplication or a division** never traps, and leaves `liveHiLo`. -/
theorem run_emitMuldiv {id : InstrId} {op : MulDivOp} (hop : mulDivOp id = some op)
    (upper : (Reg → BitVec 64) → BitVec 32 → BitVec 32) (s : State LiveMemory)
    (reg1 reg2 : Fin 32) :
    ∃ code, LiveGenerator.emitMuldiv id reg1 reg2 = some code ∧
      ∃ s', Sljit.run (liveHost upper) code s = some s' ∧
        liveMachine s' = (liveMachine s).setHiLo
          (liveHiLo op ((liveMachine s).toMips.gpr reg1) ((liveMachine s).toMips.gpr reg2)) := by
  change ∃ code, _ ∧ ∃ s', _ ∧ liveMachine s' = (liveMachine s).setHiLo
    (liveHiLo op (liveGpr s.mem reg1) (liveGpr s.mem reg2))
  cases id <;> first | (cases hop; done) | (obtain rfl := Option.some.inj hop)
  all_goals refine ⟨_, rfl, ?_⟩
  all_goals generalize hx : liveGpr s.mem reg1 = x
  all_goals generalize hy : liveGpr s.mem reg2 = y
  case mult =>
    obtain ⟨t, ht, hproduct, hrun⟩ := run_emitMul32 upper (s := s) true reg1 reg2
    rw [hrun, ← ht]
    rw [if_pos rfl, hx, hy] at hproduct
    rw [show liveHiLo .mult x y = .ofProduct (x * signExtend35 y) from rfl, ← hproduct]
    exact run_mul32Tail upper true
  case multu =>
    obtain ⟨t, ht, hproduct, hrun⟩ := run_emitMul32 upper (s := s) false reg1 reg2
    rw [hrun, ← ht]
    rw [if_neg Bool.false_ne_true, hx, hy] at hproduct
    rw [show liveHiLo .multu x y = .ofProduct ((word x).setWidth 64 * (word y).setWidth 64) from
      rfl, ← hproduct]
    exact run_mul32Tail upper false
  case dmult =>
    subst hx hy
    exact run_emitMul64 upper true reg1 reg2
  case dmultu =>
    subst hx hy
    exact run_emitMul64 upper false reg1 reg2
  case div =>
    rw [run_emitDivmod, hx, hy]
    by_cases hzero : word y = 0
    · rw [liveHiLo_signed .div (beq_iff_eq.mpr hzero) (.inl rfl)]
      obtain ⟨s', hrun, hs'⟩ := run_divmodTail_zero upper false true
        (s := loaded s (ofWord (word x)) (ofWord (word y))) ((ofWord_eq_zero_iff _).mpr hzero)
      rw [loaded_zero, saved_ofWord] at hs'
      exact ⟨s', hrun, hs'⟩
    · rw [liveHiLo_of_division .div (by decide) (beq_eq_false_iff_ne.mpr hzero)]
      exact run_div upper x y hzero
  case divu =>
    rw [run_emitDivmod, hx, hy]
    by_cases hzero : word y = 0
    · rw [liveHiLo_unsigned .divu (beq_iff_eq.mpr hzero) (by decide)]
      obtain ⟨s', hrun, hs'⟩ := run_divmodTail_zero upper false false
        (s := loaded s ((word x).setWidth 64) ((word y).setWidth 64)) (by rw [hzero]; rfl)
      rw [loaded_zero, saved_setWidth, if_neg Bool.false_ne_true] at hs'
      exact ⟨s', hrun, hs'⟩
    · rw [liveHiLo_of_division .divu (by decide) (beq_eq_false_iff_ne.mpr hzero)]
      exact run_divu upper x y hzero
  case ddiv =>
    rw [run_emitDivmod, hx, hy]
    by_cases hzero : y = 0
    · rw [liveHiLo_signed .ddiv (beq_iff_eq.mpr hzero) (.inr rfl)]
      exact run_ddiv_zero upper x y hzero
    · rw [liveHiLo_of_division .ddiv (by decide) (beq_eq_false_iff_ne.mpr hzero)]
      exact run_ddiv upper x y hzero
  case ddivu =>
    rw [run_emitDivmod, hx, hy]
    by_cases hzero : y = 0
    · rw [liveHiLo_unsigned .ddivu (beq_iff_eq.mpr hzero) (by decide)]
      exact run_divmodTail_zero upper true false (s := loaded s x y) hzero
    · rw [liveHiLo_of_division .ddivu (by decide) (beq_eq_false_iff_ne.mpr hzero)]
      exact run_ddivu upper x y hzero

/-! ### Agreement -/

/-- The identity of an instruction. -/
def instrIdOf : MulDivOp → InstrId
  | .mult => .mult
  | .multu => .multu
  | .dmult => .dmult
  | .dmultu => .dmultu
  | .div => .div
  | .divu => .divu
  | .ddiv => .ddiv
  | .ddivu => .ddivu

theorem mulDivOp_instrIdOf (op : MulDivOp) : mulDivOp (instrIdOf op) = some op := by
  cases op <;> rfl

/-- The C and the code of an instruction are both defined and leave the same state, which is the
one that the instruction leaves where it is defined. -/
def MulDivAgrees (products : LongProducts) (upper : (Reg → BitVec 64) → BitVec 32 → BitVec 32)
    (op : MulDivOp) (reg1 reg2 : Fin 32) (s : State LiveMemory) (result : BitVec 64) : Prop :=
  ∃ text code m' s',
    CGenerator.emitMuldiv (instrIdOf op) reg1 reg2 = some text ∧
    LiveGenerator.emitMuldiv (instrIdOf op) reg1 reg2 = some code ∧
    execMulDiv products ⟨liveMachine s, result⟩ text = some m' ∧
    Sljit.run (liveHost upper) code s = some s' ∧
    liveMachine s' = m'.machine ∧
    (op.Defined ((liveMachine s).toMips.gpr reg1) ((liveMachine s).toMips.gpr reg2) →
      m'.machine = (liveMachine s).setHiLo
        (op.eval ((liveMachine s).toMips.gpr reg1) ((liveMachine s).toMips.gpr reg2)))

/-- The operands on which an instruction has one result: the divisor is not zero, and the upper
halves of the operands of a signed word product do not show in it. -/
def MulDivCondition (op : MulDivOp) (x y : BitVec 64) : Prop :=
  op.dividesByZero y = false ∧
    (op = .mult → upperExcess x * word y + upperExcess (signExtend35 y) * word x = 0)

instance (op : MulDivOp) (x y : BitVec 64) : Decidable (MulDivCondition op x y) :=
  inferInstanceAs (Decidable (_ ∧ _))

section Agreement

variable (x y : BitVec 64)

theorem word_signExtend35 : word (signExtend35 y) = word y := by
  apply BitVec.eq_of_getLsbD_eq
  intro j hj
  simp only [word, signExtend35, BitVec.getLsbD_setWidth, BitVec.getLsbD_sshiftRight,
    BitVec.getLsbD_shiftLeft]
  simp [-BitVec.getLsbD_eq_getElem, hj, show 29 + j < 64 by omega, show ¬ 64 ≤ j by omega]

/-- The words of a product determine it. -/
theorem ofProduct_inj : HiLo.ofProduct x = .ofProduct y ↔ x = y := by
  constructor
  · intro h
    obtain ⟨hhi, hlo⟩ := HiLo.mk.inj h
    have hword : ∀ {a b : BitVec 32}, ofWord a = ofWord b → a = b := fun {a b} hab => by
      rw [← word_ofWord a, hab, word_ofWord]
    apply BitVec.eq_of_toNat_eq
    rw [toNat_eq x, toNat_eq y, hword hhi, hword hlo]
  · rintro rfl
    rfl

theorem setHiLo_inj (m : Machine) (z w : HiLo) : m.setHiLo z = m.setHiLo w ↔ z = w := by
  constructor
  · intro h
    exact HiLo.ext (congrArg Machine.hi h) (congrArg Machine.lo h)
  · rintro rfl
    rfl

/-- Where the code leaves the result of the instruction. -/
theorem liveHiLo_eq_iff {op : MulDivOp} (h : op.dividesByZero y = false) :
    liveHiLo op x y = op.eval x y ↔ MulDivCondition op x y := by
  by_cases hop : op = .mult
  · subst hop
    have hlive : liveHiLo .mult x y = .ofProduct (x * signExtend35 y) := rfl
    have hproduct := mul_eq_iff x (signExtend35 y)
    rw [word_signExtend35] at hproduct
    rw [hlive, MulDivOp.eval, ofProduct_inj, hproduct]
    exact ⟨fun hx => ⟨h, fun _ => hx⟩, fun hx => hx.2 rfl⟩
  · exact iff_of_true (liveHiLo_of_division op hop h) ⟨h, fun hmult => absurd hmult hop⟩

end Agreement

/-- What the two leave, when the divisor is not zero. -/
theorem mulDivAgrees_iff_liveHiLo (products : LongProducts)
    (upper : (Reg → BitVec 64) → BitVec 32 → BitVec 32) (op : MulDivOp) (reg1 reg2 : Fin 32)
    (s : State LiveMemory) (result : BitVec 64) :
    MulDivAgrees products upper op reg1 reg2 s result ↔
      op.dividesByZero ((liveMachine s).toMips.gpr reg2) = false ∧
        liveHiLo op ((liveMachine s).toMips.gpr reg1) ((liveMachine s).toMips.gpr reg2) =
          op.eval ((liveMachine s).toMips.gpr reg1) ((liveMachine s).toMips.gpr reg2) := by
  obtain ⟨text, htext, hc⟩ := exec_emitMuldiv ⟨liveMachine s, result⟩ products
    (mulDivOp_instrIdOf op) reg1 reg2
  obtain ⟨code, hcode, s', hrun, hs'⟩ := run_emitMuldiv (mulDivOp_instrIdOf op) upper s reg1 reg2
  constructor
  · rintro ⟨text₁, code₁, m₁, s₁, htext₁, hcode₁, hc₁, hrun₁, hsame, -⟩
    obtain rfl := Option.some.inj (htext₁.symm.trans htext)
    obtain rfl := Option.some.inj (hcode₁.symm.trans hcode)
    obtain rfl := Option.some.inj (hrun₁.symm.trans hrun)
    rw [hc₁, Option.map_some] at hc
    by_cases hzero : op.dividesByZero ((liveMachine s).toMips.gpr reg2)
    · rw [if_pos hzero] at hc
      cases hc
    · rw [if_neg hzero] at hc
      refine ⟨Bool.eq_false_iff.mpr hzero, (setHiLo_inj (liveMachine s) _ _).mp ?_⟩
      rw [← hs', hsame]
      exact Option.some.inj hc
  · rintro ⟨hzero, hsame⟩
    rw [if_neg (Bool.eq_false_iff.mp hzero)] at hc
    obtain ⟨m', hm', hmachine⟩ := Option.map_eq_some_iff.mp hc
    exact ⟨text, code, m', s', htext, hcode, hm', hrun, by rw [hs', hsame, hmachine],
      fun _ => hmachine⟩

/-- **The C and the code of a multiplication or a division agree** exactly on the operands on which
the divisor is not zero and the signed product of words is that of the low words. -/
theorem mulDiv_agrees_iff (products : LongProducts)
    (upper : (Reg → BitVec 64) → BitVec 32 → BitVec 32) (op : MulDivOp) (reg1 reg2 : Fin 32)
    (s : State LiveMemory) (result : BitVec 64) :
    MulDivAgrees products upper op reg1 reg2 s result ↔
      MulDivCondition op ((liveMachine s).toMips.gpr reg1) ((liveMachine s).toMips.gpr reg2) := by
  rw [mulDivAgrees_iff_liveHiLo]
  constructor
  · rintro ⟨hzero, hsame⟩
    exact (liveHiLo_eq_iff _ _ hzero).mp hsame
  · intro h
    exact ⟨h.1, (liveHiLo_eq_iff _ _ h.1).mpr h⟩

/-- A state in which two registers have values. -/
def operandState (x y : BitVec 64) : State LiveMemory where
  reg _ := 0
  mem := ⟨fun r => if r = 4 then x else if r = 5 then y else 0, fun _ => 0, fun _ => 0, fun _ => 0⟩
  flag := none

/-- A division by zero is undefined in C, and a product of a register that does not hold a
sign-extended word has other results in the two. -/
theorem mulDiv_not_agrees :
    ¬ MulDivAgrees .int128 (fun _ _ => 0) .div 4 5 (operandState 1 0) 0 ∧
      ¬ MulDivAgrees .int128 (fun _ _ => 0) .mult 4 5 (operandState 0x100000000 1) 0 := by
  constructor
  · intro h
    have hzero := ((mulDivAgrees_iff_liveHiLo _ _ _ _ _ _ _).mp h).1
    exact absurd hzero (by decide)
  · intro h
    have hsame := ((mulDivAgrees_iff_liveHiLo _ _ _ _ _ _ _).mp h).2
    exact absurd hsame (by decide)

end N64Recomp
