import N64Recomp.CGenerator.RelocatedOps
import N64Recomp.LiveGenerator.Stores

/-!
# The integer instructions of the live generator

What the code emitted for an integer instruction of the decode tables does, against the
instruction that is executed at run time.

## Main definitions

* `LiveGenerator.emitted`: the emitted code
* `LiveRefines`: the emitted code has the outcome of the instruction

## Main results

* `live_refines_of_step`: the emitted code does what the instruction does
-/

namespace N64Recomp

open CLang Registers LiveGenerator
open Mips hiding Reg State
open Sljit (Reg State MovType Op2 Cond)

/-- The code emitted for an instruction of the tables other than a branch; none where the
generator reports an error. -/
def LiveGenerator.emitted (id : InstrId) (ctx : InstructionContext) : Option (List LiveInstr) :=
  match binaryOps id, unaryOps id, storeOps id with
  | some op, _, _ => processBinaryOp op ctx
  | _, some op, _ => processUnaryOp op ctx
  | _, _, some op => processStoreOp op ctx
  | _, _, _ => none

variable (upper : (Reg → BitVec 64) → BitVec 32 → BitVec 32)
variable {id : InstrId} {ctx : InstructionContext} {s : State LiveMemory}

/-- The emitted code has the outcome of the instruction. -/
def LiveRefines (id : InstrId) (ctx : InstructionContext) (s : State LiveMemory)
    (o : Outcome 30) : Prop :=
  ∃ code s', LiveGenerator.emitted id ctx = some code ∧
    Sljit.run (liveHost upper) code s = some s' ∧ (liveMachine s').toMips = o.state

/-- Only scratch registers differ. -/
structure SameGuest (t s : State LiveMemory) : Prop where
  mem : t.mem = s.mem
  hi : t.reg hi = s.reg hi
  lo : t.reg lo = s.reg lo
  c1cs : t.reg c1cs = s.reg c1cs

theorem SameGuest.liveMachine {t : State LiveMemory} (h : SameGuest t s) :
    liveMachine t = liveMachine s := by
  rw [N64Recomp.liveMachine, N64Recomp.liveMachine, h.mem, h.hi, h.lo, h.c1cs]

/-- The address of a relocated operand, in 64 bits. -/
def wideTarget (m : Machine) (ctx : InstructionContext) : BitVec 64 :=
  ofWord (relocBase m ctx) + ctx.relocTargetSectionOffset.setWidth 64

variable (ctx s) in
/-- The address is loaded into the first scratch register. -/
theorem run_loadRelocatedAddress : ∃ t : State LiveMemory,
    Sljit.run (liveHost upper) (loadRelocatedAddress ctx tempReg1) s = some t ∧ SameGuest t s ∧
      t.reg tempReg1 = wideTarget (liveMachine s) ctx := by
  have hbase : s.mem.sectionAddress ctx.relocTagAsReference ctx.relocSectionIndex =
      relocBase (liveMachine s) ctx := rfl
  by_cases hoffset : ctx.relocTargetSectionOffset = 0#32
  · refine ⟨_, by simp [loadRelocatedAddress, hoffset, hbase]; rfl, ?_, ?_⟩
    · exact ⟨rfl, rfl, rfl, rfl⟩
    · simp [hoffset, wideTarget]
  · refine ⟨_, by simp [loadRelocatedAddress, hoffset, hbase]; rfl, ?_, ?_⟩
    · exact ⟨rfl, rfl, rfl, rfl⟩
    · simp [wideTarget]

theorem straight_loadRelocatedAddress (reg : Reg) :
    (loadRelocatedAddress ctx reg).all Sljit.Instr.straight = true := by
  unfold loadRelocatedAddress
  split <;> rfl

theorem word_wideTarget (m : Machine) (ctx : InstructionContext) :
    word (wideTarget m ctx) = relocTarget m ctx := by
  have hbase : (ofWord (relocBase m ctx)).setWidth 32 = relocBase m ctx := word_ofWord _
  have hoffset : (ctx.relocTargetSectionOffset.setWidth 64).setWidth 32 =
      ctx.relocTargetSectionOffset := word_setWidth_64 _
  rw [word, wideTarget, BitVec.setWidth_add _ _ (by decide), hbase, hoffset, relocTarget]

theorem setWidth_16_wideTarget (m : Machine) (ctx : InstructionContext) :
    (wideTarget m ctx).setWidth 16 = (relocTarget m ctx).setWidth 16 := by
  rw [← word_wideTarget, word, BitVec.setWidth_setWidth_of_le _ (by decide)]

/-- The code that loads the low half of the target's address. -/
def relocatedLowCode (ctx : InstructionContext) : List LiveInstr :=
  loadRelocatedAddress ctx tempReg1 ++ [.op1 .s16 (.reg tempReg1) (.reg tempReg1)]

theorem straight_relocatedLowCode : (relocatedLowCode ctx).all Sljit.Instr.straight = true := by
  rw [relocatedLowCode, List.all_append, straight_loadRelocatedAddress, Bool.true_and]
  rfl

theorem run_relocatedLowCode (h : ctx.relocType = .lo16) : ∃ t : State LiveMemory,
    Sljit.run (liveHost upper) (relocatedLowCode ctx) s = some t ∧ SameGuest t s ∧
      t.reg tempReg1 = (relocatedImmediate (liveMachine s) ctx).signExtend 64 := by
  obtain ⟨t, ht, hsame, hreg⟩ := run_loadRelocatedAddress upper ctx s
  refine ⟨_, by
    rw [relocatedLowCode, Sljit.run_append (straight_loadRelocatedAddress _), ht]; simp; rfl, ?_, ?_⟩
  · exact ⟨hsame.mem, hsame.hi, hsame.lo, hsame.c1cs⟩
  · simp [hreg, relocatedImmediate, h, setWidth_16_wideTarget]

/-! ### The second source -/

/-- A second source that is ready in the state `t`, after the code `pre`. -/
structure LiveSource (type : BinaryOpType) (ctx : InstructionContext) (s : State LiveMemory)
    (src2 : LiveOperand) (y : BitVec 64) (pre : List LiveInstr) (src : LiveOperand)
    (t : State LiveMemory) : Prop where
  source : relocatedSource type ctx src2 = some (pre, src)
  straight : pre.all Sljit.Instr.straight = true
  run : Sljit.run (liveHost upper) pre s = some t
  same : SameGuest t s
  reads : LiveReads upper t src y

variable {type : BinaryOpType} {src2 src : LiveOperand} {pre : List LiveInstr}
variable {t : State LiveMemory} {y : BitVec 64}

theorem liveSource_plain (h : ctx.relocType = .none) (hy : LiveReads upper s src2 y) :
    LiveSource upper type ctx s src2 y [] src2 s :=
  ⟨if_pos h, rfl, rfl, ⟨rfl, rfl, rfl, rfl⟩, hy⟩

/-- Whether the generator knows the relocation of an operation. -/
def SourceRelocated (type : BinaryOpType) (ctx : InstructionContext) : Prop :=
  ctx.relocType = .none ∨ ctx.relocType = .lo16 ∧ takesRelocation type = true

theorem exists_liveSource_imm (h : SourceRelocated type ctx) : ∃ pre src t,
    LiveSource upper type ctx s (.imm (ctx.imm16.signExtend 64))
      ((relocatedImmediate (liveMachine s) ctx).signExtend 64) pre src t := by
  obtain h | ⟨h, htakes⟩ := h
  · have himm : relocatedImmediate (liveMachine s) ctx = ctx.imm16 := by
      rw [relocatedImmediate, h]
    rw [himm]
    exact ⟨_, _, _, liveSource_plain upper h (reads_imm upper _)⟩
  · obtain ⟨t, hrun, hsame, hreg⟩ := run_relocatedLowCode upper (s := s) h
    refine ⟨_, .reg tempReg1, t, ?_, straight_relocatedLowCode, hrun, hsame,
      hreg ▸ reads_reg upper _⟩
    rw [relocatedSource, if_neg (by rw [h]; decide), if_pos ⟨h, rfl, htakes⟩]
    rfl

/-! ### One lemma for each format of the tables -/

section Binary

variable {op : BinaryOp} {r r₁ : Fin 32} (hop : binaryOps id = some op)
  (hzero : outputsToZero op.output ctx = decide (r = 0))
  (hfpr : (isFprU32l op.operands.operand0 || isFprU32l op.operands.operand1 ||
    isFprU32l op.output) = false)
  (hout : getOperandValues op.output ctx tempReg2 = some ([], getGprValues r))
  (h0 : getOperandValues op.operands.operand0 ctx tempReg2 = some ([], getGprValues r₁))
  (h1 : getOperandValues op.operands.operand1 ctx tempReg2 = some ([], src2))
  (hvalid : (validOperandOperation0 op.operands.operandOperation0 &&
    validOperandOperation1 op.operands.operandOperation1) = true)
include hop hzero hfpr hout h0 h1 hvalid

/-- The code of an operation whose destination is a register other than `$zero`. -/
theorem emitted_live_binary (hr : r ≠ 0) {code : List LiveInstr}
    (hsource : relocatedSource op.type ctx src2 = some (pre, src))
    (hcode : binaryCode (.mem (.gpr r)) (getGprValues r₁) src op.type
      (op.operands.operandOperation0 != .toS64) = some code) :
    LiveGenerator.emitted id ctx = some (pre ++ code) := by
  have hdst : getGprValues r = .mem (.gpr r) := if_neg hr
  simp only [Bool.or_eq_false_iff] at hfpr
  obtain ⟨⟨hfpr0, hfpr1⟩, hfprOut⟩ := hfpr
  have hemit : LiveGenerator.emitted id ctx = processBinaryOp op ctx := by
    rw [LiveGenerator.emitted, hop]
  rw [hemit, processBinaryOp, hzero, decide_eq_false hr, hfpr0, hfpr1, hfprOut, hout, h0, h1]
  simp [hsource, hvalid, hdst, hcode]

/-- An operation whose destination is a register of the instruction. -/
theorem live_binary {x : BitVec 64}
    (hsource : LiveSource upper op.type ctx s src2 y pre src t)
    (hleaves : r ≠ 0 → ∃ code, binaryCode (.mem (.gpr r)) (getGprValues r₁) src op.type
      (op.operands.operandOperation0 != .toS64) = some code ∧ LeavesGpr upper t code r x) :
    LiveRefines upper id ctx s ⟨(liveMachine s).toMips.setReg r x, false⟩ := by
  by_cases hr : r = 0
  · subst hr
    refine ⟨[], s, ?_, rfl, (State.setReg_zero _ _).symm⟩
    have hemit : LiveGenerator.emitted id ctx = processBinaryOp op ctx := by
      rw [LiveGenerator.emitted, hop]
    rw [hemit, processBinaryOp, hzero]
    rfl
  · obtain ⟨code, hcode, s', hrun, hstate⟩ := hleaves hr
    refine ⟨pre ++ code, s', ?_, ?_, ?_⟩
    · exact emitted_live_binary hop hzero hfpr hout h0 h1 hvalid hr hsource.source hcode
    · rw [Sljit.run_append hsource.straight, hsource.run]
      exact hrun
    · rw [hstate, hsource.same.liveMachine]

end Binary

/-- A row `rd = rs op rt`. -/
theorem live_reg {pre0 pre1 : UnaryOpType} {z : BitVec 64}
    (hrow : binaryOps id = some ⟨type, .rd, ops .rs .rt pre0 pre1, false, false⟩)
    (hvalid : (validOperandOperation0 pre0 && validOperandOperation1 pre1) = true)
    (hr : ctx.relocType = .none)
    (hleaves : ctx.rd ≠ 0 → LiveReads upper s (getGprValues ctx.rt) (liveGpr s.mem ctx.rt) →
      ∃ code, binaryCode (.mem (.gpr ctx.rd)) (getGprValues ctx.rs) (getGprValues ctx.rt) type
        (pre0 != .toS64) = some code ∧ LeavesGpr upper s code ctx.rd z) :
    LiveRefines upper id ctx s ⟨(liveMachine s).toMips.setReg ctx.rd z, false⟩ :=
  live_binary upper hrow rfl rfl rfl rfl rfl hvalid
    (liveSource_plain upper hr (reads_gpr upper ctx.rt)) fun hrd => hleaves hrd (reads_gpr upper _)

/-- A row `rt = rs op imm`, with an immediate that is not relocated. -/
theorem live_immU16 {z : BitVec 64}
    (hrow : binaryOps id = some ⟨type, .rt, ops .rs .immU16 .none .none, false, false⟩)
    (hr : ctx.relocType = .none)
    (hleaves : ctx.rt ≠ 0 → LiveReads upper s (.imm (ctx.imm16.setWidth 64))
        (ctx.imm16.setWidth 64) →
      ∃ code, binaryCode (.mem (.gpr ctx.rt)) (getGprValues ctx.rs) (.imm (ctx.imm16.setWidth 64))
        type true = some code ∧ LeavesGpr upper s code ctx.rt z) :
    LiveRefines upper id ctx s ⟨(liveMachine s).toMips.setReg ctx.rt z, false⟩ :=
  live_binary upper hrow rfl rfl rfl rfl rfl rfl
    (liveSource_plain upper hr (reads_imm upper _)) fun hrt => hleaves hrt (reads_imm upper _)

/-- A row `rt = rs op imm`, with an immediate that may be relocated. -/
theorem live_immS16 {pre0 : UnaryOpType} {z : BitVec 64}
    (hrow : binaryOps id = some ⟨type, .rt, ops .rs .immS16 pre0 .none, false, false⟩)
    (hvalid : validOperandOperation0 pre0 = true) (hr : SourceRelocated type ctx)
    (hleaves : ∀ reg flag src,
      LiveReads upper ⟨reg, s.mem, flag⟩ src
        ((relocatedImmediate (liveMachine s) ctx).signExtend 64) →
      ctx.rt ≠ 0 → ∃ code, binaryCode (.mem (.gpr ctx.rt)) (getGprValues ctx.rs) src type
        (pre0 != .toS64) = some code ∧ LeavesGpr upper ⟨reg, s.mem, flag⟩ code ctx.rt z) :
    LiveRefines upper id ctx s ⟨(liveMachine s).toMips.setReg ctx.rt z, false⟩ := by
  obtain ⟨pre, src, ⟨reg, mem, flag⟩, hsource⟩ := exists_liveSource_imm upper (s := s) hr
  obtain rfl : mem = s.mem := hsource.same.mem
  exact live_binary upper hrow rfl rfl rfl rfl rfl (by rw [Bool.and_eq_true]; exact ⟨hvalid, rfl⟩)
    hsource (hleaves reg flag src hsource.reads)

/-- A row `rd = rt op amount`. -/
theorem live_shift {pre0 pre1 : UnaryOpType} {amount : Operand} {z : BitVec 64}
    (hrow : binaryOps id = some ⟨type, .rd, ops .rt amount pre0 pre1, false, false⟩)
    (hfpr : isFprU32l amount = false)
    (hvalid : (validOperandOperation0 pre0 && validOperandOperation1 pre1) = true)
    (hr : ctx.relocType = .none)
    (hamount : getOperandValues amount ctx tempReg2 = some ([], src2))
    (hreads : LiveReads upper s src2 y)
    (hleaves : ctx.rd ≠ 0 → ∃ code, binaryCode (.mem (.gpr ctx.rd)) (getGprValues ctx.rt) src2 type
        (pre0 != .toS64) = some code ∧ LeavesGpr upper s code ctx.rd z) :
    LiveRefines upper id ctx s ⟨(liveMachine s).toMips.setReg ctx.rd z, false⟩ :=
  live_binary upper hrow rfl (by rw [Bool.or_eq_false_iff, Bool.or_eq_false_iff]; exact ⟨⟨rfl, hfpr⟩, rfl⟩)
    rfl rfl hamount hvalid (liveSource_plain upper hr hreads) hleaves

variable {a : BitVec 64}

/-- A load row. -/
theorem live_load {op : LoadOp}
    (hrow : binaryOps id = some ⟨loadType op, .rt, ops .base .immS16 .none .none, false, false⟩)
    (hr : ctx.relocType = .none ∨ ctx.relocType = .lo16)
    (ha : effectiveAddress (liveMachine s).toMips ctx.rs
      (relocatedImmediate (liveMachine s) ctx) = a) (hwindow : InWindow a)
    (hal : a.toNat % op.alignment = 0) :
    LiveRefines upper id ctx s
      ⟨(liveMachine s).toMips.setReg ctx.rt (liveLoad s.mem op a ctx.rt), false⟩ := by
  refine live_immS16 upper hrow rfl (hr.imp_right fun h => ⟨h, by cases op <;> rfl⟩)
    fun reg flag src hreads hrt => ?_
  obtain rfl : liveGpr s.mem ctx.rs + (relocatedImmediate (liveMachine s) ctx).signExtend 64 = a := ha
  exact leavesGpr_load upper ctx.rs hrt hreads op _ hwindow hal

variable {o : Outcome 30}

/-- A load row other than `lwr`. -/
theorem live_load_step {op : LoadOp} (hop : op ≠ .lwr)
    (hrow : binaryOps id = some ⟨loadType op, .rt, ops .base .immS16 .none .none, false, false⟩)
    (hr : ctx.relocType = .none ∨ ctx.relocType = .lo16)
    (hwindow : InWindow (effectiveAddress (liveMachine s).toMips ctx.rs
      (relocatedImmediate (liveMachine s) ctx)))
    (ho : (Mips.Instr.load op ctx.rt ctx.rs (relocatedImmediate (liveMachine s) ctx)).step window
      (liveMachine s).toMips = .ok o) : LiveRefines upper id ctx s o := by
  rw [Mips.Instr.step] at ho
  by_cases hal : (effectiveAddress (liveMachine s).toMips ctx.rs
      (relocatedImmediate (liveMachine s) ctx)).toNat % op.alignment = 0
  · rw [if_neg (not_not_intro hal)] at ho
    obtain rfl := Except.ok.inj ho
    have hload := live_load upper hrow hr rfl hwindow hal
    by_cases hrt : ctx.rt = 0
    · rw [hrt, State.setReg_zero] at hload ⊢
      exact hload
    · have hgpr : (liveMachine s).toMips.gpr ctx.rt = s.mem.gpr ctx.rt := if_neg hrt
      rw [hgpr]
      rwa [liveLoad, if_neg hop] at hload
  · rw [if_pos hal] at ho
    cases ho

/-! ### Stores -/

/-- An address whose base is `$zero` is not in the window. -/
theorem not_inWindow_imm (imm : BitVec 16) : ¬ InWindow (imm.signExtend 64) := by
  have hl : -(2 ^ 15) ≤ imm.toInt := BitVec.le_toInt imm
  have hu : imm.toInt < 2 ^ 15 := BitVec.toInt_lt
  have hint : (imm.signExtend 64).toInt = imm.toInt := BitVec.toInt_signExtend_of_le (by decide)
  have hbase : rdramBase.toNat = 0xFFFFFFFF80000000 := rfl
  intro h
  rw [InWindow, BitVec.toNat_sub, hbase] at h
  rw [BitVec.toInt_eq_toNat_cond] at hint
  split at hint <;> omega

/-- The base of a store is read from its slot, which holds zero for `$zero` as long as nothing is
written there. -/
theorem run_storeAddress (hr : ctx.relocType = .none ∨ ctx.relocType = .lo16) (hrs : ctx.rs ≠ 0) :
    ∃ code t, storeAddress ctx = some code ∧ code.all Sljit.Instr.straight = true ∧
      Sljit.run (liveHost upper) code s = some t ∧ SameGuest t s ∧
      t.reg tempReg1 = effectiveAddress (liveMachine s).toMips ctx.rs
        (relocatedImmediate (liveMachine s) ctx) := by
  have hgpr : (liveMachine s).toMips.gpr ctx.rs = s.mem.gpr ctx.rs := if_neg hrs
  rw [effectiveAddress, hgpr]
  obtain h | h := hr
  · have himm : relocatedImmediate (liveMachine s) ctx = ctx.imm16 := by
      rw [relocatedImmediate, h]
    rw [storeAddress, h]
    refine ⟨_, _, rfl, rfl, by simp; rfl, ?_, ?_⟩
    · exact ⟨rfl, rfl, rfl, rfl⟩
    · simp [himm]
  · obtain ⟨t, hrun, hsame, hreg⟩ := run_relocatedLowCode upper (s := s) h
    have hcode : storeAddress ctx = some (relocatedLowCode ctx ++
        [.op2 .add false (.reg tempReg1) (.reg tempReg1) (.mem (.gpr ctx.rs))]) := by
      rw [storeAddress, h, relocatedLowCode, List.append_assoc]
      rfl
    refine ⟨_, _, hcode, by rw [List.all_append, straight_relocatedLowCode]; rfl, by
      rw [Sljit.run_append straight_relocatedLowCode, hrun]; simp; rfl, ?_, ?_⟩
    · exact ⟨hsame.mem, hsame.hi, hsame.lo, hsame.c1cs⟩
    · simp [hreg, hsame.mem, BitVec.add_comm]

/-- A store row. -/
theorem live_store {op : Mips.StoreOp} (hbin : binaryOps id = none) (hun : unaryOps id = none)
    (hrow : storeOps id = some ⟨storeType op, .rt⟩)
    (hr : ctx.relocType = .none ∨ ctx.relocType = .lo16) (hrs : ctx.rs ≠ 0)
    (ha : effectiveAddress (liveMachine s).toMips ctx.rs
      (relocatedImmediate (liveMachine s) ctx) = a) (hwindow : InWindow a)
    (hal : a.toNat % op.alignment = 0) :
    LiveRefines upper id ctx s ⟨{ (liveMachine s).toMips with
      mem := op.eval s.mem.rdram.guest (window a) (a.toNat % 8) (liveGpr s.mem ctx.rt) }, false⟩ := by
  obtain ⟨pre, t, haddress, hstraight, hrun, hsame, hreg⟩ :=
    run_storeAddress upper (s := s) hr hrs
  obtain ⟨s', hrun', hstate⟩ :=
    leavesMem_store upper ctx.rt op (hreg.trans ha) hwindow hal
  refine ⟨pre ++ storeCode (storeType op) (getGprValues ctx.rt), s', ?_, ?_, ?_⟩
  · simp [LiveGenerator.emitted, hbin, hun, hrow, processStoreOp, getOperandValues, haddress]
  · rw [Sljit.run_append hstraight, hrun]
    exact hrun'
  · rw [hstate, hsame.liveMachine, hsame.mem]

theorem live_store_step {op : Mips.StoreOp} (hbin : binaryOps id = none) (hun : unaryOps id = none)
    (hrow : storeOps id = some ⟨storeType op, .rt⟩)
    (hr : ctx.relocType = .none ∨ ctx.relocType = .lo16)
    (hwindow : InWindow (effectiveAddress (liveMachine s).toMips ctx.rs
      (relocatedImmediate (liveMachine s) ctx)))
    (ho : (Mips.Instr.store op ctx.rt ctx.rs (relocatedImmediate (liveMachine s) ctx)).step window
      (liveMachine s).toMips = .ok o) : LiveRefines upper id ctx s o := by
  have hrs : ctx.rs ≠ 0 := fun hzero => by
    rw [effectiveAddress, hzero, (liveMachine s).toMips.gpr_zero] at hwindow
    exact not_inWindow_imm _ (zero_add (_ : BitVec 64) ▸ hwindow)
  rw [Mips.Instr.step] at ho
  by_cases hal : (effectiveAddress (liveMachine s).toMips ctx.rs
      (relocatedImmediate (liveMachine s) ctx)).toNat % op.alignment = 0
  · rw [if_neg (not_not_intro hal)] at ho
    obtain rfl := Except.ok.inj ho
    exact live_store upper hbin hun hrow hr hrs rfl hwindow hal
  · rw [if_pos hal] at ho
    cases ho

/-! ### Moves -/

/-- A row of the unary table, into a register. -/
theorem live_unary {op : UnaryOp} {r : Fin 32} {code : List LiveInstr} {x : BitVec 64}
    (hbin : binaryOps id = none) (hop : unaryOps id = some op)
    (hzero : outputsToZero op.output ctx = decide (r = 0))
    (hcode : r ≠ 0 → processUnaryOp op ctx = some code)
    (hleaves : r ≠ 0 → LeavesGpr upper s code r x) :
    LiveRefines upper id ctx s ⟨(liveMachine s).toMips.setReg r x, false⟩ := by
  have hemit : LiveGenerator.emitted id ctx = processUnaryOp op ctx := by
    rw [LiveGenerator.emitted, hbin, hop]
  by_cases hr : r = 0
  · subst hr
    refine ⟨[], s, ?_, rfl, (State.setReg_zero _ _).symm⟩
    rw [hemit, processUnaryOp, hzero]
    rfl
  · obtain ⟨s', hrun, hstate⟩ := hleaves hr
    exact ⟨code, s', hemit.trans (hcode hr), hrun, hstate⟩

/-- An address less its sign-extended low half. -/
def highPart (x : BitVec 64) : BitVec 64 := x - (x.setWidth 16).signExtend 64

/-- The code of a relocated `lui`. -/
theorem leavesGpr_relocatedLui {r : Fin 32} (hr : r ≠ 0) :
    LeavesGpr upper s (loadRelocatedAddress ctx tempReg1 ++
      [.op1 .s16 (.reg tempReg2) (.reg tempReg1),
        .op2 .sub false (.mem (.gpr r)) (.reg tempReg1) (.reg tempReg2)]) r
      (highPart (wideTarget (liveMachine s) ctx)) := by
  obtain ⟨t, hrun, hsame, hreg⟩ := run_loadRelocatedAddress upper ctx s
  refine ⟨_, by
    rw [Sljit.run_append (straight_loadRelocatedAddress _), hrun]; simp; rfl, ?_⟩
  rw [← hreg, ← hsame.liveMachine]
  exact toMips_writeGpr hr rfl rfl rfl rfl rfl

theorem processUnaryOp_lui (hr : ctx.relocType = .none) (hrt : ctx.rt ≠ 0) :
    processUnaryOp ⟨.lui, .rt, .immU16, false, false⟩ ctx =
      some [.op1 .mov (.mem (.gpr ctx.rt)) (.imm (ofWord (ctx.imm16.setWidth 32 <<< 16)))] := by
  have hword : word (ctx.imm16.setWidth 64 <<< 16) = ctx.imm16.setWidth 32 <<< 16 := by
    rw [word_shiftLeft, word, BitVec.setWidth_setWidth_of_le _ (by decide)]
  rw [← hword]
  simp [processUnaryOp, outputsToZero, hrt, isFprU32l, getOperandValues, hr, unaryCode,
    getGprValues]

theorem processUnaryOp_relocatedLui (hr : ctx.relocType = .hi16) (hrt : ctx.rt ≠ 0) :
    processUnaryOp ⟨.lui, .rt, .immU16, false, false⟩ ctx =
      some (loadRelocatedAddress ctx tempReg1 ++ [.op1 .s16 (.reg tempReg2) (.reg tempReg1),
        .op2 .sub false (.mem (.gpr ctx.rt)) (.reg tempReg1) (.reg tempReg2)]) := by
  simp [processUnaryOp, outputsToZero, hrt, isFprU32l, getOperandValues, hr, getGprValues]

theorem setWidth_16_shiftLeft (x : BitVec 32) :
    ((x.setWidth 16).setWidth 32 : BitVec 32) <<< 16 = x <<< 16 := by
  apply BitVec.eq_of_getLsbD_eq
  intro j hj
  simp only [BitVec.getLsbD_shiftLeft, BitVec.getLsbD_setWidth]
  by_cases h : j < 16
  · simp [h]
  · simp [h, show j - 16 < 16 by omega, show j - 16 < 32 by omega]

theorem processUnaryOp_moveFrom {input : Operand} {src : LiveOperand}
    (hr : ctx.relocType = .none) (hrd : ctx.rd ≠ 0)
    (hin : getOperandValues input ctx tempReg3 = some ([], src)) (hfpr : isFprU32l input = false) :
    processUnaryOp ⟨.none, .rd, input, false, false⟩ ctx =
      some [.op1 .mov (.mem (.gpr ctx.rd)) src] := by
  have hdst : getOperandValues .rd ctx tempReg3 = some ([], .mem (.gpr ctx.rd)) :=
    congrArg (fun v => some ([], v)) (if_neg hrd)
  have hfprOut : isFprU32l .rd = false := rfl
  simp [processUnaryOp, outputsToZero, hrd, hfpr, hdst, hin, hr, unaryCode, hfprOut]

theorem processUnaryOp_moveTo {output : Operand} {q : Reg} (hr : ctx.relocType = .none)
    (hout : getOperandValues output ctx tempReg3 = some ([], .reg q))
    (hfpr : isFprU32l output = false) (hzero : outputsToZero output ctx = false) :
    processUnaryOp ⟨.none, output, .rs, false, false⟩ ctx =
      some [.op1 .mov (.reg q) (getGprValues ctx.rs)] := by
  have hrs : getOperandValues .rs ctx tempReg3 = some ([], getGprValues ctx.rs) := rfl
  simp [processUnaryOp, hzero, hfpr, hout, hrs, hr, unaryCode]

/-- A row that moves `rs` to `hi` or `lo`. -/
theorem live_moveTo {op : UnaryOp} {q : Reg} {st : Mips.State 30}
    (hbin : binaryOps id = none) (hop : unaryOps id = some op)
    (hcode : processUnaryOp op ctx = some [.op1 .mov (.reg q) (getGprValues ctx.rs)])
    (hstate : (liveMachine (s.setReg q (liveGpr s.mem ctx.rs))).toMips = st) :
    LiveRefines upper id ctx s ⟨st, false⟩ := by
  have hemit : LiveGenerator.emitted id ctx =
      some [.op1 .mov (.reg q) (getGprValues ctx.rs)] := by
    rw [LiveGenerator.emitted, hbin, hop]
    exact hcode
  exact ⟨_, _, hemit, by simp, hstate⟩

/-! ### The tables -/

/-- Whether a `LO16` relocation of the row is one that the generator knows. -/
def takesLow (id : InstrId) : Bool :=
  (binaryOps id).any (fun op => takesRelocation op.type) || (storeOps id).isSome

/-- Whether the generator knows the relocation of an instruction. -/
def RelocationKnown (id : InstrId) (ctx : InstructionContext) : Prop :=
  ctx.relocType = .none ∨ hasImmediate id = true ∧
    (ctx.relocType = .hi16 ∧ id = .lui ∨ ctx.relocType = .lo16 ∧ takesLow id = true)

/-- The address of a load or a store, and the alignment that it has to have. -/
def access (s : Mips.State 30) : Mips.Instr → Option (BitVec 64 × Nat)
  | .load op _ base offset => some (effectiveAddress s base offset, op.alignment)
  | .store op _ base offset => some (effectiveAddress s base offset, op.alignment)
  | _ => none

/-! ### Shift counts -/

section Counts

variable {n : Nat} (x : BitVec 64)

theorem toNat_sa (sa : Fin 32) : (BitVec.ofNat 64 sa.val).toNat % 32 = sa.val ∧
    (BitVec.ofNat 64 sa.val).toNat % 64 = sa.val ∧
    (BitVec.ofNat 64 (sa.val + 32)).toNat % 64 = sa.val + 32 := by
  have hsa := sa.isLt
  simp only [BitVec.toNat_ofNat]
  omega

theorem word_toNat_mod (y : BitVec 64) : (word y).toNat % 32 = y.toNat % 32 := by
  rw [BitVec.toNat_setWidth]
  omega

theorem eval_mshl32 (h : y.toNat % 32 = n) :
    Op2.mshl.eval (word x) (word y) = some (word x <<< n) := by
  rw [Op2.eval_mshl, word_toNat_mod, h]

theorem eval_mlshr32 (h : y.toNat % 32 = n) :
    Op2.mlshr.eval (word x) (word y) = some (word x >>> n) := by
  rw [Op2.eval_mlshr, word_toNat_mod, h]

end Counts

/-- **The code of an integer instruction does what the instruction does** without its overflow
trap; `lwr` apart. -/
theorem live_refines_of_step {instr : Mips.Instr}
    (hinstr : mipsInstr id (resolved (liveMachine s) ctx) = some instr)
    (hbranch : conditionalBranchOps id = none) (hlwr : id ≠ .lwr) (hreloc : RelocationKnown id ctx)
    (hhigh : ctx.relocType = .hi16 → highPart (wideTarget (liveMachine s) ctx) =
      ofWord (highHalf (relocTarget (liveMachine s) ctx) <<< 16))
    (hwindow : ∀ a n, access (liveMachine s).toMips instr = some (a, n) → InWindow a)
    (ho : instr.untrapped.step window (liveMachine s).toMips = .ok o) :
    LiveRefines upper id ctx s o := by
  have hnone : hasImmediate id = false → ctx.relocType = .none := fun h =>
    hreloc.resolve_right fun hr => by rw [h] at hr; cases hr.1
  have hnone' : id ≠ .lui → takesLow id = false → ctx.relocType = .none := fun hid h =>
    hreloc.resolve_right fun hr => hr.2.elim (fun hhi => hid hhi.2)
      fun hlo => by rw [h] at hlo; cases hlo.2
  have hlow : id ≠ .lui → ctx.relocType = .none ∨ ctx.relocType = .lo16 := fun hid =>
    hreloc.imp_right fun hr => hr.2.elim (fun hhi => absurd hhi.2 hid) And.left
  have himm : ctx.relocType = .none → relocatedImmediate (liveMachine s) ctx = ctx.imm16 :=
    fun h => by rw [relocatedImmediate, h]
  have hsa := reads_imm upper (s := s) (BitVec.ofNat 64 ctx.sa.val)
  have hsa32 := reads_imm upper (s := s) (BitVec.ofNat 64 (ctx.sa.val + 32))
  obtain ⟨hcount, hcount64, hcount32⟩ := toNat_sa ctx.sa
  cases id
  -- the arithmetic of two registers
  case add | addu =>
    obtain rfl := Option.some.inj hinstr
    obtain rfl := Except.ok.inj ho
    exact live_reg upper rfl rfl (hnone rfl) fun hrd hy => ⟨_, rfl, leavesGpr_alu32 upper _ hrd hy rfl⟩
  case sub | subu | negu =>
    obtain rfl := Option.some.inj hinstr
    obtain rfl := Except.ok.inj ho
    exact live_reg upper rfl rfl (hnone rfl) fun hrd hy => ⟨_, rfl, leavesGpr_alu32 upper _ hrd hy rfl⟩
  case dadd | daddu | dsub | dsubu | and | or | xor =>
    obtain rfl := Option.some.inj hinstr
    obtain rfl := Except.ok.inj ho
    exact live_reg upper rfl rfl (hnone rfl) fun hrd hy => ⟨_, rfl, leavesGpr_alu64 upper _ hrd hy rfl⟩
  case nor =>
    obtain rfl := Option.some.inj hinstr
    obtain rfl := Except.ok.inj ho
    exact live_reg upper rfl rfl (hnone rfl) fun hrd hy => ⟨_, rfl, leavesGpr_nor upper _ hrd hy⟩
  case slt | sltu =>
    obtain rfl := Option.some.inj hinstr
    obtain rfl := Except.ok.inj ho
    exact live_reg upper rfl rfl (hnone rfl) fun hrd hy => ⟨_, rfl, leavesGpr_icmp upper _ hrd hy _ _ _⟩
  -- a register and an immediate
  case addi | addiu =>
    obtain rfl := Option.some.inj hinstr
    obtain rfl := Except.ok.inj ho
    exact live_immS16 upper rfl rfl ((hlow (by decide)).imp_right fun h => ⟨h, rfl⟩)
      fun _ _ _ hy hrt => ⟨_, rfl, leavesGpr_alu32 upper ctx.rs hrt hy rfl⟩
  case daddi | daddiu =>
    obtain rfl := Option.some.inj hinstr
    obtain rfl := Except.ok.inj ho
    exact live_immS16 upper rfl rfl ((hlow (by decide)).imp_right fun h => ⟨h, rfl⟩)
      fun _ _ _ hy hrt => ⟨_, rfl, leavesGpr_alu64 upper ctx.rs hrt hy rfl⟩
  case andi | ori | xori =>
    obtain rfl := Option.some.inj hinstr
    obtain rfl := Except.ok.inj ho
    have hr := hnone' (by decide) rfl
    simp only [resolved, himm hr]
    exact live_immU16 upper rfl hr fun hrt hy => ⟨_, rfl, leavesGpr_alu64 upper _ hrt hy rfl⟩
  case slti | sltiu =>
    obtain rfl := Option.some.inj hinstr
    obtain rfl := Except.ok.inj ho
    exact live_immS16 upper rfl rfl (.inl (hnone' (by decide) rfl))
      fun _ _ _ hy hrt => ⟨_, rfl, leavesGpr_icmp upper ctx.rs hrt hy _ _ _⟩
  -- the shifts
  case sll =>
    obtain rfl := Option.some.inj hinstr
    obtain rfl := Except.ok.inj ho
    exact live_shift upper rfl rfl rfl (hnone rfl) rfl hsa fun hrd =>
      ⟨_, rfl, leavesGpr_alu32 upper ctx.rt hrd hsa (eval_mshl32 _ hcount)⟩
  case srl =>
    obtain rfl := Option.some.inj hinstr
    obtain rfl := Except.ok.inj ho
    exact live_shift upper rfl rfl rfl (hnone rfl) rfl hsa fun hrd =>
      ⟨_, rfl, leavesGpr_alu32 upper ctx.rt hrd hsa (eval_mlshr32 _ hcount)⟩
  case sra =>
    obtain rfl := Option.some.inj hinstr
    obtain rfl := Except.ok.inj ho
    exact live_shift upper rfl rfl rfl (hnone rfl) rfl hsa fun hrd =>
      ⟨_, rfl, leavesGpr_sra32 upper ctx.rt hrd hsa hcount⟩
  case dsll =>
    obtain rfl := Option.some.inj hinstr
    obtain rfl := Except.ok.inj ho
    exact live_shift upper rfl rfl rfl (hnone rfl) rfl hsa fun hrd =>
      ⟨_, rfl, leavesGpr_alu64 upper ctx.rt hrd hsa (congrArg (fun n => some (_ <<< n)) hcount64)⟩
  case dsrl =>
    obtain rfl := Option.some.inj hinstr
    obtain rfl := Except.ok.inj ho
    exact live_shift upper rfl rfl rfl (hnone rfl) rfl hsa fun hrd =>
      ⟨_, rfl, leavesGpr_alu64 upper ctx.rt hrd hsa (congrArg (fun n => some (_ >>> n)) hcount64)⟩
  case dsra =>
    obtain rfl := Option.some.inj hinstr
    obtain rfl := Except.ok.inj ho
    exact live_shift upper rfl rfl rfl (hnone rfl) rfl hsa fun hrd => ⟨_, rfl,
      leavesGpr_alu64 upper ctx.rt hrd hsa (congrArg (fun n => some (BitVec.sshiftRight _ n)) hcount64)⟩
  case dsll32 =>
    obtain rfl := Option.some.inj hinstr
    obtain rfl := Except.ok.inj ho
    exact live_shift upper rfl rfl rfl (hnone rfl) rfl hsa32 fun hrd => ⟨_, rfl,
      leavesGpr_alu64 upper ctx.rt hrd hsa32 (congrArg (fun n => some (_ <<< n)) hcount32)⟩
  case dsrl32 =>
    obtain rfl := Option.some.inj hinstr
    obtain rfl := Except.ok.inj ho
    exact live_shift upper rfl rfl rfl (hnone rfl) rfl hsa32 fun hrd => ⟨_, rfl,
      leavesGpr_alu64 upper ctx.rt hrd hsa32 (congrArg (fun n => some (_ >>> n)) hcount32)⟩
  case dsra32 =>
    obtain rfl := Option.some.inj hinstr
    obtain rfl := Except.ok.inj ho
    exact live_shift upper rfl rfl rfl (hnone rfl) rfl hsa32 fun hrd => ⟨_, rfl, leavesGpr_alu64 upper
      ctx.rt hrd hsa32 (congrArg (fun n => some (BitVec.sshiftRight _ n)) hcount32)⟩
  case sllv =>
    obtain rfl := Option.some.inj hinstr
    obtain rfl := Except.ok.inj ho
    exact live_shift upper rfl rfl rfl (hnone rfl) rfl (reads_gpr upper ctx.rs) fun hrd =>
      ⟨_, rfl, leavesGpr_alu32 upper ctx.rt hrd (reads_gpr upper ctx.rs) (eval_mshl32 _ rfl)⟩
  case srlv =>
    obtain rfl := Option.some.inj hinstr
    obtain rfl := Except.ok.inj ho
    exact live_shift upper rfl rfl rfl (hnone rfl) rfl (reads_gpr upper ctx.rs) fun hrd =>
      ⟨_, rfl, leavesGpr_alu32 upper ctx.rt hrd (reads_gpr upper ctx.rs) (eval_mlshr32 _ rfl)⟩
  case srav =>
    obtain rfl := Option.some.inj hinstr
    obtain rfl := Except.ok.inj ho
    exact live_shift upper rfl rfl rfl (hnone rfl) rfl (reads_gpr upper ctx.rs) fun hrd =>
      ⟨_, rfl, leavesGpr_sra32 upper ctx.rt hrd (reads_gpr upper ctx.rs) rfl⟩
  case dsllv | dsrlv | dsrav =>
    obtain rfl := Option.some.inj hinstr
    obtain rfl := Except.ok.inj ho
    exact live_shift upper rfl rfl rfl (hnone rfl) rfl (reads_gpr upper ctx.rs) fun hrd =>
      ⟨_, rfl, leavesGpr_alu64 upper ctx.rt hrd (reads_gpr upper ctx.rs) rfl⟩
  -- the loads
  case lb | lbu | lh | lhu | lw | lwu | ld | lwl | ldl | ldr =>
    obtain rfl := Option.some.inj hinstr
    exact live_load_step upper (by decide) rfl (hlow (by decide)) (hwindow _ _ rfl) ho
  case lwr => exact absurd rfl hlwr
  -- the stores
  case sb | sh | sw | sd | swl | swr | sdl | sdr =>
    obtain rfl := Option.some.inj hinstr
    exact live_store_step upper rfl rfl rfl (hlow (by decide)) (hwindow _ _ rfl) ho
  -- the moves
  case lui =>
    obtain rfl := Option.some.inj hinstr
    obtain rfl := Except.ok.inj ho
    obtain hr | ⟨-, ⟨hr, -⟩ | ⟨-, hlow⟩⟩ := hreloc
    · simp only [resolved, himm hr]
      exact live_unary upper rfl rfl rfl (fun hrt => processUnaryOp_lui hr hrt)
        fun hrt => leavesGpr_mov upper hrt (reads_imm upper _)
    · have himm16 : (relocatedImmediate (liveMachine s) ctx).setWidth 32 <<< 16 =
          highHalf (relocTarget (liveMachine s) ctx) <<< 16 := by
        rw [relocatedImmediate, hr]
        exact setWidth_16_shiftLeft _
      simp only [resolved, himm16, ← hhigh hr]
      exact live_unary upper rfl rfl rfl (fun hrt => processUnaryOp_relocatedLui hr hrt)
        fun hrt => leavesGpr_relocatedLui upper hrt
    · cases hlow
  case mfhi | mflo =>
    obtain rfl := Option.some.inj hinstr
    obtain rfl := Except.ok.inj ho
    exact live_unary upper rfl rfl rfl (fun hrd => processUnaryOp_moveFrom (hnone rfl) hrd rfl rfl)
      fun hrd => leavesGpr_mov upper hrd (reads_reg upper _)
  case mthi =>
    obtain rfl := Option.some.inj hinstr
    obtain rfl := Except.ok.inj ho
    exact live_moveTo upper rfl rfl (processUnaryOp_moveTo (hnone rfl) rfl rfl rfl) rfl
  case mtlo =>
    obtain rfl := Option.some.inj hinstr
    obtain rfl := Except.ok.inj ho
    exact live_moveTo upper rfl rfl (processUnaryOp_moveTo (hnone rfl) rfl rfl rfl) rfl
  case beq | beql | bne | bnel | bgez | bgezl | bgtz | bgtzl | blez | blezl | bltz | bltzl |
      bgezal | bgezall | bltzal | bltzall | bc1f | bc1fl | bc1t | bc1tl => cases hbranch
  all_goals cases hinstr

end N64Recomp
