import N64Recomp.CGenerator.Yields

/-!
# The integer instructions in C

What the C printed for an integer instruction of the decode tables does, against the instruction
itself. The guest addresses memory through the window, and an instruction that would trap on
integer overflow does what its form without the trap does.

## Main definitions

* `mipsInstr`: the instruction that an identity and its operands stand for
* `CGenerator.emitted`, `Emitted.run`: the printed text, and what it does
* `LiteralZeroSlip`: the operands for which the literal `0` of `$zero` changes an operation

## Main results

* `emitted_refines`: the printed text does what the instruction does
-/

namespace N64Recomp

open CLang CLang.CType Mips CGenerator

/-- The integer instruction of an identity; `none` for the others. -/
def mipsInstr (id : InstrId) (ctx : InstructionContext) : Option Mips.Instr :=
  let reg op := some (Instr.reg op ctx.rd ctx.rs ctx.rt)
  let imm op := some (Instr.imm op ctx.rt ctx.rs ctx.imm16)
  let shift op := some (Instr.shift op ctx.rd ctx.rt ctx.sa.val)
  let shift32 op := some (Instr.shift op ctx.rd ctx.rt (ctx.sa.val + 32))
  let shiftVariable op := some (Instr.shiftVariable op ctx.rd ctx.rt ctx.rs)
  let load op := some (Instr.load op ctx.rt ctx.rs ctx.imm16)
  let store op := some (Instr.store op ctx.rt ctx.rs ctx.imm16)
  let branch op := some (Instr.branch op ctx.rs ctx.rt)
  match id with
  | .lui => some (.lui ctx.rt ctx.imm16)
  | .mthi => some (.mthi ctx.rs)
  | .mtlo => some (.mtlo ctx.rs)
  | .mfhi => some (.mfhi ctx.rd)
  | .mflo => some (.mflo ctx.rd)
  | .add => reg .add
  | .addu => reg .addu
  | .sub => reg .sub
  | .subu | .negu => reg .subu
  | .dadd => reg .dadd
  | .daddu => reg .daddu
  | .dsub => reg .dsub
  | .dsubu => reg .dsubu
  | .and => reg .and
  | .or => reg .or
  | .xor => reg .xor
  | .nor => reg .nor
  | .slt => reg .slt
  | .sltu => reg .sltu
  | .addi => imm .addi
  | .addiu => imm .addiu
  | .daddi => imm .daddi
  | .daddiu => imm .daddiu
  | .slti => imm .slti
  | .sltiu => imm .sltiu
  | .andi => imm .andi
  | .ori => imm .ori
  | .xori => imm .xori
  | .sll => shift .sll
  | .srl => shift .srl
  | .sra => shift .sra
  | .dsll => shift .dsll
  | .dsrl => shift .dsrl
  | .dsra => shift .dsra
  | .dsll32 => shift32 .dsll
  | .dsrl32 => shift32 .dsrl
  | .dsra32 => shift32 .dsra
  | .sllv => shiftVariable .sll
  | .srlv => shiftVariable .srl
  | .srav => shiftVariable .sra
  | .dsllv => shiftVariable .dsll
  | .dsrlv => shiftVariable .dsrl
  | .dsrav => shiftVariable .dsra
  | .lb => load .lb
  | .lbu => load .lbu
  | .lh => load .lh
  | .lhu => load .lhu
  | .lw => load .lw
  | .lwu => load .lwu
  | .ld => load .ld
  | .lwl => load .lwl
  | .lwr => load .lwr
  | .ldl => load .ldl
  | .ldr => load .ldr
  | .sb => store .sb
  | .sh => store .sh
  | .sw => store .sw
  | .sd => store .sd
  | .swl => store .swl
  | .swr => store .swr
  | .sdl => store .sdl
  | .sdr => store .sdr
  | .beq | .beql => branch .eq
  | .bne | .bnel => branch .ne
  | .bgez | .bgezl | .bgezal | .bgezall => branch .gez
  | .bgtz | .bgtzl => branch .gtz
  | .blez | .blezl => branch .lez
  | .bltz | .bltzl | .bltzal | .bltzall => branch .ltz
  | .bc1f | .bc1fl => branch .fpFalse
  | .bc1t | .bc1tl => branch .fpTrue
  | _ => none

/-- What is printed for an instruction of the tables: statements, or the condition of an `if`. -/
inductive Emitted
  | statements (l : List CStatement)
  | condition (e : CExpr)
  deriving DecidableEq, Repr

/-- The text printed for an instruction of the tables. -/
def CGenerator.emitted (id : InstrId) (ctx : InstructionContext) :
    Option (Except GeneratorError Emitted) :=
  match binaryOps id, unaryOps id, conditionalBranchOps id, storeOps id with
  | some op, _, _, _ => some ((processBinaryOp op ctx).map .statements)
  | _, some op, _, _ => some ((processUnaryOp op ctx).map .statements)
  | _, _, some op, _ => some ((branchCondition op ctx).map .condition)
  | _, _, _, some op => some ((processStoreOp op ctx).map .statements)
  | _, _, _, _ => none

/-- What the text does, and whether its condition holds. -/
def Emitted.run (m : Machine) : Emitted → Option (Machine × Bool)
  | .statements l => (execAll m l).map fun m' => (m', false)
  | .condition e => (e.eval m.env).map fun v => (m, v.truthy)

/-- The operands for which the literal `0` that `$zero` prints as makes an `int` operation of a
64-bit one: a shift of `$zero` by 32 or more, and an unsigned comparison of `$zero` with a
negative immediate. -/
def LiteralZeroSlip (id : InstrId) (ctx : InstructionContext) (m : Machine) : Prop :=
  match id with
  | .dsll32 | .dsrl32 => ctx.rt = 0 ∧ ctx.rd ≠ 0
  | .dsllv | .dsrlv => ctx.rt = 0 ∧ ctx.rd ≠ 0 ∧ 32 ≤ (m.toMips.gpr ctx.rs).toNat % 64
  | .sltiu => ctx.rs = 0 ∧ ctx.rt ≠ 0 ∧ ctx.imm16.toInt < 0
  | _ => False

/-! ### The printed statements -/

section Refines

variable {id : InstrId} {ctx : InstructionContext} {m : Machine}

/-- The text printed for an instruction has the outcome of the instruction. -/
def Refines (id : InstrId) (ctx : InstructionContext) (m : Machine) (o : Outcome 30) : Prop :=
  ∃ e m', emitted id ctx = some (.ok e) ∧ e.run m = some (m', o.taken) ∧ m'.toMips = o.state

theorem toMips_assign {r : Fin 32} (hr : r ≠ 0) (v : CVal) :
    ∃ m', m.assign v (.gpr r) = some m' ∧ m'.toMips = m.toMips.setReg r v.bits := by
  refine ⟨_, rfl, ?_⟩
  apply Mips.State.ext
  case gpr =>
    funext q
    by_cases hq : q = r
    · simp [Machine.toMips, State.setReg, hq, hr]
    · simp [Machine.toMips, State.setReg, hq]
  all_goals rfl

/-- The statements of an assignment to a register. -/
def assignGpr (r : Fin 32) (e : CExpr) : List CStatement :=
  if r = 0 then [] else [.assign (gprToString r) e]

/-- An assignment to a register writes it; nothing is printed for `$zero`. -/
theorem exec_assignGpr {r : Fin 32} {e : CExpr} {x : BitVec 64} (h : r ≠ 0 → Yields m e x) :
    ∃ m', execAll m (assignGpr r e) = some m' ∧ m'.toMips = m.toMips.setReg r x := by
  by_cases hr : r = 0
  · subst hr
    exact ⟨m, rfl, (State.setReg_zero _ _).symm⟩
  · obtain ⟨v, hv, hx⟩ := h hr
    obtain ⟨m', hassign, hstate⟩ := toMips_assign (m := m) hr v
    refine ⟨m', ?_, hx ▸ hstate⟩
    simp [assignGpr, hr, execAll, gprToString, CStatement.exec, hv, hassign]

/-- An operation whose destination is a register of the instruction. -/
theorem emitted_binary {op : BinaryOp} {r : Fin 32} {e : CExpr} (hop : binaryOps id = some op)
    (hout : operandText op.output ctx = .ok (gprToString r))
    (hzero : isZeroGprOperand op.output ctx = decide (r = 0))
    (he : getBinaryExpr op.type op.operands ctx (gprToString r) = .ok e) :
    emitted id ctx = some (.ok (.statements (assignGpr r e))) := by
  have hout' : getOperand op.output .none ctx = .ok (gprToString r) := by
    rw [getOperand, hout]
    rfl
  simp only [emitted, hop, processBinaryOp, hzero, hout', assignGpr]
  by_cases hr : r = 0
  · simp [hr, Except.map, pure, Except.pure]
  · simp [hr, he, Except.map, bind, Except.bind, pure, Except.pure]

theorem refines_binary {op : BinaryOp} {r : Fin 32} {e : CExpr} {x : BitVec 64}
    (hop : binaryOps id = some op) (hout : operandText op.output ctx = .ok (gprToString r))
    (hzero : isZeroGprOperand op.output ctx = decide (r = 0))
    (he : getBinaryExpr op.type op.operands ctx (gprToString r) = .ok e)
    (hx : r ≠ 0 → Yields m e x) : Refines id ctx m ⟨m.toMips.setReg r x, false⟩ := by
  obtain ⟨m', hexec, hstate⟩ := exec_assignGpr hx
  exact ⟨_, m', emitted_binary hop hout hzero he, by simp [Emitted.run, hexec], hstate⟩

theorem getBinaryExpr_of {type : BinaryOpType} {operands : BinaryOperands} {out a b : CExpr}
    (ha : getOperand operands.operand0 operands.operandOperation0 ctx = .ok a)
    (hb : getOperand operands.operand1 operands.operandOperation1 ctx = .ok b) :
    getBinaryExpr type operands ctx out = .ok (spellBinary type operands out a b) := by
  rw [getBinaryExpr, ha, hb]
  rfl

theorem getOperand_immS16 (hr : ctx.relocType = .none) :
    getOperand .immS16 .none ctx = .ok (signedLiteral ctx.imm16.toInt) := by
  simp [getOperand, operandText, hr, Except.map, unaryAffixes]

theorem getOperand_immU16 (hr : ctx.relocType = .none) (op : UnaryOpType) :
    getOperand .immU16 op ctx = .ok (unaryAffixes op (literal ctx.imm16.toNat)) := by
  simp [getOperand, operandText, hr, Except.map]

variable {o : Outcome 30}

/-! ### One lemma for each format of the tables -/

/-- A row `rd = rs op rt`. -/
theorem refines_reg {type : BinaryOpType} {preA preB : UnaryOpType} {op : RegOp}
    (hrow : binaryOps id = some ⟨type, .rd, ops .rs .rt preA preB, false, false⟩)
    (hop : ∃ z, op.eval (m.toMips.gpr ctx.rs) (m.toMips.gpr ctx.rt) = .ok z ∧
      Yields m (spellBinary type (ops .rs .rt preA preB) (gprToString ctx.rd)
        (unaryAffixes preA (gprToString ctx.rs)) (unaryAffixes preB (gprToString ctx.rt))) z)
    (ho : (Instr.reg op ctx.rd ctx.rs ctx.rt).step window m.toMips = .ok o) :
    Refines id ctx m o := by
  obtain ⟨z, hz, hy⟩ := hop
  rw [Instr.step, hz] at ho
  obtain rfl := Except.ok.inj ho
  exact refines_binary hrow rfl rfl (getBinaryExpr_of rfl rfl) fun _ => hy

/-- A row `rt = rs op imm`. -/
theorem refines_imm {type : BinaryOpType} {pre : UnaryOpType} {imm : Operand} {op : ImmOp}
    {e : CExpr} (hrow : binaryOps id = some ⟨type, .rt, ops .rs imm pre .none, false, false⟩)
    (himm : getOperand imm .none ctx = .ok e)
    (hop : ctx.rt ≠ 0 → ∃ z,
      op.regOp.eval (m.toMips.gpr ctx.rs) (op.extend ctx.imm16) = .ok z ∧
      Yields m (spellBinary type (ops .rs imm pre .none) (gprToString ctx.rt)
        (unaryAffixes pre (gprToString ctx.rs)) e) z)
    (ho : (Instr.imm op ctx.rt ctx.rs ctx.imm16).step window m.toMips = .ok o) :
    Refines id ctx m o := by
  rw [Instr.step] at ho
  cases hx : op.regOp.eval (m.toMips.gpr ctx.rs) (op.extend ctx.imm16) with
  | error e =>
    rw [hx] at ho
    cases ho
  | ok x =>
    rw [hx] at ho
    obtain rfl := Except.ok.inj ho
    refine refines_binary hrow rfl rfl (getBinaryExpr_of rfl himm) fun hrt => ?_
    obtain ⟨z, hz, hy⟩ := hop hrt
    rw [hx] at hz
    exact Except.ok.inj hz ▸ hy

/-- A row `rd = rt op amount`. -/
theorem refines_shift {type : BinaryOpType} {pre preAmount : UnaryOpType} {amount : Operand}
    {op : ShiftOp} {c : CExpr} {n : Nat} {instr : Instr}
    (hrow : binaryOps id = some ⟨type, .rd, ops .rt amount pre preAmount, false, false⟩)
    (hstep : instr.step window m.toMips =
      .ok ⟨m.toMips.setReg ctx.rd (op.eval (m.toMips.gpr ctx.rt) n), false⟩)
    (hamount : getOperand amount preAmount ctx = .ok c)
    (hop : ctx.rd ≠ 0 →
      Yields m (spellBinary type (ops .rt amount pre preAmount) (gprToString ctx.rd)
        (unaryAffixes pre (gprToString ctx.rt)) c) (op.eval (m.toMips.gpr ctx.rt) n))
    (ho : instr.step window m.toMips = .ok o) : Refines id ctx m o := by
  rw [hstep] at ho
  obtain rfl := Except.ok.inj ho
  exact refines_binary hrow rfl rfl (getBinaryExpr_of rfl hamount) hop

/-- A row `output = input` of the unary table, into a register. -/
theorem refines_unary {op : UnaryOp} {r : Fin 32} {e : CExpr} {x : BitVec 64}
    (hbin : binaryOps id = none) (hop : unaryOps id = some op)
    (hout : operandText op.output ctx = .ok (gprToString r))
    (hzero : isZeroGprOperand op.output ctx = decide (r = 0))
    (he : getOperand op.input op.operation ctx = .ok e) (hx : Yields m e x) :
    Refines id ctx m ⟨m.toMips.setReg r x, false⟩ := by
  have hout' : getOperand op.output .none ctx = .ok (gprToString r) := by
    rw [getOperand, hout]
    rfl
  have hemit : emitted id ctx = some (.ok (.statements (assignGpr r e))) := by
    simp only [emitted, hbin, hop, processUnaryOp, hzero, hout', he, assignGpr]
    by_cases hr : r = 0 <;> simp [hr, Except.map, bind, Except.bind, pure, Except.pure]
  obtain ⟨m', hexec, hstate⟩ := exec_assignGpr (m := m) fun _ => hx
  exact ⟨_, m', hemit, by simp [Emitted.run, hexec], hstate⟩

/-- A row that moves `rs` to `hi` or `lo`. -/
theorem refines_moveTo {op : UnaryOp} {x : Object} {v : CVal} {m' : Machine}
    (hbin : binaryOps id = none) (hop : unaryOps id = some op)
    (hout : operandText op.output ctx = .ok (.var x))
    (hzero : isZeroGprOperand op.output ctx = false)
    (hin : getOperand op.input op.operation ctx = .ok (gprToString ctx.rs))
    (hv : (gprToString ctx.rs).eval m.env = some v) (hassign : m.assign v x = some m') :
    Refines id ctx m ⟨m'.toMips, false⟩ := by
  have hout' : getOperand op.output .none ctx = .ok (.var x) := by
    rw [getOperand, hout]
    rfl
  have hemit : emitted id ctx =
      some (.ok (.statements [.assign (.var x) (gprToString ctx.rs)])) := by
    simp only [emitted, hbin, hop, processUnaryOp, hzero, hout', hin]
    simp [Except.map, bind, Except.bind, pure, Except.pure]
  refine ⟨_, m', hemit, ?_, rfl⟩
  simp [Emitted.run, execAll, CStatement.exec, hv, hassign]

/-- A load row. -/
theorem refines_load {type : BinaryOpType} {op : LoadOp} (hr : ctx.relocType = .none)
    (hrow : binaryOps id = some ⟨type, .rt, ops .base .immS16 .none .none, false, false⟩)
    (hspell : ∀ out a b, spellBinary type (ops .base .immS16 .none .none) out a b =
      if loadTakesOutput op then .call₃ (loadCallee op) out a b else .call₂ (loadCallee op) a b)
    (ho : (Instr.load op ctx.rt ctx.rs ctx.imm16).step window m.toMips = .ok o) :
    Refines id ctx m o := by
  rw [Instr.step] at ho
  by_cases hal : (effectiveAddress m.toMips ctx.rs ctx.imm16).toNat % op.alignment = 0
  · rw [if_neg (not_not_intro hal)] at ho
    obtain rfl := Except.ok.inj ho
    refine refines_binary hrow rfl rfl (getBinaryExpr_of rfl (getOperand_immS16 hr)) fun _ => ?_
    rw [hspell]
    cases hout : loadTakesOutput op with
    | true => exact yields_loadUnaligned hout (holds_gpr _) (holds_gpr _) (holds_immS16 _)
    | false => exact yields_load hout (holds_gpr _) (holds_immS16 _) hal _ _
  · rw [if_pos hal] at ho
    cases ho

/-- A store row. -/
theorem refines_store {type : StoreOpType} {op : Mips.StoreOp} {statement : CStatement}
    (hbin : binaryOps id = none) (hun : unaryOps id = none)
    (hbranch : conditionalBranchOps id = none) (hrow : storeOps id = some ⟨type, .rt⟩)
    (hprint : processStoreOp ⟨type, .rt⟩ ctx = .ok [statement])
    (hexec : (effectiveAddress m.toMips ctx.rs ctx.imm16).toNat % op.alignment = 0 →
      ∃ m', statement.exec m = some m' ∧ m'.toMips = { m.toMips with
        mem := op.eval m.toMips.mem (window (effectiveAddress m.toMips ctx.rs ctx.imm16))
          ((effectiveAddress m.toMips ctx.rs ctx.imm16).toNat % 8) (m.toMips.gpr ctx.rt) })
    (ho : (Instr.store op ctx.rt ctx.rs ctx.imm16).step window m.toMips = .ok o) :
    Refines id ctx m o := by
  rw [Instr.step] at ho
  by_cases hal : (effectiveAddress m.toMips ctx.rs ctx.imm16).toNat % op.alignment = 0
  · rw [if_neg (not_not_intro hal)] at ho
    obtain rfl := Except.ok.inj ho
    obtain ⟨m', hm', hstate⟩ := hexec hal
    refine ⟨.statements [statement], m', ?_, ?_, hstate⟩
    · simp [emitted, hbin, hun, hbranch, hrow, hprint, Except.map]
    · simp [Emitted.run, execAll, hm']
  · rw [if_pos hal] at ho
    cases ho

/-- A conditional branch row. -/
theorem refines_branch {op : ConditionalBranchOp} {branch : BranchOp} {e : CExpr} {v : CVal}
    (hbin : binaryOps id = none) (hun : unaryOps id = none)
    (hrow : conditionalBranchOps id = some op) (hprint : branchCondition op ctx = .ok e)
    (hv : e.eval m.env = some v)
    (htaken : v.truthy = branch.eval m.toMips.fpCondition (m.toMips.gpr ctx.rs)
      (m.toMips.gpr ctx.rt))
    (ho : (Instr.branch branch ctx.rs ctx.rt).step window m.toMips = .ok o) :
    Refines id ctx m o := by
  obtain rfl := Except.ok.inj ho
  refine ⟨.condition e, m, ?_, ?_, rfl⟩
  · simp [emitted, hbin, hun, hrow, hprint, Except.map]
  · simp [Emitted.run, hv, htaken]

/-! ### The tables -/

/-- The text printed for an integer instruction does what the instruction does without its
overflow trap. -/
theorem refines_of_step {instr : Instr} (hinstr : mipsInstr id ctx = some instr)
    (hr : ctx.relocType = .none) (hslip : ¬ LiteralZeroSlip id ctx m)
    (ho : instr.untrapped.step window m.toMips = .ok o) : Refines id ctx m o := by
  have hs16 := getOperand_immS16 hr
  have hu16 := getOperand_immU16 hr .none
  have hrs := holds_gpr (m := m) ctx.rs
  have hrt := holds_gpr (m := m) ctx.rt
  have hi16 := holds_immS16 (m := m) ctx.imm16
  have hiu16 := holds_immU16 (m := m) ctx.imm16
  have hsa := counts_literal (m := m) (n := ctx.sa.val) (by omega)
  have hsa32 := counts_sa32 (m := m) ctx.sa
  have hmask5 := counts_mask hrs (n := 5) (by decide)
  have hmask6 := counts_mask hrs (n := 6) (by decide)
  have hsalt := ctx.sa.isLt
  have hlt32 := Nat.mod_lt (m.toMips.gpr ctx.rs).toNat (show 32 > 0 by decide)
  have hlt64 := Nat.mod_lt (m.toMips.gpr ctx.rs).toNat (show 64 > 0 by decide)
  cases id
  -- the arithmetic of two registers
  case add | addu =>
    obtain rfl := Option.some.inj hinstr
    exact refines_reg rfl ⟨_, rfl, yields_add32 hrs hrt⟩ ho
  case sub | subu | negu =>
    obtain rfl := Option.some.inj hinstr
    exact refines_reg rfl ⟨_, rfl, yields_sub32 hrs hrt⟩ ho
  case dadd | daddu =>
    obtain rfl := Option.some.inj hinstr
    exact refines_reg rfl ⟨_, rfl, yields_add hrs hrt⟩ ho
  case dsub | dsubu =>
    obtain rfl := Option.some.inj hinstr
    exact refines_reg rfl ⟨_, rfl, yields_sub hrs hrt⟩ ho
  case and =>
    obtain rfl := Option.some.inj hinstr
    exact refines_reg rfl ⟨_, rfl, yields_and hrs hrt⟩ ho
  case or =>
    obtain rfl := Option.some.inj hinstr
    exact refines_reg rfl ⟨_, rfl, yields_or hrs hrt⟩ ho
  case xor =>
    obtain rfl := Option.some.inj hinstr
    exact refines_reg rfl ⟨_, rfl, yields_xor hrs hrt⟩ ho
  case nor =>
    obtain rfl := Option.some.inj hinstr
    exact refines_reg rfl ⟨_, rfl, yields_nor hrs hrt⟩ ho
  case slt =>
    obtain rfl := Option.some.inj hinstr
    exact refines_reg rfl ⟨_, rfl, yields_cond (eval_lt_signed hrs hrt)⟩ ho
  case sltu =>
    obtain rfl := Option.some.inj hinstr
    exact refines_reg rfl ⟨_, rfl, yields_cond (eval_sltu _ _)⟩ ho
  -- a register and an immediate
  case addi | addiu =>
    obtain rfl := Option.some.inj hinstr
    exact refines_imm rfl hs16 (fun _ => ⟨_, rfl, yields_add32 hrs hi16⟩) ho
  case daddi | daddiu =>
    obtain rfl := Option.some.inj hinstr
    exact refines_imm rfl hs16 (fun _ => ⟨_, rfl, yields_add hrs hi16⟩) ho
  case andi =>
    obtain rfl := Option.some.inj hinstr
    exact refines_imm rfl hu16 (fun _ => ⟨_, rfl, yields_and hrs hiu16⟩) ho
  case ori =>
    obtain rfl := Option.some.inj hinstr
    exact refines_imm rfl hu16 (fun _ => ⟨_, rfl, yields_or hrs hiu16⟩) ho
  case xori =>
    obtain rfl := Option.some.inj hinstr
    exact refines_imm rfl hu16 (fun _ => ⟨_, rfl, yields_xor hrs hiu16⟩) ho
  case slti =>
    obtain rfl := Option.some.inj hinstr
    obtain ⟨v, hv, -, hty⟩ := isOperand_immS16 m ctx.imm16
    exact refines_imm rfl hs16 (fun _ => ⟨_, rfl, yields_cond
      (eval_lt_signed_int hrs hv hty (wrap_int32_imm _))⟩) ho
  case sltiu =>
    obtain rfl := Option.some.inj hinstr
    refine refines_imm rfl hs16 (fun hrt0 => ⟨_, rfl, yields_cond (eval_sltiu fun hrs0 => ?_)⟩) ho
    exact Int.not_lt.mp fun hneg => hslip ⟨hrs0, hrt0, hneg⟩
  -- the shifts
  case sll =>
    obtain rfl := Option.some.inj hinstr
    exact refines_shift rfl rfl rfl (fun _ => yields_sll32 hrt hsa hsalt) ho
  case srl =>
    obtain rfl := Option.some.inj hinstr
    exact refines_shift rfl rfl rfl (fun _ => yields_srl32 hrt hsa hsalt) ho
  case sra =>
    obtain rfl := Option.some.inj hinstr
    exact refines_shift rfl rfl rfl (fun _ => yields_sra32 hrt hsa (by omega)) ho
  case dsll =>
    obtain rfl := Option.some.inj hinstr
    exact refines_shift rfl rfl rfl (fun _ => yields_sll64 hsa (by omega) fun _ => hsalt) ho
  case dsrl =>
    obtain rfl := Option.some.inj hinstr
    exact refines_shift rfl rfl rfl (fun _ => yields_srl64 hsa (by omega) fun _ => hsalt) ho
  case dsra =>
    obtain rfl := Option.some.inj hinstr
    exact refines_shift rfl rfl rfl (fun _ => yields_sra64 hrt hsa (by omega)) ho
  case dsll32 =>
    obtain rfl := Option.some.inj hinstr
    exact refines_shift rfl rfl rfl (fun hrd => yields_sll64 hsa32 (by omega)
      fun hrt0 => absurd ⟨hrt0, hrd⟩ hslip) ho
  case dsrl32 =>
    obtain rfl := Option.some.inj hinstr
    exact refines_shift rfl rfl rfl (fun hrd => yields_srl64 hsa32 (by omega)
      fun hrt0 => absurd ⟨hrt0, hrd⟩ hslip) ho
  case dsra32 =>
    obtain rfl := Option.some.inj hinstr
    exact refines_shift rfl rfl rfl (fun _ => yields_sra64 hrt hsa32 (by omega)) ho
  case sllv =>
    obtain rfl := Option.some.inj hinstr
    exact refines_shift rfl rfl rfl (fun _ => yields_sll32 hrt hmask5 hlt32) ho
  case srlv =>
    obtain rfl := Option.some.inj hinstr
    exact refines_shift rfl rfl rfl (fun _ => yields_srl32 hrt hmask5 hlt32) ho
  case srav =>
    obtain rfl := Option.some.inj hinstr
    exact refines_shift rfl rfl rfl (fun _ => yields_sra32 hrt hmask5 (by omega)) ho
  case dsllv =>
    obtain rfl := Option.some.inj hinstr
    exact refines_shift rfl rfl rfl (fun hrd => yields_sll64 hmask6 hlt64 fun hrt0 =>
      Nat.not_le.mp fun hge => hslip ⟨hrt0, hrd, hge⟩) ho
  case dsrlv =>
    obtain rfl := Option.some.inj hinstr
    exact refines_shift rfl rfl rfl (fun hrd => yields_srl64 hmask6 hlt64 fun hrt0 =>
      Nat.not_le.mp fun hge => hslip ⟨hrt0, hrd, hge⟩) ho
  case dsrav =>
    obtain rfl := Option.some.inj hinstr
    exact refines_shift rfl rfl rfl (fun _ => yields_sra64 hrt hmask6 hlt64) ho
  -- the loads
  case lb | lbu | lh | lhu | lw | lwu | ld | lwl | lwr | ldl | ldr =>
    obtain rfl := Option.some.inj hinstr
    exact refines_load hr rfl (fun _ _ _ => rfl) ho
  -- the stores
  case sb | sh | sw =>
    obtain rfl := Option.some.inj hinstr
    exact refines_store rfl rfl rfl rfl (by rw [processStoreOp, hs16]; rfl)
      (fun hal => exec_assignMem (by decide) hrs hi16 hrt hal _) ho
  case sd =>
    obtain rfl := Option.some.inj hinstr
    refine refines_store rfl rfl rfl rfl (by rw [processStoreOp, hs16]; rfl) (fun hal => ?_) ho
    exact exec_sd hrs hi16 hrt hal _
  case swl | swr | sdl | sdr =>
    obtain rfl := Option.some.inj hinstr
    exact refines_store rfl rfl rfl rfl (by rw [processStoreOp, hs16]; rfl)
      (fun _ => exec_callStore (by decide) hrs hi16 hrt) ho
  -- the moves
  case lui =>
    obtain rfl := Option.some.inj hinstr
    obtain rfl := Except.ok.inj ho
    exact refines_unary rfl rfl rfl rfl (getOperand_immU16 hr _) (yields_lui _)
  case mfhi =>
    obtain rfl := Option.some.inj hinstr
    obtain rfl := Except.ok.inj ho
    exact refines_unary rfl rfl rfl rfl rfl ⟨_, rfl, rfl⟩
  case mflo =>
    obtain rfl := Option.some.inj hinstr
    obtain rfl := Except.ok.inj ho
    exact refines_unary rfl rfl rfl rfl rfl ⟨_, rfl, rfl⟩
  case mthi =>
    obtain rfl := Option.some.inj hinstr
    obtain rfl := Except.ok.inj ho
    obtain ⟨v, hv, hx⟩ := hrs
    have hassign : m.assign v .hi = some { m with hi := v.bits } := rfl
    rw [← hx.bits]
    exact refines_moveTo rfl rfl rfl rfl rfl hv hassign
  case mtlo =>
    obtain rfl := Option.some.inj hinstr
    obtain rfl := Except.ok.inj ho
    obtain ⟨v, hv, hx⟩ := hrs
    have hassign : m.assign v .lo = some { m with lo := v.bits } := rfl
    rw [← hx.bits]
    exact refines_moveTo rfl rfl rfl rfl rfl hv hassign
  -- the branch conditions
  case beq | beql =>
    obtain rfl := Option.some.inj hinstr
    exact refines_branch rfl rfl rfl rfl (eval_eq hrs hrt) (truthy_ofBool _) ho
  case bne | bnel =>
    obtain rfl := Option.some.inj hinstr
    exact refines_branch rfl rfl rfl rfl (eval_ne hrs hrt) (truthy_ofBool _) ho
  case bgez | bgezl | bgezal | bgezall =>
    obtain rfl := Option.some.inj hinstr
    exact refines_branch rfl rfl rfl rfl (eval_signed_zero hrs).1 (truthy_ofBool _) ho
  case bgtz | bgtzl =>
    obtain rfl := Option.some.inj hinstr
    exact refines_branch rfl rfl rfl rfl (eval_signed_zero hrs).2.1 (truthy_ofBool _) ho
  case blez | blezl =>
    obtain rfl := Option.some.inj hinstr
    exact refines_branch rfl rfl rfl rfl (eval_signed_zero hrs).2.2.1 (truthy_ofBool _) ho
  case bltz | bltzl | bltzal | bltzall =>
    obtain rfl := Option.some.inj hinstr
    exact refines_branch rfl rfl rfl rfl (eval_signed_zero hrs).2.2.2 (truthy_ofBool _) ho
  case bc1f | bc1fl =>
    obtain rfl := Option.some.inj hinstr
    obtain ⟨v, hv, htruthy, hnot⟩ := eval_c1cs (m := m)
    exact refines_branch rfl rfl rfl rfl hnot (truthy_ofBool _) ho
  case bc1t | bc1tl =>
    obtain rfl := Option.some.inj hinstr
    obtain ⟨v, hv, htruthy, hnot⟩ := eval_c1cs (m := m)
    refine refines_branch rfl rfl rfl rfl hv ?_ ho
    exact htruthy
  all_goals cases hinstr

end Refines

/-! ### The integer rows -/

/-- Whether an operand is not a floating-point register. -/
def Operand.isInteger : Operand → Bool
  | .rd | .rs | .rt | .immU16 | .immS16 | .sa | .sa32 | .cop1cs | .hi | .lo | .zero => true
  | _ => false

/-- Whether an instruction has a row in the tables whose operands are all integers. The rows that
compare floating-point registers are told by their operands, not by the condition signal. -/
def isIntegerRow (id : InstrId) : Bool :=
  (binaryOps id).any (fun op => op.output.isInteger && op.operands.operand0.isInteger &&
    op.operands.operand1.isInteger) ||
  (unaryOps id).any (fun op => op.output.isInteger && op.input.isInteger) ||
  (conditionalBranchOps id).any (fun op => op.operands.operand0.isInteger &&
    op.operands.operand1.isInteger) ||
  (storeOps id).any (fun op => op.valueInput.isInteger)

/-- The integer rows are those that stand for an integer instruction. -/
theorem mipsInstr_isSome (id : InstrId) (ctx : InstructionContext) :
    (mipsInstr id ctx).isSome = isIntegerRow id := by
  cases id <;> rfl

/-- **The C of an integer instruction is defined and does what the instruction does** without its
overflow trap, which is what the instruction itself does whenever it does not trap. -/
theorem emitted_refines_mips {id : InstrId} (hid : isIntegerRow id) (ctx : InstructionContext)
    (hr : ctx.relocType = .none) :
    ∃ instr, mipsInstr id ctx = some instr ∧
      ∀ m : Machine, ¬ LiteralZeroSlip id ctx m →
        (∀ o, instr.untrapped.step window m.toMips = .ok o → Refines id ctx m o) ∧
        (∀ o, instr.step window m.toMips = .ok o → Refines id ctx m o) := by
  obtain ⟨instr, hinstr⟩ := Option.isSome_iff_exists.mp ((mipsInstr_isSome id ctx).trans hid)
  refine ⟨instr, hinstr, fun m hslip => ⟨fun o ho => ?_, fun o ho => ?_⟩⟩
  · exact refines_of_step hinstr hr hslip ho
  · exact refines_of_step hinstr hr hslip (Instr.step_untrapped ho)

/-- Three-register operands without a relocation. -/
def plainOperands (rd rs rt : Fin 32) (imm16 : BitVec 16) : InstructionContext :=
  ⟨rd, rs, rt, 0, 0, 0, 0, 0, imm16, false, .none, 0, 0⟩

/-- A machine with given registers, the rest cleared. -/
def machineOf (gpr : Fin 32 → BitVec 64) : Machine :=
  ⟨gpr, 0, 0, 0, fun _ => 0, fun _ => 0, fun _ => 0⟩

theorem emitted_refines_mips_subu :
    Refines .subu (plainOperands 2 3 0 0) (machineOf fun _ => 7)
      ⟨(machineOf fun _ => 7).toMips.setReg 2 7, false⟩ := by
  obtain ⟨instr, hinstr, h⟩ :=
    emitted_refines_mips (show isIntegerRow .subu = true from rfl) (plainOperands 2 3 0 0) rfl
  obtain rfl := Option.some.inj hinstr
  exact (h _ fun hslip => hslip).2 _ rfl

/-- The C of an instruction is defined, and leaves what the instruction leaves; an instruction
that raises an exception leaves the state as it was. -/
def Exact (id : InstrId) (ctx : InstructionContext) (instr : Instr) (m : Machine) : Prop :=
  match instr.step window m.toMips with
  | .ok o => Refines id ctx m o
  | .error _ => Refines id ctx m ⟨m.toMips, false⟩

/-- `add $2, $1, $1` on `0x7FFFFFFF` traps, and its C writes `$2`; `dsllv $2, $zero, $1` by 32
shifts an `int` by its width; `sltiu $2, $zero, -5` compares two `int`s. -/
theorem emitted_not_exact :
    (∃ m, ¬ Exact .add (plainOperands 2 1 1 0) (.reg .add 2 1 1) m) ∧
    (∃ m, ¬ Exact .dsllv (plainOperands 2 1 0 0) (.shiftVariable .dsll 2 0 1) m) ∧
    (∃ m, ¬ Exact .sltiu (plainOperands 0 0 2 (-5)) (.imm .sltiu 2 0 (-5)) m) := by
  refine ⟨⟨machineOf fun r => if r = 1 then 0x7FFFFFFF else 0, ?_⟩,
    ⟨machineOf fun r => if r = 1 then 32 else 0, ?_⟩, ⟨machineOf fun _ => 0, ?_⟩⟩
  · rintro ⟨e, m', he, hrun, hstate⟩
    obtain rfl := Except.ok.inj (Option.some.inj he)
    obtain rfl := congrArg Prod.fst (Option.some.inj hrun)
    exact absurd (congrArg (fun s => s.gpr 2) hstate) (by decide)
  · rintro ⟨e, m', he, hrun, hstate⟩
    obtain rfl := Except.ok.inj (Option.some.inj he)
    cases hrun
  · rintro ⟨e, m', he, hrun, hstate⟩
    obtain rfl := Except.ok.inj (Option.some.inj he)
    obtain rfl := congrArg Prod.fst (Option.some.inj hrun)
    exact absurd (congrArg (fun s => s.gpr 2) hstate) (by decide)

end N64Recomp
