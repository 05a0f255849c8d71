import N64Recomp.CGenerator.IntegerOps
import N64Recomp.Mips.Control
import N64Recomp.Recompilation.Execution
import N64Recomp.Recompilation.Layout

/-!
# The items of an instruction, executed

What the items do that are emitted for an instruction that is no transfer: they leave what the
instruction leaves, and nothing of them is jumped over.

## Main definitions

* `InstructionCpu.flow`: what an instruction does with control
* `Translation.cpu`: the machine of a function's instructions
* `Translation.Described`: the functions whose instructions the execution describes
* `Translation.Executes`: items that do what an instruction does

## Main results

* `Translation.executes_processInstruction`: the items of an instruction that is no transfer
-/

namespace N64Recomp

open CLang Emit FlatCode Mips CGenerator

/-! ### The addresses of the sections -/

theorem assign_sectionAddresses {m m' : Machine} {v : CVal} {x : Object}
    (h : m.assign v x = some m') : m'.sectionAddresses = m.sectionAddresses := by
  cases x
  case gpr | hi | lo | c1cs =>
    obtain rfl := Option.some.inj h
    rfl
  all_goals cases h

theorem exec_sectionAddresses {m m' : Machine} {statement : CStatement}
    (h : statement.exec m = some m') : m'.sectionAddresses = m.sectionAddresses := by
  cases statement with
  | assign output value =>
    obtain ⟨v, -, hassign⟩ := Option.bind_eq_some_iff.mp h
    cases output <;> first | cases hassign | exact assign_sectionAddresses hassign
  | assignMem | sd | call =>
    simp only [CStatement.exec, Option.bind_eq_bind, Option.pure_def, Option.bind_eq_some_iff,
      Option.some.injEq] at h
    obtain ⟨_, -, _, -, _, -, rdram, -, rfl⟩ := h
    rfl

/-- The emitted statements leave the addresses of the sections. -/
theorem execAll_sectionAddresses {m m' : Machine} {statements : List CStatement}
    (h : execAll m statements = some m') : m'.sectionAddresses = m.sectionAddresses := by
  unfold execAll at h
  induction statements generalizing m with
  | nil =>
    obtain rfl := Option.some.inj h
    rfl
  | cons statement statements ih =>
    obtain ⟨m₁, hexec, hrest⟩ := Option.bind_eq_some_iff.mp h
    exact (ih hrest).trans (exec_sectionAddresses hexec)

/-! ### The instructions of the guest -/

/-- The operands of an instruction, without a relocation. -/
def InstructionCpu.operands (instr : InstructionCpu) : InstructionContext where
  rd := instr.rd
  rs := instr.rs
  rt := instr.rt
  sa := instr.sa
  fd := instr.fd
  fs := instr.fs
  ft := instr.ft
  cop1Cs := instr.cop1Cs
  imm16 := instr.immediate
  relocTagAsReference := false
  relocType := .none
  relocSectionIndex := 0
  relocTargetSectionOffset := 0

/-- What an instruction does with control; `none` for the instructions that are not described. -/
def InstructionCpu.flow (dec : Decoder) (instr : InstructionCpu) : Option Flow :=
  let id := instr.uniqueId dec
  let target := instr.getBranchVramGeneric dec
  if id = .nop ∨ id = .cache then some (.op .nop)
  else if id = .j ∨ id = .b then some (.jump false target)
  else if id = .jal then some (.jump true target)
  else if id = .jr then some (.jumpReg none instr.rs)
  else if id = .jalr then some (.jumpReg (some instr.rd) instr.rs)
  else
    match mulDivOp id, conditionalBranchOps id, mipsInstr id instr.operands with
    | some op, _, _ => some (.op (.mulDiv op instr.rs instr.rt))
    | none, some row, some (.branch op rs rt) =>
      some (.branch op rs rt row.link row.likely target)
    | none, none, some i => some (.op (.instr i))
    | _, _, _ => none

namespace Translation

variable (t : Translation)

/-- The instruction at an address of the function. -/
def code (pc : BitVec 32) : Option Flow :=
  (t.instructions.find? (·.vram = pc)).bind (·.flow t.decoder)

/-- **The machine of a function's instructions.** A link register holds an address zero-extended, as
the emitted code writes it. -/
def cpu : Cpu 30 where
  code := t.code
  translate := window
  linkValue pc := pc.setWidth 64

/-- **The functions whose instructions the execution describes**: those without jump tables, hooks
and relocations, whose `$zero` is nowhere an `int` of the wrong width, which do not wait in a loop of
one instruction, and which write no register between the transfer that reads it and the text that
does. -/
structure Described : Prop where
  noTables : t.jumpTables = []
  noHooks : ∀ i, t.func.functionHooks i = none
  unrelocated : ∀ instr ∈ t.instructions, ∀ i info,
    resolveReloc t.context t.funcSection.relocs i instr.vram = some info →
      info.type = .none ∧ info.referenceSymbol = none ∧
        info.sectionIndex ≠ sectionEvent.setWidth 32
  literals : ∀ instr ∈ t.instructions, ∀ m,
    ¬LiteralZeroSlip (instr.uniqueId t.decoder) instr.operands m
  moves : ∀ instr ∈ t.instructions, ∀ target,
    instr.flow t.decoder = some (.jump false target) → target ≠ instr.vram
  branchLinks : ∀ instr ∈ t.instructions, ∀ op rs rt likely target,
    instr.flow t.decoder = some (.branch op rs rt true likely target) → rs ≠ ra ∧ rt ≠ ra
  jumpLinks : ∀ instr ∈ t.instructions, ∀ rs, instr.flow t.decoder ≠ some (.jumpReg (some rs) rs)
  slots : ∀ k instr next link rs o, t.instructions[k]? = some instr →
    t.instructions[k + 1]? = some next → instr.flow t.decoder = some (.jumpReg link rs) →
      next.flow t.decoder = some (.op o) → (link = none ∧ rs = ra) ∨ o.destination ≠ some rs

/-- Items that do what an instruction does, none of which is the end of a block. -/
structure Executes (host : HostFunctions) (items : List Item) (o : Op) : Prop where
  plain : ∀ i ∈ items, Plain (t.execution host) i
  run : ∀ (f : HostFrame) (s' : State 30), o.exec window f.machine.toMips = some s' →
    ∃ machine result, runNext (t.execution host) items f = some { f with machine, result } ∧
      machine.toMips = s' ∧ machine.sectionAddresses = f.machine.sectionAddresses

variable {t}

theorem mipsInstr_instructionContext (id : InstrId) (instr : InstructionCpu) (reloc : RelocInfo) :
    mipsInstr id (t.instructionContext instr reloc) = mipsInstr id instr.operands := by
  cases id <;> rfl

theorem literalZeroSlip_instructionContext {id : InstrId} {instr : InstructionCpu}
    {reloc : RelocInfo} {m : Machine} (h : LiteralZeroSlip id (t.instructionContext instr reloc) m) :
    LiteralZeroSlip id instr.operands m := by
  cases id <;> exact h

theorem Described.translatedId_eq (h : t.Described) (instr : InstructionCpu) :
    t.translatedId instr = instr.uniqueId t.decoder := by
  unfold translatedId isJtblLw
  rw [h.noTables]
  rfl

/-! ### What an instruction does with control -/

section Flow

variable {dec : Decoder} {instr : InstructionCpu} {o : Op}

/-- The instructions that do not transfer control. -/
theorem flow_op (h : instr.flow dec = some (.op o)) :
    (instr.uniqueId dec ∈ [InstrId.nop, .cache] ∧ o = .nop) ∨
      (∃ op, mulDivOp (instr.uniqueId dec) = some op ∧ o = .mulDiv op instr.rs instr.rt) ∨
      ∃ i, mipsInstr (instr.uniqueId dec) instr.operands = some i ∧
        conditionalBranchOps (instr.uniqueId dec) = none ∧ o = .instr i := by
  unfold InstructionCpu.flow at h
  dsimp only at h
  split_ifs at h with hnop
  · refine .inl ⟨by simpa using hnop, ?_⟩
    exact (Flow.op.inj (Option.some.inj h)).symm
  iterate 4 cases h
  · split at h
    · rename_i op hop
      exact .inr (.inl ⟨op, hop, (Flow.op.inj (Option.some.inj h)).symm⟩)
    · cases h
    · rename_i i _ hbranch hi
      exact .inr (.inr ⟨i, hi, hbranch, (Flow.op.inj (Option.some.inj h)).symm⟩)
    · cases h

theorem flow_branch {op : BranchOp} {rs rt : Reg} {link likely : Bool} {target : BitVec 32}
    (h : instr.flow dec = some (.branch op rs rt link likely target)) :
    ∃ row, conditionalBranchOps (instr.uniqueId dec) = some row ∧
      mipsInstr (instr.uniqueId dec) instr.operands = some (.branch op rs rt) ∧
      link = row.link ∧ likely = row.likely ∧ target = instr.getBranchVramGeneric dec := by
  unfold InstructionCpu.flow at h
  dsimp only at h
  split_ifs at h
  iterate 5 cases h
  split at h
  · cases h
  · rename_i row op' rs' rt' _ hrow hi
    obtain ⟨rfl, rfl, rfl, rfl, rfl, rfl⟩ := Flow.branch.inj (Option.some.inj h)
    exact ⟨row, hrow, hi, rfl, rfl, rfl⟩
  · cases h
  · cases h

theorem flow_jump {link : Bool} {target : BitVec 32}
    (h : instr.flow dec = some (.jump link target)) :
    (if link then instr.uniqueId dec = .jal else instr.uniqueId dec ∈ [InstrId.j, .b]) ∧
      target = instr.getBranchVramGeneric dec := by
  unfold InstructionCpu.flow at h
  dsimp only at h
  split_ifs at h with _ hj hjal
  · cases h
  · obtain ⟨rfl, rfl⟩ := Flow.jump.inj (Option.some.inj h)
    exact ⟨by simpa using hj, rfl⟩
  · obtain ⟨rfl, rfl⟩ := Flow.jump.inj (Option.some.inj h)
    exact ⟨by simpa using hjal, rfl⟩
  · cases h
  · cases h
  · split at h <;> cases h

theorem flow_jumpReg {link : Option Reg} {rs : Reg}
    (h : instr.flow dec = some (.jumpReg link rs)) :
    rs = instr.rs ∧ (instr.uniqueId dec = .jr ∧ link = none ∨
      instr.uniqueId dec = .jalr ∧ link = some instr.rd) := by
  unfold InstructionCpu.flow at h
  dsimp only at h
  split_ifs at h with _ _ _ hjr hjalr
  iterate 3 cases h
  · obtain ⟨rfl, rfl⟩ := Flow.jumpReg.inj (Option.some.inj h)
    exact ⟨rfl, .inl ⟨hjr, rfl⟩⟩
  · obtain ⟨rfl, rfl⟩ := Flow.jumpReg.inj (Option.some.inj h)
    exact ⟨rfl, .inr ⟨hjalr, rfl⟩⟩
  · split at h <;> cases h

/-- An instruction that does not transfer control is no transfer of the recompiler's. -/
theorem isTransfer_of_flow_op (h : instr.flow dec = some (.op o)) :
    isTransfer (instr.uniqueId dec) = false := by
  rcases flow_op h with ⟨hid, -⟩ | ⟨op, hop, -⟩ | ⟨i, hi, hbranch, -⟩
  · revert hid
    generalize instr.uniqueId dec = id
    intro hid
    simp only [List.mem_cons, List.not_mem_nil, or_false] at hid
    rcases hid with rfl | rfl <;> rfl
  · revert hop
    generalize instr.uniqueId dec = id
    intro hop
    cases id <;> first
      | cases hop; done
      | rfl
  · revert hi hbranch
    generalize instr.uniqueId dec = id
    intro hi hbranch
    unfold isTransfer
    rw [hbranch]
    cases id <;> first | rfl | cases hi

end Flow

/-! ### The operations of the tables -/

section Tables

variable {statics statics' : Statics} {items : List Item} {u : Unit} {ctx : InstructionContext}
  {id : InstrId}

theorem done_items_eq_nil {m : Emission Unit} (hm : Writes (fun _ => False) m)
    (h : Done m statics u items statics') : items = [] :=
  List.eq_nil_iff_forall_not_mem.mpr (hm.done h)

theorem done_call_eq {c : Call} (h : Done (t.call c) statics u items statics') :
    items = [.call c] := (done_call h).1

/-- The integer operands are not checked. -/
theorem writes_checkFrs {check : Bool} {operands : List Operand}
    (h : ∀ x ∈ operands, x.isInteger = true) :
    Writes (fun _ => False) (t.checkFrs check ctx operands) := by
  refine (writes_forM fun operand hoperand => ?_).when
  have hinteger := h operand hoperand
  cases operand <;> first | exact writes_pure _ | cases hinteger

theorem writes_checkNans {check : Bool} {operands : List Operand}
    (h : ∀ x ∈ operands, x.isInteger = true) :
    Writes (fun _ => False) (t.checkNans check ctx operands) := by
  refine (writes_forM fun operand hoperand => ?_).when
  have hinteger := h operand hoperand
  cases operand <;> first | exact writes_pure _ | cases hinteger

theorem done_processBinary {op : BinaryOp} (hout : op.output.isInteger = true)
    (h₀ : op.operands.operand0.isInteger = true) (h₁ : op.operands.operand1.isInteger = true)
    (h : Done (t.processBinary op ctx) statics u items statics') :
    items = [.call (.binaryOp op ctx)] := by
  obtain ⟨_, l₁, _, _, hfrs, hrest, rfl⟩ := done_bind.mp h
  obtain ⟨_, l₂, _, _, hnans, hcall, rfl⟩ := done_bind.mp hrest
  obtain rfl := done_items_eq_nil (writes_checkFrs (by simp [hout, h₀, h₁])) hfrs
  obtain rfl := done_items_eq_nil (writes_checkNans (by simp [h₀, h₁])) hnans
  exact done_call_eq hcall

theorem done_processUnary {op : UnaryOp} (hout : op.output.isInteger = true)
    (hin : op.input.isInteger = true) (h : Done (t.processUnary op ctx) statics u items statics') :
    items = [.call (.unaryOp op ctx)] := by
  obtain ⟨_, l₁, _, _, hfrs, hrest, rfl⟩ := done_bind.mp h
  obtain ⟨_, l₂, _, _, hnans, hcall, rfl⟩ := done_bind.mp hrest
  obtain rfl := done_items_eq_nil (writes_checkFrs (by simp [hout, hin])) hfrs
  obtain rfl := done_items_eq_nil (writes_checkNans (by simp [hin])) hnans
  exact done_call_eq hcall

theorem done_processStore {op : StoreOp} (hvalue : op.valueInput.isInteger = true)
    (h : Done (t.processStore op ctx) statics u items statics') :
    items = [.call (.storeOp op ctx)] := by
  obtain ⟨_, l₁, _, _, hfrs, hcall, rfl⟩ := done_bind.mp h
  obtain rfl := done_items_eq_nil (writes_checkFrs (by simp [hvalue])) hfrs
  exact done_call_eq hcall

/-- An operation over the tables whose row is none writes nothing, and over some row one call. -/
theorem done_forM_row {ρ : Type} {row : Option ρ} {f : ρ → Emission Unit} (item : ρ → Item)
    (hf : ∀ op ∈ row, ∀ {statics u items statics'}, Done (f op) statics u items statics' →
      items = [item op]) (h : Done (row.toList.forM f) statics u items statics') :
    items = row.toList.map item := by
  cases row with
  | none => exact (done_pure.mp h).2.1
  | some op =>
    obtain ⟨_, l₁, _, _, hop, hnil, rfl⟩ := done_bind.mp h
    obtain ⟨-, rfl, -⟩ := done_pure.mp hnil
    rw [hf op rfl hop]
    rfl

/-- An identity is in at most one table. -/
theorem tables_disjoint (id : InstrId) :
    ((binaryOps id).isSome → unaryOps id = none ∧ storeOps id = none) ∧
      ((unaryOps id).isSome → binaryOps id = none ∧ storeOps id = none) ∧
      ((storeOps id).isSome → binaryOps id = none ∧ unaryOps id = none) ∧
      ((conditionalBranchOps id).isSome →
        binaryOps id = none ∧ unaryOps id = none ∧ storeOps id = none) := by
  cases id <;> decide

theorem inTables_of_isIntegerRow {id : InstrId} (h : isIntegerRow id = true) :
    inTables id = true := by
  revert h
  cases id <;> decide

variable {host : HostFunctions} {i : Instr}

/-- The text of an operation of the tables, executed. -/
theorem executes_text {item : Item} (text : Except GeneratorError (List CStatement))
    (hi : mipsInstr id ctx = some i) (hr : ctx.relocType = .none)
    (hslip : ∀ m, ¬LiteralZeroSlip id ctx m)
    (hemitted : emitted id ctx = some (text.map .statements))
    (hplain : Plain (t.execution host) item)
    (heffect : ∀ f, (t.execution host).effect item f = execText text f) :
    t.Executes host [item] (.instr i) := by
  refine ⟨fun x hx => List.mem_singleton.mp hx ▸ hplain, fun f s' hexec => ?_⟩
  obtain ⟨o, hstep, rfl⟩ := Option.map_eq_some_iff.mp hexec
  have hstep : i.step window f.machine.toMips = .ok o := by
    cases hresult : i.step window f.machine.toMips with
    | error e =>
      rw [hresult] at hstep
      cases hstep
    | ok o' =>
      rw [hresult] at hstep
      exact congrArg _ (Option.some.inj hstep)
  obtain ⟨e, machine, he, hrun, hstate⟩ :=
    refines_of_step hi hr (hslip f.machine) (Instr.step_untrapped hstep)
  rw [hemitted] at he
  cases text with
  | error e => cases he
  | ok statements =>
    obtain rfl := Except.ok.inj (Option.some.inj he)
    obtain ⟨machine', hexec', heq⟩ := Option.map_eq_some_iff.mp hrun
    obtain rfl := (Prod.mk.inj heq).1
    refine ⟨machine', f.result, ?_, hstate, execAll_sectionAddresses hexec'⟩
    refine (runNext_cons ((heffect f).trans ?_)).trans rfl
    rw [execText]
    simp only [hexec']

/-- **The operations of an integer row do what its instruction does.** -/
theorem executes_processOps (hi : mipsInstr id ctx = some i)
    (hbranch : conditionalBranchOps id = none) (hr : ctx.relocType = .none)
    (hslip : ∀ m, ¬LiteralZeroSlip id ctx m)
    (h : Done (t.processOps id ctx) statics u items statics') :
    t.Executes host items (.instr i) := by
  have hrow : isIntegerRow id = true := by
    rw [← mipsInstr_isSome id ctx, hi]
    rfl
  obtain ⟨hbinary, hunary, hstore, -⟩ := tables_disjoint id
  obtain ⟨_, l₁, _, _, h₁, hrest, rfl⟩ := done_bind.mp h
  obtain ⟨_, l₂, _, l₃, h₂, h₃, rfl⟩ := done_bind.mp hrest
  unfold isIntegerRow at hrow
  cases hb : binaryOps id with
  | some op =>
    obtain ⟨hu, hs⟩ := hbinary (by rw [hb]; rfl)
    simp only [hb, hu, hs, hbranch, Option.any_some, Option.any_none, Bool.or_false,
      Bool.and_eq_true] at hrow
    rw [hb] at h₁
    rw [hu] at h₂
    rw [hs] at h₃
    obtain rfl := done_forM_row (fun op => .call (.binaryOp op ctx))
      (fun op' hop _ _ _ _ hdone => by
        obtain rfl := Option.some.inj hop
        exact done_processBinary hrow.1.1 hrow.1.2 hrow.2 hdone) h₁
    obtain ⟨-, rfl, -⟩ := done_pure.mp h₂
    obtain ⟨-, rfl, -⟩ := done_pure.mp h₃
    exact executes_text (processBinaryOp op ctx) hi hr hslip (by simp [emitted, hb])
      ⟨rfl, rfl⟩ fun f => rfl
  | none =>
    rw [hb] at h₁
    obtain ⟨-, rfl, -⟩ := done_pure.mp h₁
    cases hu : unaryOps id with
    | some op =>
      obtain ⟨-, hs⟩ := hunary (by rw [hu]; rfl)
      simp only [hb, hu, hs, hbranch, Option.any_some, Option.any_none, Bool.or_false,
        Bool.false_or, Bool.and_eq_true] at hrow
      rw [hu] at h₂
      rw [hs] at h₃
      obtain rfl := done_forM_row (fun op => .call (.unaryOp op ctx))
        (fun op' hop _ _ _ _ hdone => by
          obtain rfl := Option.some.inj hop
          exact done_processUnary hrow.1 hrow.2 hdone) h₂
      obtain ⟨-, rfl, -⟩ := done_pure.mp h₃
      exact executes_text (processUnaryOp op ctx) hi hr hslip (by simp [emitted, hb, hu])
        ⟨rfl, rfl⟩ fun f => rfl
    | none =>
      rw [hu] at h₂
      obtain ⟨-, rfl, -⟩ := done_pure.mp h₂
      cases hs : storeOps id with
      | some op =>
        simp only [hb, hu, hs, hbranch, Option.any_some, Option.any_none, Bool.or_false,
          Bool.false_or] at hrow
        rw [hs] at h₃
        obtain rfl := done_forM_row (fun op => .call (.storeOp op ctx))
          (fun op' hop _ _ _ _ hdone => by
            obtain rfl := Option.some.inj hop
            exact done_processStore hrow hdone) h₃
        exact executes_text (processStoreOp op ctx) hi hr hslip
          (by simp [emitted, hb, hu, hbranch, hs]) ⟨rfl, rfl⟩ fun f => rfl
      | none =>
        rw [hb, hu, hs, hbranch] at hrow
        cases hrow

/-- The text of a multiplication or a division, executed. -/
theorem executes_muldiv {op : MulDivOp} {reg1 reg2 : Fin 32} (hop : mulDivOp id = some op) :
    t.Executes host [.call (.muldiv id reg1 reg2)] (.mulDiv op reg1 reg2) := by
  refine ⟨fun x hx => List.mem_singleton.mp hx ▸ ⟨rfl, rfl⟩, fun f s' hexec => ?_⟩
  obtain ⟨text, htext, hrun⟩ :=
    exec_emitMuldiv ⟨f.machine, f.result⟩ host.longProducts hop reg1 reg2
  unfold Op.exec at hexec
  dsimp only at hexec hrun
  split at hexec
  · cases hexec
  · rename_i hzero
    rw [if_neg hzero] at hrun
    obtain ⟨m, hm, hmachine⟩ := Option.map_eq_some_iff.mp hrun
    obtain rfl := Option.some.inj hexec
    have heffect : execMuldivText host.longProducts (emitMuldiv id reg1 reg2) f =
        .next { f with machine := m.machine, result := m.result } := by
      simp only [execMuldivText, htext, Option.bind_some, hm]
    refine ⟨m.machine, m.result, (runNext_cons heffect).trans rfl, ?_, ?_⟩
    · rw [hmachine]
      rfl
    · rw [hmachine]
      rfl

/-! ### Instructions -/

theorem executes_nil : t.Executes host [] .nop := by
  refine ⟨List.forall_mem_nil _, fun f s' hexec => ⟨f.machine, f.result, rfl, ?_, rfl⟩⟩
  exact Option.some.inj hexec

theorem Executes.comment {o : Op} (h : t.Executes host items o) (vram : BitVec 32) :
    t.Executes host (.call (.comment vram) :: items) o := by
  refine ⟨List.forall_mem_cons.mpr ⟨⟨rfl, rfl⟩, h.plain⟩, fun f s' hexec => ?_⟩
  obtain ⟨machine, result, hrun, hstate, hsections⟩ := h.run f s' hexec
  exact ⟨machine, result, (runNext_cons rfl).trans hrun, hstate, hsections⟩

theorem done_withoutLink {m : Emission Unit} {b : Bool}
    (h : Done (withoutLink m) statics b items statics') :
    b = false ∧ Done m statics () items statics' := by
  obtain ⟨_, l, _, _, hm, hreturn, rfl⟩ := done_bind.mp h
  obtain ⟨rfl, rfl, rfl⟩ := done_pure.mp hreturn
  exact ⟨rfl, by rwa [List.append_nil]⟩

variable {instr : InstructionCpu} {slot : Emission Unit} {n : Nat} {reloc : RelocInfo} {o : Op}

/-- An integer row has a case for an addition only, the check for the addend of a jump table. -/
theorem controlCase_row (slot : Emission Unit) (n : Nat) (reloc : RelocInfo)
    (hi : mipsInstr id ctx = some i) (hbranch : conditionalBranchOps id = none) :
    t.controlCase instr id slot n reloc = some (withoutLink (t.emitJtblAddend instr)) ∨
      t.controlCase instr id slot n reloc = none := by
  cases id
  case add | addu => exact .inl rfl
  -- the identities with another case have no row, and those with a row and no case are left
  all_goals first
    | cases hi; done
    | cases hbranch; done
    | exact .inr rfl

/-- The case of an integer row, when there are no jump tables, writes nothing. -/
theorem done_controlCase_row {b : Bool} (hd : t.Described) (hi : mipsInstr id ctx = some i)
    (hbranch : conditionalBranchOps id = none)
    (h : Done ((t.controlCase instr id slot n reloc).getD (pure false)) statics b items statics') :
    b = false ∧ items = [] := by
  have haddend : t.emitJtblAddend instr = pure () := by
    unfold emitJtblAddend
    rw [hd.noTables]
    rfl
  rcases controlCase_row slot n reloc hi hbranch with hcase | hcase
  · rw [hcase, Option.getD_some, haddend] at h
    obtain ⟨rfl, hm⟩ := done_withoutLink h
    exact ⟨rfl, (done_pure.mp hm).2.1⟩
  · rw [hcase, Option.getD_none] at h
    obtain ⟨rfl, rfl, -⟩ := done_pure.mp h
    exact ⟨rfl, rfl⟩

theorem done_processOps_none (hbinary : binaryOps id = none) (hunary : unaryOps id = none)
    (hstore : storeOps id = none) (h : Done (t.processOps id ctx) statics u items statics') :
    items = [] := by
  obtain ⟨_, l₁, _, _, h₁, hrest, rfl⟩ := done_bind.mp h
  obtain ⟨_, l₂, _, l₃, h₂, h₃, rfl⟩ := done_bind.mp hrest
  rw [hbinary] at h₁
  rw [hunary] at h₂
  rw [hstore] at h₃
  obtain ⟨-, rfl, -⟩ := done_pure.mp h₁
  obtain ⟨-, rfl, -⟩ := done_pure.mp h₂
  exact (done_pure.mp h₃).2.1

/-- The case of a multiplication or a division is its call of `muldiv`. -/
theorem controlCase_mulDiv {op : MulDivOp} (hop : mulDivOp id = some op) :
    t.controlCase instr id slot n reloc =
      some (withoutLink (t.call (.muldiv id instr.rs instr.rt))) := by
  cases id <;> first
    | cases hop; done
    | rfl

theorem tables_mulDiv {op : MulDivOp} (hop : mulDivOp id = some op) :
    binaryOps id = none ∧ unaryOps id = none ∧ storeOps id = none := by
  cases id <;> first
    | cases hop; done
    | exact ⟨rfl, rfl, rfl⟩

/-- What the cases and the tables write for an instruction that is no transfer. -/
theorem executes_case (host : HostFunctions) {b : Bool} {l₁ l₂ : List Item}
    {statics₁ statics₂ : Statics}
    (hd : t.Described) (hflow : instr.flow t.decoder = some (.op o)) (hinstr : instr ∈ t.instructions)
    (hreloc : reloc.type = .none)
    (h₁ : Done ((t.controlCase instr (instr.uniqueId t.decoder) slot n reloc).getD (pure false))
      statics b l₁ statics₁)
    (h₂ : Done (t.processOps (instr.uniqueId t.decoder) (t.instructionContext instr reloc)) statics₁
      u l₂ statics₂) :
    b = false ∧ t.Executes host (l₁ ++ l₂) o ∧
      ((t.controlCase instr (instr.uniqueId t.decoder) slot n reloc).isSome ||
        inTables (instr.uniqueId t.decoder)) = true := by
  have hslip := hd.literals instr hinstr
  rcases flow_op hflow with ⟨hid, rfl⟩ | ⟨op, hop, rfl⟩ | ⟨i, hi, hbranch, rfl⟩
  · -- nothing is written
    revert hid h₁ h₂
    generalize instr.uniqueId t.decoder = id
    intro h₁ h₂ hid
    simp only [List.mem_cons, List.not_mem_nil, or_false] at hid
    rcases hid with rfl | rfl
    all_goals
      obtain rfl := done_processOps_none rfl rfl rfl h₂
      obtain ⟨rfl, hm⟩ := done_withoutLink h₁
      obtain ⟨-, rfl, -⟩ := done_pure.mp hm
      exact ⟨rfl, executes_nil, rfl⟩
  · -- the case writes its call, and the tables nothing
    have hrow := tables_mulDiv hop
    rw [controlCase_mulDiv hop] at h₁ ⊢
    obtain rfl := done_processOps_none hrow.1 hrow.2.1 hrow.2.2 h₂
    obtain ⟨rfl, hm⟩ := done_withoutLink h₁
    rw [done_call_eq hm]
    exact ⟨rfl, executes_muldiv hop, rfl⟩
  · -- the tables write the operation, and the case nothing
    have hi' := (mipsInstr_instructionContext (t := t) _ instr reloc).trans hi
    obtain ⟨rfl, rfl⟩ := done_controlCase_row hd hi' hbranch h₁
    refine ⟨rfl, ?_, ?_⟩
    · exact executes_processOps hi' hbranch hreloc
        (fun m hm => hslip m (literalZeroSlip_instructionContext hm)) h₂
    · have hrow : isIntegerRow (instr.uniqueId t.decoder) = true := by
        rw [← mipsInstr_isSome _ instr.operands, hi]
        rfl
      rw [Bool.or_eq_true]
      exact .inr (inTables_of_isIntegerRow hrow)

/-- **What an instruction writes**: its comment, the items of its case, of the tables and of its branch,
and the label behind the slot of a call. -/
theorem done_processBody {index relocIndex : Nat} {emitLinkBranch : Bool} {r : Bool × Bool}
    (hd : t.Described) (hinstr : instr ∈ t.instructions)
    (h : Done (t.processBody instr index slot emitLinkBranch n relocIndex) statics r items statics') :
    ∃ reloc controlLink branchLink l₁ l₂ l₃ l₄ s₁ s₂ s₃,
      (reloc.type = .none ∧ reloc.referenceSymbol = none ∧
        reloc.sectionIndex ≠ sectionEvent.setWidth 32) ∧
      Done ((t.controlCase instr (instr.uniqueId t.decoder) slot n reloc).getD (pure false)) statics
        controlLink l₁ s₁ ∧
      Done (t.processOps (instr.uniqueId t.decoder) (t.instructionContext instr reloc)) s₁ () l₂ s₂ ∧
      Done (((conditionalBranchOps (instr.uniqueId t.decoder)).map fun op =>
        t.processConditionalBranch instr op (t.instructionContext instr reloc) slot n reloc).getD
          (pure false)) s₂ branchLink l₃ s₃ ∧
      (l₄ = [] ∨ ((t.controlCase instr (instr.uniqueId t.decoder) slot n reloc).isSome ||
        inTables (instr.uniqueId t.decoder)) = false) ∧
      items = .call (.comment instr.vram) ::
        (l₁ ++ (l₂ ++ (l₃ ++ (l₄ ++ afterLabel emitLinkBranch n)))) ∧
      r = (controlLink || branchLink,
        ((conditionalBranchOps (instr.uniqueId t.decoder)).map (·.likely)).getD false) := by
  obtain ⟨_, hook, s₁, _, hhook, hcomment, rfl⟩ := done_bind.mp h
  obtain ⟨_, comment, s₂, rest, hcall, hreloc, rfl⟩ := done_bind.mp hcomment
  unfold emitHook at hhook
  rw [hd.noHooks] at hhook
  obtain ⟨-, rfl, rfl⟩ := done_pure.mp hhook
  obtain ⟨rfl, rfl⟩ := done_call hcall
  split at hreloc
  · exact absurd hreloc not_done_abort
  · rename_i reloc hresolve
    unfold processRelocated at hreloc
    rw [hd.translatedId_eq] at hreloc
    obtain ⟨controlLink, l₁, s₃, _, h₁, hops, rfl⟩ := done_bind.mp hreloc
    obtain ⟨_, l₂, s₄, _, h₂, hbranches, rfl⟩ := done_bind.mp hops
    obtain ⟨branchLink, l₃, s₅, _, h₃, hunhandled, rfl⟩ := done_bind.mp hbranches
    obtain ⟨_, l₄, s₆, _, h₄, hlabel, rfl⟩ := done_bind.mp hunhandled
    obtain ⟨_, l₅, s₇, _, h₅, hreturn, rfl⟩ := done_bind.mp hlabel
    obtain ⟨rfl, rfl, -⟩ := done_pure.mp hreturn
    obtain rfl := done_afterLabel h₅
    refine ⟨reloc, controlLink, branchLink, l₁, l₂, l₃, l₄, _, _, _,
      hd.unrelocated instr hinstr _ _ hresolve, h₁, h₂, h₃, ?_, ?_, rfl⟩
    · rw [done_when] at h₄
      split at h₄
      · rename_i hnone
        exact .inr (Bool.not_eq_true' _ ▸ hnone)
      · exact .inl h₄.1
    · simp only [List.nil_append, List.append_nil, List.cons_append]

/-- **The items of an instruction that is no transfer** do what it does, in front of the label behind
the slot of a call. -/
theorem executes_processInstruction {rest : List InstructionCpu} {index relocIndex : Nat}
    {emitLinkBranch : Bool} {r : Bool × Bool} (hd : t.Described)
    (hflow : instr.flow t.decoder = some (.op o)) (hinstr : instr ∈ t.instructions)
    (h : Done (t.processInstruction (instr :: rest) index emitLinkBranch n relocIndex) statics r
      items statics') :
    r = (false, false) ∧ ∃ body, items = body ++ afterLabel emitLinkBranch n ∧
      t.Executes host body o := by
  have hbody : ∃ slot, Done (t.processBody instr index slot emitLinkBranch n relocIndex) statics r
      items statics' := by
    cases rest with
    | nil => exact ⟨_, h⟩
    | cons next rest => exact ⟨_, h⟩
  obtain ⟨slot, hdone⟩ := hbody
  obtain ⟨reloc, _, branchLink, l₁, l₂, l₃, l₄, s₁, s₂, s₃, ⟨htype, -, -⟩, h₁, h₂, h₃, h₄, rfl, rfl⟩ :=
    done_processBody hd hinstr hdone
  obtain ⟨rfl, hexecutes, hhandled⟩ := executes_case host hd hflow hinstr htype h₁ h₂
  have hbranch := (not_mem_of_not_isTransfer (isTransfer_of_flow_op hflow)).2
  rw [hbranch] at h₃
  obtain ⟨rfl, rfl, -⟩ := done_pure.mp h₃
  obtain rfl := h₄.resolve_right fun hnone => by
    rw [hhandled] at hnone
    cases hnone
  refine ⟨by rw [hbranch]; rfl, .call (.comment instr.vram) :: (l₁ ++ l₂), ?_,
    hexecutes.comment _⟩
  simp only [List.nil_append, List.cons_append, List.append_assoc]

/-! ### Slots -/

theorem accepts_call (c : Call) : Accepts (t.call c) := by
  unfold call
  split
  · exact accepts_write _
  · exact accepts_abort _

theorem accepts_processOps : Accepts (t.processOps id ctx) := by
  have hfrs : ∀ check operands, Accepts (t.checkFrs check ctx operands) := by
    refine fun check operands => (accepts_forM fun operand _ => ?_).when
    unfold doCheckFr
    split <;> first | exact accepts_call _ | exact accepts_pure _
  have hnans : ∀ check operands, Accepts (t.checkNans check ctx operands) := by
    refine fun check operands => (accepts_forM fun operand _ => ?_).when
    unfold doCheckNan
    split <;> first | exact accepts_call _ | exact accepts_pure _
  refine Accepts.bind ?_ fun _ => Accepts.bind ?_ fun _ => ?_
  · exact accepts_forM fun op _ => (hfrs _ _).bind fun _ => (hnans _ _).bind fun _ => accepts_call _
  · exact accepts_forM fun op _ => (hfrs _ _).bind fun _ => (hnans _ _).bind fun _ => accepts_call _
  · exact accepts_forM fun op _ => (hfrs _ _).bind fun _ => accepts_call _

/-- An instruction that is no transfer is not refused. -/
theorem accepts_processInstruction {rest : List InstructionCpu} {index relocIndex : Nat}
    {emitLinkBranch : Bool} (hd : t.Described) (hflow : instr.flow t.decoder = some (.op o)) :
    Accepts (t.processInstruction (instr :: rest) index emitLinkBranch n relocIndex) := by
  obtain ⟨hcontrol, hbranch⟩ := not_mem_of_not_isTransfer (isTransfer_of_flow_op hflow)
  have hcase : ∀ slot reloc, Accepts ((t.controlCase instr (instr.uniqueId t.decoder) slot n
      reloc).getD (pure false)) := by
    intro slot reloc
    have hwithout : ∀ {m : Emission Unit}, Accepts m → Accepts (withoutLink m) :=
      fun hm => hm.bind fun _ => accepts_pure _
    have haddend : Accepts (t.emitJtblAddend instr) := by
      unfold emitJtblAddend
      split
      · exact accepts_call _
      · exact accepts_pure _
    rcases flow_op hflow with ⟨hid, -⟩ | ⟨op, hop, -⟩ | ⟨i, hi, -, -⟩
    · simp only [List.mem_cons, List.not_mem_nil, or_false] at hid
      rcases hid with hid | hid <;> rw [hid] <;> exact hwithout (accepts_pure _)
    · rw [controlCase_mulDiv hop]
      exact hwithout (accepts_call _)
    · rcases controlCase_row slot n reloc hi hbranch with hcase | hcase <;> rw [hcase]
      · exact hwithout haddend
      · exact accepts_pure _
  have hbody : ∀ slot, Accepts (t.processBody instr index slot emitLinkBranch n relocIndex) := by
    intro slot
    refine Accepts.bind ?_ fun _ => (accepts_call _).bind fun _ => ?_
    · unfold emitHook
      split
      · exact accepts_write _
      · exact accepts_pure _
    · split
      · exact accepts_abort _
      · unfold processRelocated
        rw [hd.translatedId_eq]
        dsimp only
        rw [hbranch]
        exact (hcase _ _).bind fun _ => accepts_processOps.bind fun _ => (accepts_pure _).bind
          fun _ => (accepts_write _).when.bind fun _ => (accepts_call _).when.bind fun _ =>
            accepts_pure _
  cases rest with
  | nil => exact hbody _
  | cons next rest => exact hbody _

end Tables

end Translation

end N64Recomp
