import N64Recomp.Recompilation.Simulation

/-!
# The transfers of an emitted body

The items that an emitted body has for an instruction that transfers control, around those of the
instruction in its slot.

## Main definitions

* `Translation.SlotItems`, `Body.TransferItems`: the items of a slot, and of a transfer around them

## Main results

* `Body.exists_jump`, `Body.exists_branch`: the items of the direct transfers
* `Body.exists_return`, `Body.exists_tailcall`, `Body.exists_callRegister`: those through a register
-/

namespace N64Recomp

open Emit FlatCode Mips

namespace Translation

variable {t : Translation}

/-- The items that go nowhere neither open a block nor close one. -/
theorem plain_of_isBracket {host : HostFunctions} {i : Item} (h : i.isBracket = false) :
    Plain (t.execution host) i := by
  cases i with
  | call c => cases c <;> first | exact ⟨rfl, rfl⟩ | cases h
  | raw r => cases r <;> first | exact ⟨rfl, rfl⟩ | cases h

/-! ### The items of a transfer -/

variable (t) in
/-- The items of the slot behind an instruction: they do what the instruction in the slot does. -/
structure SlotItems (host : HostFunctions) (j : Nat) (items : List Item) : Prop where
  plain : ∀ i ∈ items, Plain (t.execution host) i
  executes : ∀ o, t.code (t.vramAt (j + 1)) = some (.op o) → t.Executes host items o

variable {statics statics' : Statics} {items : List Item} {j : Nat}

/-- The translation of the instruction in a slot. -/
theorem slotItems_of_done (host : HostFunctions) {next : InstructionCpu} {rest : List InstructionCpu}
    {index n relocIndex : Nat} (hregular : t.Regular) (hd : t.Described)
    (hnext : t.instructions[j + 1]? = some next)
    (hplain : isTransfer (t.translatedId next) = false) {u : Unit}
    (h : Done (do
      let _ ← t.processInstruction (next :: rest) index false n relocIndex
      pure ()) statics u items statics') : t.SlotItems host j items := by
  obtain ⟨r, l, s₁, _, hdone, hpure, rfl⟩ := done_bind.mp h
  obtain ⟨-, rfl, -⟩ := done_pure.mp hpure
  obtain ⟨hj, rfl⟩ := List.getElem?_eq_some_iff.mp hnext
  rw [List.append_nil]
  constructor
  · intro i hi
    exact plain_of_isBracket ((straight_processInstruction hplain).done hdone i hi).plain
  · intro o hcode
    obtain ⟨_, hflow⟩ := hregular.flow_of_code (Nat.le_of_lt hj) hcode
    have hbody : r = (false, false) ∧ ∃ body, l = body ++ afterLabel false n ∧
        t.Executes host body o :=
      executes_processInstruction hd hflow (List.getElem_mem hj) hdone
    obtain ⟨-, body, rfl, hexecutes⟩ := hbody
    rwa [afterLabel, if_neg Bool.false_ne_true, List.append_nil]

/-- The operations write nothing for a transfer. -/
theorem tables_of_isTransfer {id : InstrId} (h : isTransfer id = true) :
    binaryOps id = none ∧ unaryOps id = none ∧ storeOps id = none := by
  cases id <;> first | exact ⟨rfl, rfl, rfl⟩ | cases h

/-- A transfer is a conditional branch, or has a case of its own. -/
theorem controlCase_of_isTransfer {id : InstrId} (h : isTransfer id = true)
    (instr : InstructionCpu) (slot : Emission Unit) (n : Nat) (reloc : RelocInfo) :
    (∃ op, conditionalBranchOps id = some op ∧ t.controlCase instr id slot n reloc = none) ∨
      (conditionalBranchOps id = none ∧ ∃ m, t.controlCase instr id slot n reloc = some m) := by
  cases id <;> first | exact .inl ⟨_, rfl, rfl⟩ | exact .inr ⟨rfl, _, rfl⟩ | cases h

/-- The `if` of a conditional branch goes into its block, or behind the end of it. -/
theorem execCondition_eq {id : InstrId} {ctx : InstructionContext} {row : ConditionalBranchOp}
    {op : BranchOp} {rs rt : Reg} (hrow : conditionalBranchOps id = some row)
    (hi : mipsInstr id ctx = some (.branch op rs rt)) (hr : ctx.relocType = .none)
    (hslip : ∀ m, ¬LiteralZeroSlip id ctx m) (f : HostFrame) :
    execCondition (CGenerator.branchCondition row ctx) f =
      if op.eval f.machine.toMips.fpCondition (f.machine.toMips.gpr rs) (f.machine.toMips.gpr rt)
        then .next f else .skip f := by
  obtain ⟨e, m', he, hrun, -⟩ := refines_of_step hi hr (hslip f.machine) (o := ⟨f.machine.toMips, _⟩)
    rfl
  obtain ⟨-, -, -, hrows⟩ := tables_disjoint id
  obtain ⟨hbinary, hunary, -⟩ := hrows (by rw [hrow]; rfl)
  simp only [CGenerator.emitted, hbinary, hunary, hrow] at he
  unfold execCondition
  cases htext : CGenerator.branchCondition row ctx with
  | error e' =>
    rw [htext] at he
    cases Option.some.inj he
  | ok c =>
    rw [htext] at he
    obtain rfl := Except.ok.inj (Option.some.inj he)
    obtain ⟨v, hv, heq⟩ := Option.map_eq_some_iff.mp hrun
    obtain ⟨-, htaken⟩ := Prod.mk.inj heq
    simp only [hv, htaken]

namespace Body

variable (b : t.Body) (host : HostFunctions)

/-- The items of an instruction that transfers control are those of its branch or of its case. -/
structure TransferItems (j : Nat) (slot : Emission Unit) (items : List Item) : Prop where
  slotItems : ∀ statics u l statics', Done slot statics u l statics' → t.SlotItems host j l
  accepts : ∀ o, t.code (t.vramAt (j + 1)) = some (.op o) → Accepts slot
  core : b.lay.core j = .call (.comment (t.vramAt j)) ::
    (items ++ afterLabel (b.lay.state j).needsLinkBranch (b.lay.state j).numLinkBranches)
  handled : ∀ i ∈ items, i.isHandled = true

variable {b}

theorem core_subset (hj : j < t.instructions.length) {i : Item} (hi : i ∈ b.lay.core j) :
    i ∈ b.lay.blocksFrom 0 := by
  refine List.mem_flatMap.mpr ⟨j, List.mem_range'_1.mpr (by omega), ?_⟩
  unfold Layout.block turnItems
  exact List.mem_append_left _ (List.mem_append_right _ hi)

/-- **The items of a transfer**: those of its branch, or those of its case. -/
theorem exists_transferItems (hj : j < t.instructions.length)
    (htransfer : isTransfer ((t.instructions[j]).uniqueId t.decoder) = true) :
    ∃ slot reloc items s₀ s₁, b.TransferItems host j slot items ∧
      reloc.referenceSymbol = none ∧ reloc.sectionIndex ≠ sectionEvent.setWidth 32 ∧
      reloc.type = .none ∧
      ((∃ op, conditionalBranchOps ((t.instructions[j]).uniqueId t.decoder) = some op ∧
        Done (t.processConditionalBranch t.instructions[j] op
          (t.instructionContext t.instructions[j] reloc) slot (b.lay.state j).numLinkBranches reloc)
          s₀ (b.lay.state (j + 1)).needsLinkBranch items s₁) ∨
        conditionalBranchOps ((t.instructions[j]).uniqueId t.decoder) = none ∧
        Done ((t.controlCase t.instructions[j] ((t.instructions[j]).uniqueId t.decoder) slot
          (b.lay.state j).numLinkBranches reloc).getD (pure false)) s₀
          (b.lay.state (j + 1)).needsLinkBranch items s₁) := by
  have hd := b.described
  obtain ⟨next, hnext, hplain⟩ := b.regular.slots j _ (List.getElem?_eq_getElem hj)
    (hd.translatedId_eq _ ▸ htransfer)
  obtain ⟨relocIndex, hdone⟩ := (b.lay.turns j hj).done
  obtain ⟨hlt, hget⟩ := List.getElem?_eq_some_iff.mp hnext
  have hdrop : t.instructions.drop j = t.instructions[j] :: next :: t.instructions.drop (j + 2) := by
    rw [List.drop_eq_getElem_cons hj, List.drop_eq_getElem_cons hlt, hget]
  rw [hdrop] at hdone
  obtain ⟨reloc, controlLink, branchLink, l₁, l₂, l₃, l₄, s₁, s₂, s₃, ⟨htype, hsymbol, hevent⟩,
    h₁, h₂, h₃, h₄, hcore, hr⟩ := done_processBody hd (List.getElem_mem hj) hdone
  obtain ⟨hbinary, hunary, hstore⟩ := tables_of_isTransfer htransfer
  obtain rfl := done_processOps_none hbinary hunary hstore h₂
  obtain ⟨hneeds, -⟩ := Prod.mk.inj hr
  rw [b.regular.vram_getElem hj] at hcore
  have hitems : ∀ items, b.lay.core j = .call (.comment (t.vramAt j)) :: (items ++
      afterLabel (b.lay.state j).needsLinkBranch (b.lay.state j).numLinkBranches) →
      b.TransferItems host j (do
        let _ ← t.processInstruction (next :: t.instructions.drop (j + 2)) (j + 1) false
          (b.lay.state j).numLinkBranches (t.nextRelocIndex t.instructions[j] relocIndex)
        pure ()) items := by
    intro items hcore
    refine ⟨fun _ _ _ _ h => slotItems_of_done host b.regular hd hnext hplain h, fun o hcode => ?_, hcore,
      fun i hi => b.handled i (core_subset hj ?_)⟩
    · obtain ⟨_, hflow⟩ := b.regular.flow_of_code (Nat.le_of_lt hlt) hcode
      rw [hget] at hflow
      exact (accepts_processInstruction hd hflow).bind fun _ => accepts_pure _
    · rw [hcore]
      exact List.mem_cons_of_mem _ (List.mem_append_left _ hi)
  rcases controlCase_of_isTransfer (t := t) htransfer t.instructions[j] _
      (b.lay.state j).numLinkBranches reloc with ⟨op, hop, hcontrol⟩ | ⟨hop, m, hcontrol⟩
  · rw [hcontrol] at h₁
    obtain ⟨rfl, rfl, -⟩ := done_pure.mp h₁
    obtain rfl := h₄.resolve_right fun hnone => by
      rw [hcontrol, inTables, hop] at hnone
      simp at hnone
    rw [hop] at h₃
    rw [Bool.false_or] at hneeds
    exact ⟨_, reloc, l₃, _, _, hitems l₃ (by simpa using hcore), hsymbol, hevent, htype,
      .inl ⟨op, hop, hneeds ▸ h₃⟩⟩
  · rw [hop] at h₃
    obtain ⟨rfl, rfl, -⟩ := done_pure.mp h₃
    obtain rfl := h₄.resolve_right fun hnone => by
      rw [hcontrol] at hnone
      cases hnone
    rw [Bool.or_false] at hneeds
    exact ⟨_, reloc, l₁, _, _, hitems l₁ (by simpa using hcore), hsymbol, hevent, htype,
      .inr ⟨hop, hneeds ▸ h₁⟩⟩

theorem isTransfer_of_mem {id : InstrId} (h : id ∈ [InstrId.j, .b, .jal, .jalr, .jr]) :
    isTransfer id = true := by
  unfold isTransfer
  rw [decide_eq_true h, Bool.true_or]

/-- **The items of a jump.** -/
theorem exists_jump (hj : j < t.instructions.length) {link : Bool} {target : BitVec 32}
    (hflow : (t.instructions[j]).flow t.decoder = some (.jump link target)) :
    ∃ slotItems direct, t.SlotItems host j slotItems ∧
      t.DirectItems (b.lay.state j).numLinkBranches (t.vramAt j) target link slotItems
        (b.lay.state (j + 1)).needsLinkBranch direct ∧
      b.lay.core j = .call (.comment (t.vramAt j)) ::
        (linkItems (t.vramAt j) (if link then some ra else none) ++ direct ++
          afterLabel (b.lay.state j).needsLinkBranch (b.lay.state j).numLinkBranches) := by
  have hd := b.described
  have hvram := b.regular.vram_getElem hj
  obtain ⟨hid, rfl⟩ := flow_jump hflow
  have hmem : (t.instructions[j]).uniqueId t.decoder ∈ [InstrId.j, .b, .jal] := by
    cases link with
    | false => rcases List.mem_pair.mp hid with hid | hid <;> simp [hid]
    | true => simp [show (t.instructions[j]).uniqueId t.decoder = .jal from hid]
  have htransfer := isTransfer_of_mem (List.mem_append_left [.jalr, .jr] hmem)
  obtain ⟨slot, reloc, items, s₀, s₁, hitems, hsymbol, hevent, -, hdone⟩ :=
    b.exists_transferItems host hj htransfer
  obtain ⟨-, hdone⟩ := hdone.resolve_left fun ⟨op, hop, _⟩ => by
    revert hop hmem
    generalize (t.instructions[j]).uniqueId t.decoder = id
    intro hmem hop
    simp only [List.mem_cons, List.not_mem_nil, or_false] at hmem
    rcases hmem with rfl | rfl | rfl <;> cases hop
  cases link with
  | false =>
    have hjump : Done (withoutLink (t.emitJump t.instructions[j] slot)) s₀
        (b.lay.state (j + 1)).needsLinkBranch items s₁ := by
      rcases List.mem_pair.mp hid with hid | hid <;> rw [hid] at hdone <;> exact hdone
    obtain ⟨hneeds, hdone⟩ := done_withoutLink hjump
    have hmoves := hd.moves _ (List.getElem_mem hj) _ hflow
    obtain ⟨slotItems, _, _, hslot, hdirect⟩ :=
      done_emitJump (n := (b.lay.state j).numLinkBranches) b.entries hmoves hitems.handled hdone
    rw [hvram] at hdirect
    refine ⟨slotItems, items, hitems.slotItems _ _ _ _ hslot, ?_, hitems.core⟩
    rw [hneeds]
    exact hdirect
  | true =>
    rw [show (t.instructions[j]).uniqueId t.decoder = .jal from hid] at hdone
    obtain ⟨slotItems, _, _, direct, hslot, hdirect, rfl⟩ :=
      done_emitJal b.entries hevent hsymbol hitems.handled hdone
    have hcore := hitems.core
    rw [hvram] at hdirect hcore
    exact ⟨slotItems, direct, hitems.slotItems _ _ _ _ hslot, hdirect, hcore⟩

/-- **The items of a conditional branch.** -/
theorem exists_branch (hj : j < t.instructions.length) {op : BranchOp} {rs rt : Reg}
    {link likely : Bool} {target : BitVec 32}
    (hflow : (t.instructions[j]).flow t.decoder = some (.branch op rs rt link likely target)) :
    ∃ slotItems direct row ctx, t.SlotItems host j slotItems ∧
      t.DirectItems (b.lay.state j).numLinkBranches (t.vramAt j) target link slotItems
        (b.lay.state (j + 1)).needsLinkBranch direct ∧
      (b.lay.state (j + 1)).inLikelyDelaySlot = likely ∧
      (∀ f : HostFrame, execCondition (CGenerator.branchCondition row ctx) f =
        if op.eval f.machine.toMips.fpCondition (f.machine.toMips.gpr rs) (f.machine.toMips.gpr rt)
          then .next f else .skip f) ∧
      b.lay.core j = .call (.comment (t.vramAt j)) ::
        (linkItems (t.vramAt j) (if link then some ra else none) ++
          .call (.branchCondition row ctx) :: (direct ++ .call .branchClose ::
            afterLabel (b.lay.state j).needsLinkBranch (b.lay.state j).numLinkBranches)) := by
  have hd := b.described
  have hvram := b.regular.vram_getElem hj
  obtain ⟨row, hrow, hi, rfl, rfl, rfl⟩ := flow_branch hflow
  have htransfer : isTransfer ((t.instructions[j]).uniqueId t.decoder) = true := by
    unfold isTransfer
    rw [hrow, Option.isSome_some, Bool.or_true]
  obtain ⟨slot, reloc, items, s₀, s₁, hitems, hsymbol, hevent, htype, hdone⟩ :=
    b.exists_transferItems host hj htransfer
  obtain ⟨row', hrow', hdone⟩ := hdone.resolve_right fun ⟨hnone, _⟩ => by
    rw [hrow] at hnone
    cases hnone
  obtain rfl := Option.some.inj (hrow.symm.trans hrow')
  obtain ⟨slotItems, _, _, direct, hslot, hdirect, rfl⟩ :=
    done_processConditionalBranch b.entries hevent hsymbol hitems.handled hdone
  have hcore := hitems.core
  rw [hvram] at hdirect hcore
  refine ⟨slotItems, direct, row, t.instructionContext t.instructions[j] reloc,
    hitems.slotItems _ _ _ _ hslot, hdirect, ?_, fun f => ?_, ?_⟩
  · have hlikely := (b.lay.items b.regular hj).likely
    rw [hd.translatedId_eq, hrow] at hlikely
    exact hlikely
  · exact execCondition_eq hrow ((mipsInstr_instructionContext _ _ _).trans hi) htype
      (fun m hm => hd.literals _ (List.getElem_mem hj) m (literalZeroSlip_instructionContext hm)) f
  · rw [hcore]
    simp only [List.append_assoc, List.cons_append, List.nil_append]

/-- **The items of a return through `$ra`.** -/
theorem exists_return (hj : j < t.instructions.length)
    (hflow : (t.instructions[j]).flow t.decoder = some (.jumpReg none ra)) :
    ∃ slotItems rest, t.SlotItems host j slotItems ∧
      b.lay.core j = .call (.comment (t.vramAt j)) :: .raw (.jrOpen (t.vramAt j)) :: (slotItems ++
        (.raw (.jrTargetVram (t.vramAt j) t.func.sectionIndex t.funcSection.ramAddr
          t.funcSection.size) :: (t.jrCaseItems (t.vramAt j) ++
            .raw (.jrHostReturn (t.vramAt j) t.context.traceMode) ::
              .call (.return_ t.funcIndex) :: rest))) := by
  have hd := b.described
  have hvram := b.regular.vram_getElem hj
  obtain ⟨hrs, hid⟩ := flow_jumpReg hflow
  obtain ⟨hid, -⟩ := hid.resolve_right fun h => by cases h.2
  obtain ⟨slot, reloc, items, s₀, s₁, hitems, -, -, -, hdone⟩ :=
    b.exists_transferItems host hj (isTransfer_of_mem (by simp [hid]))
  rw [hid] at hdone
  obtain ⟨-, hdone⟩ := hdone.resolve_left fun ⟨_, hop, _⟩ => by cases hop
  obtain ⟨-, hdone⟩ := done_withoutLink hdone
  unfold emitJr at hdone
  rw [if_pos (show (t.instructions[j]).rs = regRa from hrs.symm)] at hdone
  obtain ⟨slotItems, _, hslot, rfl⟩ := done_emitJrRaReturn hdone
  have hcore := hitems.core
  rw [hvram] at hcore
  refine ⟨slotItems, .raw .jrClose ::
    afterLabel (b.lay.state j).needsLinkBranch (b.lay.state j).numLinkBranches,
    hitems.slotItems _ _ _ _ hslot, hcore.trans ?_⟩
  simp only [List.append_assoc, List.cons_append, List.nil_append]

/-- **The items of a tail call through a register.** -/
theorem exists_tailcall (hj : j < t.instructions.length) {link : Option Reg} {rs : Reg}
    (hflow : (t.instructions[j]).flow t.decoder = some (.jumpReg link rs)) (hlink : link ≠ some ra)
    (hrs : link = none → rs ≠ ra) {o : Op} (hcode : t.code (t.vramAt (j + 1)) = some (.op o)) :
    ∃ slotItems rest, t.SlotItems host j slotItems ∧
      b.lay.core j = .call (.comment (t.vramAt j)) ::
        (linkItems (t.vramAt j) (if link = some 0 then none else link) ++
          (slotItems ++ (t.tailcallRegisterItems rs ++ rest))) := by
  have hd := b.described
  have hvram := b.regular.vram_getElem hj
  obtain ⟨rfl, ⟨hid, rfl⟩ | ⟨hid, rfl⟩⟩ := flow_jumpReg hflow
  · obtain ⟨slot, reloc, items, s₀, s₁, hitems, -, -, -, hdone⟩ :=
      b.exists_transferItems host hj (isTransfer_of_mem (by simp [hid]))
    rw [hid] at hdone
    obtain ⟨-, hdone⟩ := hdone.resolve_left fun ⟨_, hop, _⟩ => by cases hop
    obtain ⟨-, hdone⟩ := done_withoutLink hdone
    unfold emitJr at hdone
    rw [if_neg (show (t.instructions[j]).rs ≠ regRa from hrs rfl)] at hdone
    obtain ⟨slotItems, _, _, hslot, rfl⟩ := done_emitJrRegister hd (hitems.accepts o hcode) hdone
    refine ⟨slotItems, afterLabel (b.lay.state j).needsLinkBranch (b.lay.state j).numLinkBranches,
      hitems.slotItems _ _ _ _ hslot, hitems.core.trans ?_⟩
    simp only [List.append_assoc]
    rfl
  · obtain ⟨slot, reloc, items, s₀, s₁, hitems, -, -, -, hdone⟩ :=
      b.exists_transferItems host hj (isTransfer_of_mem (by simp [hid]))
    rw [hid] at hdone
    obtain ⟨-, hdone⟩ := hdone.resolve_left fun ⟨_, hop, _⟩ => by cases hop
    obtain ⟨slotItems, _, _, hslot, hrd⟩ := done_emitJalr hdone
    rw [if_neg fun heq : (t.instructions[j]).rd = regRa => hlink (congrArg some heq)] at hrd
    obtain ⟨-, rfl⟩ := hrd
    have hcore := hitems.core
    rw [hvram] at hcore
    refine ⟨slotItems, afterLabel (b.lay.state j).needsLinkBranch (b.lay.state j).numLinkBranches,
      hitems.slotItems _ _ _ _ hslot, hcore.trans ?_⟩
    by_cases hzero : (t.instructions[j]).rd = 0
    · rw [if_pos hzero, if_pos (congrArg some hzero)]
      simp only [List.append_assoc]
    · rw [if_neg hzero, if_neg fun heq => hzero (Option.some.inj heq)]
      simp only [List.append_assoc]

/-- **The items of a call through a register.** -/
theorem exists_callRegister (hj : j < t.instructions.length) {rs : Reg}
    (hflow : (t.instructions[j]).flow t.decoder = some (.jumpReg (some ra) rs)) :
    ∃ slotItems labels rest, t.SlotItems host j slotItems ∧
      (b.lay.state (j + 1)).needsLinkBranch = true ∧
      b.lay.core j = .call (.comment (t.vramAt j)) :: (linkItems (t.vramAt j) (some ra) ++
        (slotItems ++ .call (.functionCallByRegister rs labels) ::
          .call (.goto (.after (b.lay.state j).numLinkBranches)) :: rest)) := by
  have hd := b.described
  have hvram := b.regular.vram_getElem hj
  obtain ⟨rfl, hid⟩ := flow_jumpReg hflow
  obtain ⟨hid, hrd⟩ := hid.resolve_left fun h => by cases h.2
  obtain ⟨slot, reloc, items, s₀, s₁, hitems, -, -, -, hdone⟩ :=
    b.exists_transferItems host hj (isTransfer_of_mem (by simp [hid]))
  rw [hid] at hdone
  obtain ⟨-, hdone⟩ := hdone.resolve_left fun ⟨_, hop, _⟩ => by cases hop
  obtain ⟨slotItems, _, _, hslot, hcall⟩ := done_emitJalr hdone
  rw [if_pos (show (t.instructions[j]).rd = regRa from (Option.some.inj hrd).symm)] at hcall
  obtain ⟨hneeds, labels, rfl⟩ := hcall
  have hcore := hitems.core
  rw [hvram] at hcore
  refine ⟨slotItems, labels,
    afterLabel (b.lay.state j).needsLinkBranch (b.lay.state j).numLinkBranches,
    hitems.slotItems _ _ _ _ hslot, hneeds, hcore.trans ?_⟩
  simp only [List.append_assoc, List.cons_append, List.nil_append]

end Body

end Translation

end N64Recomp
