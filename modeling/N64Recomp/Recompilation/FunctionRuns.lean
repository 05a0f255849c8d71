import N64Recomp.Recompilation.BodyTransfers

/-!
# The runs of an emitted function

A run of the guest in a function, with the calls that it makes, is a run of the body that is emitted
for it. Where the guest leaves the function, the body returns, and the frame says where the guest goes
on.

## Main results

* `Body.step_simulates`, `Body.exit_simulates`: a step of the guest, and one that leaves
* `Body.run_simulates`: the runs of the guest in a function
* `recompiled_function_simulates`: the function that is emitted
-/

namespace N64Recomp

open Emit FlatCode Mips

namespace Translation

variable {t : Translation} {host : HostFunctions}

theorem vramAt_add_eight (j : Nat) : t.vramAt j + 8 = t.vramAt (j + 2) := by
  rw [vramAt_succ, vramAt_succ, BitVec.add_assoc]
  rfl

/-! ### The items of a direct transfer -/

section Direct

variable {n : Nat} {vram target : BitVec 32} {link needs : Bool} {slotItems direct : List Item}

variable (host) in
/-- The text of a call that enters an address. -/
theorem callEffect_of_callsAddress {c : Call} (h : t.CallsAddress target c) :
    ∃ called labels, called.Enters t.context target ∧ (Item.call c).targets = labels.targets ∧
      ∀ f, (t.execution host).effect (.call c) f = host.callText called labels f := by
  cases h with
  | @function i func labels hfunc hentry =>
    refine ⟨.named func.name, labels, .inl ⟨i, func, hfunc, rfl, hentry⟩, rfl, fun f => ?_⟩
    change t.callEffect host f (.functionCall i labels) = _
    unfold callEffect
    dsimp only
    rw [hfunc]
  | @static i labels => exact ⟨.named _, labels, .inr ⟨i, rfl⟩, rfl, fun f => rfl⟩
  | @lookup labels => exact ⟨.lookup target, labels, rfl, rfl, fun f => rfl⟩

theorem plain_traceItems : ∀ i ∈ t.traceItems, Plain (t.execution host) i := by
  intro i hi
  unfold traceItems at hi
  split at hi
  · obtain rfl := List.mem_singleton.mp hi
    exact ⟨rfl, rfl⟩
  · cases hi

/-- The items of a direct transfer neither open a block nor close one. -/
theorem DirectItems.plain (h : t.DirectItems n vram target link slotItems needs direct)
    (hslot : ∀ i ∈ slotItems, Plain (t.execution host) i) :
    ∀ i ∈ direct, Plain (t.execution host) i := by
  cases h with
  | inside hin hcheckpoint =>
    refine List.forall_mem_append.mpr ⟨hslot, List.forall_mem_append.mpr ⟨?_, ?_⟩⟩
    · rcases hcheckpoint with rfl | rfl
      · exact List.forall_mem_nil _
      · exact List.forall_mem_singleton.mpr ⟨rfl, rfl⟩
    · exact List.forall_mem_singleton.mpr ⟨rfl, rfl⟩
  | tail hout hlink hrequest =>
    refine List.forall_mem_append.mpr ⟨hslot, List.forall_mem_cons.mpr ⟨⟨rfl, rfl⟩,
      List.forall_mem_cons.mpr ⟨?_, List.forall_mem_append.mpr ⟨plain_traceItems,
        List.forall_mem_singleton.mpr ⟨rfl, rfl⟩⟩⟩⟩⟩
    cases hrequest <;> exact ⟨rfl, rfl⟩
  | call hout hlink hc =>
    refine List.forall_mem_append.mpr ⟨hslot, List.forall_mem_cons.mpr ⟨?_,
      List.forall_mem_singleton.mpr ⟨rfl, rfl⟩⟩⟩
    cases hc <;> exact ⟨rfl, rfl⟩

end Direct

namespace Body

variable {b : t.Body} {f : HostFrame} {j : Nat} {n : Nat} {vram target : BitVec 32}
  {link needs : Bool} {slotItems direct rest : List Item} {o : Op} {s' : State 30}

/-- A run that arrives at an instruction of the function. -/
def Arrives (b : t.Body) (host : HostFunctions) (c : List Item × HostFrame) (pc : BitVec 32)
    (s : State 30) : Prop :=
  ∃ k ≤ t.instructions.length, pc = t.vramAt k ∧ ∃ f, Steps (t.execution host) b.items c
    (b.codeAt k, f) ∧ f.machine.toMips = s ∧ f.Settled b.around

theorem Arrives.after {c c' : List Item × HostFrame} {pc : BitVec 32} {s : State 30}
    (h : b.Arrives host c' pc s) (hsteps : Steps (t.execution host) b.items c c') :
    b.Arrives host c pc s := by
  obtain ⟨k, hk, hpc, f, hrun, hf⟩ := h
  exact ⟨k, hk, hpc, f, hsteps.trans hrun, hf⟩

/-- A run that leaves the body, and the guest goes on at an address. -/
def LeavesTo (b : t.Body) (host : HostFunctions) (c : List Item × HostFrame) (pc : BitVec 32)
    (s : State 30) : Prop :=
  ∃ g, Leaves (t.execution host) b.items c () g ∧ g.machine.toMips = s ∧
    t.context.ContinuesAt g pc ∧ g.surroundings = b.around

/-- A run that leaves the body, and returns where the host's caller waits for the address. -/
def ReturnsTo (b : t.Body) (host : HostFunctions) (c : List Item × HostFrame) (pc : BitVec 32)
    (s : State 30) : Prop :=
  ∃ g, Leaves (t.execution host) b.items c () g ∧ g.machine.toMips = s ∧
    t.context.ContinuesAt g pc ∧ g.surroundings = b.around ∧
    (g.hostReturnTarget = pc → g.tailcallPending = false)

theorem ReturnsTo.leavesTo {c : List Item × HostFrame} {pc : BitVec 32} {s : State 30}
    (h : b.ReturnsTo host c pc s) : b.LeavesTo host c pc s := by
  obtain ⟨g, hleaves, hstate, hcontinues, haround, -⟩ := h
  exact ⟨g, hleaves, hstate, hcontinues, haround⟩

theorem ReturnsTo.after {c c' : List Item × HostFrame} {pc : BitVec 32} {s : State 30}
    (h : b.ReturnsTo host c' pc s) (hsteps : Steps (t.execution host) b.items c c') :
    b.ReturnsTo host c pc s := by
  obtain ⟨g, hleaves, hg⟩ := h
  exact ⟨g, hsteps.leaves hleaves, hg⟩

theorem LeavesTo.after {c c' : List Item × HostFrame} {pc : BitVec 32} {s : State 30}
    (h : b.LeavesTo host c' pc s) (hsteps : Steps (t.execution host) b.items c c') :
    b.LeavesTo host c pc s := by
  obtain ⟨g, hleaves, hg⟩ := h
  exact ⟨g, hsteps.leaves hleaves, hg⟩

section Direct

variable (hdirect : t.DirectItems n vram target link slotItems needs direct)
  (hslot : t.Executes host slotItems o) (hf : f.Settled b.around)
  (hexec : o.exec window f.machine.toMips = some s')

include hdirect hslot hf hexec

/-- A jump inside of the function. -/
theorem arrives_direct (hin : t.func.contains target = true) (hlocal : t.IsLocal target) :
    b.Arrives host (direct ++ rest, f) target s' := by
  cases hdirect with
  | @inside hin checkpoint hcheckpoint =>
    obtain ⟨k, hk, rfl⟩ := b.regular.exists_of_isLocal hin hlocal
    obtain ⟨machine, result, hsteps, hstate, hsettled⟩ := b.steps_slot hslot hf hexec
    refine ⟨k, Nat.le_of_lt hk, rfl, _, ?_, hstate, hsettled⟩
    rw [List.append_assoc]
    refine (hsteps _).trans ?_
    have hgoto : ∀ g, Steps (t.execution host) b.items
        (.call (.goto (.at_ (t.vramAt k))) :: rest, g) (b.codeAt k, g) :=
      fun g => steps_goto hk hlocal rfl
    rcases hcheckpoint with rfl | rfl
    · exact hgoto _
    · exact (step_next rfl).trans (hgoto _)
  | tail hout => rw [hout] at hin; cases hin
  | call hout => rw [hout] at hin; cases hin

/-- A jump out of the function. -/
theorem leaves_direct (hout : t.func.contains target = false) (hlink : link = false) :
    b.LeavesTo host (direct ++ rest, f) target s' := by
  cases hdirect with
  | inside hin => rw [hout] at hin; cases hin
  | @tail hout _ request hrequest =>
    obtain ⟨machine, result, hsteps, hstate, hsettled⟩ := b.steps_slot hslot hf hexec
    have hleaves : ∃ g, Leaves (t.execution host) b.items
        (t.tailcallItems target request ++ rest, { f with machine, result }) () g ∧
        g.machine = machine ∧ t.context.ContinuesAt g target ∧ g.surroundings = b.around :=
      leaves_tailcall hrequest hsettled
    obtain ⟨g, hleaves, hmachine, hg⟩ := hleaves
    refine ⟨g, ?_, hmachine ▸ hstate, hg⟩
    rw [List.append_assoc]
    exact (hsteps _).leaves hleaves
  | call _ hlink' => rw [hlink] at hlink'; cases hlink'

/-- A call of a function out of this one, that the guest's function returns from. -/
theorem steps_call (rest : List Item) {inside : BitVec 32 → Prop}
    {calls : BitVec 32 → State 30 → State 30 → Prop} {s₂ : State 30}
    (hhost : host.Simulates t.context b.around inside calls)
    (hmiss : ∀ i ∈ direct, ∀ v, ¬inside v → Label.at_ v ∉ i.targets)
    (hout : t.func.contains target = false) (hlink : link = true) (hcall : calls target s' s₂) :
    needs = true ∧ ∃ f', Steps (t.execution host) b.items (direct ++ rest, f)
        (.call (.goto (.after n)) :: rest, f') ∧
      f'.machine.toMips = s'.behindCall s₂ ∧ f'.Settled b.around := by
  cases hdirect with
  | inside hin => rw [hout] at hin; cases hin
  | tail _ hlink' => rw [hlink] at hlink'; cases hlink'
  | @call _ _ c hc =>
    obtain ⟨machine, result, hsteps, rfl, hsettled⟩ := b.steps_slot hslot hf hexec
    obtain ⟨called, labels, henters, htargets, heffect⟩ := callEffect_of_callsAddress host hc
    have hmisses : ∀ v, ¬inside v → Label.at_ v ∉ labels.targets := by
      rw [← htargets]
      exact hmiss _ (List.mem_append_right _ List.mem_cons_self)
    obtain ⟨g, hg, hstate, hsettled', -⟩ :=
      HostFunctions.callText_simulates hhost labels hmisses henters hsettled hcall
    refine ⟨rfl, g, ?_, hstate, hsettled'⟩
    rw [List.append_assoc]
    exact (hsteps _).trans (step_next ((heffect _).trans hg))

end Direct

/-! ### The steps of the guest -/

theorem codeAt_eq (hj : j < t.instructions.length) : b.codeAt j = b.lay.core j ++
    (skipLabel (b.lay.state j) ++ (b.lay.blocksFrom (j + 1) ++ b.back)) := if_pos hj

theorem steps_afterLabel {emitLinkBranch : Bool} :
    Steps (t.execution host) b.items (afterLabel emitLinkBranch n ++ rest, f) (rest, f) := by
  unfold afterLabel
  split
  · exact step_label
  · exact .refl

/-- **An instruction that does not transfer control.** -/
theorem arrives_op (hj : j < t.instructions.length)
    (hflow : (t.instructions[j]).flow t.decoder = some (.op o)) (hf : f.Settled b.around)
    (hexec : o.exec window f.machine.toMips = some s') :
    b.Arrives host (b.codeAt j, f) (t.vramAt j + 4) s' := by
  obtain ⟨relocIndex, hdone⟩ := (b.lay.turns j hj).done
  rw [List.drop_eq_getElem_cons hj] at hdone
  have hbody : ((b.lay.state (j + 1)).needsLinkBranch, (b.lay.state (j + 1)).inLikelyDelaySlot) =
      (false, false) ∧ ∃ body, b.lay.core j = body ++
        afterLabel (b.lay.state j).needsLinkBranch (b.lay.state j).numLinkBranches ∧
        t.Executes host body o :=
    executes_processInstruction b.described hflow (List.getElem_mem hj) hdone
  obtain ⟨hstate, body, hcore, hexecutes⟩ := hbody
  obtain ⟨machine, result, hsteps, hmachine, hsettled⟩ := b.steps_slot hexecutes hf hexec
  refine ⟨j + 1, hj, (vramAt_succ j).symm, _, ?_, hmachine, hsettled⟩
  rw [codeAt_eq hj, hcore, List.append_assoc]
  exact ((hsteps _).trans steps_afterLabel).trans (steps_behind hj (Prod.mk.inj hstate).2)

/-- The condition of a branch reads what its link leaves. -/
theorem eval_link (hd : t.Described) {op : BranchOp} {rs rt : Reg} {likely : Bool}
    (hj : j < t.instructions.length)
    (hflow : (t.instructions[j]).flow t.decoder = some (.branch op rs rt link likely target))
    (s : State 30) :
    let s₁ := t.cpu.link (t.vramAt j) s (if link then some ra else none)
    op.eval s₁.fpCondition (s₁.gpr rs) (s₁.gpr rt) =
      op.eval s.fpCondition (s.gpr rs) (s.gpr rt) := by
  cases link with
  | false => rfl
  | true =>
    obtain ⟨hrs, hrt⟩ := hd.branchLinks _ (List.getElem_mem hj) _ _ _ _ _ hflow
    have hgpr : ∀ q, q ≠ ra → (t.cpu.link (t.vramAt j) s (some ra)).gpr q = s.gpr q :=
      fun q hq => Cpu.link_gpr fun heq => hq (Option.some.inj heq).symm
    dsimp only
    rw [if_pos rfl, hgpr rs hrs, hgpr rt hrt]
    rfl

theorem link_ne_zero (link : Bool) : (if link then some ra else none) ≠ some (0 : Reg) := by
  cases link <;> decide

/-- **A branch that is not taken**, whose slot is jumped over when the branch is a likely one. -/
theorem arrives_notTaken {op : BranchOp} {rs rt : Reg} {likely : Bool}
    (hj : j < t.instructions.length)
    (hflow : (t.instructions[j]).flow t.decoder = some (.branch op rs rt link likely target))
    (hf : f.Settled b.around) (hcond : op.eval f.machine.toMips.fpCondition (f.machine.toMips.gpr rs)
      (f.machine.toMips.gpr rt) = false) :
    b.Arrives host (b.codeAt j, f) (if likely then t.vramAt j + 8 else t.vramAt j + 4)
      (t.cpu.link (t.vramAt j) f.machine.toMips (if link then some ra else none)) := by
  obtain ⟨slotItems, direct, row, ctx, hslot, hdirect, hlikely, heffect, hcore⟩ :=
    b.exists_branch host hj hflow
  obtain ⟨machine, hsteps, hmachine, hsettled⟩ :=
    steps_link b host (t.vramAt j) (link_ne_zero link) hf
  have hskip : (t.execution host).effect (.call (.branchCondition row ctx)) { f with machine } =
      .skip { f with machine } := by
    refine (heffect _).trans ?_
    dsimp only
    rw [hmachine, eval_link b.described hj hflow, hcond, if_neg Bool.false_ne_true]
  -- the slot of a likely branch is annulled: the code in front of it jumps over it
  have hbehind : b.Arrives host (skipLabel (b.lay.state j) ++ (b.lay.blocksFrom (j + 1) ++ b.back),
      { f with machine }) (if likely then t.vramAt j + 8 else t.vramAt j + 4)
      (t.cpu.link (t.vramAt j) f.machine.toMips (if link then some ra else none)) := by
    cases likely with
    | true =>
      obtain ⟨hnext, -⟩ := b.lay.slot_of_state b.regular hj (.inr hlikely)
      exact ⟨j + 2, hnext, vramAt_add_eight j, _, steps_annulled hj hlikely, hmachine, hsettled⟩
    | false =>
      exact ⟨j + 1, hj, (vramAt_succ j).symm, _, steps_behind hj hlikely, hmachine, hsettled⟩
  refine hbehind.after ?_
  rw [codeAt_eq hj, hcore]
  simp only [List.cons_append, List.append_assoc]
  have hclose : ∀ {rest}, behindBlock (t.execution host) 0 (direct ++ .call .branchClose :: rest) =
      some rest := behindBlock_append (hdirect.plain hslot.plain) rfl
  exact ((step_next rfl).trans (hsteps _)).trans ((step_skip hskip hclose).trans steps_afterLabel)

/-- **The items of a direct transfer are reached**, with the link written. -/
theorem exists_direct (b : t.Body) (host : HostFunctions) (hj : j < t.instructions.length)
    (hf : f.Settled b.around)
    (hflow : (∃ op rs rt likely,
        (t.instructions[j]).flow t.decoder = some (.branch op rs rt link likely target) ∧
        op.eval f.machine.toMips.fpCondition (f.machine.toMips.gpr rs)
          (f.machine.toMips.gpr rt) = true) ∨
      (t.instructions[j]).flow t.decoder = some (.jump link target)) :
    ∃ slotItems direct rest machine, t.SlotItems host j slotItems ∧
      t.DirectItems (b.lay.state j).numLinkBranches (t.vramAt j) target link slotItems
        (b.lay.state (j + 1)).needsLinkBranch direct ∧
      Steps (t.execution host) b.items (b.codeAt j, f) (direct ++ rest, { f with machine }) ∧
      machine.toMips = t.cpu.link (t.vramAt j) f.machine.toMips (if link then some ra else none) ∧
      HostFrame.Settled b.around { f with machine } ∧
      (t.func.contains target = true → t.IsLocal target) ∧ ∀ i ∈ direct, i ∈ b.lay.core j := by
  obtain ⟨machine, hsteps, hmachine, hsettled⟩ :=
    steps_link b host (t.vramAt j) (link_ne_zero link) hf
  have hlocal : t.translatedId t.instructions[j] ∈ [InstrId.j, .b, .jal] ∨
      (conditionalBranchOps (t.translatedId t.instructions[j])).isSome →
      t.func.contains ((t.instructions[j]).getBranchVramGeneric t.decoder) = true →
        t.IsLocal ((t.instructions[j]).getBranchVramGeneric t.decoder) :=
    isLocal_target b.regular.reaches (List.getElem_mem hj)
  rw [b.described.translatedId_eq] at hlocal
  rcases hflow with ⟨op, rs, rt, likely, hflow, hcond⟩ | hflow
  · obtain ⟨slotItems, direct, row, ctx, hslot, hdirect, -, heffect, hcore⟩ :=
      b.exists_branch host hj hflow
    have hnext : (t.execution host).effect (.call (.branchCondition row ctx)) { f with machine } =
        .next { f with machine } := by
      refine (heffect _).trans ?_
      dsimp only
      rw [hmachine, eval_link b.described hj hflow, hcond, if_pos rfl]
    obtain ⟨row', hrow, -, -, -, rfl⟩ := flow_branch hflow
    refine ⟨slotItems, direct, .call .branchClose ::
      (afterLabel (b.lay.state j).needsLinkBranch (b.lay.state j).numLinkBranches ++
        (skipLabel (b.lay.state j) ++ (b.lay.blocksFrom (j + 1) ++ b.back))),
      machine, hslot, hdirect, ?_, hmachine, hsettled, hlocal (.inr (by rw [hrow]; rfl)),
      fun i hi => by rw [hcore]; simp [hi]⟩
    rw [codeAt_eq hj, hcore]
    simp only [List.cons_append, List.append_assoc]
    exact ((step_next rfl).trans (hsteps _)).trans (step_next hnext)
  · obtain ⟨slotItems, direct, hslot, hdirect, hcore⟩ := b.exists_jump host hj hflow
    obtain ⟨hid, rfl⟩ := flow_jump hflow
    refine ⟨slotItems, direct,
      afterLabel (b.lay.state j).needsLinkBranch (b.lay.state j).numLinkBranches ++
        (skipLabel (b.lay.state j) ++ (b.lay.blocksFrom (j + 1) ++ b.back)),
      machine, hslot, hdirect, ?_, hmachine, hsettled, hlocal (.inl ?_),
      fun i hi => by rw [hcore]; simp [hi]⟩
    · rw [codeAt_eq hj, hcore]
      simp only [List.cons_append, List.append_assoc]
      exact (step_next rfl).trans (hsteps _)
    · cases link with
      | false => rcases List.mem_pair.mp hid with hid | hid <;> simp [hid]
      | true => simp [show (t.instructions[j]).uniqueId t.decoder = .jal from hid]

/-! ### Transfers through a register -/

theorem linkAddress_self (base size target : BitVec 32) : linkAddress base base size target = target :=
  if_neg fun h => h.1 rfl

/-- The labels of a return are those of the function. -/
theorem mem_jrLabels (h : t.Regular) {v : BitVec 32} :
    v ∈ t.branchLabels.elems.filter t.func.contains ↔ v ∈ t.branchLabels := by
  refine List.mem_filter.trans (and_iff_left_of_imp fun hv => ?_)
  obtain ⟨k, -, hk, rfl⟩ := h.aligned v hv
  exact h.contains_vramAt hk

/-- The switch of a return goes to the label that `$ra` has the address of. -/
theorem arrives_jrCaseItems (hf : f.Settled b.around) (hlabel : f.jrTargetVram vram ∈ t.branchLabels) :
    b.Arrives host (t.jrCaseItems vram ++ rest, f) (f.jrTargetVram vram) f.machine.toMips := by
  have hmem := (mem_jrLabels b.regular).mpr hlabel
  obtain ⟨k, -, hk, hvram⟩ := b.regular.aligned _ hlabel
  unfold jrCaseItems
  revert hmem
  cases t.branchLabels.elems.filter t.func.contains with
  | nil => exact fun hmem => absurd hmem List.not_mem_nil
  | cons v labels =>
    intro hmem
    have hcase : ∀ i ∈ (v :: labels).map (fun v => Item.raw (.jrCase v)),
        i ≠ .raw (.jrCase (f.jrTargetVram vram)) → (t.execution host).effect i
          { f with switchValue := f.jrTargetVram vram } =
            .next { f with switchValue := f.jrTargetVram vram } := by
      intro i hi hne
      obtain ⟨w, -, rfl⟩ := List.mem_map.mp hi
      exact if_neg fun heq : f.jrTargetVram vram = w => hne (heq ▸ rfl)
    obtain ⟨rest', hreach⟩ := steps_reach (List.mem_map_of_mem hmem) hcase
      (.raw .jrSwitchClose :: rest)
    refine ⟨k, Nat.le_of_lt hk, hvram, { f with switchValue := f.jrTargetVram vram }, ?_, rfl,
      ⟨hf.around_eq, hf.settled⟩⟩
    simp only [List.cons_append, List.append_assoc, List.nil_append]
    refine (step_next rfl).trans (Relation.ReflTransGen.trans hreach ?_)
    refine steps_goto hk (hvram ▸ .inr hlabel) ?_
    exact (if_pos rfl).trans (by rw [hvram])

/-- The switch of a return is passed when `$ra` has the address of no label. -/
theorem steps_jrCaseItems (b : t.Body) (host : HostFunctions)
    (hlabel : f.jrTargetVram vram ∉ t.branchLabels) :
    ∃ value, ∀ rest, Steps (t.execution host) b.items (t.jrCaseItems vram ++ rest, f)
      (rest, { f with switchValue := value }) := by
  have hmem := mt (mem_jrLabels b.regular).mp hlabel
  unfold jrCaseItems
  revert hmem
  cases t.branchLabels.elems.filter t.func.contains with
  | nil => exact fun _ => ⟨f.switchValue, fun _ => .refl⟩
  | cons v labels =>
    intro hmem
    refine ⟨f.jrTargetVram vram, fun rest => ?_⟩
    simp only [List.cons_append, List.append_assoc, List.nil_append]
    refine (step_next rfl).trans ((steps_pass fun i hi => ?_).trans (step_next rfl))
    obtain ⟨w, hw, rfl⟩ := List.mem_map.mp hi
    exact if_neg fun heq : f.jrTargetVram vram = w => hmem (heq ▸ hw)

theorem loaded_of_settled (b : t.Body) (hf : f.Settled b.around) :
    f.machine.sectionAddresses (t.func.sectionIndex.setWidth 32) = t.funcSection.ramAddr :=
  (congrArg (fun around => around.sectionAddresses (t.func.sectionIndex.setWidth 32))
    hf.around_eq).trans b.loaded

/-- Where the section was linked, the target of a return is the value that the register had. -/
theorem effect_jrTargetVram (hf : f.Settled b.around) :
    rawEffect f (.jrTargetVram vram t.func.sectionIndex t.funcSection.ramAddr t.funcSection.size) =
      .next { f with jrTargetVram := fun v =>
        if v = vram then (f.jrTarget vram).setWidth 32 else f.jrTargetVram v } := by
  unfold rawEffect
  dsimp only
  rw [b.loaded_of_settled hf, linkAddress_self]

/-- **A return through `$ra`**, up to its switch. -/
theorem exists_jrCases (b : t.Body) (host : HostFunctions) (hj : j < t.instructions.length)
    (hflow : (t.instructions[j]).flow t.decoder = some (.jumpReg none ra)) (hf : f.Settled b.around)
    (hcode : t.code (t.vramAt (j + 1)) = some (.op o))
    (hexec : o.exec window f.machine.toMips = some s') :
    ∃ rest g, Steps (t.execution host) b.items (b.codeAt j, f) (t.jrCaseItems (t.vramAt j) ++
        .raw (.jrHostReturn (t.vramAt j) t.context.traceMode) :: .call (.return_ t.funcIndex) ::
          rest, g) ∧
      g.jrTargetVram (t.vramAt j) = word (f.machine.toMips.gpr ra) ∧ g.machine.toMips = s' ∧
      g.Settled b.around := by
  obtain ⟨slotItems, rest, hslot, hcore⟩ := b.exists_return host hj hflow
  let f₁ : HostFrame := { f with
    jrTarget := fun v => if v = t.vramAt j then f.machine.gpr regRa else f.jrTarget v }
  have hf₁ : f₁.Settled b.around := ⟨hf.around_eq, hf.settled⟩
  obtain ⟨machine, result, hsteps, hmachine, hsettled⟩ :=
    b.steps_slot (hslot.executes o hcode) hf₁ hexec
  refine ⟨rest ++ (skipLabel (b.lay.state j) ++ (b.lay.blocksFrom (j + 1) ++ b.back)),
    { f₁ with
      machine
      result
      jrTargetVram := fun v =>
        if v = t.vramAt j then (f₁.jrTarget (t.vramAt j)).setWidth 32 else f.jrTargetVram v },
    ?_, ?_, hmachine, ⟨hsettled.around_eq, hsettled.settled⟩⟩
  · rw [codeAt_eq hj, hcore]
    simp only [List.cons_append, List.append_assoc]
    exact ((step_next rfl).trans (step_next rfl)).trans
      ((hsteps _).trans (step_next (effect_jrTargetVram hsettled)))
  · have htarget : f₁.jrTarget (t.vramAt j) = f.machine.gpr regRa := if_pos rfl
    dsimp only
    rw [if_pos rfl, htarget, toMips_gpr (by decide)]
    rfl

/-- **A return to a label of the function.** -/
theorem arrives_return (hj : j < t.instructions.length)
    (hflow : (t.instructions[j]).flow t.decoder = some (.jumpReg none ra)) (hf : f.Settled b.around)
    (hcode : t.code (t.vramAt (j + 1)) = some (.op o))
    (hexec : o.exec window f.machine.toMips = some s')
    (hlabel : word (f.machine.toMips.gpr ra) ∈ t.branchLabels) :
    b.Arrives host (b.codeAt j, f) (word (f.machine.toMips.gpr ra)) s' := by
  obtain ⟨rest, g, hsteps, htarget, rfl, hg⟩ :=
    b.exists_jrCases host hj hflow hf hcode hexec
  rw [← htarget] at hlabel ⊢
  exact (arrives_jrCaseItems hg hlabel).after hsteps

/-- **A return out of the function**: to the host's caller when it waits for the address, and else
by a tail call. -/
theorem returns_jrHostReturn (hj : j < t.instructions.length)
    (hflow : (t.instructions[j]).flow t.decoder = some (.jumpReg none ra)) (hf : f.Settled b.around)
    (hcode : t.code (t.vramAt (j + 1)) = some (.op o))
    (hexec : o.exec window f.machine.toMips = some s')
    (hlabel : word (f.machine.toMips.gpr ra) ∉ t.branchLabels) :
    b.ReturnsTo host (b.codeAt j, f) (word (f.machine.toMips.gpr ra)) s' := by
  obtain ⟨rest, g, hsteps, htarget, rfl, hg⟩ :=
    b.exists_jrCases host hj hflow hf hcode hexec
  rw [← htarget] at hlabel ⊢
  obtain ⟨value, hcases⟩ := b.steps_jrCaseItems host hlabel
  refine ReturnsTo.after ?_ (hsteps.trans (hcases _))
  by_cases hhost : g.jrTargetVram (t.vramAt j) = g.hostReturnTarget
  · refine ⟨_, Steps.leaves (step_next (if_neg (not_not_intro hhost))) (leaves_of_effect rfl), rfl,
      ?_, hg.around_eq, fun _ => hg.settled⟩
    unfold Context.ContinuesAt
    dsimp only
    rw [hg.settled]
    exact hhost.symm
  · exact ⟨_, leaves_of_effect (if_pos hhost), rfl, ⟨rfl, fun name hname => by cases hname⟩,
      hg.around_eq, fun heq => absurd heq.symm hhost⟩

/-- A register keeps its value up to the text behind the slot that reads it. -/
theorem gpr_of_slot (b : t.Body) (hj : j < t.instructions.length) {link : Option Reg} {rs : Reg}
    (hflow : (t.instructions[j]).flow t.decoder = some (.jumpReg link rs))
    (hrs : link = none → rs ≠ ra) (hcode : t.code (t.vramAt (j + 1)) = some (.op o)) {s : State 30}
    (hexec : o.exec window (t.cpu.link (t.vramAt j) s link) = some s') : s'.gpr rs = s.gpr rs := by
  obtain ⟨hnext, hslot⟩ := b.regular.flow_of_code hj hcode
  have hfits := b.described.slots j _ _ _ _ _ (List.getElem?_eq_getElem hj)
    (List.getElem?_eq_getElem hnext) hflow hslot
  have hlink : link ≠ some rs := by
    rintro rfl
    exact b.described.jumpLinks _ (List.getElem_mem hj) rs hflow
  rw [Op.exec_gpr (hfits.resolve_left fun h => hrs h.1 h.2) hexec, Cpu.link_gpr hlink]

theorem link_of_zero (pc : BitVec 32) (s : State 30) (link : Option Reg) :
    t.cpu.link pc s (if link = some 0 then none else link) = t.cpu.link pc s link := by
  split
  · rename_i hlink
    rw [hlink]
    exact (State.setReg_zero _ _).symm
  · rfl

/-- **A tail call through a register.** -/
theorem leaves_register (hj : j < t.instructions.length) {link : Option Reg} {rs : Reg}
    (hflow : (t.instructions[j]).flow t.decoder = some (.jumpReg link rs)) (hlink : link ≠ some ra)
    (hrs : link = none → rs ≠ ra) (hf : f.Settled b.around)
    (hcode : t.code (t.vramAt (j + 1)) = some (.op o))
    (hexec : o.exec window (t.cpu.link (t.vramAt j) f.machine.toMips link) = some s') :
    b.LeavesTo host (b.codeAt j, f) (word (f.machine.toMips.gpr rs)) s' := by
  obtain ⟨slotItems, rest, hslot, hcore⟩ := b.exists_tailcall host hj hflow hlink hrs hcode
  have hzero : (if link = some 0 then none else link) ≠ some 0 := by
    split
    · exact fun h => by cases h
    · assumption
  obtain ⟨machine, hlinked, hmachine, hsettled⟩ := steps_link b host (t.vramAt j) hzero hf
  rw [link_of_zero] at hmachine
  have hexec' : o.exec window machine.toMips = some s' := hmachine ▸ hexec
  obtain ⟨machine', result, hsteps, hmachine', hsettled'⟩ :=
    b.steps_slot (hslot.executes o hcode) hsettled hexec'
  have hgpr : machine'.toMips.gpr rs = f.machine.toMips.gpr rs := by
    rw [hmachine']
    exact b.gpr_of_slot hj hflow hrs hcode hexec
  have hleaves : ∃ g, Leaves (t.execution host) b.items (t.tailcallRegisterItems rs ++ (rest ++
      (skipLabel (b.lay.state j) ++ (b.lay.blocksFrom (j + 1) ++ b.back))),
      { f with machine := machine', result }) () g ∧ g.machine = machine' ∧
        t.context.ContinuesAt g (word (machine'.toMips.gpr rs)) ∧ g.surroundings = b.around :=
    leaves_tailcallRegister hsettled'
  obtain ⟨g, hleaves, rfl, hg⟩ := hleaves
  rw [← hgpr]
  refine LeavesTo.after ⟨g, hleaves, hmachine', hg⟩ ?_
  rw [codeAt_eq hj, hcore]
  simp only [List.cons_append, List.append_assoc]
  exact ((step_next rfl).trans (hlinked _)).trans (hsteps _)

section Calls

variable {calls : BitVec 32 → State 30 → State 30 → Prop} {s₂ : State 30}
  (hhost : host.Simulates t.context b.around (t.func.contains · = true) calls)

include hhost

/-- **A call of a function at a known address.** -/
theorem arrives_call (hj : j < t.instructions.length) (hf : f.Settled b.around)
    (hflow : (∃ op rs rt likely,
        (t.instructions[j]).flow t.decoder = some (.branch op rs rt true likely target) ∧
        op.eval f.machine.toMips.fpCondition (f.machine.toMips.gpr rs)
          (f.machine.toMips.gpr rt) = true) ∨
      (t.instructions[j]).flow t.decoder = some (.jump true target))
    (hcode : t.code (t.vramAt (j + 1)) = some (.op o))
    (hexec : o.exec window (t.cpu.link (t.vramAt j) f.machine.toMips (some ra)) = some s')
    (hout : t.func.contains target = false) (hcall : calls target s' s₂) :
    b.Arrives host (b.codeAt j, f) (t.vramAt j + 8) (s'.behindCall s₂) := by
  obtain ⟨slotItems, direct, rest, machine, hslot, hdirect, hsteps, hmachine, hsettled, -, hmem⟩ :=
    b.exists_direct host hj hf hflow
  have hexec' : o.exec window machine.toMips = some s' := hmachine ▸ hexec
  obtain ⟨hneeds, g, hcalls, hstate, hsettled'⟩ :=
    steps_call hdirect (hslot.executes o hcode) hsettled hexec' rest hhost
      (fun i hi v hv => b.misses_of_core hj (hmem i hi) (Bool.eq_false_of_not_eq_true hv)) hout rfl
      hcall
  obtain ⟨hnext, -⟩ := b.lay.slot_of_state b.regular hj (.inl hneeds)
  exact ⟨j + 2, hnext, vramAt_add_eight j, g, (hsteps.trans hcalls).trans (steps_after hj hneeds),
    hstate, hsettled'⟩

/-- **A call through a register.** -/
theorem arrives_callRegister (hj : j < t.instructions.length) {rs : Reg}
    (hflow : (t.instructions[j]).flow t.decoder = some (.jumpReg (some ra) rs)) (hf : f.Settled b.around)
    (hcode : t.code (t.vramAt (j + 1)) = some (.op o))
    (hexec : o.exec window (t.cpu.link (t.vramAt j) f.machine.toMips (some ra)) = some s')
    (hcall : calls (word (f.machine.toMips.gpr rs)) s' s₂) :
    b.Arrives host (b.codeAt j, f) (t.vramAt j + 8) (s'.behindCall s₂) := by
  obtain ⟨slotItems, labels, rest, hslot, hneeds, hcore⟩ := b.exists_callRegister host hj hflow
  obtain ⟨machine, hlinked, hmachine, hsettled⟩ :=
    steps_link b host (t.vramAt j) (link_ne_zero true) hf
  have hexec' : o.exec window machine.toMips = some s' := hmachine ▸ hexec
  obtain ⟨machine', result, hsteps, rfl, hsettled'⟩ :=
    b.steps_slot (hslot.executes o hcode) hsettled hexec'
  have hgpr := b.gpr_of_slot hj hflow (fun h => by cases h) hcode hexec
  rw [← hgpr] at hcall
  have henters : (Called.lookup (word (machine'.toMips.gpr rs))).Enters t.context
      (word (machine'.toMips.gpr rs)) := rfl
  have hmiss : ∀ v, ¬t.func.contains v = true → Label.at_ v ∉ labels.targets :=
    fun v hv => b.misses_of_core hj (i := .call (.functionCallByRegister rs labels))
      (by rw [hcore]; simp) (Bool.eq_false_of_not_eq_true hv)
  obtain ⟨g, hg, hstate, hsettled'', -⟩ :=
    HostFunctions.callText_simulates hhost labels hmiss henters hsettled' hcall
  have heffect : (t.execution host).effect (.call (.functionCallByRegister rs labels))
      { f with machine := machine', result } = .next g := hg
  obtain ⟨hnext, -⟩ := b.lay.slot_of_state b.regular hj (.inl hneeds)
  refine ⟨j + 2, hnext, vramAt_add_eight j, g, ?_, hstate, hsettled''⟩
  rw [codeAt_eq hj, hcore]
  simp only [List.cons_append, List.append_assoc]
  exact (((step_next rfl).trans (hlinked _)).trans ((hsteps _).trans (step_next heffect))).trans
    (steps_after hj hneeds)

end Calls

/-! ### Runs -/

section Runs

variable {calls : BitVec 32 → State 30 → State 30 → Prop}
  (hhost : host.Simulates t.context b.around (t.func.contains · = true) calls)
  {pc pc' : BitVec 32} {s₁ s₂ : State 30}

/-- A direct transfer, at the address of an instruction. -/
theorem direct_of_step (link : Bool) (h : t.Regular) (hj : j ≤ t.instructions.length) {s : State 30}
    (hstep : t.cpu.Step (t.vramAt j) s (if link then .link target else .jump target) s') :
    ∃ hj : j < t.instructions.length, ∃ o, t.code (t.vramAt (j + 1)) = some (.op o) ∧
      o.exec window (t.cpu.link (t.vramAt j) s (if link then some ra else none)) = some s' ∧
      ((∃ op rs rt likely,
          (t.instructions[j]).flow t.decoder = some (.branch op rs rt link likely target) ∧
          op.eval s.fpCondition (s.gpr rs) (s.gpr rt) = true) ∨
        (t.instructions[j]).flow t.decoder = some (.jump link target)) := by
  obtain ⟨o, hslot, hexec, ⟨op, rs, rt, likely, hcode, hcond⟩ | hcode⟩ := hstep.direct_inv link
  · obtain ⟨hj, hflow⟩ := h.flow_of_code hj hcode
    exact ⟨hj, o, (vramAt_succ j).symm ▸ hslot, hexec, .inl ⟨op, rs, rt, likely, hflow, hcond⟩⟩
  · obtain ⟨hj, hflow⟩ := h.flow_of_code hj hcode
    exact ⟨hj, o, (vramAt_succ j).symm ▸ hslot, hexec, .inr hflow⟩

/-- A jump through a register, at the address of an instruction. -/
theorem register_of_step (h : t.Regular) (hj : j ≤ t.instructions.length) {s : State 30} {rs : Reg}
    (reg : Option Reg) (hstep : t.cpu.Step (t.vramAt j) s (.ofRegister rs pc reg) s') :
    ∃ hj : j < t.instructions.length, ∃ o, t.code (t.vramAt (j + 1)) = some (.op o) ∧
      o.exec window (t.cpu.link (t.vramAt j) s reg) = some s' ∧ pc = word (s.gpr rs) ∧
      (t.instructions[j]).flow t.decoder = some (.jumpReg reg rs) := by
  obtain ⟨o, hcode, hslot, hexec, hpc⟩ := hstep.register_inv
  obtain ⟨hj, hflow⟩ := h.flow_of_code hj hcode
  exact ⟨hj, o, (vramAt_succ j).symm ▸ hslot, hexec, hpc, hflow⟩

include hhost

/-- **A step of the guest in the function** is a run of the body, from the code of the instruction to
that of the one where the guest goes on. -/
theorem step_simulates (hj : j ≤ t.instructions.length) (hf : f.Settled b.around)
    (h : t.cpu.BodyStep (t.func.contains · = true) (· ∈ t.branchLabels) calls
      (t.vramAt j, f.machine.toMips) (pc', s₂)) :
    b.Arrives host (b.codeAt j, f) pc' s₂ := by
  cases h with
  | next hstep =>
    rcases hstep.next_inv with ⟨o, hcode, hexec, rfl⟩ | ⟨op, rs, rt, link, likely, target, hcode,
      hcond, rfl, rfl⟩
    · obtain ⟨hj, hflow⟩ := b.regular.flow_of_code hj hcode
      exact arrives_op hj hflow hf hexec
    · obtain ⟨hj, hflow⟩ := b.regular.flow_of_code hj hcode
      exact arrives_notTaken hj hflow hf hcond
  | jump hstep hbody =>
    obtain ⟨hj, o, hcode, hexec, hflow⟩ := direct_of_step false b.regular hj hstep
    obtain ⟨slotItems, direct, rest, machine, hslot, hdirect, hsteps, hmachine, hsettled, hlocal, -⟩ :=
      b.exists_direct host hj hf hflow
    exact (arrives_direct hdirect (hslot.executes o hcode) hsettled (hmachine ▸ hexec) hbody
      (hlocal hbody)).after hsteps
  | link hstep hbody =>
    obtain ⟨hj, o, hcode, hexec, hflow⟩ := direct_of_step true b.regular hj hstep
    obtain ⟨slotItems, direct, rest, machine, hslot, hdirect, hsteps, hmachine, hsettled, hlocal, -⟩ :=
      b.exists_direct host hj hf hflow
    exact (arrives_direct hdirect (hslot.executes o hcode) hsettled (hmachine ▸ hexec) hbody
      (hlocal hbody)).after hsteps
  | register hstep hlabel =>
    obtain ⟨hj, o, hcode, hexec, rfl, hflow⟩ := register_of_step b.regular hj none hstep
    exact arrives_return hj hflow hf hcode hexec hlabel
  | call hstep hbody _ hcall =>
    obtain ⟨hj, o, hcode, hexec, hflow⟩ := direct_of_step true b.regular hj hstep
    exact arrives_call hhost hj hf hflow hcode hexec (Bool.not_eq_true _ ▸ hbody) hcall
  | callRegister hstep _ hcall =>
    obtain ⟨hj, o, hcode, hexec, rfl, hflow⟩ := register_of_step b.regular hj (some ra) hstep
    exact arrives_callRegister hhost hj hflow hf hcode hexec hcall

/-- **The runs of the guest in the function** are runs of the body. -/
theorem run_simulates (hj : j ≤ t.instructions.length) (hf : f.Settled b.around)
    {c : BitVec 32 × State 30}
    (h : t.cpu.BodyRun (t.func.contains · = true) (· ∈ t.branchLabels) calls
      (t.vramAt j, f.machine.toMips) c) :
    b.Arrives host (b.codeAt j, f) c.1 c.2 := by
  induction h with
  | refl => exact ⟨j, hj, rfl, f, .refl, rfl, hf⟩
  | @tail c c' _ hstep ih =>
    obtain ⟨k, hk, hpc, f₁, hsteps, hstate, hf₁⟩ := ih
    obtain ⟨pc, s⟩ := c
    obtain ⟨pc', s'⟩ := c'
    obtain rfl : pc = t.vramAt k := hpc
    obtain rfl : f₁.machine.toMips = s := hstate
    exact (step_simulates hhost hk hf₁ hstep).after hsteps

omit hhost in
/-- **Where the guest leaves the function**, the body returns. -/
theorem exit_simulates (hj : j ≤ t.instructions.length) (hf : f.Settled b.around)
    (h : t.cpu.BodyExit (t.func.contains · = true) (· ∈ t.branchLabels)
      (t.vramAt j, f.machine.toMips) (pc', s₂)) :
    b.LeavesTo host (b.codeAt j, f) pc' s₂ := by
  cases h with
  | jump hstep hbody =>
    obtain ⟨hj, o, hcode, hexec, hflow⟩ := direct_of_step false b.regular hj hstep
    obtain ⟨slotItems, direct, rest, machine, hslot, hdirect, hsteps, hmachine, hsettled, -, -⟩ :=
      b.exists_direct host hj hf hflow
    exact (leaves_direct hdirect (hslot.executes o hcode) hsettled (hmachine ▸ hexec)
      (Bool.not_eq_true _ ▸ hbody) rfl).after hsteps
  | return_ hstep hlabel =>
    obtain ⟨hj, o, hcode, hexec, rfl, hflow⟩ := register_of_step b.regular hj none hstep
    exact (returns_jrHostReturn hj hflow hf hcode hexec hlabel).leavesTo
  | register hstep hrs =>
    obtain ⟨hj, o, hcode, hexec, rfl, hflow⟩ := register_of_step b.regular hj none hstep
    exact leaves_register hj hflow (fun h => by cases h) (fun _ => hrs) hf hcode hexec
  | @linkRegister _ _ _ _ link rs hstep hlink =>
    obtain ⟨hj, o, hcode, hexec, rfl, hflow⟩ := register_of_step b.regular hj (some link) hstep
    exact leaves_register hj hflow (fun h => hlink (Option.some.inj h)) (fun h => by cases h) hf hcode
      hexec

/-- A run of the guest that leaves the function. -/
theorem leaves_of_run (hj : j ≤ t.instructions.length) (hf : f.Settled b.around)
    {c c' : BitVec 32 × State 30}
    (hrun : t.cpu.BodyRun (t.func.contains · = true) (· ∈ t.branchLabels) calls
      (t.vramAt j, f.machine.toMips) c)
    (hexit : t.cpu.BodyExit (t.func.contains · = true) (· ∈ t.branchLabels) c c') :
    b.LeavesTo host (b.codeAt j, f) c'.1 c'.2 := by
  obtain ⟨k, hk, hpc, f₁, hsteps, hstate, hf₁⟩ := run_simulates hhost hj hf hrun
  obtain ⟨pc, s⟩ := c
  obtain ⟨pc', s'⟩ := c'
  obtain rfl : pc = t.vramAt k := hpc
  obtain rfl : f₁.machine.toMips = s := hstate
  exact (exit_simulates hk hf₁ hexit).after hsteps

end Runs

end Body

end Translation

end N64Recomp
