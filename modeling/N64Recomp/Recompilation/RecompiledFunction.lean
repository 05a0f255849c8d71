import N64Recomp.Recompilation.FunctionRuns

/-!
# The emitted function simulates the guest's

The function that is emitted starts at the code of its entry, or of the dispatch entry that its caller
asks for, and from there simulates the guest until it leaves the function.

## Main definitions

* `Function.start`: the address at which an emitted function starts
* `HostFrame.atEntry`: the frame behind the declarations of an emitted function
* `RecompiledFunction`: a function that is emitted, and that the execution describes

## Main results

* `dispatch_entry_exact`: the dispatch entries that a function accepts
* `recompiled_function_simulates`: an emitted function simulates the guest's
-/

namespace N64Recomp

open Emit FlatCode Mips

/-- The address at which an emitted function starts, when its caller asks for a dispatch entry, or for
none. -/
def Function.start (func : Function) (dispatchEntryTarget : BitVec 32) : BitVec 32 :=
  if dispatchEntryTarget = 0 then func.entry else dispatchEntryTarget

namespace HostFrame

/-- The frame behind the declarations of an emitted function. -/
def atEntry (f : HostFrame) : HostFrame :=
  { f with machine := { f.machine with hi := 0, lo := 0, c1cs := 0 }, result := 0 }

/-- The frame in the switch over the dispatch entries. -/
def dispatched (f : HostFrame) : HostFrame :=
  { f with switchValue := f.dispatchEntryTarget, dispatchEntryTarget := 0 }

/-- What surrounds the body of a function that is called in a frame. -/
def bodySurroundings (f : HostFrame) : Surroundings :=
  ⟨f.machine.sectionAddresses, f.tailcallDispatching, 0⟩

theorem toMips_atEntry (f : HostFrame) : f.atEntry.machine.toMips = f.machine.toMips.atEntry := by
  apply State.ext <;> rfl

end HostFrame

/-! ### The front of a function -/

section Front

variable {r : Recompiler} {func : Function} {t : Translation} {host : HostFunctions}
  {program rest : List Item} {f : HostFrame}

/-- What comes behind the switch over the dispatch entries. -/
def Recompiler.entryItems (func : Function) (rest : List Item) : List Item :=
  (entryLabel func).toList.map (fun entry => .raw (.gotoEntry entry)) ++
    ((func.functionHooks (-1)).toList.map (fun text => .raw (.hook text)) ++
      .call (.label (.at_ func.vram)) :: rest)

/-- The declarations of an emitted function. -/
theorem steps_declarations (r : Recompiler) (func : Function) (t : Translation) (host : HostFunctions)
    (program rest : List Item) (f : HostFrame) : Steps (t.execution host) program
    ((r.frontItems func ++ [.call (.label (.at_ func.vram))]) ++ rest, f)
    (dispatchItems func ++ Recompiler.entryItems func rest, f.atEntry) := by
  unfold Recompiler.frontItems Recompiler.entryItems
  simp only [List.cons_append, List.append_assoc, List.nil_append]
  refine (step_next rfl).trans ?_
  split
  · exact step_next rfl
  · exact .refl

/-- No dispatch entry is asked for. -/
theorem steps_dispatchItems (hf : f.dispatchEntryTarget = 0) :
    Steps (t.execution host) program (dispatchItems func ++ rest, f) (rest, f) := by
  unfold dispatchItems
  split
  · exact .refl
  · simp only [List.cons_append, List.append_assoc, List.nil_append]
    refine step_skip (if_pos hf) (behindBlock_append (fun i hi => ?_) rfl)
    obtain ⟨v, -, rfl⟩ := List.mem_map.mp hi
    exact ⟨rfl, rfl⟩

/-- A dispatch entry of the function is asked for. -/
theorem steps_dispatchCase (t : Translation) (host : HostFunctions) (program rest : List Item)
    (hf : f.dispatchEntryTarget ≠ 0) (hmem : f.dispatchEntryTarget ∈ dispatchLabels func) :
    ∃ rest', Steps (t.execution host) program (dispatchItems func ++ rest, f)
      (.raw (.dispatchCase f.dispatchEntryTarget) :: rest', f.dispatched) := by
  have hne : func.dispatchEntryVrams.isEmpty = false := by
    rw [List.isEmpty_eq_false_iff_exists_mem]
    exact ⟨_, (List.mem_filter.mp hmem).1⟩
  have hpass : ∀ i ∈ (dispatchLabels func).map fun v => Item.raw (.dispatchCase v),
      i ≠ .raw (.dispatchCase f.dispatchEntryTarget) →
        (t.execution host).effect i f.dispatched = .next f.dispatched := by
    intro i hi hi'
    obtain ⟨v, -, rfl⟩ := List.mem_map.mp hi
    exact if_neg fun heq : f.dispatchEntryTarget = v => hi' (heq ▸ rfl)
  have hreach : ∃ rest', Steps (t.execution host) program
      ((dispatchLabels func).map (fun v => Item.raw (.dispatchCase v)) ++
        .raw .dispatchReject :: rest, f.dispatched)
      (.raw (.dispatchCase f.dispatchEntryTarget) :: rest', f.dispatched) :=
    steps_reach (List.mem_map_of_mem hmem) hpass _
  obtain ⟨rest', hreach⟩ := hreach
  refine ⟨rest', ?_⟩
  unfold dispatchItems
  rw [hne, if_neg Bool.false_ne_true]
  simp only [List.cons_append, List.append_assoc, List.nil_append]
  exact Relation.ReflTransGen.trans (step_next (if_neg hf)) hreach

/-- Another dispatch entry is asked for. -/
theorem leaves_dispatchReject (hf : f.dispatchEntryTarget ≠ 0)
    (hne : func.dispatchEntryVrams.isEmpty = false)
    (hmem : f.dispatchEntryTarget ∉ dispatchLabels func) :
    Leaves (t.execution host) program (dispatchItems func ++ rest, f) ()
      { f.dispatched with
        dispatchEntryRejected := true
        dispatchEntryRejectedTarget := f.dispatchEntryTarget } := by
  unfold dispatchItems
  rw [hne, if_neg Bool.false_ne_true]
  simp only [List.cons_append, List.append_assoc, List.nil_append]
  have hpass : ∀ i ∈ (dispatchLabels func).map fun v => Item.raw (.dispatchCase v),
      (t.execution host).effect i f.dispatched = .next f.dispatched := by
    intro i hi
    obtain ⟨v, hv, rfl⟩ := List.mem_map.mp hi
    exact if_neg fun heq : f.dispatchEntryTarget = v => hmem (heq ▸ hv)
  exact Steps.leaves ((step_next (if_neg hf)).trans (steps_pass hpass)) (leaves_of_effect rfl)

end Front

/-! ### The function -/

section Function

variable {r : Recompiler} {funcIndex : Nat} {func : Function} {tagReferenceRelocs : Bool}
  {jumpTables : List JumpTable} {statics statics' : Statics} {items : List Item} {host : HostFunctions}
  {f : HostFrame}

/-- The front of a function defines no label. -/
theorem labelsOf_frontItems
    (hfit : (r.translation funcIndex func tagReferenceRelocs jumpTables statics).LabelsFit statics) :
    labelsOf (r.frontItems func) = [] :=
  labelsOf_eq_nil fun i hi => (goesLocal_frontItems hfit i hi).1

/-- A dispatch entry with a label is the address of an instruction. -/
theorem isLocal_of_dispatchLabels
    (hfit : (r.translation funcIndex func tagReferenceRelocs jumpTables statics).LabelsFit statics)
    {v : BitVec 32} (hv : v ∈ dispatchLabels func) : func.contains v = true ∧
      (r.translation funcIndex func tagReferenceRelocs jumpTables statics).IsLocal v := by
  have hbounds := of_decide_eq_true (List.mem_filter.mp hv).2
  have hin : func.contains v = true := decide_eq_true ⟨BitVec.le_of_lt hbounds.1, hbounds.2⟩
  have hitem : Item.raw (.dispatchCase v) ∈ r.frontItems func := by
    have hne : func.dispatchEntryVrams.isEmpty = false := by
      rw [List.isEmpty_eq_false_iff_exists_mem]
      exact ⟨_, (List.mem_filter.mp hv).1⟩
    unfold Recompiler.frontItems dispatchItems
    rw [hne, if_neg Bool.false_ne_true]
    simp [hv]
  obtain ⟨-, hgoes⟩ := goesLocal_frontItems hfit _ hitem
  obtain ⟨v', heq, hlocal⟩ := hgoes (.at_ v) List.mem_cons_self
  obtain rfl := Label.at_.inj heq
  exact ⟨hin, hlocal⟩

/-- The parts of an emitted function. -/
theorem exists_layoutParts (hfunc : r.context.functions[funcIndex]? = some func)
    (hstubbed : func.stubbed = false)
    (hanalysis : analyzeFunction r.decoder r.context func (decodeFrom func.vram func.words) =
      .tables jumpTables)
    (hfit : (r.translation funcIndex func tagReferenceRelocs jumpTables statics).LabelsFit statics)
    (h : Done (r.recompileFunctionImpl funcIndex tagReferenceRelocs) statics () items statics') :
    ∃ (lay : (r.translation funcIndex func tagReferenceRelocs jumpTables statics).Layout)
        (front back : List Item),
      items = front ++ (lay.blocksFrom 0 ++ back) ∧
      front = r.frontItems func ++ [.call (.label (.at_ func.vram))] ∧
      (∃ pre, front = pre ++ [.call (.label (.at_ func.vram))] ∧ labelsOf pre = []) ∧
      labelsOf back = [] := by
  obtain ⟨lay, fall, statics₁, rfl, -, hfall⟩ := exists_program hfunc hstubbed hanalysis h
  refine ⟨lay, _, _, rfl, rfl, ⟨_, rfl, labelsOf_frontItems hfit⟩, ?_⟩
  rw [labelsOf_append, labelsOf_eq_nil fun i hi => (straight_emitFallthrough.done hfall i hi).label]
  rfl

/-- The interior entry of a function has a label. -/
theorem isLocal_of_entryLabel
    (hfit : (r.translation funcIndex func tagReferenceRelocs jumpTables statics).LabelsFit statics)
    {v : BitVec 32} (hv : v ∈ entryLabel func) :
    (r.translation funcIndex func tagReferenceRelocs jumpTables statics).IsLocal v := by
  have hitem : Item.raw (.gotoEntry v) ∈ r.frontItems func := by
    unfold Recompiler.frontItems
    simp [Option.mem_def.mp hv]
  obtain ⟨-, hgoes⟩ := goesLocal_frontItems hfit _ hitem
  obtain ⟨v', heq, hlocal⟩ := hgoes (.at_ v) List.mem_cons_self
  obtain rfl := Label.at_.inj heq
  exact hlocal

theorem entry_eq (func : Function) : func.entry = (entryLabel func).getD func.vram := by
  unfold Function.entry entryLabel
  split <;> rfl

/-- An emitted function goes on at the code of the address where it starts. -/
theorem steps_start {t : Translation} (b : t.Body) (host : HostFunctions) (f : HostFrame)
    (hitems : b.front = r.frontItems t.func ++ [.call (.label (.at_ t.func.vram))])
    (hlocal : ∀ v, v ∈ dispatchLabels t.func ∨ v ∈ entryLabel t.func →
      t.func.contains v = true ∧ t.IsLocal v)
    (hstart : f.dispatchEntryTarget = 0 ∨ f.dispatchEntryTarget ∈ dispatchLabels t.func) :
    ∃ k ≤ t.instructions.length, t.func.start f.dispatchEntryTarget = t.vramAt k ∧ ∃ g,
      Steps (t.execution host) b.items (b.items, f) (b.codeAt k, g) ∧
      g.machine = f.atEntry.machine ∧ g.tailcallPending = f.tailcallPending ∧
      g.surroundings = f.bodySurroundings := by
  have hdeclared := steps_declarations r t.func t host b.items (b.lay.blocksFrom 0 ++ b.back) f
  rw [← hitems] at hdeclared
  by_cases hzero : f.dispatchEntryTarget = 0
  · have haround : f.atEntry.surroundings = f.bodySurroundings :=
      congrArg (Surroundings.mk f.machine.sectionAddresses f.tailcallDispatching) hzero
    have hdispatch : Steps (t.execution host) b.items (dispatchItems t.func ++
        Recompiler.entryItems t.func (b.lay.blocksFrom 0 ++ b.back), f.atEntry)
        (Recompiler.entryItems t.func (b.lay.blocksFrom 0 ++ b.back), f.atEntry) :=
      steps_dispatchItems hzero
    have hentered := hdeclared.trans hdispatch
    unfold Function.start Recompiler.entryItems at *
    rw [if_pos hzero, entry_eq]
    cases hentry : entryLabel t.func with
    | none =>
      rw [hentry, b.described.noHooks] at hentered
      have hlikely : (b.lay.state 0).inLikelyDelaySlot = false := by
        rw [b.lay.start]
        rfl
      exact ⟨0, Nat.zero_le _, Translation.vramAt_zero.symm, f.atEntry,
        (hentered.trans Translation.Body.step_label).trans
          (Translation.Body.steps_blocks (Nat.zero_le _) hlikely), rfl, rfl, haround⟩
    | some entry =>
      rw [hentry] at hentered
      obtain ⟨hin, hl⟩ := hlocal entry (.inr hentry)
      obtain ⟨k, hk, rfl⟩ := b.regular.exists_of_isLocal hin hl
      exact ⟨k, Nat.le_of_lt hk, rfl, f.atEntry,
        hentered.trans (Translation.Body.steps_goto hk hl rfl), rfl, rfl, haround⟩
  · have hmem := hstart.resolve_left hzero
    obtain ⟨hin, hl⟩ := hlocal _ (.inl hmem)
    obtain ⟨k, hk, hvram⟩ := b.regular.exists_of_isLocal hin hl
    have hzero' : f.atEntry.dispatchEntryTarget ≠ 0 := hzero
    have hmem' : f.atEntry.dispatchEntryTarget ∈ dispatchLabels t.func := hmem
    obtain ⟨rest', hcase⟩ := steps_dispatchCase t host b.items
      (Recompiler.entryItems t.func (b.lay.blocksFrom 0 ++ b.back)) hzero' hmem'
    have heffect : (t.execution host).effect (.raw (.dispatchCase f.atEntry.dispatchEntryTarget))
        f.atEntry.dispatched = .goto (.at_ (t.vramAt k)) f.atEntry.dispatched :=
      (if_pos rfl).trans (congrArg (fun v => Effect.goto (Label.at_ v) f.atEntry.dispatched) hvram)
    unfold Function.start
    rw [if_neg hzero]
    exact ⟨k, Nat.le_of_lt hk, hvram, f.atEntry.dispatched, (hdeclared.trans hcase).trans
      (Translation.Body.steps_goto hk (hvram ▸ hl) heffect), rfl, rfl, rfl⟩

end Function

/-! ### Functions that are emitted -/

/-- **A function that is emitted, and that the execution describes.** -/
structure RecompiledFunction (r : Recompiler) where
  index : Nat
  func : Function
  tagReferenceRelocs : Bool
  jumpTables : List JumpTable
  /-- The static functions that are requested in front of it, and behind it. -/
  statics : Statics
  statics' : Statics
  items : List Item
  func_eq : r.context.functions[index]? = some func
  stubbed : func.stubbed = false
  analysis : analyzeFunction r.decoder r.context func (decodeFrom func.vram func.words) =
    .tables jumpTables
  fit : (r.translation index func tagReferenceRelocs jumpTables statics).LabelsFit statics
  described : (r.translation index func tagReferenceRelocs jumpTables statics).Described
  done : Done (r.recompileFunctionImpl index tagReferenceRelocs) statics () items statics'
  handled : ∀ i ∈ items, i.isHandled = true

namespace RecompiledFunction

variable {r : Recompiler} (F : RecompiledFunction r) {host : HostFunctions} {f : HostFrame}

def translation : Translation :=
  r.translation F.index F.func F.tagReferenceRelocs F.jumpTables F.statics

/-- The section of the function is where it was linked. -/
def IsLoaded (sectionAddresses : BitVec 32 → BitVec 32) : Prop :=
  sectionAddresses (F.func.sectionIndex.setWidth 32) = F.translation.funcSection.ramAddr

/-- The runs of the guest in the function, over the calls that it makes. -/
abbrev BodyRun (calls : BitVec 32 → State 30 → State 30 → Prop) :
    BitVec 32 × State 30 → BitVec 32 × State 30 → Prop :=
  F.translation.cpu.BodyRun (F.func.contains · = true) (· ∈ F.translation.branchLabels) calls

/-- How the guest leaves the function. -/
abbrev BodyExit : BitVec 32 × State 30 → BitVec 32 × State 30 → Prop :=
  F.translation.cpu.BodyExit (F.func.contains · = true) (· ∈ F.translation.branchLabels)

/-- The runs that leave the emitted function. -/
abbrev Returns (host : HostFunctions) (f g : HostFrame) : Prop :=
  Leaves (F.translation.execution host) F.items (F.items, f) () g

/-- The body of an emitted function. -/
theorem exists_body (hentries : r.context.EntersTargets)
    (hloaded : F.IsLoaded f.machine.sectionAddresses) :
    ∃ b : F.translation.Body, b.items = F.items ∧
      b.front = r.frontItems F.func ++ [.call (.label (.at_ F.func.vram))] ∧
      b.around = f.bodySurroundings := by
  obtain ⟨lay, front, back, hitems, hfront, hstart, hback⟩ :=
    exists_layoutParts F.func_eq F.stubbed F.analysis F.fit F.done
  refine ⟨⟨lay, front, back, f.bodySurroundings, hloaded,
    Translation.regular_translation F.fit F.analysis, F.described, hentries,
    fun i hi => F.handled i ?_, hstart, hback⟩, hitems.symm, hfront, rfl⟩
  rw [hitems]
  exact List.mem_append_right _ (List.mem_append_left _ hi)

/-- A run of the guest in the function is one of the emitted function. -/
theorem exists_run (hentries : r.context.EntersTargets)
    (hloaded : F.IsLoaded f.machine.sectionAddresses)
    {calls : BitVec 32 → State 30 → State 30 → Prop}
    (hhost : host.Simulates r.context f.bodySurroundings (F.func.contains · = true) calls)
    (hpending : f.tailcallPending = false)
    (hstart : f.dispatchEntryTarget = 0 ∨ f.dispatchEntryTarget ∈ dispatchLabels F.func)
    {c : BitVec 32 × State 30}
    (hrun : F.BodyRun calls (F.func.start f.dispatchEntryTarget, f.machine.toMips.atEntry) c) :
    ∃ (b : F.translation.Body) (k : Nat) (g : HostFrame), b.items = F.items ∧
      b.around = f.bodySurroundings ∧ k ≤ F.translation.instructions.length ∧
      c.1 = F.translation.vramAt k ∧ g.machine.toMips = c.2 ∧ g.Settled b.around ∧
      Steps (F.translation.execution host) F.items (F.items, f) (b.codeAt k, g) := by
  obtain ⟨b, hitems, hfront, haround⟩ := F.exists_body hentries hloaded
  have hlocal : ∀ v, v ∈ dispatchLabels F.func ∨ v ∈ entryLabel F.func →
      F.func.contains v = true ∧ F.translation.IsLocal v := by
    rintro v (hv | hv)
    · exact isLocal_of_dispatchLabels F.fit hv
    · exact ⟨(F.fit.entry v hv).2, isLocal_of_entryLabel F.fit hv⟩
  obtain ⟨k, hk, hpc, g, hsteps, hmachine, hkept, hsame⟩ :=
    steps_start b host f hfront hlocal hstart
  have hg : g.Settled b.around := ⟨hsame.trans haround.symm, hkept.trans hpending⟩
  have hstate : g.machine.toMips = f.machine.toMips.atEntry := hmachine ▸ f.toMips_atEntry
  have hpc' : F.func.start f.dispatchEntryTarget = F.translation.vramAt k := hpc
  rw [hpc', ← hstate] at hrun
  rw [← haround] at hhost
  obtain ⟨k', hk', hpc'', g', hrun', hstate', hg'⟩ :=
    Translation.Body.run_simulates hhost hk hg hrun
  rw [← hitems]
  exact ⟨b, k', g', rfl, haround, hk', hpc'', hstate', hg', hsteps.trans hrun'⟩

/-- An emitted function keeps the address that its host's caller waits for. -/
theorem Returns.hostReturnTarget {F : RecompiledFunction r} {g : HostFrame} (h : F.Returns host f g) :
    g.hostReturnTarget = f.hostReturnTarget :=
  Leaves.invariant (P := fun g => g.hostReturnTarget = f.hostReturnTarget)
    (fun i g hg => by
      have hkeeps := F.translation.effect_keeps host i g
      rw [hg] at hkeeps
      exact hkeeps) rfl h

end RecompiledFunction

section CountDown

/-- The translation of the count down. -/
def countDownTranslation : Translation :=
  (sampleRecompiler countDown).translation 0 (sampleFunction countDown) false [] []

/-- A frame whose caller waits for the return address. -/
def countDownFrame : HostFrame where
  machine := ⟨fun r => if r = 31 then 0x80001000 else 0, 0, 0, 0, fun _ => 0, fun _ => 0, fun _ => 0⟩
  tailcallTarget := 0
  tailcallFunc := none
  tailcallPending := false
  tailcallDispatching := 0
  hostReturnTarget := 0x80001000
  dispatchEntryTarget := 0
  dispatchEntryRejected := false
  dispatchEntryRejectedTarget := 0
  result := 0
  jrTarget _ := 0
  jrTargetVram _ := 0
  switchValue := 0

/-- A host without functions. -/
def idleHost : HostFunctions := ⟨.int128, fun _ _ => none, fun _ => none⟩

/-- What the instructions of the count down do with control. -/
theorem flow_countDown {instr : InstructionCpu} (h : instr ∈ countDownTranslation.instructions) :
    (∃ o, instr.flow countDownTranslation.decoder = some (.op o) ∧
        instr.uniqueId countDownTranslation.decoder ∈ [InstrId.addiu, .nop]) ∨
      instr.flow countDownTranslation.decoder = some (.branch .ne 8 0 false false 0x80000404) ∧
        instr.uniqueId countDownTranslation.decoder = .bne ∨
      instr.flow countDownTranslation.decoder = some (.jumpReg none ra) ∧
        instr.uniqueId countDownTranslation.decoder = .jr := by
  have hall : ∀ instr ∈ countDownTranslation.instructions,
      (instr.flow countDownTranslation.decoder, instr.uniqueId countDownTranslation.decoder) ∈
        [(some (.op (.instr (.imm .addiu 8 0 2))), InstrId.addiu),
          (some (.op (.instr (.imm .addiu 8 8 0xFFFF))), .addiu),
          (some (.branch .ne 8 0 false false 0x80000404), .bne), (some (.op .nop), .nop),
          (some (.jumpReg none ra), .jr)] := by
    decide +kernel
  have hmem := hall instr h
  simp only [List.mem_cons, Prod.mk.injEq, List.not_mem_nil, or_false] at hmem
  rcases hmem with ⟨hflow, hid⟩ | ⟨hflow, hid⟩ | ⟨hflow, hid⟩ | ⟨hflow, hid⟩ | ⟨hflow, hid⟩
  · exact .inl ⟨_, hflow, by simp [hid]⟩
  · exact .inl ⟨_, hflow, by simp [hid]⟩
  · exact .inr (.inl ⟨hflow, hid⟩)
  · exact .inl ⟨_, hflow, by simp [hid]⟩
  · exact .inr (.inr ⟨hflow, hid⟩)

theorem described_countDown : countDownTranslation.Described where
  noTables := rfl
  noHooks _ := rfl
  unrelocated := by
    intro instr _ i info hinfo
    obtain rfl : RelocInfo.none = info := Option.some.inj hinfo
    exact ⟨rfl, rfl, by decide⟩
  literals := by
    intro instr hinstr m hslip
    rcases flow_countDown hinstr with ⟨-, -, hid⟩ | ⟨-, hid⟩ | ⟨-, hid⟩
    · rcases List.mem_pair.mp hid with hid | hid <;> rw [hid] at hslip <;> exact hslip
    · rw [hid] at hslip
      exact hslip
    · rw [hid] at hslip
      exact hslip
  moves := by
    intro instr hinstr target hjump
    rcases flow_countDown hinstr with ⟨o, hflow, -⟩ | ⟨hflow, -⟩ | ⟨hflow, -⟩ <;>
      cases hflow.symm.trans hjump
  branchLinks := by
    intro instr hinstr op rs rt likely target hbranch
    rcases flow_countDown hinstr with ⟨o, hflow, -⟩ | ⟨hflow, -⟩ | ⟨hflow, -⟩ <;>
      cases hflow.symm.trans hbranch
  jumpLinks := by
    intro instr hinstr rs hjump
    rcases flow_countDown hinstr with ⟨o, hflow, -⟩ | ⟨hflow, -⟩ | ⟨hflow, -⟩ <;>
      cases hflow.symm.trans hjump
  slots := by
    intro k instr next link rs o hk _ hjump _
    rcases flow_countDown (List.mem_of_getElem? hk) with ⟨o, hflow, -⟩ | ⟨hflow, -⟩ | ⟨hflow, -⟩
    · cases hflow.symm.trans hjump
    · cases hflow.symm.trans hjump
    · cases hflow.symm.trans hjump
      exact .inl ⟨rfl, rfl⟩

theorem entersTargets_countDown : (sampleRecompiler countDown).context.EntersTargets := by
  refine .inr ⟨fun cur target i func h => ?_, fun cur target i j func _ _ _ h => ?_⟩
  · cases h
  · cases h

/-- The guest counts down, and returns. -/
theorem bodyRun_countDown (calls : BitVec 32 → State 30 → State 30 → Prop) : ∃ s, s.gpr 8 = 0 ∧
    s.gpr regSp = countDownFrame.machine.toMips.gpr regSp ∧
    countDownTranslation.cpu.BodyRun ((sampleFunction countDown).contains · = true)
      (· ∈ countDownTranslation.branchLabels) calls
      ((sampleFunction countDown).start 0, countDownFrame.machine.toMips.atEntry) (0x80000410, s) ∧
    countDownTranslation.cpu.Step 0x80000410 s (.register ra 0x80001000) s ∧
    0x80001000 ∉ countDownTranslation.branchLabels := by
  have hcode₀ : countDownTranslation.cpu.code 0x80000400 =
      some (.op (.instr (.imm .addiu 8 0 2))) := by decide +kernel
  have hcode₁ : countDownTranslation.cpu.code 0x80000404 =
      some (.op (.instr (.imm .addiu 8 8 0xFFFF))) := by decide +kernel
  have hcode₂ : countDownTranslation.cpu.code 0x80000408 =
      some (.branch .ne 8 0 false false 0x80000404) := by decide +kernel
  have hcode₃ : countDownTranslation.cpu.code 0x8000040C = some (.op .nop) := by decide +kernel
  have hcode₄ : countDownTranslation.cpu.code 0x80000410 = some (.jumpReg none ra) := by
    decide +kernel
  have hcode₅ : countDownTranslation.cpu.code 0x80000414 = some (.op .nop) := by decide +kernel
  let s₀ := countDownFrame.machine.toMips.atEntry
  let s₁ := s₀.setReg 8 (ofWord (word (s₀.gpr 0) + word (ImmOp.addiu.extend 2)))
  let s₂ := s₁.setReg 8 (ofWord (word (s₁.gpr 8) + word (ImmOp.addiu.extend 0xFFFF)))
  let s₃ := s₂.setReg 8 (ofWord (word (s₂.gpr 8) + word (ImmOp.addiu.extend 0xFFFF)))
  have h₀ : countDownTranslation.cpu.Step 0x80000400 s₀ (.next 0x80000404) s₁ := .op hcode₀ rfl
  have h₁ : countDownTranslation.cpu.Step 0x80000404 s₁ (.next 0x80000408) s₂ := .op hcode₁ rfl
  have h₂ : countDownTranslation.cpu.Step 0x80000408 s₂ (.jump 0x80000404) s₂ :=
    .taken hcode₂ (by decide +kernel) hcode₃ rfl
  have h₃ : countDownTranslation.cpu.Step 0x80000404 s₂ (.next 0x80000408) s₃ := .op hcode₁ rfl
  have h₄ : countDownTranslation.cpu.Step 0x80000408 s₃ (.next 0x8000040C) s₃ :=
    .notTaken hcode₂ (by decide +kernel)
  have h₅ : countDownTranslation.cpu.Step 0x8000040C s₃ (.next 0x80000410) s₃ := .op hcode₃ rfl
  have h₆ : countDownTranslation.cpu.Step 0x80000410 s₃ (.register ra 0x80001000) s₃ :=
    .jumpReg hcode₄ hcode₅ rfl
  refine ⟨s₃, by decide +kernel, by decide +kernel, ?_, h₆, by decide +kernel⟩
  exact (((((Relation.ReflTransGen.single (.next h₀)).tail (.next h₁)).tail
    (.jump h₂ (by decide +kernel))).tail (.next h₃)).tail (.next h₄)).tail (.next h₅)

/-- The count down, as it is emitted. -/
def emittedCountDown : RecompiledFunction (sampleRecompiler countDown) where
  index := 0
  func := sampleFunction countDown
  tagReferenceRelocs := false
  jumpTables := []
  statics := []
  statics' := ((sampleRecompiler countDown).recompileFunctionImpl 0 false []).state
  items := ((sampleRecompiler countDown).recompileFunctionImpl 0 false []).items
  func_eq := rfl
  stubbed := rfl
  analysis := analyze_countDown
  fit := labelsFit_countDown
  described := described_countDown
  done := done_countDown
  handled := by decide +kernel

/-- The count down, with its second instruction as a dispatch entry. -/
def countDownDispatch : Recompiler where
  decoder := .ofId sampleId
  generator := cGenerator Context.empty
  context := { Context.empty with
    functions := [{ sampleFunction countDown with dispatchEntryVrams := [0x80000404] }] }
  discoverStaticCodeEntrypoint _ _ := false

end CountDown

end N64Recomp
