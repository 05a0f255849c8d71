import N64Recomp.Recompilation.EmittedLabels
import N64Recomp.Recompilation.TransferItems

/-!
# The parts of the simulation

How an emitted body goes on behind the parts of a transfer: at the code of an instruction, or out of
the body with a frame that says where the guest goes on.

## Main definitions

* `HostFrame.Settled`, `Context.ContinuesAt`: a frame inside of a body, and behind one
* `HostFunctions.Simulates`: a host whose functions leave what the guest's leave
* `Translation.Body`: a body, with what the simulation relies on

## Main results

* `Body.steps_behind`, `Body.steps_annulled`, `Body.steps_after`: the code behind a transfer
* `Body.leaves_tailcall`: a tail call leaves the body
* `HostFunctions.callText_simulates`: a call that the guest's function returns from
-/

namespace N64Recomp

open Emit FlatCode Mips

/-! ### Frames and hosts -/

/-- What a body leaves of its frame: where the sections are, how deep the loops are nested that drain
tail calls, and the dispatch entry that is asked for. -/
@[ext] structure Surroundings where
  sectionAddresses : BitVec 32 → BitVec 32
  tailcallDispatching : BitVec 32
  dispatchEntryTarget : BitVec 32

namespace HostFrame

/-- What surrounds a body. -/
def surroundings (f : HostFrame) : Surroundings :=
  ⟨f.machine.sectionAddresses, f.tailcallDispatching, f.dispatchEntryTarget⟩

/-- A frame inside of a body: nothing around it has changed, and no tail call is pending. -/
structure Settled (around : Surroundings) (f : HostFrame) : Prop where
  around_eq : f.surroundings = around
  settled : f.tailcallPending = false

theorem surroundings_machine {f : HostFrame} {machine : Machine} {result : BitVec 64}
    (h : machine.sectionAddresses = f.machine.sectionAddresses) :
    HostFrame.surroundings { f with machine, result } = f.surroundings :=
  congrArg (fun addresses => Surroundings.mk addresses f.tailcallDispatching f.dispatchEntryTarget) h

end HostFrame

/-- A frame that returned goes on at an address: at the one that the host's caller waits for, or at
the target of the tail call that it requests. -/
def Context.ContinuesAt (context : Context) (f : HostFrame) (pc : BitVec 32) : Prop :=
  if f.tailcallPending then
    f.tailcallTarget = pc ∧ ∀ name ∈ f.tailcallFunc, context.NamesEntry name pc
  else f.hostReturnTarget = pc

/-- What a called function leaves is handed to its caller: at once, or by the loop that drains tail
calls, when they are to addresses out of the caller and the loops are not nested too deep. -/
def HostFunctions.Drains (host : HostFunctions) (inside : BitVec 32 → Prop)
    (g g' : HostFrame) : Prop :=
  (g.tailcallPending = false ∧ g' = g) ∨
    g.tailcallPending = true ∧ ¬inside g.tailcallTarget ∧ ¬64 ≤ g.tailcallDispatching ∧
      host.handleTailcalls g = some g'

/-- A host whose functions leave what the guest's leave, which keep the stack pointer. `inside` has the
addresses of the caller. -/
structure HostFunctions.Simulates (host : HostFunctions) (context : Context) (around : Surroundings)
    (inside : BitVec 32 → Prop) (calls : BitVec 32 → State 30 → State 30 → Prop) : Prop where
  returns : ∀ called f pc s', called.Enters context pc → f.Settled around →
    f.hostReturnTarget = word (f.machine.toMips.gpr ra) → calls pc f.machine.toMips s' →
    ∃ g g', host.callFunction called f = some g ∧ host.Drains inside (g.withVariablesOf f) g' ∧
      g'.Settled around ∧
      f.machine.toMips.behindCall g'.machine.toMips = f.machine.toMips.behindCall s'
  stackPointer : ∀ pc s s', calls pc s s' → s'.gpr regSp = s.gpr regSp

/-! ### Registers -/

/-- The write of a register other than `$zero`. -/
theorem toMips_setGpr (m : Machine) {r : Reg} (hr : r ≠ 0) (x : BitVec 64) :
    ({ m with gpr := fun q => if q = r then x else m.gpr q } : Machine).toMips =
      m.toMips.setReg r x := by
  apply State.ext
  · funext q
    change (if q = 0 then 0 else if q = r then x else m.gpr q) =
      if q = r ∧ r ≠ 0 then x else if q = 0 then 0 else m.gpr q
    by_cases hq : q = r
    · subst hq
      rw [if_neg hr, if_pos rfl, if_pos ⟨rfl, hr⟩]
    · rw [if_neg hq, if_neg fun h : q = r ∧ r ≠ 0 => hq h.1]
  all_goals rfl

theorem toMips_gpr {m : Machine} {r : Reg} (hr : r ≠ 0) : m.toMips.gpr r = m.gpr r := if_neg hr

/-! ### Calls -/

namespace HostFunctions

variable {host : HostFunctions} {context : Context} {around : Surroundings}
  {inside : BitVec 32 → Prop} {calls : BitVec 32 → State 30 → State 30 → Prop} {labels : CallLabels}

/-- Behind a call, and the loop that drains its tail calls. -/
theorem tailcallHandling_of_drains {f g g' : HostFrame}
    (hmiss : ∀ v, ¬inside v → Label.at_ v ∉ labels.targets) (hdrains : host.Drains inside g g')
    (hvariables : g.withVariablesOf f = g) :
    host.tailcallHandling labels f g = callEpilogue f (g'.withVariablesOf f) .next := by
  unfold tailcallHandling
  rcases hdrains with ⟨hpending, rfl⟩ | ⟨hpending, hout, hdepth, hg'⟩
  · rw [hpending, if_neg Bool.false_ne_true, hvariables]
  · have htargets := hmiss _ hout
    rw [CallLabels.targets, List.mem_append, not_or] at htargets
    rw [hpending, if_pos rfl, if_neg, if_neg, if_neg hdepth, hg']
    · rintro ⟨-, hlocal⟩
      exact htargets.1 (List.mem_map_of_mem hlocal)
    · rintro ⟨hne, heq⟩
      rw [if_pos hne, heq] at htargets
      exact htargets.2 (List.mem_singleton_self _)

/-- **A call of a function that the guest's function returns from** goes on behind the call. -/
theorem callText_simulates (hhost : host.Simulates context around inside calls)
    (labels : CallLabels) (hmiss : ∀ v, ¬inside v → Label.at_ v ∉ labels.targets) {called : Called}
    {f : HostFrame} {pc : BitVec 32} {s' : State 30} (hcalled : called.Enters context pc)
    (hf : f.Settled around) (hcall : calls pc f.machine.toMips s') :
    ∃ g, host.callText called labels f = .next g ∧
      g.machine.toMips = f.machine.toMips.behindCall s' ∧ g.Settled around ∧
      g.hostReturnTarget = f.hostReturnTarget := by
  have htarget : (f.machine.gpr regRa).setWidth 32 = word (f.machine.toMips.gpr ra) :=
    congrArg word (toMips_gpr (m := f.machine) (r := ra) (by decide)).symm
  obtain ⟨g, g', hg, hdrains, hsettled, hstate⟩ := hhost.returns called
    { f with hostReturnTarget := (f.machine.gpr regRa).setWidth 32 } pc s' hcalled
    ⟨hf.around_eq, hf.settled⟩ htarget hcall
  have hdrained : host.Drains inside (g.withVariablesOf f) g' := hdrains
  have hsp : g'.machine.gpr regSp = f.machine.gpr regSp := by
    have hgpr := congrArg (fun s => s.gpr regSp) hstate
    have hkept := hhost.stackPointer pc _ _ hcall
    rw [toMips_gpr (by decide)] at hkept
    exact (toMips_gpr (m := g'.machine) (r := regSp) (by decide)).symm.trans (hgpr.trans hkept)
  refine ⟨{ g'.withVariablesOf f with hostReturnTarget := f.hostReturnTarget }, ?_, hstate,
    ⟨hsettled.around_eq, hsettled.settled⟩, rfl⟩
  unfold callText
  rw [hg]
  dsimp only
  rw [tailcallHandling_of_drains hmiss hdrained rfl, callEpilogue]
  exact if_neg (not_not_intro hsp)

end HostFunctions

namespace Translation

variable {t : Translation}

/-! ### Addresses -/

section Addresses

variable (h : t.Regular)

include h

theorem Regular.vram_getElem {j : Nat} (hj : j < t.instructions.length) :
    (t.instructions[j]).vram = t.vramAt j := by
  have hget := getElem?_decodeFrom t.func.vram t.func.words j
  rw [← h.decoded, List.getElem?_eq_getElem hj] at hget
  obtain ⟨word, -, heq⟩ := Option.map_eq_some_iff.mp hget.symm
  rw [← heq]
  rfl

/-- The instruction at an address of the function. -/
theorem Regular.flow_of_code {j : Nat} (hj : j ≤ t.instructions.length) {flow : Flow}
    (hcode : t.code (t.vramAt j) = some flow) :
    ∃ hj : j < t.instructions.length, (t.instructions[j]).flow t.decoder = some flow := by
  obtain ⟨instr, hfind, hflow⟩ := Option.bind_eq_some_iff.mp hcode
  obtain ⟨i, hi, rfl⟩ := List.mem_iff_getElem.mp (List.mem_of_find?_eq_some hfind)
  have hvram := List.find?_some hfind
  rw [decide_eq_true_iff] at hvram
  rw [h.vram_getElem hi] at hvram
  obtain rfl := h.vramAt_inj (Nat.le_of_lt hi) hj hvram
  exact ⟨hi, hflow⟩

theorem Regular.contains_iff {v : BitVec 32} : t.func.contains v = true ↔
    t.func.vram.toNat ≤ v.toNat ∧ v.toNat < t.func.vram.toNat + 4 * t.instructions.length := by
  have hlength : t.instructions.length = t.func.words.length := by
    rw [h.decoded]
    exact length_decodeFrom _ _
  have hsize : t.func.byteSize = 4 * t.instructions.length := by
    rw [hlength]
    exact Nat.mul_comm _ _
  rw [← hsize]
  exact Translation.contains_iff (hsize ▸ h.small)

theorem Regular.contains_vramAt {k : Nat} (hk : k < t.instructions.length) :
    t.func.contains (t.vramAt k) = true := by
  rw [h.contains_iff, h.toNat_vramAt (Nat.le_of_lt hk)]
  omega

/-- A label of the function is the address of an instruction. -/
theorem Regular.exists_of_isLocal {v : BitVec 32} (hin : t.func.contains v = true)
    (hv : t.IsLocal v) : ∃ k < t.instructions.length, v = t.vramAt k := by
  rcases hv with rfl | hv
  · have hpos := h.contains_iff.mp hin
    exact ⟨0, by omega, vramAt_zero.symm⟩
  · obtain ⟨k, -, hk, rfl⟩ := h.aligned v hv
    exact ⟨k, hk, rfl⟩

end Addresses

/-! ### Bodies -/

/-- **A body**: the layout of a function that the execution describes, whose calls name the functions
that they enter, and whose section is where it was linked. -/
structure Body (t : Translation) where
  lay : t.Layout
  front : List Item
  back : List Item
  around : Surroundings
  loaded : around.sectionAddresses (t.func.sectionIndex.setWidth 32) = t.funcSection.ramAddr
  regular : t.Regular
  described : t.Described
  entries : t.context.EntersTargets
  handled : ∀ i ∈ lay.blocksFrom 0, i.isHandled = true
  label : ∃ pre, front = pre ++ [.call (.label (.at_ t.func.vram))] ∧ labelsOf pre = []
  last : labelsOf back = []

namespace Body

variable (b : t.Body) (host : HostFunctions)

/-- The items of the body. -/
def items : List Item := b.front ++ (b.lay.blocksFrom 0 ++ b.back)

/-- The code from an instruction on. -/
def codeAt (k : Nat) : List Item := b.lay.codeAt b.back k

variable {b host} {f : HostFrame} {j k : Nat}

theorem step_label {l : Label} {rest : List Item} :
    Steps (t.execution host) b.items (.call (.label l) :: rest, f) (rest, f) := step_next rfl

/-- What is between the code of two instructions is labels. -/
theorem steps_blocks (hk : k ≤ t.instructions.length)
    (hlikely : (b.lay.state k).inLikelyDelaySlot = false) :
    Steps (t.execution host) b.items (b.lay.blocksFrom k ++ b.back, f) (b.codeAt k, f) := by
  have h := b.regular
  unfold codeAt Layout.codeAt
  by_cases hlt : k < t.instructions.length
  · rw [if_pos hlt, b.lay.blocksFrom_succ hlt, Layout.block, turnItems, skipJump, hlikely,
      b.lay.pendingLabel_cursor h hlt]
    simp only [List.append_assoc, Bool.false_eq_true, if_false, List.nil_append]
    split
    · exact step_label
    · exact .refl
  · obtain rfl := Nat.le_antisymm hk (Nat.not_lt.mp hlt)
    rw [if_neg hlt, b.lay.blocksFrom_length]
    exact .refl

theorem steps_skipLabel {s : LoopState} {rest : List Item} :
    Steps (t.execution host) b.items (skipLabel s ++ rest, f) (rest, f) := by
  unfold skipLabel
  split
  · exact step_label
  · exact .refl

/-- Behind the code of an instruction, that is no likely branch, is that of the next one. -/
theorem steps_behind (hj : j < t.instructions.length)
    (hlikely : (b.lay.state (j + 1)).inLikelyDelaySlot = false) :
    Steps (t.execution host) b.items
      (skipLabel (b.lay.state j) ++ (b.lay.blocksFrom (j + 1) ++ b.back), f) (b.codeAt (j + 1), f) :=
  steps_skipLabel.trans (steps_blocks hj hlikely)

/-- Behind a likely branch is a jump over its slot. -/
theorem steps_annulled (hj : j < t.instructions.length)
    (hlikely : (b.lay.state (j + 1)).inLikelyDelaySlot = true) :
    Steps (t.execution host) b.items
      (skipLabel (b.lay.state j) ++ (b.lay.blocksFrom (j + 1) ++ b.back), f)
      (b.codeAt (j + 2), f) := by
  have h := b.regular
  obtain ⟨hnext, hplain⟩ := b.lay.slot_of_state h hj (.inr hlikely)
  have hbehind := b.lay.behind_skip h b.label b.last hnext hlikely
  have hstate := (b.lay.state_of_plain h hnext hplain).2
  refine steps_skipLabel.trans (Relation.ReflTransGen.trans ?_ (steps_blocks hnext hstate))
  rw [b.lay.blocksFrom_succ hnext, Layout.block, turnItems, skipJump, hlikely]
  exact step_goto rfl hbehind

/-- The label behind a slot leads to the code behind the slot. -/
theorem steps_after (hj : j < t.instructions.length)
    (hneeds : (b.lay.state (j + 1)).needsLinkBranch = true) {rest : List Item} :
    Steps (t.execution host) b.items
      (.call (.goto (.after (b.lay.state j).numLinkBranches)) :: rest, f) (b.codeAt (j + 2), f) := by
  have h := b.regular
  obtain ⟨hnext, hplain⟩ := b.lay.slot_of_state h hj (.inl hneeds)
  have hcounter := b.lay.numLinkBranches_succ h hj hneeds
  have hbehind := b.lay.behind_after h b.label b.last hnext hneeds
  rw [hcounter] at hbehind
  exact (step_goto rfl hbehind).trans
    (steps_behind hnext (b.lay.state_of_plain h hnext hplain).2)

/-- A jump to an instruction of the function. -/
theorem steps_goto (hk : k < t.instructions.length) (hlocal : t.IsLocal (t.vramAt k))
    {i : Item} {f' : HostFrame} {rest : List Item}
    (hi : (t.execution host).effect i f = .goto (.at_ (t.vramAt k)) f') :
    Steps (t.execution host) b.items (i :: rest, f) (b.codeAt k, f') :=
  step_goto hi (b.lay.behind_at b.regular b.label b.last hk hlocal)

/-! ### Slots and links -/

/-- The slot of a transfer, executed. -/
theorem steps_slot (b : t.Body) {slotItems : List Item} {o : Op} {s' : State 30}
    (hslot : t.Executes host slotItems o) (hf : f.Settled b.around)
    (hexec : o.exec window f.machine.toMips = some s') :
    ∃ machine result, (∀ rest, Steps (t.execution host) b.items (slotItems ++ rest, f)
        (rest, { f with machine, result })) ∧ machine.toMips = s' ∧
      HostFrame.Settled b.around { f with machine, result } := by
  obtain ⟨machine, result, hrun, hstate, hsections⟩ := hslot.run f s' hexec
  exact ⟨machine, result, fun _ => steps_runNext hrun, hstate,
    ⟨(HostFrame.surroundings_machine hsections).trans hf.around_eq, hf.settled⟩⟩

/-- The write of a link register, executed. -/
theorem steps_link (b : t.Body) (host : HostFunctions) (pc : BitVec 32) {link : Option Reg}
    (hlink : link ≠ some 0) (hf : f.Settled b.around) :
    ∃ machine, (∀ rest, Steps (t.execution host) b.items (linkItems pc link ++ rest, f)
        (rest, { f with machine })) ∧
      machine.toMips = t.cpu.link pc f.machine.toMips link ∧
      HostFrame.Settled b.around { f with machine } := by
  cases link with
  | none => exact ⟨f.machine, fun _ => .refl, rfl, hf⟩
  | some r =>
    have hr : r ≠ 0 := fun heq => hlink (congrArg some heq)
    exact ⟨_, fun _ => step_next rfl, toMips_setGpr f.machine hr _, ⟨hf.around_eq, hf.settled⟩⟩

/-! ### Tail calls -/

/-- The traced return. -/
theorem leaves_return {rest : List Item} :
    Leaves (t.execution host) b.items (t.traceItems ++ [.raw .return_] ++ rest, f) () f := by
  unfold traceItems
  split
  · exact Steps.leaves (step_next rfl) (leaves_of_effect rfl)
  · exact leaves_of_effect rfl

/-- A tail call leaves the body. -/
theorem leaves_tailcall {target : BitVec 32} {request : Raw} {rest : List Item}
    (hrequest : t.Requests target request) (hf : f.Settled b.around) :
    ∃ g, Leaves (t.execution host) b.items (t.tailcallItems target request ++ rest, f) () g ∧
      g.machine = f.machine ∧ t.context.ContinuesAt g target ∧ g.surroundings = b.around := by
  by_cases hhost : target = f.hostReturnTarget
  · refine ⟨f, leaves_of_effect (if_pos hhost), rfl, ?_, hf.around_eq⟩
    rw [Context.ContinuesAt, hf.settled]
    exact hhost.symm
  · have hnext : (t.execution host).effect (.raw (.hostReturn target t.context.traceMode)) f =
        .next f := if_neg hhost
    cases hrequest with
    | address =>
      exact ⟨f.requestTailcall target none,
        Steps.leaves (step_next hnext) (Steps.leaves (step_next rfl) leaves_return), rfl,
        ⟨rfl, fun name hname => by cases hname⟩, hf.around_eq⟩
    | @function name hname =>
      refine ⟨f.requestTailcall target (some name),
        Steps.leaves (step_next hnext) (Steps.leaves (step_next rfl) leaves_return), rfl,
        ⟨rfl, fun name' hname' => ?_⟩, hf.around_eq⟩
      obtain rfl := Option.some.inj hname'
      exact hname

/-- A tail call through a register leaves the body. -/
theorem leaves_tailcallRegister {reg : Reg} {rest : List Item} (hf : f.Settled b.around) :
    ∃ g, Leaves (t.execution host) b.items (t.tailcallRegisterItems reg ++ rest, f) () g ∧
      g.machine = f.machine ∧ t.context.ContinuesAt g (word (f.machine.toMips.gpr reg)) ∧
      g.surroundings = b.around :=
  ⟨f.requestTailcall _ none, Steps.leaves (step_next rfl) leaves_return, rfl,
    ⟨rfl, fun name hname => by cases hname⟩, hf.around_eq⟩

/-- The labels of a call are in the function. -/
theorem misses_of_core (b : t.Body) (hj : j < t.instructions.length) {i : Item}
    (hi : i ∈ b.lay.core j) {v : BitVec 32} (hout : t.func.contains v = false) :
    .at_ v ∉ i.targets := by
  intro htarget
  have hlocal : t.IsLocal v := by
    obtain ⟨body, hcore, hlabels⟩ := (b.lay.items b.regular hj).labels
    rw [hcore] at hi
    rcases List.mem_append.mp hi with hi | hi
    · rcases hlabels.goes i hi _ htarget with ⟨w, hw, hlocal⟩ | ⟨hafter, -⟩
      · exact Label.at_.inj hw ▸ hlocal
      · cases hafter
    · unfold afterLabel at hi
      split at hi
      · obtain rfl := List.mem_singleton.mp hi
        cases htarget
      · cases hi
  rcases hlocal with rfl | hlabel
  · have hstart := b.regular.contains_vramAt (Nat.lt_of_le_of_lt (Nat.zero_le j) hj)
    rw [vramAt_zero, hout] at hstart
    cases hstart
  · obtain ⟨k, -, hk, rfl⟩ := b.regular.aligned v hlabel
    rw [b.regular.contains_vramAt hk] at hout
    cases hout

end Body

end Translation

end N64Recomp
