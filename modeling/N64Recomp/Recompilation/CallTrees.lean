import N64Recomp.Recompilation.LinkedHosts

/-!
# Call trees

A call of the guest's, with all the calls and the tail calls below it, is done by the functions that
are emitted for the program, when they are linked.

## Main definitions

* `Program.Runs`, `Program.Calls`: the runs of the guest from an entry to the return
* `Program.SimulatesAt`, `Program.DrainsAt`: calls, and the loop behind them, that follow the guest

## Main results

* `Program.simulates`: the emitted functions, called, do what the guest's do
* `call_tree_simulates`: the text of a call runs the whole tree of calls below it
-/

namespace N64Recomp

open Emit FlatCode Mips

variable {r : Recompiler}

namespace Program

variable (program : Program r)

/-- **The runs of the guest from an entry to where its caller waits**, over at most as many functions
one below the other, and one behind the other, as the first number says. Control comes back through
`$ra`, or goes on in a function that is called in place of the first one: `depth` is how deep the loops
are nested that drain tail calls, and `tailDepth` how deep the loop is that drains those of the
function. The first tail call is not to an address of `inside`. -/
def Runs : Nat → Nat → Nat → (BitVec 32 → Prop) → BitVec 32 → State 30 → State 30 → Prop
  | 0, _, _, _, _, _, _ => False
  | n + 1, depth, tailDepth, inside, pc, s, s' =>
    ∃ F ∈ program, F.func.entry = pc ∧ ∃ c,
      F.BodyRun (fun target s₁ s₂ =>
        Runs n depth (depth + 1) (F.func.contains · = true) target s₁ s₂ ∧
          s₂.gpr regSp = s₁.gpr regSp) (pc, s.atEntry) c ∧
      ((F.translation.cpu.Step c.1 c.2 (.register ra (word (s.gpr ra))) s' ∧
          word (s.gpr ra) ∉ F.translation.branchLabels) ∨
        ∃ pc' s₁, F.BodyExit c (pc', s₁) ∧ pc' ≠ word (s.gpr ra) ∧ ¬inside pc' ∧
          word (s₁.gpr ra) = word (s.gpr ra) ∧ tailDepth ≤ 64 ∧
          Runs n tailDepth tailDepth (fun _ => False) pc' s₁ s')

/-- A call of the guest's, which keeps the stack pointer. -/
def Calls (n depth : Nat) (inside : BitVec 32 → Prop) (pc : BitVec 32) (s s' : State 30) : Prop :=
  program.Runs n depth (depth + 1) inside pc s s' ∧ s'.gpr regSp = s.gpr regSp

end Program

namespace Program

variable {program : Program r} {host : HostFunctions} {n depth tailDepth : Nat} {inside : BitVec 32 → Prop}
  {f : HostFrame} {pc : BitVec 32} {s s' : State 30}

/-- What an emitted function leaves, when the guest's runs to its return: the guest's state, or a
request of the function that the guest goes on in. -/
structure Left (program : Program r) (n tailDepth : Nat) (inside : BitVec 32 → Prop) (s s' : State 30)
    (f g : HostFrame) : Prop where
  around : g.surroundings = f.bodySurroundings
  hostReturnTarget : g.hostReturnTarget = f.hostReturnTarget
  state : (g.tailcallPending = false ∧ g.machine.toMips = s') ∨
    g.tailcallPending = true ∧ tailDepth ≤ 64 ∧ ¬inside g.tailcallTarget ∧
      r.context.ContinuesAt g g.tailcallTarget ∧
      program.Runs n tailDepth tailDepth (fun _ => False) g.tailcallTarget g.machine.toMips s' ∧
      word (g.machine.toMips.gpr ra) = word (s.gpr ra)

/-- **One function of a run**, when the functions that it calls do what the guest's do. -/
theorem exists_left (hentries : r.context.EntersTargets)
    (hloaded : ∀ F ∈ program, F.IsLoaded f.machine.sectionAddresses)
    (hhost : ∀ F ∈ program, host.Simulates r.context f.bodySurroundings (F.func.contains · = true)
      (program.Calls n depth (F.func.contains · = true)))
    (hpending : f.tailcallPending = false) (hentry : f.dispatchEntryTarget = 0)
    (hreturn : f.hostReturnTarget = word (s.gpr ra)) (hstate : f.machine.toMips.atEntry = s.atEntry)
    (h : program.Runs (n + 1) depth tailDepth inside pc s s') :
    ∃ F ∈ program, F.func.entry = pc ∧ ∃ g, F.Returns host f g ∧
      program.Left n tailDepth inside s s' f g := by
  obtain ⟨F, hF, rfl, c, hrun, hexit⟩ := h
  have hstart : F.func.start f.dispatchEntryTarget = F.func.entry := if_pos hentry
  rw [← hstart, ← hstate] at hrun
  obtain ⟨b, k, g, hitems, haround, hk, hpc, hg, hsettled, hsteps⟩ :=
    F.exists_run hentries (hloaded F hF) (hhost F hF) hpending (.inl hentry) hrun
  obtain ⟨pc, s₁⟩ := c
  obtain rfl : pc = F.translation.vramAt k := hpc
  obtain rfl : g.machine.toMips = s₁ := hg
  refine ⟨F, hF, rfl, ?_⟩
  rcases hexit with ⟨hstep, hlabel⟩ | ⟨pc', s₂, hexit, hne, hout, hra, hdepth, hruns⟩
  · obtain ⟨hj, o, hcode, hexec, hpc, hflow⟩ :=
      Translation.Body.register_of_step b.regular hk none hstep
    rw [hpc] at hlabel
    have hleaves : b.ReturnsTo host (b.codeAt k, g) (word (g.machine.toMips.gpr ra)) s' :=
      Translation.Body.returns_jrHostReturn hj hflow hsettled hcode hexec hlabel
    obtain ⟨g', hleaves, hstate', hcontinues, haround', hreturned⟩ := hleaves
    rw [hitems] at hleaves
    have hreturns : F.Returns host f g' := hsteps.leaves hleaves
    have hkept := hreturns.hostReturnTarget
    exact ⟨g', hreturns, haround'.trans haround, hkept,
      .inl ⟨hreturned (hkept.trans (hreturn.trans hpc)), hstate'⟩⟩
  · have hleaves : b.LeavesTo host (b.codeAt k, g) pc' s₂ :=
      Translation.Body.exit_simulates hk hsettled hexit
    obtain ⟨g', hleaves, hstate', hcontinues, haround'⟩ := hleaves
    rw [hitems] at hleaves
    have hreturns : F.Returns host f g' := hsteps.leaves hleaves
    have hkept := hreturns.hostReturnTarget
    refine ⟨g', hreturns, haround'.trans haround, hkept, .inr ?_⟩
    cases hrequested : g'.tailcallPending with
    | false =>
      rw [Context.ContinuesAt, hrequested, if_neg Bool.false_ne_true] at hcontinues
      exact absurd (hcontinues.symm.trans (hkept.trans hreturn)) hne
    | true =>
      have htarget : g'.tailcallTarget = pc' := by
        rw [Context.ContinuesAt, hrequested, if_pos rfl] at hcontinues
        exact hcontinues.1
      rw [htarget, hstate']
      exact ⟨rfl, hdepth, hout, hcontinues, hruns, hra⟩

/-- The functions that are called in a frame do what the guest's do. -/
def SimulatesAt (host : HostFunctions) (program : Program r) (n : Nat) : Prop :=
  ∀ (depth : Nat) (around : Surroundings) (inside : BitVec 32 → Prop),
    around.tailcallDispatching = BitVec.ofNat 32 depth → around.dispatchEntryTarget = 0 →
    (∀ F ∈ program, F.IsLoaded around.sectionAddresses) →
    host.Simulates r.context around inside (program.Calls n depth inside)

/-- The loop that drains tail calls goes on as the guest does, up to the return. -/
def DrainsAt (host : HostFunctions) (program : Program r) (n : Nat) : Prop :=
  ∀ (depth : Nat) (f : HostFrame) (s s' : State 30), f.tailcallPending = true →
    f.surroundings = ⟨f.machine.sectionAddresses, BitVec.ofNat 32 depth, 0⟩ →
    (∀ F ∈ program, F.IsLoaded f.machine.sectionAddresses) →
    r.context.ContinuesAt f f.tailcallTarget → f.hostReturnTarget = word (s.gpr ra) →
    f.machine.toMips.atEntry = s.atEntry →
    program.Runs n (depth + 1) (depth + 1) (fun _ => False) f.tailcallTarget s s' →
    ∃ g, host.handleTailcalls f = some g ∧ g.Settled f.surroundings ∧ g.machine.toMips = s'

section Links

variable (hlinks : host.Links program) (hentries : r.context.EntersTargets)
  (hsimulates : SimulatesAt host program n)

include hlinks hentries hsimulates

theorem drains_succ (hdrains : DrainsAt host program n) : DrainsAt host program (n + 1) := by
  intro depth f s s' hpending haround hloaded hcontinues hreturn hstate hruns
  have hentry : f.dispatchEntryTarget = 0 := congrArg Surroundings.dispatchEntryTarget haround
  have hdepth : f.tailcallDispatching = BitVec.ofNat 32 depth :=
    congrArg Surroundings.tailcallDispatching haround
  -- the loop runs the function one level deeper
  have hdeeper : f.drained.bodySurroundings.tailcallDispatching = BitVec.ofNat 32 (depth + 1) := by
    rw [BitVec.ofNat_add, ← hdepth]
    rfl
  have hhost : ∀ F ∈ program, host.Simulates r.context f.drained.bodySurroundings
      (F.func.contains · = true) (program.Calls n (depth + 1) (F.func.contains · = true)) :=
    fun F _ => hsimulates (depth + 1) _ _ hdeeper rfl hloaded
  obtain ⟨F, hF, hpc, g, hreturns, hleft⟩ :=
    exists_left (f := f.drained) hentries hloaded hhost rfl hentry hreturn hstate hruns
  have hhandled := hlinks.drain F hF f g hpending hentry (hpc ▸ hcontinues) hreturns
  have hbehind : (g.behindDrained f).surroundings = f.surroundings := by
    have haddresses := congrArg Surroundings.sectionAddresses hleft.around
    have hzero := congrArg Surroundings.dispatchEntryTarget hleft.around
    exact Surroundings.ext haddresses rfl (hzero.trans hentry.symm)
  rcases hleft.state with ⟨hdone, hstate'⟩ | ⟨hagain, -, -, hcontinues', hruns', hra⟩
  · rw [hdone, if_neg Bool.false_ne_true] at hhandled
    exact ⟨_, hhandled, ⟨hbehind, hdone⟩, hstate'⟩
  · rw [hagain, if_pos rfl] at hhandled
    have haddresses : (g.behindDrained f).machine.sectionAddresses = f.machine.sectionAddresses :=
      congrArg Surroundings.sectionAddresses hbehind
    obtain ⟨g', hg', hsettled, hstate'⟩ := hdrains depth (g.behindDrained f) g.machine.toMips s'
      hagain (by rw [haddresses]; exact hbehind.trans haround) (haddresses ▸ hloaded) hcontinues'
      (hleft.hostReturnTarget.trans (hreturn.trans hra.symm)) rfl hruns'
    exact ⟨g', hhandled.trans hg', hbehind ▸ hsettled, hstate'⟩

theorem simulates_succ (hdrains : DrainsAt host program n) : SimulatesAt host program (n + 1) := by
  intro depth around inside hdepth hzero hloaded
  refine ⟨fun called f pc s' henters hsettled hreturn hcall => ?_, fun pc s s' h => h.2⟩
  obtain rfl := hsettled.around_eq
  have hentry : f.dispatchEntryTarget = 0 := hzero
  have haround : f.bodySurroundings = f.surroundings := Surroundings.ext rfl rfl hentry.symm
  have hhost : ∀ F ∈ program, host.Simulates r.context f.bodySurroundings
      (F.func.contains · = true) (program.Calls n depth (F.func.contains · = true)) :=
    fun F _ => hsimulates depth _ _ hdepth rfl hloaded
  obtain ⟨F, hF, hpc, g, hreturns, hleft⟩ :=
    exists_left hentries hloaded hhost hsettled.settled hentry hreturn rfl hcall.1
  have hcalled := hlinks.call F hF called f g (hpc ▸ henters) hentry hreturns
  have hsame : (g.withVariablesOf f).surroundings = f.surroundings := hleft.around.trans haround
  rcases hleft.state with ⟨hdone, rfl⟩ | ⟨hagain, htail, hout, hcontinues, hruns, hra⟩
  · exact ⟨g, g.withVariablesOf f, hcalled, .inl ⟨hdone, rfl⟩, ⟨hsame, hdone⟩, rfl⟩
  · have haddresses : (g.withVariablesOf f).machine.sectionAddresses = f.machine.sectionAddresses :=
      congrArg Surroundings.sectionAddresses hsame
    have hlevel : (g.withVariablesOf f).surroundings =
        ⟨(g.withVariablesOf f).machine.sectionAddresses, BitVec.ofNat 32 depth, 0⟩ :=
      hsame.trans (Surroundings.ext haddresses.symm hdepth hentry)
    obtain ⟨g', hg', hsettled', rfl⟩ := hdrains depth (g.withVariablesOf f) g.machine.toMips s'
      hagain hlevel (haddresses ▸ hloaded) hcontinues
      (hleft.hostReturnTarget.trans (hreturn.trans hra.symm)) rfl hruns
    have hshallow : ¬64 ≤ (g.withVariablesOf f).tailcallDispatching := by
      have hlt : (g.withVariablesOf f).tailcallDispatching = BitVec.ofNat 32 depth :=
        congrArg Surroundings.tailcallDispatching hlevel
      rw [hlt, BitVec.le_def, BitVec.toNat_ofNat, Nat.mod_eq_of_lt (by omega)]
      exact Nat.not_le.mpr htail
    exact ⟨g, g', hcalled, .inr ⟨hagain, hout, hshallow, hg'⟩, hsame ▸ hsettled', rfl⟩

end Links

/-- **The emitted functions, called, do what the guest's do**, over any number of calls and of tail
calls one below the other. -/
theorem simulates (hlinks : host.Links program) (hentries : r.context.EntersTargets) (n : Nat) :
    SimulatesAt host program n ∧ DrainsAt host program n := by
  induction n with
  | zero =>
    refine ⟨fun depth around inside _ _ _ => ⟨fun _ _ _ _ _ _ _ h => h.1.elim, fun _ _ _ h => h.2⟩, ?_⟩
    exact fun _ _ _ _ _ _ _ _ _ _ h => h.elim
  | succ n ih =>
    exact ⟨simulates_succ hlinks hentries ih.1 ih.2, drains_succ hlinks hentries ih.1 ih.2⟩

end Program

end N64Recomp
