import N64Recomp.Recompilation.RecompiledFunction

/-!
# Linked programs

The functions that are emitted for a program are linked with a runtime, which looks functions up, and
drains the tail calls that are requested: it runs the functions, which call functions in turn. The
functions of any program can be linked, when no two of them are entered by one call.

## Main definitions

* `Program`, `HostFunctions.Links`: a host that runs the functions of a program
* `HostFunctions.Extends`: a host that runs what another one runs, and more
* `Program.hosts`: the hosts that run the functions up to a depth

## Main results

* `HostFunctions.Extends.execution`: a body runs as before on a host that runs more
* `Program.exists_links`: the functions of a program can be linked
-/

namespace N64Recomp

open Emit FlatCode Mips

/-- The functions that are linked. -/
abbrev Program (r : Recompiler) := Set (RecompiledFunction r)

namespace HostFrame

/-- The frame in which the loop that drains tail calls runs a function. -/
def drained (f : HostFrame) : HostFrame :=
  { f.clearTailcall with tailcallDispatching := f.tailcallDispatching + 1 }

/-- What the function left, in the loop. -/
def behindDrained (g f : HostFrame) : HostFrame :=
  { g with tailcallDispatching := f.tailcallDispatching }

end HostFrame

variable {r : Recompiler}

/-- **A host that runs the functions of a program**: those that are called, by their names or looked
up, and in a loop those that are requested by tail calls, one level deeper. -/
structure HostFunctions.Links (host : HostFunctions) (program : Program r) : Prop where
  call : ∀ F ∈ program, ∀ called f g, called.Enters r.context F.func.entry →
    f.dispatchEntryTarget = 0 → F.Returns host f g → host.callFunction called f = some g
  drain : ∀ F ∈ program, ∀ f g, f.tailcallPending = true → f.dispatchEntryTarget = 0 →
    r.context.ContinuesAt f F.func.entry → F.Returns host f.drained g →
    host.handleTailcalls f =
      if g.tailcallPending then host.handleTailcalls (g.behindDrained f)
      else some (g.behindDrained f)

/-! ### Hosts that run more -/

namespace HostFunctions

/-- A host that runs what another one runs, and more. -/
structure Extends (host host' : HostFunctions) : Prop where
  longProducts : host'.longProducts = host.longProducts
  callFunction : ∀ called f g, host.callFunction called f = some g →
    host'.callFunction called f = some g
  handleTailcalls : ∀ f g, host.handleTailcalls f = some g → host'.handleTailcalls f = some g

variable {host host' host'' : HostFunctions}

theorem Extends.refl (host : HostFunctions) : host.Extends host :=
  ⟨rfl, fun _ _ _ h => h, fun _ _ h => h⟩

theorem Extends.trans (h : host.Extends host') (h' : host'.Extends host'') : host.Extends host'' :=
  ⟨h'.longProducts.trans h.longProducts,
    fun called f g hg => h'.callFunction called f g (h.callFunction called f g hg),
    fun f g hg => h'.handleTailcalls f g (h.handleTailcalls f g hg)⟩

theorem Extends.tailcallHandling (h : host.Extends host') {labels : CallLabels} {f g : HostFrame}
    (hstop : host.tailcallHandling labels f g ≠ .stop) :
    host'.tailcallHandling labels f g = host.tailcallHandling labels f g := by
  unfold HostFunctions.tailcallHandling at hstop ⊢
  cases hhandled : host.handleTailcalls g with
  | some g' => rw [h.handleTailcalls g g' hhandled]
  | none =>
    rw [hhandled] at hstop
    split_ifs at hstop ⊢
    · rfl
    · rfl
    · rfl
    · exact absurd rfl hstop
    · rfl

theorem Extends.callText (h : host.Extends host') {called : Called} {labels : CallLabels}
    {f : HostFrame} (hstop : host.callText called labels f ≠ .stop) :
    host'.callText called labels f = host.callText called labels f := by
  unfold HostFunctions.callText at hstop ⊢
  cases hcalled : host.callFunction called
      { f with hostReturnTarget := (f.machine.gpr regRa).setWidth 32 } with
  | none =>
    rw [hcalled] at hstop
    exact absurd rfl hstop
  | some g =>
    rw [hcalled] at hstop
    rw [h.callFunction called _ g hcalled]
    exact h.tailcallHandling hstop

/-- Two hosts that answer a call in the same way. -/
theorem callText_congr {called : Called} {labels : CallLabels} {f f' : HostFrame}
    (hf : f' = { f with hostReturnTarget := (f.machine.gpr regRa).setWidth 32 })
    (hcall : host.callFunction called f' = host'.callFunction called f')
    (hhandle : ∀ g, host'.callFunction called f' = some g →
      host.handleTailcalls (g.withVariablesOf f) = host'.handleTailcalls (g.withVariablesOf f)) :
    host.callText called labels f = host'.callText called labels f := by
  unfold HostFunctions.callText
  rw [← hf, hcall]
  cases hg : host'.callFunction called f' with
  | none => rfl
  | some g =>
    dsimp only
    unfold HostFunctions.tailcallHandling
    rw [hhandle g hg]

/-- **A body runs as before on a host that runs more.** -/
theorem Extends.execution (h : host.Extends host') (t : Translation) :
    (t.execution host).Extends (t.execution host') where
  label := rfl
  opens := rfl
  closes := rfl
  effect i f hstop := by
    cases i with
    | raw => rfl
    | call c =>
      cases c
      case functionCallLookup => exact h.callText hstop
      case functionCallByRegister => exact h.callText hstop
      case namedFunctionCall => exact h.callText hstop
      case functionCall i labels =>
        change t.callEffect host f (.functionCall i labels) ≠ .stop at hstop
        change t.callEffect host' f (.functionCall i labels) =
          t.callEffect host f (.functionCall i labels)
        unfold Translation.callEffect at hstop ⊢
        dsimp only at hstop ⊢
        cases hfunc : t.context.functions[i]? with
        | none => rfl
        | some func =>
          rw [hfunc] at hstop
          exact h.callText hstop
      case muldiv id reg1 reg2 =>
        exact congrArg (fun products =>
          execMuldivText products (CGenerator.emitMuldiv id reg1 reg2) f) h.longProducts
      all_goals rfl

/-! ### Limits -/

/-- A host that runs what one of a chain of hosts runs. -/
structure IsLimit (hosts : Nat → HostFunctions) (host : HostFunctions) : Prop where
  mono : ∀ m n, m ≤ n → (hosts m).Extends (hosts n)
  extends_ : ∀ n, (hosts n).Extends host
  callFunction : ∀ called f g, host.callFunction called f = some g →
    ∃ n, (hosts n).callFunction called f = some g
  handleTailcalls : ∀ f g, host.handleTailcalls f = some g →
    ∃ n, (hosts n).handleTailcalls f = some g

namespace IsLimit

variable {hosts : Nat → HostFunctions} (h : IsLimit hosts host)

include h

/-- From some host on, a call is answered as in the limit. -/
theorem exists_call (called : Called) (f : HostFrame) :
    ∃ m, ∀ n, m ≤ n → (hosts n).callFunction called f = host.callFunction called f := by
  cases hcall : host.callFunction called f with
  | none =>
    refine ⟨0, fun n _ => Option.eq_none_iff_forall_ne_some.mpr fun g hg => ?_⟩
    rw [(h.extends_ n).callFunction called f g hg] at hcall
    cases hcall
  | some g =>
    obtain ⟨m, hm⟩ := h.callFunction called f g hcall
    exact ⟨m, fun n hn => (h.mono m n hn).callFunction called f g hm⟩

theorem exists_handle (f : HostFrame) :
    ∃ m, ∀ n, m ≤ n → (hosts n).handleTailcalls f = host.handleTailcalls f := by
  cases hhandle : host.handleTailcalls f with
  | none =>
    refine ⟨0, fun n _ => Option.eq_none_iff_forall_ne_some.mpr fun g hg => ?_⟩
    rw [(h.extends_ n).handleTailcalls f g hg] at hhandle
    cases hhandle
  | some g =>
    obtain ⟨m, hm⟩ := h.handleTailcalls f g hhandle
    exact ⟨m, fun n hn => (h.mono m n hn).handleTailcalls f g hm⟩

theorem exists_callText (called : Called) (labels : CallLabels) (f : HostFrame) :
    ∃ n, (hosts n).callText called labels f = host.callText called labels f := by
  obtain ⟨m, hm⟩ := h.exists_call called
    { f with hostReturnTarget := (f.machine.gpr regRa).setWidth 32 }
  cases hcall : host.callFunction called
      { f with hostReturnTarget := (f.machine.gpr regRa).setWidth 32 } with
  | none =>
    refine ⟨m, callText_congr rfl (hm m le_rfl) fun g hg => ?_⟩
    rw [hcall] at hg
    cases hg
  | some g =>
    obtain ⟨n, hn⟩ := h.exists_handle (g.withVariablesOf f)
    refine ⟨max m n, callText_congr rfl (hm _ (Nat.le_max_left m n)) fun g' hg' => ?_⟩
    obtain rfl := Option.some.inj (hcall.symm.trans hg')
    exact hn _ (Nat.le_max_right m n)

/-- **What leaves a body on the limit leaves it on one of the hosts.** -/
theorem exists_returns {F : RecompiledFunction r} {f g : HostFrame} (hreturns : F.Returns host f g) :
    ∃ n, F.Returns (hosts n) f g := by
  refine Leaves.exists_of_limit (fun m n hmn => (h.mono m n hmn).execution F.translation)
    (fun n => (h.extends_ n).execution F.translation) (fun i f => ?_) hreturns
  cases i with
  | raw => exact ⟨0, rfl⟩
  | call c =>
    cases c
    case functionCallLookup => exact h.exists_callText _ _ f
    case functionCallByRegister => exact h.exists_callText _ _ f
    case namedFunctionCall => exact h.exists_callText _ _ f
    case functionCall i labels =>
      cases hfunc : F.translation.context.functions[i]? with
      | none =>
        refine ⟨0, ?_⟩
        change F.translation.callEffect (hosts 0) f (.functionCall i labels) =
          F.translation.callEffect host f (.functionCall i labels)
        unfold Translation.callEffect
        dsimp only
        rw [hfunc]
      | some func =>
        obtain ⟨n, hn⟩ := h.exists_callText (.named func.name) labels f
        refine ⟨n, ?_⟩
        change F.translation.callEffect (hosts n) f (.functionCall i labels) =
          F.translation.callEffect host f (.functionCall i labels)
        unfold Translation.callEffect
        dsimp only
        rw [hfunc]
        exact hn
    case muldiv id reg1 reg2 =>
      exact ⟨0, congrArg (fun products =>
        execMuldivText products (CGenerator.emitMuldiv id reg1 reg2) f)
        (h.extends_ 0).longProducts.symm⟩
    all_goals exact ⟨0, rfl⟩

end IsLimit

end HostFunctions

/-! ### The hosts of a program -/

namespace Program

variable (program : Program r) (products : LongProducts)

/-- The functions of a program are entered by calls of their own. -/
def Distinct : Prop := ∀ F ∈ program, ∀ F' ∈ program, ∀ called : Called,
  called.Enters r.context F.func.entry → called.Enters r.context F'.func.entry → F = F'

open Classical in
/-- The host that runs the functions of a program, whose calls another host runs. -/
noncomputable def nextHost (host : HostFunctions) : HostFunctions where
  longProducts := products
  callFunction called f :=
    if h : ∃ g, ∃ F ∈ program, called.Enters r.context F.func.entry ∧ f.dispatchEntryTarget = 0 ∧
      F.Returns host f g then some h.choose
    else none
  handleTailcalls f :=
    if h : ∃ g, ∃ F ∈ program, f.tailcallPending = true ∧ f.dispatchEntryTarget = 0 ∧
        r.context.ContinuesAt f F.func.entry ∧ F.Returns host f.drained g then
      if h.choose.tailcallPending then host.handleTailcalls (h.choose.behindDrained f)
      else some (h.choose.behindDrained f)
    else none

/-- The hosts that run the functions up to a depth. -/
noncomputable def hosts : Nat → HostFunctions
  | 0 => ⟨products, fun _ _ => none, fun _ => none⟩
  | n + 1 => program.nextHost products (hosts n)

variable {program products} {host : HostFunctions} {F : RecompiledFunction r} {called : Called}
  {f g : HostFrame}

theorem nextHost_call (hdistinct : program.Distinct) (hF : F ∈ program)
    (hcalled : called.Enters r.context F.func.entry) (hentry : f.dispatchEntryTarget = 0)
    (hreturns : F.Returns host f g) :
    (program.nextHost products host).callFunction called f = some g := by
  have h : ∃ g, ∃ F ∈ program, called.Enters r.context F.func.entry ∧ f.dispatchEntryTarget = 0 ∧
      F.Returns host f g := ⟨g, F, hF, hcalled, hentry, hreturns⟩
  obtain ⟨F', hF', hcalled', -, hreturns'⟩ := h.choose_spec
  obtain rfl := hdistinct F hF F' hF' called hcalled hcalled'
  exact (dif_pos h).trans (congrArg some (Leaves.unique hreturns' hreturns).2)

theorem exists_of_nextHost_call
    (h : (program.nextHost products host).callFunction called f = some g) :
    ∃ F ∈ program, called.Enters r.context F.func.entry ∧ f.dispatchEntryTarget = 0 ∧
      F.Returns host f g := by
  unfold nextHost at h
  dsimp only at h
  split at h
  · rename_i hexists
    exact Option.some.inj h ▸ hexists.choose_spec
  · cases h

/-- The entry that a request goes to. -/
theorem tailcallTarget_eq {pc : BitVec 32} (hpending : f.tailcallPending = true)
    (h : r.context.ContinuesAt f pc) : f.tailcallTarget = pc := by
  rw [Context.ContinuesAt, hpending, if_pos rfl] at h
  exact h.1

theorem nextHost_drain (hdistinct : program.Distinct) (hF : F ∈ program)
    (hpending : f.tailcallPending = true) (hentry : f.dispatchEntryTarget = 0)
    (hcontinues : r.context.ContinuesAt f F.func.entry) (hreturns : F.Returns host f.drained g) :
    (program.nextHost products host).handleTailcalls f =
      if g.tailcallPending then host.handleTailcalls (g.behindDrained f)
      else some (g.behindDrained f) := by
  have h : ∃ g, ∃ F ∈ program, f.tailcallPending = true ∧ f.dispatchEntryTarget = 0 ∧
      r.context.ContinuesAt f F.func.entry ∧ F.Returns host f.drained g :=
    ⟨g, F, hF, hpending, hentry, hcontinues, hreturns⟩
  obtain ⟨F', hF', -, -, hcontinues', hreturns'⟩ := h.choose_spec
  have hentries : (Called.lookup F.func.entry).Enters r.context F'.func.entry :=
    (tailcallTarget_eq hpending hcontinues).symm.trans (tailcallTarget_eq hpending hcontinues')
  obtain rfl := hdistinct F hF F' hF' (.lookup F.func.entry) rfl hentries
  refine (dif_pos h).trans ?_
  rw [(Leaves.unique hreturns' hreturns).2]

theorem exists_of_nextHost_drain {g' : HostFrame}
    (h : (program.nextHost products host).handleTailcalls f = some g') :
    ∃ g, ∃ F ∈ program, f.tailcallPending = true ∧ f.dispatchEntryTarget = 0 ∧
      r.context.ContinuesAt f F.func.entry ∧ F.Returns host f.drained g ∧
      (if g.tailcallPending then host.handleTailcalls (g.behindDrained f)
        else some (g.behindDrained f)) = some g' := by
  unfold nextHost at h
  dsimp only at h
  split at h
  · rename_i hexists
    obtain ⟨F, hF, hpending, hentry, hcontinues, hreturns⟩ := hexists.choose_spec
    exact ⟨_, F, hF, hpending, hentry, hcontinues, hreturns, h⟩
  · cases h

/-- A host of the chain runs what those in front of it run. -/
theorem hosts_succ (hdistinct : program.Distinct) (n : Nat) :
    (program.hosts products n).Extends (program.hosts products (n + 1)) := by
  induction n with
  | zero =>
    refine ⟨rfl, fun called f g h => ?_, fun f g h => ?_⟩
    · cases h
    · cases h
  | succ n ih =>
    refine ⟨rfl, fun called f g h => ?_, fun f g' h => ?_⟩
    · change (program.nextHost products (program.hosts products n)).callFunction called f = _ at h
      change (program.nextHost products (program.hosts products (n + 1))).callFunction called f = _
      obtain ⟨F, hF, hcalled, hentry, hreturns⟩ := exists_of_nextHost_call h
      exact nextHost_call hdistinct hF hcalled hentry (Leaves.mono (ih.execution _) hreturns)
    · change (program.nextHost products (program.hosts products n)).handleTailcalls f = _ at h
      change (program.nextHost products (program.hosts products (n + 1))).handleTailcalls f = _
      obtain ⟨g, F, hF, hpending, hentry, hcontinues, hreturns, hresult⟩ :=
        exists_of_nextHost_drain h
      rw [nextHost_drain hdistinct hF hpending hentry hcontinues
        (Leaves.mono (ih.execution _) hreturns)]
      split at hresult
      · rename_i hagain
        rw [if_pos hagain]
        exact ih.handleTailcalls _ _ hresult
      · rename_i hdone
        rw [if_neg hdone]
        exact hresult

theorem hosts_mono (hdistinct : program.Distinct) (m n : Nat) (h : m ≤ n) :
    (program.hosts products m).Extends (program.hosts products n) := by
  induction h with
  | refl => exact .refl _
  | step _ ih => exact ih.trans (hosts_succ hdistinct _)

open Classical in
/-- The host that runs the functions to any depth. -/
noncomputable def limitHost (program : Program r) (products : LongProducts) : HostFunctions where
  longProducts := products
  callFunction called f :=
    if h : ∃ g n, (program.hosts products n).callFunction called f = some g then some h.choose
    else none
  handleTailcalls f :=
    if h : ∃ g n, (program.hosts products n).handleTailcalls f = some g then some h.choose
    else none

theorem hosts_longProducts (n : Nat) : (program.hosts products n).longProducts = products := by
  cases n <;> rfl

theorem isLimit (hdistinct : program.Distinct) :
    HostFunctions.IsLimit (program.hosts products) (program.limitHost products) where
  mono := hosts_mono hdistinct
  extends_ n := by
    refine ⟨(hosts_longProducts n).symm, fun called f g hg => ?_, fun f g hg => ?_⟩
    · have h : ∃ g n, (program.hosts products n).callFunction called f = some g := ⟨g, n, hg⟩
      obtain ⟨k, hk⟩ := h.choose_spec
      have hmax := (hosts_mono hdistinct n _ (Nat.le_max_left n k)).callFunction called f g hg
      have hmax' := (hosts_mono hdistinct k _ (Nat.le_max_right n k)).callFunction called f _ hk
      exact (dif_pos h).trans (hmax'.symm.trans hmax)
    · have h : ∃ g n, (program.hosts products n).handleTailcalls f = some g := ⟨g, n, hg⟩
      obtain ⟨k, hk⟩ := h.choose_spec
      have hmax := (hosts_mono hdistinct n _ (Nat.le_max_left n k)).handleTailcalls f g hg
      have hmax' := (hosts_mono hdistinct k _ (Nat.le_max_right n k)).handleTailcalls f _ hk
      exact (dif_pos h).trans (hmax'.symm.trans hmax)
  callFunction called f g hg := by
    unfold limitHost at hg
    dsimp only at hg
    split at hg
    · rename_i h
      exact Option.some.inj hg ▸ h.choose_spec
    · cases hg
  handleTailcalls f g hg := by
    unfold limitHost at hg
    dsimp only at hg
    split at hg
    · rename_i h
      exact Option.some.inj hg ▸ h.choose_spec
    · cases hg

/-- **The functions of a program can be linked.** -/
theorem exists_links (products : LongProducts) (hdistinct : program.Distinct) :
    ∃ host : HostFunctions, host.longProducts = products ∧ host.Links program := by
  have hlimit : HostFunctions.IsLimit (program.hosts products) (program.limitHost products) :=
    isLimit hdistinct
  refine ⟨program.limitHost products, rfl, fun F hF called f g hcalled hentry hreturns => ?_,
    fun F hF f g hpending hentry hcontinues hreturns => ?_⟩
  · obtain ⟨n, hn⟩ := hlimit.exists_returns hreturns
    exact (hlimit.extends_ (n + 1)).callFunction called f g
      (nextHost_call hdistinct hF hcalled hentry hn)
  · obtain ⟨n, hn⟩ := hlimit.exists_returns hreturns
    obtain ⟨k, hk⟩ := hlimit.exists_handle f
    obtain ⟨k', hk'⟩ := hlimit.exists_handle (g.behindDrained f)
    -- a host that is deep enough for the function, the loop, and the loop behind it
    let m := max n (max k k')
    have hm : F.Returns (program.hosts products m) f.drained g :=
      Leaves.mono ((hosts_mono hdistinct n m (Nat.le_max_left _ _)).execution _) hn
    rw [← hk (m + 1) (Nat.le_succ_of_le ((Nat.le_max_left k k').trans (Nat.le_max_right n _))),
      ← hk' m ((Nat.le_max_right k k').trans (Nat.le_max_right n _))]
    exact nextHost_drain hdistinct hF hpending hentry hcontinues hm

end Program

end N64Recomp
