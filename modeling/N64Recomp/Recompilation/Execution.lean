import N64Recomp.CGenerator.MulDiv
import N64Recomp.Data.FlatCode
import N64Recomp.Recompilation.LabelTargets

/-!
# The execution of an emitted body

What the items of an emitted function do to the context, the memory and the variables of the
function. The functions that a body calls, and the loop of the runtime that drains tail calls, are
those of a host. Jump tables, hooks, coprocessor 0, floating-point numbers and the calls of the
runtime are not described.

## Main definitions

* `HostFrame`: the context and the variables of an emitted function
* `HostFunctions`: what the functions leave that are called
* `HostFunctions.callText`: a call, with the handling of the tail calls behind it
* `Translation.execution`: the language of the emitted items

## Main results

* `HostFunctions.callText_spec`: how control goes on behind a call
* `hostReturnTarget_of_steps`: a body keeps the address that its host's caller waits for
-/

namespace N64Recomp

open CLang FlatCode

/-! ### Frames -/

/-- The context, the memory, and the variables of an emitted function. -/
structure HostFrame where
  /-- The registers and the memory, and the variables `hi`, `lo` and `c1cs`. -/
  machine : Machine
  tailcallTarget : BitVec 32
  tailcallFunc : Option Str
  tailcallPending : Bool
  /-- The depth of the loops that drain tail calls. -/
  tailcallDispatching : BitVec 32
  hostReturnTarget : BitVec 32
  dispatchEntryTarget : BitVec 32
  dispatchEntryRejected : Bool
  dispatchEntryRejectedTarget : BitVec 32
  /-- The variable `result`. -/
  result : BitVec 64
  /-- The variables `jr_target_{vram}` and `jr_target_vram_{vram}`. -/
  jrTarget : BitVec 32 → BitVec 64
  jrTargetVram : BitVec 32 → BitVec 32
  /-- The value of the switch that is executed. -/
  switchValue : BitVec 32

namespace HostFrame

/-- `recomp_request_tailcall`, and `recomp_request_tailcall_func_target`. -/
def requestTailcall (f : HostFrame) (target : BitVec 32) (function : Option Str) : HostFrame :=
  { f with tailcallTarget := target, tailcallFunc := function, tailcallPending := true }

/-- The request that is handled. -/
def clearTailcall (f : HostFrame) : HostFrame :=
  { f with tailcallTarget := 0, tailcallFunc := none, tailcallPending := false }

/-- What a called function leaves, with the variables of the caller. -/
def withVariablesOf (g f : HostFrame) : HostFrame :=
  { g with
    machine := { g.machine with hi := f.machine.hi, lo := f.machine.lo, c1cs := f.machine.c1cs }
    result := f.result
    jrTarget := f.jrTarget
    jrTargetVram := f.jrTargetVram
    switchValue := f.switchValue }

end HostFrame

/-- How the text of a call names the function. -/
inductive Called
  | named (name : Str)
  /-- `LOOKUP_FUNC(address)`. -/
  | lookup (address : BitVec 32)
  deriving DecidableEq, Repr

/-- What surrounds an emitted function: how the long products are computed, and what a function, and
the loop that drains tail calls, leave of the context and the memory, when they return. -/
structure HostFunctions where
  longProducts : LongProducts
  callFunction : Called → HostFrame → Option HostFrame
  handleTailcalls : HostFrame → Option HostFrame

/-- What an item does: it goes to a label, or returns. -/
abbrev HostEffect := Effect Label HostFrame Unit

namespace HostFunctions

variable (host : HostFunctions)

/-! ### Calls -/

/-- `emit_call_epilogue`: the host's return address is put back, and a callee that moved the stack
pointer ends the function. -/
def callEpilogue (f g : HostFrame) (continue_ : HostFrame → HostEffect) : HostEffect :=
  let g := { g with hostReturnTarget := f.hostReturnTarget }
  if g.machine.gpr regSp ≠ f.machine.gpr regSp then .leave () g else continue_ g

/-- `emit_tailcall_handling`, and the end of the call: a tail call to the address behind the call or
to a local label is done here, and others are drained, unless the loops are nested too deep. -/
def tailcallHandling (labels : CallLabels) (f g : HostFrame) : HostEffect :=
  if g.tailcallPending then
    if labels.returnVram ≠ 0 ∧ g.tailcallTarget = labels.returnVram then
      callEpilogue f g.clearTailcall (.goto (.at_ labels.returnVram))
    else if g.tailcallTarget ≠ 0 ∧ g.tailcallTarget ∈ labels.localLabels then
      callEpilogue f g.clearTailcall (.goto (.at_ g.tailcallTarget))
    else if 64 ≤ g.tailcallDispatching then
      .leave () { g with hostReturnTarget := f.hostReturnTarget }
    else
      match host.handleTailcalls g with
      | none => .stop
      | some g' => callEpilogue f (g'.withVariablesOf f) .next
  else callEpilogue f g .next

/-- The text of a call. -/
def callText (called : Called) (labels : CallLabels) (f : HostFrame) : HostEffect :=
  match host.callFunction called { f with hostReturnTarget := (f.machine.gpr regRa).setWidth 32 } with
  | none => .stop
  | some g => host.tailcallHandling labels f (g.withVariablesOf f)

/-! ### What a call keeps -/

/-- A caller goes on with its own variables, its stack pointer, and the address that its host's caller
waits for. -/
structure Resumes (f g : HostFrame) : Prop where
  hostReturnTarget : g.hostReturnTarget = f.hostReturnTarget
  stackPointer : g.machine.gpr regSp = f.machine.gpr regSp
  hi : g.machine.hi = f.machine.hi
  lo : g.machine.lo = f.machine.lo
  c1cs : g.machine.c1cs = f.machine.c1cs
  jrTarget : g.jrTarget = f.jrTarget

/-- How control goes on behind a call. -/
def CallOutcome (labels : CallLabels) (f : HostFrame) : HostEffect → Prop
  | .next g => Resumes f g
  | .goto l g => Resumes f g ∧ l ∈ labels.targets ∧ g.tailcallPending = false
  | .leave _ g => g.hostReturnTarget = f.hostReturnTarget
  | .skip _ => False
  | .stop => True

theorem callEpilogue_spec {labels : CallLabels} {f g : HostFrame}
    {continue_ : HostFrame → HostEffect}
    (h : ∀ g', g'.tailcallPending = g.tailcallPending → Resumes f g' →
      CallOutcome labels f (continue_ g')) :
    CallOutcome labels f (callEpilogue f (g.withVariablesOf f) continue_) := by
  unfold callEpilogue
  dsimp only
  split
  · rfl
  · rename_i hsp
    exact h _ rfl ⟨rfl, not_ne_iff.mp hsp, rfl, rfl, rfl, rfl⟩

/-- **How control goes on behind a call**, whatever the called functions leave: a caller goes on, at a
label that was handed to the call or behind it, with its own variables, its stack pointer and the
address that its host's caller waits for, or else it returns with that address. -/
theorem callText_spec (called : Called) (labels : CallLabels) (f : HostFrame) :
    CallOutcome labels f (host.callText called labels f) := by
  unfold callText
  split
  · trivial
  · rename_i g _
    unfold tailcallHandling
    split
    · split
      · rename_i hreturn
        refine callEpilogue_spec (g := g.clearTailcall) fun g' hpending hresumes => ?_
        refine ⟨hresumes, List.mem_append_right _ ?_, hpending⟩
        rw [if_pos hreturn.1]
        exact List.mem_singleton_self _
      · split
        · rename_i hlocal
          refine callEpilogue_spec (g := g.clearTailcall) fun g' hpending hresumes => ?_
          exact ⟨hresumes, List.mem_append_left _ (List.mem_map_of_mem hlocal.2), hpending⟩
        · split
          · rfl
          · split
            · trivial
            · exact callEpilogue_spec fun g' _ hresumes => hresumes
    · exact callEpilogue_spec fun g' _ hresumes => hresumes

theorem callText_keeps (called : Called) (labels : CallLabels) (f : HostFrame) :
    (host.callText called labels f).Holds fun g => g.hostReturnTarget = f.hostReturnTarget := by
  have hspec := host.callText_spec called labels f
  cases heffect : host.callText called labels f with
  | next g =>
    rw [heffect] at hspec
    exact hspec.hostReturnTarget
  | goto l g =>
    rw [heffect] at hspec
    exact hspec.1.hostReturnTarget
  | skip g =>
    rw [heffect] at hspec
    exact hspec.elim
  | leave e g =>
    rw [heffect] at hspec
    exact hspec
  | stop => trivial

end HostFunctions

/-! ### Text -/

/-- The statements of an operation of the tables. -/
def execText (text : Except GeneratorError (List CStatement)) (f : HostFrame) : HostEffect :=
  match text with
  | .error _ => .stop
  | .ok statements =>
    match execAll f.machine statements with
    | none => .stop
    | some machine => .next { f with machine }

/-- The `if` of a conditional branch. -/
def execCondition (condition : Except GeneratorError CExpr) (f : HostFrame) : HostEffect :=
  match condition with
  | .error _ => .stop
  | .ok e =>
    match e.eval f.machine.env with
    | none => .stop
    | some v => if v.truthy then .next f else .skip f

/-- The statements of a multiplication or a division. -/
def execMuldivText (products : LongProducts) (text : Option (List MulDivStatement))
    (f : HostFrame) : HostEffect :=
  match text.bind (execMulDiv products ⟨f.machine, f.result⟩) with
  | none => .stop
  | some m => .next { f with machine := m.machine, result := m.result }

/-- `jr_target_vram`: an address in the section where it is loaded is moved to its link address. -/
def linkAddress (sectionBase ramAddr size target : BitVec 32) : BitVec 32 :=
  if sectionBase ≠ ramAddr ∧ target - sectionBase < size then ramAddr + (target - sectionBase)
  else target

/-- What the text does that the driver prints. -/
def rawEffect (f : HostFrame) : Raw → HostEffect
  | .traceEntry | .traceReturn | .jrSwitchClose | .jrClose | .loopCheckpoint _ => .next f
  | .dispatchOpen =>
    if f.dispatchEntryTarget = 0 then .skip f
    else .next { f with switchValue := f.dispatchEntryTarget, dispatchEntryTarget := 0 }
  | .dispatchCase vram | .jrCase vram =>
    if f.switchValue = vram then .goto (.at_ vram) f else .next f
  | .dispatchReject =>
    .leave () { f with
      dispatchEntryRejected := true
      dispatchEntryRejectedTarget := f.switchValue }
  | .gotoEntry vram => .goto (.at_ vram) f
  | .link reg value =>
    .next { f with machine := { f.machine with
      gpr := fun q => if q = reg then value.setWidth 64 else f.machine.gpr q } }
  | .jrOpen vram =>
    .next { f with jrTarget := fun v => if v = vram then f.machine.gpr regRa else f.jrTarget v }
  | .jrTargetVram vram i ramAddr size =>
    let target := linkAddress (f.machine.sectionAddresses (i.setWidth 32)) ramAddr size
      ((f.jrTarget vram).setWidth 32)
    .next { f with jrTargetVram := fun v => if v = vram then target else f.jrTargetVram v }
  | .jrSwitch vram => .next { f with switchValue := f.jrTargetVram vram }
  | .jrHostReturn vram _ =>
    if f.jrTargetVram vram ≠ f.hostReturnTarget then
      .leave () (f.requestTailcall (f.jrTargetVram vram) none)
    else .next f
  | .hostReturn vram _ => if vram = f.hostReturnTarget then .leave () f else .next f
  | .requestTailcallRegister reg =>
    .next (f.requestTailcall (Mips.word (f.machine.toMips.gpr reg)) none)
  | .requestTailcallAddress vram => .next (f.requestTailcall vram none)
  | .requestTailcallFunction name vram => .next (f.requestTailcall vram (some name))
  | .return_ => .leave () f
  | _ => .stop

namespace Translation

variable (t : Translation) (host : HostFunctions)

/-- What a call of the generator writes does. -/
def callEffect (f : HostFrame) : Call → HostEffect
  | .functionStart _ =>
    .next { f with machine := { f.machine with hi := 0, lo := 0, c1cs := 0 }, result := 0 }
  | .functionEnd => .leave () f
  | .comment _ => .next f
  | .functionCallLookup address labels => host.callText (.lookup address) labels f
  | .functionCallByRegister reg labels =>
    host.callText (.lookup (Mips.word (f.machine.toMips.gpr reg))) labels f
  | .functionCall i labels =>
    match t.context.functions[i]? with
    | none => .stop
    | some func => host.callText (.named func.name) labels f
  | .namedFunctionCall name labels => host.callText (.named name) labels f
  | .goto target => .goto target f
  | .label _ => .next f
  | .branchCondition op ctx => execCondition (CGenerator.branchCondition op ctx) f
  | .branchClose => .next f
  | .return_ _ => .leave () f
  | .muldiv id reg1 reg2 =>
    execMuldivText host.longProducts (CGenerator.emitMuldiv id reg1 reg2) f
  | .binaryOp op ctx => execText (CGenerator.processBinaryOp op ctx) f
  | .unaryOp op ctx => execText (CGenerator.processUnaryOp op ctx) f
  | .storeOp op ctx => execText (CGenerator.processStoreOp op ctx) f
  | _ => .stop

/-- The language of the emitted items: the `if` of a branch and the switch over the dispatch entries
are blocks. -/
def execution : Language Item Label HostFrame Unit where
  label := Item.label
  opens
    | .call (.branchCondition ..) | .raw .dispatchOpen => true
    | _ => false
  closes
    | .call .branchClose | .raw .dispatchReject => true
    | _ => false
  effect
    | .call c, f => t.callEffect host f c
    | .raw r, f => rawEffect f r

/-! ### What a body keeps -/

theorem execText_keeps (text : Except GeneratorError (List CStatement)) (f : HostFrame) :
    (execText text f).Holds fun g => g.hostReturnTarget = f.hostReturnTarget := by
  unfold execText
  split
  · trivial
  · split
    · trivial
    · exact rfl

theorem rawEffect_keeps (f : HostFrame) (r : Raw) :
    (rawEffect f r).Holds fun g => g.hostReturnTarget = f.hostReturnTarget := by
  cases r
  case dispatchOpen | dispatchCase | jrCase | jrHostReturn | hostReturn =>
    unfold rawEffect
    dsimp only
    split <;> exact rfl
  case hook | unhandledCall | unhandledBranch | unhandledInstruction | unhandledCop0Read |
      unhandledCop0Write | cop0Read | cop0Write => exact True.intro
  all_goals exact rfl

theorem effect_keeps (i : Item) (f : HostFrame) : ((t.execution host).effect i f).Holds fun g =>
    g.hostReturnTarget = f.hostReturnTarget := by
  cases i with
  | call c =>
    cases c
    case functionStart | functionEnd | comment | goto | label | branchClose | return_ => exact rfl
    case functionCallLookup => exact host.callText_keeps _ _ f
    case functionCallByRegister => exact host.callText_keeps _ _ f
    case namedFunctionCall => exact host.callText_keeps _ _ f
    case functionCall i labels =>
      change (match t.context.functions[i]? with
        | none => Effect.stop
        | some func => host.callText (.named func.name) labels f).Holds _
      split
      · trivial
      · exact host.callText_keeps _ _ f
    case branchCondition op ctx =>
      change (execCondition _ f).Holds _
      unfold execCondition
      split
      · trivial
      · split
        · trivial
        · split <;> exact rfl
    case muldiv id reg1 reg2 =>
      change (execMuldivText _ _ f).Holds _
      unfold execMuldivText
      split
      · trivial
      · exact rfl
    case binaryOp => exact execText_keeps _ f
    case unaryOp => exact execText_keeps _ f
    case storeOp => exact execText_keeps _ f
    all_goals exact True.intro
  | raw r => exact rawEffect_keeps f r

variable {program : List Item} {c c' : List Item × HostFrame} {g : HostFrame}

/-- **A body keeps the address that its host's caller waits for**, at every item of every run, whatever
the functions do that it calls. -/
theorem hostReturnTarget_of_steps (h : Steps (t.execution host) program c c') :
    c'.2.hostReturnTarget = c.2.hostReturnTarget :=
  Steps.invariant (P := fun f => f.hostReturnTarget = c.2.hostReturnTarget)
    (fun i f hf => by
      have hkeeps := t.effect_keeps host i f
      rw [hf] at hkeeps
      exact hkeeps) rfl h

end Translation

end N64Recomp
