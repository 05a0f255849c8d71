import N64Recomp.Recompilation.RecompileFunction

/-!
# The end of a function

What the emitted code does once the last instruction of a function is complete. It returns to the
host's caller when that waits for the address behind the function, and otherwise continues in the
function there. The HI and LO registers and the floating-point condition are variables of the emitted
function, and end with it.

## Main definitions

* `Frame`, `Exit`, `runEnd`: the text behind the last instruction, executed
* `Recompiler.emitUntilEnd`: what is emitted up to the end of the last instruction
* `Recompiler.nextFunction`: the function that the end of another one runs into

## Main results

* `function_end`: how a function ends
-/

namespace N64Recomp

/-! ## The execution of the end -/

/-- The state of the guest. `R` holds what the context and the memory keep, which are shared by all
functions. -/
structure GuestState (R : Type) where
  regs : R
  hi : BitVec 64
  lo : BitVec 64
  fpCondition : Bool

/-- The state in an emitted function: `hi`, `lo` and `c1cs` are its variables. -/
structure Frame (R : Type) extends GuestState R where
  hostReturnTarget : BitVec 32

/-- How an emitted function returns: to its host's caller, or with a tail call requested, to an
address and perhaps to the function that is there. -/
inductive Exit (R : Type)
  | toHost (regs : R)
  | tailcall (target : BitVec 32) (function : Option Str) (regs : R)

/-- The guest that a tail call continues with: `emit_function_start` declares the variables anew. -/
def Exit.continues {R : Type} : Exit R → Option (BitVec 32 × GuestState R)
  | .toHost _ => none
  | .tailcall target _ regs => some (target, ⟨regs, 0, 0, false⟩)

/-- A return, with the tail call that was requested before. -/
def Frame.return_ {R : Type} (f : Frame R) : Option (BitVec 32 × Option Str) → Exit R
  | none => .toHost f.regs
  | some (target, function) => .tailcall target function f.regs

/-- The text behind the last instruction, executed; other text is not there. -/
def runItems {R : Type} (f : Frame R) :
    List Item → Option (BitVec 32 × Option Str) → Option (Exit R)
  | [], _ => none
  | .raw (.hostReturn vram _) :: rest, requested =>
    if vram = f.hostReturnTarget then some (f.return_ requested) else runItems f rest requested
  | .raw (.requestTailcallAddress vram) :: rest, _ => runItems f rest (some (vram, none))
  | .raw (.requestTailcallFunction name vram) :: rest, _ => runItems f rest (some (vram, some name))
  | .raw .traceReturn :: rest, requested => runItems f rest requested
  | .raw .return_ :: _, requested => some (f.return_ requested)
  | .call .functionEnd :: _, requested => some (f.return_ requested)
  | _, _ => none

/-- The end of a function; no tail call is requested before. -/
def runEnd {R : Type} (f : Frame R) (items : List Item) : Option (Exit R) := runItems f items none

/-! ## What is emitted -/

namespace Recompiler

variable (r : Recompiler) (funcIndex : Nat) (func : Function) (tagReferenceRelocs : Bool)

/-- What is emitted of a function that is not stubbed, up to the end of its last instruction. -/
def emitUntilEnd : Emission Translation := do
  r.call (.functionStart func.name)
  Emit.when r.context.traceMode (Emit.write [.raw .traceEntry])
  r.emitPrologue func
  match analyzeFunction r.decoder r.context func (decodeFrom func.vram func.words) with
  | .failed => Emit.refuse
  | .outOfBounds => Emit.abort .outOfBounds
  | .tables jumpTables =>
    let statics ← Emit.read
    let t := r.translation funcIndex func tagReferenceRelocs jumpTables statics
    t.emitInstructions t.instructions 0 (LoopState.start t.branchLabels)
    return t

/-- The function that the end of this one runs into, as the recompiler sees it. -/
def nextFunction : Option Nat :=
  if functionEndAllowsFallthrough r.decoder (decodeFrom func.vram func.words) then
    (findCallableFunctionInSection r.context func.vramEnd func.sectionIndex.toNat).filter
      (· ≠ funcIndex)
  else none

/-- What holds of every execution that completes the last instruction: of the state there, and of how
the function returns. -/
def EndsWith (P : ∀ R : Type, Frame R → Exit R → Prop) : Prop :=
  ∀ statics items statics',
    Emit.Done (r.recompileFunctionImpl funcIndex tagReferenceRelocs) statics () items statics' →
    ∃ t body statics₁ tail, Emit.Done (r.emitUntilEnd funcIndex func tagReferenceRelocs) statics t
        body statics₁ ∧ items = body ++ tail ∧
      ∀ (R : Type) (f : Frame R), ∃ exit, runEnd f tail = some exit ∧ P R f exit

end Recompiler

/-- A function continues at the address behind it, as the processor does. -/
def Exit.ContinuesAt {R : Type} (vramEnd : BitVec 32) (f : Frame R) (exit : Exit R) : Prop :=
  if vramEnd = f.hostReturnTarget then exit = .toHost f.regs
  else exit.continues = some (vramEnd, f.toGuestState)

/-- How a function ends: at the address that the host's caller waits for it returns, and into a
function of its section it continues with the registers and the memory. -/
structure Recompiler.EndsAt (r : Recompiler) (funcIndex : Nat) (func : Function) {R : Type}
    (f : Frame R) (exit : Exit R) : Prop where
  host : func.vramEnd = f.hostReturnTarget → exit = .toHost f.regs
  next : func.vramEnd ≠ f.hostReturnTarget → ∀ j, r.nextFunction funcIndex func = some j →
    exit.continues = some (func.vramEnd, ⟨f.regs, 0, 0, false⟩)
  function : ∀ target name regs, exit = .tailcall target (some name) regs → ∃ j next,
    r.nextFunction funcIndex func = some j ∧ r.context.functions[j]? = some next ∧
    next.name = name ∧ next.words.isEmpty = false

/-! ## The end of a function -/

section End

variable {r : Recompiler} {funcIndex : Nat} {func : Function} {tagReferenceRelocs : Bool}
  {statics statics' : Statics} {items body : List Item} {t : Translation}

/-- The translation of a function is its emission to the end of the last instruction, and its end. -/
theorem done_recompileFunctionImpl (hfunc : r.context.functions[funcIndex]? = some func)
    (hstubbed : func.stubbed = false)
    (h : Emit.Done (r.recompileFunctionImpl funcIndex tagReferenceRelocs) statics () items statics') :
    ∃ t body statics₁ fall statics₂, (∃ jumpTables statics, t =
        r.translation funcIndex func tagReferenceRelocs jumpTables statics) ∧
      Emit.Done (r.emitUntilEnd funcIndex func tagReferenceRelocs) statics t body statics₁ ∧
      Emit.Done t.emitFallthrough statics₁ () fall statics₂ ∧
      items = body ++ (fall ++ [.call .functionEnd]) := by
  unfold Recompiler.recompileFunctionImpl at h
  rw [hfunc] at h
  dsimp only at h
  obtain ⟨_, start, s₁, items₁, hstart, h₁, rfl⟩ := Emit.done_bind.mp h
  obtain ⟨_, trace, s₂, items₂, htrace, h₂, rfl⟩ := Emit.done_bind.mp h₁
  obtain ⟨_, whole, s₃, last, hwhole, hend, rfl⟩ := Emit.done_bind.mp h₂
  rw [Emit.done_when, if_pos (by simp [hstubbed])] at hwhole
  unfold Recompiler.emitBody at hwhole
  obtain ⟨_, pro, s₄, items₄, hprologue, hbody, rfl⟩ := Emit.done_bind.mp hwhole
  have hlast : last = [.call .functionEnd] := by
    unfold Recompiler.call at hend
    split at hend
    · exact (Emit.done_write.mp hend).1
    · exact absurd hend Emit.not_done_abort
  split at hbody
  · exact absurd hbody Emit.not_done_refuse
  · exact absurd hbody Emit.not_done_abort
  rename_i jumpTables htables
  obtain ⟨read, noItems, s₅, items₅, hread, hpass, rfl⟩ := Emit.done_bind.mp hbody
  obtain ⟨_, instrs, s₆, fall, hinstrs, hfall, rfl⟩ := Emit.done_bind.mp hpass
  refine ⟨_, start ++ (trace ++ (pro ++ (noItems ++ instrs))), s₆, fall, s₃,
    ⟨jumpTables, read, rfl⟩, ?_, hfall, ?_⟩
  · unfold Recompiler.emitUntilEnd
    refine Emit.done_bind.mpr ⟨_, _, _, _, hstart, ?_, rfl⟩
    refine Emit.done_bind.mpr ⟨_, _, _, _, htrace, ?_, rfl⟩
    refine Emit.done_bind.mpr ⟨_, _, _, _, hprologue, ?_, rfl⟩
    rw [htables]
    dsimp only
    refine Emit.done_bind.mpr ⟨_, _, _, _, hread, ?_, rfl⟩
    exact Emit.done_bind.mpr ⟨_, _, _, [], hinstrs, Emit.done_pure.mpr ⟨rfl, rfl, rfl⟩, by simp⟩
  · rw [hlast]
    simp

/-- The end that is emitted is the one into the next function, when there is one. -/
theorem emitFallthrough_eq {jumpTables : List JumpTable} {read : Statics}
    (ht : t = r.translation funcIndex func tagReferenceRelocs jumpTables read) :
    t.emitFallthrough = match r.nextFunction funcIndex func with
      | none => pure ()
      | some j => t.emitFallthroughTo j := by
  subst ht
  unfold Translation.emitFallthrough Recompiler.nextFunction Recompiler.translation
  dsimp only
  split
  · cases hfind : findCallableFunctionInSection r.context func.vramEnd func.sectionIndex.toNat with
    | none => rfl
    | some j =>
      dsimp only
      rw [Option.filter_some]
      by_cases hj : j = funcIndex
      · rw [if_neg (by simp [hj]), Emit.when, if_neg (by simp [hj])]
      · rw [if_pos (by simp [hj]), Emit.when, if_pos hj]
  · rfl

/-- The text of the end, executed: without a next function the function returns. -/
theorem runEnd_fall {jumpTables : List JumpTable} {read : Statics} {fall : List Item}
    (ht : t = r.translation funcIndex func tagReferenceRelocs jumpTables read)
    (hfall : Emit.Done t.emitFallthrough statics () fall statics') {R : Type} (f : Frame R) :
    ∃ exit, runEnd f (fall ++ [.call .functionEnd]) = some exit ∧
      r.EndsAt funcIndex func f exit := by
  rw [emitFallthrough_eq ht] at hfall
  cases hnext : r.nextFunction funcIndex func with
  | none =>
    rw [hnext] at hfall
    obtain ⟨-, rfl, -⟩ := Emit.done_pure.mp hfall
    refine ⟨.toHost f.regs, rfl, fun _ => rfl, fun _ j hj => ?_, fun _ _ _ h => nomatch h⟩
    rw [hnext] at hj
    cases hj
  | some j =>
    rw [hnext] at hfall
    have hfunc : t.func = func := by rw [ht]; rfl
    have hcontext : t.context = r.context := by rw [ht]; rfl
    unfold Translation.emitFallthroughTo Translation.raw at hfall
    rw [hfunc, hcontext] at hfall
    obtain ⟨_, _, _, _, h₁, hrequest, rfl⟩ := Emit.done_bind.mp hfall
    obtain ⟨_, _, _, _, h₂, hreturn, rfl⟩ := Emit.done_bind.mp hrequest
    obtain ⟨_, trace, _, _, h₃, h₄, rfl⟩ := Emit.done_bind.mp hreturn
    rw [(Emit.done_write.mp h₁).1, (Emit.done_write.mp h₂).1, (Emit.done_write.mp h₄).1]
    by_cases hhost : func.vramEnd = f.hostReturnTarget
    · refine ⟨.toHost f.regs, ?_, fun _ => rfl, fun hne => absurd hhost hne,
        fun _ _ _ h => nomatch h⟩
      rw [runEnd, List.append_assoc, List.singleton_append, runItems, if_pos hhost]
      rfl
    -- the traced return is the same
    have htrace : ∀ rest requested, runItems f (trace ++ rest) requested =
        runItems f rest requested := by
      intro rest requested
      unfold Translation.emitTraceReturn Translation.raw at h₃
      rw [Emit.done_when] at h₃
      split at h₃
      · rw [(Emit.done_write.mp h₃).1]
        rfl
      · rw [h₃.1]
        rfl
    have hrest : ∀ request : Raw, runEnd f (([.raw (.hostReturn func.vramEnd r.context.traceMode)] ++
        ([.raw request] ++ (trace ++ [.raw .return_]))) ++ [.call .functionEnd]) =
          runItems f (.raw request :: (trace ++ [.raw .return_, .call .functionEnd])) none := by
      intro request
      rw [runEnd, List.append_assoc, List.singleton_append, runItems, if_neg hhost]
      simp
    rw [hrest]
    cases hfunction : r.context.functions[j]? with
    | none =>
      refine ⟨.tailcall func.vramEnd none f.regs, ?_, fun heq => absurd heq hhost,
        fun _ _ _ => rfl, fun _ _ _ h => nomatch h⟩
      dsimp only
      rw [runItems, htrace, runItems]
      rfl
    | some next =>
      dsimp only
      cases hempty : next.words.isEmpty with
      | true =>
        refine ⟨.tailcall func.vramEnd none f.regs, ?_, fun heq => absurd heq hhost,
          fun _ _ _ => rfl, fun _ _ _ h => nomatch h⟩
        rw [if_pos rfl, runItems, htrace, runItems]
        rfl
      | false =>
        refine ⟨.tailcall func.vramEnd (some next.name) f.regs, ?_, fun heq => absurd heq hhost,
          fun _ _ _ => rfl, fun target name regs heq => ?_⟩
        · rw [if_neg (by simp), runItems, htrace, runItems]
          rfl
        · obtain ⟨-, hname, -⟩ := Exit.tailcall.inj heq
          exact ⟨j, next, hnext, hfunction, Option.some.inj hname, hempty⟩

/-- **How an accepted function ends**, in every state of an execution that completes its last
instruction. -/
theorem function_end (hfunc : r.context.functions[funcIndex]? = some func)
    (hstubbed : func.stubbed = false) :
    r.EndsWith funcIndex func tagReferenceRelocs fun _ f exit => r.EndsAt funcIndex func f exit := by
  intro statics items statics' h
  obtain ⟨t, body, statics₁, fall, statics₂, ⟨jumpTables, read, ht⟩, huntil, hfall, rfl⟩ :=
    done_recompileFunctionImpl hfunc hstubbed h
  exact ⟨t, body, statics₁, _, huntil, rfl, fun R f => runEnd_fall ht hfall f⟩

/-- A function of one `nop`, and the function behind it. -/
def twoFunctions : Recompiler where
  decoder := .ofId sampleId
  generator := cGenerator Context.empty
  context := { Context.empty with
    functions := [sampleFunction [0],
      Function.mk' 0x80000404 4 [0x0800E003, 0] (ascii "next") 0 false false false 0]
    functionsByVram := fun v => if v = 0x80000404 then [1] else [] }
  discoverStaticCodeEntrypoint _ _ := false

/-- The first one is accepted, and ends as it should. -/
theorem twoFunctions_end :
    (twoFunctions.recompileFunctionImpl 0 false []).ending = .done () ∧
      twoFunctions.EndsWith 0 (sampleFunction [0]) false fun _ f exit =>
        twoFunctions.EndsAt 0 (sampleFunction [0]) f exit :=
  ⟨by decide, function_end rfl rfl⟩

/-- What HI holds at its end is lost. -/
theorem twoFunctions_loses_hi : ¬twoFunctions.EndsWith 0 (sampleFunction [0]) false fun _ f exit =>
    exit.ContinuesAt (sampleFunction [0]).vramEnd f := by
  intro h
  have hending : (twoFunctions.recompileFunctionImpl 0 false []).ending = .done () := by decide
  have hdone : Emit.Done (twoFunctions.recompileFunctionImpl 0 false) [] ()
      (twoFunctions.recompileFunctionImpl 0 false []).items
      (twoFunctions.recompileFunctionImpl 0 false []).state := by
    unfold Emit.Done
    rw [← hending]
  obtain ⟨t, body, statics₁, tail, huntil, hitems, hends⟩ := h _ _ _ hdone
  obtain ⟨t', body', statics₁', fall, statics₂, ⟨jumpTables, read, ht⟩, huntil', hfall, hitems'⟩ :=
    done_recompileFunctionImpl rfl rfl hdone
  -- what is emitted before the end is the same
  have hbody : body = body' := congrArg Output.items (huntil.symm.trans huntil')
  rw [hitems, hbody] at hitems'
  have htail := List.append_cancel_left hitems'
  obtain ⟨exit, hrun, hcontinues⟩ := hends Unit ⟨⟨(), 1, 0, false⟩, 0⟩
  obtain ⟨exit', hrun', hat⟩ := runEnd_fall ht hfall (⟨⟨(), 1, 0, false⟩, 0⟩ : Frame Unit)
  rw [htail, hrun'] at hrun
  obtain rfl := Option.some.inj hrun
  have hbehind : (sampleFunction [0]).vramEnd ≠ 0 := by decide
  unfold Exit.ContinuesAt at hcontinues
  rw [if_neg hbehind, hat.next hbehind 1 (by decide)] at hcontinues
  exact absurd (congrArg GuestState.hi (Prod.mk.inj (Option.some.inj hcontinues)).2) (by decide)

end End

end N64Recomp
