import N64Recomp.LiveGenerator.Containers
import Mathlib.Data.List.Induction

/-!
# Batches that are linked right

What a batch that is good has bound. The labels, calls and tables of every function are right; the
landing pads are emitted at the end of the batch, with the name that the generator has then, and the
open branch is not looked at when a function ends.

## Main definitions

* `Referenced`: what is known of a function's calls when its labels are
* `FinishedAs`: what the output has of the generator

## Main results

* `LiveState.branchesSame_emitFunctions_iff`: when branches are closed in their own functions
* `emitTrampoline_spec`: the landing pads
* `Batch.linkedRight_iff`: when a batch is linked right
* `Batch.referencesEmitted_of_finish`: a batch that is good has all that it references
* `batchRight_iff`: the two together
-/

namespace N64Recomp

open Sljit

/-! ### References -/

/-- What the containers know of the calls of a function so far. -/
structure Referenced (s : LiveState) (calls : List Call) : Prop where
  labels : ∀ t, (s.labels.lookup t).isSome → Call.label t ∈ calls
  gotos : ∀ t, Call.goto t ∈ calls → Call.label t ∈ calls ∨ ∃ p, (t, p) ∈ s.pendingJumps
  cases : ∀ jtbl reg, Call.switch jtbl reg ∈ calls → jtbl.entries.map .at_ ∈ s.switchJumpLabels

namespace Referenced

variable {s s' : LiveState} {calls : List Call} {c : Call}

/-- A call that is about no label. -/
theorem other (h : Referenced s calls) (hlabels : s'.labels = s.labels)
    (hpending : s'.pendingJumps = s.pendingJumps)
    (hcases : s'.switchJumpLabels = s.switchJumpLabels) (hgoto : ∀ t, c ≠ .goto t)
    (hswitch : ∀ jtbl reg, c ≠ .switch jtbl reg) : Referenced s' (calls ++ [c]) where
  labels t ht := by
    rw [hlabels] at ht
    exact List.mem_append_left _ (h.labels t ht)
  gotos t ht := by
    rw [hpending]
    rcases List.mem_append.mp ht with ht | ht
    · exact (h.gotos t ht).imp_left (List.mem_append_left _)
    · exact absurd (List.mem_singleton.mp ht).symm (hgoto t)
  cases jtbl reg hc := by
    rw [hcases]
    rcases List.mem_append.mp hc with hc | hc
    · exact h.cases jtbl reg hc
    · exact absurd (List.mem_singleton.mp hc).symm (hswitch jtbl reg)

theorem goto (h : Referenced s calls) (t : Label) :
    Referenced (s.goto t) (calls ++ [.goto t]) := by
  have hold : ∀ jtbl reg, Call.switch jtbl reg ∈ calls ++ [.goto t] →
      jtbl.entries.map .at_ ∈ s.switchJumpLabels := by
    intro jtbl reg hc
    rcases List.mem_append.mp hc with hc | hc
    · exact h.cases jtbl reg hc
    · cases List.mem_singleton.mp hc
  unfold LiveState.goto
  split
  · rename_i label hlabel
    refine ⟨fun t' ht => List.mem_append_left _ (h.labels t' ht), fun t' ht => ?_, hold⟩
    rcases List.mem_append.mp ht with ht | ht
    · exact (h.gotos t' ht).imp_left (List.mem_append_left _)
    · cases List.mem_singleton.mp ht
      refine .inl (List.mem_append_left _ (h.labels t ?_))
      rw [hlabel]
      rfl
  · refine ⟨fun t' ht => List.mem_append_left _ (h.labels t' ht), fun t' ht => ?_, hold⟩
    rcases List.mem_append.mp ht with ht | ht
    · rcases h.gotos t' ht with ht | ⟨p, hp⟩
      · exact .inl (List.mem_append_left _ ht)
      · exact .inr ⟨p, List.mem_append_left _ hp⟩
    · cases List.mem_singleton.mp ht
      exact .inr ⟨_, List.mem_append_right _ (List.mem_singleton_self _)⟩

theorem label (h : Referenced s calls) (l : Label) :
    Referenced (s.label l) (calls ++ [.label l]) where
  labels t ht := by
    change (List.lookup t (if (s.labels.lookup l).isSome then s.labels
      else s.labels ++ [(l, s.code.here)])).isSome at ht
    split_ifs at ht
    · exact List.mem_append_left _ (h.labels t ht)
    · rw [List.lookup_append, Option.isSome_or, Bool.or_eq_true] at ht
      rcases ht with ht | ht
      · exact List.mem_append_left _ (h.labels t ht)
      · obtain ⟨⟨l', q⟩, hmem, heq⟩ := List.lookup_isSome_iff.mp ht
        cases List.mem_singleton.mp hmem
        rw [eq_of_beq heq]
        exact List.mem_append_right _ (List.mem_singleton_self _)
  gotos t ht := by
    rcases List.mem_append.mp ht with ht | ht
    · rcases h.gotos t ht with ht | ⟨p, hp⟩
      · exact .inl (List.mem_append_left _ ht)
      · by_cases htl : t = l
        · subst htl
          exact .inl (List.mem_append_right _ (List.mem_singleton_self _))
        · exact .inr ⟨p, List.mem_filter.mpr ⟨hp, decide_eq_true htl⟩⟩
    · cases List.mem_singleton.mp ht
  cases jtbl reg hc := by
    rcases List.mem_append.mp hc with hc | hc
    · exact h.cases jtbl reg hc
    · cases List.mem_singleton.mp hc

theorem switch (h : Referenced s calls) (jtbl : JumpTable) (reg : Fin 32) :
    Referenced (s.switch jtbl reg) (calls ++ [.switch jtbl reg]) where
  labels t ht := List.mem_append_left _ (h.labels t ht)
  gotos t ht := by
    rcases List.mem_append.mp ht with ht | ht
    · exact (h.gotos t ht).imp_left (List.mem_append_left _)
    · cases List.mem_singleton.mp ht
  cases jtbl' reg' hc := by
    rcases List.mem_append.mp hc with hc | hc
    · exact List.mem_append_left _ (h.cases jtbl' reg' hc)
    · cases List.mem_singleton.mp hc
      exact List.mem_append_right _ (List.mem_singleton_self _)

theorem emitCall (h : Referenced s calls) (c : Call) (herrored : (s.emitCall c).errored = false) :
    Referenced (s.emitCall c) (calls ++ [c]) := by
  cases c with
  | goto target => exact h.goto target
  | label l => exact h.label l
  | switch jtbl reg => exact h.switch jtbl reg
  | branchCondition op ctx =>
    change (s.branchCondition op ctx).errored = false at herrored
    change Referenced (s.branchCondition op ctx) _
    unfold LiveState.branchCondition at herrored ⊢
    split_ifs at herrored ⊢
    · cases herrored
    · exact h.other rfl rfl rfl nofun nofun
  | branchClose =>
    change Referenced s.branchClose _
    unfold LiveState.branchClose
    split
    · exact h.other rfl rfl rfl nofun nofun
    · exact h.other rfl rfl rfl nofun nofun
  | functionCallReferenceSymbol sectionIndex symbolIndex targetSectionOffset labels =>
    change Referenced (s.functionCallReferenceSymbol _ sectionIndex symbolIndex
      targetSectionOffset) _
    unfold LiveState.functionCallReferenceSymbol
    split_ifs
    · exact h.other rfl rfl rfl nofun nofun
    · exact h.other rfl rfl rfl nofun nofun
  | binaryOp op ctx | unaryOp op ctx | storeOp op ctx =>
    change Referenced (s.operation _ _) _
    unfold LiveState.operation
    split_ifs
    · exact h.other rfl rfl rfl nofun nofun
    · exact h.other rfl rfl rfl nofun nofun
  | _ => exact h.other rfl rfl rfl nofun nofun

theorem emitCalls {more : List Call} (h : Referenced s calls)
    (herrored : (s.emitCalls more).errored = false) :
    Referenced (s.emitCalls more) (calls ++ more) := by
  induction more generalizing s calls with
  | nil => rwa [List.append_nil]
  | cons c more ih =>
    have hc := h.emitCall c (LiveState.errored_of_emitCalls herrored)
    rw [← List.singleton_append, ← List.append_assoc]
    exact ih hc herrored

/-- What a function references is in it, when its end does not set the flag. -/
theorem emitFunction {f : EmittedFunction} (hsettled : s.Settled)
    (herrored : (s.emitFunction f).errored = false) :
    (∀ t, Call.goto t ∈ f.calls → Call.label t ∈ f.calls) ∧
      ∀ jtbl reg, Call.switch jtbl reg ∈ f.calls →
        ∀ entry ∈ jtbl.entries, Call.label (.at_ entry) ∈ f.calls := by
  have hstart : Referenced (s.functionStart f.name f.index) [] := by
    refine ⟨fun t ht => ?_, nofun, nofun⟩
    change (List.lookup t s.labels).isSome at ht
    rw [hsettled.labels] at ht
    cases ht
  obtain ⟨hcalls, hpending, hfound⟩ := LiveState.of_functionEnd herrored
  have hend := hstart.emitCalls hcalls
  rw [List.nil_append] at hend
  refine ⟨fun t ht => ?_, fun jtbl reg hc entry hentry => ?_⟩
  · rcases hend.gotos t ht with ht | ⟨p, hp⟩
    · exact ht
    · rw [hpending] at hp
      cases hp
  · exact hend.labels _ (hfound _ (hend.cases jtbl reg hc) _ (List.mem_map.mpr ⟨entry, hentry, rfl⟩))

theorem emitFunctions {functions : List EmittedFunction} (hlinked : s.Linked)
    (hsettled : s.Settled) (herrored : (s.emitFunctions functions).errored = false) :
    ∀ f ∈ functions, (∀ t, Call.goto t ∈ f.calls → Call.label t ∈ f.calls) ∧
      ∀ jtbl reg, Call.switch jtbl reg ∈ f.calls →
        ∀ entry ∈ jtbl.entries, Call.label (.at_ entry) ∈ f.calls := by
  induction functions generalizing s with
  | nil => exact nofun
  | cons f functions ih =>
    have hf := LiveState.errored_of_emitFunctions (s := s.emitFunction f) herrored
    obtain ⟨hlinked', hsettled'⟩ := hlinked.emitFunction hsettled hf
    intro g hg
    rcases List.mem_cons.mp hg with rfl | hg
    · exact emitFunction hsettled hf
    · exact ih hlinked' hsettled' herrored g hg

end Referenced

/-! ### Functions in the code -/

theorem isEntry_of_mem_itemsOf {c : Call} {i : LiveItem} (h : i ∈ itemsOf c) : i.isEntry = false := by
  cases c with
  | switch jtbl reg =>
    simp only [itemsOf, List.mem_cons, List.not_mem_nil, or_false] at h
    rcases h with rfl | rfl | rfl
    · rfl
    · rfl
    · rfl
  | _ =>
    cases List.mem_singleton.mp h
    rfl

theorem EmittedFunction.isEntry_of_mem_body {f : EmittedFunction} {i : LiveItem} (h : i ∈ f.body) :
    i.isEntry = false := by
  rcases List.mem_cons.mp h with rfl | h
  · rfl
  · obtain ⟨c, -, hc⟩ := List.mem_flatMap.mp h
    exact isEntry_of_mem_itemsOf hc

/-- The only entry of a function is its own. -/
theorem EmittedFunction.eq_of_entry_mem {f : EmittedFunction} {k : Nat} {name : Str}
    (h : LiveItem.entry k name ∈ f.items) : f.index = k ∧ f.name = name := by
  rcases List.mem_cons.mp h with h | h
  · cases h
    exact ⟨rfl, rfl⟩
  · cases f.isEntry_of_mem_body h

/-- A bounds check is of a switch of the function. -/
theorem EmittedFunction.exists_switch {f : EmittedFunction} {jtbl : JumpTable}
    (h : LiveItem.bound jtbl ∈ f.items) : ∃ reg, Call.switch jtbl reg ∈ f.calls := by
  simp only [EmittedFunction.items, EmittedFunction.body, List.mem_cons, reduceCtorEq, false_or,
    List.mem_flatMap] at h
  obtain ⟨c, hc, hi⟩ := h
  cases c with
  | switch jtbl' reg =>
    simp only [itemsOf, List.mem_cons, reduceCtorEq, List.not_mem_nil, or_false, false_or,
      LiveItem.bound.injEq] at hi
    subst hi
    exact ⟨reg, hc⟩
  | _ => cases List.mem_singleton.mp hi

theorem EmittedFunction.mem_items {f : EmittedFunction} {c : Call} {i : LiveItem} (hc : c ∈ f.calls)
    (hi : i ∈ itemsOf c) : i ∈ f.items :=
  List.mem_cons_of_mem _ (List.mem_cons_of_mem _ (List.mem_flatMap.mpr ⟨c, hc, hi⟩))

/-- A place in the code of a list of functions is one of a function. -/
theorem exists_function_of_getElem? {functions : List EmittedFunction} {p : Nat} {i : LiveItem}
    (h : (functions.flatMap (·.items))[p]? = some i) :
    ∃ before f behind j, functions = before ++ f :: behind ∧
      p = (before.flatMap (·.items)).length + j ∧ f.items[j]? = some i := by
  induction functions generalizing p with
  | nil => cases h
  | cons f functions ih =>
    rw [List.flatMap_cons] at h
    rcases getElem?_append_cases h with h | ⟨hle, h⟩
    · exact ⟨[], f, functions, p, rfl, (Nat.zero_add p).symm, h⟩
    · obtain ⟨before, g, behind, j, rfl, hp, hj⟩ := ih h
      refine ⟨f :: before, g, behind, j, rfl, ?_, hj⟩
      rw [List.flatMap_cons, List.length_append]
      omega

/-- Every place of a function's items is in the function. -/
theorem inFunction_of_items {code : LiveCode} {before behind : List LiveItem} {f : EmittedFunction}
    {j : Nat} (h : code.items = before ++ f.items ++ behind) (hj : j < f.items.length) :
    InFunction code (before.length + j) f.name := by
  have hat : ∀ k < f.items.length, code.items[before.length + k]? = f.items[k]? := by
    intro k hk
    rw [h, List.append_assoc, List.getElem?_append_right (Nat.le_add_right _ _),
      Nat.add_sub_cancel_left, List.getElem?_append_left hk]
  refine ⟨before.length, f.index, Nat.le_add_right _ _, ?_, ?_⟩
  · have hentry := hat 0 (Nat.lt_of_le_of_lt (Nat.zero_le j) hj)
    rwa [Nat.add_zero] at hentry
  · intro r hr hle i hi
    rw [Nat.min_eq_left (Nat.le_add_right _ _)] at hr
    rw [Nat.max_eq_right (Nat.le_add_right _ _)] at hle
    obtain ⟨k, rfl⟩ : ∃ k, r = before.length + (k + 1) := ⟨r - before.length - 1, by omega⟩
    rw [hat (k + 1) (by omega)] at hi
    exact f.isEntry_of_mem_body (List.mem_of_getElem? hi)

/-- A place is in one function only. -/
theorem InFunction.unique {code : LiveCode} {p : Nat} {name name' : Str}
    (h : InFunction code p name) (h' : InFunction code p name') : name = name' := by
  obtain ⟨e, k, hle, hentry, hsame⟩ := h
  obtain ⟨e', k', hle', hentry', hsame'⟩ := h'
  have heq : e = e' := by
    rcases Nat.lt_trichotomy e e' with hlt | heq | hlt
    · exact absurd hsame (not_samePart hlt hle' hentry' rfl)
    · exact heq
    · exact absurd hsame' (not_samePart hlt hle hentry rfl)
  subst heq
  rw [hentry] at hentry'
  cases hentry'
  rfl

theorem InFunction.append {code code' : LiveCode} {l : List LiveItem} {p : Nat} {name : Str}
    (h : InFunction code p name) (hp : p < code.items.length) (hitems : code'.items = code.items ++ l) :
    InFunction code' p name := by
  obtain ⟨e, k, hle, hentry, hsame⟩ := h
  refine ⟨e, k, hle, ?_, ?_⟩
  · rw [hitems]
    exact getElem?_append_of_eq_some hentry
  · unfold SameFunction
    rw [hitems]
    exact hsame.append (Nat.lt_of_le_of_lt hle hp) hp

/-! ### The end of a batch -/

section Finish

variable {code code' : LiveCode} {funcLabels : List (Option Nat)} {calls : List (Nat × Nat)}
  {name : Str} {errors : List SwitchErrorJump}

/-- What resolving the calls binds. -/
theorem resolveCalls_eq_some (h : resolveCalls funcLabels calls code = some code') :
    code'.items = code.items ∧ (∀ p, (∀ k, (k, p) ∉ calls) → code'.target p = code.target p) ∧
      ∀ k p, (k, p) ∈ calls → ∃ (j q : Nat), (j, p) ∈ calls ∧ funcLabels[j]? = some (some q) ∧
        code'.target p = some q := by
  induction calls generalizing code with
  | nil =>
    cases h
    exact ⟨rfl, fun _ _ => rfl, nofun⟩
  | cons call calls ih =>
    obtain ⟨k, jump⟩ := call
    unfold resolveCalls at h
    split at h
    · rename_i label hlabel
      obtain ⟨hitems, hother, hbound⟩ := ih h
      refine ⟨hitems, fun p hp => ?_, fun k' p hp => ?_⟩
      · rw [hother p fun k' hk' => hp k' (List.mem_cons_of_mem _ hk'), Assembly.target_bind, if_neg]
        rintro rfl
        exact hp k List.mem_cons_self
      · by_cases hlater : ∃ k'', (k'', p) ∈ calls
        · obtain ⟨k'', hk''⟩ := hlater
          obtain ⟨j, q, hj, hq, htarget⟩ := hbound k'' p hk''
          exact ⟨j, q, List.mem_cons_of_mem _ hj, hq, htarget⟩
        · rcases List.mem_cons.mp hp with heq | hp
          · cases heq
            refine ⟨k, label, List.mem_cons_self, hlabel, ?_⟩
            rw [hother jump fun k' hk' => hlater ⟨k', hk'⟩, Assembly.target_bind, if_pos rfl]
          · exact absurd ⟨k', hp⟩ hlater
    · cases h

/-- A landing pad. -/
def padItems (name : Str) (e : SwitchErrorJump) : List LiveItem :=
  [.pad, .report name e.instrVram e.jtblVram, .toReturn]

theorem items_emitPad (e : SwitchErrorJump) :
    (emitPad name e code).items = code.items ++ padItems name e := by
  change ((code.items ++ [_]) ++ [_]) ++ [_] = _
  rw [List.append_assoc, List.append_assoc]
  rfl

/-- The landing pad of a bounds check, at a place. -/
def PadAt (items : List LiveItem) (name : Str) (e : SwitchErrorJump) (q : Nat) : Prop :=
  items[q]? = some .pad ∧ items[q + 1]? = some (.report name e.instrVram e.jtblVram) ∧
    items[q + 2]? = some .toReturn

theorem PadAt.append {items l : List LiveItem} {e : SwitchErrorJump} {q : Nat}
    (h : PadAt items name e q) : PadAt (items ++ l) name e q :=
  ⟨getElem?_append_of_eq_some h.1, getElem?_append_of_eq_some h.2.1,
    getElem?_append_of_eq_some h.2.2⟩

theorem padAt_emitPad (e : SwitchErrorJump) :
    PadAt (emitPad name e code).items name e code.items.length := by
  rw [items_emitPad]
  have hat : ∀ k, (code.items ++ padItems name e)[code.items.length + k]? = (padItems name e)[k]? := by
    intro k
    rw [List.getElem?_append_right (Nat.le_add_right _ _), Nat.add_sub_cancel_left]
  exact ⟨hat 0, hat 1, hat 2⟩

/-- **What the landing pads bind.** -/
theorem emitPads_spec (name : Str) (errors : List SwitchErrorJump) (code : LiveCode) :
    (emitPads name errors code).2.items = code.items ++ errors.flatMap (padItems name) ∧
      (∀ p, (∀ e ∈ errors, e.jump ≠ p) → (emitPads name errors code).2.target p = code.target p) ∧
      (∀ j ∈ (emitPads name errors code).1, code.items.length ≤ j) ∧
      ∀ e ∈ errors, ∃ e' ∈ errors, e'.jump = e.jump ∧ ∃ q,
        (emitPads name errors code).2.target e.jump = some q ∧
        PadAt (emitPads name errors code).2.items name e' q ∧
        q + 2 ∈ (emitPads name errors code).1 := by
  induction errors generalizing code with
  | nil => exact ⟨(List.append_nil _).symm, fun _ _ => rfl, nofun, nofun⟩
  | cons e errors ih =>
    obtain ⟨hitems, hother, hjumps, hpads⟩ := ih (emitPad name e code)
    have hlength : code.items.length ≤ (emitPad name e code).items.length := by
      rw [items_emitPad, List.length_append]
      exact Nat.le_add_right _ _
    have htarget : ∀ p, (emitPad name e code).target p =
        if p = e.jump then some code.here else code.target p := Assembly.target_bind _ _ _
    refine ⟨?_, fun p hp => ?_, fun j hj => ?_, fun e' he' => ?_⟩
    · rw [List.flatMap_cons, ← List.append_assoc, ← items_emitPad]
      exact hitems
    · change (emitPads name errors (emitPad name e code)).2.target p = _
      rw [hother p fun e' he' => hp e' (List.mem_cons_of_mem _ he'), htarget, if_neg]
      exact fun heq => hp e List.mem_cons_self heq.symm
    · rcases List.mem_cons.mp hj with rfl | hj
      · exact Nat.le_add_right _ _
      · exact hlength.trans (hjumps j hj)
    · by_cases hlater : ∃ e'' ∈ errors, e''.jump = e'.jump
      · obtain ⟨e'', he'', heq⟩ := hlater
        obtain ⟨e₃, he₃, hjump, q, hq, hpad, hreturn⟩ := hpads e'' he''
        refine ⟨e₃, List.mem_cons_of_mem _ he₃, hjump.trans heq, q, ?_, hpad,
          List.mem_cons_of_mem _ hreturn⟩
        rw [← heq]
        exact hq
      · rcases List.mem_cons.mp he' with rfl | he'
        · refine ⟨e', List.mem_cons_self, rfl, code.items.length, ?_, ?_, List.mem_cons_self⟩
          · change (emitPads name errors (emitPad name e' code)).2.target e'.jump = _
            rw [hother e'.jump fun e'' he'' heq => hlater ⟨e'', he'', heq⟩, htarget, if_pos rfl]
            rfl
          · change PadAt (emitPads name errors (emitPad name e' code)).2.items name e' _
            rw [hitems]
            exact (padAt_emitPad e').append
        · exact absurd ⟨e', he', rfl⟩ hlater

/-- The items behind the functions. -/
def trampolineItems (name : Str) (errors : List SwitchErrorJump) : List LiveItem :=
  if errors = [] then [] else errors.flatMap (padItems name) ++ [.returnLabel, .return_]

/-- **What the trampoline binds**: every bounds check goes to a landing pad of its own data, which
reports them and returns. -/
theorem emitTrampoline_spec (name : Str) (errors : List SwitchErrorJump) (code : LiveCode)
    (hlt : ∀ e ∈ errors, e.jump < code.items.length) :
    (emitTrampoline name errors code).items = code.items ++ trampolineItems name errors ∧
      (∀ p, p < code.items.length → (∀ e ∈ errors, e.jump ≠ p) →
        (emitTrampoline name errors code).target p = code.target p) ∧
      ∀ e ∈ errors, ∃ e' ∈ errors, e'.jump = e.jump ∧ ∃ q,
        (emitTrampoline name errors code).target e.jump = some q ∧
        Reports (emitTrampoline name errors code) q [⟨name, e'.instrVram, e'.jtblVram⟩] := by
  unfold emitTrampoline trampolineItems
  split_ifs with hnil
  · subst hnil
    exact ⟨(List.append_nil _).symm, fun _ _ _ => rfl, nofun⟩
  · obtain ⟨hitems, hother, hjumps, hpads⟩ := emitPads_spec name errors code
    dsimp only
    generalize emitPads name errors code = pads at hitems hother hjumps hpads ⊢
    obtain ⟨jumps, code₁⟩ := pads
    dsimp only at hitems hother hjumps hpads ⊢
    have hfinal : (((code₁.emit .returnLabel).emit .return_).bindAll jumps code₁.here).items =
        code₁.items ++ [.returnLabel, .return_] := by
      rw [Assembly.items_bindAll]
      change (code₁.items ++ [_]) ++ [_] = _
      rw [List.append_assoc]
      rfl
    have htarget : ∀ p, (((code₁.emit .returnLabel).emit .return_).bindAll jumps code₁.here).target p =
        if p ∈ jumps then some code₁.here else code₁.target p := Assembly.target_bindAll _ _ _
    generalize ((code₁.emit .returnLabel).emit .return_).bindAll jumps code₁.here = final
      at hfinal htarget ⊢
    have hreturn : ∀ k, final.items[code₁.items.length + k]? =
        [LiveItem.returnLabel, .return_][k]? := by
      intro k
      rw [hfinal, List.getElem?_append_right (Nat.le_add_right _ _), Nat.add_sub_cancel_left]
    refine ⟨by rw [hfinal, hitems, List.append_assoc], fun p hp hne => ?_, fun e he => ?_⟩
    · rw [htarget, if_neg fun hmem => absurd (hjumps p hmem) (Nat.not_le.mpr hp), hother p hne]
    · obtain ⟨e', he', hjump, q, hq, hpad, hmem⟩ := hpads e he
      refine ⟨e', he', hjump, q, ?_, ?_⟩
      · rw [htarget, if_neg fun hmem => absurd (hjumps _ hmem) (Nat.not_le.mpr (hlt e he)), hq]
      · -- the pad, its report, the jump, and the return
        obtain ⟨hlabel, hreport, hto⟩ := hfinal ▸ hpad.append (l := [.returnLabel, .return_])
        refine .pad hlabel (.report hreport (.toReturn hto ?_
          (.returnLabel (hreturn 0) (.return_ (hreturn 1)))))
        rw [htarget, if_pos hmem]
        rfl

end Finish

/-! ### Branches and functions -/

/-- Branches are closed in the function that opens them. -/
def BranchesSame (code : LiveCode) : Prop :=
  ∀ p q, code.items[p]? = some .branch → code.target p = some q → SameFunction code p q

namespace LiveState

variable {s : LiveState} {c : Call} {calls : List Call} {p q : Nat}

/-- What a call does to the open branch. -/
theorem curBranchJump_emitCall (h : (s.emitCall c).errored = false) :
    (∃ op ctx, c = .branchCondition op ctx ∧ s.curBranchJump = none ∧
        (s.emitCall c).curBranchJump = some s.code.here) ∨
      (c = .branchClose ∧ s.curBranchJump.isSome ∧ (s.emitCall c).curBranchJump = none) ∨
      ((∀ op ctx, c ≠ .branchCondition op ctx) ∧ c ≠ .branchClose ∧
        (s.emitCall c).curBranchJump = s.curBranchJump) := by
  cases c with
  | goto target =>
    refine .inr (.inr ⟨fun _ _ heq => (by cases heq), fun heq => (by cases heq), ?_⟩)
    change (s.goto target).curBranchJump = _
    unfold LiveState.goto
    split
    · rfl
    · rfl
  | branchCondition op ctx =>
    refine .inl ⟨op, ctx, rfl, ?_⟩
    change (s.branchCondition op ctx).errored = false at h
    change _ ∧ (s.branchCondition op ctx).curBranchJump = _
    unfold LiveState.branchCondition at h ⊢
    split_ifs at h ⊢ with hrefused
    · cases h
    · rw [Bool.or_eq_true, not_or] at hrefused
      exact ⟨Option.not_isSome_iff_eq_none.mp hrefused.1, rfl⟩
  | branchClose =>
    refine .inr (.inl ⟨rfl, ?_⟩)
    change s.branchClose.errored = false at h
    change _ ∧ s.branchClose.curBranchJump = _
    unfold LiveState.branchClose at h ⊢
    cases hjump : s.curBranchJump with
    | none =>
      rw [hjump] at h
      cases h
    | some jump => exact ⟨rfl, rfl⟩
  | functionCallReferenceSymbol sectionIndex symbolIndex targetSectionOffset labels =>
    refine .inr (.inr ⟨fun _ _ heq => (by cases heq), fun heq => (by cases heq), ?_⟩)
    change (s.functionCallReferenceSymbol _ sectionIndex symbolIndex
      targetSectionOffset).curBranchJump = _
    unfold LiveState.functionCallReferenceSymbol
    split_ifs
    · rfl
    · rfl
  | binaryOp op ctx | unaryOp op ctx | storeOp op ctx =>
    refine .inr (.inr ⟨fun _ _ heq => (by cases heq), fun heq => (by cases heq), ?_⟩)
    change (s.operation _ _).curBranchJump = _
    unfold LiveState.operation
    split_ifs
    · rfl
    · rfl
  | _ => exact .inr (.inr ⟨fun _ _ heq => (by cases heq), fun heq => (by cases heq), rfl⟩)

theorem isSome_curBranchJump_emitCalls (h : (s.emitCalls calls).errored = false) :
    (s.emitCalls calls).curBranchJump.isSome = opens s.curBranchJump.isSome calls := by
  induction calls generalizing s with
  | nil => rfl
  | cons c calls ih =>
    have hcall : (s.emitCall c).errored = false := errored_of_emitCalls h
    have hstep : (s.emitCall c).curBranchJump.isSome = opens s.curBranchJump.isSome [c] := by
      rcases curBranchJump_emitCall hcall with ⟨op, ctx, rfl, -, hcur⟩ | ⟨rfl, -, hcur⟩ |
        ⟨hcondition, hclose, hcur⟩
      · rw [hcur]
        rfl
      · rw [hcur]
        rfl
      · rw [hcur]
        cases c with
        | branchCondition op ctx => exact absurd rfl (hcondition op ctx)
        | branchClose => exact absurd rfl hclose
        | _ => rfl
    change ((s.emitCall c).emitCalls calls).curBranchJump.isSome = opens (opens _ [c]) calls
    rw [ih h, hstep]

/-- **A call binds no branch but the open one**, which it binds when it closes it. -/
theorem target_emitCall_branch (hlinked : s.Linked) (hp : s.code.items[p]? = some .branch) :
    (s.emitCall c).code.target p =
      if c = .branchClose ∧ s.curBranchJump = some p then some s.code.here
      else s.code.target p := by
  have hlt : p < s.code.here := lt_length_of_eq_some hp
  cases c with
  | goto target =>
    rw [if_neg (by rintro ⟨⟨⟩, -⟩)]
    change (s.goto target).code.target p = _
    unfold LiveState.goto
    split
    · rename_i label _
      change (Assembly.bind _ s.code.here label).target p = _
      rw [Assembly.target_bind, if_neg (Nat.ne_of_lt hlt)]
      rfl
    · rfl
  | label l =>
    rw [if_neg (by rintro ⟨⟨⟩, -⟩)]
    change (Assembly.bindAll _ _ _).target p = _
    rw [Assembly.target_bindAll, if_neg]
    · rfl
    · intro hmem
      obtain ⟨⟨t, p'⟩, hpending, heq⟩ := List.mem_map.mp hmem
      change p' = p at heq
      subst heq
      have hgoto := (hlinked.gotos.waiting t p' (List.mem_filter.mp hpending).1).1
      rw [hp] at hgoto
      cases hgoto
  | branchCondition op ctx =>
    rw [if_neg (by rintro ⟨⟨⟩, -⟩)]
    change (s.branchCondition op ctx).code.target p = _
    unfold LiveState.branchCondition
    split_ifs
    · rfl
    · rfl
  | branchClose =>
    change s.branchClose.code.target p = _
    unfold LiveState.branchClose
    cases hjump : s.curBranchJump with
    | none =>
      rw [if_neg (by rintro ⟨-, ⟨⟩⟩)]
      rfl
    | some jump =>
      change (Assembly.bind _ jump s.code.here).target p = _
      rw [Assembly.target_bind]
      by_cases hpj : p = jump
      · subst hpj
        rw [if_pos rfl, if_pos ⟨rfl, rfl⟩]
      · rw [if_neg hpj, if_neg fun h => hpj (Option.some.inj h.2).symm]
        rfl
  | functionCallReferenceSymbol sectionIndex symbolIndex targetSectionOffset labels =>
    rw [if_neg (by rintro ⟨⟨⟩, -⟩)]
    change (s.functionCallReferenceSymbol _ sectionIndex symbolIndex
      targetSectionOffset).code.target p = _
    unfold LiveState.functionCallReferenceSymbol
    split_ifs
    · rfl
    · rfl
  | binaryOp op ctx | unaryOp op ctx | storeOp op ctx =>
    rw [if_neg (by rintro ⟨⟨⟩, -⟩)]
    change (s.operation _ _).code.target p = _
    unfold LiveState.operation
    split_ifs
    · rfl
    · rfl
  | _ =>
    rw [if_neg (by rintro ⟨⟨⟩, -⟩)]
    rfl

/-- A branch that is closed stays where it is. -/
theorem target_emitCalls_of_closed (hlinked : s.Linked)
    (herrored : (s.emitCalls calls).errored = false) (hp : s.code.items[p]? = some .branch)
    (hq : s.code.target p = some q) : (s.emitCalls calls).code.target p = some q := by
  induction calls generalizing s with
  | nil => exact hq
  | cons c calls ih =>
    have hcall : (s.emitCall c).errored = false := errored_of_emitCalls herrored
    refine ih (hlinked.emitCall c hcall) herrored ?_ ?_
    · rw [items_emitCall hcall]
      exact getElem?_append_of_eq_some hp
    · rw [target_emitCall_branch hlinked hp, if_neg, hq]
      rintro ⟨-, hcur⟩
      rw [(hlinked.branches.waiting p hcur).2.1] at hq
      cases hq

/-- An open branch is bound by the first call that closes one. -/
theorem target_emitCalls_of_open (hlinked : s.Linked)
    (herrored : (s.emitCalls calls).errored = false) (hcur : s.curBranchJump = some p)
    (hclose : Call.branchClose ∈ calls) :
    ∃ q, (s.emitCalls calls).code.target p = some q ∧ s.code.items.length ≤ q := by
  induction calls generalizing s with
  | nil => cases hclose
  | cons c calls ih =>
    have hcall : (s.emitCall c).errored = false := errored_of_emitCalls herrored
    have hp := (hlinked.branches.waiting p hcur).1
    have hp' : (s.emitCall c).code.items[p]? = some .branch := by
      rw [items_emitCall hcall]
      exact getElem?_append_of_eq_some hp
    rcases curBranchJump_emitCall hcall with ⟨op, ctx, rfl, hnone, -⟩ | ⟨rfl, -, -⟩ |
      ⟨-, hother, hcur'⟩
    · rw [hcur] at hnone
      cases hnone
    · refine ⟨s.code.here, ?_, Nat.le_refl _⟩
      change ((s.emitCall .branchClose).emitCalls calls).code.target p = _
      refine target_emitCalls_of_closed (hlinked.emitCall _ hcall) herrored hp' ?_
      rw [target_emitCall_branch hlinked hp, if_pos ⟨rfl, hcur⟩]
    · have hmem := (List.mem_cons.mp hclose).resolve_left fun heq => hother heq.symm
      obtain ⟨q, hq, hle⟩ := ih (hlinked.emitCall c hcall) herrored (hcur'.trans hcur) hmem
      refine ⟨q, hq, Nat.le_trans ?_ hle⟩
      rw [items_emitCall hcall, List.length_append]
      exact Nat.le_add_right _ _

/-- One call binds branches in their own function, when the open one is in the current function or
it closes none. -/
theorem branchesSame_emitCall (hlinked : s.Linked) (herrored : (s.emitCall c).errored = false)
    (hsame : BranchesSame s.code)
    (hcur : (∀ p, s.curBranchJump = some p → Current LiveItem.isEntry s.code.items p) ∨
      c ≠ .branchClose) : BranchesSame (s.emitCall c).code := by
  intro p q hp hq
  have hlinked' := hlinked.emitCall c herrored
  have hnew : ∀ i ∈ itemsOf c, i.isEntry = false := fun i hi => isEntry_of_mem_itemsOf hi
  rw [items_emitCall herrored] at hp
  unfold SameFunction
  rw [items_emitCall herrored]
  rcases getElem?_append_cases hp with hold | ⟨hle, hitem⟩
  · rw [target_emitCall_branch hlinked hold] at hq
    split_ifs at hq with hclose
    · cases hq
      have hcurrent := hcur.resolve_right (not_not.mpr hclose.1) p hclose.2
      refine samePart_of_current (hcurrent.append hnew) (current_of_le hnew ?_)
      exact Nat.le_succ _
    · have hclosed := (hlinked.branches.closed p q hold hq).2.1
      exact (hsame p q hold hq).append (lt_length_of_eq_some hold) (lt_length_of_eq_some hclosed)
  · -- a new branch is open
    exfalso
    rcases curBranchJump_emitCall herrored with ⟨op, ctx, rfl, -, hcur'⟩ | ⟨rfl, -, -⟩ |
      ⟨hcondition, -, -⟩
    · have hp' : p = s.code.here := by
        obtain ⟨hlt, -⟩ := List.getElem?_eq_some_iff.mp hitem
        change p - s.code.items.length < 1 at hlt
        change p = s.code.items.length
        omega
      subst hp'
      rw [(hlinked'.branches.waiting _ hcur').2.1] at hq
      cases hq
    · cases List.mem_singleton.mp (List.mem_of_getElem? hitem)
    · have hmem := List.mem_of_getElem? hitem
      cases c with
      | branchCondition op ctx => exact hcondition op ctx rfl
      | switch jtbl reg =>
        simp only [itemsOf, List.mem_cons, reduceCtorEq, List.not_mem_nil, or_self] at hmem
      | _ => cases List.mem_singleton.mp hmem

theorem branchesSame_emitCalls (hlinked : s.Linked)
    (herrored : (s.emitCalls calls).errored = false) (hsame : BranchesSame s.code)
    (hcur : (∀ p, s.curBranchJump = some p → Current LiveItem.isEntry s.code.items p) ∨
      Call.branchClose ∉ calls) : BranchesSame (s.emitCalls calls).code := by
  induction calls generalizing s with
  | nil => exact hsame
  | cons c calls ih =>
    have hcall : (s.emitCall c).errored = false := errored_of_emitCalls herrored
    have hnew : ∀ i ∈ itemsOf c, i.isEntry = false := fun i hi => isEntry_of_mem_itemsOf hi
    have hstep := branchesSame_emitCall hlinked hcall hsame
      (hcur.imp_right fun hnot heq => hnot (heq ▸ List.mem_cons_self))
    refine ih (hlinked.emitCall c hcall) herrored hstep ?_
    rcases hcur with hcur | hnot
    · refine .inl fun p hp => ?_
      rw [items_emitCall hcall]
      rcases curBranchJump_emitCall hcall with ⟨op, ctx, rfl, -, hcur'⟩ | ⟨rfl, -, hcur'⟩ |
        ⟨-, -, hcur'⟩
      · rw [hcur'] at hp
        cases hp
        exact current_of_le hnew (Nat.le_succ _)
      · rw [hcur'] at hp
        cases hp
      · rw [hcur'] at hp
        exact (hcur p hp).append hnew
    · exact .inr fun hmem => hnot (List.mem_cons_of_mem _ hmem)

theorem target_emitFunctions_of_closed {functions : List EmittedFunction} (hlinked : s.Linked)
    (hsettled : s.Settled) (herrored : (s.emitFunctions functions).errored = false)
    (hp : s.code.items[p]? = some .branch) (hq : s.code.target p = some q) :
    (s.emitFunctions functions).code.target p = some q := by
  induction functions generalizing s with
  | nil => exact hq
  | cons f functions ih =>
    have hf : (s.emitFunction f).errored = false := errored_of_emitFunctions herrored
    obtain ⟨hlinked', hsettled'⟩ := hlinked.emitFunction hsettled hf
    refine ih hlinked' hsettled' herrored ?_ ?_
    · rw [items_emitFunction hf]
      exact getElem?_append_of_eq_some hp
    · refine target_emitCalls_of_closed (s := s.functionStart f.name f.index)
        (hlinked.functionStart hsettled _ _) (of_functionEnd hf).1 ?_ hq
      exact getElem?_append_of_eq_some (getElem?_append_of_eq_some hp)

theorem branchesSame_functionStart (hlinked : s.Linked) (hsame : BranchesSame s.code) (name : Str)
    (index : Nat) : BranchesSame (s.functionStart name index).code := by
  intro p q hp hq
  rcases getElem?_concat_cases hp with hp | ⟨-, hp⟩
  · rcases getElem?_concat_cases hp with hp | ⟨-, hp⟩
    · have hlt := lt_length_of_eq_some hp
      have hltq := lt_length_of_eq_some (hlinked.branches.closed p q hp hq).2.1
      refine ((hsame p q hp hq).append hlt hltq).append ?_ ?_
      · rw [List.length_append]
        exact Nat.lt_add_right _ hlt
      · rw [List.length_append]
        exact Nat.lt_add_right _ hltq
    · cases hp
  · cases hp

/-- **Branches are closed in their own functions exactly when no function closes an earlier one's.** -/
theorem branchesSame_emitFunctions_iff {functions : List EmittedFunction} (hlinked : s.Linked)
    (hsettled : s.Settled) (herrored : (s.emitFunctions functions).errored = false)
    (hsame : BranchesSame s.code) :
    BranchesSame (s.emitFunctions functions).code ↔
      ClosesOwn s.curBranchJump.isSome functions := by
  induction functions generalizing s with
  | nil => exact ⟨fun _ => trivial, fun _ => hsame⟩
  | cons f functions ih =>
    have hf : (s.emitFunction f).errored = false := errored_of_emitFunctions herrored
    have hcalls := (of_functionEnd hf).1
    have hstart := hlinked.functionStart hsettled f.name f.index
    obtain ⟨hlinked', hsettled'⟩ := hlinked.emitFunction hsettled hf
    have hopens : (s.emitFunction f).curBranchJump.isSome =
        opens s.curBranchJump.isSome f.calls :=
      isSome_curBranchJump_emitCalls (s := s.functionStart f.name f.index) hcalls
    have hstep (hown : s.curBranchJump.isSome = true → Call.branchClose ∉ f.calls) :
        BranchesSame (s.emitFunction f).code := by
      refine branchesSame_emitCalls hstart hcalls (branchesSame_functionStart hlinked hsame _ _) ?_
      cases hcur : s.curBranchJump with
      | none =>
        refine .inl fun p hp => ?_
        rw [show (s.functionStart f.name f.index).curBranchJump = s.curBranchJump from rfl, hcur] at hp
        cases hp
      | some p => exact .inr (hown (by rw [hcur]; rfl))
    change BranchesSame ((s.emitFunction f).emitFunctions functions).code ↔ _ ∧ _
    constructor
    · intro h
      have hown : s.curBranchJump.isSome = true → Call.branchClose ∉ f.calls := by
        intro hopen hclose
        obtain ⟨p, hcur⟩ := Option.isSome_iff_exists.mp hopen
        obtain ⟨q, hq, hle⟩ := target_emitCalls_of_open hstart hcalls hcur hclose
        have hp := (hlinked.branches.waiting p hcur).1
        have hp' : (s.emitFunction f).code.items[p]? = some .branch := by
          rw [items_emitFunction hf]
          exact getElem?_append_of_eq_some hp
        have hfinal := target_emitFunctions_of_closed hlinked' hsettled' herrored hp' hq
        -- the function's entry is between the branch and the label
        have hentry : (s.code.items ++ ((f :: functions).flatMap (·.items)))[s.code.items.length]? =
            some (.entry f.index f.name) := by
          rw [List.getElem?_append_right (Nat.le_refl _), Nat.sub_self]
          rfl
        have hitems := items_emitFunctions herrored
        have hbranch : (s.emitFunctions (f :: functions)).code.items[p]? = some .branch := by
          rw [hitems]
          exact getElem?_append_of_eq_some hp
        have hsamePart : SameFunction (s.emitFunctions (f :: functions)).code p q :=
          h p q hbranch hfinal
        unfold SameFunction at hsamePart
        rw [hitems] at hsamePart
        refine not_samePart (lt_length_of_eq_some hp) (Nat.le_trans ?_ hle) hentry rfl hsamePart
        change _ ≤ ((s.code.items ++ [_]) ++ [_]).length
        rw [List.append_assoc, List.length_append]
        exact Nat.le_add_right _ _
      rw [← hopens]
      exact ⟨hown, (ih hlinked' hsettled' herrored (hstep hown)).mp h⟩
    · rintro ⟨hown, hrest⟩
      rw [← hopens] at hrest
      exact (ih hlinked' hsettled' herrored (hstep hown)).mpr hrest

end LiveState

/-! ### Names and entries -/

namespace LiveState

variable {s : LiveState} {functions : List EmittedFunction}

/-- No call changes the name of the function or the labels of functions. -/
theorem emitCall_keeps (c : Call) : (s.emitCall c).functionName = s.functionName ∧
    (s.emitCall c).funcLabels = s.funcLabels := by
  cases c with
  | goto target =>
    change (s.goto target).functionName = _ ∧ (s.goto target).funcLabels = _
    unfold LiveState.goto
    split
    · exact ⟨rfl, rfl⟩
    · exact ⟨rfl, rfl⟩
  | branchCondition op ctx =>
    change (s.branchCondition op ctx).functionName = _ ∧ (s.branchCondition op ctx).funcLabels = _
    unfold LiveState.branchCondition
    split_ifs
    · exact ⟨rfl, rfl⟩
    · exact ⟨rfl, rfl⟩
  | branchClose =>
    change s.branchClose.functionName = _ ∧ s.branchClose.funcLabels = _
    unfold LiveState.branchClose
    split
    · exact ⟨rfl, rfl⟩
    · exact ⟨rfl, rfl⟩
  | functionCallReferenceSymbol sectionIndex symbolIndex targetSectionOffset labels =>
    change (s.functionCallReferenceSymbol _ sectionIndex symbolIndex
      targetSectionOffset).functionName = _ ∧ (s.functionCallReferenceSymbol _ sectionIndex
        symbolIndex targetSectionOffset).funcLabels = _
    unfold LiveState.functionCallReferenceSymbol
    split_ifs
    · exact ⟨rfl, rfl⟩
    · exact ⟨rfl, rfl⟩
  | binaryOp op ctx | unaryOp op ctx | storeOp op ctx =>
    change (s.operation _ _).functionName = _ ∧ (s.operation _ _).funcLabels = _
    unfold LiveState.operation
    split_ifs
    · exact ⟨rfl, rfl⟩
    · exact ⟨rfl, rfl⟩
  | _ => exact ⟨rfl, rfl⟩

theorem emitCalls_keeps (calls : List Call) : (s.emitCalls calls).functionName = s.functionName ∧
    (s.emitCalls calls).funcLabels = s.funcLabels := by
  induction calls generalizing s with
  | nil => exact ⟨rfl, rfl⟩
  | cons c calls ih =>
    obtain ⟨hname, hlabels⟩ := emitCall_keeps (s := s) c
    obtain ⟨hname', hlabels'⟩ := ih (s := s.emitCall c)
    exact ⟨hname'.trans hname, hlabels'.trans hlabels⟩

theorem emitFunction_keeps (f : EmittedFunction) : (s.emitFunction f).functionName = f.name ∧
    (s.emitFunction f).funcLabels = s.funcLabels.set f.index (some s.code.here) :=
  emitCalls_keeps (s := s.functionStart f.name f.index) f.calls

/-- After a batch the name is that of its last function. -/
theorem functionName_emitFunctions {g : EmittedFunction} (h : functions.getLast? = some g) :
    (s.emitFunctions functions).functionName = g.name := by
  obtain ⟨before, rfl⟩ := List.getLast?_eq_some_iff.mp h
  change ((before ++ [g]).foldl emitFunction s).functionName = _
  rw [List.foldl_append]
  exact (emitFunction_keeps g).1

/-- Every function that was emitted has a label. -/
theorem funcLabels_emitFunctions {k : Nat} (hk : k < s.funcLabels.length)
    (h : (∃ q, s.funcLabels[k]? = some (some q)) ∨ ∃ f ∈ functions, f.index = k) :
    ∃ q : Nat, (s.emitFunctions functions).funcLabels[k]? = some (some q) := by
  induction functions generalizing s with
  | nil => exact h.resolve_right fun ⟨_, hf, _⟩ => nomatch hf
  | cons f functions ih =>
    have hset := (emitFunction_keeps (s := s) f).2
    refine ih (s := s.emitFunction f) ?_ ?_
    · rw [hset, List.length_set]
      exact hk
    · rw [hset, List.getElem?_set]
      rcases h with ⟨q, hq⟩ | ⟨g, hg, rfl⟩
      · left
        split_ifs with heq hlt
        · exact ⟨_, rfl⟩
        · exact absurd (heq ▸ hk) hlt
        · exact ⟨q, hq⟩
      · rcases List.mem_cons.mp hg with rfl | hg
        · exact .inl ⟨_, by rw [if_pos rfl, if_pos hk]⟩
        · exact .inr ⟨g, hg, rfl⟩

end LiveState

/-! ### The output -/

/-- The items that only the end of a batch emits. -/
def LiveItem.isTrampoline : LiveItem → Bool
  | .pad | .report _ _ _ | .toReturn | .returnLabel | .return_ => true
  | _ => false

theorem isTrampoline_of_mem {name : Str} {errors : List SwitchErrorJump} {i : LiveItem}
    (h : i ∈ trampolineItems name errors) : i.isTrampoline = true := by
  unfold trampolineItems at h
  split_ifs at h
  · cases h
  · rcases List.mem_append.mp h with h | h
    · obtain ⟨e, -, hi⟩ := List.mem_flatMap.mp h
      simp only [padItems, List.mem_cons, List.not_mem_nil, or_false] at hi
      rcases hi with rfl | rfl | rfl
      · rfl
      · rfl
      · rfl
    · simp only [List.mem_cons, List.not_mem_nil, or_false] at h
      rcases h with rfl | rfl
      · rfl
      · rfl

/-- What an output has of the generator. -/
structure FinishedAs (s : LiveState) (out : LiveOutput) : Prop where
  errored : s.errored = false
  functions : out.functions = s.funcLabels
  jumpTables : out.jumpTables = s.unlinkedJumpTables
  items : out.code.items = s.code.items ++ trampolineItems s.functionName s.switchErrorJumps
  target : ∀ (p : Nat) i, s.code.items[p]? = some i → (∀ k, i ≠ .call k) →
    (∀ jtbl, i ≠ .bound jtbl) → out.code.target p = s.code.target p
  call : ∀ (p : Nat) k, s.code.items[p]? = some (.call k) → ∃ q : Nat,
    out.code.target p = some q ∧ s.funcLabels[k]? = some (some q)
  bound : ∀ (p : Nat) jtbl, s.code.items[p]? = some (.bound jtbl) → ∃ q, out.code.target p = some q ∧
    Reports out.code q [⟨s.functionName, jtbl.jrVram, jtbl.vram⟩]

theorem LiveState.Linked.finish {s : LiveState} {out : LiveOutput} (h : s.Linked)
    (hfinish : s.finish = some out) : FinishedAs s out := by
  unfold LiveState.finish at hfinish
  split_ifs at hfinish with herrored
  obtain ⟨code, hcode, rfl⟩ := Option.map_eq_some_iff.mp hfinish
  obtain ⟨hitems, hother, hcalls⟩ := resolveCalls_eq_some hcode
  obtain ⟨htrampoline, hkept, hpads⟩ := emitTrampoline_spec s.functionName s.switchErrorJumps code
    (by
      intro e he
      obtain ⟨jtbl, hitem, -⟩ := h.errors.isBound e he
      rw [hitems]
      exact lt_length_of_eq_some hitem)
  have hnot : ∀ {p : Nat} {i}, s.code.items[p]? = some i → (∀ jtbl, i ≠ .bound jtbl) →
      ∀ e ∈ s.switchErrorJumps, e.jump ≠ p := by
    rintro p i hi hbound e he rfl
    obtain ⟨jtbl, hitem, -⟩ := h.errors.isBound e he
    rw [hi] at hitem
    cases hitem
    exact hbound jtbl rfl
  refine ⟨Bool.eq_false_of_not_eq_true herrored, rfl, rfl, hitems ▸ htrampoline, ?_, ?_, ?_⟩
  · intro p i hi hcall hbound
    have hlt : p < code.items.length := hitems ▸ lt_length_of_eq_some hi
    refine (hkept p hlt (hnot hi hbound)).trans (hother p fun k hk => ?_)
    have hitem := h.calls.isCall k p hk
    rw [hi] at hitem
    cases hitem
    exact hcall k rfl
  · intro p k hk
    have hlt : p < code.items.length := hitems ▸ lt_length_of_eq_some hk
    obtain ⟨j, q, hj, hq, htarget⟩ := hcalls k p (h.calls.waits p k hk)
    have hitem := h.calls.isCall j p hj
    rw [hk] at hitem
    cases hitem
    exact ⟨q, (hkept p hlt (hnot hk nofun)).trans htarget, hq⟩
  · intro p jtbl hp
    obtain ⟨e, he, rfl⟩ := h.errors.waits p jtbl hp
    obtain ⟨e', he', hjump, q, hq, hreports⟩ := hpads e he
    obtain ⟨jtbl', hitem, hjr, hjtbl⟩ := h.errors.isBound e' he'
    rw [hjump, hp] at hitem
    cases hitem
    refine ⟨q, hq, ?_⟩
    rw [hjr, hjtbl] at hreports
    exact hreports

namespace Batch

variable {b : Batch} {out : LiveOutput}

theorem linked_emitted (b : Batch) (h : b.emitted.errored = false) :
    b.emitted.Linked ∧ b.emitted.Settled :=
  (LiveState.linked_start b.numFuncs).emitFunctions ⟨rfl, rfl, rfl, rfl⟩ h

theorem items_emitted (b : Batch) (h : b.emitted.errored = false) :
    b.emitted.code.items = b.functions.flatMap (·.items) :=
  LiveState.items_emitFunctions h

/-- A bounds check of the code is that of a switch, in its function. -/
theorem of_bound (h : b.emitted.errored = false) {p : Nat} {jtbl : JumpTable}
    (hp : b.emitted.code.items[p]? = some (.bound jtbl)) :
    ∃ f ∈ b.functions, (∃ reg, Call.switch jtbl reg ∈ f.calls) ∧
      InFunction b.emitted.code p f.name := by
  have hitems := b.items_emitted h
  have hp' := hp
  rw [hitems] at hp'
  obtain ⟨before, f, behind, j, hsplit, rfl, hj⟩ := exists_function_of_getElem? hp'
  refine ⟨f, by simp [hsplit], f.exists_switch (List.mem_of_getElem? hj), ?_⟩
  have hcode : b.emitted.code.items =
      before.flatMap (·.items) ++ f.items ++ behind.flatMap (·.items) := by
    rw [hitems, hsplit, List.flatMap_append, List.flatMap_cons, List.append_assoc]
  exact inFunction_of_items hcode (lt_length_of_eq_some hj)

/-- Every call of a function has its items in the function. -/
theorem exists_item (h : b.emitted.errored = false) {f : EmittedFunction} (hf : f ∈ b.functions)
    {c : Call} (hc : c ∈ f.calls) {i : LiveItem} (hi : i ∈ itemsOf c) :
    ∃ p : Nat, b.emitted.code.items[p]? = some i ∧ InFunction b.emitted.code p f.name := by
  obtain ⟨before, behind, hsplit⟩ := List.append_of_mem hf
  obtain ⟨j, hj, hji⟩ := List.getElem_of_mem (f.mem_items hc hi)
  have hitems : b.emitted.code.items =
      before.flatMap (·.items) ++ f.items ++ behind.flatMap (·.items) := by
    rw [b.items_emitted h, hsplit, List.flatMap_append, List.flatMap_cons, List.append_assoc]
  refine ⟨(before.flatMap (·.items)).length + j, ?_, inFunction_of_items hitems hj⟩
  rw [hitems, List.append_assoc, List.getElem?_append_right (Nat.le_add_right _ _),
    Nat.add_sub_cancel_left, List.getElem?_append_left hj, List.getElem?_eq_getElem hj, hji]

/-! ### The batch is right -/

/-- What the code reports from a place on is determined. -/
theorem reports_unique {code : LiveCode} {p : Nat} {l l' : List SwitchReport} (h : Reports code p l)
    (h' : Reports code p l') : l = l' := by
  induction h generalizing l' with
  | pad hp _ ih =>
    cases h' with
    | pad _ hrest => exact ih hrest
    | report hp' | toReturn hp' | returnLabel hp' | return_ hp' =>
      rw [hp] at hp'
      cases hp'
  | report hp _ ih =>
    cases h' with
    | report hp' hrest =>
      rw [hp] at hp'
      cases hp'
      rw [ih hrest]
    | pad hp' | toReturn hp' | returnLabel hp' | return_ hp' =>
      rw [hp] at hp'
      cases hp'
  | toReturn hp hq _ ih =>
    cases h' with
    | toReturn _ hq' hrest =>
      rw [hq] at hq'
      cases hq'
      exact ih hrest
    | pad hp' | report hp' | returnLabel hp' | return_ hp' =>
      rw [hp] at hp'
      cases hp'
  | returnLabel hp _ ih =>
    cases h' with
    | returnLabel _ hrest => exact ih hrest
    | pad hp' | report hp' | toReturn hp' | return_ hp' =>
      rw [hp] at hp'
      cases hp'
  | return_ hp =>
    cases h' with
    | return_ => rfl
    | pad hp' | report hp' | toReturn hp' | returnLabel hp' =>
      rw [hp] at hp'
      cases hp'

/-- An item of the output that is not of the trampoline is one of the functions. -/
theorem getElem?_emitted (hout : FinishedAs b.emitted out) {p : Nat} {i : LiveItem}
    (hi : i.isTrampoline = false) (hp : out.code.items[p]? = some i) :
    b.emitted.code.items[p]? = some i := by
  rw [hout.items] at hp
  rcases getElem?_append_cases hp with hp | ⟨-, hp⟩
  · exact hp
  · rw [isTrampoline_of_mem (List.mem_of_getElem? hp)] at hi
    cases hi

theorem getElem?_out (hout : FinishedAs b.emitted out) {p : Nat} {i : LiveItem}
    (hp : b.emitted.code.items[p]? = some i) : out.code.items[p]? = some i := by
  rw [hout.items]
  exact getElem?_append_of_eq_some hp

theorem sameFunction_out (hout : FinishedAs b.emitted out) {p q : Nat} {i j : LiveItem}
    (hp : b.emitted.code.items[p]? = some i) (hq : b.emitted.code.items[q]? = some j) :
    SameFunction out.code p q ↔ SameFunction b.emitted.code p q := by
  unfold SameFunction
  rw [hout.items]
  exact ⟨SamePart.of_append, fun h => h.append (lt_length_of_eq_some hp) (lt_length_of_eq_some hq)⟩

/-- The comparison of the bounds check, for a table in memory. -/
theorem ofNat_le_iff {n : Nat} (hn : n < 2 ^ 64) (offset : BitVec 64) :
    BitVec.ofNat 64 n ≤ offset ↔ n ≤ offset.toNat := by
  rw [BitVec.le_def, BitVec.toNat_ofNat, Nat.mod_eq_of_lt hn]

/-- Every case of a switch goes to its label. -/
theorem switchGoesTo_case (hlinked : b.emitted.Linked) (hsettled : b.emitted.Settled)
    (hout : FinishedAs b.emitted out) {p i : Nat} {jtbl : JumpTable} {entry : BitVec 32}
    {offset : BitVec 64} (hp : b.emitted.code.items[p]? = some (.bound jtbl))
    (hentry : jtbl.entries[i]? = some entry) (hoffset : offset.toNat = 4 * i) :
    ∃ q, (∀ q', out.switchGoesTo p jtbl offset q' ↔ q' = q) ∧
      out.code.items[q]? = some (.label (.at_ entry)) ∧ SameFunction out.code p q := by
  have htable := hlinked.adjacent p jtbl hp
  obtain ⟨ls, hls⟩ := (hlinked.tables.given (p + 1) jtbl htable).resolve_left (by
    rw [hsettled.pendingJumpTables]
    exact nofun)
  obtain ⟨jtbl', hitem, hcases⟩ := hlinked.tables.linked ls (p + 1) hls
  rw [htable] at hitem
  cases hitem
  obtain ⟨q, hq, hlabel, hsame⟩ := hcases i entry hentry
  obtain ⟨f, hf, ⟨reg, hswitch⟩, -⟩ := b.of_bound hout.errored hp
  have hlt : jtbl.entries.length * 4 < 2 ^ 64 := b.table_lt f hf jtbl reg hswitch
  have hinside : ¬BitVec.ofNat 64 (jtbl.entries.length * 4) ≤ offset := by
    have hi := (List.getElem?_eq_some_iff.mp hentry).1
    rw [ofNat_le_iff hlt, hoffset]
    omega
  have hdiv : offset.toNat / 4 = i := by omega
  refine ⟨q, fun q' => ?_, getElem?_out hout hlabel, ?_⟩
  · unfold LiveOutput.switchGoesTo
    rw [if_neg hinside, hdiv, hout.jumpTables]
    constructor
    · rintro ⟨ls', hls', hq'⟩
      -- the table of a jump is there once
      have hnodup := (List.nodup_append.mp hlinked.tables.nodup).1
      have heq := List.inj_on_of_nodup_map hnodup hls hls' rfl
      cases heq
      rw [hq] at hq'
      cases hq'
      rfl
    · rintro rfl
      exact ⟨ls, hls, hq⟩
  · have hnext : SamePart LiveItem.isEntry b.emitted.code.items p q := by
      intro r hr hle x hx
      by_cases hrp : r = p + 1
      · rw [hrp, htable] at hx
        cases hx
        rfl
      by_cases hrp' : r = p
      · rw [hrp', hp] at hx
        cases hx
        rfl
      · exact hsame r (by omega) (by omega) x hx
    exact (sameFunction_out hout hp hlabel).mpr hnext

/-- **A batch is linked right exactly when the switches are in functions of the last function's name
and no branch is closed in another function.** -/
theorem linkedRight_iff (h : b.emitted.finish = some out) :
    LinkedRight b out ↔ BatchCondition b := by
  have herrored : b.emitted.errored = false := by
    unfold LiveState.finish at h
    split_ifs at h with herrored
    exact Bool.eq_false_of_not_eq_true herrored
  obtain ⟨hlinked, hsettled⟩ := b.linked_emitted herrored
  have hout := hlinked.finish h
  have hsame : BranchesSame b.emitted.code ↔ ClosesOwn false b.functions :=
    LiveState.branchesSame_emitFunctions_iff (LiveState.linked_start b.numFuncs)
      ⟨rfl, rfl, rfl, rfl⟩ herrored nofun
  constructor
  · intro hright
    refine ⟨?_, hsame.mp fun p q hp hq => ?_⟩
    · rintro f hf ⟨jtbl, reg, hswitch⟩ g hg
      obtain ⟨p, hp, hin⟩ := b.exists_item herrored hf hswitch (i := .bound jtbl)
        (List.mem_cons_of_mem _ List.mem_cons_self)
      have hlt := b.table_lt f hf jtbl reg hswitch
      obtain ⟨name, hname, hreports⟩ := hright.errors p jtbl (getElem?_out hout hp)
      have hbound : (BitVec.ofNat 64 (jtbl.entries.length * 4)).toNat = jtbl.entries.length * 4 := by
        rw [BitVec.toNat_ofNat, Nat.mod_eq_of_lt hlt]
      obtain ⟨q, hq, hreport⟩ := hreports _ (Nat.le_of_eq hbound.symm)
      unfold LiveOutput.switchGoesTo at hq
      rw [if_pos (BitVec.le_refl _)] at hq
      obtain ⟨q', hq', hreport'⟩ := hout.bound p jtbl hp
      rw [hq] at hq'
      cases hq'
      have heq := reports_unique hreport hreport'
      have hfunction := LiveState.functionName_emitFunctions (s := .start b.numFuncs) hg
      have hin' := hin.append (lt_length_of_eq_some hp) hout.items
      rw [hin'.unique hname]
      simp only [List.cons.injEq, SwitchReport.mk.injEq, and_true] at heq
      exact heq.trans hfunction
    · have htarget := hout.target p .branch hp nofun nofun
      rw [hq] at htarget
      obtain ⟨-, hclosing, hsamePart, -⟩ := hright.branches p q (getElem?_out hout hp) htarget
      exact (sameFunction_out hout hp (getElem?_emitted hout rfl hclosing)).mp hsamePart
  · intro hcondition
    constructor
    · intro p t hp
      have hp := getElem?_emitted hout rfl hp
      rcases hlinked.gotos.bound p t hp with hpending | ⟨q, hq, hlabel, hsamePart⟩
      · rw [hsettled.pendingJumps] at hpending
        cases hpending
      · exact ⟨q, (hout.target p _ hp nofun nofun).trans hq, getElem?_out hout hlabel,
          (sameFunction_out hout hp hlabel).mpr hsamePart⟩
    · intro p q hp hq
      have hp := getElem?_emitted hout rfl hp
      rw [hout.target p _ hp nofun nofun] at hq
      obtain ⟨hlt, hclosing, hbetween⟩ := hlinked.branches.closed p q hp hq
      refine ⟨hlt, getElem?_out hout hclosing,
        (sameFunction_out hout hp hclosing).mpr (hsame.mpr hcondition.branches p q hp hq), ?_⟩
      intro r hr hrq
      have hbetween := hbetween r hr hrq
      rw [← noBranchAt_append (Nat.lt_trans hrq (lt_length_of_eq_some hclosing)), ← hout.items]
        at hbetween
      exact hbetween
    · intro p jtbl hp i entry offset hentry hoffset
      exact b.switchGoesTo_case hlinked hsettled hout (getElem?_emitted hout rfl hp) hentry hoffset
    · intro p jtbl hp
      have hp := getElem?_emitted hout rfl hp
      obtain ⟨f, hf, ⟨reg, hswitch⟩, hin⟩ := b.of_bound herrored hp
      refine ⟨f.name, hin.append (lt_length_of_eq_some hp) hout.items, fun offset hoffset => ?_⟩
      obtain ⟨q, hq, hreports⟩ := hout.bound p jtbl hp
      refine ⟨q, ?_, ?_⟩
      · unfold LiveOutput.switchGoesTo
        rw [if_pos ((ofNat_le_iff (b.table_lt f hf jtbl reg hswitch) offset).mpr hoffset), hq]
      · obtain ⟨g, hg⟩ := Option.isSome_iff_exists.mp
          (List.getLast?_isSome.mpr (List.ne_nil_of_mem hf))
        have hfunction := LiveState.functionName_emitFunctions (s := .start b.numFuncs) hg
        rw [hcondition.names f hf ⟨jtbl, reg, hswitch⟩ g hg, ← hfunction]
        exact hreports
    · intro p k hp
      obtain ⟨q, hq, hlabel⟩ := hout.call p k (getElem?_emitted hout rfl hp)
      obtain ⟨name, hentry⟩ := hlinked.calls.isEntry k q hlabel
      exact ⟨q, name, hq, getElem?_out hout hentry⟩
    · intro k q hq
      rw [hout.functions] at hq
      obtain ⟨name, hentry⟩ := hlinked.calls.isEntry k q hq
      exact ⟨name, getElem?_out hout hentry⟩
    · intro f hf
      rw [hout.functions]
      refine LiveState.funcLabels_emitFunctions ?_ (.inr ⟨f, hf, rfl⟩)
      change f.index < (List.replicate b.numFuncs none).length
      rw [List.length_replicate]
      exact b.index_lt f hf

/-- **A batch that is good has all that it references.** -/
theorem referencesEmitted_of_finish (h : b.emitted.finish = some out) : ReferencesEmitted b := by
  have herrored : b.emitted.errored = false := by
    unfold LiveState.finish at h
    split_ifs at h with herrored
    exact Bool.eq_false_of_not_eq_true herrored
  obtain ⟨hlinked, hsettled⟩ := b.linked_emitted herrored
  have hout := hlinked.finish h
  have hreferenced := Referenced.emitFunctions (LiveState.linked_start b.numFuncs)
    ⟨rfl, rfl, rfl, rfl⟩ herrored
  refine ⟨fun f hf => (hreferenced f hf).1, fun f hf => (hreferenced f hf).2, ?_⟩
  intro f hf k labels hcall
  obtain ⟨p, hp, -⟩ := b.exists_item herrored hf hcall (i := .call k) List.mem_cons_self
  obtain ⟨q, -, hlabel⟩ := hout.call p k hp
  obtain ⟨name, hentry⟩ := hlinked.calls.isEntry k q hlabel
  rw [b.items_emitted herrored] at hentry
  obtain ⟨g, hg, hmem⟩ := List.mem_flatMap.mp (List.mem_of_getElem? hentry)
  exact ⟨g, hg, (g.eq_of_entry_mem hmem).1⟩

end Batch

/-- **A batch that is good is right exactly under the condition.** -/
theorem batchRight_iff (b : Batch) (out : LiveOutput) (h : b.emitted.finish = some out) :
    BatchRight b ↔ BatchCondition b := by
  constructor
  · intro hright
    exact (b.linkedRight_iff h).mp (hright out h).1
  · intro hcondition out' h'
    exact ⟨(b.linkedRight_iff h').mpr hcondition, b.referencesEmitted_of_finish h'⟩

/-! ### Two batches -/

/-- A table of one entry. -/
def oneCase : JumpTable where
  vram := 0x80001000
  addendReg := 8
  rom := 0x1000
  lwVram := 0x80000008
  adduVram := 0x80000004
  jrVram := 0x8000000C
  sectionIndex := 0
  gotOffset := none
  entries := [0x80000014]

/-- A function that is one switch. -/
def switchFunction : EmittedFunction where
  index := 0
  name := ascii "first"
  calls := [.switch oneCase 8, .label (.at_ 0x80000014), .return_ 0]
  inner := by
    intro c hc
    simp only [List.mem_cons, List.not_mem_nil, or_false] at hc
    rcases hc with rfl | rfl | rfl
    · exact ⟨nofun, nofun⟩
    · exact ⟨nofun, nofun⟩
    · exact ⟨nofun, nofun⟩

def returnFunction : EmittedFunction where
  index := 1
  name := ascii "second"
  calls := [.return_ 1]
  inner := by
    intro c hc
    rw [List.mem_singleton.mp hc]
    exact ⟨nofun, nofun⟩

/-- The switch is alone. -/
def switchAlone : Batch where
  numFuncs := 1
  functions := [switchFunction]
  index_lt := by decide
  call_lt f hf k labels hc := by
    rw [List.mem_singleton.mp hf] at hc
    simp [switchFunction] at hc
  table_lt f hf jtbl reg hc := by
    rw [List.mem_singleton.mp hf] at hc
    simp only [switchFunction, List.mem_cons, Call.switch.injEq, reduceCtorEq, List.not_mem_nil,
      or_self, or_false] at hc
    rw [hc.1]
    decide

/-- The switch is followed by another function. -/
def switchThenReturn : Batch where
  numFuncs := 2
  functions := [switchFunction, returnFunction]
  index_lt := by decide
  call_lt f hf k labels hc := by
    simp only [List.mem_cons, List.not_mem_nil, or_false] at hf
    rcases hf with rfl | rfl
    · simp [switchFunction] at hc
    · simp [returnFunction] at hc
  table_lt f hf jtbl reg hc := by
    simp only [List.mem_cons, List.not_mem_nil, or_false] at hf
    rcases hf with rfl | rfl
    · simp only [switchFunction, List.mem_cons, Call.switch.injEq, reduceCtorEq, List.not_mem_nil,
        or_self, or_false] at hc
      rw [hc.1]
      decide
    · simp [returnFunction] at hc

/-- A switch in the only function is right. -/
theorem switchAlone_right : switchAlone.emitted.finish.isSome ∧ BatchRight switchAlone := by
  have hgood : switchAlone.emitted.finish.isSome := rfl
  obtain ⟨out, hout⟩ := Option.isSome_iff_exists.mp hgood
  refine ⟨hgood, (batchRight_iff switchAlone out hout).mpr ⟨?_, nofun, trivial⟩⟩
  intro f hf _ g hg
  cases hg
  rw [List.mem_singleton.mp hf]
  rfl

/-- The landing pad of a switch in the first function reports the name of the second. -/
theorem switchThenReturn_not_right :
    switchThenReturn.emitted.finish.isSome ∧ ¬BatchRight switchThenReturn := by
  have hgood : switchThenReturn.emitted.finish.isSome := rfl
  refine ⟨hgood, fun h => ?_⟩
  obtain ⟨out, hout⟩ := Option.isSome_iff_exists.mp hgood
  have hnames := (switchThenReturn.linkedRight_iff hout).mp (h out hout).1
  have hname := hnames.names switchFunction (by simp [switchThenReturn])
    ⟨oneCase, 8, by simp [switchFunction]⟩ returnFunction rfl
  exact absurd hname (by decide)

end N64Recomp
