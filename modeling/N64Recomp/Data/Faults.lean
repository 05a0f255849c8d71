import N64Recomp.Data.Except

/-!
# Computations with a fault

One of the errors of a computation is a fault, which it must not end with. The other errors are its
own refusals.

## Main definitions

* `Except.Ensures`: a computation does not end with the fault, and what it returns has a property
* `Except.attempt`: a refusal is handled by the caller, the fault is not

## Main results

* `Except.Ensures.bind`, `Except.Ensures.foldlM`, `Except.Ensures.allM`: the rules
* `Except.foldlM_ne_error_iff`: a loop has no fault when none of its turns has one
-/

namespace Except

variable {ε α β : Type} {fault : ε}

/-- The computation does not end with the fault, and what it returns has the property. -/
def Ensures (fault : ε) (x : Except ε α) (P : α → Prop) : Prop :=
  x ≠ .error fault ∧ ∀ a, x = .ok a → P a

section Rules

variable {P : α → Prop} {Q : β → Prop} {x : Except ε α}

theorem ensures_ok {a : α} (h : P a) : Ensures fault (.ok a) P := by
  refine ⟨nofun, ?_⟩
  rintro _ ⟨⟩
  exact h

theorem ensures_error {e : ε} (h : e ≠ fault) : Ensures fault (.error e : Except ε α) P :=
  ⟨fun heq => h (Except.error.inj heq), nofun⟩

theorem Ensures.bind {f : α → Except ε β} (hx : Ensures fault x P)
    (hf : ∀ a, P a → Ensures fault (f a) Q) : Ensures fault (x >>= f) Q := by
  cases x with
  | error e => exact ensures_error fun heq => hx.1 (congrArg Except.error heq)
  | ok a => exact hf a (hx.2 a rfl)

theorem Ensures.mono {P' : α → Prop} (hx : Ensures fault x P) (h : ∀ a, P a → P' a) :
    Ensures fault x P' := ⟨hx.1, fun a ha => h a (hx.2 a ha)⟩

theorem Ensures.and {P' : α → Prop} (hx : Ensures fault x P) (hx' : Ensures fault x P') :
    Ensures fault x fun a => P a ∧ P' a := ⟨hx.1, fun a ha => ⟨hx.2 a ha, hx'.2 a ha⟩⟩

/-- A property that holds anyway. -/
theorem ensures_of_ne (h : x ≠ .error fault) : Ensures fault x fun a => x = .ok a :=
  ⟨h, fun _ ha => ha⟩

/-- A loop keeps what its turns keep. -/
theorem Ensures.foldlM {step : β → α → Except ε β} {l : List α} {s : β} (hs : Q s)
    (hstep : ∀ s, ∀ a ∈ l, Q s → Ensures fault (step s a) Q) :
    Ensures fault (l.foldlM step s) Q := by
  induction l generalizing s with
  | nil => exact ensures_ok hs
  | cons a l ih =>
    rw [List.foldlM_cons]
    refine (hstep s a List.mem_cons_self hs).bind fun s' hs' => ih hs' ?_
    exact fun s'' b hb => hstep s'' b (List.mem_cons_of_mem a hb)

/-- A test of all elements tests them one after the other. -/
theorem Ensures.allM {p : α → Except ε Bool} {l : List α}
    (hp : ∀ a ∈ l, Ensures fault (p a) fun _ => True) :
    Ensures fault (l.allM p) fun _ => True := by
  induction l with
  | nil => exact ensures_ok trivial
  | cons a l ih =>
    refine (hp a List.mem_cons_self).bind fun b _ => ?_
    cases b with
    | true => exact ih fun a' ha' => hp a' (List.mem_cons_of_mem a ha')
    | false => exact ensures_ok trivial

theorem Ensures.anyM {p : α → Except ε Bool} {l : List α}
    (hp : ∀ a ∈ l, Ensures fault (p a) fun _ => True) :
    Ensures fault (l.anyM p) fun _ => True := by
  induction l with
  | nil => exact ensures_ok trivial
  | cons a l ih =>
    refine (hp a List.mem_cons_self).bind fun b _ => ?_
    cases b with
    | true => exact ensures_ok trivial
    | false => exact ih fun a' ha' => hp a' (List.mem_cons_of_mem a ha')

end Rules

/-- A loop has no fault if and only if no turn has one in the state that the turns before lead to. -/
theorem foldlM_ne_error_iff {step : β → α → Except ε β} {l : List α} {s : β} :
    l.foldlM step s ≠ .error fault ↔ ∀ visited a rest s', l = visited ++ a :: rest →
      visited.foldlM step s = .ok s' → step s' a ≠ .error fault := by
  constructor
  · rintro h visited a rest s' rfl hvisited hfault
    apply h
    rw [List.foldlM_append, hvisited, ok_bind, List.foldlM_cons, hfault, error_bind]
  · intro h
    have hrun : ∀ (visited : List α) a rest s' s'', visited ++ a :: rest = l →
        visited.foldlM step s = .ok s' → step s' a = .ok s'' →
        (visited ++ [a]).foldlM step s = .ok s'' := by
      intro visited a rest s' s'' _ hvisited hstep
      rw [List.foldlM_append, hvisited, ok_bind, List.foldlM_cons, hstep, ok_bind]
      rfl
    rcases foldlM_cases (P := fun visited s' => visited.foldlM step s = .ok s') rfl hrun with
      ⟨s', hs', -⟩ | ⟨visited, a, rest, s', e, hl, hvisited, hstep, hs'⟩
    · rw [hs']
      exact nofun
    · intro hfault
      rw [hs'] at hfault
      cases hfault
      exact h visited a rest s' hl.symm hvisited hstep

/-- A refusal is handled; the fault is not. -/
def attempt [DecidableEq ε] (fault : ε) : Except ε α → Except ε (Option α)
  | .ok a => .ok (some a)
  | .error e => if e = fault then .error fault else .ok none

theorem Ensures.attempt [DecidableEq ε] {x : Except ε α} {P : α → Prop}
    (hx : Ensures fault x P) : Ensures fault (x.attempt fault) fun a? => ∀ a, a? = some a → P a := by
  cases x with
  | ok a =>
    refine ensures_ok ?_
    rintro _ ⟨⟩
    exact hx.2 a rfl
  | error e =>
    have hne : e ≠ fault := fun heq => hx.1 (congrArg Except.error heq)
    change Ensures fault (if e = fault then .error fault else .ok none) _
    rw [if_neg hne]
    exact ensures_ok nofun

end Except
