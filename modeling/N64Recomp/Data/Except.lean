import Mathlib.Data.List.Forall2
import N64Recomp.Data.Widths

/-!
# Computations that may fail

How a composition and a loop of `Except` or `Option` succeed: what each part returned, and the
invariant that the steps of a loop keep.

## Main results

* `Except.bind_eq_ok_iff`, `Except.map_eq_ok_iff`: a composition succeeds when its parts do
* `Except.foldlM_ok_induction`: a loop keeps what each of its steps keeps
* `Except.foldlM_cases`: where a loop fails
* `Option.forall₂_mapM`, `Except.forall₂_mapM`: what a traversal returns, element by element
-/

namespace Except

variable {ε α β γ : Type}

@[simp] theorem ok_bind (a : α) (f : α → Except ε β) : (Except.ok a >>= f) = f a := rfl

@[simp] theorem error_bind (e : ε) (f : α → Except ε β) : (Except.error e >>= f) = .error e := rfl

theorem bind_eq_ok_iff {x : Except ε α} {f : α → Except ε β} {b : β} :
    (x >>= f) = .ok b ↔ ∃ a, x = .ok a ∧ f a = .ok b := by
  cases x with
  | error e =>
    constructor
    · rintro ⟨⟩
    · rintro ⟨_, ⟨⟩, -⟩
  | ok a =>
    constructor
    · exact fun h => ⟨a, rfl, h⟩
    · rintro ⟨_, ⟨⟩, h⟩
      exact h

theorem map_eq_ok_iff {x : Except ε α} {f : α → β} {b : β} :
    x.map f = .ok b ↔ ∃ a, x = .ok a ∧ f a = b := by
  cases x with
  | error e =>
    constructor
    · rintro ⟨⟩
    · rintro ⟨_, ⟨⟩, -⟩
  | ok a =>
    constructor
    · rintro ⟨⟩
      exact ⟨a, rfl, rfl⟩
    · rintro ⟨_, ⟨⟩, rfl⟩
      rfl

/-- The invariant rule of a loop over a list: `P` speaks of the elements that were visited and of
the state they led to. -/
theorem foldlM_ok_induction {step : β → α → Except ε β} {P : List α → β → Prop} {l : List α}
    {s s' : β} (hstart : P [] s)
    (hstep : ∀ visited x s s', P visited s → x ∈ l → step s x = .ok s' → P (visited ++ [x]) s')
    (h : l.foldlM step s = .ok s') : P l s' := by
  have hrun : ∀ visited (rest : List α) s, (∀ x ∈ rest, x ∈ l) → P visited s →
      rest.foldlM step s = .ok s' → P (visited ++ rest) s' := by
    intro visited rest
    induction rest generalizing visited with
    | nil =>
      intro s _ hs h
      obtain rfl : s = s' := Except.ok.inj h
      rwa [List.append_nil]
    | cons x rest ih =>
      intro s hmem hs h
      rw [List.foldlM_cons] at h
      obtain ⟨s₁, hx, h⟩ := bind_eq_ok_iff.mp h
      rw [List.append_cons]
      exact ih (visited ++ [x]) s₁ (fun y hy => hmem y (by simp [hy]))
        (hstep visited x s s₁ hs (hmem x (by simp)) hx) h
  exact hrun [] l s (fun _ hx => hx) hstart h

/-- A loop ends, or one of its steps fails in a state that the steps before led to. -/
theorem foldlM_cases {f : β → α → Except ε β} {P : List α → β → Prop} {l : List α} {s : β}
    (hstart : P [] s)
    (hstep : ∀ visited x rest s s', visited ++ x :: rest = l → P visited s → f s x = .ok s' →
      P (visited ++ [x]) s') :
    (∃ s', l.foldlM f s = .ok s' ∧ P l s') ∨
      ∃ visited x rest s' e, visited ++ x :: rest = l ∧ P visited s' ∧ f s' x = .error e ∧
        l.foldlM f s = .error e := by
  have hrun : ∀ (rest visited : List α) s, visited ++ rest = l → P visited s →
      (∃ s', rest.foldlM f s = .ok s' ∧ P l s') ∨
        ∃ visited x rest' s' e, visited ++ x :: rest' = l ∧ P visited s' ∧ f s' x = .error e ∧
          rest.foldlM f s = .error e := by
    intro rest
    induction rest with
    | nil =>
      intro visited s hl hs
      rw [List.append_nil] at hl
      exact Or.inl ⟨s, rfl, hl ▸ hs⟩
    | cons x rest ih =>
      intro visited s hl hs
      rw [List.foldlM_cons]
      cases hx : f s x with
      | error e => exact Or.inr ⟨visited, x, rest, s, e, hl, hs, hx, rfl⟩
      | ok s₁ =>
        refine ih (visited ++ [x]) s₁ ?_ (hstep visited x rest s s₁ hl hs hx)
        rw [List.append_assoc, List.singleton_append, hl]
  exact hrun l [] s rfl hstart

/-- A traversal that succeeds returns the result of each element. -/
theorem forall₂_mapM {f : α → Except ε β} {l : List α} {l' : List β} (h : l.mapM f = .ok l') :
    List.Forall₂ (fun a b => f a = .ok b) l l' := by
  induction l generalizing l' with
  | nil =>
    obtain rfl : [] = l' := Except.ok.inj h
    exact List.Forall₂.nil
  | cons a l ih =>
    rw [List.mapM_cons] at h
    obtain ⟨b, hb, h⟩ := bind_eq_ok_iff.mp h
    obtain ⟨bs, hbs, h⟩ := bind_eq_ok_iff.mp h
    obtain rfl : b :: bs = l' := Except.ok.inj h
    exact List.Forall₂.cons hb (ih hbs)

/-- A traversal that fails fails at an element. -/
theorem exists_of_mapM_error {f : α → Except ε β} {l : List α} {e : ε} (h : l.mapM f = .error e) :
    ∃ a ∈ l, f a = .error e := by
  induction l with
  | nil => cases h
  | cons a l ih =>
    rw [List.mapM_cons] at h
    cases ha : f a with
    | error e' =>
      rw [ha] at h
      obtain rfl : e' = e := Except.error.inj h
      exact ⟨a, List.mem_cons_self, ha⟩
    | ok b =>
      rw [ha, ok_bind] at h
      cases hl : l.mapM f with
      | ok bs =>
        rw [hl] at h
        cases h
      | error e' =>
        rw [hl] at h
        obtain rfl : e' = e := Except.error.inj h
        obtain ⟨a', ha', hfail⟩ := ih hl
        exact ⟨a', List.mem_cons_of_mem _ ha', hfail⟩

end Except

namespace Option

/-- A traversal that succeeds returns the result of each element. -/
theorem forall₂_mapM {α β : Type} {f : α → Option β} {l : List α} {l' : List β}
    (h : l.mapM f = some l') : List.Forall₂ (fun a b => f a = some b) l l' := by
  induction l generalizing l' with
  | nil =>
    obtain rfl := Option.some.inj h
    exact List.Forall₂.nil
  | cons a l ih =>
    rw [List.mapM_cons] at h
    obtain ⟨b, hb, h⟩ := Option.bind_eq_some_iff.mp h
    obtain ⟨bs, hbs, h⟩ := Option.bind_eq_some_iff.mp h
    obtain rfl := Option.some.inj h
    exact List.Forall₂.cons hb (ih hbs)

end Option
