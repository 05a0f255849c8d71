import Mathlib.Logic.Relation
import N64Recomp.Data.Widths

/-!
# Flat code with labels

Code is a list of items that are executed one after the other. A configuration is what is left of the
code, and the state. An item changes the state, and goes on behind itself, at a label, or behind the
end of the block that it opens; or it leaves the code.

## Main definitions

* `Language`, `Effect`: what the items of a language do
* `behind`, `behindBlock`: the code behind a label, and behind the end of a block
* `Steps`, `Leaves`: the runs of a program, and those that leave it
* `Language.Extends`: a language that describes what another one does, and more
* `runNext`: items none of which transfers control

## Main results

* `behind_append`, `behindBlock_append`: where a jump leads
* `steps_runNext`: items without transfers are run in front of any others
* `steps_pass`, `steps_reach`: items that do nothing are passed, up to one of them
* `Steps.invariant`, `Leaves.invariant`: what every item keeps is kept by the runs
* `Steps.leaves`: a run in front of one that leaves
* `Leaves.unique`: a program is left in one way
* `Leaves.mono`, `Leaves.exists_of_limit`: the runs of an extension, and of a limit of extensions
-/

namespace FlatCode

/-- What an item does. -/
inductive Effect (ℓ σ χ : Type)
  | next (s : σ)
  | goto (l : ℓ) (s : σ)
  /-- Goes on behind the end of the block that the item opens. -/
  | skip (s : σ)
  | leave (e : χ) (s : σ)
  /-- The item does nothing that the language describes. -/
  | stop

/-- The states that an effect leads to satisfy `P`. -/
def Effect.Holds {ℓ σ χ : Type} (P : σ → Prop) : Effect ℓ σ χ → Prop
  | next s | goto _ s | skip s | leave _ s => P s
  | stop => True

/-- A language of items `ι` with labels `ℓ` over states `σ`, whose programs are left with `χ`. -/
structure Language (ι ℓ σ χ : Type) where
  label : ι → Option ℓ
  opens : ι → Bool
  closes : ι → Bool
  effect : ι → σ → Effect ℓ σ χ

variable {ι ℓ σ χ : Type} (L : Language ι ℓ σ χ)

/-- The code behind the end of the block at a depth. -/
def behindBlock : (depth : Nat) → List ι → Option (List ι)
  | _, [] => none
  | 0, i :: rest =>
    if L.closes i then some rest else behindBlock (if L.opens i then 1 else 0) rest
  | depth + 1, i :: rest =>
    if L.closes i then behindBlock depth rest
    else behindBlock (if L.opens i then depth + 2 else depth + 1) rest

/-- The state behind items none of which transfers control. -/
def runNext : List ι → σ → Option σ
  | [], s => some s
  | i :: rest, s =>
    match L.effect i s with
    | .next s' => runNext rest s'
    | _ => none

/-- An item that neither opens a block nor closes one. -/
def Plain (i : ι) : Prop := L.opens i = false ∧ L.closes i = false

section Labels

variable [DecidableEq ℓ]

/-- The code behind a label. -/
def behind (label : ι → Option ℓ) (l : ℓ) : List ι → Option (List ι)
  | [] => none
  | i :: rest => if label i = some l then some rest else behind label l rest

/-- One step of a program. -/
inductive Step (program : List ι) : List ι × σ → List ι × σ → Prop
  | next {i : ι} {rest : List ι} {s s' : σ} (h : L.effect i s = .next s') :
      Step program (i :: rest, s) (rest, s')
  | goto {i : ι} {rest rest' : List ι} {l : ℓ} {s s' : σ} (h : L.effect i s = .goto l s')
      (hl : behind L.label l program = some rest') : Step program (i :: rest, s) (rest', s')
  | skip {i : ι} {rest rest' : List ι} {s s' : σ} (h : L.effect i s = .skip s')
      (hl : behindBlock L 0 rest = some rest') : Step program (i :: rest, s) (rest', s')

/-- The runs of a program. -/
abbrev Steps (program : List ι) : List ι × σ → List ι × σ → Prop :=
  Relation.ReflTransGen (Step L program)

/-- A run that leaves the program. -/
def Leaves (program : List ι) (c : List ι × σ) (e : χ) (s' : σ) : Prop :=
  ∃ i rest s, Steps L program c (i :: rest, s) ∧ L.effect i s = .leave e s'

end Labels

variable {L} {program pre items rest rest' : List ι} {i : ι} {l : ℓ} {s s' : σ} {e : χ}
  {c c' : List ι × σ}

/-- The end of a block, behind items that neither open nor close one. -/
theorem behindBlock_append (h : ∀ i ∈ items, Plain L i) (hi : L.closes i = true) :
    behindBlock L 0 (items ++ i :: rest) = some rest := by
  induction items with
  | nil => exact if_pos hi
  | cons j items ih =>
    obtain ⟨⟨hopens, hcloses⟩, hitems⟩ := List.forall_mem_cons.mp h
    rw [List.cons_append, behindBlock, hcloses, if_neg Bool.false_ne_true, hopens,
      if_neg Bool.false_ne_true, ih hitems]

theorem runNext_cons (h : L.effect i s = .next s') :
    runNext L (i :: rest) s = runNext L rest s' := by
  rw [runNext, h]

theorem runNext_append (h : runNext L items s = some s') :
    runNext L (items ++ rest) s = runNext L rest s' := by
  induction items generalizing s with
  | nil =>
    obtain rfl := Option.some.inj h
    rfl
  | cons i items ih =>
    unfold runNext at h
    rw [List.cons_append]
    split at h
    · rename_i s₁ hi
      rw [runNext_cons hi, ih h]
    · cases h

section Labels

variable [DecidableEq ℓ]

variable {label : ι → Option ℓ}

theorem behind_cons_self (h : label i = some l) : behind label l (i :: rest) = some rest :=
  if_pos h

/-- A label behind items that do not define it. -/
theorem behind_append (h : ∀ i ∈ pre, label i ≠ some l) :
    behind label l (pre ++ rest) = behind label l rest := by
  induction pre with
  | nil => rfl
  | cons i pre ih =>
    obtain ⟨hi, hpre⟩ := List.forall_mem_cons.mp h
    rw [List.cons_append, behind, if_neg hi, ih hpre]

/-- What is behind the first item that defines a label. -/
theorem behind_of_first (hl : label i = some l) (h : ∀ i ∈ pre, label i ≠ some l) :
    behind label l (pre ++ i :: rest) = some rest := by
  rw [behind_append h, behind_cons_self hl]

/-- What is behind an item, when no label is defined twice. -/
theorem behind_of_nodup (h : ((pre ++ i :: rest).filterMap label).Nodup) (hl : label i = some l) :
    behind label l (pre ++ i :: rest) = some rest := by
  refine behind_of_first hl fun j hj hlabel => ?_
  rw [List.filterMap_append, List.filterMap_cons_some hl, List.nodup_append] at h
  exact h.2.2 l (List.mem_filterMap.mpr ⟨j, hj, hlabel⟩) l List.mem_cons_self rfl

theorem step_next (h : L.effect i s = .next s') : Steps L program (i :: rest, s) (rest, s') :=
  .single (.next h)

theorem step_goto (h : L.effect i s = .goto l s') (hl : behind L.label l program = some rest') :
    Steps L program (i :: rest, s) (rest', s') :=
  .single (.goto h hl)

theorem step_skip (h : L.effect i s = .skip s') (hl : behindBlock L 0 rest = some rest') :
    Steps L program (i :: rest, s) (rest', s') :=
  .single (.skip h hl)

/-- **Items without transfers are run in front of any others.** -/
theorem steps_runNext (h : runNext L items s = some s') :
    Steps L program (items ++ rest, s) (rest, s') := by
  induction items generalizing s with
  | nil =>
    obtain rfl := Option.some.inj h
    exact .refl
  | cons i items ih =>
    unfold runNext at h
    split at h
    · rename_i s₁ hi
      exact (step_next hi).trans (ih h)
    · cases h

/-- Items that do nothing are passed. -/
theorem steps_pass (h : ∀ i ∈ items, L.effect i s = .next s) :
    Steps L program (items ++ rest, s) (rest, s) := by
  induction items with
  | nil => exact .refl
  | cons i items ih =>
    obtain ⟨hi, hitems⟩ := List.forall_mem_cons.mp h
    exact (step_next hi).trans (ih hitems)

/-- An item behind others that do nothing is reached. -/
theorem steps_reach (hi : i ∈ items) (h : ∀ j ∈ items, j ≠ i → L.effect j s = .next s)
    (rest : List ι) : ∃ rest', Steps L program (items ++ rest, s) (i :: rest', s) := by
  induction items with
  | nil => cases hi
  | cons j items ih =>
    obtain ⟨hj, hitems⟩ := List.forall_mem_cons.mp h
    by_cases heq : j = i
    · exact ⟨items ++ rest, heq ▸ .refl⟩
    · obtain ⟨rest', hsteps⟩ := ih ((List.mem_cons.mp hi).resolve_left fun h => heq h.symm) hitems
      exact ⟨rest', (step_next (hj heq)).trans hsteps⟩

theorem leaves_of_effect (h : L.effect i s = .leave e s') : Leaves L program (i :: rest, s) e s' :=
  ⟨i, rest, s, .refl, h⟩

/-- **An invariant of the items is one of the runs.** -/
theorem Steps.invariant {P : σ → Prop} (hP : ∀ i s, P s → (L.effect i s).Holds P) (hc : P c.2)
    (h : Steps L program c c') : P c'.2 := by
  have hkeeps : ∀ {i s e}, L.effect i s = e → P s → e.Holds P := fun heq hs => heq ▸ hP _ _ hs
  induction h with
  | refl => exact hc
  | tail _ hstep ih =>
    cases hstep with
    | next heffect | goto heffect | skip heffect => exact hkeeps heffect ih

theorem Leaves.invariant {P : σ → Prop} (hP : ∀ i s, P s → (L.effect i s).Holds P) (hc : P c.2)
    (h : Leaves L program c e s') : P s' := by
  obtain ⟨i, rest, s, hsteps, hleave⟩ := h
  have hholds := hP i s (Steps.invariant hP hc hsteps)
  rw [hleave] at hholds
  exact hholds

theorem Steps.leaves (h : Steps L program c c') (h' : Leaves L program c' e s') :
    Leaves L program c e s' := by
  obtain ⟨i, rest, s, hsteps, hleave⟩ := h'
  exact ⟨i, rest, s, h.trans hsteps, hleave⟩

/-- No item goes on in two ways. -/
theorem Step.unique {c₁ c₂ : List ι × σ} (h₁ : Step L program c c₁) (h₂ : Step L program c c₂) :
    c₁ = c₂ := by
  cases h₁ with
  | next h₁ => cases h₂ <;> rename_i h₂ <;> cases h₁.symm.trans h₂; rfl
  | goto h₁ hl₁ =>
    cases h₂ with
    | goto h₂ hl₂ =>
      cases h₁.symm.trans h₂
      cases hl₁.symm.trans hl₂
      rfl
    | next h₂ | skip h₂ => cases h₁.symm.trans h₂
  | skip h₁ hl₁ =>
    cases h₂ with
    | skip h₂ hl₂ =>
      cases h₁.symm.trans h₂
      cases hl₁.symm.trans hl₂
      rfl
    | next h₂ | goto h₂ => cases h₁.symm.trans h₂

/-- **A program is left in one way.** -/
theorem Leaves.unique {e₁ e₂ : χ} {s₁ s₂ : σ} (h₁ : Leaves L program c e₁ s₁)
    (h₂ : Leaves L program c e₂ s₂) : e₁ = e₂ ∧ s₁ = s₂ := by
  obtain ⟨i₁, rest₁, t₁, hsteps₁, hleave₁⟩ := h₁
  obtain ⟨i₂, rest₂, t₂, hsteps₂, hleave₂⟩ := h₂
  -- an item that leaves the program takes no step
  have hlast : ∀ {i rest t e s} {c' : List ι × σ}, L.effect i t = .leave e s →
      Steps L program (i :: rest, t) c' → c' = (i :: rest, t) := by
    intro i rest t e s c' hleave hsteps
    rcases Relation.ReflTransGen.cases_head hsteps with heq | ⟨c₁, hstep, -⟩
    · exact heq.symm
    · cases hstep <;> rename_i heffect <;> cases hleave.symm.trans heffect
  have hsame : (i₁ :: rest₁, t₁) = (i₂ :: rest₂, t₂) := by
    have hunique : Relator.RightUnique (Step L program) := fun _ _ _ => Step.unique
    rcases Relation.ReflTransGen.total_of_right_unique hunique hsteps₁ hsteps₂ with h | h
    · exact (hlast hleave₁ h).symm
    · exact hlast hleave₂ h
  cases hsame
  cases hleave₁.symm.trans hleave₂
  exact ⟨rfl, rfl⟩

/-! ### Extensions -/

/-- A language whose items do what those of another one do, where that describes them. -/
structure Language.Extends (L L' : Language ι ℓ σ χ) : Prop where
  label : L'.label = L.label
  opens : L'.opens = L.opens
  closes : L'.closes = L.closes
  effect : ∀ i s, L.effect i s ≠ .stop → L'.effect i s = L.effect i s

variable {L' : Language ι ℓ σ χ}

omit [DecidableEq ℓ] in
theorem Language.Extends.behindBlock (h : L.Extends L') (depth : Nat) (items : List ι) :
    behindBlock L' depth items = FlatCode.behindBlock L depth items := by
  induction items generalizing depth with
  | nil => cases depth <;> rfl
  | cons i items ih =>
    cases depth <;> simp only [FlatCode.behindBlock, h.opens, h.closes, ih]

omit [DecidableEq ℓ] in
theorem Language.Extends.effect_eq (h : L.Extends L') {effect : Effect ℓ σ χ}
    (hi : L.effect i s = effect) (hstop : effect ≠ .stop) : L'.effect i s = effect :=
  (h.effect i s (hi ▸ hstop)).trans hi

theorem Step.mono (h : L.Extends L') (hstep : Step L program c c') : Step L' program c c' := by
  cases hstep with
  | next hi => exact .next (h.effect_eq hi fun heq => by cases heq)
  | goto hi hl => exact .goto (h.effect_eq hi fun heq => by cases heq) (h.label ▸ hl)
  | skip hi hl =>
    exact .skip (h.effect_eq hi fun heq => by cases heq) ((h.behindBlock 0 _).trans hl)

theorem Steps.mono (h : L.Extends L') (hsteps : Steps L program c c') : Steps L' program c c' := by
  induction hsteps with
  | refl => exact .refl
  | tail _ hstep ih => exact ih.tail (hstep.mono h)

/-- The runs of a language are those of its extensions. -/
theorem Leaves.mono (h : L.Extends L') (hleaves : Leaves L program c e s') :
    Leaves L' program c e s' := by
  obtain ⟨i, rest, s, hsteps, hleave⟩ := hleaves
  exact ⟨i, rest, s, hsteps.mono h, h.effect_eq hleave fun heq => by cases heq⟩

section Limit

variable {Ls : Nat → Language ι ℓ σ χ} (hmono : ∀ m n, m ≤ n → (Ls m).Extends (Ls n))
  (hlimit : ∀ n, (Ls n).Extends L) (heffect : ∀ i s, ∃ n, (Ls n).effect i s = L.effect i s)

include hlimit heffect in
theorem Step.exists_of_limit (h : Step L program c c') : ∃ n, Step (Ls n) program c c' := by
  cases h with
  | @next i _ s _ hi =>
    obtain ⟨n, hn⟩ := heffect i s
    exact ⟨n, .next (hn.trans hi)⟩
  | @goto i _ _ _ s _ hi hl =>
    obtain ⟨n, hn⟩ := heffect i s
    exact ⟨n, .goto (hn.trans hi) ((hlimit n).label ▸ hl)⟩
  | @skip i _ _ s _ hi hl =>
    obtain ⟨n, hn⟩ := heffect i s
    exact ⟨n, .skip (hn.trans hi) (((hlimit n).behindBlock 0 _).symm.trans hl)⟩

include hmono hlimit heffect

theorem Steps.exists_of_limit (h : Steps L program c c') : ∃ n, Steps (Ls n) program c c' := by
  induction h with
  | refl => exact ⟨0, .refl⟩
  | tail _ hstep ih =>
    obtain ⟨m, hm⟩ := ih
    obtain ⟨n, hn⟩ := Step.exists_of_limit hlimit heffect hstep
    exact ⟨max m n, (hm.mono (hmono m _ (Nat.le_max_left m n))).tail
      (hn.mono (hmono n _ (Nat.le_max_right m n)))⟩

/-- **A run of a limit of extensions is one of them.** -/
theorem Leaves.exists_of_limit (h : Leaves L program c e s') :
    ∃ n, Leaves (Ls n) program c e s' := by
  obtain ⟨i, rest, s, hsteps, hleave⟩ := h
  obtain ⟨m, hm⟩ := Steps.exists_of_limit hmono hlimit heffect hsteps
  obtain ⟨n, hn⟩ := heffect i s
  exact ⟨max m n, i, rest, s, hm.mono (hmono m _ (Nat.le_max_left m n)),
    (hmono n _ (Nat.le_max_right m n)).effect_eq (hn.trans hleave) fun heq => by cases heq⟩

end Limit

end Labels

end FlatCode
