import N64Recomp.Data.Widths

/-!
# Emissions

A computation that writes items in order, changes a state, and can stop: it refuses (a `false`
that its caller must pass on) or aborts (an exception). What it wrote and how it changed the state
stand also when it stops.

## Main definitions

* `Emit`: the computations, a monad
* `write`, `modify`, `read`, `refuse`, `abort`, `when`, `dropRefusal`
* `Emit.Done`, `Emit.Refuses`, `Emit.Returns`, `Emit.Decides`, `Emit.Accepts`, `Emit.Stops`,
  `Emit.Writes`: what is said of them

## Main results

* `done_bind`, `Returns.bind_done`, `Decides.bind_done`, `Writes.bind`: the rules of composition
-/

/-- How an emission ends. -/
inductive Ending (ε α : Type) : Type
  | done (a : α)
  | refused
  | aborted (e : ε)
  deriving DecidableEq, Repr

/-- What an emission leaves behind. -/
structure Output (σ ι ε α : Type) : Type where
  ending : Ending ε α
  items : List ι
  state : σ

/-- The emissions of items `ι` over the state `σ`. -/
def Emit (σ ι ε α : Type) : Type := σ → Output σ ι ε α

namespace Emit

variable {σ ι ε α β : Type}

/-- The second emission runs only when the first is done. -/
def bind (m : Emit σ ι ε α) (f : α → Emit σ ι ε β) : Emit σ ι ε β := fun s =>
  match (m s).ending with
  | .done a =>
    let rest := f a (m s).state
    ⟨rest.ending, (m s).items ++ rest.items, rest.state⟩
  | .refused => ⟨.refused, (m s).items, (m s).state⟩
  | .aborted e => ⟨.aborted e, (m s).items, (m s).state⟩

instance : Monad (Emit σ ι ε) where
  pure a := fun s => ⟨.done a, [], s⟩
  bind := bind

/-- Writes the items. -/
def write (items : List ι) : Emit σ ι ε Unit := fun s => ⟨.done (), items, s⟩

/-- Changes the state. -/
def modify (f : σ → σ) : Emit σ ι ε Unit := fun s => ⟨.done (), [], f s⟩

/-- Reads the state. -/
def read : Emit σ ι ε σ := fun s => ⟨.done s, [], s⟩

def refuse : Emit σ ι ε α := fun s => ⟨.refused, [], s⟩

def abort (e : ε) : Emit σ ι ε α := fun s => ⟨.aborted e, [], s⟩

/-- The emission, under a condition. -/
def when (p : Prop) [Decidable p] (m : Emit σ ι ε Unit) : Emit σ ι ε Unit :=
  if p then m else pure ()

/-- The emission of a caller that does not look at the returned `false`. -/
def dropRefusal (m : Emit σ ι ε Unit) : Emit σ ι ε Unit := fun s =>
  match (m s).ending with
  | .refused => ⟨.done (), (m s).items, (m s).state⟩
  | ending => ⟨ending, (m s).items, (m s).state⟩

/-! ### What an emission does from a state -/

section Done

/-- The emission is done with `a`, wrote `items` and left `s'`. -/
def Done (m : Emit σ ι ε α) (s : σ) (a : α) (items : List ι) (s' : σ) : Prop :=
  m s = ⟨.done a, items, s'⟩

variable {m : Emit σ ι ε α} {f : α → Emit σ ι ε β} {s s' : σ} {a : α} {b : β} {l : List ι}

@[simp] theorem done_pure {c : α} :
    Done (pure a : Emit σ ι ε α) s c l s' ↔ c = a ∧ l = [] ∧ s' = s := by
  constructor
  · intro h
    cases h
    exact ⟨rfl, rfl, rfl⟩
  · rintro ⟨rfl, rfl, rfl⟩
    rfl

@[simp] theorem done_write {items : List ι} {u : Unit} :
    Done (write items : Emit σ ι ε Unit) s u l s' ↔ l = items ∧ s' = s := by
  constructor
  · intro h
    cases h
    exact ⟨rfl, rfl⟩
  · rintro ⟨rfl, rfl⟩
    rfl

@[simp] theorem done_modify {g : σ → σ} {u : Unit} :
    Done (modify g : Emit σ ι ε Unit) s u l s' ↔ l = [] ∧ s' = g s := by
  constructor
  · intro h
    cases h
    exact ⟨rfl, rfl⟩
  · rintro ⟨rfl, rfl⟩
    rfl

@[simp] theorem done_read {t : σ} :
    Done (read : Emit σ ι ε σ) s t l s' ↔ t = s ∧ l = [] ∧ s' = s := by
  constructor
  · intro h
    cases h
    exact ⟨rfl, rfl, rfl⟩
  · rintro ⟨rfl, rfl, rfl⟩
    rfl

@[simp] theorem not_done_refuse : ¬Done (refuse : Emit σ ι ε α) s a l s' := by
  intro h
  cases h

@[simp] theorem not_done_abort {e : ε} : ¬Done (abort e : Emit σ ι ε α) s a l s' := by
  intro h
  cases h

theorem done_when {p : Prop} [Decidable p] {m : Emit σ ι ε Unit} {u : Unit} :
    Done (when p m) s u l s' ↔ if p then Done m s u l s' else l = [] ∧ s' = s := by
  by_cases hp : p
  · simp only [when, hp, if_true]
  · simp [when, hp]

/-- A composition is done when both parts are; it writes what they write, in order. -/
theorem done_bind :
    Done (m >>= f) s b l s' ↔
      ∃ a l₁ s₁ l₂, Done m s a l₁ s₁ ∧ Done (f a) s₁ b l₂ s' ∧ l = l₁ ++ l₂ := by
  constructor
  · intro h
    change bind m f s = _ at h
    unfold bind at h
    cases hm : (m s).ending with
    | done a =>
      rw [hm] at h
      injection h with hend hitems hstate
      refine ⟨a, (m s).items, (m s).state, (f a (m s).state).items, ?_, ?_, hitems.symm⟩
      · rw [Done, ← hm]
      · rw [Done, ← hend, ← hstate]
    | refused =>
      rw [hm] at h
      cases h
    | aborted e =>
      rw [hm] at h
      cases h
  · rintro ⟨a, l₁, s₁, l₂, hm, hf, rfl⟩
    change bind m f s = _
    rw [Done] at hm hf
    rw [bind, hm]
    simp only
    rw [hf]

/-- When the refusal is dropped, the emission is done also where it refused. -/
theorem done_dropRefusal {m : Emit σ ι ε Unit} {u : Unit} :
    Done (dropRefusal m) s u l s' ↔ Done m s () l s' ∨ m s = ⟨.refused, l, s'⟩ := by
  unfold Done dropRefusal
  cases hm : m s with
  | mk ending items state =>
    cases ending with
    | done a => simp
    | refused => simp
    | aborted e => simp

end Done

/-! ### Refusals -/

section Decides

variable {m : Emit σ ι ε α} {f : α → Emit σ ι ε β} {b c : Bool}

/-- The emission refuses from every state. -/
def Refuses (m : Emit σ ι ε α) : Prop := ∀ s, (m s).ending = .refused

/-- The emission is done from every state. -/
def Returns (m : Emit σ ι ε α) : Prop := ∀ s, ∃ a, (m s).ending = .done a

/-- Whether the emission refuses or is done does not depend on the state: it refuses when `b`. -/
def Decides : Bool → Emit σ ι ε α → Prop
  | true => Refuses
  | false => Returns

@[simp] theorem decides_true : Decides true m ↔ Refuses m := Iff.rfl

@[simp] theorem decides_false : Decides false m ↔ Returns m := Iff.rfl

theorem Decides.refused_iff (hm : Decides b m) (s : σ) :
    (m s).ending = .refused ↔ b = true := by
  cases b with
  | true => exact ⟨fun _ => rfl, fun _ => hm s⟩
  | false =>
    obtain ⟨a, ha⟩ := hm s
    rw [ha]
    exact ⟨fun h => (by cases h), fun h => (by cases h)⟩

theorem refuses_refuse : Refuses (refuse : Emit σ ι ε α) := fun _ => rfl

theorem returns_pure (a : α) : Returns (pure a : Emit σ ι ε α) := fun _ => ⟨a, rfl⟩

theorem returns_write (items : List ι) : Returns (write items : Emit σ ι ε Unit) :=
  fun _ => ⟨(), rfl⟩

theorem returns_modify (g : σ → σ) : Returns (modify g : Emit σ ι ε Unit) := fun _ => ⟨(), rfl⟩

theorem returns_read : Returns (read : Emit σ ι ε σ) := fun s => ⟨s, rfl⟩

/-- A refusal is passed on. -/
theorem Refuses.bind_left (h : Refuses m) : Refuses (m >>= f) := by
  intro s
  change (bind m f s).ending = _
  unfold bind
  rw [h s]

/-- What follows an emission that returns decides how both end. -/
theorem Returns.ending_bind (hm : Returns m) (s : σ) :
    ∃ a l s', Done m s a l s' ∧ ((m >>= f) s).ending = (f a s').ending := by
  obtain ⟨a, ha⟩ := hm s
  refine ⟨a, (m s).items, (m s).state, ?_, ?_⟩
  · rw [Done, ← ha]
  · change (bind m f s).ending = _
    unfold bind
    rw [ha]

/-- What follows an emission that returns is run, on what the emission can have done. -/
theorem Returns.bind_done (hm : Returns m)
    (hf : ∀ s a l s', Done m s a l s' → Decides c (f a)) : Decides c (m >>= f) := by
  cases c with
  | true =>
    intro s
    obtain ⟨a, l, s', hdone, hend⟩ := hm.ending_bind s
    exact hend.trans (hf s a l s' hdone s')
  | false =>
    intro s
    obtain ⟨a, l, s', hdone, hend⟩ := hm.ending_bind s
    obtain ⟨x, hx⟩ := hf s a l s' hdone s'
    exact ⟨x, hend.trans hx⟩

theorem Returns.bind_decides (hm : Returns m) (hf : ∀ a, Decides c (f a)) : Decides c (m >>= f) :=
  hm.bind_done fun _ a _ _ _ => hf a

theorem Returns.bind (hm : Returns m) (hf : ∀ a, Returns (f a)) : Returns (m >>= f) :=
  Returns.bind_done (c := false) hm fun _ a _ _ _ => hf a

/-- A composition refuses when one of its parts does. -/
theorem Decides.bind_done (hm : Decides b m)
    (hf : ∀ s a l s', Done m s a l s' → Decides c (f a)) : Decides (b || c) (m >>= f) := by
  cases b with
  | true => exact Refuses.bind_left hm
  | false => exact Returns.bind_done hm hf

/-- What comes after returns, so that the first part decides. -/
theorem Decides.bind (hm : Decides b m) (hf : ∀ a, Returns (f a)) : Decides b (m >>= f) := by
  cases b with
  | true => exact Refuses.bind_left hm
  | false => exact Returns.bind hm hf

/-- What returns does not change whether an emission before it refuses. -/
theorem refused_bind_iff (hf : ∀ a, Returns (f a)) (s : σ) :
    ((m >>= f) s).ending = .refused ↔ (m s).ending = .refused := by
  change (bind m f s).ending = _ ↔ _
  unfold Emit.bind
  cases he : (m s).ending with
  | done a =>
    obtain ⟨b, hb⟩ := hf a (m s).state
    simp [hb]
  | refused => simp
  | aborted e => simp

theorem returns_when {p : Prop} [Decidable p] {m : Emit σ ι ε Unit} (hm : Returns m) :
    Returns (when p m) := by
  unfold when
  split
  · exact hm
  · exact returns_pure ()

/-- A loop over a list. -/
theorem returns_forM {γ : Type} {l : List γ} {f : γ → Emit σ ι ε Unit}
    (hf : ∀ x ∈ l, Returns (f x)) : Returns (l.forM f) := by
  induction l with
  | nil => exact returns_pure ()
  | cons x l ih =>
    exact (hf x (by simp)).bind fun _ => ih fun y hy => hf y (by simp [hy])

/-- An emission whose refusal is dropped returns, when it does not abort. -/
theorem Decides.dropRefusal {m : Emit σ ι ε Unit} (hm : Decides b m) :
    Returns (dropRefusal m) := by
  intro s
  unfold Emit.dropRefusal
  cases b with
  | true => exact ⟨(), by rw [hm s]⟩
  | false =>
    obtain ⟨a, ha⟩ := hm s
    exact ⟨a, by rw [ha]⟩

end Decides

/-! ### Emissions that never refuse -/

section Accepts

variable {m : Emit σ ι ε α} {f : α → Emit σ ι ε β}

/-- The emission refuses from no state. -/
def Accepts (m : Emit σ ι ε α) : Prop := ∀ s, (m s).ending ≠ .refused

theorem accepts_pure (a : α) : Accepts (pure a : Emit σ ι ε α) := by rintro s ⟨⟩

theorem accepts_write (items : List ι) : Accepts (write items : Emit σ ι ε Unit) := by
  rintro s ⟨⟩

theorem accepts_abort (e : ε) : Accepts (abort e : Emit σ ι ε α) := by rintro s ⟨⟩

theorem Accepts.bind (hm : Accepts m) (hf : ∀ a, Accepts (f a)) : Accepts (m >>= f) := by
  intro s h
  change (Emit.bind m f s).ending = _ at h
  unfold Emit.bind at h
  cases he : (m s).ending with
  | done a =>
    rw [he] at h
    exact hf a _ h
  | refused => exact hm s he
  | aborted e =>
    rw [he] at h
    cases h

theorem Accepts.when {p : Prop} [Decidable p] {m : Emit σ ι ε Unit} (hm : Accepts m) :
    Accepts (when p m) := by
  unfold Emit.when
  split
  · exact hm
  · exact accepts_pure ()

theorem accepts_forM {γ : Type} {l : List γ} {f : γ → Emit σ ι ε Unit}
    (hf : ∀ x ∈ l, Accepts (f x)) : Accepts (l.forM f) := by
  induction l with
  | nil => exact accepts_pure ()
  | cons x l ih =>
    exact (hf x List.mem_cons_self).bind fun _ => ih fun y hy => hf y (List.mem_cons_of_mem x hy)

/-- There is nothing to drop of an emission that never refuses. -/
theorem Accepts.done_of_dropRefusal {m : Emit σ ι ε Unit} {s s' : σ} {u : Unit} {l : List ι}
    (hm : Accepts m) (h : Done (dropRefusal m) s u l s') : Done m s () l s' := by
  refine (done_dropRefusal.mp h).resolve_right fun hrefused => hm s ?_
  rw [hrefused]

end Accepts

/-! ### Emissions that are never done -/

section Stops

variable {m : Emit σ ι ε α} {f : α → Emit σ ι ε β}

/-- The emission is done from no state. -/
def Stops (m : Emit σ ι ε α) : Prop := ∀ s a l s', ¬Done m s a l s'

theorem stops_abort (e : ε) : Stops (abort e : Emit σ ι ε α) := fun _ _ _ _ => not_done_abort

theorem stops_refuse : Stops (refuse : Emit σ ι ε α) := fun _ _ _ _ => not_done_refuse

theorem Stops.bind_left (hm : Stops m) : Stops (m >>= f) := by
  intro s b l s' h
  obtain ⟨a, l₁, s₁, -, hdone, -⟩ := done_bind.mp h
  exact hm s a l₁ s₁ hdone

theorem stops_bind (hf : ∀ a, Stops (f a)) : Stops (m >>= f) := by
  intro s b l s' h
  obtain ⟨a, -, s₁, l₂, -, hdone, -⟩ := done_bind.mp h
  exact hf a s₁ b l₂ s' hdone

/-- An exception is not a refusal that could be dropped. -/
theorem stops_dropRefusal_abort {f : α → Emit σ ι ε Unit} (e : ε) :
    Stops (dropRefusal (abort e >>= f)) := by
  rintro s a l s' ⟨⟩

end Stops

/-! ### What an emission writes, and how it changes the state -/

section Writes

variable {m : Emit σ ι ε α} {f : α → Emit σ ι ε β} {P : ι → Prop}

/-- Every item that the emission writes satisfies `P`. -/
def Writes (P : ι → Prop) (m : Emit σ ι ε α) : Prop := ∀ s, ∀ i ∈ (m s).items, P i

theorem writes_pure (a : α) : Writes P (pure a : Emit σ ι ε α) := by
  rintro s i ⟨⟩

theorem writes_write {items : List ι} (h : ∀ i ∈ items, P i) :
    Writes P (write items : Emit σ ι ε Unit) := fun _ => h

theorem writes_modify (g : σ → σ) : Writes P (modify g : Emit σ ι ε Unit) := by
  rintro s i ⟨⟩

theorem writes_read : Writes P (read : Emit σ ι ε σ) := by
  rintro s i ⟨⟩

theorem writes_refuse : Writes P (refuse : Emit σ ι ε α) := by
  rintro s i ⟨⟩

theorem writes_abort (e : ε) : Writes P (abort e : Emit σ ι ε α) := by
  rintro s i ⟨⟩

theorem Writes.bind (hm : Writes P m) (hf : ∀ a, Writes P (f a)) : Writes P (m >>= f) := by
  intro s i hi
  change i ∈ (Emit.bind m f s).items at hi
  unfold Emit.bind at hi
  cases he : (m s).ending with
  | done a =>
    rw [he] at hi
    rcases List.mem_append.mp hi with hi | hi
    · exact hm s i hi
    · exact hf a _ i hi
  | refused =>
    rw [he] at hi
    exact hm s i hi
  | aborted e =>
    rw [he] at hi
    exact hm s i hi

theorem Writes.when {p : Prop} [Decidable p] {m : Emit σ ι ε Unit} (hm : Writes P m) :
    Writes P (when p m) := by
  unfold Emit.when
  split
  · exact hm
  · exact writes_pure ()

theorem Writes.dropRefusal {m : Emit σ ι ε Unit} (hm : Writes P m) : Writes P (dropRefusal m) := by
  intro s i hi
  unfold Emit.dropRefusal at hi
  refine hm s i ?_
  split at hi <;> exact hi

theorem Writes.done {s s' : σ} {a : α} {l : List ι} (hm : Writes P m) (h : Done m s a l s') :
    ∀ i ∈ l, P i := by
  intro i hi
  refine hm s i ?_
  rw [h]
  exact hi

theorem Writes.mono {Q : ι → Prop} (hm : Writes P m) (h : ∀ i, P i → Q i) : Writes Q m :=
  fun s i hi => h i (hm s i hi)

end Writes

end Emit
