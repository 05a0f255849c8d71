import Mathlib.Data.Finset.Card
import Mathlib.Data.Finset.Basic
import N64Recomp.Data.Widths

/-!
# Walks over blocks

A walk explores positions from a worklist. From each it scans on, with a state that is local to the
scan, until the scan ends, leaves the range or comes to a position that is visited. A step can mark
further positions as visited, which are then not scanned from.

## Main definitions

* `System`: the range, the initial state of a scan and its steps
* `scan`, `walk`: the scan of a block, and the walk
* `Reaches`: the positions that scans can come to, when nothing is skipped
* `Explored`: the steps that were taken, and what is left to be explored

## Main results

* `walk_ne_unfinished`: the walk ends
* `walk_explored`: what a walk that is done has explored
* `Explored.mem_visited`: when no position is missed
-/

namespace BlockWalk

variable {P S : Type}

/-- A step of a scan: the positions that it marks, those from which scans start, and how the scan goes
on. -/
structure Step (P S : Type) where
  marks : List P
  targets : List P
  next : Option (P × S)

/-- What a walk explores: a step fails with `none`. -/
structure System (P S : Type) where
  inside : P → Bool
  fresh : S
  step : P → S → Option (Step P S)

/-- The visited positions, and those from which scans are to start. -/
structure Marks (P : Type) where
  visited : List P
  worklist : List P

inductive Result (α : Type)
  | done (a : α)
  | failed
  | unfinished
  deriving DecidableEq, Repr

/-- Where a step leads: to the targets, and to where the scan goes on. -/
def Step.LeadsTo (st : Step P S) (q : P) : Prop := q ∈ st.targets ∨ ∃ s, st.next = some (q, s)

section Definitions

variable [DecidableEq P] (sys : System P S)

/-- A position is visited, with those that its step marks; new targets come onto the worklist. -/
def Marks.take (m : Marks P) (p : P) (st : Step P S) : Marks P :=
  let visited := st.marks ++ p :: m.visited
  { visited
    worklist := (st.targets.filter (· ∉ visited)).reverse ++ m.worklist }

/-- The scan from a position on. -/
def scan : Nat → P → S → Marks P → Result (Marks P)
  | 0, _, _, _ => .unfinished
  | fuel + 1, p, s, m =>
    if sys.inside p then
      if p ∈ m.visited then .done m
      else
        match sys.step p s with
        | none => .failed
        | some st =>
          match st.next with
          | none => .done (m.take p st)
          | some (q, s') => scan fuel q s' (m.take p st)
    else .done m

/-- The walk: a position that is visited already is skipped. The result are the visited positions. -/
def walk (scanFuel : Nat) : Nat → Marks P → Result (List P)
  | 0, _ => .unfinished
  | fuel + 1, m =>
    match m.worklist with
    | [] => .done m.visited
    | p :: rest =>
      if p ∈ m.visited then walk scanFuel fuel { m with worklist := rest }
      else
        match scan sys scanFuel p sys.fresh { m with worklist := rest } with
        | .done m' => walk scanFuel fuel m'
        | .failed => .failed
        | .unfinished => .unfinished

end Definitions

/-- What scans come to from an entry, when no visited position is skipped. -/
inductive Reaches (sys : System P S) (entry : P) : P → S → Prop
  | entry : Reaches sys entry entry sys.fresh
  | next {p s st q s'} : Reaches sys entry p s → sys.inside p = true → sys.step p s = some st →
    st.next = some (q, s') → Reaches sys entry q s'
  | target {p s st t} : Reaches sys entry p s → sys.inside p = true → sys.step p s = some st →
    t ∈ st.targets → Reaches sys entry t sys.fresh

/-! ### The walk ends -/

section Ends

variable [DecidableEq P] {sys : System P S} {m m' : Marks P} {p : P} {s : S} {st : Step P S}
  {U : Finset P} {n fuel : Nat}

/-- The positions of a range that are left. -/
def Marks.left (m : Marks P) (U : Finset P) : Nat := (U.filter (· ∉ m.visited)).card

/-- A bound on the scans that are still started, when a step has at most `n` targets. -/
def Marks.potential (m : Marks P) (U : Finset P) (n : Nat) : Nat :=
  m.worklist.length + m.left U * (n + 1)

theorem left_le_card : m.left U ≤ U.card := Finset.card_filter_le _ _

theorem left_take_lt (hp : p ∈ U) (hnew : p ∉ m.visited) : (m.take p st).left U < m.left U := by
  refine Finset.card_lt_card ⟨fun q hq => ?_, fun hsub => ?_⟩
  · rw [Finset.mem_filter] at hq ⊢
    exact ⟨hq.1, fun h => hq.2 (List.mem_append_right _ (List.mem_cons_of_mem p h))⟩
  · have hmem := Finset.mem_filter.mp (hsub (Finset.mem_filter.mpr ⟨hp, hnew⟩))
    exact hmem.2 (List.mem_append_right _ List.mem_cons_self)

/-- A step adds no more targets than it takes positions from the range. -/
theorem potential_take_le (hp : p ∈ U) (hnew : p ∉ m.visited) (hn : st.targets.length ≤ n) :
    (m.take p st).potential U n ≤ m.potential U n := by
  have hlt : (m.take p st).left U < m.left U := left_take_lt hp hnew
  have hlength : (m.take p st).worklist.length ≤ n + m.worklist.length := by
    simp only [Marks.take, List.length_append, List.length_reverse]
    exact Nat.add_le_add_right ((List.length_filter_le _ _).trans hn) _
  have hmul : ((m.take p st).left U + 1) * (n + 1) ≤ m.left U * (n + 1) :=
    Nat.mul_le_mul_right _ hlt
  rw [Nat.add_mul, Nat.one_mul] at hmul
  unfold Marks.potential
  omega

variable (hU : ∀ p, sys.inside p = true → p ∈ U)
  (hn : ∀ p s st, sys.step p s = some st → st.targets.length ≤ n)

include hU hn

/-- A scan ends when it runs into what it has visited, if not before. -/
theorem scan_ends (hfuel : m.left U < fuel) :
    scan sys fuel p s m ≠ .unfinished ∧
      ∀ m', scan sys fuel p s m = .done m' → m'.potential U n ≤ m.potential U n := by
  induction fuel generalizing p s m with
  | zero => exact absurd hfuel (Nat.not_lt_zero _)
  | succ fuel ih =>
    unfold scan
    split_ifs with hinside hvisited
    · exact ⟨nofun, fun m' h => by cases h; exact Nat.le_refl _⟩
    · split
      · exact ⟨nofun, nofun⟩
      · rename_i st hst
        have hle := potential_take_le (hU p hinside) hvisited (hn p s st hst)
        split
        · exact ⟨nofun, fun m' h => by cases h; exact hle⟩
        · rename_i q s' _
          have hlt : (m.take p st).left U < m.left U := left_take_lt (hU p hinside) hvisited
          obtain ⟨hends, hpotential⟩ := ih (p := q) (s := s') (m := m.take p st) (by omega)
          exact ⟨hends, fun m' h => (hpotential m' h).trans hle⟩
    · exact ⟨nofun, fun m' h => by cases h; exact Nat.le_refl _⟩

/-- **The walk ends**: every scan that starts takes from the worklist or from the range. -/
theorem walk_ne_unfinished {scanFuel : Nat} (hscan : U.card < scanFuel)
    (hfuel : m.potential U n < fuel) : walk sys scanFuel fuel m ≠ .unfinished := by
  induction fuel generalizing m with
  | zero => exact absurd hfuel (Nat.not_lt_zero _)
  | succ fuel ih =>
    unfold walk
    cases hworklist : m.worklist with
    | nil => exact nofun
    | cons p rest =>
      have hpop : ({ m with worklist := rest } : Marks P).potential U n < fuel := by
        unfold Marks.potential at hfuel ⊢
        rw [hworklist, List.length_cons] at hfuel
        change rest.length + m.left U * (n + 1) < fuel
        omega
      dsimp only
      split_ifs
      · exact ih hpop
      · obtain ⟨hends, hpotential⟩ := scan_ends hU hn (p := p) (s := sys.fresh)
          (m := { m with worklist := rest }) (Nat.lt_of_le_of_lt left_le_card hscan)
        split
        · rename_i m' hm'
          exact ih (Nat.lt_of_le_of_lt (hpotential m' hm') hpop)
        · exact nofun
        · rename_i hunfinished
          exact absurd hunfinished hends

end Ends

/-! ### What is explored -/

/-- The steps that a walk has taken, and what is left: every visited position is one of a step or
marked by one, and where a step leads is visited, on the worklist or pending. -/
structure Explored [DecidableEq P] (sys : System P S) (entry : P) (taken : P → S → Prop)
    (m : Marks P) (pending : P → Prop) : Prop where
  step : ∀ p s, taken p s → Reaches sys entry p s ∧ sys.inside p = true ∧ p ∈ m.visited ∧
    ∃ st, sys.step p s = some st ∧ (∀ v ∈ st.marks, v ∈ m.visited) ∧
      ∀ q, st.LeadsTo q → sys.inside q = true → q ∈ m.visited ∨ q ∈ m.worklist ∨ pending q
  visited : ∀ v ∈ m.visited, (∃ s, taken v s) ∨
    ∃ p s st, taken p s ∧ sys.step p s = some st ∧ v ∈ st.marks
  worklist : ∀ t ∈ m.worklist, Reaches sys entry t sys.fresh
  entry : sys.inside entry = true → entry ∈ m.visited ∨ entry ∈ m.worklist ∨ pending entry

section Explores

variable [DecidableEq P] {sys : System P S} {entry p : P} {s : S} {st : Step P S}
  {taken : P → S → Prop} {pending : P → Prop} {m m' : Marks P} {visited : List P} {fuel : Nat}

theorem explored_start (sys : System P S) (entry : P) :
    Explored sys entry (fun _ _ => False) ⟨[], [entry]⟩ fun _ => False where
  step _ _ h := h.elim
  visited _ h := nomatch h
  worklist t ht := by
    rw [List.mem_singleton.mp ht]
    exact .entry
  entry _ := .inr (.inl (List.mem_singleton_self entry))

/-- What is pending can be dropped when it is visited, on the worklist or outside. -/
theorem Explored.drop {pending' : P → Prop} (h : Explored sys entry taken m pending)
    (hpending : ∀ q, sys.inside q = true → pending q →
      q ∈ m.visited ∨ q ∈ m.worklist ∨ pending' q) :
    Explored sys entry taken m pending' where
  step p s hp := by
    obtain ⟨hreaches, hinside, hmem, st, hst, hmarks, hleads⟩ := h.step p s hp
    refine ⟨hreaches, hinside, hmem, st, hst, hmarks, fun q hq hin => ?_⟩
    rcases hleads q hq hin with hq | hq | hq
    · exact .inl hq
    · exact .inr (.inl hq)
    · exact hpending q hin hq
  visited := h.visited
  worklist := h.worklist
  entry hin := by
    rcases h.entry hin with hq | hq | hq
    · exact .inl hq
    · exact .inr (.inl hq)
    · exact hpending entry hin hq

/-- The position at the front of the worklist becomes the pending one. -/
theorem Explored.pop {rest : List P} (h : Explored sys entry taken m fun _ => False)
    (hworklist : m.worklist = p :: rest) :
    Explored sys entry taken { m with worklist := rest } (· = p) := by
  have hsplit : ∀ {q}, q ∈ m.visited ∨ q ∈ m.worklist ∨ False →
      q ∈ m.visited ∨ q ∈ rest ∨ q = p := by
    rintro q (hq | hq | ⟨⟨⟩⟩)
    · exact .inl hq
    · rw [hworklist] at hq
      rcases List.mem_cons.mp hq with hq | hq
      · exact .inr (.inr hq)
      · exact .inr (.inl hq)
  refine ⟨fun p s hp => ?_, h.visited, fun t ht => h.worklist t ?_, fun hin => hsplit (h.entry hin)⟩
  · obtain ⟨hreaches, hinside, hmem, st, hst, hmarks, hleads⟩ := h.step p s hp
    exact ⟨hreaches, hinside, hmem, st, hst, hmarks, fun q hq hin => hsplit (hleads q hq hin)⟩
  · rw [hworklist]
    exact List.mem_cons_of_mem p ht

theorem mem_take_visited {v : P} : v ∈ (m.take p st).visited ↔
    v ∈ st.marks ∨ v = p ∨ v ∈ m.visited := by
  simp only [Marks.take, List.mem_append, List.mem_cons]

theorem mem_take_worklist {t : P} : t ∈ (m.take p st).worklist ↔
    (t ∈ st.targets ∧ t ∉ (m.take p st).visited) ∨ t ∈ m.worklist := by
  simp only [Marks.take, List.mem_append, List.mem_reverse, List.mem_filter, decide_eq_true_eq]

/-- **A step of a scan**: where it leads is on the worklist, or pending. -/
theorem Explored.take (h : Explored sys entry taken m (· = p)) (hreaches : Reaches sys entry p s)
    (hinside : sys.inside p = true) (hst : sys.step p s = some st) :
    Explored sys entry (fun q s' => taken q s' ∨ (q = p ∧ s' = s)) (m.take p st)
      fun q => ∃ s', st.next = some (q, s') := by
  have hkeep : ∀ {q}, q ∈ m.visited ∨ q ∈ m.worklist ∨ q = p →
      q ∈ (m.take p st).visited ∨ q ∈ (m.take p st).worklist ∨ ∃ s', st.next = some (q, s') := by
    rintro q (hq | hq | hq)
    · exact .inl (mem_take_visited.mpr (.inr (.inr hq)))
    · exact .inr (.inl (mem_take_worklist.mpr (.inr hq)))
    · exact .inl (mem_take_visited.mpr (.inr (.inl hq)))
  constructor
  · rintro q s' (hq | ⟨rfl, rfl⟩)
    · obtain ⟨hreaches, hinside, hmem, st', hst', hmarks, hleads⟩ := h.step q s' hq
      exact ⟨hreaches, hinside, mem_take_visited.mpr (.inr (.inr hmem)), st', hst',
        fun v hv => mem_take_visited.mpr (.inr (.inr (hmarks v hv))),
        fun q hq hin => hkeep (hleads q hq hin)⟩
    · refine ⟨hreaches, hinside, mem_take_visited.mpr (.inr (.inl rfl)), st, hst,
        fun v hv => mem_take_visited.mpr (.inl hv), ?_⟩
      rintro t (ht | hnext) -
      · by_cases hvisited : t ∈ (m.take q st).visited
        · exact .inl hvisited
        · exact .inr (.inl (mem_take_worklist.mpr (.inl ⟨ht, hvisited⟩)))
      · exact .inr (.inr hnext)
  · intro v hv
    rcases mem_take_visited.mp hv with hv | rfl | hv
    · exact .inr ⟨p, s, st, .inr ⟨rfl, rfl⟩, hst, hv⟩
    · exact .inl ⟨s, .inr ⟨rfl, rfl⟩⟩
    · rcases h.visited v hv with ⟨s', hs'⟩ | ⟨q, s', st', hq, hst', hv⟩
      · exact .inl ⟨s', .inl hs'⟩
      · exact .inr ⟨q, s', st', .inl hq, hst', hv⟩
  · intro t ht
    rcases mem_take_worklist.mp ht with ⟨ht, -⟩ | ht
    · exact .target hreaches hinside hst ht
    · exact h.worklist t ht
  · exact fun hin => hkeep (h.entry hin)

/-- A scan leaves nothing pending. -/
theorem scan_explored (h : Explored sys entry taken m (· = p)) (hreaches : Reaches sys entry p s)
    (hscan : scan sys fuel p s m = .done m') :
    ∃ taken', Explored sys entry taken' m' fun _ => False := by
  induction fuel generalizing p s m taken with
  | zero => cases hscan
  | succ fuel ih =>
    unfold scan at hscan
    split_ifs at hscan with hinside hvisited
    · cases hscan
      refine ⟨taken, h.drop ?_⟩
      rintro q - rfl
      exact .inl hvisited
    · split at hscan
      · cases hscan
      · rename_i st hst
        have htake := h.take hreaches hinside hst
        split at hscan
        · rename_i hnone
          cases hscan
          refine ⟨_, htake.drop ?_⟩
          rintro q - ⟨s', hs'⟩
          rw [hnone] at hs'
          cases hs'
        · rename_i q s' hnext
          refine ih (htake.drop ?_) (.next hreaches hinside hst hnext) hscan
          rintro q' - ⟨s'', hs''⟩
          rw [hnext] at hs''
          cases hs''
          exact .inr (.inr rfl)
    · cases hscan
      refine ⟨taken, h.drop ?_⟩
      rintro q hin rfl
      exact absurd hin hinside

/-- **What a walk that is done has explored.** -/
theorem walk_explored {scanFuel : Nat} (h : Explored sys entry taken m fun _ => False)
    (hwalk : walk sys scanFuel fuel m = .done visited) :
    ∃ taken', Explored sys entry taken' ⟨visited, []⟩ fun _ => False := by
  induction fuel generalizing m taken with
  | zero => cases hwalk
  | succ fuel ih =>
    unfold walk at hwalk
    cases hworklist : m.worklist with
    | nil =>
      rw [hworklist] at hwalk
      cases hwalk
      refine ⟨taken, ?_⟩
      rwa [← hworklist]
    | cons p rest =>
      rw [hworklist] at hwalk
      dsimp only at hwalk
      have hpop := h.pop hworklist
      split_ifs at hwalk with hvisited
      · refine ih (hpop.drop ?_) hwalk
        rintro q - rfl
        exact .inl hvisited
      · split at hwalk
        · rename_i m' hm'
          obtain ⟨taken', h'⟩ := scan_explored hpop
            (h.worklist p (by rw [hworklist]; exact List.mem_cons_self)) hm'
          exact ih h' hwalk
        · cases hwalk
        · cases hwalk

/-- No position is missed when a position leads to the same ones however it is reached, and one that
a step marks leads nowhere but where that step does. -/
structure Clear (sys : System P S) (entry : P) : Prop where
  coherent : ∀ p s st s' st', Reaches sys entry p s → Reaches sys entry p s' →
    sys.inside p = true → sys.step p s = some st → sys.step p s' = some st' →
    ∀ q, st'.LeadsTo q → st.LeadsTo q
  marked : ∀ p s st v s' st', Reaches sys entry p s → sys.inside p = true →
    sys.step p s = some st → v ∈ st.marks → Reaches sys entry v s' → sys.inside v = true →
    sys.step v s' = some st' → ∀ q, st'.LeadsTo q → st.LeadsTo q

/-- **Every position in the range that can be reached is visited.** -/
theorem Explored.mem_visited (h : Explored sys entry taken ⟨visited, []⟩ fun _ => False)
    (hclear : Clear sys entry) (hreaches : Reaches sys entry p s) (hinside : sys.inside p = true) :
    p ∈ visited := by
  have hnothing : ∀ {q}, q ∈ visited ∨ q ∈ ([] : List P) ∨ False → q ∈ visited := by
    rintro q (hq | hq | ⟨⟨⟩⟩)
    · exact hq
    · cases hq
  have hleads : ∀ {p s st q}, Reaches sys entry p s → sys.inside p = true →
      sys.step p s = some st → p ∈ visited → st.LeadsTo q → sys.inside q = true → q ∈ visited := by
    intro p s st q hreaches hinside hst hvisited hq hin
    rcases h.visited p hvisited with ⟨s', hs'⟩ | ⟨p', s', st', hp', hst', hmark⟩
    · obtain ⟨hreaches', -, -, st', hst', -, hleads⟩ := h.step p s' hs'
      exact hnothing (hleads q (hclear.coherent p s' st' s st hreaches' hreaches hinside hst' hst q
        hq) hin)
    · obtain ⟨hreaches', hinside', -, st'', hst'', -, hleads⟩ := h.step p' s' hp'
      rw [hst'] at hst''
      cases hst''
      exact hnothing (hleads q (hclear.marked p' s' st' p s st hreaches' hinside' hst' hmark
        hreaches hinside hst q hq) hin)
  induction hreaches with
  | entry => exact hnothing (h.entry hinside)
  | next hreaches hin hst hnext ih =>
    exact hleads hreaches hin hst (ih hin) (.inr ⟨_, hnext⟩) hinside
  | target hreaches hin hst ht ih => exact hleads hreaches hin hst (ih hin) (.inl ht) hinside

/-- What a visited position is: one that can be reached, or one that a step from such a one
marks. -/
theorem Explored.reaches_or_marked (h : Explored sys entry taken m pending) (hp : p ∈ m.visited) :
    (∃ s, Reaches sys entry p s ∧ sys.inside p = true) ∨
      ∃ q s st, Reaches sys entry q s ∧ sys.inside q = true ∧ sys.step q s = some st ∧
        p ∈ st.marks := by
  rcases h.visited p hp with ⟨s, hs⟩ | ⟨q, s, st, hq, hst, hmark⟩
  · obtain ⟨hreaches, hinside, -⟩ := h.step p s hs
    exact .inl ⟨s, hreaches, hinside⟩
  · obtain ⟨hreaches, hinside, -⟩ := h.step q s hq
    exact .inr ⟨q, s, st, hreaches, hinside, hst, hmark⟩

end Explores

end BlockWalk
