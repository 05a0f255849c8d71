import N64Recomp.Data.Faults

/-!
# Loops that go on while something is added

A loop whose rounds tell whether they added something, and that goes on for as long as they do. A
round that fails ends the loop.

## Main definitions

* `Rounds.loop`: the loop, with a bound on its rounds
* `Rounds.Comes`: the states in which the rounds of a loop start
* `Rounds.Measured`: a measure that every round raises after which the loop goes on, up to a limit

## Main results

* `Rounds.Measured.rounds_le`: the measure bounds the rounds
* `Rounds.Measured.loop_ends`: the loop ends
* `Rounds.loop_eq_of_le`: a larger bound on the rounds changes nothing
-/

namespace Rounds

open Except

variable {ε σ : Type}

/-- The loop. It is not done, `none`, when the bound on the rounds is reached. -/
def loop (round : σ → Except ε (σ × Bool)) : Nat → σ → Except ε (Option σ)
  | 0, _ => .ok none
  | bound + 1, s =>
    match round s with
    | .error e => .error e
    | .ok (s', true) => loop round bound s'
    | .ok (s', false) => .ok (some s')

/-- The loop comes from one state to another in a number of rounds, and goes on. -/
inductive Comes (round : σ → Except ε (σ × Bool)) (start : σ) : Nat → σ → Prop
  | start : Comes round start 0 start
  | next {n s s'} : Comes round start n s → round s = .ok (s', true) →
    Comes round start (n + 1) s'

/-- **The measure of a loop**: no round has the fault, every round keeps the invariant, and those after
which the loop goes on raise a measure that has a limit. -/
structure Measured (fault : ε) (round : σ → Except ε (σ × Bool)) (Inv : σ → Prop) (measure : σ → Nat)
    (limit : Nat) : Prop where
  step : ∀ s, Inv s → Ensures fault (round s) fun r => Inv r.1 ∧ (r.2 = true → measure s < measure r.1)
  limited : ∀ s, Inv s → measure s ≤ limit

section Rules

variable {round : σ → Except ε (σ × Bool)} {start s : σ} {n : Nat}

/-- A loop that is done has come to a round that added nothing. -/
theorem comes_of_loop {bound : Nat} (h : loop round bound start = .ok (some s)) :
    ∃ n s', Comes round start n s' ∧ round s' = .ok (s, false) := by
  suffices hgo : ∀ bound n s', Comes round start n s' → loop round bound s' = .ok (some s) →
      ∃ n s', Comes round start n s' ∧ round s' = .ok (s, false) from hgo bound 0 start .start h
  intro bound
  induction bound with
  | zero => exact fun n s' _ h => nomatch h
  | succ bound ih =>
    intro n s' hcomes h
    unfold loop at h
    split at h
    · cases h
    · rename_i s'' hround
      exact ih (n + 1) s'' (hcomes.next hround) h
    · rename_i s'' hround
      cases h
      exact ⟨n, s', hcomes, hround⟩

/-- **A larger bound changes nothing** once the loop ends. -/
theorem loop_eq_of_le {bound bound' : Nat} (h : loop round bound s ≠ .ok none)
    (hle : bound ≤ bound') : loop round bound' s = loop round bound s := by
  induction bound generalizing s bound' with
  | zero => exact absurd rfl h
  | succ bound ih =>
    obtain ⟨k, rfl⟩ := Nat.exists_eq_add_of_le' (Nat.lt_of_lt_of_le (Nat.succ_pos bound) hle)
    unfold loop at h ⊢
    split
    · rfl
    · rename_i s' hround
      rw [hround] at h
      exact ih h (Nat.le_of_succ_le_succ hle)
    · rfl

variable {fault : ε} {Inv : σ → Prop} {measure : σ → Nat} {limit : Nat}

/-- The invariant holds in every state that the loop comes to. -/
theorem Measured.inv_of_comes (h : Measured fault round Inv measure limit) (hstart : Inv start)
    (hcomes : Comes round start n s) : Inv s := by
  induction hcomes with
  | start => exact hstart
  | next _ hround ih => exact ((h.step _ ih).2 _ hround).1

/-- The invariant holds when the loop is done. -/
theorem Measured.inv_of_loop (h : Measured fault round Inv measure limit) (hstart : Inv start)
    {bound : Nat} (hloop : loop round bound start = .ok (some s)) : Inv s := by
  obtain ⟨n, s', hcomes, hround⟩ := comes_of_loop hloop
  exact ((h.step s' (h.inv_of_comes hstart hcomes)).2 _ hround).1

theorem Measured.add_le_of_comes (h : Measured fault round Inv measure limit) (hstart : Inv start)
    (hcomes : Comes round start n s) : measure start + n ≤ measure s := by
  induction hcomes with
  | start => exact Nat.le_refl _
  | next hcomes hround ih =>
    have hinv := h.inv_of_comes hstart hcomes
    have hlt := ((h.step _ hinv).2 _ hround).2 rfl
    dsimp only at hlt
    omega

/-- **The measure bounds the rounds** of a loop. -/
theorem Measured.rounds_le (h : Measured fault round Inv measure limit) (hstart : Inv start)
    (hcomes : Comes round start n s) : n ≤ limit := by
  have hadd := h.add_le_of_comes hstart hcomes
  have hlimit := h.limited s (h.inv_of_comes hstart hcomes)
  omega

/-- **The loop ends**, without the fault and in a state with the invariant. -/
theorem Measured.loop_ends (h : Measured fault round Inv measure limit) {bound : Nat}
    (hstart : Inv start) (hbound : limit < measure start + bound) :
    Ensures fault (loop round bound start) fun s? => ∃ s, s? = some s ∧ Inv s := by
  induction bound generalizing start with
  | zero =>
    have hlimit := h.limited start hstart
    omega
  | succ bound ih =>
    have hstep := h.step start hstart
    unfold loop
    split
    · rename_i e hround
      exact ensures_error fun heq => hstep.1 (hround.trans (congrArg Except.error heq))
    · rename_i s' hround
      obtain ⟨hinv, hlt⟩ := hstep.2 _ hround
      have hlt := hlt rfl
      dsimp only at hinv hlt
      exact ih hinv (by omega)
    · rename_i s' hround
      exact ensures_ok ⟨s', rfl, (hstep.2 _ hround).1⟩

end Rules

end Rounds
