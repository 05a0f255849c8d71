import N64Recomp.Decompressed.ScanReads

/-!
# The walks of the scan end

The loops over offsets and the walks over leaves are given more fuel than they use: a loop goes up by
words to an end that is in the body, and a walk visits a word once.

## Main definitions

* `FragmentScan.WalksEnd`: more fuel changes nothing

## Main results

* `FragmentScan.Sound.leafBlocks_eq`: the walk over a leaf ends
* `FragmentScan.Sound.walksEnd`
-/

namespace N64Recomp

open Compression Except

/-! ### Loops over offsets -/

section Loops

variable {goesOn : BitVec 32 → Bool} {fuel : Nat} {start : BitVec 32}

/-- One turn more changes nothing when the turns that are left lead past all offsets. -/
theorem offsetsWhile_succ
    (hgoes : ∀ o : BitVec 32, o.toNat < 2 ^ 31 → goesOn o = true → o.toNat + 4 < 2 ^ 31)
    (hstart : start.toNat < 2 ^ 31) (hfuel : 2 ^ 31 ≤ start.toNat + 4 * fuel) :
    offsetsWhile goesOn (fuel + 1) start = offsetsWhile goesOn fuel start := by
  induction fuel generalizing start with
  | zero => omega
  | succ fuel ih =>
    unfold offsetsWhile
    split_ifs with hcond
    · have hnext : (start + 4).toNat = start.toNat + 4 := toNat_add_small hstart (by decide)
      have hlt := hgoes start hstart hcond
      rw [ih (by omega) (by omega)]
    · rfl

/-- More turns change nothing. -/
theorem offsetsWhile_eq
    (hgoes : ∀ o : BitVec 32, o.toNat < 2 ^ 31 → goesOn o = true → o.toNat + 4 < 2 ^ 31)
    (hstart : start.toNat < 2 ^ 31) (hfuel : 2 ^ 30 ≤ fuel) :
    offsetsWhile goesOn fuel start = offsetsWhile goesOn (2 ^ 30) start := by
  induction fuel, hfuel using Nat.le_induction with
  | base => rfl
  | succ fuel hle ih => rw [offsetsWhile_succ hgoes hstart (by omega), ih]

end Loops

namespace FragmentScan

/-- **More fuel changes nothing**: the loops over offsets, the walks over leaves and the walk that finds
bounds end. -/
structure WalksEnd (s : FragmentScan) : Prop where
  offsets : ∀ (width stop start : BitVec 32) (fuel : Nat), 4 ≤ width.toNat → width.toNat < 2 ^ 31 →
    stop.toNat ≤ s.relocOffset.toNat → start.toNat < 2 ^ 31 → 2 ^ 30 ≤ fuel →
    offsetsWhile (fun o => o + width ≤ stop) fuel start = offsetsTo width stop start
  block : ∀ (offset gapEnd cursor : BitVec 32) (w : LeafWalk) (fuel : Nat),
    gapEnd.toNat ≤ s.relocOffset.toNat → cursor.toNat < 2 ^ 31 → 2 ^ 30 ≤ fuel →
    s.leafBlock offset gapEnd fuel cursor w = s.leafBlock offset gapEnd (2 ^ 30) cursor w
  leaf : ∀ (offset gapEnd : BitVec 32) (fuel : Nat), gapEnd.toNat ≤ s.relocOffset.toNat →
    offset.toNat < gapEnd.toNat → offset.toNat % 4 = 0 → 2 ^ 31 ≤ fuel →
    s.leafBlocks offset gapEnd fuel ⟨[], [offset], offset, false⟩ =
      s.leafBlocks offset gapEnd (2 ^ 31) ⟨[], [offset], offset, false⟩
  bounds : ∀ entryOffset, s.discover entryOffset ≠ .ok .unfinished

section Leaves

variable {s : FragmentScan} {offset gapEnd cursor : BitVec 32} {w : LeafWalk} {fuel : Nat}

/-- One word more changes nothing for a block. -/
theorem Sound.leafBlock_succ (hs : s.Sound) (hgap : gapEnd.toNat ≤ s.relocOffset.toNat)
    (hcursor : cursor.toNat < 2 ^ 31) (hfuel : 2 ^ 31 ≤ cursor.toNat + 4 * fuel) :
    s.leafBlock offset gapEnd (fuel + 1) cursor w = s.leafBlock offset gapEnd fuel cursor w := by
  have hsmall := hs.small
  induction fuel generalizing cursor w with
  | zero => omega
  | succ fuel ih =>
    unfold FragmentScan.leafBlock
    by_cases hloop : cursor + 4 ≤ gapEnd ∧ cursor ∉ w.visited
    · rw [if_pos hloop, if_pos hloop]
      have hword : cursor.toNat + 4 ≤ gapEnd.toNat := by
        have hle : (cursor + 4).toNat ≤ gapEnd.toNat := hloop.1
        rwa [toNat_add_small hcursor (by decide)] at hle
      have hfour : (cursor + 4).toNat = cursor.toNat + 4 := toNat_add_small hcursor (by decide)
      have height : (cursor + 8).toNat = cursor.toNat + 8 := toNat_add_small hcursor (by decide)
      have hnext : ∀ w, s.leafBlock offset gapEnd (fuel + 1) (cursor + 4) w =
          s.leafBlock offset gapEnd fuel (cursor + 4) w := fun w => ih (by omega) (by omega)
      have hbehind : ∀ w, s.leafBlock offset gapEnd (fuel + 1) (cursor + 8) w =
          s.leafBlock offset gapEnd fuel (cursor + 8) w := fun w => ih (by omega) (by omega)
      simp only [hnext, hbehind]
    · rw [if_neg hloop, if_neg hloop]

theorem Sound.leafBlock_eq (hs : s.Sound) (hgap : gapEnd.toNat ≤ s.relocOffset.toNat)
    (hcursor : cursor.toNat < 2 ^ 31) (hfuel : 2 ^ 30 ≤ fuel) :
    s.leafBlock offset gapEnd fuel cursor w = s.leafBlock offset gapEnd (2 ^ 30) cursor w := by
  induction fuel, hfuel using Nat.le_induction with
  | base => rfl
  | succ fuel hle ih => rw [hs.leafBlock_succ hgap hcursor (by omega), ih]

/-- The words of the body that a walk has not visited. -/
def LeafWalk.left (w : LeafWalk) (stop : BitVec 32) : Nat :=
  ((Finset.range (stop.toNat / 4)).filter fun i => BitVec.ofNat 32 (4 * i) ∉ w.visited).card

/-- The blocks that a walk can still scan. -/
def LeafWalk.potential (w : LeafWalk) (stop : BitVec 32) : Nat := w.worklist.length + w.left stop

/-- The blocks that are to be scanned start at words. -/
def LeafWalk.Aligned (w : LeafWalk) : Prop := ∀ o ∈ w.worklist, o.toNat % 4 = 0 ∧ o.toNat < 2 ^ 31

/-- More visited offsets leave fewer words. -/
theorem LeafWalk.left_le {w w' : LeafWalk} (h : w.visited ⊆ w'.visited) (stop : BitVec 32) :
    w'.left stop ≤ w.left stop := by
  refine Finset.card_le_card fun i hi => ?_
  rw [Finset.mem_filter] at hi ⊢
  exact ⟨hi.1, fun hmem => hi.2 (h hmem)⟩

/-- A visit of a new word leaves one word less. -/
theorem LeafWalk.left_visit_lt (hmod : cursor.toNat % 4 = 0)
    (hword : cursor.toNat + 4 ≤ gapEnd.toNat) (hnew : cursor ∉ w.visited) :
    (w.visit cursor).left gapEnd < w.left gapEnd := by
  have hcursor : BitVec.ofNat 32 (4 * (cursor.toNat / 4)) = cursor := by
    rw [show 4 * (cursor.toNat / 4) = cursor.toNat by omega, BitVec.ofNat_toNat, BitVec.setWidth_eq]
  have hmem : cursor.toNat / 4 ∈ Finset.range (gapEnd.toNat / 4) :=
    Finset.mem_range.mpr (by omega)
  refine Finset.card_lt_card ⟨fun i hi => ?_, fun hsub => ?_⟩
  · rw [Finset.mem_filter] at hi ⊢
    exact ⟨hi.1, fun hold => hi.2 (List.mem_cons_of_mem _ hold)⟩
  · have hin := Finset.mem_filter.mp
      (hsub (Finset.mem_filter.mpr ⟨hmem, by rw [hcursor]; exact hnew⟩))
    rw [hcursor] at hin
    exact hin.2 List.mem_cons_self

/-- Marking a slot keeps the blocks, and visits no less. -/
theorem LeafWalk.markDelay_some {w' : LeafWalk} {delay : BitVec 32}
    (h : w.markDelay gapEnd delay = some w') :
    w'.worklist = w.worklist ∧ w.visited ⊆ w'.visited := by
  unfold LeafWalk.markDelay at h
  split_ifs at h
  cases h
  exact ⟨rfl, List.subset_cons_self _ _⟩

/-- A target that is enqueued adds one block, at a word of the gap. -/
theorem Sound.enqueue_some (hs : s.Sound) (hgap : gapEnd.toNat ≤ s.relocOffset.toNat)
    (hoffset : offset.toNat < gapEnd.toNat) {w' : LeafWalk} {targetVram : BitVec 32}
    (hw : w.Aligned) (h : s.enqueueLocalTarget w offset gapEnd targetVram = some w') :
    w'.Aligned ∧ w'.worklist.length ≤ w.worklist.length + 1 ∧ w'.visited = w.visited := by
  have hin : w'.InGap := hs.inGap_of_enqueue hgap hoffset (fun o ho => (hw o ho).2) h
  unfold enqueueLocalTarget at h
  dsimp only at h
  split_ifs at h with hrange hmod hvisited
  · cases h
    exact ⟨hw, by omega, rfl⟩
  · cases h
    refine ⟨fun o ho => ⟨?_, hin o ho⟩, Nat.le_refl _, rfl⟩
    rcases List.mem_cons.mp ho with rfl | ho
    · exact mod_of_and_three (not_not.mp hmod)
    · exact (hw o ho).1

/-- **What a block leaves**: blocks at words, and no more of them than words that it visited. -/
theorem Sound.leafBlock_potential (hs : s.Sound) (hgap : gapEnd.toNat ≤ s.relocOffset.toNat)
    (hoffset : offset.toNat < gapEnd.toNat) (hcursor : cursor.toNat < 2 ^ 31)
    (hmod : cursor.toNat % 4 = 0) (hw : w.Aligned) {w' : LeafWalk}
    (h : s.leafBlock offset gapEnd fuel cursor w = .ok (some w')) :
    w'.Aligned ∧ w'.potential gapEnd ≤ w.potential gapEnd := by
  have hsmall := hs.small
  induction fuel generalizing cursor w with
  | zero =>
    cases h
    exact ⟨hw, Nat.le_refl _⟩
  | succ fuel ih =>
    unfold FragmentScan.leafBlock at h
    by_cases hloop : cursor + 4 ≤ gapEnd ∧ cursor ∉ w.visited
    swap
    · rw [if_neg hloop] at h
      cases h
      exact ⟨hw, Nat.le_refl _⟩
    rw [if_pos hloop] at h
    have hword : cursor.toNat + 4 ≤ gapEnd.toNat := by
      have hle : (cursor + 4).toNat ≤ gapEnd.toNat := hloop.1
      rwa [toNat_add_small hcursor (by decide)] at hle
    have hfour : (cursor + 4).toNat = cursor.toNat + 4 := toNat_add_small hcursor (by decide)
    have height : (cursor + 8).toNat = cursor.toNat + 8 := toNat_add_small hcursor (by decide)
    have hlt := LeafWalk.left_visit_lt hmod hword hloop.2
    have hvisit : (w.visit cursor).Aligned := hw
    have hlength : (w.visit cursor).worklist = w.worklist := rfl
    -- a slot that is marked, and a target that is enqueued
    have hdelay : ∀ w₁, (w.visit cursor).markDelay gapEnd (cursor + 4) = some w₁ →
        w₁.Aligned ∧ w₁.worklist.length = w.worklist.length ∧ w₁.left gapEnd < w.left gapEnd := by
      intro w₁ h₁
      obtain ⟨hlist, hsub⟩ := LeafWalk.markDelay_some h₁
      have hle := LeafWalk.left_le hsub gapEnd
      refine ⟨?_, congrArg List.length hlist, by omega⟩
      unfold LeafWalk.Aligned
      rw [hlist]
      exact hw
    have htarget : ∀ target w₂, ((w.visit cursor).markDelay gapEnd (cursor + 4)).bind
        (fun w => s.enqueueLocalTarget w offset gapEnd target) = some w₂ →
        w₂.Aligned ∧ w₂.potential gapEnd ≤ w.potential gapEnd := by
      intro target w₂ h₂
      obtain ⟨w₁, h₁, h₂⟩ := Option.bind_eq_some_iff.mp h₂
      obtain ⟨haligned, hlen, hleft⟩ := hdelay w₁ h₁
      obtain ⟨haligned', hlen', hvisited⟩ := hs.enqueue_some hgap hoffset haligned h₂
      have hsame : w₂.left gapEnd = w₁.left gapEnd := by
        unfold LeafWalk.left
        rw [hvisited]
      refine ⟨haligned', ?_⟩
      unfold LeafWalk.potential
      omega
    obtain ⟨word, -, h⟩ := bind_eq_ok_iff.mp h
    split_ifs at h
    · cases h
    · obtain ⟨w₁, h₁, rfl⟩ := Option.map_eq_some_iff.mp (Except.ok.inj h)
      obtain ⟨haligned, hlen, hleft⟩ := hdelay w₁ h₁
      refine ⟨haligned, ?_⟩
      have hreturned : LeafWalk.potential { w₁ with sawReturn := true } gapEnd =
        w₁.worklist.length + w₁.left gapEnd := rfl
      rw [hreturned]
      unfold LeafWalk.potential
      omega
    · cases h
    · obtain ⟨target, -, h₂⟩ := Option.bind_eq_some_iff.mp (Except.ok.inj h)
      exact htarget target w' h₂
    · split at h
      · split at h
        · rename_i target _ _ w₂ h₂
          obtain ⟨haligned, hle⟩ := htarget target w₂ h₂
          obtain ⟨haligned', hle'⟩ := ih (by omega) (by omega) haligned h
          exact ⟨haligned', hle'.trans hle⟩
        · cases h
      · obtain ⟨haligned, hle⟩ := ih (by omega) (by omega) hvisit h
        refine ⟨haligned, hle.trans ?_⟩
        unfold LeafWalk.potential
        rw [hlength]
        omega

/-- One block more changes nothing when there is fuel for those that can still be scanned. -/
theorem Sound.leafBlocks_succ (hs : s.Sound) (hgap : gapEnd.toNat ≤ s.relocOffset.toNat)
    (hoffset : offset.toNat < gapEnd.toNat) (hw : w.Aligned) (hfuel : w.potential gapEnd < fuel) :
    s.leafBlocks offset gapEnd (fuel + 1) w = s.leafBlocks offset gapEnd fuel w := by
  induction fuel generalizing w with
  | zero => exact absurd hfuel (Nat.not_lt_zero _)
  | succ fuel ih =>
    obtain ⟨visited, worklist, maxReached, sawReturn⟩ := w
    cases worklist with
    | nil => rfl
    | cons cursor worklist =>
      obtain ⟨⟨hmod, hcursor⟩, hrest⟩ := List.forall_mem_cons.mp hw
      have hpopped : LeafWalk.Aligned ⟨visited, worklist, maxReached, sawReturn⟩ := hrest
      have hpotential : LeafWalk.potential ⟨visited, cursor :: worklist, maxReached, sawReturn⟩
          gapEnd = LeafWalk.potential ⟨visited, worklist, maxReached, sawReturn⟩ gapEnd + 1 :=
        Nat.add_right_comm _ _ _
      unfold FragmentScan.leafBlocks
      dsimp only
      cases hblock : s.leafBlock offset gapEnd (2 ^ 30) cursor
          ⟨visited, worklist, maxReached, sawReturn⟩ with
      | error e => rfl
      | ok w? =>
        cases w? with
        | none => rfl
        | some w₁ =>
          obtain ⟨haligned, hle⟩ := hs.leafBlock_potential hgap hoffset hcursor hmod hpopped hblock
          exact ih haligned (by omega)

/-- **The walk over a leaf ends.** -/
theorem Sound.leafBlocks_eq (hs : s.Sound) (hgap : gapEnd.toNat ≤ s.relocOffset.toNat)
    (hoffset : offset.toNat < gapEnd.toNat) (hmod : offset.toNat % 4 = 0) (hfuel : 2 ^ 31 ≤ fuel) :
    s.leafBlocks offset gapEnd fuel ⟨[], [offset], offset, false⟩ =
      s.leafBlocks offset gapEnd (2 ^ 31) ⟨[], [offset], offset, false⟩ := by
  have hsmall := hs.small
  have hw : LeafWalk.Aligned ⟨[], [offset], offset, false⟩ := fun o ho => by
    rw [List.mem_singleton.mp ho]
    exact ⟨hmod, by omega⟩
  have hleft : LeafWalk.left ⟨[], [offset], offset, false⟩ gapEnd ≤ gapEnd.toNat / 4 := by
    have hcard := Finset.card_filter_le (Finset.range (gapEnd.toNat / 4))
      fun i => BitVec.ofNat 32 (4 * i) ∉ ([] : List (BitVec 32))
    rwa [Finset.card_range] at hcard
  have hpotential : LeafWalk.potential ⟨[], [offset], offset, false⟩ gapEnd =
      1 + LeafWalk.left ⟨[], [offset], offset, false⟩ gapEnd := rfl
  induction fuel, hfuel using Nat.le_induction with
  | base => rfl
  | succ fuel hle ih => rw [hs.leafBlocks_succ hgap hoffset hw (by omega), ih]

/-- **The walks end for every body.** -/
theorem Sound.walksEnd (hs : s.Sound) : s.WalksEnd where
  offsets width stop start fuel hmin hmax hstop hstart hfuel := by
    have hsmall := hs.small
    refine offsetsWhile_eq (fun o ho hgoes => ?_) hstart hfuel
    have hle : (o + width).toNat ≤ stop.toNat := of_decide_eq_true hgoes
    rw [toNat_add_small ho hmax] at hle
    omega
  block offset gapEnd cursor w fuel hgap hcursor hfuel := hs.leafBlock_eq hgap hcursor hfuel
  leaf offset gapEnd fuel hgap hoffset hmod hfuel := hs.leafBlocks_eq hgap hoffset hmod hfuel
  bounds entryOffset h := by
    obtain ⟨body, -, h⟩ := bind_eq_ok_iff.mp h
    exact discoverFunctionBounds_ne_unfinished (Except.ok.inj h)

end Leaves

end FragmentScan

end N64Recomp
