import Mathlib.Data.List.MinMax
import N64Recomp.RSPRecomp.Permutations

/-!
# The images of the permutations

The image of a permutation is a copy of the base text, over which the chosen overlays are written
from the first slot to the last. Room is made for an overlay that ends past the base text, but by
`reserve`, which does not change the size of the vector: the words past the base text are written
behind the end, and a copy of the vector does not have them.

## Main definitions

* `Config.IsPermutation`: a vector with the number of an overlay for each slot
* `Config.writes`: the positions that the copies write
* `Config.fullImage`: the base text with the overlays over it, as far as the last of them reaches
* `Config.ImageRight`, `Config.ChosenFit`

## Main results

* `image_eq_fullImage_iff`: the image has all words exactly when none is written past its end
* `imageRight_iff`
-/

namespace N64Recomp.RSPRecomp

open MixedRadix

namespace Config

variable (cfg : Config)

/-- A permutation of the configuration: for each slot the number of one of its overlays. -/
def IsPermutation (permutation : List (BitVec 32)) : Prop :=
  cfg.Options (permutation.map BitVec.toNat)

/-- The overlay that a permutation chooses for a slot, with its place in the text. -/
def chosenOverlay (choice : OverlaySlot × BitVec 32) : Option (Nat × List (BitVec 32)) :=
  choice.1.overlays[choice.2.toNat]?.map fun overlay =>
    (cfg.wordOffset choice.1, overlay.instrWords)

def chosenOverlays (permutation : List (BitVec 32)) : List (Nat × List (BitVec 32)) :=
  (cfg.overlaySlots.zip permutation).filterMap cfg.chosenOverlay

/-- The positions that `std::copy` writes, one overlay after the other. -/
def writes (permutation : List (BitVec 32)) : List Nat :=
  (cfg.chosenOverlays permutation).flatMap fun chosen => List.range' chosen.1 chosen.2.length

/-- The end of the last word, in the base text or in a chosen overlay. -/
def textEnd (permutation : List (BitVec 32)) : Nat :=
  (cfg.writes permutation).foldl (fun stop a => max stop (a + 1)) cfg.instrWords.length

/-- The words that a permutation stands for. Between the base text and an overlay behind its end
there are zeros. -/
def fullImage (permutation : List (BitVec 32)) : List (BitVec 32) :=
  (List.range (cfg.textEnd permutation)).map fun a =>
    (cfg.textAt (permutation.map BitVec.toNat) a).getD 0

/-- The expansion of a permutation is right: its words are those that the permutation stands for,
and they are all written inside the vector, which keeps the size of the base text. -/
structure ImageRight (permutation : List (BitVec 32)) : Prop where
  words : cfg.image permutation = some (cfg.fullImage permutation)
  inside : ∀ a ∈ cfg.writes permutation, a < cfg.instrWords.length

/-- The overlays that a permutation chooses end inside the base text. -/
def ChosenFit (permutation : List (BitVec 32)) : Prop :=
  ∀ chosen ∈ cfg.chosenOverlays permutation, chosen.2 ≠ [] →
    chosen.1 + chosen.2.length ≤ cfg.instrWords.length

instance (permutation : List (BitVec 32)) : Decidable (cfg.ChosenFit permutation) :=
  inferInstanceAs (Decidable (∀ chosen ∈ cfg.chosenOverlays permutation, chosen.2 ≠ [] →
    chosen.1 + chosen.2.length ≤ cfg.instrWords.length))

end Config

section Images

variable {cfg : Config} {permutation : List (BitVec 32)}

theorem words_map_toNat (permutation : List (BitVec 32)) :
    words (permutation.map BitVec.toNat) = permutation := by
  rw [words, List.map_map]
  exact (List.map_congr_left fun o _ => by simp).trans (List.map_id _)

theorem mem_writes {a : Nat} :
    a ∈ cfg.writes permutation ↔
      ∃ chosen ∈ cfg.chosenOverlays permutation, chosen.1 ≤ a ∧
        a < chosen.1 + chosen.2.length := by
  rw [Config.writes, List.mem_flatMap]
  simp only [List.mem_range'_1]

/-- **The writes stay inside the vector exactly when the overlays end inside the base text.** -/
theorem writes_inside_iff :
    (∀ a ∈ cfg.writes permutation, a < cfg.instrWords.length) ↔ cfg.ChosenFit permutation := by
  constructor
  · intro h chosen hchosen hne
    have hpos := List.length_pos_iff.mpr hne
    -- the last word of the overlay
    have hlast := h (chosen.1 + chosen.2.length - 1)
      (mem_writes.mpr ⟨chosen, hchosen, by omega, by omega⟩)
    omega
  · intro h a ha
    obtain ⟨chosen, hchosen, hle, hlt⟩ := mem_writes.mp ha
    have hne : chosen.2 ≠ [] := by
      intro hnil
      rw [hnil, List.length_nil] at hlt
      omega
    exact Nat.lt_of_lt_of_le hlt (h chosen hchosen hne)

theorem textEnd_eq (h : ∀ a ∈ cfg.writes permutation, a < cfg.instrWords.length) :
    cfg.textEnd permutation = cfg.instrWords.length := by
  unfold Config.textEnd
  generalize cfg.writes permutation = positions at h
  induction positions with
  | nil => rfl
  | cons a positions ih =>
    have ha := h a List.mem_cons_self
    rw [List.foldl_cons, Nat.max_eq_left (by omega)]
    exact ih fun b hb => h b (List.mem_cons_of_mem a hb)

/-- The maximum that a loop keeps bounds its start and every item. -/
theorem le_foldl_max (positions : List Nat) (start : Nat) :
    start ≤ positions.foldl (fun stop a => max stop (a + 1)) start ∧
      ∀ a ∈ positions, a < positions.foldl (fun stop a => max stop (a + 1)) start := by
  induction positions generalizing start with
  | nil => exact ⟨Nat.le_refl start, fun a ha => absurd ha List.not_mem_nil⟩
  | cons b positions ih =>
    obtain ⟨hstart, hitems⟩ := ih (max start (b + 1))
    rw [List.foldl_cons]
    refine ⟨Nat.le_trans (Nat.le_max_left _ _) hstart, fun a ha => ?_⟩
    rcases List.mem_cons.mp ha with rfl | ha
    · exact Nat.lt_of_lt_of_le (Nat.lt_succ_self a) (Nat.le_trans (Nat.le_max_right _ _) hstart)
    · exact hitems a ha

/-- The image has the size of the base text, and holds what the permutation stands for there. -/
theorem image_permutation (h : cfg.IsPermutation permutation) :
    ∃ text, cfg.image permutation = some text ∧ text.length = cfg.instrWords.length ∧
      Shows text (cfg.textAt (permutation.map BitVec.toNat)) := by
  have hwords : ∀ o ∈ permutation.map BitVec.toNat, o < 2 ^ 32 := by
    intro o ho
    obtain ⟨w, _, rfl⟩ := List.mem_map.mp ho
    exact w.isLt
  have hbase : Shows cfg.instrWords fun a => cfg.instrWords[a]? := fun _ _ => rfl
  rw [Config.image, Config.textAt]
  conv in cfg.overlaySlots.zip permutation => rw [← words_map_toNat permutation]
  exact image_shows hwords h hbase

/-- The words of the image are all those that the permutation stands for exactly when no write
leaves the vector: a word behind the base text is lost. -/
theorem image_eq_fullImage_iff (h : cfg.IsPermutation permutation) :
    cfg.image permutation = some (cfg.fullImage permutation) ↔
      ∀ a ∈ cfg.writes permutation, a < cfg.instrWords.length := by
  obtain ⟨text, himage, hlen, hshows⟩ := image_permutation h
  rw [himage, Option.some.injEq]
  constructor
  · intro htext a ha
    have hend := congrArg List.length htext
    rw [Config.fullImage, List.length_map, List.length_range, hlen] at hend
    exact hend ▸ (le_foldl_max _ _).2 a ha
  · intro hinside
    rw [Config.fullImage, textEnd_eq hinside, ← hlen]
    refine List.ext_getElem? fun a => ?_
    rw [List.getElem?_map]
    by_cases ha : a < text.length
    · rw [List.getElem?_range ha, Option.map_some, ← hshows a ha, List.getElem?_eq_getElem ha,
        Option.getD_some]
    · rw [List.getElem?_eq_none (Nat.not_lt.mp ha), List.getElem?_eq_none (by simpa using ha),
        Option.map_none]

/-- **The expansion of a permutation is right exactly when the overlays that it chooses end inside
the base text.** -/
theorem imageRight_iff (h : cfg.IsPermutation permutation) :
    cfg.ImageRight permutation ↔ cfg.ChosenFit permutation :=
  ⟨fun hright => writes_inside_iff.mp hright.inside, fun hfit =>
    have hinside := writes_inside_iff.mpr hfit
    ⟨(image_eq_fullImage_iff h).mpr hinside, hinside⟩⟩

/-- A base text of two words, and a slot at its second word with overlays of one and of two
words. -/
def longOverlay : Config where
  textAddress := 0x04001000
  outputFunctionName := ascii "ucode"
  instrWords := [1, 2]
  overlaySlots := [⟨0x04001004, [⟨0, [3]⟩, ⟨4, [4, 5]⟩]⟩]

theorem longOverlay_isPermutation (o : BitVec 32) (h : o.toNat < 2) :
    longOverlay.IsPermutation [o] := by
  rw [Config.IsPermutation, List.map_cons, List.map_nil]
  exact isNumeral_cons.mpr ⟨h, isNumeral_nil⟩

theorem longOverlay_imageRight : longOverlay.ImageRight [0] :=
  (imageRight_iff (longOverlay_isPermutation 0 (by decide))).mpr (by decide)

/-- The second word of the longer overlay is written behind the vector, and is lost. -/
theorem longOverlay_lost :
    longOverlay.IsPermutation [1] ∧ longOverlay.fullImage [1] = [1, 4, 5] ∧
      longOverlay.image [1] = some [1, 4] ∧ ¬ longOverlay.ImageRight [1] :=
  ⟨longOverlay_isPermutation 1 (by decide), by decide, by decide, fun hright =>
    absurd (hright.inside 2 (by decide)) (by decide)⟩

end Images

end N64Recomp.RSPRecomp
