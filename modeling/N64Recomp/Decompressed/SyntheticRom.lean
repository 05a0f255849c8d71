import N64Recomp.Decompressed.Synthesis

/-!
# Synthetic ROM ranges

The sections that a synthesis adds have ranges of the extended ROM. The ranges of variants come
from a counter and never meet; the range of an explicit section comes from its wrapper's offset,
which says nothing about the size of the sections around it. When the ranges are apart, each of
them reads back the body of its section.

## Main definitions

* `SyntheticRomRight`: what the ranges of the added sections are for
* `SyntheticRomCondition`: the ranges of explicit sections keep clear of all others

## Main results

* `pairwise_variantBlocks`: the counter keeps variants apart
* `syntheticRomRight_iff`: the ranges are right exactly under the condition
-/

namespace N64Recomp

open Blocks

/-- The bodies of the added sections, in the order of the synthesis. -/
def synthesizedBodies (explicit : List DecompressedSection)
    (patterns : List DecompressedPattern) : List (List (BitVec 8)) :=
  explicit.map (fun cfg => sectionBody cfg.blob) ++
    (variants patterns).map fun v => sectionBody v.2.body

/-- The ranges of a synthesis: those of the sections behind the ordinary ones. -/
def addedSections (before : List Section) (st : Synthesis) : List Section :=
  st.sections.drop before.length

/-- The ranges of the added sections are apart from each other and from all ordinary sections, end
in 32 bits, and hold the bodies. -/
structure SyntheticRomRight (before : List Section) (bodies : List (List (BitVec 8)))
    (st : Synthesis) : Prop where
  no_wrap : ∀ sect ∈ addedSections before st, sect.romAddr.toNat + sect.size.toNat ≤ 2 ^ 32
  apart : (addedSections before st).Pairwise fun a b =>
    Apart a.placement.romRange b.placement.romRange
  apart_before : ∀ sect ∈ addedSections before st, ∀ other ∈ before,
    Apart sect.placement.romRange other.placement.romRange
  reads : (addedSections before st).map (fun sect =>
    readBlock st.rom sect.romAddr.toNat sect.size.toNat) = bodies

/-- The range of an explicit section: from `0xFE000000 | rom_wrapper`, of the size in its header. -/
def DecompressedSection.romRange (cfg : DecompressedSection) : Nat × Nat :=
  ((0xFE000000#32 ||| cfg.romWrapper).toNat, (relocOffset cfg.blob).toNat)

/-- The ranges of the variants: from `0xFE000000` on, in whole words. -/
def variantRanges (patterns : List DecompressedPattern) : List (Nat × Nat) :=
  (variantBlocks 0xFE000000 ((variants patterns).map Prod.snd)).map blockRange

/-- Explicit sections end in 32 bits, keep clear of each other and of the variants, and no ordinary
section is among them. -/
structure SyntheticRomCondition (before : List Section) (explicit : List DecompressedSection)
    (patterns : List DecompressedPattern) : Prop where
  no_wrap : ∀ cfg ∈ explicit, cfg.romRange.1 + cfg.romRange.2 ≤ 2 ^ 32
  apart : explicit.Pairwise fun a b => Apart a.romRange b.romRange
  apart_variants : ∀ cfg ∈ explicit, ∀ r ∈ variantRanges patterns, Apart cfg.romRange r
  ordinary : ∀ other ∈ before, ∀ r ∈ explicit.map (·.romRange) ++ variantRanges patterns,
    Apart r other.placement.romRange

section Variants

variable {start i : Nat} {hits : List PatternHit}

theorem le_of_mem_variantBlocks {b : Nat × List (BitVec 8)} (h : b ∈ variantBlocks start hits) :
    start ≤ b.1 := by
  induction hits generalizing start with
  | nil => cases h
  | cons hit hits ih =>
    rcases List.mem_cons.mp h with rfl | h
    · exact Nat.le_refl _
    · have hle := ih h
      omega

/-- **The counter keeps variants apart.** -/
theorem pairwise_variantBlocks :
    (variantBlocks start hits).Pairwise fun a b => Apart (blockRange a) (blockRange b) := by
  induction hits generalizing start with
  | nil => exact List.Pairwise.nil
  | cons hit hits ih =>
    refine List.Pairwise.cons ?_ ih
    intro b hb
    have hnext := le_of_mem_variantBlocks hb
    have halign := le_alignWord (relocOffset hit.body).toNat
    -- a body is at most as long as its header says
    have hsize : (sectionBody hit.body).length ≤ (relocOffset hit.body).toNat := by
      rw [sectionBody, List.length_take]
      exact Nat.min_le_left _ _
    refine Or.inr (Or.inr (Or.inl ?_))
    dsimp only [blockRange]
    omega

/-- The placements of variants have the ranges of their blocks while the counter fits. -/
theorem romRange_variantPlacements
    (hsizes : ∀ hit ∈ hits, (relocOffset hit.body).toNat ≤ hit.body.length)
    (hbounds : ∀ b ∈ variantBlocks start hits, b.1 + b.2.length ≤ 0xFFFFFFFF) :
    (variantPlacements start i hits).map Placement.romRange =
      (variantBlocks start hits).map blockRange := by
  induction hits generalizing start i with
  | nil => rfl
  | cons hit hits ih =>
    have hhead := hbounds _ List.mem_cons_self
    dsimp only at hhead
    have hstart : (BitVec.ofNat 32 start).toNat = start := by
      rw [BitVec.toNat_ofNat]
      omega
    rw [variantPlacements, variantBlocks, List.map_cons, List.map_cons,
      ih (fun x hx => hsizes x (List.mem_cons_of_mem hit hx))
        fun b hb => hbounds b (List.mem_cons_of_mem _ hb), Placement.romRange, blockRange]
    dsimp only
    rw [hstart, length_sectionBody (hsizes hit List.mem_cons_self)]

theorem map_snd_variantBlocks :
    (variantBlocks start hits).map Prod.snd = hits.map fun hit => sectionBody hit.body := by
  induction hits generalizing start with
  | nil => rfl
  | cons hit hits ih => rw [variantBlocks, List.map_cons, List.map_cons, ih]

end Variants

section Ranges

variable {rom : List (BitVec 8)} {before : List Section} {explicit : List DecompressedSection}
  {patterns : List DecompressedPattern} {st : Synthesis}

/-- The blocks that a synthesis writes. -/
def synthesizedBlocks (explicit : List DecompressedSection)
    (patterns : List DecompressedPattern) : List (Nat × List (BitVec 8)) :=
  explicit.map (·.block) ++ variantBlocks syntheticRomBase.toNat ((variants patterns).map Prod.snd)

theorem map_snd_synthesizedBlocks :
    (synthesizedBlocks explicit patterns).map Prod.snd = synthesizedBodies explicit patterns := by
  rw [synthesizedBlocks, synthesizedBodies, List.map_append, List.map_map, map_snd_variantBlocks,
    List.map_map]
  rfl

variable (h : Synthesized rom before explicit ((variants patterns).map Prod.snd) st)

include h

/-- The ranges of the blocks are those of the configuration. -/
theorem Synthesized.blockRange_eq :
    (synthesizedBlocks explicit patterns).map blockRange =
      explicit.map (·.romRange) ++ variantRanges patterns := by
  rw [synthesizedBlocks, List.map_append, List.map_map]
  congr 1
  apply List.map_congr_left
  intro cfg hcfg
  exact Prod.ext rfl (length_sectionBody (h.explicitSizes cfg hcfg))

/-- The added sections have the ranges of the blocks. -/
theorem Synthesized.romRange_eq :
    (addedSections before st).map (fun sect => sect.placement.romRange) =
      (synthesizedBlocks explicit patterns).map blockRange := by
  have hadded : (addedSections before st).map Section.placement =
      explicit.map (·.placement) ++
        variantPlacements syntheticRomBase.toNat 0 ((variants patterns).map Prod.snd) := by
    rw [addedSections, List.map_drop, h.sections, List.drop_left' (List.length_map _)]
  rw [← Function.comp_def Placement.romRange, ← List.map_map, hadded, synthesizedBlocks,
    List.map_append, List.map_append,
    romRange_variantPlacements h.hitSizes fun b hb => (h.bounds b hb).2]
  congr 1
  rw [List.map_map, List.map_map]
  apply List.map_congr_left
  intro cfg hcfg
  exact Prod.ext rfl (length_sectionBody (h.explicitSizes cfg hcfg)).symm

/-- Blocks that are apart from each other are read back over the ranges of the sections. -/
theorem Synthesized.reads
    (hapart : (synthesizedBlocks explicit patterns).Pairwise fun a b =>
      Apart (blockRange a) (blockRange b)) :
    (addedSections before st).map (fun sect =>
      readBlock st.rom sect.romAddr.toNat sect.size.toNat) =
        synthesizedBodies explicit patterns := by
  have hread : ∀ b ∈ synthesizedBlocks explicit patterns,
      readBlock st.rom (blockRange b).1 (blockRange b).2 = b.2 := by
    intro b hb
    rw [h.rom]
    exact (readBlock_writeBlocks hapart b hb).2
  calc (addedSections before st).map (fun sect =>
        readBlock st.rom sect.romAddr.toNat sect.size.toNat)
      = ((addedSections before st).map fun sect => sect.placement.romRange).map
          (fun r => readBlock st.rom r.1 r.2) := by rw [List.map_map]; rfl
    _ = (synthesizedBlocks explicit patterns).map Prod.snd := by
        rw [h.romRange_eq, List.map_map]
        exact List.map_congr_left hread
    _ = synthesizedBodies explicit patterns := map_snd_synthesizedBlocks

/-- The claims about ranges are claims about the ranges of the configuration. -/
theorem Synthesized.romRange_all (P : Nat × Nat → Prop) :
    (∀ sect ∈ addedSections before st, P sect.placement.romRange) ↔
      (∀ cfg ∈ explicit, P cfg.romRange) ∧ ∀ r ∈ variantRanges patterns, P r := by
  rw [← List.forall_mem_map (f := fun sect : Section => sect.placement.romRange), h.romRange_eq,
    h.blockRange_eq, List.forall_mem_append, List.forall_mem_map]

theorem Synthesized.romRange_pairwise :
    ((addedSections before st).Pairwise fun a b =>
        Apart a.placement.romRange b.placement.romRange) ↔
      (explicit.Pairwise fun a b => Apart a.romRange b.romRange) ∧
        ∀ cfg ∈ explicit, ∀ r ∈ variantRanges patterns, Apart cfg.romRange r := by
  rw [← List.pairwise_map (f := fun sect : Section => sect.placement.romRange), h.romRange_eq,
    h.blockRange_eq, List.pairwise_append, List.pairwise_map, List.forall_mem_map, variantRanges,
    List.pairwise_map]
  exact ⟨fun ⟨he, _, hcross⟩ => ⟨he, hcross⟩,
    fun ⟨he, hcross⟩ => ⟨he, pairwise_variantBlocks, hcross⟩⟩

theorem Synthesized.romRight_iff :
    SyntheticRomRight before (synthesizedBodies explicit patterns) st ↔
      SyntheticRomCondition before explicit patterns := by
  constructor
  · intro hright
    obtain ⟨hexplicit, hvariants⟩ := h.romRange_pairwise.mp hright.apart
    have hbefore := (h.romRange_all fun r => ∀ other ∈ before, Apart r other.placement.romRange).mp
      hright.apart_before
    refine ⟨((h.romRange_all fun r => r.1 + r.2 ≤ 2 ^ 32).mp hright.no_wrap).1, hexplicit,
      hvariants, ?_⟩
    intro other hother r hr
    rcases List.mem_append.mp hr with hr | hr
    · obtain ⟨cfg, hcfg, rfl⟩ := List.mem_map.mp hr
      exact hbefore.1 cfg hcfg other hother
    · exact hbefore.2 r hr other hother
  · intro hcond
    have hapart := h.romRange_pairwise.mpr ⟨hcond.apart, hcond.apart_variants⟩
    refine ⟨?_, hapart, ?_, h.reads ?_⟩
    · refine (h.romRange_all fun r => r.1 + r.2 ≤ 2 ^ 32).mpr ⟨hcond.no_wrap, ?_⟩
      intro r hr
      obtain ⟨b, hb, rfl⟩ := List.mem_map.mp hr
      have hbound := (h.bounds b hb).2
      dsimp only [blockRange]
      omega
    · refine (h.romRange_all fun r => ∀ other ∈ before, Apart r other.placement.romRange).mpr
        ⟨?_, ?_⟩
      · intro cfg hcfg other hother
        exact hcond.ordinary other hother _ (List.mem_append_left _ (List.mem_map_of_mem hcfg))
      · intro r hr other hother
        exact hcond.ordinary other hother r (List.mem_append_right _ hr)
    · have hranges := List.pairwise_map.mpr hapart
      rw [h.romRange_eq] at hranges
      exact List.pairwise_map.mp hranges

end Ranges

/-- **The ranges are right exactly when** the explicit sections of the configuration keep clear of
each other, of the variants and of the ordinary sections. -/
theorem syntheticRomRight_iff {accepts : List (BitVec 8) → Bool} {fileSize : Nat}
    {rom : List (BitVec 8)} {before : List Section} {explicit : List DecompressedSection}
    {patterns : List DecompressedPattern} {st : Synthesis}
    (hrun : synthesize accepts fileSize rom before explicit patterns = some st) :
    SyntheticRomRight before (synthesizedBodies explicit patterns) st ↔
      SyntheticRomCondition before explicit patterns :=
  (synthesized_of_synthesize hrun).romRight_iff

/-! ## Two runs -/

/-- A fragment of a size: its header, a byte that tells it from others, zeros, and an empty table of
relocations. -/
def plainFragment (tag : BitVec 8) (size : BitVec 32) : List (BitVec 8) :=
  [0x08, 0x40, 0x00, 0x08, 0, 0, 0, 0] ++ ascii "FRAGMENT" ++
    [0, 0, 0, 0x20, wordByte size 0, wordByte size 1, wordByte size 2, wordByte size 3, 0, 0, 0, tag,
      wordByte size 0, wordByte size 1, wordByte size 2, wordByte size 3] ++
    List.replicate (size.toNat + 4 - 0x20) 0

/-- A section of a fragment of `0x100` bytes, compressed at an offset of the ROM. -/
def smallSection (romWrapper vram : BitVec 32) : DecompressedSection :=
  ⟨ascii "fragment", romWrapper, vram, true, plainFragment 0 0x100⟩

/-- A match of a fragment. -/
def plainHit (wrapOff : BitVec 32) (tag : BitVec 8) (size : BitVec 32) : PatternHit :=
  ⟨wrapOff, 0x81000000#32, plainFragment tag size, plainFragment 0 0x100, by decide +kernel⟩

/-- A pattern that finds the fragment once. -/
def smallPattern : DecompressedPattern where
  sectionName := fun _ => ascii "fragment__rom"
  relocatable := true
  hits := [plainHit 0x2000 0 0x100]

theorem smallPattern_romRight :
    ∃ st, synthesize (fun _ => true) 0x4000 [] [] [smallSection 0x1000 0x81200000] [smallPattern] =
        some st ∧
      SyntheticRomRight []
        (synthesizedBodies [smallSection 0x1000 0x81200000] [smallPattern]) st := by
  obtain ⟨st, hrun⟩ : ∃ st, synthesize (fun _ => true) 0x4000 [] []
      [smallSection 0x1000 0x81200000] [smallPattern] = some st :=
    Option.isSome_iff_exists.mp (by decide +kernel)
  refine ⟨st, hrun, (syntheticRomRight_iff hrun).mpr ?_⟩
  constructor <;> decide +kernel

/-- Two fragments that are compressed to half of their size lie `0x80` bytes apart, and the second
overwrites the first. -/
theorem smallSections_not_romRight :
    ∃ st, synthesize (fun _ => true) 0x4000 [] []
        [smallSection 0x1000 0x81000000, smallSection 0x1080 0x81100000] [] = some st ∧
      ¬ SyntheticRomRight [] (synthesizedBodies
        [smallSection 0x1000 0x81000000, smallSection 0x1080 0x81100000] []) st := by
  obtain ⟨st, hrun⟩ : ∃ st, synthesize (fun _ => true) 0x4000 [] []
      [smallSection 0x1000 0x81000000, smallSection 0x1080 0x81100000] [] = some st :=
    Option.isSome_iff_exists.mp (by decide +kernel)
  refine ⟨st, hrun, ?_⟩
  intro hright
  have hcond := (synthesized_of_synthesize hrun).romRight_iff.mp hright
  exact absurd hcond.apart (by decide +kernel)

end N64Recomp
