import N64Recomp.Data.Blocks
import N64Recomp.Decompressed.FragmentRelocs

/-!
# Synthesized sections

The sections of the configuration that the game decompresses at run time are decompressed by the
recompiler and added to the context, with their bodies appended to its ROM. Explicit sections are
placed by the offset of their wrapper; the variants that a pattern finds in the ROM are placed one
after the other, and get a link address from a pool.

The decompressed and patched bodies, and the hits that a pattern has in the ROM, are inputs of the
model. The analysis of the functions in a body, which adds to the context's functions and may
refuse the body, is the predicate `accepts`.

## Main definitions

* `addExplicitSection`, `addDecompressedSection`: adding one section
* `addHits`: the sections of a pattern, without duplicates
* `synthesize`: explicit sections, then patterns

## Main results

* `synthesized_of_synthesize`: the sections that are added, and their blocks of the ROM
-/

namespace N64Recomp

open Blocks

/-- An explicit section of the configuration with its decompressed and patched bytes. -/
structure DecompressedSection where
  name : Str
  romWrapper : BitVec 32
  vram : BitVec 32
  relocatable : Bool
  blob : List (BitVec 8)
  deriving DecidableEq, Repr

/-- `decode_fragment_j_target`. -/
def decodeFragmentJTarget (bytes : List (BitVec 8)) : Option (BitVec 32) := do
  let jInstr ← romWord bytes 0
  guard ((jInstr >>> 26) &&& 0x3F = 0x02)
  return 0x80000000 ||| ((jInstr &&& 0x03FFFFFF) <<< 2)

/-- `decode_fragment_link_vram`. -/
def decodeFragmentLinkVram (bytes : List (BitVec 8)) : Option (BitVec 32) := do
  guard (0x20 ≤ bytes.length)
  guard (romWord bytes 4 = some 0 ∧ hasFragmentMagic bytes)
  let jTarget ← decodeFragmentJTarget bytes
  let entryOffset ← romWord bytes 0x10
  guard (entryOffset &&& 3 = 0)
  let rounded := jTarget &&& 0xFFF00000
  return if jTarget - rounded = entryOffset then jTarget - entryOffset else rounded

/-- A match of a pattern in the ROM: its address is that of a fragment's header. -/
structure PatternHit where
  wrapOff : BitVec 32
  vram : BitVec 32
  body : List (BitVec 8)
  decoded : ∃ bytes, decodeFragmentLinkVram bytes = some vram

/-- A pattern of the configuration with its matches. -/
structure DecompressedPattern where
  sectionName : BitVec 32 → Str
  relocatable : Bool
  hits : List PatternHit

/-- What the synthesis changes: the ROM, the sections, and the two counters of the patterns. -/
structure Synthesis where
  rom : List (BitVec 8)
  sections : List Section
  nextSyntheticRom : Nat
  syntheticVariantIdx : Nat

/-- `fnv1a_64`. -/
def fnv1a64 (data : List (BitVec 8)) : BitVec 64 :=
  data.foldl (fun h b => (h ^^^ b.setWidth 64) * 0x100000001B3#64) 0xCBF29CE484222325#64

/-- `fragment_id_from_vram`. -/
def fragmentIdFromVram (vram : BitVec 32) : Option (BitVec 32) :=
  let bucket := (vram &&& 0x0FF00000) >>> 0x14
  if bucket < 0x10 then none else some (bucket - 0x10)

/-- The start of the synthetic part of the ROM. -/
def syntheticRomBase : BitVec 32 := 0xFE000000#32

def kSyntheticPoolBase : BitVec 32 := 0xC0000000#32

def kSyntheticPoolStride : BitVec 32 := 0x00100000#32

/-- A size rounded up to whole words. -/
def alignWord (n : Nat) : Nat := (n + 3) / 4 * 4

section Add

variable (accepts : List (BitVec 8) → Bool)

/-- An explicit section, at `0xFE000000 | rom_wrapper`; the wrapper is inside the ROM file. -/
def addExplicitSection (fileSize : Nat) (st : Synthesis) (cfg : DecompressedSection) :
    Option Synthesis := do
  guard (cfg.romWrapper.toNat < fileSize)
  let relocOffset ← romWord cfg.blob 0x14
  let syntheticRom := syntheticRomBase ||| cfg.romWrapper
  let sect ← parseFragmentRelocs cfg.blob cfg.vram (BitVec.ofNat 16 st.sections.length)
    { Section.empty with
      romAddr := syntheticRom
      ramAddr := cfg.vram
      size := relocOffset
      name := cfg.name
      executable := true
      relocatable := cfg.relocatable }
  return { st with
    rom := writeBlock 0 st.rom syntheticRom.toNat (cfg.blob.take relocOffset.toNat)
    sections := st.sections ++ [sect] }

/-- A section at the counter, with a link address of its own. -/
def addDecompressedSection (st : Synthesis) (blob : List (BitVec 8)) (vram : BitVec 32)
    (sectionName : Str) (relocatable : Bool) (overrideLinkRamAddr : BitVec 32) :
    Option Synthesis := do
  let linkRamAddr := if overrideLinkRamAddr ≠ 0 then overrideLinkRamAddr else vram
  guard (0x20 ≤ blob.length ∧ hasFragmentMagic blob)
  let relocOffset ← romWord blob 0x14
  guard (relocOffset.toNat ≤ blob.length)
  let syntheticRom := BitVec.ofNat 32 st.nextSyntheticRom
  let nextSyntheticRom := st.nextSyntheticRom + alignWord relocOffset.toNat
  guard (nextSyntheticRom ≤ 0xFFFFFFFF)
  let sect ← parseFragmentRelocs blob vram (BitVec.ofNat 16 st.sections.length)
    { Section.empty with
      romAddr := syntheticRom
      ramAddr := linkRamAddr
      size := relocOffset
      name := sectionName
      executable := true
      relocatable := relocatable }
  guard (accepts blob)
  return { st with
    rom := writeBlock 0 st.rom syntheticRom.toNat (blob.take relocOffset.toNat)
    sections := st.sections ++ [sect]
    nextSyntheticRom }

/-- A variant of a pattern, with the next link address of the pool. -/
def addVariant (pattern : DecompressedPattern) (st : Synthesis) (hit : PatternHit) :
    Option Synthesis :=
  let variantLinkAddr :=
    kSyntheticPoolBase + BitVec.ofNat 32 st.syntheticVariantIdx * kSyntheticPoolStride
  addDecompressedSection accepts { st with syntheticVariantIdx := st.syntheticVariantIdx + 1 }
    hit.body hit.vram (pattern.sectionName hit.wrapOff) pattern.relocatable variantLinkAddr

/-- The window of the content hash. -/
def hashWindow : Nat := 0x100

/-- The key of a hit for the removal of duplicates, when its address names a fragment. -/
def dedupeKey (hit : PatternHit) : Option (BitVec 64) :=
  (fragmentIdFromVram hit.vram).map fun id =>
    fnv1a64 (hit.body.take hashWindow) ^^^ ((id.setWidth 64 : BitVec 64) <<< 32)

/-- The loop over the hits of a pattern. -/
def addHits (pattern : DecompressedPattern) :
    List (BitVec 64) → List PatternHit → Synthesis → Option Synthesis
  | _, [], st => some st
  | seen, hit :: hits, st =>
    match dedupeKey hit with
    | none => addHits pattern seen hits st
    | some key =>
      if key ∈ seen then addHits pattern seen hits st
      else (addVariant accepts pattern st hit).bind (addHits pattern (key :: seen) hits)

/-- The explicit sections, then the patterns. -/
def synthesize (fileSize : Nat) (rom : List (BitVec 8)) (before : List Section)
    (explicit : List DecompressedSection) (patterns : List DecompressedPattern) :
    Option Synthesis := do
  let start : Synthesis :=
    { rom, sections := before, nextSyntheticRom := syntheticRomBase.toNat,
      syntheticVariantIdx := 0 }
  let st ← explicit.foldlM (addExplicitSection fileSize) start
  let firstAddedIndex := (BitVec.ofNat 16 before.length).toNat
  let st := { st with sections := resolveCrossSectionTargets st.sections firstAddedIndex }
  let firstAddedIndex := (BitVec.ofNat 16 st.sections.length).toNat
  let st ← patterns.foldlM (fun st p => addHits accepts p [] p.hits st) st
  return { st with sections := resolveCrossSectionTargets st.sections firstAddedIndex }

end Add

/-! ## What the synthesis places -/

/-- The addresses and the size of a section. -/
structure Placement where
  romAddr : BitVec 32
  ramAddr : BitVec 32
  size : BitVec 32
  deriving DecidableEq, Repr

def Section.placement (sect : Section) : Placement := ⟨sect.romAddr, sect.ramAddr, sect.size⟩

/-- The size in the header of a body. -/
def relocOffset (blob : List (BitVec 8)) : BitVec 32 := (romWord blob 0x14).getD 0

/-- The bytes of a body in front of its relocations. -/
def sectionBody (blob : List (BitVec 8)) : List (BitVec 8) := blob.take (relocOffset blob).toNat

namespace DecompressedSection

variable (cfg : DecompressedSection)

def syntheticRom : BitVec 32 := syntheticRomBase ||| cfg.romWrapper

def placement : Placement := ⟨cfg.syntheticRom, cfg.vram, relocOffset cfg.blob⟩

def block : Nat × List (BitVec 8) := (cfg.syntheticRom.toNat, sectionBody cfg.blob)

end DecompressedSection

/-- The hits that are not duplicates of earlier ones. -/
def keptHits : List (BitVec 64) → List PatternHit → List PatternHit
  | _, [] => []
  | seen, hit :: hits =>
    match dedupeKey hit with
    | none => keptHits seen hits
    | some key => if key ∈ seen then keptHits seen hits else hit :: keptHits (key :: seen) hits

/-- The variants of all patterns, in the order of the synthesis. -/
def variants (patterns : List DecompressedPattern) : List (DecompressedPattern × PatternHit) :=
  patterns.flatMap fun p => (keptHits [] p.hits).map (p, ·)

/-- The blocks of the variants, one after the other from a position on. -/
def variantBlocks : Nat → List PatternHit → List (Nat × List (BitVec 8))
  | _, [] => []
  | start, hit :: hits =>
    (start, sectionBody hit.body) ::
      variantBlocks (start + alignWord (relocOffset hit.body).toNat) hits

/-- The range of a block. -/
def blockRange (b : Nat × List (BitVec 8)) : Nat × Nat := (b.1, b.2.length)

/-- The range of a section in the ROM. -/
def Placement.romRange (p : Placement) : Nat × Nat := (p.romAddr.toNat, p.size.toNat)

/-- The range of a section's link addresses. -/
def Placement.linkRange (p : Placement) : Nat × Nat := (p.ramAddr.toNat, p.size.toNat)

/-- The link address of a variant by its number. -/
def variantLinkAddr (i : Nat) (hit : PatternHit) : BitVec 32 :=
  let addr := kSyntheticPoolBase + BitVec.ofNat 32 i * kSyntheticPoolStride
  if addr ≠ 0 then addr else hit.vram

/-- The placements of the variants, from a position and a number on. -/
def variantPlacements : Nat → Nat → List PatternHit → List Placement
  | _, _, [] => []
  | start, i, hit :: hits =>
    ⟨BitVec.ofNat 32 start, variantLinkAddr i hit, relocOffset hit.body⟩ ::
      variantPlacements (start + alignWord (relocOffset hit.body).toNat) (i + 1) hits

section Steps

variable {accepts : List (BitVec 8) → Bool} {fileSize : Nat} {st st' : Synthesis}

theorem guard_bind_eq_some_iff {α : Type} {c : Prop} [Decidable c] {f : Unit → Option α} {a : α} :
    (guard c >>= f) = some a ↔ c ∧ f () = some a := by
  by_cases hc : c
  · simp [guard, hc]
  · simp [guard, hc]

/-- The relocations of a section are the only thing that parsing changes; the body ends inside the
bytes. -/
theorem parseFragmentRelocs_placement {bytes : List (BitVec 8)} {vram : BitVec 32}
    {index : BitVec 16} {sect sect' : Section}
    (h : parseFragmentRelocs bytes vram index sect = some sect') :
    sect'.placement = sect.placement ∧ (relocOffset bytes).toNat ≤ bytes.length := by
  obtain ⟨raw, hraw, rfl⟩ := Option.map_eq_some_iff.mp h
  refine ⟨rfl, ?_⟩
  obtain ⟨_, hraw⟩ := guard_bind_eq_some_iff.mp hraw
  obtain ⟨offset, hoffset, hraw⟩ := Option.bind_eq_some_iff.mp hraw
  obtain ⟨_, _, hraw⟩ := Option.bind_eq_some_iff.mp hraw
  obtain ⟨hle, _⟩ := guard_bind_eq_some_iff.mp hraw
  rw [relocOffset, hoffset]
  exact hle.1

/-- What an explicit section adds. -/
theorem addExplicitSection_some {cfg : DecompressedSection}
    (h : addExplicitSection fileSize st cfg = some st') :
    ∃ sect, sect.placement = cfg.placement ∧ (relocOffset cfg.blob).toNat ≤ cfg.blob.length ∧
      st' = { st with
        rom := writeBlock 0 st.rom cfg.block.1 cfg.block.2
        sections := st.sections ++ [sect] } := by
  obtain ⟨_, h⟩ := guard_bind_eq_some_iff.mp h
  obtain ⟨offset, hoffset, h⟩ := Option.bind_eq_some_iff.mp h
  obtain ⟨sect, hsect, h⟩ := Option.bind_eq_some_iff.mp h
  cases h
  have hreloc : relocOffset cfg.blob = offset := by rw [relocOffset, hoffset, Option.getD_some]
  obtain ⟨hplacement, hsize⟩ := parseFragmentRelocs_placement hsect
  refine ⟨sect, ?_, hsize, ?_⟩
  · rw [hplacement, DecompressedSection.placement, hreloc]
    rfl
  · rw [DecompressedSection.block, sectionBody, hreloc]
    rfl

/-- What a variant adds. -/
theorem addVariant_some {p : DecompressedPattern} {hit : PatternHit}
    (h : addVariant accepts p st hit = some st') :
    ∃ sect, sect.placement = ⟨BitVec.ofNat 32 st.nextSyntheticRom,
        variantLinkAddr st.syntheticVariantIdx hit, relocOffset hit.body⟩ ∧
      (relocOffset hit.body).toNat ≤ hit.body.length ∧
      st.nextSyntheticRom + alignWord (relocOffset hit.body).toNat ≤ 0xFFFFFFFF ∧
      st' = {
        rom := writeBlock 0 st.rom (BitVec.ofNat 32 st.nextSyntheticRom).toNat
          (sectionBody hit.body)
        sections := st.sections ++ [sect]
        nextSyntheticRom := st.nextSyntheticRom + alignWord (relocOffset hit.body).toNat
        syntheticVariantIdx := st.syntheticVariantIdx + 1 } := by
  obtain ⟨_, h⟩ := guard_bind_eq_some_iff.mp h
  obtain ⟨offset, hoffset, h⟩ := Option.bind_eq_some_iff.mp h
  obtain ⟨_, h⟩ := guard_bind_eq_some_iff.mp h
  obtain ⟨hnext, h⟩ := guard_bind_eq_some_iff.mp h
  obtain ⟨sect, hsect, h⟩ := Option.bind_eq_some_iff.mp h
  obtain ⟨_, h⟩ := guard_bind_eq_some_iff.mp h
  cases h
  have hreloc : relocOffset hit.body = offset := by rw [relocOffset, hoffset, Option.getD_some]
  obtain ⟨hplacement, hsize⟩ := parseFragmentRelocs_placement hsect
  subst hreloc
  exact ⟨sect, hplacement, hsize, hnext, rfl⟩

theorem addHits_eq {p : DecompressedPattern} {seen : List (BitVec 64)} {hits : List PatternHit} :
    addHits accepts p seen hits st = (keptHits seen hits).foldlM (addVariant accepts p) st := by
  induction hits generalizing seen st with
  | nil => rfl
  | cons hit hits ih =>
    rw [addHits, keptHits]
    cases dedupeKey hit with
    | none => exact ih
    | some key =>
      dsimp only
      split
      · exact ih
      · rw [List.foldlM_cons]
        exact congrArg _ (funext fun _ => ih)

/-- The patterns add their variants one after the other. -/
theorem foldlM_addHits {patterns : List DecompressedPattern} :
    patterns.foldlM (fun st p => addHits accepts p [] p.hits st) st =
      (variants patterns).foldlM (fun st v => addVariant accepts v.1 st v.2) st := by
  induction patterns generalizing st with
  | nil => rfl
  | cons p patterns ih =>
    rw [List.foldlM_cons, variants, List.flatMap_cons, List.foldlM_append, addHits_eq,
      List.foldlM_map]
    exact congrArg _ (funext fun _ => ih)

/-! ### Runs -/

/-- What a run of additions has added: sections and blocks of the ROM. -/
structure Adds (st st' : Synthesis) (placements : List Placement)
    (blocks : List (Nat × List (BitVec 8))) : Prop where
  rom : st'.rom = writeBlocks 0 st.rom blocks
  sections : st'.sections.map Section.placement = st.sections.map Section.placement ++ placements

theorem adds_explicit {explicit : List DecompressedSection}
    (h : explicit.foldlM (addExplicitSection fileSize) st = some st') :
    Adds st st' (explicit.map (·.placement)) (explicit.map (·.block)) ∧
      (∀ cfg ∈ explicit, (relocOffset cfg.blob).toNat ≤ cfg.blob.length) ∧
      st'.nextSyntheticRom = st.nextSyntheticRom ∧
      st'.syntheticVariantIdx = st.syntheticVariantIdx := by
  induction explicit generalizing st with
  | nil =>
    cases h
    exact ⟨⟨rfl, by simp⟩, by simp, rfl, rfl⟩
  | cons cfg explicit ih =>
    rw [List.foldlM_cons] at h
    obtain ⟨st₁, hadd, h⟩ := Option.bind_eq_some_iff.mp h
    obtain ⟨sect, hplacement, hsize, rfl⟩ := addExplicitSection_some hadd
    obtain ⟨hadds, hsizes, hnext, hidx⟩ := ih h
    refine ⟨⟨by rw [hadds.rom]; rfl, ?_⟩, ?_, hnext, hidx⟩
    · rw [hadds.sections, List.map_append, List.map_singleton, hplacement, List.append_assoc]
      rfl
    · intro c hc
      rcases List.mem_cons.mp hc with rfl | hc
      · exact hsize
      · exact hsizes c hc

theorem length_sectionBody {blob : List (BitVec 8)} (h : (relocOffset blob).toNat ≤ blob.length) :
    (sectionBody blob).length = (relocOffset blob).toNat := by
  rw [sectionBody, List.length_take, Nat.min_eq_left h]

theorem le_alignWord (n : Nat) : n ≤ alignWord n := by
  unfold alignWord
  omega

/-- A run of variants: the counter never leaves 32 bits. -/
theorem adds_variants {vs : List (DecompressedPattern × PatternHit)}
    (h : vs.foldlM (fun st v => addVariant accepts v.1 st v.2) st = some st') :
    Adds st st' (variantPlacements st.nextSyntheticRom st.syntheticVariantIdx (vs.map Prod.snd))
        (variantBlocks st.nextSyntheticRom (vs.map Prod.snd)) ∧
      (∀ v ∈ vs, (relocOffset v.2.body).toNat ≤ v.2.body.length) ∧
      ∀ b ∈ variantBlocks st.nextSyntheticRom (vs.map Prod.snd),
        st.nextSyntheticRom ≤ b.1 ∧ b.1 + b.2.length ≤ 0xFFFFFFFF := by
  induction vs generalizing st with
  | nil =>
    cases h
    exact ⟨⟨rfl, by simp [variantPlacements]⟩, by simp, by simp [variantBlocks]⟩
  | cons v vs ih =>
    rw [List.foldlM_cons] at h
    obtain ⟨st₁, hadd, h⟩ := Option.bind_eq_some_iff.mp h
    obtain ⟨sect, hplacement, hsize, hnext, rfl⟩ := addVariant_some hadd
    obtain ⟨hadds, hsizes, hbounds⟩ := ih h
    have hle := le_alignWord (relocOffset v.2.body).toNat
    have hstart : (BitVec.ofNat 32 st.nextSyntheticRom).toNat = st.nextSyntheticRom := by
      rw [BitVec.toNat_ofNat]
      omega
    refine ⟨⟨?_, ?_⟩, ?_, ?_⟩
    · rw [hadds.rom, hstart]
      rfl
    · rw [hadds.sections, List.map_append, List.map_singleton, hplacement, List.append_assoc]
      rfl
    · intro w hw
      rcases List.mem_cons.mp hw with rfl | hw
      · exact hsize
      · exact hsizes w hw
    · intro b hb
      rcases List.mem_cons.mp hb with rfl | hb
      · exact ⟨Nat.le_refl _, by dsimp only; rw [length_sectionBody hsize]; omega⟩
      · obtain ⟨hlow, hhigh⟩ := hbounds b hb
        dsimp only at hlow
        exact ⟨by omega, hhigh⟩

theorem resolveCrossSectionTargets_placement (sections : List Section) (n : Nat) :
    (resolveCrossSectionTargets sections n).map Section.placement =
      sections.map Section.placement := by
  apply List.ext_getElem?
  intro i
  simp only [resolveCrossSectionTargets, List.getElem?_map, List.getElem?_mapIdx, Option.map_map]
  congr 1
  funext sect
  dsimp only [Function.comp]
  split <;> rfl

/-- **What a successful synthesis leaves**: the sections that were there, then those that were
added, whose bodies were written into the ROM one after the other. -/
structure Synthesized (rom : List (BitVec 8)) (before : List Section)
    (explicit : List DecompressedSection) (hits : List PatternHit) (st : Synthesis) : Prop where
  rom : st.rom = writeBlocks 0 rom
    (explicit.map (·.block) ++ variantBlocks syntheticRomBase.toNat hits)
  sections : st.sections.map Section.placement = before.map Section.placement ++
    (explicit.map (·.placement) ++ variantPlacements syntheticRomBase.toNat 0 hits)
  explicitSizes : ∀ cfg ∈ explicit, (relocOffset cfg.blob).toNat ≤ cfg.blob.length
  hitSizes : ∀ hit ∈ hits, (relocOffset hit.body).toNat ≤ hit.body.length
  bounds : ∀ b ∈ variantBlocks syntheticRomBase.toNat hits,
    syntheticRomBase.toNat ≤ b.1 ∧ b.1 + b.2.length ≤ 0xFFFFFFFF

theorem synthesized_of_synthesize {rom : List (BitVec 8)} {before : List Section}
    {explicit : List DecompressedSection} {patterns : List DecompressedPattern}
    (h : synthesize accepts fileSize rom before explicit patterns = some st) :
    Synthesized rom before explicit ((variants patterns).map Prod.snd) st := by
  obtain ⟨st₁, hexplicit, h⟩ := Option.bind_eq_some_iff.mp h
  obtain ⟨st₂, hpatterns, h⟩ := Option.bind_eq_some_iff.mp h
  cases h
  obtain ⟨hadds, hsizes, hnext, hidx⟩ := adds_explicit hexplicit
  rw [foldlM_addHits] at hpatterns
  obtain ⟨hadds', hsizes', hbounds⟩ := adds_variants hpatterns
  have hrom := hadds'.rom
  have hsections := hadds'.sections
  dsimp only at hrom hsections hbounds hnext hidx
  rw [hnext] at hrom hsections hbounds
  rw [hidx] at hsections
  refine ⟨?_, ?_, hsizes, ?_, hbounds⟩
  · rw [hrom, hadds.rom]
    exact (List.foldl_append).symm
  · dsimp only
    rw [resolveCrossSectionTargets_placement, hsections, resolveCrossSectionTargets_placement,
      hadds.sections, List.append_assoc]
  · intro hit hmem
    obtain ⟨v, hv, rfl⟩ := List.mem_map.mp hmem
    exact hsizes' v hv

/-! ### Success -/

/-- A fragment with a table has a header. -/
theorem fragmentTable_some {bytes : List (BitVec 8)} {raw : List RawReloc}
    (h : fragmentTable bytes = some raw) :
    (0x20 ≤ bytes.length ∧ hasFragmentMagic bytes) ∧ romWord bytes 0x14 = some (relocOffset bytes) ∧
      (relocOffset bytes).toNat ≤ bytes.length := by
  obtain ⟨hheader, h⟩ := guard_bind_eq_some_iff.mp h
  obtain ⟨offset, hoffset, h⟩ := Option.bind_eq_some_iff.mp h
  obtain ⟨_, _, h⟩ := Option.bind_eq_some_iff.mp h
  obtain ⟨hle, _⟩ := guard_bind_eq_some_iff.mp h
  have hreloc : relocOffset bytes = offset := by rw [relocOffset, hoffset, Option.getD_some]
  rw [hreloc]
  exact ⟨hheader, hoffset, hle.1⟩

/-- A variant is added when its table is read, the counter fits and its functions are accepted. -/
theorem exists_addVariant {p : DecompressedPattern} {hit : PatternHit} {raw : List RawReloc}
    (htable : fragmentTable hit.body = some raw)
    (hnext : st.nextSyntheticRom + alignWord (relocOffset hit.body).toNat ≤ 0xFFFFFFFF)
    (haccepts : accepts hit.body = true) :
    ∃ st', addVariant accepts p st hit = some st' ∧
      st'.nextSyntheticRom = st.nextSyntheticRom + alignWord (relocOffset hit.body).toNat := by
  obtain ⟨hheader, hoffset, hle⟩ := fragmentTable_some htable
  refine ⟨_, guard_bind_eq_some_iff.mpr ⟨hheader, Option.bind_eq_some_iff.mpr ⟨_, hoffset,
    guard_bind_eq_some_iff.mpr ⟨hle, guard_bind_eq_some_iff.mpr ⟨hnext,
      Option.bind_eq_some_iff.mpr ⟨_, Option.map_eq_some_iff.mpr ⟨raw, htable, rfl⟩,
        guard_bind_eq_some_iff.mpr ⟨haccepts, rfl⟩⟩⟩⟩⟩⟩, rfl⟩

/-- Variants with tables are all added while the counter fits. -/
theorem exists_foldlM_addVariant {vs : List (DecompressedPattern × PatternHit)}
    (htable : ∀ v ∈ vs, (fragmentTable v.2.body).isSome)
    (hnext : st.nextSyntheticRom +
      (vs.map fun v => alignWord (relocOffset v.2.body).toNat).sum ≤ 0xFFFFFFFF)
    (haccepts : ∀ v ∈ vs, accepts v.2.body = true) :
    ∃ st', vs.foldlM (fun st v => addVariant accepts v.1 st v.2) st = some st' := by
  induction vs generalizing st with
  | nil => exact ⟨st, rfl⟩
  | cons v vs ih =>
    rw [List.map_cons, List.sum_cons] at hnext
    obtain ⟨raw, hraw⟩ := Option.isSome_iff_exists.mp (htable v List.mem_cons_self)
    obtain ⟨st₁, hadd, hcounter⟩ := @exists_addVariant accepts st v.1 v.2 raw hraw (by omega)
      (haccepts v List.mem_cons_self)
    obtain ⟨st', hrest⟩ := @ih st₁ (fun w hw => htable w (List.mem_cons_of_mem v hw)) (by omega)
      fun w hw => haccepts w (List.mem_cons_of_mem v hw)
    exact ⟨st', by rw [List.foldlM_cons]; exact Option.bind_eq_some_iff.mpr ⟨st₁, hadd, hrest⟩⟩

/-- Patterns alone are synthesized while the counter fits. -/
theorem exists_synthesize {rom : List (BitVec 8)} {before : List Section}
    {patterns : List DecompressedPattern}
    (htable : ∀ v ∈ variants patterns, (fragmentTable v.2.body).isSome)
    (hnext : syntheticRomBase.toNat +
      ((variants patterns).map fun v => alignWord (relocOffset v.2.body).toNat).sum ≤ 0xFFFFFFFF)
    (haccepts : ∀ v ∈ variants patterns, accepts v.2.body = true) :
    ∃ st, synthesize accepts fileSize rom before [] patterns = some st := by
  let start : Synthesis :=
    { rom
      sections := resolveCrossSectionTargets before (BitVec.ofNat 16 before.length).toNat
      nextSyntheticRom := syntheticRomBase.toNat
      syntheticVariantIdx := 0 }
  obtain ⟨st, hst⟩ := @exists_foldlM_addVariant accepts start (variants patterns) htable hnext
    haccepts
  rw [← foldlM_addHits] at hst
  let firstAddedIndex := (BitVec.ofNat 16 start.sections.length).toNat
  refine ⟨{ st with sections := resolveCrossSectionTargets st.sections firstAddedIndex }, ?_⟩
  exact Option.bind_eq_some_iff.mpr ⟨st, hst, rfl⟩

end Steps

end N64Recomp
