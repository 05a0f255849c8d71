import Mathlib.Data.List.ReduceOption
import N64Recomp.Data.Faults
import N64Recomp.Decompressed.PatternScan
import N64Recomp.Overlays.SectionTable

/-!
# Reads of wrappers and bodies

The bytes that the synthesis reads of the ROM and of a decompressed body. A read of bytes that are
not there stops the model, as in the decoders; the sums of the checks in front of the reads are those
of the source, of 32 or of 64 bits.

## Main definitions

* `getRange`: the bytes that are copied or compared as a whole
* `extractRawFragment`, `decompressWrapper`, `patchBlob`: the body of a wrapper
* `parseRelocs`: the relocations of a body
* `addExplicitSections`: the explicit sections of the configuration
* `ExplicitFits`: the body of an explicit section is as its header says

## Main results

* `parseRelocs_inBounds_iff`: when the parser stays in the body
* `addExplicitSections_inBounds_iff`: when the synthesis of the explicit sections does
-/

namespace N64Recomp

open Blocks Compression Except

/-! ### Reads -/

/-- The bytes of a range, which is read as a whole. -/
def getRange (data : List (BitVec 8)) (i n : Nat) : Except Stop (List (BitVec 8)) :=
  if i + n ≤ data.length then .ok ((data.drop i).take n) else .error .outOfBounds

/-- A computation stays in the bounds of what it reads, and returns what has a property. -/
abbrev ReadsWithin {α : Type} (x : Except Stop α) (P : α → Prop) : Prop :=
  Ensures Stop.outOfBounds x P

section Reads

variable {α β : Type} {P : α → Prop} {Q : β → Prop}

theorem readsWithin_iff_inBounds {x : Except Stop α} : ReadsWithin x (fun _ => True) ↔ InBounds x :=
  ⟨And.left, fun h => ⟨h, fun _ _ => trivial⟩⟩

theorem inBounds_bind_iff {x : Except Stop β} {f : β → Except Stop α} (hx : InBounds x) :
    InBounds (x >>= f) ↔ ∀ b, x = .ok b → InBounds (f b) := by
  cases x with
  | error e => exact iff_of_true (fun h => hx (congrArg Except.error (Except.error.inj h))) nofun
  | ok b =>
    refine ⟨fun h _ hb => ?_, fun h => h b rfl⟩
    cases hb
    exact h

theorem inBounds_require_bind {c : Prop} [Decidable c] {f : Unit → Except Stop α} :
    InBounds (require c >>= f) ↔ (c → InBounds (f ())) := by
  by_cases hc : c
  · rw [require_of hc, ok_bind]
    exact ⟨fun h _ => h, fun h => h hc⟩
  · refine iff_of_true (fun hfault => ?_) fun h => absurd h hc
    rw [require, if_neg hc] at hfault
    cases hfault

theorem inBounds_get_bind {x : Option β} {f : β → Except Stop α} :
    InBounds (get x >>= f) ↔ ∃ b, x = some b ∧ InBounds (f b) := by
  cases x with
  | none => exact ⟨fun h => absurd rfl h, nofun⟩
  | some b =>
    refine ⟨fun h => ⟨b, rfl, h⟩, ?_⟩
    rintro ⟨_, ⟨⟩, h⟩
    exact h

theorem inBounds_getRange_bind {data : List (BitVec 8)} {i n : Nat}
    {f : List (BitVec 8) → Except Stop α} :
    InBounds (getRange data i n >>= f) ↔
      i + n ≤ data.length ∧ InBounds (f ((data.drop i).take n)) := by
  unfold getRange
  split_ifs with h
  · exact ⟨fun hf => ⟨h, hf⟩, And.right⟩
  · exact ⟨fun hf => absurd rfl hf, fun hf => absurd hf.1 h⟩

theorem reads_require (c : Prop) [Decidable c] : ReadsWithin (require c) fun _ => c := by
  unfold require
  split_ifs with h
  · exact ensures_ok h
  · exact ensures_error nofun

theorem reads_get {x : Option α} (h : x.isSome) : ReadsWithin (get x) fun a => x = some a := by
  obtain ⟨a, rfl⟩ := Option.isSome_iff_exists.mp h
  exact ensures_ok rfl

/-- A word inside of the bytes. -/
theorem reads_word {bytes : List (BitVec 8)} {i : Nat} (h : i + 4 ≤ bytes.length) :
    ReadsWithin (get (romWord bytes i)) fun word => romWord bytes i = some word :=
  reads_get (romWord_isSome_iff.mpr h)

theorem reads_range {bytes : List (BitVec 8)} {i n : Nat} (h : i + n ≤ bytes.length) :
    ReadsWithin (getRange bytes i n) fun range => range = (bytes.drop i).take n := by
  unfold getRange
  rw [if_pos h]
  exact ensures_ok rfl

end Reads

/-! ### The body of a wrapper -/

section Wrapper

/-- `decode_fragment_j_target`, of bytes at an index. -/
def fragmentJTarget (bytes : List (BitVec 8)) (base size : Nat) : Except Stop (BitVec 32) := do
  require (4 ≤ size)
  let jInstr ← get (romWord bytes base)
  require ((jInstr >>> 26) &&& 0x3F = 0x02)
  return 0x80000000 ||| ((jInstr &&& 0x03FFFFFF) <<< 2)

/-- `decode_fragment_link_vram`, of bytes at an index. -/
def fragmentLinkVram (bytes : List (BitVec 8)) (base size : Nat) : Except Stop (BitVec 32) := do
  require (0x20 ≤ size)
  let second ← get (romWord bytes (base + 4))
  require (second = 0)
  let magic ← getRange bytes (base + 0x08) 8
  require (magic = ascii "FRAGMENT")
  let jTarget ← fragmentJTarget bytes base size
  let entryOffset ← get (romWord bytes (base + 0x10))
  require (entryOffset &&& 3 = 0)
  let roundedLinkVram := jTarget &&& 0xFFF00000
  return if jTarget - roundedLinkVram = entryOffset then jTarget - entryOffset
    else roundedLinkVram

variable (rom : List (BitVec 8))

/-- `try_extract_raw_fragment`, with the link address of the fragment. -/
def extractRawFragment (romOffset : BitVec 32) : Except Stop (BitVec 32 × List (BitVec 8)) := do
  require (romOffset.toNat + 0x20 ≤ rom.length)
  let base := romOffset.toNat
  let _ ← fragmentJTarget rom base 4
  let linkVram ← fragmentLinkVram rom base 0x20
  let second ← get (romWord rom (base + 4))
  require (second = 0)
  let magic ← getRange rom (base + 0x08) 8
  require (magic = ascii "FRAGMENT")
  let relocOffset ← get (romWord rom (base + 0x14))
  let fileSizeHint ← get (romWord rom (base + 0x18))
  let sizeInRam ← get (romWord rom (base + 0x1C))
  require (relocOffset &&& 3 = 0 ∧ 0x20 ≤ relocOffset.toNat)
  require (base + relocOffset.toNat + 4 ≤ rom.length)
  let count ← get (romWord rom (base + relocOffset.toNat))
  require (count.toNat ≤ 0x10000)
  let relocTableEnd := relocOffset.toNat + 4 + 4 * count.toNat
  let size := max relocTableEnd sizeInRam.toNat
  let blobSize := if relocTableEnd ≤ fileSizeHint.toNat then max size fileSizeHint.toNat else size
  require (blobSize ≤ 0x400000 ∧ base + blobSize ≤ rom.length)
  let blob ← getRange rom base blobSize
  return (linkVram, blob)

/-- `decompress_wrapper_at`. -/
def decompressWrapper (romWrapper : BitVec 32) (format : WrapperFormat) :
    Except Stop (List (BitVec 8)) := do
  require (romWrapper.toNat < rom.length)
  match format with
  | .persSzpYay0 => persSzpDecompress (rom.drop romWrapper.toNat)
  | .yay0 | .bareYay0 => yay0Decompress (rom.drop romWrapper.toNat)
  | .rawFragment => do
    let (_, blob) ← extractRawFragment rom romWrapper
    return blob
  | .unknown _ => .error .returnFalse

end Wrapper

/-- `apply_decompressed_section_patches`. The old value is read for the message. -/
def patchBlob (romWrapper vram : BitVec 32) (patches : List DecompressedSectionPatch)
    (blob : List (BitVec 8)) : Except Stop (List (BitVec 8)) :=
  patches.foldlM (fun blob patch =>
    if patch.applies romWrapper vram then do
      require (patch.offset.toNat + 4 ≤ blob.length)
      let _ ← get (romWord blob patch.offset.toNat)
      return setRomWord blob patch.offset.toNat patch.value
    else .ok blob) blob

/-! ### The relocations of a body -/

section Relocs

variable (bytes : List (BitVec 8))

/-- An entry of the table: of an unknown type, out of the body, or with the word that it applies
to. -/
def rawRelocAt (relocOffset sizeInRam : BitVec 32) (i : Nat) : Except Stop (Option RawReloc) := do
  let entry ← get (romWord bytes (relocOffset.toNat + 4 + (4 * BitVec.ofNat 32 i).toNat))
  let type := translateStadiumRelocType ((entry >>> 24 &&& 0x7F).setWidth 8)
  let sectionOffset := entry &&& 0x00FFFFFF
  if type = .none ∨ sizeInRam < sectionOffset + 4 then return none
  let word ← get (romWord bytes sectionOffset.toNat)
  return some ⟨type, sectionOffset, word⟩

/-- `parse_fragment_relocs`. -/
def parseRelocs (sectionVram : BitVec 32) (sectionIndex : BitVec 16) (sectionOut : Section) :
    Except Stop Section := do
  require (0x20 ≤ bytes.length)
  let magic ← getRange bytes 0x08 8
  require (magic = ascii "FRAGMENT")
  let relocOffset ← get (romWord bytes 0x14)
  let sizeInRam ← get (romWord bytes 0x1C)
  require (relocOffset.toNat ≤ bytes.length ∧ sizeInRam.toNat ≤ bytes.length)
  require ((relocOffset + 4).toNat ≤ bytes.length)
  let count ← get (romWord bytes relocOffset.toNat)
  require ((relocOffset + 4).toNat + 4 * count.toNat ≤ bytes.length)
  let entries ← (List.range count.toNat).mapM (rawRelocAt bytes relocOffset sizeInRam)
  let raw := entries.reduceOption
  return { sectionOut with
    relocs := (sectionOut.relocs ++ tableRelocs raw sectionVram sectionIndex).insertionSort
      fun a b => a.address ≤ b.address
    hasMips32Relocs := sectionOut.hasMips32Relocs || raw.any (·.type = .mips32) }

/-- The size of the body in memory, in the header. -/
def sizeInRam : BitVec 32 := (romWord bytes 0x1C).getD 0

/-- The room for the count of the relocations: a header that passes the checks in front of it has it,
although one of them adds to the offset. -/
def TableFits : Prop :=
  0x20 ≤ bytes.length → hasFragmentMagic bytes = true →
    (relocOffset bytes).toNat ≤ bytes.length → (sizeInRam bytes).toNat ≤ bytes.length →
    (relocOffset bytes + 4).toNat ≤ bytes.length → (relocOffset bytes).toNat + 4 ≤ bytes.length

end Relocs

/-! ### The explicit sections -/

/-- `DecompressedSection`, an explicit section of the configuration. -/
structure ExplicitConfig where
  name : Str
  romWrapper : BitVec 32
  vram : BitVec 32
  wrapperFormat : WrapperFormat
  relocatable : Bool

/-- What the synthesis adds to: the context, the aliases, and the counter of the synthetic ROM. -/
structure LoadState where
  context : Context
  aliases : AliasTable
  nextSyntheticRom : Nat

/-- The words that are copied from bytes. -/
def hostWords (bytes : List (BitVec 8)) : List (BitVec 32) :=
  (List.range (bytes.length / 4)).map fun i => hostWord bytes (4 * i)

/-- The offsets of the words from `+0x20` up to an end. -/
def bodyOffsets (stop : Nat) : List Nat := (List.range ((stop - 0x20) / 4)).map (0x20 + 4 * ·)

/-- The first `jr $ra` among the words at the offsets. -/
def firstReturn (blob : List (BitVec 8)) : List Nat → Except Stop (Option Nat)
  | [] => .ok none
  | off :: rest => do
    let word ← get (romWord blob off)
    if word = 0x03E00008 then return some off
    firstReturn blob rest

/-- The synthetic ROM with a body, and the context with a section. -/
def Context.addBody (context : Context) (syntheticRom : BitVec 32) (body : List (BitVec 8))
    (sect : Section) : Context :=
  { context with
    rom := writeBlock 0 context.rom syntheticRom.toNat body
    sections := context.sections ++ [sect]
    sectionFunctions := context.sectionFunctions ++ [[]] }

/-- The tables of the aliases, with a section. -/
def AliasTable.addSection (aliases : AliasTable) : AliasTable :=
  { aliases with sectionDispatchAliases := aliases.sectionDispatchAliases ++ [[]] }

/-- The body of an explicit section's wrapper; a raw fragment has the section's address. -/
def explicitWrapper (rom : List (BitVec 8)) (cfg : ExplicitConfig) :
    Except Stop (List (BitVec 8)) :=
  if cfg.wrapperFormat = .rawFragment then do
    let (linkVram, blob) ← extractRawFragment rom cfg.romWrapper
    require (linkVram = cfg.vram)
    return blob
  else decompressWrapper rom cfg.romWrapper cfg.wrapperFormat

/-- The decompressed and patched body of an explicit section. -/
def explicitBody (rom : List (BitVec 8)) (patches : List DecompressedSectionPatch)
    (cfg : ExplicitConfig) : Except Stop (List (BitVec 8)) := do
  require (cfg.romWrapper.toNat < rom.length)
  let blob ← explicitWrapper rom cfg
  patchBlob cfg.romWrapper cfg.vram patches blob

/-- The function at `+0x20`, when its return is found. -/
def addImpl (blob : List (BitVec 8)) (implEnd : Nat) (pass : BlobSection) :
    Except Stop BlobSection :=
  if 0x20 < implEnd then do
    let impl ← getRange blob 0x20 (implEnd - 0x20)
    return pass.addFunction (pass.vram + 0x20) (pass.syntheticRom + 0x20) (hostWords impl)
      (ascii "func_" ++ hex8 (pass.vram + 0x20)) 0
  else .ok pass

/-- A turn of the loop over the explicit sections, once the body is there. -/
def addExplicitBody (st : LoadState) (cfg : ExplicitConfig) (blob : List (BitVec 8)) :
    Except Stop LoadState := do
  let syntheticRom := syntheticRomBase ||| cfg.romWrapper
  let relocOffset ← get (romWord blob 0x14)
  let body ← getRange blob 0 relocOffset.toNat
  let sectionIndex := BitVec.ofNat 16 st.context.sections.length
  let sect ← parseRelocs blob cfg.vram sectionIndex
    { Section.empty with
      romAddr := syntheticRom
      ramAddr := cfg.vram
      size := relocOffset
      name := cfg.name
      executable := true
      relocatable := cfg.relocatable }
  let pass : BlobSection := {
    context := st.context.addBody syntheticRom body sect
    sectionIndex
    vram := cfg.vram
    syntheticRom
    blob
    relocOffset
    functionIndexByOffset := fun _ => none
    emittedOffsets := []
    emittedRanges := [] }
  let entry ← getRange blob 0 8
  let pass := pass.addFunction cfg.vram syntheticRom (hostWords entry)
    (cfg.name ++ ascii "_entry") 0
  let found ← firstReturn blob (bodyOffsets relocOffset.toNat)
  let implEnd := match found with
    | some off => min (off + 8) relocOffset.toNat
    | none => 0
  let pass ← addImpl blob implEnd pass
  return { st with context := pass.context, aliases := st.aliases.addSection }

section Explicit

variable (rom : List (BitVec 8)) (patches : List DecompressedSectionPatch)

/-- A turn of the loop over the explicit sections. -/
def addExplicit (st : LoadState) (cfg : ExplicitConfig) : Except Stop LoadState := do
  let blob ← explicitBody rom patches cfg
  addExplicitBody st cfg blob

/-- `synthesize_decompressed_sections`. -/
def addExplicitSections (configs : List ExplicitConfig) (st : LoadState) :
    Except Stop LoadState := do
  if configs.isEmpty then return st
  require (rom ≠ [])
  let firstAddedIndex := (BitVec.ofNat 16 st.context.sections.length).toNat
  let st ← configs.foldlM (addExplicit rom patches) st
  return { st with context := { st.context with
    sections := resolveCrossSectionTargets st.context.sections firstAddedIndex } }

end Explicit

/-- **The body of an explicit section fits**: it has the header's field, ends behind the offset in
it, and has room for the count of the relocations. -/
structure ExplicitFits (blob : List (BitVec 8)) : Prop where
  header : 0x18 ≤ blob.length
  body : (relocOffset blob).toNat ≤ blob.length
  table : TableFits blob

/-! ### Wrappers stay in the ROM -/

section WrapperReads

variable {bytes rom blob : List (BitVec 8)} {base size : Nat}

theorem fragmentJTarget_reads (h : 4 ≤ size → base + 4 ≤ bytes.length) :
    ReadsWithin (fragmentJTarget bytes base size) fun target => ∃ jInstr : BitVec 32,
      target = 0x80000000 ||| ((jInstr &&& 0x03FFFFFF) <<< 2) := by
  refine (reads_require _).bind fun _ hsize => ?_
  refine (reads_word (h hsize)).bind fun jInstr _ => ?_
  exact (reads_require _).bind fun _ _ => ensures_ok ⟨jInstr, rfl⟩

/-- A link address is in `KSEG0`. -/
theorem fragmentLinkVram_reads (h : 0x20 ≤ size → base + 0x20 ≤ bytes.length) :
    ReadsWithin (fragmentLinkVram bytes base size) fun vram =>
      0x80000000 ≤ vram.toNat ∧ vram.toNat < 0xC0000000 := by
  refine (reads_require _).bind fun _ hsize => ?_
  have hend := h hsize
  refine (reads_word (by omega)).bind fun second _ => ?_
  refine (reads_require _).bind fun _ _ => ?_
  refine (reads_range (by omega)).bind fun magic _ => ?_
  refine (reads_require _).bind fun _ _ => ?_
  refine (fragmentJTarget_reads fun _ => by omega).bind fun target htarget => ?_
  refine (reads_word (by omega)).bind fun entryOffset _ => ?_
  refine (reads_require _).bind fun _ _ => ensures_ok ?_
  obtain ⟨jInstr, rfl⟩ := htarget
  -- both branches are the target rounded down; its bit 31 is set, and its bit 30 is clear
  generalize hrounded : (0x80000000 ||| ((jInstr &&& 0x03FFFFFF) <<< 2)) &&& 0xFFF00000 = rounded
  have hset : rounded.getLsbD 31 = true := by
    rw [← hrounded]
    simp
  have hclear : rounded.getLsbD 30 = false := by
    rw [← hrounded]
    simp
  rw [BitVec.getLsbD, Nat.testBit_eq_decide_div_mod_eq, decide_eq_true_eq] at hset
  rw [BitVec.getLsbD, Nat.testBit_eq_decide_div_mod_eq, decide_eq_false_iff_not] at hclear
  have hlt := rounded.isLt
  split_ifs with heq
  · rw [← heq]
    bv_omega
  · omega

theorem extractRawFragment_reads (romOffset : BitVec 32) :
    ReadsWithin (extractRawFragment rom romOffset) fun r =>
      (0x80000000 ≤ r.1.toNat ∧ r.1.toNat < 0xC0000000) ∧ r.2.length < 2 ^ 32 := by
  refine (reads_require _).bind fun _ hheader => ?_
  refine (fragmentJTarget_reads fun _ => by omega).bind fun _ _ => ?_
  refine (fragmentLinkVram_reads fun _ => hheader).bind fun linkVram hlink => ?_
  refine (reads_word (by omega)).bind fun second _ => ?_
  refine (reads_require _).bind fun _ _ => ?_
  refine (reads_range (by omega)).bind fun magic _ => ?_
  refine (reads_require _).bind fun _ _ => ?_
  refine (reads_word (by omega)).bind fun relocOffset _ => ?_
  refine (reads_word (by omega)).bind fun fileSizeHint _ => ?_
  refine (reads_word (by omega)).bind fun sizeInRam _ => ?_
  refine (reads_require _).bind fun _ _ => ?_
  refine (reads_require _).bind fun _ htable => ?_
  refine (reads_word htable).bind fun count _ => ?_
  refine (reads_require _).bind fun _ _ => ?_
  refine (reads_require _).bind fun _ hsize => ?_
  refine (reads_range hsize.2).bind fun blob hblob => ensures_ok ⟨hlink, ?_⟩
  rw [hblob, List.length_take]
  exact Nat.lt_of_le_of_lt ((Nat.min_le_left _ _).trans hsize.1) (by decide)

/-- A decoded stream has a size of 32 bits. -/
theorem yay0Decompress_reads (data : List (BitVec 8)) :
    ReadsWithin (yay0Decompress data) fun out => out.length < 2 ^ 32 := by
  refine ⟨yay0Decompress_inBounds, fun out h => ?_⟩
  obtain ⟨_, _, h⟩ := bind_eq_ok_iff.mp h
  obtain ⟨_, _, h⟩ := bind_eq_ok_iff.mp h
  obtain ⟨decompSize, _, h⟩ := bind_eq_ok_iff.mp h
  obtain ⟨_, _, h⟩ := bind_eq_ok_iff.mp h
  obtain ⟨_, _, h⟩ := bind_eq_ok_iff.mp h
  obtain ⟨_, _, h⟩ := bind_eq_ok_iff.mp h
  obtain ⟨s, _, h⟩ := bind_eq_ok_iff.mp h
  obtain ⟨_, hsize, h⟩ := bind_eq_ok_iff.mp h
  cases h
  rw [require_eq_ok_iff.mp hsize]
  exact decompSize.isLt

theorem persSzpDecompress_reads (data : List (BitVec 8)) :
    ReadsWithin (persSzpDecompress data) fun out => out.length < 2 ^ 32 := by
  refine ⟨persSzpDecompress_inBounds, fun out h => ?_⟩
  obtain ⟨stream, _, _, _, hstream, _⟩ := persSzpDecompress_eq_ok_iff.mp h
  exact (yay0Decompress_reads stream).2 out hstream

theorem decompressWrapper_reads (romWrapper : BitVec 32) (format : WrapperFormat) :
    ReadsWithin (decompressWrapper rom romWrapper format) fun blob => blob.length < 2 ^ 32 := by
  refine (reads_require _).bind fun _ _ => ?_
  split
  · exact persSzpDecompress_reads _
  · exact yay0Decompress_reads _
  · exact yay0Decompress_reads _
  · exact (extractRawFragment_reads romWrapper).bind fun r hr => ensures_ok hr.2
  · exact ensures_error nofun

/-- Patches stay in the body, and leave its size. -/
theorem patchBlob_reads (romWrapper vram : BitVec 32) (patches : List DecompressedSectionPatch) :
    ReadsWithin (patchBlob romWrapper vram patches blob) fun patched =>
      patched.length = blob.length := by
  refine Ensures.foldlM rfl fun blob' patch _ hblob => ?_
  split_ifs
  · refine (reads_require _).bind fun _ hoffset => ?_
    refine (reads_word hoffset).bind fun old _ => ensures_ok ?_
    rw [length_setRomWord, hblob]
  · exact ensures_ok hblob

end WrapperReads

/-! ### The relocations stay in the body -/

section RelocReads

variable {bytes : List (BitVec 8)}

theorem toNat_add_four {x : BitVec 32} (h : x.toNat + 4 < 2 ^ 32) : (x + 4).toNat = x.toNat + 4 := by
  rw [BitVec.toNat_add, show (4 : BitVec 32).toNat = 4 from rfl, Nat.mod_eq_of_lt h]

/-- An entry of a table in the body. -/
theorem rawRelocAt_reads {relocOffset sizeInRam : BitVec 32} {count : BitVec 32} {i : Nat}
    (hsize : sizeInRam.toNat ≤ bytes.length)
    (htable : relocOffset.toNat + 4 + 4 * count.toNat ≤ bytes.length) (hi : i < count.toNat) :
    ReadsWithin (rawRelocAt bytes relocOffset sizeInRam i) fun raw? => ∀ raw, raw? = some raw →
      raw.sectionOffset.toNat < 2 ^ 24 := by
  have hentry : (4 * BitVec.ofNat 32 i).toNat ≤ 4 * i := by
    rw [BitVec.toNat_mul, BitVec.toNat_ofNat]
    exact (Nat.mod_le _ _).trans (Nat.mul_le_mul_left 4 (Nat.mod_le _ _))
  refine (reads_word (by omega)).bind fun entry _ => ?_
  have hoffset : (entry &&& 0x00FFFFFF).toNat < 2 ^ 24 := by
    rw [BitVec.toNat_and]
    exact Nat.lt_of_le_of_lt Nat.and_le_right (by decide)
  dsimp only
  split_ifs with hskip
  · exact ensures_ok nofun
  · have hbody : ¬sizeInRam.toNat < ((entry &&& 0x00FFFFFF) + 4).toNat := fun h => hskip (.inr h)
    rw [toNat_add_four (by omega)] at hbody
    refine (reads_word (by omega)).bind fun word _ => ensures_ok ?_
    rintro _ ⟨⟩
    exact hoffset

/-- A traversal whose elements are read in the bounds. -/
theorem reads_mapM {α β : Type} {f : α → Except Stop β} {P : β → Prop} {l : List α}
    (h : ∀ a ∈ l, ReadsWithin (f a) P) : ReadsWithin (l.mapM f) fun bs => ∀ b ∈ bs, P b := by
  induction l with
  | nil => exact ensures_ok nofun
  | cons a l ih =>
    rw [List.mapM_cons]
    refine (h a List.mem_cons_self).bind fun b hb => ?_
    refine (ih fun a' ha' => h a' (List.mem_cons_of_mem a ha')).bind fun bs hbs => ensures_ok ?_
    exact List.forall_mem_cons.mpr ⟨hb, hbs⟩

/-- The parser stays in a body that has room for the count, and what it parses are relocations of the
section's own words. -/
theorem parseRelocs_reads (hlength : bytes.length < 2 ^ 32) (hfits : TableFits bytes)
    (sectionVram : BitVec 32) (sectionIndex : BitVec 16) (sectionOut : Section) :
    ReadsWithin (parseRelocs bytes sectionVram sectionIndex sectionOut) fun sect =>
      0x20 ≤ bytes.length ∧ (sectionOut.relocs = [] → ∀ reloc ∈ sect.relocs,
        (reloc.address - sectionVram).toNat < 2 ^ 24 ∧ reloc.targetSection = sectionIndex) := by
  refine (reads_require _).bind fun _ hheader => ?_
  refine (reads_range (by omega)).bind fun magic hmagic => ?_
  refine (reads_require _).bind fun _ hfragment => ?_
  refine (reads_word (by omega)).bind fun offset hoffset => ?_
  refine (reads_word (by omega)).bind fun size hsize => ?_
  refine (reads_require _).bind fun _ hle => ?_
  refine (reads_require _).bind fun _ hsum => ?_
  have hroom : offset.toNat + 4 ≤ bytes.length := by
    unfold TableFits relocOffset sizeInRam at hfits
    rw [hoffset, hsize, Option.getD_some, Option.getD_some] at hfits
    exact hfits hheader (decide_eq_true (hmagic.symm.trans hfragment)) hle.1 hle.2 hsum
  refine (reads_word hroom).bind fun count _ => ?_
  refine (reads_require _).bind fun _ htable => ?_
  rw [toNat_add_four (by omega)] at htable
  refine (reads_mapM fun i hi => rawRelocAt_reads hle.2 htable (List.mem_range.mp hi)).bind
    fun entries hentries => ensures_ok ⟨hheader, ?_⟩
  intro hempty reloc hreloc
  rw [List.mem_insertionSort, hempty, List.nil_append, tableRelocs, List.mem_mapIdx] at hreloc
  obtain ⟨i, hi, rfl⟩ := hreloc
  have hraw := List.getElem_mem hi
  rw [List.reduceOption_mem_iff] at hraw
  refine ⟨?_, rfl⟩
  change (sectionVram + entries.reduceOption[i].sectionOffset - sectionVram).toNat < 2 ^ 24
  rw [BitVec.add_comm, BitVec.add_sub_cancel]
  exact hentries _ hraw _ rfl

/-- **The parser stays in the body, if and only if** a header that passes its checks has room for the
count. -/
theorem parseRelocs_inBounds_iff (hlength : bytes.length < 2 ^ 32) (sectionVram : BitVec 32)
    (sectionIndex : BitVec 16) (sectionOut : Section) :
    InBounds (parseRelocs bytes sectionVram sectionIndex sectionOut) ↔ TableFits bytes := by
  refine ⟨fun h hheader hfragment hle hle' hsum => ?_, fun h =>
    (parseRelocs_reads hlength h sectionVram sectionIndex sectionOut).1⟩
  obtain ⟨offset, hoffset⟩ := Option.isSome_iff_exists.mp
    (romWord_isSome_iff.mpr (show 0x14 + 4 ≤ bytes.length by omega))
  obtain ⟨size, hsize⟩ := Option.isSome_iff_exists.mp
    (romWord_isSome_iff.mpr (show 0x1C + 4 ≤ bytes.length by omega))
  unfold relocOffset at hle hsum ⊢
  unfold sizeInRam at hle'
  unfold parseRelocs at h
  rw [hoffset, Option.getD_some] at hle hsum ⊢
  rw [hsize, Option.getD_some] at hle'
  have h := (inBounds_getRange_bind.mp (inBounds_require_bind.mp h hheader)).2
  have h := inBounds_require_bind.mp h (of_decide_eq_true hfragment)
  rw [hoffset, hsize, get_some, ok_bind, get_some, ok_bind] at h
  have h := inBounds_require_bind.mp (inBounds_require_bind.mp h ⟨hle, hle'⟩) hsum
  obtain ⟨count, hcount, -⟩ := inBounds_get_bind.mp h
  exact romWord_isSome_iff.mp (Option.isSome_iff_exists.mpr ⟨count, hcount⟩)

end RelocReads

/-! ### The explicit sections stay in their bodies -/

section ExplicitReads

variable {rom blob : List (BitVec 8)} {patches : List DecompressedSectionPatch}

theorem mem_bodyOffsets {stop off : Nat} (h : off ∈ bodyOffsets stop) : off + 4 ≤ stop := by
  obtain ⟨k, hk, rfl⟩ := List.mem_map.mp h
  have := List.mem_range.mp hk
  omega

/-- The search for the return stays in front of the end. -/
theorem firstReturn_reads {offsets : List Nat} (h : ∀ off ∈ offsets, off + 4 ≤ blob.length) :
    ReadsWithin (firstReturn blob offsets) fun found => ∀ off, found = some off → off ∈ offsets := by
  induction offsets with
  | nil => exact ensures_ok nofun
  | cons off rest ih =>
    refine (reads_word (h off List.mem_cons_self)).bind fun word _ => ?_
    split_ifs
    · refine ensures_ok ?_
      rintro _ ⟨⟩
      exact List.mem_cons_self
    · refine (ih fun off' hoff' => h off' (List.mem_cons_of_mem off hoff')).mono fun found hfound => ?_
      exact fun off' hoff' => List.mem_cons_of_mem off (hfound off' hoff')

theorem addImpl_reads {implEnd : Nat} (h : implEnd ≤ blob.length) (pass : BlobSection) :
    ReadsWithin (addImpl blob implEnd pass) fun _ => True := by
  unfold addImpl
  split_ifs
  · exact (reads_range (by omega)).bind fun impl _ => ensures_ok trivial
  · exact ensures_ok trivial

theorem explicitWrapper_reads (cfg : ExplicitConfig) :
    ReadsWithin (explicitWrapper rom cfg) fun blob => blob.length < 2 ^ 32 := by
  unfold explicitWrapper
  split_ifs
  · refine (extractRawFragment_reads cfg.romWrapper).bind fun r hr => ?_
    exact (reads_require _).bind fun _ _ => ensures_ok hr.2
  · exact decompressWrapper_reads _ _

/-- The wrapper, the decoded bytes and the patches of an explicit section are read in their
bounds. -/
theorem explicitBody_reads (cfg : ExplicitConfig) :
    ReadsWithin (explicitBody rom patches cfg) fun blob => blob.length < 2 ^ 32 := by
  refine (reads_require _).bind fun _ _ => ?_
  refine (explicitWrapper_reads cfg).bind fun blob hblob => ?_
  exact (patchBlob_reads _ _ _).mono fun patched hpatched => hpatched ▸ hblob

/-- **A section is added without a read out of its body, if and only if** the body fits. -/
theorem addExplicitBody_inBounds_iff (hlength : blob.length < 2 ^ 32) (st : LoadState)
    (cfg : ExplicitConfig) : InBounds (addExplicitBody st cfg blob) ↔ ExplicitFits blob := by
  unfold addExplicitBody
  rw [inBounds_get_bind]
  constructor
  · rintro ⟨offset, hoffset, h⟩
    obtain ⟨hbody, h⟩ := inBounds_getRange_bind.mp h
    have hreloc : relocOffset blob = offset := by rw [relocOffset, hoffset, Option.getD_some]
    refine ⟨romWord_isSome_iff.mp (Option.isSome_iff_exists.mpr ⟨offset, hoffset⟩), ?_, ?_⟩
    · rw [hreloc]
      omega
    · by_contra hfits
      refine h ?_
      dsimp only
      rw [Classical.not_not.mp (mt (parseRelocs_inBounds_iff hlength _ _ _).mp hfits)]
      rfl
  · rintro ⟨hheader, hbody, htable⟩
    obtain ⟨offset, hoffset⟩ := Option.isSome_iff_exists.mp
      (romWord_isSome_iff.mpr (show 0x14 + 4 ≤ blob.length by omega))
    have hreloc : relocOffset blob = offset := by rw [relocOffset, hoffset, Option.getD_some]
    rw [hreloc] at hbody
    refine ⟨offset, hoffset, inBounds_getRange_bind.mpr ⟨by omega, ?_⟩⟩
    rw [← readsWithin_iff_inBounds]
    refine (parseRelocs_reads hlength htable _ _ _).bind fun sect hsect => ?_
    refine (reads_range (by omega)).bind fun entry _ => ?_
    refine (firstReturn_reads fun off hoff => (mem_bodyOffsets hoff).trans hbody).bind
      fun found hfound => ?_
    refine (addImpl_reads ?_ _).bind fun pass _ => ensures_ok trivial
    cases found with
    | none => exact Nat.zero_le _
    | some off => exact (Nat.min_le_right _ _).trans hbody

/-- **The synthesis of the explicit sections reads nothing out of bounds, if and only if** the body of
each section that has its turn fits. -/
theorem addExplicitSections_inBounds_iff (configs : List ExplicitConfig) (st : LoadState) :
    InBounds (addExplicitSections rom patches configs st) ↔
      ∀ visited cfg rest st' blob, configs = visited ++ cfg :: rest →
        visited.foldlM (addExplicit rom patches) st = .ok st' →
        explicitBody rom patches cfg = .ok blob → ExplicitFits blob := by
  have hturn : ∀ st' cfg, addExplicit rom patches st' cfg ≠ .error .outOfBounds ↔
      ∀ blob, explicitBody rom patches cfg = .ok blob → ExplicitFits blob := by
    intro st' cfg
    have hreads : ReadsWithin (explicitBody rom patches cfg) _ := explicitBody_reads cfg
    refine (inBounds_bind_iff hreads.1).trans (forall_congr' fun blob => ?_)
    exact imp_congr_right fun hblob => addExplicitBody_inBounds_iff (hreads.2 blob hblob) st' cfg
  have hloop : configs.foldlM (addExplicit rom patches) st ≠ .error .outOfBounds ↔
      ∀ visited cfg rest st' blob, configs = visited ++ cfg :: rest →
        visited.foldlM (addExplicit rom patches) st = .ok st' →
        explicitBody rom patches cfg = .ok blob → ExplicitFits blob := by
    rw [foldlM_ne_error_iff]
    constructor
    · intro h visited cfg rest st' blob hsplit hvisited
      exact (hturn st' cfg).mp (h visited cfg rest st' hsplit hvisited) blob
    · intro h visited cfg rest st' hsplit hvisited
      exact (hturn st' cfg).mpr fun blob => h visited cfg rest st' blob hsplit hvisited
  unfold addExplicitSections
  split_ifs with hempty
  · refine iff_of_true (inBounds_ok _) ?_
    rintro visited cfg rest st' blob rfl
    simp at hempty
  · rw [inBounds_require_bind, ← hloop]
    constructor
    · intro h
      by_cases hrom : rom = []
      · -- every wrapper is past the end of an empty ROM
        rw [hloop]
        intro visited cfg rest st' blob _ _ hblob
        obtain ⟨_, hwrapper, -⟩ := bind_eq_ok_iff.mp hblob
        rw [require_eq_ok_iff, hrom] at hwrapper
        exact absurd hwrapper (Nat.not_lt_zero _)
      · intro hfault
        refine h hrom ?_
        rw [hfault]
        rfl
    · intro h _
      exact InBounds.bind h fun st' _ => inBounds_ok _

end ExplicitReads

end N64Recomp
