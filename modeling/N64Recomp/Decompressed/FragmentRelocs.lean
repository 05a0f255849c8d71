import N64Recomp.Context.Rom
import N64Recomp.Context.Types
import N64Recomp.Data.Halves
import Mathlib.Data.List.Sort

/-!
# The relocations of a fragment

The relocation table at the end of a decompressed fragment. An entry gives a type and an offset; the
halves of an address are paired by their places in the table: a `HI16` with the next `LO16`, and a
`LO16` with the last `HI16` before it.

## Main definitions

* `RawReloc`, `rawRelocs`: the entries, with the words they apply to
* `nextLo16`, `precedingHi16`: the pairing
* `fragmentReloc`, `parseFragmentRelocs`: the relocations of the section, which are sorted
* `resolveCrossSectionTargets`: the pass over the sections that moves the pointers
-/

namespace N64Recomp

/-- `translate_stadium_reloc_type`. -/
def translateStadiumRelocType (stadiumType : BitVec 8) : RelocType :=
  match stadiumType.toNat with
  | 2 => .mips32
  | 4 => .mips26
  | 5 => .hi16
  | 6 => .lo16
  | _ => .none

/-- An entry of the table, with the instruction word that it applies to. -/
structure RawReloc where
  type : RelocType
  sectionOffset : BitVec 32
  word : BitVec 32
  deriving DecidableEq, Repr

section Raw

variable (bytes : List (BitVec 8)) (sizeInRam : BitVec 32)

/-- The entry of a table word, when it has a known type and lies in the body. -/
def rawReloc (entry : BitVec 32) : Option RawReloc :=
  let type := translateStadiumRelocType ((entry >>> 24 &&& 0x7F).setWidth 8)
  let sectionOffset := entry &&& 0x00FFFFFF
  if type = .none then none
  else if sizeInRam < sectionOffset + 4 then none
  else (romWord bytes sectionOffset.toNat).map fun word => ⟨type, sectionOffset, word⟩

/-- The first pass: entries of an unknown type, or out of the body, are skipped. -/
def rawRelocs (relocOffset : BitVec 32) (count : Nat) : List RawReloc :=
  (List.range count).filterMap fun i =>
    (romWord bytes (relocOffset.toNat + 4 + (4 * BitVec.ofNat 32 i).toNat)).bind
      (rawReloc bytes sizeInRam)

end Raw

section Pairing

variable (raw : List RawReloc)

/-- The next `LO16` in the table. -/
def nextLo16 (i : Nat) : Option RawReloc := (raw.drop (i + 1)).find? (·.type = .lo16)

/-- The last `HI16` before an entry. -/
def precedingHi16 (i : Nat) : Option RawReloc := (raw.take i).reverse.find? (·.type = .hi16)

/-- The address that a pair of instructions computes at link time. -/
def combinedAddress (hi lo : RawReloc) : BitVec 32 :=
  (immediateOf hi.word <<< 16) + signedImmediateOf lo.word

variable (sectionVram : BitVec 32)

/-- The target of an entry, from the section's start; `0` for a half without a partner. -/
def fragmentOffset (i : Nat) (rr : RawReloc) : BitVec 32 :=
  match rr.type with
  | .mips32 => rr.word - sectionVram
  | .mips26 => ((sectionVram &&& 0xF0000000) ||| ((rr.word &&& 0x03FFFFFF) <<< 2)) - sectionVram
  | .hi16 => ((nextLo16 raw i).map fun lo => combinedAddress rr lo - sectionVram).getD 0
  | .lo16 => ((precedingHi16 raw i).map fun hi => combinedAddress hi rr - sectionVram).getD 0
  | _ => 0

variable (sectionIndex : BitVec 16)

/-- The relocation of an entry. -/
def fragmentReloc (i : Nat) (rr : RawReloc) : Reloc where
  address := sectionVram + rr.sectionOffset
  targetSectionOffset := fragmentOffset raw sectionVram i rr
  symbolIndex := 0xFFFFFFFF
  targetSection := sectionIndex
  type := rr.type
  referenceSymbol := false

/-- The second pass, in the order of the table. -/
def tableRelocs : List Reloc := raw.mapIdx (fragmentReloc raw sectionVram sectionIndex)

end Pairing

/-- `"FRAGMENT"`, at offset 8 of the header. -/
def hasFragmentMagic (bytes : List (BitVec 8)) : Bool :=
  (bytes.drop 8).take 8 = ascii "FRAGMENT"

/-- The entries of the table that the header points to; `none` is a malformed header. -/
def fragmentTable (bytes : List (BitVec 8)) : Option (List RawReloc) := do
  guard (0x20 ≤ bytes.length ∧ hasFragmentMagic bytes)
  let relocOffset ← romWord bytes 0x14
  let sizeInRam ← romWord bytes 0x1C
  guard (relocOffset.toNat ≤ bytes.length ∧ sizeInRam.toNat ≤ bytes.length)
  guard ((relocOffset + 4).toNat ≤ bytes.length)
  let count ← romWord bytes relocOffset.toNat
  guard ((relocOffset + 4).toNat + 4 * count.toNat ≤ bytes.length)
  return rawRelocs bytes sizeInRam relocOffset count.toNat

/-- `parse_fragment_relocs`. The order that `std::sort` gives to relocations of one address is not
specified, and is taken as their order in the table. -/
def parseFragmentRelocs (bytes : List (BitVec 8)) (sectionVram : BitVec 32)
    (sectionIndex : BitVec 16) (sectionOut : Section) : Option Section :=
  (fragmentTable bytes).map fun raw =>
    { sectionOut with
      relocs := (sectionOut.relocs ++ tableRelocs raw sectionVram sectionIndex).insertionSort
        fun a b => a.address ≤ b.address
      hasMips32Relocs := sectionOut.hasMips32Relocs || raw.any (·.type = .mips32) }

/-! ### Pointers into other sections -/

/-- Whether a section, other than an empty one, has an address. -/
def Section.covers (sect : Section) (target : BitVec 32) : Bool :=
  sect.size ≠ 0 && decide (sect.ramAddr ≤ target ∧ target < sect.ramAddr + sect.size)

/-- A pointer is moved to the first section that has its target. -/
def retargetPointer (sections : List Section) (sect : Section) (reloc : Reloc) : Reloc :=
  let target := sect.ramAddr + reloc.targetSectionOffset
  if reloc.type ≠ .mips32 then reloc
  else
    match sections.findIdx? (·.covers target) with
    | some i => { reloc with
        targetSection := BitVec.ofNat 16 i
        targetSectionOffset := target - (sections.getD i Section.empty).ramAddr }
    | none => reloc

/-- `resolve_cross_section_targets`, for the sections from an index on. -/
def resolveCrossSectionTargets (sections : List Section) (firstAddedIndex : Nat) : List Section :=
  sections.mapIdx fun i sect =>
    if firstAddedIndex ≤ i then
      { sect with relocs := sect.relocs.map (retargetPointer sections sect) }
    else sect

end N64Recomp
