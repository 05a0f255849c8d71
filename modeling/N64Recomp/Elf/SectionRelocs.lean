import Mathlib.Data.List.Sort
import N64Recomp.Context.Rom
import N64Recomp.Data.Halves
import N64Recomp.Context.Types

/-!
# The relocations of an ELF section

The resolution of an ELF relocation table into the relocations of a section: the entries are read in
table order, with the pairing of `HI16` and `LO16` entries, then sorted by address, and the pairs
against fixed reference sections are folded into the instructions. The reading of the ELF file itself
is not modelled: a table is its entries and the symbols they name.

## Main definitions

* `ElfRel`, `RelocTable`: the entries of a table
* `resolveSymbol`: the target of an entry
* `parseEntry`, `parseEntries`: the loop over the entries
* `bakeReloc`, `bakeRelocs`: the folding into the instructions
* `parseSectionRelocs`
-/

namespace N64Recomp

/-- A symbol, as the symbol table gives it. -/
structure ElfSymbol where
  name : Str
  sectionIndex : BitVec 16
  deriving DecidableEq, Repr

/-- An entry of a relocation table. -/
structure ElfRel where
  offset : BitVec 32
  symbol : BitVec 32
  type : RelocType
  deriving DecidableEq, Repr

/-- A relocation table, the symbols that it names, and the section it belongs to. -/
structure RelocTable where
  entries : List ElfRel
  symbolAt : BitVec 32 → ElfSymbol
  sectionIndex : Nat
  /-- `section_out.bss_section_index`, which is `0xFFFF` when there is none. -/
  bssSectionIndex : BitVec 16

/-- Why the table is refused; `outOfBounds` is a read outside of a table or of the ROM. -/
inductive RelocError
  | undefinedSymbol (name : Str)
  | relocatableTarget (name : Str)
  | unknownSection (relocIndex : Nat) (name : Str) (sectionIndex : BitVec 16)
  | pairedDifferentSymbols (relocIndex : Nat)
  | unpairedHi16 (relocIndex : Nat)
  | hi16DifferentSymbol (relocIndex : Nat)
  | outOfBounds
  deriving DecidableEq, Repr

/-- The ELF section indices of undefined and of absolute symbols. -/
def shnUndef : BitVec 16 := 0
def shnAbs : BitVec 16 := 0xFFF1

/-- `get_reference_section_vram`, when there is such a section. -/
def Context.getReferenceSectionVram (context : Context) (sectionIndex : BitVec 16) :
    Option (BitVec 32) :=
  if sectionIndex = sectionAbsolute then some 0
  else if !Context.isRegularReferenceSection sectionIndex then some 0
  else context.referenceSections[sectionIndex.toNat]?.map (·.ramAddr)

/-! ### The target of an entry -/

/-- What a symbol stands for. -/
structure SymbolTarget where
  referenceSymbol : Bool
  targetSection : BitVec 16
  symbolIndex : BitVec 32
  /-- `rel_symbol_offset` -/
  symbolOffset : BitVec 32
  /-- `rel_section_vram` -/
  sectionVram : BitVec 32
  deriving DecidableEq, Repr

section Table

variable (context : Context) (sect : Section) (table : RelocTable)

/-- The section index of a symbol; the section's own bss belongs to the section. -/
def symbolSection (symbol : BitVec 32) : BitVec 16 :=
  if (table.symbolAt symbol).sectionIndex = table.bssSectionIndex then
    BitVec.ofNat 16 table.sectionIndex
  else (table.symbolAt symbol).sectionIndex

/-- The target of an entry's symbol. -/
def resolveSymbol (relocIndex : Nat) (rel : ElfRel) : Except RelocError SymbolTarget :=
  let name := (table.symbolAt rel.symbol).name
  let sectionIndex := symbolSection table rel.symbol
  if sectionIndex = shnUndef then
    match context.referenceSymbolsByName name with
    | none => .error (.undefinedSymbol name)
    | some ref =>
      match context.getReferenceSymbol ref.sectionIndex ref.symbolIndex,
        context.isReferenceSectionRelocatable ref.sectionIndex with
      | some symbol, some relocatable =>
        if rel.type = .mips32 ∧ relocatable then .error (.relocatableTarget name)
        else .ok ⟨true, ref.sectionIndex, BitVec.ofNat 32 ref.symbolIndex, symbol.sectionOffset, 0⟩
      | _, _ => .error .outOfBounds
  else if sectionIndex = shnAbs then .ok ⟨false, sectionAbsolute, rel.symbol, 0, 0⟩
  else
    match context.sections[sectionIndex.toNat]? with
    | none => .error (.unknownSection relocIndex name sectionIndex)
    | some target => .ok ⟨false, sectionIndex, rel.symbol, 0, target.ramAddr⟩

/-- Where an address of the section is in the ROM. -/
def romAddrOf (address : BitVec 32) : Nat := (sect.romAddr + address - sect.ramAddr).toNat

def readRom (rom : List (BitVec 8)) (address : BitVec 32) : Except RelocError (BitVec 32) :=
  match romWord rom (romAddrOf sect address) with
  | some word => .ok word
  | none => .error .outOfBounds

/-! ### Pairing -/

/-- One entry of the search for the nearest earlier `HI16` of a `LO16`'s symbol, by address. The
state is the best entry so far: its offset and its immediate. -/
def nearestHi16Step (rom : List (BitVec 8)) (lo : ElfRel) (best : Option (BitVec 32 × BitVec 32))
    (hi : ElfRel) : Except RelocError (Option (BitVec 32 × BitVec 32)) :=
  if hi.type = .hi16 ∧ hi.symbol = lo.symbol ∧ hi.offset < lo.offset ∧
      (best.all fun b => b.1 < hi.offset) then
    (readRom sect rom hi.offset).map fun word => some (hi.offset, immediateOf word)
  else .ok best

/-- `find_nearest_preceding_hi16` -/
def findNearestPrecedingHi16 (rom : List (BitVec 8)) (lo : ElfRel) :
    Except RelocError (Option (BitVec 32)) :=
  (table.entries.foldlM (nearestHi16Step sect rom lo) none).map fun best => best.map (·.2)

/-- The state of the loop: the ROM, the relocations so far, and the current run of `HI16` entries. -/
structure PairState where
  rom : List (BitVec 8)
  relocs : List Reloc
  prevHiCount : Nat
  prevHiImmediate : BitVec 32
  prevHiSymbol : BitVec 32

/-- The relocation of an entry with its target, at an offset. -/
def makeReloc (rel : ElfRel) (target : SymbolTarget) (offset : BitVec 32) : Reloc where
  address := rel.offset
  targetSectionOffset := offset
  symbolIndex := target.symbolIndex
  targetSection := target.targetSection
  type := rel.type
  referenceSymbol := target.referenceSymbol

/-- A held `HI16`, now that the low half is known. -/
def finaliseHi16 (target : SymbolTarget) (loWord : BitVec 32) (hi : Reloc) : Reloc :=
  { hi with targetSectionOffset :=
      hi.targetSectionOffset + signedImmediateOf loWord + target.symbolOffset - target.sectionVram }

/-- The immediate that a `LO16` without a run is paired with by address. -/
def nearestHi16 (s : PairState) (rel : ElfRel) : Except RelocError (Option (BitVec 32)) :=
  if s.prevHiCount = 0 then findNearestPrecedingHi16 sect table s.rom rel else .ok none

/-- A `LO16` finalises the run before it; without a run it is paired by address, and without a
`HI16` there it takes the one seen last. -/
def parseLo16 (s : PairState) (rel : ElfRel) (target : SymbolTarget) (word : BitVec 32) :
    Except RelocError PairState := do
  let nearest ← nearestHi16 sect table s rel
  let hiImmediate := nearest.getD s.prevHiImmediate
  let offset := (hiImmediate <<< 16) + signedImmediateOf word + target.symbolOffset -
    target.sectionVram
  if s.prevHiCount ≠ 0 ∧ s.prevHiSymbol ≠ rel.symbol then
    .error (.pairedDifferentSymbols s.relocs.length)
  else
    let start := s.relocs.length - s.prevHiCount
    return { s with
      relocs := s.relocs.take start ++ (s.relocs.drop start).map (finaliseHi16 target word) ++
        [makeReloc rel target offset]
      prevHiCount := 0 }

/-- A `HI16` is held until its `LO16` comes. -/
def parseHi16 (s : PairState) (rel : ElfRel) (target : SymbolTarget) (word : BitVec 32) :
    Except RelocError PairState :=
  let relocs := s.relocs ++ [makeReloc rel target (immediateOf word <<< 16)]
  if s.prevHiCount = 0 then
    .ok { s with
      relocs
      prevHiCount := 1
      prevHiImmediate := immediateOf word
      prevHiSymbol := rel.symbol }
  else if s.prevHiSymbol ≠ rel.symbol then .error (.hi16DifferentSymbol s.relocs.length)
  else .ok { s with relocs, prevHiCount := s.prevHiCount + 1 }

/-- The offset of an entry of another type. -/
def otherOffset (rel : ElfRel) (target : SymbolTarget) (word : BitVec 32) : BitVec 32 :=
  match rel.type with
  | .mips32 => target.symbolOffset
  | .mips26 =>
    let immediate := (word &&& 0x3FFFFFF) <<< 2
    if target.referenceSymbol then immediate + target.symbolOffset - target.sectionVram
    else immediate + target.symbolOffset + (sect.ramAddr &&& 0xF0000000) - target.sectionVram
  | _ => 0

/-- A pointer to a reference symbol is resolved in place. -/
def patchMips32 (rom : List (BitVec 8)) (rel : ElfRel) (target : SymbolTarget) (word : BitVec 32) :
    Except RelocError (List (BitVec 8)) :=
  if rel.type = .mips32 ∧ target.referenceSymbol then
    match context.getReferenceSectionVram target.targetSection with
    | none => .error .outOfBounds
    | some vram =>
      .ok (setRomWord rom (romAddrOf sect rel.offset) (word + vram + target.symbolOffset))
  else .ok rom

/-- An entry of another type may not interrupt a run. -/
def parseOther (s : PairState) (rel : ElfRel) (target : SymbolTarget) (word : BitVec 32) :
    Except RelocError PairState :=
  if s.prevHiCount ≠ 0 then .error (.unpairedHi16 (s.relocs.length - 1))
  else
    (patchMips32 context sect s.rom rel target word).map fun rom =>
      { s with
        rom
        relocs := s.relocs ++ [makeReloc rel target (otherOffset sect rel target word)] }

/-- One turn of the loop. -/
def parseEntry (s : PairState) (rel : ElfRel) : Except RelocError PairState := do
  let word ← readRom sect s.rom rel.offset
  let target ← resolveSymbol context table s.relocs.length rel
  match rel.type with
  | .lo16 => parseLo16 sect table s rel target word
  | .hi16 => parseHi16 s rel target word
  | _ => parseOther context sect s rel target word

def PairState.start : PairState where
  rom := context.rom
  relocs := []
  prevHiCount := 0
  prevHiImmediate := 0
  prevHiSymbol := 0xFFFFFFFF

/-- The loop over the entries. -/
def parseEntries : Except RelocError PairState :=
  table.entries.foldlM (parseEntry context sect table) (PairState.start context)

/-! ### Folding -/

/-- A `HI16` or `LO16` against a fixed reference section is folded into its instruction, and
dropped. -/
def bakeReloc (rom : List (BitVec 8)) (reloc : Reloc) :
    Except RelocError (List (BitVec 8) × Reloc) :=
  if reloc.referenceSymbol ∧ (reloc.type = .hi16 ∨ reloc.type = .lo16) then
    match context.isReferenceSectionRelocatable reloc.targetSection with
    | none => .error .outOfBounds
    | some true => .ok (rom, reloc)
    | some false =>
      match romWord rom (romAddrOf sect reloc.address),
        context.getReferenceSectionVram reloc.targetSection with
      | some word, some vram =>
        let full := reloc.targetSectionOffset + vram
        let imm := if reloc.type = .hi16 then highHalf full else lowHalf full
        .ok (setRomWord rom (romAddrOf sect reloc.address) (word ||| imm),
          { reloc with type := .none, referenceSymbol := false, symbolIndex := 0xFFFFFFFF })
      | _, _ => .error .outOfBounds
  else .ok (rom, reloc)

/-- The folding of the relocations in order. -/
def bakeRelocs : List (BitVec 8) → List Reloc → Except RelocError (List (BitVec 8) × List Reloc)
  | rom, [] => .ok (rom, [])
  | rom, reloc :: relocs => do
    let (rom, baked) ← bakeReloc context sect rom reloc
    let (rom, rest) ← bakeRelocs rom relocs
    return (rom, baked :: rest)

/-- `parse_section_relocs`: the ROM and the relocations of the section. The order that `std::sort`
gives to relocations of one address is not specified, and is taken as their order in the table. -/
def parseSectionRelocs : Except RelocError (List (BitVec 8) × List Reloc) := do
  let s ← parseEntries context sect table
  bakeRelocs context sect s.rom (s.relocs.insertionSort fun a b => a.address ≤ b.address)

end Table

end N64Recomp
