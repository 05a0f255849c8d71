import N64Recomp.Decompressed.Registration

/-!
# Symbol files

A symbol file lists the sections of a program with their functions, and the instruction words are
read from the ROM. The entries are what the TOML parser gives: a field is missing, or of another
type, when it is `none`.

## Main definitions

* `SymbolSection`, `SymbolFunction`, `SymbolReloc`: the entries of the file
* `SymbolState`: the context that is built, with the map of names
* `parseSymbolFile`: the sections and functions of the file
-/

namespace N64Recomp

structure SymbolFunction where
  name : Option Str
  vram : Option (BitVec 32)
  size : Option (BitVec 32)
  deriving DecidableEq, Repr

structure SymbolReloc where
  vram : Option (BitVec 32)
  targetVram : Option (BitVec 32)
  type : Option Str
  deriving DecidableEq, Repr

structure SymbolSection where
  rom : Option (BitVec 32)
  vram : Option (BitVec 32)
  size : Option (BitVec 32)
  name : Option Str
  gotAddress : Option (BitVec 32)
  functions : Option (List SymbolFunction)
  relocs : Option (List SymbolReloc)
  deriving DecidableEq, Repr

/-- The context and `functions_by_name`. -/
structure SymbolState where
  context : Context
  functionsByName : Str → Option Nat

/-- The words that are copied from an index of the ROM on; none of them is past its end. -/
def readWords (rom : List (BitVec 8)) (start n : Nat) : Option (List (BitVec 32)) :=
  if 0 < n ∧ rom.length < start + 4 * n then none
  else some ((List.range n).map fun k => hostWord rom (start + 4 * k))

/-- `reloc_type_from_name`. -/
def relocTypeFromName (name : Str) : RelocType :=
  if name = ascii "R_MIPS_16" then .mips16
  else if name = ascii "R_MIPS_32" then .mips32
  else if name = ascii "R_MIPS_REL32" then .rel32
  else if name = ascii "R_MIPS_26" then .mips26
  else if name = ascii "R_MIPS_HI16" then .hi16
  else if name = ascii "R_MIPS_LO16" then .lo16
  else if name = ascii "R_MIPS_GPREL16" then .gprel16
  else .none

section Parse

variable (rom : List (BitVec 8))

/-- The words of a function, when there is a ROM. -/
def symbolWords (fRom funcSize : BitVec 32) : Option (List (BitVec 32)) :=
  if rom = [] then some []
  else if rom.length < (fRom + funcSize).toNat then none
  else readWords rom fRom.toNat (((fRom + funcSize).toNat - fRom.toNat + 3) / 4)

/-- The function of an entry; its size is not checked for alignment. -/
def symbolFunction (sect : Section) (sectionIndex : BitVec 16) (entry : SymbolFunction) :
    Option Function := do
  let name ← entry.name
  let vram ← entry.vram
  let funcSize ← entry.size
  let fRom := vram - sect.ramAddr + sect.romAddr
  guard (vram &&& 0b11 = 0)
  guard (fRom &&& 0b11 = 0)
  let words ← symbolWords rom fRom funcSize
  return {
    vram
    rom := fRom
    entryVram := 0
    words
    name
    sectionIndex
    ignored := false
    reimplemented := false
    stubbed := false
    dispatchEntryVrams := []
    functionHooks := fun _ => none }

/-- Adds a function behind the others, under its name, its address and its section. -/
def SymbolState.addFunction (st : SymbolState) (func : Function) (sectionIndex : Nat) :
    SymbolState :=
  let i := st.context.functions.length
  { context := { (st.context.registerAt func.vram i) with
      functions := st.context.functions ++ [func]
      sectionFunctions := st.context.sectionFunctions.modify sectionIndex (· ++ [i]) }
    functionsByName := fun name => if name = func.name then some i else st.functionsByName name }

/-- A turn of the loop over a section's functions. -/
def addSymbolFunction (sectionIndex : BitVec 16) (st : SymbolState × Section)
    (entry : SymbolFunction) : Option (SymbolState × Section) := do
  let func ← symbolFunction rom st.2 sectionIndex entry
  return (st.1.addFunction func sectionIndex.toNat,
    { st.2 with functionAddrs := st.2.functionAddrs ++ [func.vram] })

/-- The relocation of an entry, of one of four types. -/
def symbolReloc (sect : Section) (sectionIndex : BitVec 16) (entry : SymbolReloc) :
    Option Reloc := do
  let vram ← entry.vram
  let targetVram ← entry.targetVram
  let typeName ← entry.type
  let type := relocTypeFromName typeName
  guard (type = .hi16 ∨ type = .lo16 ∨ type = .mips26 ∨ type = .mips32)
  return {
    address := vram
    targetSectionOffset := targetVram - sect.ramAddr
    symbolIndex := -1
    targetSection := sectionIndex
    type
    referenceSymbol := false }

/-- The relocations of a section that has an array of them, which are read on demand. -/
def symbolRelocs (withRelocs : Bool) (sect : Section) (sectionIndex : BitVec 16)
    (relocs : Option (List SymbolReloc)) : Option Section :=
  match relocs with
  | none => some { sect with relocatable := false }
  | some entries =>
    if withRelocs then
      (entries.mapM (symbolReloc sect sectionIndex)).map fun relocs =>
        { sect with relocatable := true, relocs }
    else some { sect with relocatable := true }

/-- The section of an entry, before its functions are read. -/
def SymbolSection.header (entry : SymbolSection) : Option Section := do
  let romAddr ← entry.rom
  let ramAddr ← entry.vram
  let size ← entry.size
  let name ← entry.name
  return { Section.empty with
    romAddr
    ramAddr
    size
    name
    gotRamAddr := entry.gotAddress
    executable := true }

/-- A turn of the loop over the sections. The index of a section has 16 bits. -/
def addSymbolSection (withRelocs : Bool) (st : SymbolState) (entry : SymbolSection) :
    Option SymbolState := do
  let sectionIndex := BitVec.ofNat 16 st.context.sections.length
  let sect ← entry.header
  let functions ← entry.functions
  let (st, sect) ← functions.foldlM (addSymbolFunction rom sectionIndex) (st, sect)
  let sect ← symbolRelocs withRelocs sect sectionIndex entry.relocs
  return { st with context := { st.context with sections := st.context.sections ++ [sect] } }

/-- The state before the first section. -/
def SymbolState.start (sectionCount : Nat) : SymbolState where
  context := { Context.empty with sectionFunctions := List.replicate sectionCount [] }
  functionsByName := fun _ => none

/-- The sections and functions of a file. -/
def parseSymbolFile (withRelocs : Bool) (file : List SymbolSection) : Option SymbolState :=
  file.foldlM (addSymbolSection rom withRelocs) (SymbolState.start file.length)

end Parse

end N64Recomp
