import N64Recomp.Data.SortedSet
import N64Recomp.Decompressed.Registration

/-!
# The overlay table

The table through which the runtime loads the sections of a program: a row for every section that is
written, with the functions and the relocations of the section by their offsets in it. The names of
the arrays are left out: each row holds its arrays.

## Main definitions

* `DispatchAlias`, `AliasTable`: the interior entries of functions
* `registerInteriorDispatchAliases`, `BlobSection.addDispatchAlias`: the two passes that add them
* `FuncEntry`, `RelocEntry`, `SectionTableEntry`, `OverlayFile`: what is written
* `OverlayInput.write`
-/

namespace N64Recomp

/-! ## Dispatch aliases -/

/-- An interior address of a function that is called like a function. -/
structure DispatchAlias where
  name : Str
  sectionIndex : BitVec 16
  vram : BitVec 32
  rom : BitVec 32
  targetFunctionIndex : Nat
  deriving DecidableEq, Repr

/-- The aliases, and those of each section. -/
structure AliasTable where
  dispatchAliases : List DispatchAlias
  sectionDispatchAliases : List (List Nat)

/-- `dispatch_alias_s{}_{:08X}`. -/
def aliasName (sectionIndex : BitVec 16) (vram : BitVec 32) : Str :=
  ascii "dispatch_alias_s" ++ decimal sectionIndex.toNat ++ ascii "_" ++ hex8 vram

/-- Puts an alias behind the others; the list of the sections grows when it is too short. -/
def AliasTable.push (table : AliasTable) (dispatch : DispatchAlias) : AliasTable :=
  let s := dispatch.sectionIndex.toNat
  let lists := table.sectionDispatchAliases ++
    List.replicate (s + 1 - table.sectionDispatchAliases.length) []
  { dispatchAliases := table.dispatchAliases ++ [dispatch]
    sectionDispatchAliases := lists.modify s (· ++ [table.dispatchAliases.length]) }

/-- `dispatch_entry_vrams.insert`. -/
def Function.insertDispatchEntry (func : Function) (vram : BitVec 32) : Function :=
  { func with dispatchEntryVrams := SortedSet.insertInto vram func.dispatchEntryVrams }

/-- `find_exact_function_in_section`. -/
def Context.findExactFunctionInSection (context : Context) (vram : BitVec 32) (s : Nat) :
    Option Nat :=
  ((context.functionsAt vram).find? fun p => p.2.sectionIndex.toNat = s ∧ p.2.hasBody).map (·.1)

/-- A context and its aliases. -/
structure AliasState where
  context : Context
  aliases : AliasTable

/-- Makes an interior address of a function an entry, and an alias when the section has none there. -/
def AliasState.register (st : AliasState) (i : Nat) (func : Function) (target : BitVec 32) :
    AliasState where
  context := { st.context with
    functions := st.context.functions.modify i (·.insertDispatchEntry target) }
  aliases :=
    if st.aliases.dispatchAliases.any fun dispatch =>
        dispatch.sectionIndex = func.sectionIndex ∧ dispatch.vram = target then st.aliases
    else st.aliases.push {
      name := aliasName func.sectionIndex target
      sectionIndex := func.sectionIndex
      vram := target
      rom := func.rom + (target - func.vram)
      targetFunctionIndex := i }

/-- Whether a branch-and-link target is inside of a function, and no function starts there. -/
def Context.isInteriorTarget (context : Context) (func : Function) (target : BitVec 32) : Bool :=
  target &&& 3 = 0 ∧ func.vram < target ∧ target < func.vram + BitVec.ofNat 32 func.byteSize ∧
    context.findExactFunctionInSection target func.sectionIndex.toNat = none

/-- The loop over the words of a function. `branchLinkTarget` is the target of a word at an address
that is a conditional branch-and-link. -/
def AliasState.registerFunction (branchLinkTarget : BitVec 32 → BitVec 32 → Option (BitVec 32))
    (st : AliasState) (i : Nat) (func : Function) : AliasState :=
  (func.words.zipIdx.filterMap fun p =>
    branchLinkTarget p.1 (func.vram + BitVec.ofNat 32 (4 * p.2))).foldl
      (fun st target =>
        if st.context.isInteriorTarget func target then st.register i func target else st) st

/-- `register_interior_dispatch_aliases`. -/
def registerInteriorDispatchAliases
    (branchLinkTarget : BitVec 32 → BitVec 32 → Option (BitVec 32)) (st : AliasState) :
    AliasState :=
  st.context.functions.zipIdx.foldl (fun st p =>
    if p.1.words = [] ∨ p.1.ignored ∨ p.1.reimplemented ∨ p.1.stubbed then st
    else st.registerFunction branchLinkTarget p.2 p.1) st

/-- `add_dispatch_alias`: an interior entry of a function of a decompressed section. -/
def BlobSection.addDispatchAlias (pass : BlobSection) (aliases : AliasTable)
    (emittedAliasOffsets : List (BitVec 32)) (parent : Nat) (entryOffset : BitVec 32) :
    Option (BlobSection × AliasTable × List (BitVec 32) × Bool) :=
  if entryOffset &&& 3 ≠ 0 ∨ pass.relocOffset ≤ entryOffset ∨ entryOffset ∈ pass.emittedOffsets ∨
      entryOffset ∈ emittedAliasOffsets then
    some (pass, aliases, emittedAliasOffsets, false)
  else do
    let parentFunc ← pass.context.functions[parent]?
    let entryVram := pass.vram + entryOffset
    if entryVram ≤ parentFunc.vram ∨
        parentFunc.vram + BitVec.ofNat 32 parentFunc.byteSize ≤ entryVram then
      return (pass, aliases, emittedAliasOffsets, false)
    else
      return ({ pass with
          context := { pass.context with
            functions := pass.context.functions.modify parent (·.insertDispatchEntry entryVram) } },
        aliases.push {
          name := aliasName pass.sectionIndex entryVram
          sectionIndex := pass.sectionIndex
          vram := entryVram
          rom := pass.syntheticRom + entryOffset
          targetFunctionIndex := parent },
        entryOffset :: emittedAliasOffsets, true)

/-! ## The file -/

structure FuncEntry where
  func : Str
  offset : BitVec 32
  romSize : Nat
  deriving DecidableEq, Repr

structure RelocEntry where
  offset : BitVec 32
  targetSectionOffset : BitVec 32
  targetSection : BitVec 16
  type : RelocType
  deriving DecidableEq, Repr

structure SectionTableEntry where
  romAddr : BitVec 32
  ramAddr : BitVec 32
  size : BitVec 32
  funcs : List FuncEntry
  relocs : List RelocEntry
  index : Nat
  contentHash : BitVec 64
  originalPatternId : BitVec 32
  deriving DecidableEq, Repr

structure OverlayFile where
  sectionTable : List SectionTableEntry
  numSections : Nat
  overlaySectionsByIndex : List Int
  deriving DecidableEq, Repr

/-- What the table is written from. -/
structure OverlayInput where
  context : Context
  aliases : AliasTable
  /-- What the pattern scan knows of a section. -/
  contentHash : Nat → BitVec 64
  originalPatternId : Nat → BitVec 32
  /-- Whether reference symbols were given. -/
  referenceSymbolMode : Bool
  relocatableSectionsOrdered : List Str

/-- Whether a function has a row. -/
def Function.hasRow (func : Function) : Bool :=
  func.reimplemented ∨ (func.name ≠ [] ∧ ¬func.ignored ∧ func.words ≠ [])

/-- The row of a function. -/
def Section.funcEntry (sect : Section) (func : Function) : FuncEntry where
  func := func.name
  offset :=
    let offset := func.rom - sect.romAddr
    if func.entryVram ≠ 0 ∧ func.entryVram ≠ func.vram then offset + (func.entryVram - func.vram)
    else offset
  romSize := if func.reimplemented then 0 else func.byteSize

/-- The row of an alias. -/
def Section.aliasEntry (sect : Section) (dispatch : DispatchAlias) : FuncEntry where
  func := dispatch.name
  offset := dispatch.rom - sect.romAddr
  romSize := 0

/-- `reloc_offset_in_section`, with the base that `infer_section_encoded_vram_base` finds: the one of
two equal functions of that purpose. -/
def relocOffsetInSection (context : Context) (s : Nat) (sect : Section) (address : BitVec 32) :
    BitVec 32 :=
  let encodedBase := inferRecompSectionEncodedVramBase context s
  if encodedBase.toNat ≤ address.toNat ∧ address.toNat < encodedBase.toNat + sect.size.toNat then
    address - encodedBase
  else address - sect.ramAddr

/-- Whether a relocation has a row: the runtime knows the first eight types, and with reference
symbols only those against symbols that move are kept. -/
def Reloc.hasRow (referenceSymbolMode : Bool) (reloc : Reloc) : Bool :=
  reloc.type.toByte.toNat < 8 ∧ (referenceSymbolMode →
    (reloc.referenceSymbol ∧ reloc.targetSection ≠ sectionAbsolute) ∨
      reloc.targetSection = sectionEvent ∨ isManualPatchSymbol reloc.targetSectionOffset)

/-- The row of a relocation. -/
def relocEntry (context : Context) (s : Nat) (sect : Section) (reloc : Reloc) : RelocEntry where
  offset := relocOffsetInSection context s sect reloc.address
  targetSectionOffset :=
    if reloc.targetSection = sectionEvent then reloc.symbolIndex else reloc.targetSectionOffset
  targetSection := reloc.targetSection
  type := reloc.type

namespace OverlayInput

variable (input : OverlayInput)

/-- The functions that a section lists, in their order. -/
def sectionFuncs (s : Nat) : List Nat := input.context.sectionFunctions.getD s []

/-- The aliases of a section, in their order. -/
def sectionAliases (s : Nat) : List Nat := input.aliases.sectionDispatchAliases.getD s []

/-- A section that has nothing to load is not written. -/
def isWritten (s : Nat) (sect : Section) : Bool :=
  sect.hasMips32Relocs ∨ input.sectionFuncs s ≠ [] ∨ input.sectionAliases s ≠ []

/-- The rows of the functions of a section, then those of its aliases. -/
def funcEntries (s : Nat) (sect : Section) : List FuncEntry :=
  ((input.context.functionsOf s).filter (·.hasRow)).map sect.funcEntry ++
    ((input.sectionAliases s).filterMap fun i => input.aliases.dispatchAliases[i]?).map
      sect.aliasEntry

/-- The row of a section. -/
def tableEntry (s : Nat) (sect : Section) : SectionTableEntry where
  romAddr := sect.romAddr
  ramAddr := sect.ramAddr
  size := sect.size
  funcs := input.funcEntries s sect
  relocs := (sect.relocs.filter (·.hasRow input.referenceSymbolMode)).map
    (relocEntry input.context s sect)
  index := s
  contentHash := input.contentHash s
  originalPatternId := input.originalPatternId s

/-- What the loop over the sections keeps. -/
structure Written where
  sectionTable : List SectionTableEntry
  /-- The first row of each name of a relocatable section. -/
  relocatableSectionIndices : Str → Option Nat

/-- A turn of the loop over the sections; the number of the rows is `written_sections`. -/
def writeSection (written : Written) (p : Section × Nat) : Written :=
  if input.isWritten p.2 p.1 then
    { sectionTable := written.sectionTable ++ [input.tableEntry p.2 p.1]
      relocatableSectionIndices := fun name =>
        match written.relocatableSectionIndices name with
        | some row => some row
        | none =>
          if p.1.relocatable ∧ p.1.name = name then some written.sectionTable.length else none }
  else written

def writeSections : Written :=
  input.context.sections.zipIdx.foldl input.writeSection ⟨[], fun _ => none⟩

/-- The row of a name; `*` is a slot without one, and the program exits when there is no row. -/
def overlayIndex (written : Written) (name : Str) : Option Int :=
  if name = ascii "*" then some (-1)
  else (written.relocatableSectionIndices name).map Int.ofNat

/-- The file, when every name of the ordered sections has a row. -/
def write : Option OverlayFile :=
  let written := input.writeSections
  let indices :=
    if input.relocatableSectionsOrdered = [] then some [-1]
    else input.relocatableSectionsOrdered.mapM (overlayIndex written)
  indices.map fun overlaySectionsByIndex => {
    sectionTable := written.sectionTable
    numSections := input.context.sections.length
    overlaySectionsByIndex }

end OverlayInput

end N64Recomp
