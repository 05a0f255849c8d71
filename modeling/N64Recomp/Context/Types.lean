import N64Recomp.Context.Reloc

/-!
# The context

The data model of the recompiler: everything that was parsed out of the input program.

## Main definitions

* `Str`: the strings of the program, which are bytes
* `Function`, `JumpTable`, `Section`, `Context`
* `Context.findFunctionByVramSection`, `Context.getReferenceSymbol`, ...: the context's methods
-/

namespace N64Recomp

/-- A `std::string`. -/
abbrev Str := List (BitVec 8)

/-- The bytes of a literal. -/
def ascii (s : String) : Str := s.toList.map fun c => BitVec.ofNat 8 c.toNat

/-- A recompilable function: its addresses, its instruction words as they are stored, and the flags
that decide whether it is emitted. -/
structure Function where
  vram : BitVec 32
  rom : BitVec 32
  entryVram : BitVec 32
  words : List (BitVec 32)
  name : Str
  sectionIndex : BitVec 16
  ignored : Bool
  reimplemented : Bool
  stubbed : Bool
  dispatchEntryVrams : List (BitVec 32)
  /-- The hook at an instruction index; `-1` is the function's start. -/
  functionHooks : Int → Option Str

/-- The constructor: an entry address of `0` stands for the function's start. -/
def Function.mk' (vram rom : BitVec 32) (words : List (BitVec 32)) (name : Str)
    (sectionIndex : BitVec 16) (ignored reimplemented stubbed : Bool) (entryVram : BitVec 32) :
    Function where
  vram
  rom
  entryVram := if entryVram ≠ 0 then entryVram else vram
  words
  name
  sectionIndex
  ignored
  reimplemented
  stubbed
  dispatchEntryVrams := []
  functionHooks := fun _ => none

/-- `func.words.size() * sizeof(func.words[0])`. -/
def Function.byteSize (func : Function) : Nat := func.words.length * 4

/-- A jump table of a `jr`, and the instructions that build its index. -/
structure JumpTable where
  vram : BitVec 32
  addendReg : Fin 32
  rom : BitVec 32
  lwVram : BitVec 32
  adduVram : BitVec 32
  jrVram : BitVec 32
  sectionIndex : BitVec 16
  gotOffset : Option (BitVec 32)
  entries : List (BitVec 32)
  deriving DecidableEq, Repr

structure Section where
  romAddr : BitVec 32
  ramAddr : BitVec 32
  size : BitVec 32
  bssSize : BitVec 32
  functionAddrs : List (BitVec 32)
  relocs : List Reloc
  name : Str
  executable : Bool
  relocatable : Bool
  hasMips32Relocs : Bool
  /-- Only used in mods: the section is not placed into mod memory. -/
  fixedAddress : Bool
  /-- Only used in mods: the section's functions are globally loaded. -/
  globallyLoaded : Bool
  gotRamAddr : Option (BitVec 32)
  deriving DecidableEq, Repr

structure ReferenceSection where
  romAddr : BitVec 32
  ramAddr : BitVec 32
  size : BitVec 32
  relocatable : Bool
  deriving DecidableEq, Repr

structure ReferenceSymbol where
  name : Str
  sectionIndex : BitVec 16
  sectionOffset : BitVec 32
  isFunction : Bool
  deriving DecidableEq, Repr

structure ImportSymbol where
  base : ReferenceSymbol
  dependencyIndex : Nat
  deriving DecidableEq, Repr

structure DependencyEvent where
  dependencyIndex : Nat
  eventName : Str
  deriving DecidableEq, Repr

structure EventSymbol where
  base : ReferenceSymbol
  deriving DecidableEq, Repr

structure Callback where
  functionIndex : Nat
  dependencyEventIndex : Nat
  deriving DecidableEq, Repr

/-- A reference symbol's section, or a special section, and its index there. -/
structure SymbolReference where
  sectionIndex : BitVec 16
  symbolIndex : Nat
  deriving DecidableEq, Repr

structure FunctionReplacement where
  funcIndex : BitVec 32
  originalSectionVrom : BitVec 32
  originalVram : BitVec 32
  flags : BitVec 32
  deriving DecidableEq, Repr

structure FunctionHook where
  funcIndex : BitVec 32
  originalSectionVrom : BitVec 32
  originalVram : BitVec 32
  flags : BitVec 32
  deriving DecidableEq, Repr

/-- The context. A hash map is the function that its lookups compute. -/
structure Context where
  referenceSections : List ReferenceSection
  referenceSymbols : List ReferenceSymbol
  referenceSymbolsByName : Str → Option SymbolReference
  allReferenceSectionsRelocatable : Bool
  sections : List Section
  functions : List Function
  /-- The functions of each section. -/
  sectionFunctions : List (List Nat)
  /-- Every function that is registered at an address. -/
  functionsByVram : BitVec 32 → List Nat
  bssSectionToSection : BitVec 16 → Option (BitVec 16)
  rom : List (BitVec 8)
  skipValidatingReferenceSymbols : Bool
  useLookupForAllFunctionCalls : Bool
  dependencies : List Str
  dependenciesByName : Str → Option Nat
  importSymbols : List ImportSymbol
  dependencyEvents : List DependencyEvent
  dependencyEventsByName : List (Str → Option Nat)
  dependencyImportsByName : List (Str → Option Nat)
  replacements : List FunctionReplacement
  exportedFuncs : List Nat
  callbacks : List Callback
  eventSymbols : List EventSymbol
  hooks : List FunctionHook
  traceMode : Bool

/-- A section of a freshly constructed vector. -/
def Section.empty : Section where
  romAddr := 0
  ramAddr := 0
  size := 0
  bssSize := 0
  functionAddrs := []
  relocs := []
  name := []
  executable := false
  relocatable := false
  hasMips32Relocs := false
  fixedAddress := false
  globallyLoaded := false
  gotRamAddr := none

namespace Context

/-- The context that the default constructor leaves. -/
def empty : Context where
  referenceSections := []
  referenceSymbols := []
  referenceSymbolsByName := fun _ => none
  allReferenceSectionsRelocatable := false
  sections := []
  functions := []
  sectionFunctions := []
  functionsByVram := fun _ => []
  bssSectionToSection := fun _ => none
  rom := []
  skipValidatingReferenceSymbols := true
  useLookupForAllFunctionCalls := false
  dependencies := []
  dependenciesByName := fun _ => none
  importSymbols := []
  dependencyEvents := []
  dependencyEventsByName := []
  dependencyImportsByName := []
  replacements := []
  exportedFuncs := []
  callbacks := []
  eventSymbols := []
  hooks := []
  traceMode := false

variable (context : Context)

/-- A regular reference section is not one of the sections of imports and events. -/
def isRegularReferenceSection (sectionIndex : BitVec 16) : Bool :=
  sectionIndex ≠ sectionImport ∧ sectionIndex ≠ sectionEvent

/-- The reference symbol of a section's symbol index, when there is one. -/
def getReferenceSymbol (sectionIndex : BitVec 16) (symbolIndex : Nat) : Option ReferenceSymbol :=
  if sectionIndex = sectionImport then context.importSymbols[symbolIndex]?.map (·.base)
  else if sectionIndex = sectionEvent then context.eventSymbols[symbolIndex]?.map (·.base)
  else context.referenceSymbols[symbolIndex]?

/-- Whether a reference section is relocatable, when there is such a section. -/
def isReferenceSectionRelocatable (sectionIndex : BitVec 16) : Option Bool :=
  if context.allReferenceSectionsRelocatable then some true
  else if sectionIndex = sectionAbsolute then some false
  else if sectionIndex = sectionImport ∨ sectionIndex = sectionEvent then some true
  else context.referenceSections[sectionIndex.toNat]?.map (·.relocatable)

end Context

/-- Zero-sized symbols in this range are specified by hand, for use with patches. -/
def isManualPatchSymbol (vram : BitVec 32) : Bool := 0x8F000000 ≤ vram ∧ vram < 0x90000000

end N64Recomp
