import N64Recomp.Elf.SectionRelocs
import N64Recomp.SymbolFile.Parse

/-!
# The symbols of an ELF file

The functions that the symbol table of an ELF file gives, and the functions that are added by hand
behind them. Four indices of the context are filled on the way: the functions by address, those by
name, those of each section, and the addresses of each section's functions. The reading of the ELF
file itself is not modelled: a symbol table is its entries.

## Main definitions

* `SymtabEntry`, `SymbolConfig`, `SymbolLists`: the symbols, and what is configured for them
* `ElfSections`: what the sections of the file were read into
* `FunctionEntry`, `Context.enter`: the one way in which a function gets into the context
* `readSymbols`, `addManualFunctions`: the two passes
-/

namespace N64Recomp

/-- A symbol, with all that its table gives. -/
structure SymtabEntry where
  name : Str
  value : BitVec 64
  size : BitVec 64
  bind : BitVec 8
  type : BitVec 8
  other : BitVec 8
  sectionIndex : BitVec 16
  deriving DecidableEq, Repr

/-- The symbol types of functions, of untyped labels and of objects. -/
def sttNotype : BitVec 8 := 0
def sttObject : BitVec 8 := 1
def sttFunc : BitVec 8 := 2

/-- The binding of local symbols. -/
def stbLocal : BitVec 8 := 0

/-- The visibility of internal symbols. -/
def stvInternal : BitVec 8 := 1

/-- What the configuration says about symbols. -/
structure SymbolConfig where
  manuallySizedFuncs : Str → Option (BitVec 64)
  hasEntrypoint : Bool
  entrypointAddress : BitVec 32
  useAbsoluteSymbols : Bool

/-- The lists of names that the recompiler comes with. -/
structure SymbolLists where
  reimplementedFuncs : Str → Bool
  ignoredFuncs : Str → Bool
  renamedFuncs : Str → Bool

structure DataSymbol where
  vram : BitVec 32
  name : Str
  deriving DecidableEq, Repr

/-- What the sections of the file were read into: a context without functions. -/
structure ElfSections where
  context : Context
  /-- `get_address()` of a section of the file. -/
  address : BitVec 16 → BitVec 64
  /-- `bss_section_index` of each section, which is `0xFFFF` when there is none. -/
  bssSectionIndex : List (BitVec 16)
  functions_eq : context.functions = []
  functionsByVram_eq : context.functionsByVram = fun _ => []
  sectionFunctions_eq : context.sectionFunctions = List.replicate context.sections.length []
  functionAddrs_eq : ∀ sect ∈ context.sections, sect.functionAddrs = []
  /-- The header of the file counts its sections with 16 bits. -/
  length_lt : context.sections.length < 2 ^ 16

/-- The context that is built, with the maps that are kept besides it. -/
structure ElfState extends SymbolState where
  dataSyms : BitVec 16 → List DataSymbol
  foundEntrypoint : Bool

/-! ## Entering a function -/

/-- A function, and where its index and its address are put. -/
structure FunctionEntry where
  func : Function
  /-- The address that `functions_by_vram` lists the function under. -/
  listedAt : BitVec 32
  sectionIndex : Nat
  /-- What is pushed to the `function_addrs` of the section. -/
  addr : Option (BitVec 32)
  /-- Whether the function is pushed to the section's `section_functions`. -/
  listed : Bool

/-- Puts a function behind the others. -/
def Context.enter (context : Context) (entry : FunctionEntry) : Context :=
  let i := context.functions.length
  { context.registerAt entry.listedAt i with
    functions := context.functions ++ [entry.func]
    sectionFunctions :=
      if entry.listed then context.sectionFunctions.modify entry.sectionIndex (· ++ [i])
      else context.sectionFunctions
    sections := context.sections.modify entry.sectionIndex fun sect =>
      { sect with functionAddrs := sect.functionAddrs ++ entry.addr.toList } }

/-! ## The symbol table -/

section Symbols

variable (config : SymbolConfig)

/-- An absolute symbol becomes a function without instructions, when that is enabled. -/
def SymbolConfig.isAbsolute (sym : SymtabEntry) : Bool :=
  sym.sectionIndex = shnAbs ∧ config.useAbsoluteSymbols

/-- The entry point by its value, where the signed address is extended to 64 bits. -/
def SymbolConfig.isEntryValue (sym : SymtabEntry) : Bool :=
  config.hasEntrypoint ∧ sym.value = config.entrypointAddress.signExtend 64 ∧ sym.type = sttFunc

/-- The entry point gets a name, and a size that covers it. -/
def SymbolConfig.nameEntry (sym : SymtabEntry) : SymtabEntry :=
  if config.isEntryValue sym then { sym with size := 0x50, name := ascii "recomp_entrypoint" }
  else sym

/-- A configured size makes the symbol a function. -/
def SymbolConfig.resize (sym : SymtabEntry) : SymtabEntry :=
  match config.manuallySizedFuncs sym.name with
  | some size => { sym with size, type := sttFunc }
  | none => sym

/-- A symbol of a section, with the flags of the function that it becomes. -/
structure FunctionSymbol extends SymtabEntry where
  ignored : Bool
  reimplemented : Bool
  deriving DecidableEq, Repr

variable (lists : SymbolLists) (dumpingContext : Bool)

/-- Reimplemented and ignored functions get a suffix, unless the context is dumped. -/
def SymbolLists.suffix (sym : SymtabEntry) : FunctionSymbol :=
  if !dumpingContext && lists.reimplementedFuncs sym.name then
    { sym with name := sym.name ++ ascii "_recomp", ignored := true, reimplemented := true }
  else if !dumpingContext && lists.ignoredFuncs sym.name then
    { sym with name := sym.name ++ ascii "_recomp", ignored := true, reimplemented := false }
  else { sym with ignored := false, reimplemented := false }

/-- A symbol of a section, up to the test whether it becomes a function. -/
def prepareSymbol (sym : SymtabEntry) : FunctionSymbol :=
  lists.suffix dumpingContext (config.resize (config.nameEntry sym))

/-- Functions, untyped labels and objects can be called. -/
def FunctionSymbol.makesFunction (sym : FunctionSymbol) : Bool :=
  sym.ignored ∨ sym.type = sttFunc ∨ sym.type = sttNotype ∨ sym.type = sttObject

/-- Renamed functions get a suffix, and are not ignored. -/
def SymbolLists.rename (sym : FunctionSymbol) : FunctionSymbol :=
  if !dumpingContext && lists.renamedFuncs sym.name then
    { sym with name := sym.name ++ ascii "_recomp", ignored := false }
  else sym

/-- The entry point by its ROM address. -/
def SymbolConfig.isEntryRom (romAddress : BitVec 32) (sym : FunctionSymbol) : Bool :=
  config.hasEntrypoint ∧ romAddress = 0x1000 ∧ sym.type = sttFunc

/-- `num_instructions`: only functions have a size. -/
def SymbolConfig.numInstructions (romAddress : BitVec 32) (sym : FunctionSymbol) : BitVec 32 :=
  if config.isEntryRom romAddress sym ∧ sym.size = 0 then 0x50 / 4
  else if sym.type = sttFunc then (sym.size / 4).setWidth 32
  else 0

/-- Local symbols are told apart by their ROM addresses. -/
def SymbolConfig.functionName (romAddress : BitVec 32) (sym : FunctionSymbol) : Str :=
  let name := if config.isEntryRom romAddress sym then ascii "recomp_entrypoint" else sym.name
  if sym.bind = stbLocal then name ++ ascii "_" ++ hex8 romAddress else name

variable (elf : ElfSections)

/-- The ROM address of a symbol, from its offset in the section of the file. -/
def ElfSections.romAddress (sect : Section) (sym : SymtabEntry) : BitVec 32 :=
  (sym.value - elf.address sym.sectionIndex).setWidth 32 + sect.romAddr

/-- The function of an absolute symbol. -/
def absoluteEntry (sym : SymtabEntry) : FunctionEntry where
  func := Function.mk' (sym.value.setWidth 32) 0 [] sym.name 0 true false false 0
  listedAt := sym.value.setWidth 32
  sectionIndex := 0
  addr := none
  listed := false

/-- The function of a symbol of a section. Its address is put into the indices before the entry point
is recognised. -/
def symbolEntry (context : Context) (sym : FunctionSymbol) : Option FunctionEntry := do
  let sect ← context.sections[sym.sectionIndex.toNat]?
  let vram := sym.value.setWidth 32
  let romAddress := elf.romAddress sect sym.toSymtabEntry
  let numInstructions := config.numInstructions romAddress sym
  let words ← readWords context.rom romAddress.toNat numInstructions.toNat
  return {
    func := Function.mk' (if config.isEntryRom romAddress sym then config.entrypointAddress else vram)
      romAddress words (config.functionName romAddress sym) sym.sectionIndex sym.ignored
      sym.reimplemented false 0
    listedAt := vram
    sectionIndex := sym.sectionIndex.toNat
    addr := some vram
    listed := 0 < numInstructions }

/-- `bss_section_to_target_section`: the last section that has a bss section. -/
def ElfSections.bssTarget (sectionIndex : BitVec 16) : Option (BitVec 16) :=
  ((elf.bssSectionIndex.zipIdx.filter fun p => p.1 ≠ 0xFFFF ∧ p.1 = sectionIndex).getLast?).map
    fun p => BitVec.ofNat 16 p.2

/-- What is no function with instructions becomes a data symbol, when the context is dumped. -/
def ElfState.addDataSymbol (st : ElfState) (sym : SymtabEntry) (recordedSymbol : Bool) : ElfState :=
  if !recordedSymbol && dumpingContext && !sym.name.isEmpty && sym.other &&& 3 ≠ stvInternal then
    let target := if sym.sectionIndex = shnAbs then sectionAbsolute else sym.sectionIndex
    let target := (elf.bssTarget target).getD target
    { st with dataSyms := fun s =>
        if s = target then st.dataSyms s ++ [⟨sym.value.setWidth 32, sym.name⟩] else st.dataSyms s }
  else st

/-- A symbol of a section of the file. -/
def ElfState.readDefined (st : ElfState) (sym : SymtabEntry) : Option ElfState := do
  -- the entry point is ambiguous
  guard (¬(config.isEntryValue sym ∧ st.foundEntrypoint))
  let found := st.foundEntrypoint || config.isEntryValue sym
  let sym := prepareSymbol config lists dumpingContext sym
  if sym.makesFunction then
    let entry ← symbolEntry config elf st.context (lists.rename dumpingContext sym)
    let name := entry.func.name
    let i := st.context.functions.length
    let st : ElfState := { st with
      context := st.context.enter entry
      functionsByName := fun a => if a = name then some i else st.functionsByName a
      foundEntrypoint := found || config.isEntryRom entry.func.rom sym }
    return st.addDataSymbol dumpingContext elf { sym.toSymtabEntry with name } entry.listed
  else
    let st : ElfState := { st with foundEntrypoint := found }
    return st.addDataSymbol dumpingContext elf sym.toSymtabEntry false

/-- A turn of the loop of `read_symbols`. -/
def readSymbol (st : ElfState) (sym : SymtabEntry) : Option ElfState :=
  if config.isAbsolute sym then some { st with context := st.context.enter (absoluteEntry sym) }
  else if sym.sectionIndex.toNat < st.context.sections.length then
    st.readDefined config lists dumpingContext elf sym
  else some (st.addDataSymbol dumpingContext elf sym false)

/-- The state before the first symbol. -/
def ElfSections.start : ElfState where
  context := elf.context
  functionsByName := fun _ => none
  dataSyms := fun _ => []
  foundEntrypoint := false

/-- The loop of `read_symbols`; the entry point that it returns is in the state. -/
def readSymbols (syms : List SymtabEntry) : Option ElfState :=
  syms.foldlM (readSymbol config lists dumpingContext elf) elf.start

end Symbols

/-! ## Manual functions -/

structure ManualFunction where
  funcName : Str
  sectionName : Str
  vram : BitVec 32
  size : BitVec 32
  deriving DecidableEq, Repr

/-- The first section of the name. -/
def ManualFunction.sectionIn (manual : ManualFunction) (sections : List Section) : Option Nat :=
  sections.findIdx? (·.name = manual.sectionName)

/-- The `i`-th function, when it is added by hand. -/
def manualEntry (context : Context) (i : Nat) (manual : ManualFunction) : Option FunctionEntry := do
  let sectionIndex ← manual.sectionIn context.sections
  let sect ← context.sections[sectionIndex]?
  let sectionOffset := manual.vram - sect.ramAddr
  let words ← readWords context.rom (sect.romAddr.toNat + sectionOffset.toNat)
    (manual.size.toNat / 4)
  return {
    func := Function.mk' manual.vram (sectionOffset + sect.romAddr) words manual.funcName
      (BitVec.ofNat 16 sectionIndex) false false false 0
    listedAt := manual.vram
    sectionIndex := sectionIndex
    addr := some (BitVec.ofNat 32 i)
    listed := true }

/-- A turn of the loop of `add_manual_functions`. -/
def addManualFunction (st : SymbolState) (manual : ManualFunction) : Option SymbolState := do
  let entry ← manualEntry st.context st.context.functions.length manual
  guard (st.functionsByName manual.funcName = none)
  guard (manual.size &&& 0b11 = 0)
  let i := st.context.functions.length
  return {
    context := st.context.enter entry
    functionsByName := fun a => if a = manual.funcName then some i else st.functionsByName a }

/-- `add_manual_functions`. -/
def addManualFunctions (st : SymbolState) (manuals : List ManualFunction) : Option SymbolState :=
  manuals.foldlM addManualFunction st

end N64Recomp
