import N64Recomp.Data.Except
import N64Recomp.Elf.SectionRelocs

/-!
# The context of a mod

How the context of a mod's ELF file becomes the context that the mod's symbol file is written from.
Sections that are loaded next to each other are merged, the special sections become replacements,
hooks, exports, callbacks and events, and the relocations are rewritten to the merged sections.

## Main definitions

* `ModError`: a mod is rejected, or a table is read outside of its bounds
* `ModState`: what the loop over the sections keeps
* `ModState.placeSection`, `copyFunction`, `copyReloc`, `retargetReloc`
* `buildModContext`
-/

namespace N64Recomp

/-! ## Names -/

def patchSectionName : Str := ascii ".recomp_patch"
def forcedPatchSectionName : Str := ascii ".recomp_force_patch"
def exportSectionName : Str := ascii ".recomp_export"
def eventSectionName : Str := ascii ".recomp_event"
def importSectionPrefix : Str := ascii ".recomp_import."
def callbackSectionPrefix : Str := ascii ".recomp_callback."
def hookSectionPrefix : Str := ascii ".recomp_hook."
def hookReturnSectionPrefix : Str := ascii ".recomp_hook_return."

/-- The names of the mod itself and of the recompiled program. -/
def dependencySelf : Str := ascii "."
def dependencyBaseRecomp : Str := ascii "*"

def isAlpha (c : BitVec 8) : Bool := (0x61 ≤ c ∧ c ≤ 0x7A) ∨ (0x41 ≤ c ∧ c ≤ 0x5A)
def isAlnum (c : BitVec 8) : Bool := isAlpha c ∨ (0x30 ≤ c ∧ c ≤ 0x39)

/-- `validate_mod_id`, where `0x5F` is the underscore. -/
def validateModId : Str → Bool
  | [] => false
  | c :: cs =>
    (c :: cs = dependencySelf ∨ c :: cs = dependencyBaseRecomp) ∨
      ((isAlpha c ∨ c = 0x5F) ∧ cs.all fun c => isAlnum c ∨ c = 0x5F)

/-- The dependency and the event of a callback's target, at its first colon. -/
def splitCallbackTarget (data : Str) : Option (Str × Str) :=
  match data.dropWhile (· ≠ 0x3A) with
  | [] => none
  | _ :: event =>
    let dependency := data.takeWhile (· ≠ 0x3A)
    if validateModId dependency then some (dependency, event) else none

/-! ## The tables of a context -/

namespace Context

variable (context : Context)

/-- `dependencies_by_name.size()`: the two lists have an entry for every dependency. -/
def dependencyCount : Nat := context.dependencyImportsByName.length

/-- `add_dependency`, for a name that is not there. -/
def addDependency (id : Str) : Context :=
  let i := context.dependencyCount
  { context with
    dependencies := context.dependencies ++ [id]
    dependenciesByName := fun name => if name = id then some i else context.dependenciesByName name
    dependencyEventsByName := context.dependencyEventsByName ++ [fun _ => none]
    dependencyImportsByName := context.dependencyImportsByName ++ [fun _ => none] }

/-- `find_dependency`, which creates the two special dependencies. -/
def findDependency (id : Str) : Option (Nat × Context) :=
  match context.dependenciesByName id with
  | some i => some (i, context)
  | none =>
    if id = dependencySelf ∨ id = dependencyBaseRecomp then
      some (context.dependencyCount, context.addDependency id)
    else none

/-- `find_event_symbol`. -/
def findEventSymbol (name : Str) : Option Nat :=
  match context.referenceSymbolsByName name with
  | some ref => if ref.sectionIndex = sectionEvent then some ref.symbolIndex else none
  | none => none

/-- `add_event_symbol`. -/
def addEventSymbol (name : Str) : Context :=
  let i := context.eventSymbols.length
  { context with
    referenceSymbolsByName := fun a =>
      if a = name then some ⟨sectionEvent, i⟩ else context.referenceSymbolsByName a
    eventSymbols := context.eventSymbols ++ [⟨⟨name, sectionEvent, 0, true⟩⟩] }

/-- The event symbol of a name, which is created when there is none. -/
def ensureEventSymbol (name : Str) : Nat × Context :=
  match context.findEventSymbol name with
  | some i => (i, context)
  | none => (context.eventSymbols.length, context.addEventSymbol name)

/-- `find_import_symbol`. -/
def findImportSymbol (name : Str) (dependency : Nat) : Option Nat :=
  (context.dependencyImportsByName[dependency]?).bind (· name)

/-- `add_import_symbol`. -/
def addImportSymbol (name : Str) (dependency : Nat) : Context :=
  let i := context.importSymbols.length
  { context with
    dependencyImportsByName := context.dependencyImportsByName.modify dependency fun names a =>
      if a = name then some i else names a
    importSymbols := context.importSymbols ++ [⟨⟨name, sectionImport, 0, true⟩, dependency⟩] }

/-- The import symbol of a name, which is created when there is none. -/
def ensureImportSymbol (name : Str) (dependency : Nat) : Nat × Context :=
  match context.findImportSymbol name dependency with
  | some i => (i, context)
  | none => (context.importSymbols.length, context.addImportSymbol name dependency)

/-- `add_dependency_event`. -/
def addDependencyEvent (event : Str) (dependency : Nat) : Option (Nat × Context) := do
  let events ← context.dependencyEventsByName[dependency]?
  match events event with
  | some i => return (i, context)
  | none =>
    let i := context.dependencyEvents.length
    return (i, { context with
      dependencyEvents := context.dependencyEvents ++ [⟨dependency, event⟩]
      dependencyEventsByName := context.dependencyEventsByName.modify dependency fun events a =>
        if a = event then some i else events a })

/-- `find_function_by_vram_section`. -/
def findFunctionByVramSection (vram : BitVec 32) (sectionIndex : BitVec 16) : Option Function :=
  ((context.functionsByVram vram).filterMap fun i => context.functions[i]?).find?
    (·.sectionIndex = sectionIndex)

/-- `find_regular_reference_symbol`, with the symbol that it leads to. -/
def findRegularReferenceSymbol (name : Str) : Option (Option ReferenceSymbol) :=
  match context.referenceSymbolsByName name with
  | some ref =>
    if isRegularReferenceSection ref.sectionIndex then
      some (context.getReferenceSymbol ref.sectionIndex ref.symbolIndex)
    else none
  | none => none

/-- `get_reference_section_rom`, when there is such a section. -/
def getReferenceSectionRom (sectionIndex : BitVec 16) : Option (BitVec 32) :=
  if sectionIndex = sectionAbsolute then some 0xFFFFFFFF
  else if !isRegularReferenceSection sectionIndex then some 0xFFFFFFFF
  else context.referenceSections[sectionIndex.toNat]?.map (·.romAddr)

end Context

/-! ## The loop over the sections -/

/-- Why there is no context: the mod is rejected with a message, or a table is read outside of its
bounds. -/
inductive ModError
  | rejected
  | outOfBounds
  deriving DecidableEq, Repr

/-- A read that is inside of its table. -/
def inBounds {α : Type} : Option α → Except ModError α
  | some a => .ok a
  | none => .error .outOfBounds

/-- A result that the mod is rejected without. -/
def orReject {α : Type} : Option α → Except ModError α
  | some a => .ok a
  | none => .error .rejected

/-- What the loop keeps. -/
structure ModState where
  /-- `ret` -/
  out : Context
  /-- `rom_to_ram` of the last section that is in the ROM. -/
  romToRam : BitVec 32
  /-- The section that is written; `none` is `(size_t)-1`. -/
  outputSectionIndex : Option Nat
  /-- `input_section_to_output_section` -/
  sectionMap : Nat → Option Nat

/-- The distance of a section's places in the memory and in the ROM. -/
def Section.romToRam (sect : Section) : BitVec 32 := sect.ramAddr - sect.romAddr

/-- A section that is not in the ROM. -/
def Section.isNoload (sect : Section) : Bool := sect.romAddr = 0xFFFFFFFF

def alignUp16 (value : BitVec 32) : BitVec 32 := (value + 15) &&& ~~~15

/-- A section that is not in the ROM becomes the end of the output section when it is right behind
it. -/
def ModState.placeNoload (st : ModState) (s : Nat) (cur : Section) : ModState :=
  match st.outputSectionIndex with
  | none => st
  | some o =>
    let sectionOut := st.out.sections.getD o Section.empty
    let bssStart := sectionOut.ramAddr + sectionOut.size
    let bssEnd := bssStart + sectionOut.bssSize
    if cur.size ≠ 0 ∧ bssEnd ≤ cur.ramAddr ∧ cur.ramAddr ≤ alignUp16 bssEnd then
      { st with
        out := { st.out with
          sections := st.out.sections.modify o fun sect =>
            { sect with bssSize := cur.ramAddr + cur.size - bssStart } }
        sectionMap := fun i => if i = s then some o else st.sectionMap i }
    else st

/-- `output_section_index`, after it is incremented. -/
def ModState.nextIndex (st : ModState) : Nat :=
  match st.outputSectionIndex with
  | some o => o + 1
  | none => 0

/-- A section of the ROM is merged into the output section, or starts another one. The first section
is merged into none when its distance is `-1`. -/
def ModState.placeSection (st : ModState) (s : Nat) (cur : Section) :
    Except ModError (Nat × ModState) :=
  if st.romToRam = cur.romToRam then do
    let o ← inBounds st.outputSectionIndex
    return (o, { st with
      out := { st.out with
        sections := st.out.sections.modify o fun sect =>
          { sect with size := cur.romAddr + cur.size - sect.romAddr } }
      sectionMap := fun i => if i = s then some o else st.sectionMap i })
  else
    let o := st.nextIndex
    .ok (o, {
      out := { st.out with
        sections := (st.out.sections ++
            List.replicate (o + 1 - st.out.sections.length) Section.empty).modify o fun sect =>
          { sect with romAddr := cur.romAddr, ramAddr := cur.ramAddr, size := cur.size }
        sectionFunctions := st.out.sectionFunctions ++ [[]] }
      romToRam := cur.romToRam
      outputSectionIndex := some o
      sectionMap := fun i => if i = s then some o else st.sectionMap i })

section Input

variable (input : Context)

/-- The function that a special section replaces or hooks, by its name. -/
def originalFunction (name : Str) : Except ModError (BitVec 32 × BitVec 32) := do
  let symbol ← orReject (input.findRegularReferenceSymbol name)
  let symbol ← inBounds symbol
  if symbol.isFunction then
    let vram ← inBounds (input.getReferenceSectionVram symbol.sectionIndex)
    let rom ← inBounds (input.getReferenceSectionRom symbol.sectionIndex)
    return (rom, vram + symbol.sectionOffset)
  else .error .rejected

/-- A replacement for a function of a patch section. -/
def registerPatch (cur : Section) (func : Function) (i : Nat) (out : Context) :
    Except ModError Context :=
  if cur.name = patchSectionName ∨ cur.name = forcedPatchSectionName then do
    let (rom, vram) ← originalFunction input func.name
    return { out with replacements := out.replacements ++
      [⟨BitVec.ofNat 32 i, rom, vram, if cur.name = forcedPatchSectionName then 1 else 0⟩] }
  else .ok out

/-- A hook for a function of a hook section. -/
def registerHook (cur : Section) (i : Nat) (out : Context) : Except ModError Context :=
  if hookSectionPrefix.isPrefixOf cur.name ∨ hookReturnSectionPrefix.isPrefixOf cur.name then do
    let length :=
      if hookSectionPrefix.isPrefixOf cur.name then hookSectionPrefix.length
      else hookReturnSectionPrefix.length
    let (rom, vram) ← originalFunction input (cur.name.drop length)
    return { out with hooks := out.hooks ++
      [⟨BitVec.ofNat 32 i, rom, vram, if hookReturnSectionPrefix.isPrefixOf cur.name then 1 else 0⟩] }
  else .ok out

/-- A function of the export section is exported. -/
def registerExport (cur : Section) (i : Nat) (out : Context) : Context :=
  if cur.name = exportSectionName then { out with exportedFuncs := out.exportedFuncs ++ [i] }
  else out

/-- A callback for a function of a callback section. -/
def registerCallback (cur : Section) (i : Nat) (out : Context) : Except ModError Context :=
  if callbackSectionPrefix.isPrefixOf cur.name then do
    let (dependency, event) ←
      orReject (splitCallbackTarget (cur.name.drop callbackSectionPrefix.length))
    let (dependencyIndex, out) ← orReject (out.findDependency dependency)
    let (eventIndex, out) ← orReject (out.addDependencyEvent event dependencyIndex)
    return { out with callbacks := out.callbacks ++ [⟨i, eventIndex⟩] }
  else .ok out

/-- What the special sections register for a function. -/
def registerFunction (cur : Section) (func : Function) (i : Nat) (out : Context) :
    Except ModError Context := do
  let out ← registerPatch input cur func i out
  let out ← registerHook input cur i out
  registerCallback cur i (registerExport cur i out)

/-- A function is copied to the output section `o`; only exported functions keep their names, and the
number of the words is all that is kept of them. -/
def copyFunction (cur : Section) (o : Nat) (out : Context) (func : Function) :
    Except ModError Context := do
  let i := out.functions.length
  let out ← registerFunction input cur func i out
  return { out with
    sectionFunctions := out.sectionFunctions.modify o (· ++ [i])
    functions := out.functions ++ [Function.mk' func.vram func.rom
      (List.replicate func.words.length 0)
      (if cur.name = exportSectionName then func.name else []) (BitVec.ofNat 16 o)
      false false false 0] }

/-- Puts a relocation behind those of the output section. -/
def Context.pushReloc (out : Context) (o : Nat) (reloc : Reloc) : Context :=
  { out with sections := out.sections.modify o fun sect =>
      { sect with relocs := sect.relocs ++ [reloc] } }

/-- A relocation against a reference symbol: those against fixed sections are written into the ROM,
but for calls. -/
def copyReferenceReloc (cur : Section) (o : Nat) (out : Context) (reloc : Reloc) :
    Except ModError Context := do
  let relocatable ← inBounds (input.isReferenceSectionRelocatable reloc.targetSection)
  let vram ← inBounds (input.getReferenceSectionVram reloc.targetSection)
  if relocatable then return out.pushReloc o reloc
  else
    let target := vram + reloc.targetSectionOffset
    let i := (reloc.address - cur.ramAddr + cur.romAddr).toNat
    let word ← inBounds (romWord out.rom i)
    match reloc.type with
    | .mips32 | .none => return out
    | .mips26 => return out.pushReloc o reloc
    | .hi16 =>
      let high := ((target - (target.setWidth 16).signExtend 32) >>> 16) &&& 0xFFFF
      return { out with rom := setRomWord out.rom i ((word &&& 0xFFFF0000) ||| high) }
    | .lo16 =>
      return { out with
        rom := setRomWord out.rom i ((word &&& 0xFFFF0000) ||| (target &&& 0xFFFF)) }
    | _ => .error .rejected

/-- A call of a symbol of a special section. -/
def specialReloc (cur target : Section) (reloc : Reloc) (sectionIndex : BitVec 16)
    (symbolIndex : Nat) : Reloc where
  address := reloc.address
  targetSectionOffset := reloc.targetSectionOffset + target.ramAddr - cur.ramAddr
  symbolIndex := BitVec.ofNat 32 symbolIndex
  targetSection := sectionIndex
  type := reloc.type
  referenceSymbol := true

/-- A relocation against a section of the mod. Calls of events and of imports become relocations
against their symbols; any other keeps its target until all sections are placed. -/
def copyInternalReloc (cur : Section) (o : Nat) (out : Context) (reloc : Reloc) :
    Except ModError Context := do
  let target ← inBounds input.sections[reloc.targetSection.toNat]?
  if target.name = eventSectionName then
    if reloc.type ≠ .mips26 then .error .rejected
    else
      let func ← orReject (input.findFunctionByVramSection
        (reloc.targetSectionOffset + target.ramAddr) reloc.targetSection)
      let (symbol, out) := out.ensureEventSymbol func.name
      return out.pushReloc o (specialReloc cur target reloc sectionEvent symbol)
  else if importSectionPrefix.isPrefixOf target.name then
    if reloc.type ≠ .mips26 then .error .rejected
    else
      let func ← orReject (input.findFunctionByVramSection
        (reloc.targetSectionOffset + target.ramAddr) reloc.targetSection)
      let (dependency, out) ←
        orReject (out.findDependency (target.name.drop importSectionPrefix.length))
      let (symbol, out) := out.ensureImportSymbol func.name dependency
      return out.pushReloc o (specialReloc cur target reloc sectionImport symbol)
  else if ¬target.isNoload ∧ target.romToRam ≠ cur.romToRam then .error .rejected
  else return out.pushReloc o { reloc with symbolIndex := 0 }

/-- A turn of the loop over the relocations of a section. -/
def copyReloc (cur : Section) (o : Nat) (out : Context) (reloc : Reloc) :
    Except ModError Context :=
  if reloc.type = .none then .ok out
  else if !Context.isRegularReferenceSection reloc.targetSection then .ok (out.pushReloc o reloc)
  else if reloc.referenceSymbol then copyReferenceReloc input cur o out reloc
  else copyInternalReloc input cur o out reloc

/-- The functions that a section lists. -/
def listedFunctions (s : Nat) : Except ModError (List Function) := do
  let indices ← inBounds input.sectionFunctions[s]?
  indices.mapM fun i => inBounds input.functions[i]?

/-- What is copied of a section that is placed. -/
def copySection (s : Nat) (cur : Section) (o : Nat) (out : Context) : Except ModError Context := do
  let funcs ← listedFunctions input s
  if cur.name = eventSectionName then
    -- also the events that are never called
    return funcs.foldl (fun out func => (out.ensureEventSymbol func.name).2) out
  else if importSectionPrefix.isPrefixOf cur.name then return out
  else
    let out ← funcs.foldlM (copyFunction input cur o) out
    cur.relocs.foldlM (copyReloc input cur o) out

/-- A turn of the loop over the sections. -/
def ModState.addSection (st : ModState) (p : Section × Nat) : Except ModError ModState :=
  if p.1.isNoload then .ok (st.placeNoload p.2 p.1)
  else do
    let (o, st) ← st.placeSection p.2 p.1
    let out ← copySection input p.2 p.1 o st.out
    return { st with out }

/-- The state before the first section. -/
def ModState.start : ModState where
  out := { Context.empty with
    rom := input.rom
    sections := [Section.empty]
    dependenciesByName := input.dependenciesByName
    importSymbols := input.importSymbols
    dependencyEvents := input.dependencyEvents
    dependencyEventsByName := input.dependencyEventsByName
    dependencyImportsByName := input.dependencyImportsByName }
  romToRam := 0xFFFFFFFF
  outputSectionIndex := none
  sectionMap := fun _ => none

/-! ## The second pass -/

/-- The target of a relocation inside of the mod, in the output sections. -/
def retargetReloc (st : ModState) (reloc : Reloc) : Except ModError Reloc :=
  if reloc.referenceSymbol then .ok reloc
  else do
    -- the message names the section too
    let inputSection ← inBounds input.sections[reloc.targetSection.toNat]?
    let o ← orReject (st.sectionMap reloc.targetSection.toNat)
    let outputSection ← inBounds st.out.sections[o]?
    return { reloc with
      targetSectionOffset :=
        reloc.targetSectionOffset + inputSection.ramAddr - outputSection.ramAddr
      targetSection := BitVec.ofNat 16 o }

/-- `build_mod_context`. -/
def buildModContext : Except ModError Context := do
  let st ← input.sections.zipIdx.foldlM (ModState.addSection input) (ModState.start input)
  let sections ← st.out.sections.mapM fun sect => do
    let relocs ← sect.relocs.mapM (retargetReloc input st)
    return { sect with relocs }
  return { st.out with sections, referenceSections := input.referenceSections }

end Input

end N64Recomp
