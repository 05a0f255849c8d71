import N64Recomp.RecompModTool.ModTables

/-!
# The relocations of a mod

What the relocations of a mod mean, before and after its sections are merged. The first pass copies a
relocation with its meaning, or with its target when that is in the mod itself; no table is read
outside of its bounds exactly when the targets of the relocations are in the tables.

## Main definitions

* `RelocMeaning`, `inputMeaning`, `Denotes`: what a relocation means in the two contexts
* `ModElf`: what the reading of an ELF file promises
* `RelocInBounds`: the tables that a relocation leads to

## Main results

* `copyReloc_spec`, `copyReloc_inBounds`: a turn of the loop over the relocations
* `copySection_spec`, `copySection_inBounds`: what is copied of a section
-/

namespace N64Recomp

/-! ## Meanings -/

/-- What a relocation means. -/
inductive RelocMeaning
  | address (vram : BitVec 32)
  | symbol (sectionIndex : BitVec 16) (symbolIndex offset : BitVec 32)
  | event (name : Str)
  | importSymbol (dependency name : Str)

/-- What a relocation of the input means: calls into the sections of events and of imports are those
of the functions there. -/
def inputMeaning (input : Context) (reloc : Reloc) : Option RelocMeaning :=
  if reloc.referenceSymbol then
    some (.symbol reloc.targetSection reloc.symbolIndex reloc.targetSectionOffset)
  else if reloc.targetSection = sectionAbsolute then some (.address reloc.targetSectionOffset)
  else do
    let target ← input.sections[reloc.targetSection.toNat]?
    let vram := reloc.targetSectionOffset + target.ramAddr
    let func := input.findFunctionByVramSection vram reloc.targetSection
    if target.name = eventSectionName then func.map (.event ·.name)
    else if importSectionPrefix.isPrefixOf target.name then
      func.map (.importSymbol (target.name.drop importSectionPrefix.length) ·.name)
    else some (.address vram)

/-- What a relocation of the output means. -/
def Denotes (out : Context) (reloc : Reloc) : RelocMeaning → Prop
  | .address vram => reloc.referenceSymbol = false ∧
      ((reloc.targetSection = sectionAbsolute ∧ reloc.targetSectionOffset = vram) ∨
        (reloc.targetSection ≠ sectionAbsolute ∧ ∃ sect,
          out.sections[reloc.targetSection.toNat]? = some sect ∧
            reloc.targetSectionOffset + sect.ramAddr = vram))
  | .symbol sectionIndex symbolIndex offset => reloc.referenceSymbol = true ∧
      Context.isRegularReferenceSection reloc.targetSection = true ∧
      reloc.targetSection = sectionIndex ∧ reloc.symbolIndex = symbolIndex ∧
      reloc.targetSectionOffset = offset
  | .event name => reloc.referenceSymbol = true ∧ reloc.targetSection = sectionEvent ∧
      (out.eventSymbols[reloc.symbolIndex.toNat]?).map (·.base.name) = some name
  | .importSymbol dependency name => reloc.referenceSymbol = true ∧
      reloc.targetSection = sectionImport ∧ ∃ i, out.dependenciesByName dependency = some i ∧
        (out.importSymbols[reloc.symbolIndex.toNat]?).map
          (fun sym => (sym.base.name, sym.dependencyIndex)) = some (name, i)

/-- A section whose functions and relocations are copied. -/
def Section.isCopied (sect : Section) : Bool :=
  sect.name ≠ eventSectionName ∧ ¬importSectionPrefix.isPrefixOf sect.name

/-- What a section adds to the symbols, at most. -/
def symbolBound (input : Context) (s : Nat) (cur : Section) : Nat :=
  (input.sectionFunctions.getD s []).length + cur.relocs.length

/-- What the reading of an ELF file promises, for a mod. -/
structure ModElf (input : Context) : Prop where
  /-- The format reserves the section indices from `0xFF00` on. -/
  sections_lt : input.sections.length < 0xFF00
  /-- The reference symbols are those of the original program. -/
  regular : ∀ sect ∈ input.sections, ∀ reloc ∈ sect.relocs,
    Context.isRegularReferenceSection reloc.targetSection
  importSymbols_eq : input.importSymbols = []
  imports_eq : ∀ names ∈ input.dependencyImportsByName, names = fun _ => none
  sectionFunctions_length : input.sectionFunctions.length = input.sections.length
  listed_lt : ∀ indices ∈ input.sectionFunctions, ∀ i ∈ indices, i < input.functions.length
  references : ∀ name symbol?, input.findRegularReferenceSymbol name = some symbol? →
    ∃ symbol, symbol? = some symbol ∧ (symbol.sectionIndex = sectionAbsolute ∨
      symbol.sectionIndex.toNat < input.referenceSections.length)
  /-- The functions and the relocations are counted with 32 bits. -/
  count_lt : (input.sections.zipIdx.map fun p => symbolBound input p.2 p.1).sum < 2 ^ 32

/-- The tables that a relocation of a section leads to have an entry for it. -/
def RelocInBounds (input : Context) (cur : Section) (reloc : Reloc) : Prop :=
  reloc.type = .none ∨
    if reloc.referenceSymbol then
      (reloc.targetSection = sectionAbsolute ∨
        reloc.targetSection.toNat < input.referenceSections.length) ∧
      (input.isReferenceSectionRelocatable reloc.targetSection = some false →
        (reloc.address - cur.ramAddr + cur.romAddr).toNat + 4 ≤ input.rom.length)
    else reloc.targetSection.toNat < input.sections.length

/-- What the first pass makes of a relocation: it has its meaning already, or it keeps its target in
the mod. -/
structure Copied (input out : Context) (reloc reloc' : Reloc) : Prop where
  address : reloc'.address = reloc.address
  type : reloc'.type = reloc.type
  target : (reloc'.referenceSymbol = true ∧ ∃ meaning, inputMeaning input reloc = some meaning ∧
      Denotes out reloc' meaning) ∨
    (reloc.referenceSymbol = false ∧ reloc'.referenceSymbol = false ∧
      reloc'.targetSection = reloc.targetSection ∧
      reloc'.targetSectionOffset = reloc.targetSectionOffset ∧
      ∃ target, input.sections[reloc.targetSection.toNat]? = some target ∧
        target.name ≠ eventSectionName ∧ ¬importSectionPrefix.isPrefixOf target.name)

section Meanings

variable {n : Nat} {input out out' : Context} {reloc reloc' : Reloc}

/-- The tables of the output only grow, so that a symbol stays what it is. -/
theorem Copied.grows (h : Copied input out reloc reloc') (hgrows : Grows n out out') :
    Copied input out' reloc reloc' := by
  refine ⟨h.address, h.type, h.target.imp (fun ⟨href, meaning, hmeaning, hdenotes⟩ =>
    ⟨href, meaning, hmeaning, ?_⟩) id⟩
  cases meaning with
  | address vram =>
    rw [hdenotes.1] at href
    cases href
  | symbol s i offset => exact hdenotes
  | event name =>
    obtain ⟨sym, hsym, hname⟩ := Option.map_eq_some_iff.mp hdenotes.2.2
    refine ⟨href, hdenotes.2.1, ?_⟩
    rw [getElem?_of_grown hgrows.events hsym]
    exact congrArg some hname
  | importSymbol dependency name =>
    obtain ⟨i, hi, hsymbol⟩ := hdenotes.2.2
    obtain ⟨sym, hsym, hname⟩ := Option.map_eq_some_iff.mp hsymbol
    refine ⟨href, hdenotes.2.1, i, hgrows.dependencies _ i hi, ?_⟩
    rw [getElem?_of_grown hgrows.imports hsym]
    exact congrArg some hname

end Meanings

/-! ## A relocation -/

/-- The sections with relocations behind those of one of them. -/
def appendRelocs (sections : List Section) (o : Nat) (added : List Reloc) : List Section :=
  sections.modify o fun sect => { sect with relocs := sect.relocs ++ added }

theorem appendRelocs_nil (sections : List Section) (o : Nat) :
    appendRelocs sections o [] = sections := by
  have hid : (fun sect : Section => { sect with relocs := sect.relocs ++ [] }) = id := by
    funext sect
    simp
  rw [appendRelocs, hid, List.modify_id]

theorem appendRelocs_append (sections : List Section) (o : Nat) (added added' : List Reloc) :
    appendRelocs (appendRelocs sections o added) o added' =
      appendRelocs sections o (added ++ added') := by
  simp [appendRelocs, List.modify_modify_eq, Function.comp_def]

/-- What a turn of a loop over relocations adds: one relocation, or none. -/
structure AddsRelocs (input : Context) (n o : Nat) (visited : List Reloc) (out out' : Context) :
    Prop where
  grows : Grows n out out'
  functions : out'.functions = out.functions
  relocs : ∃ origins added, (∀ reloc ∈ origins, reloc ∈ visited) ∧
    List.Forall₂ (Copied input out') origins added ∧
    out'.sections = appendRelocs out.sections o added

section Reloc

variable {input out out' : Context} {cur : Section} {reloc reloc' : Reloc} {n o : Nat}

/-- A relocation that is put behind the others. -/
theorem AddsRelocs.push (hgrows : Grows n out out') (hkeeps : Keeps out out')
    (hcopied : Copied input out' reloc reloc') :
    AddsRelocs input n o [reloc] out (out'.pushReloc o reloc') where
  grows := by
    have hpush : Grows 0 out' (out'.pushReloc o reloc') := .of_eq rfl rfl rfl rfl rfl rfl
    exact hgrows.trans hpush
  functions := hkeeps.functions
  relocs := by
    have hpush : Grows 0 out' (out'.pushReloc o reloc') := .of_eq rfl rfl rfl rfl rfl rfl
    refine ⟨[reloc], [reloc'], fun _ => id, .cons (hcopied.grows hpush) .nil, ?_⟩
    rw [← hkeeps.sections]
    rfl

/-- Nothing is put behind the others. -/
theorem AddsRelocs.nothing (hgrows : Grows n out out') (hkeeps : Keeps out out') :
    AddsRelocs input n o [reloc] out out' where
  grows := hgrows
  functions := hkeeps.functions
  relocs := ⟨[], [], fun _ h => absurd h List.not_mem_nil, .nil, by
    rw [hkeeps.sections, appendRelocs_nil]⟩

theorem referenceSectionVram_isSome
    (hregular : Context.isRegularReferenceSection reloc.targetSection) :
    (input.getReferenceSectionVram reloc.targetSection).isSome ↔
      reloc.targetSection = sectionAbsolute ∨
        reloc.targetSection.toNat < input.referenceSections.length := by
  unfold Context.getReferenceSectionVram
  by_cases habsolute : reloc.targetSection = sectionAbsolute
  · simp [habsolute]
  · simp [habsolute, hregular]

/-- A relocation against a reference symbol. -/
theorem copyReferenceReloc_spec (hregular : Context.isRegularReferenceSection reloc.targetSection)
    (href : reloc.referenceSymbol = true) (hrom : out.rom.length = input.rom.length)
    (h : copyReferenceReloc input cur o out reloc = .ok out') :
    AddsRelocs input 0 o [reloc] out out' ∧ RelocInBounds input cur reloc := by
  have hcopied : ∀ out, Copied input out reloc reloc := fun out =>
    ⟨rfl, rfl, Or.inl ⟨href, .symbol _ _ _, by unfold inputMeaning; rw [if_pos href],
      href, hregular, rfl, rfl, rfl⟩⟩
  unfold copyReferenceReloc at h
  obtain ⟨relocatable, hrelocatable, h⟩ := Except.bind_eq_ok_iff.mp h
  obtain ⟨vram, hvram, h⟩ := Except.bind_eq_ok_iff.mp h
  rw [inBounds_eq_ok_iff] at hrelocatable hvram
  have hsection := (referenceSectionVram_isSome hregular).mp (by rw [hvram]; rfl)
  split at h
  · rename_i hfixed
    obtain rfl := Except.ok.inj h
    refine ⟨.push (Grows.refl out) (Keeps.refl out) (hcopied out), Or.inr ?_⟩
    rw [if_pos href]
    refine ⟨hsection, fun hfalse => ?_⟩
    rw [hrelocatable, hfixed] at hfalse
    cases hfalse
  · obtain ⟨word, hword, h⟩ := Except.bind_eq_ok_iff.mp h
    have hlast := romWord_isSome_iff.mp (by rw [inBounds_eq_ok_iff.mp hword]; rfl)
    rw [hrom] at hlast
    have hbounds : RelocInBounds input cur reloc := by
      refine Or.inr ?_
      rw [if_pos href]
      exact ⟨hsection, fun _ => hlast⟩
    refine ⟨?_, hbounds⟩
    split at h
    · obtain rfl := Except.ok.inj h
      exact .nothing (Grows.refl out) (Keeps.refl out)
    · obtain rfl := Except.ok.inj h
      exact .nothing (Grows.refl out) (Keeps.refl out)
    · obtain rfl := Except.ok.inj h
      exact .push (Grows.refl out) (Keeps.refl out) (hcopied out)
    · obtain rfl := Except.ok.inj h
      exact .nothing (.of_eq rfl rfl rfl rfl rfl length_setRomWord) ⟨rfl, rfl, rfl⟩
    · obtain rfl := Except.ok.inj h
      exact .nothing (.of_eq rfl rfl rfl rfl rfl length_setRomWord) ⟨rfl, rfl, rfl⟩
    · cases h

/-- A symbol index fits into 32 bits while there are not more symbols. -/
theorem toNat_symbolIndex {α : Type} {symbols : List α} {i : Nat} {f : α → β} {b : β}
    (h : (symbols[i]?).map f = some b) (hlt : symbols.length ≤ 2 ^ 32) :
    (BitVec.ofNat 32 i).toNat = i := by
  obtain ⟨a, ha, -⟩ := Option.map_eq_some_iff.mp h
  have hi := (List.getElem?_eq_some_iff.mp ha).1
  rw [BitVec.toNat_ofNat]
  exact Nat.mod_eq_of_lt (by omega)

/-- A relocation against a section of the mod. -/
theorem copyInternalReloc_spec (hsections : input.sections.length < 0xFF00)
    (href : reloc.referenceSymbol = false) (hnames : out.NamesSymbols)
    (hcount : out.symbolCount + 1 ≤ 2 ^ 32)
    (h : copyInternalReloc input cur o out reloc = .ok out') :
    AddsRelocs input 1 o [reloc] out out' ∧ RelocInBounds input cur reloc := by
  unfold copyInternalReloc at h
  obtain ⟨target, htarget, h⟩ := Except.bind_eq_ok_iff.mp h
  rw [inBounds_eq_ok_iff] at htarget
  have hlt := (List.getElem?_eq_some_iff.mp htarget).1
  refine ⟨?_, Or.inr (by rw [if_neg (by simp [href])]; exact hlt)⟩
  have habsolute : reloc.targetSection ≠ sectionAbsolute := by
    intro habsolute
    rw [habsolute] at hlt
    exact absurd (hlt.trans hsections) (by decide)
  split at h
  · rename_i hevent
    split at h
    · cases h
    obtain ⟨func, hfunc, h⟩ := Except.bind_eq_ok_iff.mp h
    rw [orReject_eq_ok_iff] at hfunc
    have hensured := grows_ensureEventSymbol hnames func.name
    generalize out.ensureEventSymbol func.name = ensured at hensured h
    obtain ⟨symbol, out₁⟩ := ensured
    obtain rfl := Except.ok.inj h
    obtain ⟨hgrows, hkeeps, hsymbol⟩ := hensured
    refine .push hgrows hkeeps ⟨rfl, rfl, Or.inl ⟨rfl, .event func.name, ?_, rfl, rfl, ?_⟩⟩
    · unfold inputMeaning
      rw [if_neg (by simp [href]), if_neg habsolute, htarget]
      simp [hevent, hfunc]
    · have hbound := hgrows.count
      unfold Context.symbolCount at hbound hcount
      unfold specialReloc
      dsimp only at hsymbol hbound ⊢
      rw [toNat_symbolIndex hsymbol (by omega)]
      exact hsymbol
  · rename_i hevent
    split at h
    · rename_i himport
      split at h
      · cases h
      obtain ⟨func, hfunc, h⟩ := Except.bind_eq_ok_iff.mp h
      obtain ⟨⟨dependency, out₁⟩, hfind, h⟩ := Except.bind_eq_ok_iff.mp h
      rw [orReject_eq_ok_iff] at hfunc hfind
      obtain ⟨hgrows₁, hkeeps₁, hdependency⟩ := grows_findDependency hfind
      have hensured := grows_ensureImportSymbol (hgrows₁.names hnames) func.name dependency
      dsimp only at h
      generalize out₁.ensureImportSymbol func.name dependency = ensured at hensured h
      obtain ⟨symbol, out₂⟩ := ensured
      obtain rfl := Except.ok.inj h
      obtain ⟨hgrows, hkeeps, hsymbol⟩ := hensured
      refine .push ((hgrows₁.trans hgrows).mono (by omega)) (hkeeps₁.trans hkeeps)
        ⟨rfl, rfl, Or.inl ⟨rfl, .importSymbol _ func.name, ?_, rfl, rfl, dependency,
          hgrows.dependencies _ _ hdependency, ?_⟩⟩
      · unfold inputMeaning
        rw [if_neg (by simp [href]), if_neg habsolute, htarget]
        simp only [Option.bind_eq_bind, Option.bind_some, if_neg hevent, if_pos himport, hfunc,
          Option.map_some]
      · have hbound := hgrows.count
        have hbound₁ := hgrows₁.count
        unfold Context.symbolCount at hbound hbound₁ hcount
        unfold specialReloc
        dsimp only at hsymbol hbound ⊢
        rw [toNat_symbolIndex hsymbol (by omega)]
        exact hsymbol
    · rename_i himport
      split at h
      · cases h
      obtain rfl := Except.ok.inj h
      exact .push ((Grows.refl out).mono (by omega)) (Keeps.refl out)
        ⟨rfl, rfl, Or.inr ⟨href, href, rfl, rfl, target, htarget, hevent, himport⟩⟩

/-- **A turn of the loop over the relocations.** -/
theorem copyReloc_spec (helf : ModElf input) (hcur : cur ∈ input.sections)
    (hreloc : reloc ∈ cur.relocs) (hnames : out.NamesSymbols)
    (hcount : out.symbolCount + 1 ≤ 2 ^ 32) (hrom : out.rom.length = input.rom.length)
    (h : copyReloc input cur o out reloc = .ok out') :
    AddsRelocs input 1 o [reloc] out out' ∧ RelocInBounds input cur reloc := by
  have hregular := helf.regular cur hcur reloc hreloc
  unfold copyReloc at h
  split at h
  · rename_i htype
    obtain rfl := Except.ok.inj h
    exact ⟨.nothing ((Grows.refl out).mono (by omega)) (Keeps.refl out), Or.inl htype⟩
  · rw [if_neg (by simp [hregular])] at h
    split at h
    · rename_i href
      obtain ⟨hadds, hbounds⟩ := copyReferenceReloc_spec hregular href hrom h
      exact ⟨⟨hadds.grows.mono (by omega), hadds.functions, hadds.relocs⟩, hbounds⟩
    · rename_i href
      exact copyInternalReloc_spec helf.sections_lt (by simpa using href) hnames hcount h

theorem isReferenceSectionRelocatable_isSome
    (h : reloc.targetSection = sectionAbsolute ∨
      reloc.targetSection.toNat < input.referenceSections.length) :
    (input.isReferenceSectionRelocatable reloc.targetSection).isSome := by
  unfold Context.isReferenceSectionRelocatable
  split_ifs with hall habsolute hspecial
  · rfl
  · rfl
  · rfl
  · rw [List.getElem?_eq_getElem (h.resolve_left habsolute)]
    rfl

theorem orReject_ne_outOfBounds {α : Type} (x : Option α) :
    orReject x ≠ .error .outOfBounds := by
  cases x <;> simp [orReject]

theorem bind_ne_outOfBounds {α β : Type} {x : Except ModError α} {f : α → Except ModError β}
    (hx : x ≠ .error .outOfBounds) (hf : ∀ a, x = .ok a → f a ≠ .error .outOfBounds) :
    (x >>= f) ≠ .error .outOfBounds := by
  cases x with
  | ok a => exact hf a rfl
  | error e =>
    intro heq
    rw [Except.error_bind] at heq
    exact hx (congrArg Except.error (Except.error.inj heq))

/-- **A relocation whose tables have an entry for it** is copied or rejected. -/
theorem copyReloc_inBounds (helf : ModElf input) (hcur : cur ∈ input.sections)
    (hreloc : reloc ∈ cur.relocs) (hrom : out.rom.length = input.rom.length)
    (h : RelocInBounds input cur reloc) : copyReloc input cur o out reloc ≠ .error .outOfBounds := by
  have hregular := helf.regular cur hcur reloc hreloc
  unfold copyReloc
  split
  · exact fun heq => by cases heq
  rename_i htype
  replace h := h.resolve_left htype
  rw [if_neg (by simp [hregular])]
  split
  · rename_i href
    rw [if_pos href] at h
    obtain ⟨relocatable, hrelocatable⟩ := Option.isSome_iff_exists.mp
      (isReferenceSectionRelocatable_isSome h.1)
    obtain ⟨vram, hvram⟩ := Option.isSome_iff_exists.mp
      ((referenceSectionVram_isSome hregular).mpr h.1)
    unfold copyReferenceReloc
    rw [hrelocatable, hvram]
    simp only [inBounds, Except.ok_bind]
    split
    · exact fun heq => by cases heq
    · rename_i hfixed
      have hlast := h.2 (by rw [hrelocatable]; simpa using hfixed)
      obtain ⟨word, hword⟩ := Option.isSome_iff_exists.mp
        (romWord_isSome_iff.mpr (hrom ▸ hlast))
      rw [hword]
      simp only [Except.ok_bind]
      split <;> exact fun heq => by cases heq
  · rename_i href
    rw [if_neg href] at h
    unfold copyInternalReloc
    rw [List.getElem?_eq_getElem h]
    simp only [inBounds, Except.ok_bind]
    split
    · split
      · exact fun heq => by cases heq
      · refine bind_ne_outOfBounds (orReject_ne_outOfBounds _) fun func _ => ?_
        exact fun heq => by cases heq
    · split
      · split
        · exact fun heq => by cases heq
        · refine bind_ne_outOfBounds (orReject_ne_outOfBounds _) fun func _ => ?_
          refine bind_ne_outOfBounds (orReject_ne_outOfBounds _) fun _ _ => ?_
          exact fun heq => by cases heq
      · split <;> exact fun heq => by cases heq

end Reloc

/-! ## A function -/

/-- What is copied of a function. -/
def outputFunction (cur : Section) (o : Nat) (func : Function) : Function :=
  Function.mk' func.vram func.rom (List.replicate func.words.length 0)
    (if cur.name = exportSectionName then func.name else []) (BitVec.ofNat 16 o) false false false 0

section Functions

variable {input out out' : Context} {cur : Section} {func : Function} {o : Nat}

theorem copyFunction_spec (h : copyFunction input cur o out func = .ok out') :
    Grows 0 out out' ∧ out'.sections = out.sections ∧
      out'.functions = out.functions ++ [outputFunction cur o func] := by
  unfold copyFunction at h
  obtain ⟨out₁, hregister, h⟩ := Except.bind_eq_ok_iff.mp h
  obtain ⟨hgrows, hkeeps⟩ := grows_registerFunction hregister
  obtain rfl := Except.ok.inj h
  refine ⟨?_, hkeeps.sections, by rw [← hkeeps.functions]; rfl⟩
  exact ⟨hgrows.events, hgrows.imports, hgrows.dependencies,
    fun hnames => ⟨(hgrows.names hnames).events, (hgrows.names hnames).imports⟩, hgrows.count,
    hgrows.romLength⟩

/-- The searches of the special sections are inside of the reference tables. -/
theorem originalFunction_inBounds (helf : ModElf input) (name : Str) :
    originalFunction input name ≠ .error .outOfBounds := by
  unfold originalFunction
  refine bind_ne_outOfBounds (orReject_ne_outOfBounds _) fun symbol? hfind => ?_
  obtain ⟨symbol, rfl, hsection⟩ := helf.references name symbol? (orReject_eq_ok_iff.mp hfind)
  simp only [inBounds, Except.ok_bind]
  have hvram : (input.getReferenceSectionVram symbol.sectionIndex).isSome := by
    unfold Context.getReferenceSectionVram
    split_ifs with habsolute
    · rfl
    · rfl
    · rw [List.getElem?_eq_getElem (hsection.resolve_left habsolute)]
      rfl
  have hrom : (input.getReferenceSectionRom symbol.sectionIndex).isSome := by
    unfold Context.getReferenceSectionRom
    split_ifs with habsolute
    · rfl
    · rfl
    · rw [List.getElem?_eq_getElem (hsection.resolve_left habsolute)]
      rfl
  obtain ⟨vram, hvram⟩ := Option.isSome_iff_exists.mp hvram
  obtain ⟨rom, hrom⟩ := Option.isSome_iff_exists.mp hrom
  rw [hvram, hrom]
  split <;> exact fun heq => by cases heq

theorem copyFunction_inBounds (helf : ModElf input) :
    copyFunction input cur o out func ≠ .error .outOfBounds := by
  unfold copyFunction registerFunction
  refine bind_ne_outOfBounds (bind_ne_outOfBounds ?_ fun out₁ _ => bind_ne_outOfBounds ?_
    fun out₂ _ => ?_) fun out₃ _ => fun heq => by cases heq
  · unfold registerPatch
    split
    · refine bind_ne_outOfBounds (originalFunction_inBounds helf _) fun _ _ => ?_
      exact fun heq => by cases heq
    · exact fun heq => by cases heq
  · unfold registerHook
    split
    · refine bind_ne_outOfBounds (originalFunction_inBounds helf _) fun _ _ => ?_
      exact fun heq => by cases heq
    · exact fun heq => by cases heq
  · unfold registerCallback
    split
    · refine bind_ne_outOfBounds (orReject_ne_outOfBounds _) fun _ _ => ?_
      refine bind_ne_outOfBounds (orReject_ne_outOfBounds _) fun _ _ => ?_
      refine bind_ne_outOfBounds (orReject_ne_outOfBounds _) fun _ _ => ?_
      exact fun heq => by cases heq
    · exact fun heq => by cases heq

end Functions

/-! ## A section -/

section Sections

variable {input out out' : Context} {cur : Section} {s o : Nat}

/-- The functions that a section lists are functions of the input. -/
theorem exists_listedFunctions (helf : ModElf input) (hs : s < input.sections.length) :
    ∃ funcs, listedFunctions input s = .ok funcs ∧
      funcs.length = (input.sectionFunctions.getD s []).length := by
  rw [← helf.sectionFunctions_length] at hs
  have hget := List.getElem?_eq_getElem hs
  have hlisted := helf.listed_lt _ (List.getElem_mem hs)
  unfold listedFunctions
  rw [List.getD_eq_getElem?_getD, hget]
  simp only [inBounds, Except.ok_bind, Option.getD_some]
  generalize input.sectionFunctions[s] = indices at hlisted
  induction indices with
  | nil => exact ⟨[], rfl, rfl⟩
  | cons i indices ih =>
    obtain ⟨funcs, hfuncs, hlength⟩ := ih fun j hj => hlisted j (List.mem_cons_of_mem _ hj)
    have hi := hlisted i List.mem_cons_self
    refine ⟨input.functions[i] :: funcs, ?_, by simp [hlength]⟩
    rw [List.mapM_cons, List.getElem?_eq_getElem hi]
    dsimp only
    rw [Except.ok_bind, hfuncs]
    rfl

/-- The symbols of the events that a section lists. -/
theorem grows_events (funcs : List Function) (hnames : out.NamesSymbols) :
    Grows funcs.length out (funcs.foldl (fun out func => (out.ensureEventSymbol func.name).2) out) ∧
      Keeps out (funcs.foldl (fun out func => (out.ensureEventSymbol func.name).2) out) := by
  induction funcs generalizing out with
  | nil => exact ⟨Grows.refl out, Keeps.refl out⟩
  | cons func funcs ih =>
    obtain ⟨hgrows, hkeeps, -⟩ := grows_ensureEventSymbol hnames func.name
    obtain ⟨hgrows', hkeeps'⟩ := ih (hgrows.names hnames)
    refine ⟨(hgrows.trans hgrows').mono ?_, hkeeps.trans hkeeps'⟩
    rw [List.length_cons]
    omega

/-- The loop over the functions of a section. -/
theorem copyFunctions_spec {funcs : List Function}
    (h : funcs.foldlM (copyFunction input cur o) out = .ok out') :
    Grows 0 out out' ∧ out'.sections = out.sections ∧
      out'.functions = out.functions ++ funcs.map (outputFunction cur o) := by
  refine Except.foldlM_ok_induction
    (P := fun visited out' => Grows 0 out out' ∧ out'.sections = out.sections ∧
      out'.functions = out.functions ++ visited.map (outputFunction cur o))
    ⟨Grows.refl out, rfl, by simp⟩ ?_ h
  rintro visited func out₁ out₂ ⟨hgrows, hsections, hfunctions⟩ - hstep
  obtain ⟨hgrows', hsections', hfunctions'⟩ := copyFunction_spec hstep
  refine ⟨hgrows.trans hgrows', hsections'.trans hsections, ?_⟩
  rw [hfunctions', hfunctions, List.append_assoc, List.map_append]
  rfl

/-- The loop over the relocations of a section. -/
theorem AddsRelocs.append {visited : List Reloc} {reloc : Reloc} {m n : Nat} {out₁ : Context}
    (h : AddsRelocs input m o visited out out₁) (h' : AddsRelocs input n o [reloc] out₁ out') :
    AddsRelocs input (m + n) o (visited ++ [reloc]) out out' := by
  obtain ⟨origins, added, hmem, hcopied, hsections⟩ := h.relocs
  obtain ⟨origins', added', hmem', hcopied', hsections'⟩ := h'.relocs
  refine ⟨h.grows.trans h'.grows, h'.functions.trans h.functions, origins ++ origins',
    added ++ added', fun r hr => ?_, ?_, ?_⟩
  · rcases List.mem_append.mp hr with hr | hr
    · exact List.mem_append_left _ (hmem r hr)
    · exact List.mem_append_right _ (hmem' r hr)
  · exact List.rel_append (hcopied.imp fun _ _ hr => hr.grows h'.grows) hcopied'
  · rw [hsections', hsections, appendRelocs_append]

theorem AddsRelocs.refl (out : Context) : AddsRelocs input 0 o [] out out where
  grows := Grows.refl out
  functions := rfl
  relocs := ⟨[], [], fun _ => id, .nil, (appendRelocs_nil _ _).symm⟩

/-- The loop over the relocations of a section ends, or fails at one of them. -/
theorem copyRelocs_cases (helf : ModElf input) (hcur : cur ∈ input.sections)
    (hnames : out.NamesSymbols) (hcount : out.symbolCount + cur.relocs.length ≤ 2 ^ 32)
    (hrom : out.rom.length = input.rom.length) :
    (∃ out', cur.relocs.foldlM (copyReloc input cur o) out = .ok out' ∧
      AddsRelocs input cur.relocs.length o cur.relocs out out' ∧
      ∀ reloc ∈ cur.relocs, RelocInBounds input cur reloc) ∨
    ∃ visited reloc rest out₁ e, visited ++ reloc :: rest = cur.relocs ∧
      (AddsRelocs input visited.length o visited out out₁ ∧
        ∀ reloc ∈ visited, RelocInBounds input cur reloc) ∧
      copyReloc input cur o out₁ reloc = .error e ∧
      cur.relocs.foldlM (copyReloc input cur o) out = .error e := by
  refine Except.foldlM_cases
    (P := fun visited out' => AddsRelocs input visited.length o visited out out' ∧
      ∀ reloc ∈ visited, RelocInBounds input cur reloc)
    ⟨AddsRelocs.refl out, fun _ hr => absurd hr List.not_mem_nil⟩ ?_
  rintro visited reloc rest out₁ out₂ hl ⟨hadds, hbounds⟩ hstep
  have hmem : reloc ∈ cur.relocs := by simp [← hl]
  have hlength := congrArg List.length hl
  rw [List.length_append, List.length_cons] at hlength
  have hgrown := hadds.grows.count
  obtain ⟨hadds', hbound⟩ := copyReloc_spec helf hcur hmem (hadds.grows.names hnames)
    (by omega) (hadds.grows.romLength.trans hrom) hstep
  refine ⟨?_, fun r hr => ?_⟩
  · rw [List.length_append]
    exact hadds.append hadds'
  · rcases List.mem_append.mp hr with hr | hr
    · exact hbounds r hr
    · rw [List.mem_singleton.mp hr]
      exact hbound

/-- **What is copied of a section.** -/
theorem copySection_spec (helf : ModElf input) (hs : input.sections[s]? = some cur)
    (hnames : out.NamesSymbols) (hcount : out.symbolCount + symbolBound input s cur ≤ 2 ^ 32)
    (hrom : out.rom.length = input.rom.length)
    (h : copySection input s cur o out = .ok out') :
    Grows (symbolBound input s cur) out out' ∧
      (∃ origins added, (∀ reloc ∈ origins, reloc ∈ cur.relocs) ∧
        List.Forall₂ (Copied input out') origins added ∧
        out'.sections = appendRelocs out.sections o added) ∧
      (∃ funcs, listedFunctions input s = .ok funcs ∧ out'.functions = out.functions ++
        if cur.isCopied then funcs.map (outputFunction cur o) else []) ∧
      (cur.isCopied → ∀ reloc ∈ cur.relocs, RelocInBounds input cur reloc) := by
  have hlt := (List.getElem?_eq_some_iff.mp hs).1
  obtain ⟨funcs, hfuncs, hlength⟩ := exists_listedFunctions helf hlt
  unfold symbolBound at hcount ⊢
  unfold copySection at h
  rw [hfuncs, Except.ok_bind] at h
  split at h
  · rename_i hevent
    have hcopied : cur.isCopied = false := by simp [Section.isCopied, hevent]
    obtain rfl := Except.ok.inj h
    obtain ⟨hgrows, hkeeps⟩ := grows_events funcs hnames
    refine ⟨hgrows.mono (by omega), ⟨[], [], fun _ hr => absurd hr List.not_mem_nil, .nil, ?_⟩,
      ⟨funcs, hfuncs, ?_⟩, fun hc => by rw [hcopied] at hc; cases hc⟩
    · rw [hkeeps.sections, appendRelocs_nil]
    · rw [hcopied, hkeeps.functions]
      simp
  · rename_i hevent
    split at h
    · rename_i himport
      have hcopied : cur.isCopied = false := by
        unfold Section.isCopied
        rw [himport]
        simp
      obtain rfl := Except.ok.inj h
      refine ⟨(Grows.refl out).mono (by omega),
        ⟨[], [], fun _ hr => absurd hr List.not_mem_nil, .nil, (appendRelocs_nil _ _).symm⟩,
        ⟨funcs, hfuncs, ?_⟩, fun hc => by rw [hcopied] at hc; cases hc⟩
      rw [hcopied]
      simp
    · rename_i himport
      have hcopied : cur.isCopied = true := by
        unfold Section.isCopied
        exact decide_eq_true ⟨hevent, himport⟩
      obtain ⟨out₁, hfunctions, hrelocs⟩ := Except.bind_eq_ok_iff.mp h
      obtain ⟨hgrows, hsections, hout⟩ := copyFunctions_spec hfunctions
      have hgrown := hgrows.count
      have hloop := copyRelocs_cases helf (List.mem_of_getElem? hs) (o := o)
        (hgrows.names hnames) (by omega) (hgrows.romLength.trans hrom)
      rcases hloop with ⟨out'', heq, hadds, hbounds⟩ | ⟨_, _, _, _, _, -, -, -, hfail⟩
      swap
      · rw [hrelocs] at hfail
        cases hfail
      rw [hrelocs] at heq
      obtain rfl := Except.ok.inj heq
      obtain ⟨origins, added, hmem, hcopies, hadded⟩ := hadds.relocs
      refine ⟨(hgrows.trans hadds.grows).mono (by omega),
        ⟨origins, added, hmem, hcopies, hsections ▸ hadded⟩, ⟨funcs, hfuncs, ?_⟩,
        fun _ => hbounds⟩
      rw [hadds.functions, hout, if_pos hcopied]

/-- A section whose relocations have entries in their tables is copied or rejected. -/
theorem copySection_inBounds (helf : ModElf input) (hs : input.sections[s]? = some cur)
    (hnames : out.NamesSymbols) (hcount : out.symbolCount + symbolBound input s cur ≤ 2 ^ 32)
    (hrom : out.rom.length = input.rom.length)
    (hbounds : cur.isCopied → ∀ reloc ∈ cur.relocs, RelocInBounds input cur reloc) :
    copySection input s cur o out ≠ .error .outOfBounds := by
  have hlt := (List.getElem?_eq_some_iff.mp hs).1
  have hmem := List.mem_of_getElem? hs
  obtain ⟨funcs, hfuncs, hlength⟩ := exists_listedFunctions helf hlt
  unfold symbolBound at hcount
  unfold copySection
  rw [hfuncs, Except.ok_bind]
  split
  · exact fun heq => by cases heq
  rename_i hevent
  split
  · exact fun heq => by cases heq
  rename_i himport
  replace hbounds := hbounds (by unfold Section.isCopied; exact decide_eq_true ⟨hevent, himport⟩)
  refine bind_ne_outOfBounds ?_ fun out₁ hfunctions => ?_
  · have hloop := Except.foldlM_cases (f := copyFunction input cur o) (P := fun _ _ => True)
      (l := funcs) (s := out) trivial fun _ _ _ _ _ _ _ _ => trivial
    rcases hloop with ⟨out', hout, -⟩ | ⟨visited, func, rest, out₁, e, -, -, hfail, hall⟩
    · rw [hout]
      exact fun heq => by cases heq
    · rw [hall]
      rintro heq
      obtain rfl := Except.error.inj heq
      exact copyFunction_inBounds helf hfail
  · obtain ⟨hgrows, -, -⟩ := copyFunctions_spec hfunctions
    have hgrown := hgrows.count
    rcases copyRelocs_cases helf hmem (o := o) (hgrows.names hnames) (by omega)
      (hgrows.romLength.trans hrom) with
      ⟨out', hout, -⟩ | ⟨visited, reloc, rest, out₂, e, hl, ⟨hadds, -⟩, hfail, hall⟩
    · rw [hout]
      exact fun heq => by cases heq
    · rw [hall]
      rintro heq
      obtain rfl := Except.error.inj heq
      have hreloc : reloc ∈ cur.relocs := by simp [← hl]
      exact copyReloc_inBounds helf hmem hreloc
        (hadds.grows.romLength.trans (hgrows.romLength.trans hrom)) (hbounds reloc hreloc) hfail

end Sections

end N64Recomp
