import Mathlib.Data.List.Induction
import N64Recomp.Data.KeyIndex
import N64Recomp.Elf.Symbols

/-!
# The indices of an ELF file's functions

What the two passes over the symbols leave is a list of entries, each of them put into the context
once. The indices agree with the functions when every entry lists its function at the function's own
address, and when the addresses that are pushed to a section are those of the section's functions.
The entry point, absolute symbols and manual functions each break one of the two.

## Main definitions

* `SymbolIndices`: what the lookups of functions assume of the indices
* `Entered`: a context that holds the functions of some entries
* `EntryAtValue`, `SymbolInputs.AddrsAgree`: when the indices agree, on the inputs

## Main results

* `entered_readSymbols`, `entered_addManualFunctions`: the two passes enter one entry a function
* `symbolIndices_iff`: when the indices agree
-/

namespace N64Recomp

open KeyIndex

/-- What the lookups of functions assume of the indices of a context. -/
structure SymbolIndices (context : Context) : Prop where
  /-- A function is listed under its address, and under no other. -/
  byVram : IsIndex Function.vram context.functions context.functionsByVram
  /-- A function with words is listed once in its own section. -/
  bySection : ∀ (i : Nat) func, context.functions[i]? = some func → func.words ≠ [] →
    (context.sectionFunctions.getD func.sectionIndex.toNat []).count i = 1
  /-- The addresses of a section are those of its functions. -/
  addrs : ∀ (s : Nat) sect, context.sections[s]? = some sect → ∀ a, a ∈ sect.functionAddrs ↔
    ∃ func ∈ context.functions, func.sectionIndex.toNat = s ∧ func.vram = a

/-- A listed function has the address it is listed under. -/
theorem SymbolIndices.getElem?_vram {context : Context} (h : SymbolIndices context) {a : BitVec 32}
    {i : Nat} (hi : i ∈ context.functionsByVram a) :
    (context.functions.map (·.vram))[i]? = some a := by
  obtain ⟨func, hfunc, hvram⟩ := (h.byVram.mem_iff a i).mp hi
  rw [List.getElem?_map, hfunc, Option.map_some, hvram]

/-- The address of a function is among those of its section. -/
theorem SymbolIndices.mem_functionAddrs {context : Context} (h : SymbolIndices context) {s : Nat}
    {a : BitVec 32} {addrs : List (BitVec 32)}
    (hfunc : (s, a) ∈ context.functions.map fun func => (func.sectionIndex.toNat, func.vram))
    (hs : (context.sections.map (·.functionAddrs))[s]? = some addrs) : a ∈ addrs := by
  obtain ⟨func, hmem, heq⟩ := List.mem_map.mp hfunc
  rw [List.getElem?_map] at hs
  obtain ⟨sect, hsect, rfl⟩ := Option.map_eq_some_iff.mp hs
  exact (h.addrs s sect hsect a).mpr ⟨func, hmem, congrArg Prod.fst heq, congrArg Prod.snd heq⟩

/-! ## Contexts that hold entries -/

/-- A section without what the passes write to it. -/
def Section.withoutAddrs (sect : Section) : Section := { sect with functionAddrs := [] }

/-- The positions of the entries that a section lists. -/
def listedIn (entries : List FunctionEntry) (s : Nat) : List Nat :=
  (entries.zipIdx.filter fun p => p.1.listed ∧ p.1.sectionIndex = s).map (·.2)

/-- The addresses that the entries push to a section. -/
def addrsIn (entries : List FunctionEntry) (s : Nat) : List (BitVec 32) :=
  (entries.filter (·.sectionIndex = s)).flatMap (·.addr.toList)

/-- The functions of a context are those of some entries, which are all that was written to the
context `base`. -/
structure Entered (base : Context) (entries : List FunctionEntry) (context : Context) : Prop where
  functions : context.functions = entries.map (·.func)
  byVram : IsIndex FunctionEntry.listedAt entries context.functionsByVram
  length_lists : context.sectionFunctions.length = base.sections.length
  bySection : ∀ s < base.sections.length,
    context.sectionFunctions[s]? = some (listedIn entries s)
  addrs : ∀ (s : Nat) sect, context.sections[s]? = some sect →
    sect.functionAddrs = addrsIn entries s
  sections : context.sections.map Section.withoutAddrs = base.sections.map Section.withoutAddrs
  rom : context.rom = base.rom

section Entering

variable {base context : Context} {entries : List FunctionEntry} {s i : Nat} {a : BitVec 32}

theorem mem_listedIn : i ∈ listedIn entries s ↔
    ∃ entry, entries[i]? = some entry ∧ entry.listed ∧ entry.sectionIndex = s := by
  simp [listedIn, List.mem_zipIdx_iff_getElem?]

theorem nodup_listedIn (entries : List FunctionEntry) (s : Nat) : (listedIn entries s).Nodup := by
  have hpositions : (entries.zipIdx.map (·.2)).Nodup := by
    rw [List.zipIdx_map_snd]
    exact List.nodup_range' ..
  exact hpositions.sublist (List.filter_sublist.map _)

theorem mem_addrsIn : a ∈ addrsIn entries s ↔
    ∃ entry ∈ entries, entry.sectionIndex = s ∧ entry.addr = some a := by
  simp [addrsIn, and_assoc]

theorem listedIn_append (entry : FunctionEntry) : listedIn (entries ++ [entry]) s =
    listedIn entries s ++
      if entry.listed ∧ entry.sectionIndex = s then [entries.length] else [] := by
  simp only [listedIn, List.zipIdx_append, List.filter_append, List.map_append]
  congr 1
  by_cases h : entry.listed ∧ entry.sectionIndex = s
  · simp [h]
  · simp [h]

theorem addrsIn_append (entry : FunctionEntry) : addrsIn (entries ++ [entry]) s =
    addrsIn entries s ++ if entry.sectionIndex = s then entry.addr.toList else [] := by
  simp only [addrsIn, List.filter_append, List.flatMap_append]
  congr 1
  by_cases h : entry.sectionIndex = s
  · simp [h]
  · simp [h]

theorem Entered.length_sections (h : Entered base entries context) :
    context.sections.length = base.sections.length := by
  have hlength := congrArg List.length h.sections
  rwa [List.length_map, List.length_map] at hlength

theorem Entered.length_functions (h : Entered base entries context) :
    context.functions.length = entries.length := by rw [h.functions, List.length_map]

/-- Nothing is entered yet. -/
theorem ElfSections.entered (elf : ElfSections) : Entered elf.context [] elf.context where
  functions := elf.functions_eq
  byVram := by
    rw [elf.functionsByVram_eq]
    exact IsIndex.nil _
  length_lists := by rw [elf.sectionFunctions_eq, List.length_replicate]
  bySection s hs := by
    rw [elf.sectionFunctions_eq, List.getElem?_replicate, if_pos hs]
    rfl
  addrs s sect hs := elf.functionAddrs_eq sect (List.mem_of_getElem? hs)
  sections := rfl
  rom := rfl

/-- **One more entry.** -/
theorem Entered.enter (h : Entered base entries context) (entry : FunctionEntry) :
    Entered base (entries ++ [entry]) (context.enter entry) where
  functions := by simp [Context.enter, h.functions]
  byVram := by
    have happend := h.byVram.append entry
    rw [← h.length_functions] at happend
    exact happend
  length_lists := by
    unfold Context.enter
    split <;> simp [h.length_lists]
  bySection s hs := by
    rw [listedIn_append, ← h.length_functions]
    have hold := h.bySection s hs
    unfold Context.enter
    by_cases hlisted : entry.listed
    · by_cases hsection : entry.sectionIndex = s
      · simp [hlisted, hsection, hold]
      · simp [hlisted, hsection, hold]
    · simp [hlisted, hold]
  addrs s sect hs := by
    rw [addrsIn_append]
    simp only [Context.enter, Context.registerAt, List.getElem?_modify] at hs
    obtain ⟨old, hold, rfl⟩ := Option.map_eq_some_iff.mp hs
    rw [← h.addrs s old hold]
    split <;> simp
  sections := by
    rw [← h.sections]
    refine List.ext_getElem? fun s => ?_
    simp only [Context.enter, Context.registerAt, List.getElem?_map, List.getElem?_modify]
    cases context.sections[s]? with
    | none => rfl
    | some sect =>
      simp only [Option.map_some]
      split <;> rfl
  rom := h.rom

/-- A section of the context, but for its addresses. -/
theorem Entered.section_eq (h : Entered base entries context) (s : Nat) :
    (context.sections[s]?).map Section.withoutAddrs =
      (base.sections[s]?).map Section.withoutAddrs := by
  have hs := congrArg (·[s]?) h.sections
  simpa only [List.getElem?_map] using hs

/-- What every entry of the two passes satisfies, in a context of `n` sections. -/
structure FunctionEntry.Sound (entry : FunctionEntry) (n : Nat) : Prop where
  sectionIndex : entry.func.sectionIndex.toNat = entry.sectionIndex
  listed : entry.func.words ≠ [] → entry.listed ∧ entry.sectionIndex < n

/-- The indices agree with the functions when the entries do. -/
theorem Entered.indices_iff (h : Entered base entries context)
    (hsound : ∀ entry ∈ entries, entry.Sound base.sections.length) :
    SymbolIndices context ↔ (∀ entry ∈ entries, entry.listedAt = entry.func.vram) ∧
      ∀ s < base.sections.length, ∀ a,
        (∃ entry ∈ entries, entry.sectionIndex = s ∧ entry.addr = some a) ↔
          ∃ entry ∈ entries, entry.sectionIndex = s ∧ entry.func.vram = a := by
  -- the functions of a section, by the entries
  have hfunctions : ∀ s a, (∃ func ∈ context.functions, func.sectionIndex.toNat = s ∧
      func.vram = a) ↔ ∃ entry ∈ entries, entry.sectionIndex = s ∧ entry.func.vram = a := by
    intro s a
    rw [h.functions]
    constructor
    · rintro ⟨func, hfunc, hs, ha⟩
      obtain ⟨entry, hentry, rfl⟩ := List.mem_map.mp hfunc
      exact ⟨entry, hentry, (hsound entry hentry).sectionIndex ▸ hs, ha⟩
    · rintro ⟨entry, hentry, hs, ha⟩
      exact ⟨entry.func, List.mem_map_of_mem hentry,
        (hsound entry hentry).sectionIndex.trans hs, ha⟩
  constructor
  · intro hindices
    refine ⟨fun entry hentry => ?_, fun s hs a => ?_⟩
    · obtain ⟨i, hi⟩ := List.mem_iff_getElem?.mp hentry
      obtain ⟨func, hfunc, hvram⟩ := (hindices.byVram.mem_iff _ i).mp (h.byVram.mem hi)
      rw [h.functions, List.getElem?_map, hi] at hfunc
      obtain rfl := Option.some.inj hfunc
      exact hvram.symm
    · rw [← h.length_sections] at hs
      have haddrs := hindices.addrs s _ (List.getElem?_eq_getElem hs) a
      rw [h.addrs s _ (List.getElem?_eq_getElem hs), mem_addrsIn, hfunctions] at haddrs
      exact haddrs
  · rintro ⟨hlisted, haddrs⟩
    refine ⟨⟨h.byVram.nodup, fun a i => ?_⟩, fun i func hi hwords => ?_, fun s sect hs a => ?_⟩
    · rw [h.byVram.mem_iff, h.functions, List.getElem?_map]
      constructor
      · rintro ⟨entry, hi, ha⟩
        rw [hlisted entry (List.mem_of_getElem? hi)] at ha
        exact ⟨entry.func, by rw [hi]; rfl, ha⟩
      · rintro ⟨func, hfunc, ha⟩
        obtain ⟨entry, hi, rfl⟩ := Option.map_eq_some_iff.mp hfunc
        exact ⟨entry, hi, (hlisted entry (List.mem_of_getElem? hi)).trans ha⟩
    · rw [h.functions, List.getElem?_map] at hi
      obtain ⟨entry, hentry, rfl⟩ := Option.map_eq_some_iff.mp hi
      have hentrySound := hsound entry (List.mem_of_getElem? hentry)
      obtain ⟨hpushed, hlt⟩ := hentrySound.listed hwords
      rw [hentrySound.sectionIndex, List.getD_eq_getElem?_getD, h.bySection _ hlt]
      exact List.count_eq_one_of_mem (nodup_listedIn _ _)
        (mem_listedIn.mpr ⟨entry, hentry, hpushed, rfl⟩)
    · have hlt := (List.getElem?_eq_some_iff.mp hs).1
      rw [h.length_sections] at hlt
      rw [h.addrs s sect hs, mem_addrsIn, hfunctions]
      exact haddrs s hlt a

end Entering

/-! ## The symbol table -/

section Symbols

variable {base context : Context} {entries : List FunctionEntry} {config : SymbolConfig}
  {lists : SymbolLists} {dumpingContext : Bool} {elf : ElfSections}

@[simp]
theorem addDataSymbol_toSymbolState (st : ElfState) (sym : SymtabEntry) (recorded : Bool) :
    (st.addDataSymbol dumpingContext elf sym recorded).toSymbolState = st.toSymbolState := by
  unfold ElfState.addDataSymbol
  split <;> rfl

/-- A symbol keeps its place while it is prepared. -/
theorem prepareSymbol_place (sym : SymtabEntry) :
    (prepareSymbol config lists dumpingContext sym).value = sym.value ∧
      (prepareSymbol config lists dumpingContext sym).sectionIndex = sym.sectionIndex := by
  have hresize : ∀ sym : SymtabEntry, (config.resize sym).value = sym.value ∧
      (config.resize sym).sectionIndex = sym.sectionIndex := by
    intro sym
    unfold SymbolConfig.resize
    split <;> exact ⟨rfl, rfl⟩
  have hname : (config.nameEntry sym).value = sym.value ∧
      (config.nameEntry sym).sectionIndex = sym.sectionIndex := by
    unfold SymbolConfig.nameEntry
    split <;> exact ⟨rfl, rfl⟩
  have hboth := hresize (config.nameEntry sym)
  rw [hname.1, hname.2] at hboth
  unfold prepareSymbol SymbolLists.suffix
  split_ifs <;> exact hboth

/-- What the renaming keeps. -/
theorem rename_place (sym : FunctionSymbol) :
    (lists.rename dumpingContext sym).value = sym.value ∧
      (lists.rename dumpingContext sym).sectionIndex = sym.sectionIndex ∧
      (lists.rename dumpingContext sym).type = sym.type := by
  unfold SymbolLists.rename
  split <;> exact ⟨rfl, rfl, rfl⟩

/-- The entry of a symbol does not depend on what was entered before. -/
theorem Entered.symbolEntry_eq (h : Entered base entries context) (sym : FunctionSymbol) :
    symbolEntry config elf context sym = symbolEntry config elf base sym := by
  have hsection := h.section_eq sym.sectionIndex.toNat
  unfold symbolEntry
  rw [h.rom]
  cases hsect : context.sections[sym.sectionIndex.toNat]? with
  | none =>
    rw [hsect, eq_comm, Option.map_none, Option.map_eq_none_iff] at hsection
    rw [hsection]
  | some sect =>
    rw [hsect, eq_comm, Option.map_some, Option.map_eq_some_iff] at hsection
    obtain ⟨sect', hsect', heq⟩ := hsection
    have hrom : elf.romAddress sect' sym.toSymtabEntry = elf.romAddress sect sym.toSymtabEntry := by
      unfold ElfSections.romAddress
      rw [show sect'.romAddr = sect.romAddr from congrArg (·.romAddr) heq]
    rw [hsect']
    simp only [Option.bind_eq_bind, Option.bind_some]
    rw [hrom]

/-- Where a symbol's function is put, and the address it has. -/
theorem symbolEntry_spec {sym : FunctionSymbol} {entry : FunctionEntry}
    (h : symbolEntry config elf context sym = some entry) :
    entry.sectionIndex = sym.sectionIndex.toNat ∧ entry.func.sectionIndex = sym.sectionIndex ∧
      entry.listedAt = sym.value.setWidth 32 ∧ entry.addr = some (sym.value.setWidth 32) ∧
      (entry.func.words ≠ [] → entry.listed) ∧
      ∃ sect, context.sections[sym.sectionIndex.toNat]? = some sect ∧
        entry.func.vram =
          if config.isEntryRom (elf.romAddress sect sym.toSymtabEntry) sym
          then config.entrypointAddress else sym.value.setWidth 32 := by
  unfold symbolEntry at h
  obtain ⟨sect, hsect, h⟩ := Option.bind_eq_some_iff.mp h
  obtain ⟨words, hwords, h⟩ := Option.bind_eq_some_iff.mp h
  obtain rfl := Option.some.inj h
  refine ⟨rfl, rfl, rfl, rfl, fun hne => ?_, sect, hsect, rfl⟩
  refine decide_eq_true (BitVec.lt_def.mpr (Nat.pos_of_ne_zero fun hzero => hne ?_))
  -- a function without instructions has no words
  rw [hzero] at hwords
  exact (Option.some.inj hwords).symm

variable (config lists dumpingContext elf)

/-- A symbol of a section that becomes a function. -/
def isCallable (sym : SymtabEntry) : Bool :=
  ¬config.isAbsolute sym ∧ sym.sectionIndex.toNat < elf.context.sections.length ∧
    (prepareSymbol config lists dumpingContext sym).makesFunction

/-- The entry that a symbol leaves. -/
def entryOf (sym : SymtabEntry) : Option FunctionEntry :=
  if config.isAbsolute sym then some (absoluteEntry sym)
  else if isCallable config lists dumpingContext elf sym then
    symbolEntry config elf elf.context
      (lists.rename dumpingContext (prepareSymbol config lists dumpingContext sym))
  else none

variable {config lists dumpingContext elf}

/-- A turn of the loop enters what its symbol leaves, and fails when the words of a function are
not in the ROM. -/
theorem entered_readSymbol {st st' : ElfState} {sym : SymtabEntry}
    (h : Entered elf.context entries st.context)
    (hr : readSymbol config lists dumpingContext elf st sym = some st') :
    Entered elf.context (entries ++ (entryOf config lists dumpingContext elf sym).toList)
        st'.context ∧
      (isCallable config lists dumpingContext elf sym →
        (entryOf config lists dumpingContext elf sym).isSome) := by
  unfold readSymbol at hr
  by_cases habsolute : config.isAbsolute sym
  · rw [if_pos habsolute] at hr
    obtain rfl := Option.some.inj hr
    have hentry : entryOf config lists dumpingContext elf sym = some (absoluteEntry sym) := by
      unfold entryOf
      rw [if_pos habsolute]
    rw [hentry]
    exact ⟨h.enter _, fun _ => rfl⟩
  rw [if_neg habsolute, h.length_sections] at hr
  by_cases hlt : sym.sectionIndex.toNat < elf.context.sections.length
  · rw [if_pos hlt] at hr
    unfold ElfState.readDefined at hr
    simp only [Option.bind_eq_bind] at hr
    obtain ⟨_, -, hr⟩ := Option.bind_eq_some_iff.mp hr
    by_cases hmakes : (prepareSymbol config lists dumpingContext sym).makesFunction
    · have hcallable : isCallable config lists dumpingContext elf sym = true := by
        simp [isCallable, habsolute, hlt, hmakes]
      rw [if_pos hmakes] at hr
      obtain ⟨entry, hentry, hst⟩ := Option.bind_eq_some_iff.mp hr
      rw [h.symbolEntry_eq] at hentry
      have hentryOf : entryOf config lists dumpingContext elf sym = some entry := by
        unfold entryOf
        rw [if_neg habsolute, if_pos hcallable, hentry]
      obtain rfl := Option.some.inj hst
      rw [hentryOf, addDataSymbol_toSymbolState]
      exact ⟨h.enter entry, fun _ => rfl⟩
    · have hcallable : isCallable config lists dumpingContext elf sym = false := by
        simp [isCallable, hmakes]
      have hentryOf : entryOf config lists dumpingContext elf sym = none := by
        unfold entryOf
        rw [if_neg habsolute, if_neg (by simp [hcallable])]
      rw [if_neg hmakes] at hr
      obtain rfl := Option.some.inj hr
      rw [hentryOf, addDataSymbol_toSymbolState, Option.toList_none, List.append_nil]
      exact ⟨h, fun hc => by simp [hcallable] at hc⟩
  · have hcallable : isCallable config lists dumpingContext elf sym = false := by
      simp [isCallable, hlt]
    have hentryOf : entryOf config lists dumpingContext elf sym = none := by
      unfold entryOf
      rw [if_neg habsolute, if_neg (by simp [hcallable])]
    rw [if_neg hlt] at hr
    obtain rfl := Option.some.inj hr
    rw [hentryOf, addDataSymbol_toSymbolState, Option.toList_none, List.append_nil]
    exact ⟨h, fun hc => by simp [hcallable] at hc⟩

/-- **The symbol table leaves one entry for every symbol that becomes a function.** -/
theorem entered_readSymbols {syms : List SymtabEntry} {st : ElfState}
    (hr : readSymbols config lists dumpingContext elf syms = some st) :
    Entered elf.context (syms.filterMap (entryOf config lists dumpingContext elf)) st.context ∧
      ∀ sym ∈ syms, isCallable config lists dumpingContext elf sym →
        (entryOf config lists dumpingContext elf sym).isSome := by
  unfold readSymbols at hr
  induction syms using List.reverseRecOn generalizing st with
  | nil =>
    obtain rfl := Option.some.inj hr
    exact ⟨elf.entered, fun sym hsym => by cases hsym⟩
  | append_singleton syms sym ih =>
    rw [List.foldlM_append] at hr
    obtain ⟨st', hst', hlast⟩ := Option.bind_eq_some_iff.mp hr
    obtain ⟨hentered, hsome⟩ := ih hst'
    rw [List.foldlM_cons] at hlast
    obtain ⟨st'', hst'', hnil⟩ := Option.bind_eq_some_iff.mp hlast
    obtain rfl := Option.some.inj hnil
    obtain ⟨hentered', hsome'⟩ := entered_readSymbol hentered hst''
    refine ⟨?_, fun sym' hsym' => ?_⟩
    · rw [List.filterMap_append, List.filterMap_cons, List.filterMap_nil]
      cases hentry : entryOf config lists dumpingContext elf sym with
      | none => rwa [hentry] at hentered'
      | some entry => rwa [hentry] at hentered'
    · rcases List.mem_append.mp hsym' with hmem | hmem
      · exact hsome sym' hmem
      · rw [List.mem_singleton.mp hmem]
        exact hsome'

end Symbols

/-! ## Manual functions -/

section Manual

variable {base context : Context} {entries : List FunctionEntry}

/-- The entry of a manual function depends on its index alone. -/
theorem Entered.manualEntry_eq (h : Entered base entries context) (i : Nat)
    (manual : ManualFunction) : manualEntry context i manual = manualEntry base i manual := by
  have hnames : manual.sectionIn context.sections = manual.sectionIn base.sections := by
    have hname : ∀ sections : List Section, manual.sectionIn sections =
        manual.sectionIn (sections.map Section.withoutAddrs) := by
      intro sections
      unfold ManualFunction.sectionIn
      rw [List.findIdx?_map]
      rfl
    rw [hname, h.sections, ← hname]
  unfold manualEntry
  rw [hnames, h.rom]
  cases manual.sectionIn base.sections with
  | none => rfl
  | some s =>
    have hsection := h.section_eq s
    simp only [Option.bind_eq_bind, Option.bind_some]
    cases hsect : context.sections[s]? with
    | none =>
      rw [hsect, eq_comm, Option.map_none, Option.map_eq_none_iff] at hsection
      rw [hsection]
    | some sect =>
      rw [hsect, eq_comm, Option.map_some, Option.map_eq_some_iff] at hsection
      obtain ⟨sect', hsect', heq⟩ := hsection
      have hrom : sect'.romAddr = sect.romAddr := congrArg (·.romAddr) heq
      have hram : sect'.ramAddr = sect.ramAddr := congrArg (·.ramAddr) heq
      rw [hsect']
      simp only [Option.bind_some, hrom, hram]

/-- **The manual functions leave one entry each.** -/
theorem entered_addManualFunctions {manuals : List ManualFunction} {st st' : SymbolState}
    (h : Entered base entries st.context) (hr : addManualFunctions st manuals = some st') :
    ∃ added : List FunctionEntry, Entered base (entries ++ added) st'.context ∧
      (manuals.zipIdx entries.length).map (fun p => manualEntry base p.2 p.1) =
        added.map some := by
  unfold addManualFunctions at hr
  induction manuals generalizing entries st with
  | nil =>
    obtain rfl := Option.some.inj hr
    exact ⟨[], by rwa [List.append_nil], rfl⟩
  | cons manual manuals ih =>
    rw [List.foldlM_cons] at hr
    obtain ⟨next, hnext, hrest⟩ := Option.bind_eq_some_iff.mp hr
    unfold addManualFunction at hnext
    obtain ⟨entry, hentry, hguards⟩ := Option.bind_eq_some_iff.mp hnext
    obtain ⟨_, -, hguards⟩ := Option.bind_eq_some_iff.mp hguards
    obtain ⟨_, -, hguards⟩ := Option.bind_eq_some_iff.mp hguards
    obtain rfl := Option.some.inj hguards
    rw [h.manualEntry_eq, h.length_functions] at hentry
    obtain ⟨added, hadded, hmap⟩ := ih (h.enter entry) hrest
    refine ⟨entry :: added, ?_, ?_⟩
    · rwa [List.append_assoc] at hadded
    · rw [List.length_append, List.length_singleton] at hmap
      rw [List.zipIdx_cons, List.map_cons, List.map_cons, hmap, hentry]

end Manual

/-! ## The inputs -/

/-- What the two passes read. -/
structure SymbolInputs where
  config : SymbolConfig
  lists : SymbolLists
  dumpingContext : Bool
  elf : ElfSections
  syms : List SymtabEntry
  manuals : List ManualFunction

namespace SymbolInputs

variable (inputs : SymbolInputs)

/-- The symbols of the file, then the manual functions. -/
def run : Option SymbolState := do
  let st ← readSymbols inputs.config inputs.lists inputs.dumpingContext inputs.elf inputs.syms
  addManualFunctions st.toSymbolState inputs.manuals

/-- A symbol of a section that becomes a function. -/
abbrev callable (sym : SymtabEntry) : Bool :=
  isCallable inputs.config inputs.lists inputs.dumpingContext inputs.elf sym

/-- How many functions the symbol table gives. -/
def functionCount : Nat :=
  inputs.syms.countP fun sym => inputs.config.isAbsolute sym || inputs.callable sym

/-- The address of a symbol of a section. -/
def SymbolAddr (s : Nat) (a : BitVec 32) : Prop :=
  ∃ sym ∈ inputs.syms, inputs.callable sym ∧ sym.sectionIndex.toNat = s ∧
    sym.value.setWidth 32 = a

/-- The address of an absolute symbol; its function counts as one of the first section. -/
def AbsoluteAddr (s : Nat) (a : BitVec 32) : Prop :=
  ∃ sym ∈ inputs.syms, inputs.config.isAbsolute sym ∧ 0 = s ∧ sym.value.setWidth 32 = a

/-- The address of a manual function of a section. -/
def ManualAddr (s : Nat) (a : BitVec 32) : Prop :=
  ∃ manual ∈ inputs.manuals, manual.sectionIn inputs.elf.context.sections = some s ∧
    manual.vram = a

/-- The index of a manual function of a section, which stands in the place of its address. -/
def ManualIndex (s : Nat) (a : BitVec 32) : Prop :=
  ∃ (k : Nat) (manual : ManualFunction), inputs.manuals[k]? = some manual ∧
    manual.sectionIn inputs.elf.context.sections = some s ∧
    BitVec.ofNat 32 (inputs.functionCount + k) = a

/-- The functions at the ROM address of the entry point have the address that is configured. -/
def EntryAtValue : Prop :=
  ∀ sym ∈ inputs.syms, inputs.callable sym → ∀ sect,
    inputs.elf.context.sections[sym.sectionIndex.toNat]? = some sect →
    inputs.config.isEntryRom (inputs.elf.romAddress sect sym)
      (prepareSymbol inputs.config inputs.lists inputs.dumpingContext sym) →
    sym.value.setWidth 32 = inputs.config.entrypointAddress

/-- The indices of the manual functions of a section are addresses of functions of the section, and
the addresses that are not pushed are those of other symbols, or such indices. -/
structure AddrsAgree (s : Nat) : Prop where
  indices : ∀ a, inputs.ManualIndex s a →
    inputs.SymbolAddr s a ∨ inputs.AbsoluteAddr s a ∨ inputs.ManualAddr s a
  covered : ∀ a, inputs.AbsoluteAddr s a ∨ inputs.ManualAddr s a →
    inputs.SymbolAddr s a ∨ inputs.ManualIndex s a

variable {inputs}

/-- What a symbol leaves, with the address of its function. -/
theorem entryOf_cases {sym : SymtabEntry} {entry : FunctionEntry}
    (h : entryOf inputs.config inputs.lists inputs.dumpingContext inputs.elf sym = some entry) :
    (inputs.config.isAbsolute sym ∧ entry = absoluteEntry sym) ∨
      (inputs.callable sym ∧ entry.sectionIndex = sym.sectionIndex.toNat ∧
        entry.func.sectionIndex = sym.sectionIndex ∧ entry.listedAt = sym.value.setWidth 32 ∧
        entry.addr = some (sym.value.setWidth 32) ∧ (entry.func.words ≠ [] → entry.listed) ∧
        ∃ sect, inputs.elf.context.sections[sym.sectionIndex.toNat]? = some sect ∧
          entry.func.vram = if inputs.config.isEntryRom (inputs.elf.romAddress sect sym)
              (prepareSymbol inputs.config inputs.lists inputs.dumpingContext sym)
            then inputs.config.entrypointAddress else sym.value.setWidth 32) := by
  unfold entryOf at h
  by_cases habsolute : inputs.config.isAbsolute sym
  · rw [if_pos habsolute] at h
    exact Or.inl ⟨habsolute, (Option.some.inj h).symm⟩
  rw [if_neg habsolute] at h
  split at h
  swap
  · cases h
  rename_i hcallable
  refine Or.inr ⟨hcallable, ?_⟩
  obtain ⟨hvalue, hsection⟩ :=
    @prepareSymbol_place inputs.config inputs.lists inputs.dumpingContext sym
  obtain ⟨hrenValue, hrenSection, hrenType⟩ := @rename_place inputs.lists inputs.dumpingContext
    (prepareSymbol inputs.config inputs.lists inputs.dumpingContext sym)
  have hentry := symbolEntry_spec h
  -- the entry point is recognised by what the renaming keeps
  have hentryRom : ∀ romAddress, inputs.config.isEntryRom romAddress
      (inputs.lists.rename inputs.dumpingContext
        (prepareSymbol inputs.config inputs.lists inputs.dumpingContext sym)) =
      inputs.config.isEntryRom romAddress
        (prepareSymbol inputs.config inputs.lists inputs.dumpingContext sym) := by
    intro romAddress
    unfold SymbolConfig.isEntryRom
    rw [hrenType]
  have hrom : ∀ sect, inputs.elf.romAddress sect (inputs.lists.rename inputs.dumpingContext
      (prepareSymbol inputs.config inputs.lists inputs.dumpingContext sym)).toSymtabEntry =
      inputs.elf.romAddress sect sym := by
    intro sect
    unfold ElfSections.romAddress
    rw [hrenValue, hrenSection, hvalue, hsection]
  simp only [hrenValue, hrenSection, hvalue, hsection, hentryRom, hrom] at hentry
  exact hentry

/-- What a manual function leaves. -/
theorem manualEntry_spec {context : Context} {i : Nat} {manual : ManualFunction}
    {entry : FunctionEntry} (h : manualEntry context i manual = some entry) :
    manual.sectionIn context.sections = some entry.sectionIndex ∧
      entry.func.sectionIndex = BitVec.ofNat 16 entry.sectionIndex ∧
      entry.listedAt = manual.vram ∧ entry.func.vram = manual.vram ∧
      entry.addr = some (BitVec.ofNat 32 i) ∧ entry.listed := by
  unfold manualEntry at h
  obtain ⟨s, hs, h⟩ := Option.bind_eq_some_iff.mp h
  obtain ⟨sect, hsect, h⟩ := Option.bind_eq_some_iff.mp h
  obtain ⟨words, hwords, h⟩ := Option.bind_eq_some_iff.mp h
  obtain rfl := Option.some.inj h
  exact ⟨hs, rfl, rfl, rfl, rfl, rfl⟩

/-- The entries of the two passes. -/
structure Entries (inputs : SymbolInputs) (added : List FunctionEntry) : Prop where
  symbols : ∀ sym ∈ inputs.syms, inputs.callable sym →
    (entryOf inputs.config inputs.lists inputs.dumpingContext inputs.elf sym).isSome
  manuals : (inputs.manuals.zipIdx inputs.functionCount).map (fun p =>
    manualEntry inputs.elf.context p.2 p.1) = added.map some

/-- The list of the entries. -/
def entries (inputs : SymbolInputs) (added : List FunctionEntry) : List FunctionEntry :=
  inputs.syms.filterMap (entryOf inputs.config inputs.lists inputs.dumpingContext inputs.elf) ++
    added

/-- A run enters one entry for every symbol that becomes a function, and for every manual function. -/
theorem entered_run {st : SymbolState} (hrun : inputs.run = some st) :
    ∃ added, Entries inputs added ∧
      Entered inputs.elf.context (entries inputs added) st.context := by
  obtain ⟨middle, hmiddle, hmanual⟩ := Option.bind_eq_some_iff.mp hrun
  obtain ⟨hentered, hsome⟩ := entered_readSymbols hmiddle
  obtain ⟨added, hadded, hmap⟩ := entered_addManualFunctions hentered hmanual
  refine ⟨added, ⟨hsome, ?_⟩, hadded⟩
  have hcount : (inputs.syms.filterMap (entryOf inputs.config inputs.lists
      inputs.dumpingContext inputs.elf)).length = inputs.functionCount := by
    rw [List.length_filterMap_eq_countP]
    refine List.countP_congr fun sym hsym => ?_
    constructor
    · intro hisSome
      obtain ⟨entry, hentry⟩ := Option.isSome_iff_exists.mp hisSome
      rcases entryOf_cases hentry with ⟨habsolute, -⟩ | ⟨hcallable, -⟩
      · rw [habsolute, Bool.true_or]
      · rw [hcallable, Bool.or_true]
    · intro hor
      rcases Bool.or_eq_true_iff.mp hor with habsolute | hcallable
      · unfold entryOf
        rw [if_pos habsolute]
        rfl
      · exact hsome sym hsym hcallable
  rwa [hcount] at hmap

section Agreement

variable {added : List FunctionEntry} {s : Nat} {a : BitVec 32}

theorem mem_entries_iff (h : Entries inputs added) {entry : FunctionEntry} :
    entry ∈ entries inputs added ↔
      (∃ sym ∈ inputs.syms,
        entryOf inputs.config inputs.lists inputs.dumpingContext inputs.elf sym = some entry) ∨
      ∃ (k : Nat) (manual : ManualFunction), inputs.manuals[k]? = some manual ∧
        manualEntry inputs.elf.context (inputs.functionCount + k) manual = some entry := by
  have hmem : entry ∈ added ↔ ∃ (k : Nat) (manual : ManualFunction),
      inputs.manuals[k]? = some manual ∧
        manualEntry inputs.elf.context (inputs.functionCount + k) manual = some entry := by
    rw [← List.mem_map_of_injective (Option.some_injective _), ← h.manuals, List.mem_map]
    constructor
    · rintro ⟨⟨manual, i⟩, hmem, hentry⟩
      obtain ⟨hle, hk⟩ := List.mem_zipIdx_iff_le_and_getElem?_sub.mp hmem
      refine ⟨i - inputs.functionCount, manual, hk, ?_⟩
      rwa [Nat.add_sub_cancel' hle]
    · rintro ⟨k, manual, hk, hentry⟩
      refine ⟨(manual, inputs.functionCount + k), ?_, hentry⟩
      refine List.mem_zipIdx_iff_le_and_getElem?_sub.mpr ⟨Nat.le_add_right _ _, ?_⟩
      simpa using hk
  unfold entries
  rw [List.mem_append, List.mem_filterMap, hmem]

/-- Every manual function has its entry. -/
theorem Entries.exists_manual (h : Entries inputs added) {k : Nat} {manual : ManualFunction}
    (hk : inputs.manuals[k]? = some manual) :
    ∃ entry, manualEntry inputs.elf.context (inputs.functionCount + k) manual = some entry := by
  have hget := congrArg (·[k]?) h.manuals
  simp only [List.getElem?_map, List.getElem?_zipIdx, hk, Option.map_some] at hget
  obtain ⟨entry, -, hentry⟩ := Option.map_eq_some_iff.mp hget.symm
  exact ⟨entry, hentry.symm⟩

/-- The entries put their functions where they belong. -/
theorem Entries.sound (h : Entries inputs added) : ∀ entry ∈ entries inputs added,
    entry.Sound inputs.elf.context.sections.length := by
  intro entry hentry
  rcases (mem_entries_iff h).mp hentry with ⟨sym, hsym, hof⟩ | ⟨k, manual, hk, hmanual⟩
  · rcases entryOf_cases hof with ⟨-, rfl⟩ | ⟨-, hs, hfunc, -, -, hlisted, sect, hsect, -⟩
    · exact ⟨rfl, fun hwords => absurd rfl hwords⟩
    · refine ⟨by rw [hfunc, hs], fun hwords => ⟨hlisted hwords, ?_⟩⟩
      rw [hs]
      exact (List.getElem?_eq_some_iff.mp hsect).1
  · obtain ⟨hs, hfunc, -, -, -, hlisted⟩ := manualEntry_spec hmanual
    have hlt : entry.sectionIndex < inputs.elf.context.sections.length :=
      (List.findIdx?_eq_some_iff_findIdx_eq.mp hs).1
    refine ⟨?_, fun _ => ⟨hlisted, hlt⟩⟩
    rw [hfunc, BitVec.toNat_ofNat]
    exact Nat.mod_eq_of_lt (hlt.trans inputs.elf.length_lt)

/-- What is pushed to the addresses of a section. -/
theorem Entries.addr_iff (h : Entries inputs added) :
    (∃ entry ∈ entries inputs added, entry.sectionIndex = s ∧ entry.addr = some a) ↔
      inputs.SymbolAddr s a ∨ inputs.ManualIndex s a := by
  constructor
  · rintro ⟨entry, hentry, hs, ha⟩
    rcases (mem_entries_iff h).mp hentry with ⟨sym, hsym, hof⟩ | ⟨k, manual, hk, hmanual⟩
    · rcases entryOf_cases hof with ⟨-, rfl⟩ | ⟨hcallable, hsection, -, -, haddr, -⟩
      · cases ha
      · rw [haddr] at ha
        exact Or.inl ⟨sym, hsym, hcallable, hsection ▸ hs, Option.some.inj ha⟩
    · obtain ⟨hsection, -, -, -, haddr, -⟩ := manualEntry_spec hmanual
      rw [haddr] at ha
      exact Or.inr ⟨k, manual, hk, hs ▸ hsection, Option.some.inj ha⟩
  · rintro (⟨sym, hsym, hcallable, hs, ha⟩ | ⟨k, manual, hk, hs, ha⟩)
    · obtain ⟨entry, hof⟩ := Option.isSome_iff_exists.mp (h.symbols sym hsym hcallable)
      refine ⟨entry, (mem_entries_iff h).mpr (Or.inl ⟨sym, hsym, hof⟩), ?_⟩
      rcases entryOf_cases hof with ⟨habsolute, -⟩ | ⟨-, hsection, -, -, haddr, -⟩
      · simp [isCallable, habsolute] at hcallable
      · exact ⟨hsection.trans hs, by rw [haddr, ha]⟩
    · obtain ⟨entry, hmanual⟩ := h.exists_manual hk
      refine ⟨entry, (mem_entries_iff h).mpr (Or.inr ⟨k, manual, hk, hmanual⟩), ?_⟩
      obtain ⟨hsection, -, -, -, haddr, -⟩ := manualEntry_spec hmanual
      rw [hs] at hsection
      exact ⟨(Option.some.inj hsection).symm, by rw [haddr, ha]⟩

/-- A function is listed at its own address when that is the value of its symbol. -/
theorem EntryAtValue.listedAt_eq (hatValue : inputs.EntryAtValue) {sym : SymtabEntry}
    {entry : FunctionEntry} (hsym : sym ∈ inputs.syms)
    (hof : entryOf inputs.config inputs.lists inputs.dumpingContext inputs.elf sym = some entry) :
    entry.listedAt = entry.func.vram := by
  rcases entryOf_cases hof with ⟨-, rfl⟩ | ⟨hcallable, -, -, hlistedAt, -, -, sect, hsect, hvram⟩
  · rfl
  · rw [hlistedAt, hvram]
    split
    · rename_i hentryRom
      exact hatValue sym hsym hcallable sect hsect hentryRom
    · rfl

/-- Every function is listed at its own address exactly when the entry point is. -/
theorem Entries.listedAt_iff (h : Entries inputs added) :
    (∀ entry ∈ entries inputs added, entry.listedAt = entry.func.vram) ↔ inputs.EntryAtValue := by
  constructor
  · intro hlisted sym hsym hcallable sect hsect hentryRom
    obtain ⟨entry, hof⟩ := Option.isSome_iff_exists.mp (h.symbols sym hsym hcallable)
    have heq := hlisted entry ((mem_entries_iff h).mpr (Or.inl ⟨sym, hsym, hof⟩))
    rcases entryOf_cases hof with ⟨habsolute, -⟩ | ⟨-, -, -, hlistedAt, -, -, sect', hsect', hvram⟩
    · simp [isCallable, habsolute] at hcallable
    · rw [hsect] at hsect'
      obtain rfl := Option.some.inj hsect'
      rwa [hlistedAt, hvram, if_pos hentryRom] at heq
  · intro hatValue entry hentry
    rcases (mem_entries_iff h).mp hentry with ⟨sym, hsym, hof⟩ | ⟨k, manual, hk, hmanual⟩
    · exact hatValue.listedAt_eq hsym hof
    · obtain ⟨-, -, hlistedAt, hvram, -⟩ := manualEntry_spec hmanual
      rw [hlistedAt, hvram]

/-- The addresses of the functions of a section, when the entry point has the address that its
symbol has. -/
theorem Entries.vram_iff (h : Entries inputs added) (hatValue : inputs.EntryAtValue) :
    (∃ entry ∈ entries inputs added, entry.sectionIndex = s ∧ entry.func.vram = a) ↔
      inputs.SymbolAddr s a ∨ inputs.AbsoluteAddr s a ∨ inputs.ManualAddr s a := by
  constructor
  · rintro ⟨entry, hentry, hs, ha⟩
    rcases (mem_entries_iff h).mp hentry with ⟨sym, hsym, hof⟩ | ⟨k, manual, hk, hmanual⟩
    · rcases entryOf_cases hof with ⟨habsolute, rfl⟩ | ⟨hcallable, hsection, -, hlistedAt, -⟩
      · exact Or.inr (Or.inl ⟨sym, hsym, habsolute, hs, ha⟩)
      · rw [← hatValue.listedAt_eq hsym hof, hlistedAt] at ha
        exact Or.inl ⟨sym, hsym, hcallable, hsection ▸ hs, ha⟩
    · obtain ⟨hsection, -, -, hvram, -⟩ := manualEntry_spec hmanual
      exact Or.inr (Or.inr ⟨manual, List.mem_of_getElem? hk, hs ▸ hsection, hvram ▸ ha⟩)
  · rintro (⟨sym, hsym, hcallable, hs, ha⟩ | ⟨sym, hsym, habsolute, hs, ha⟩ |
      ⟨manual, hmanual, hs, ha⟩)
    · obtain ⟨entry, hof⟩ := Option.isSome_iff_exists.mp (h.symbols sym hsym hcallable)
      refine ⟨entry, (mem_entries_iff h).mpr (Or.inl ⟨sym, hsym, hof⟩), ?_⟩
      rw [← hatValue.listedAt_eq hsym hof]
      rcases entryOf_cases hof with ⟨habsolute, -⟩ | ⟨-, hsection, -, hlistedAt, -⟩
      · simp [isCallable, habsolute] at hcallable
      · exact ⟨hsection.trans hs, hlistedAt.trans ha⟩
    · refine ⟨absoluteEntry sym, (mem_entries_iff h).mpr (Or.inl ⟨sym, hsym, ?_⟩), hs, ha⟩
      unfold entryOf
      rw [if_pos habsolute]
    · obtain ⟨k, hk⟩ := List.mem_iff_getElem?.mp hmanual
      obtain ⟨entry, hentry⟩ := h.exists_manual hk
      refine ⟨entry, (mem_entries_iff h).mpr (Or.inr ⟨k, manual, hk, hentry⟩), ?_⟩
      obtain ⟨hsection, -, -, hvram, -⟩ := manualEntry_spec hentry
      rw [hs] at hsection
      exact ⟨(Option.some.inj hsection).symm, hvram.trans ha⟩

end Agreement

/-- **The indices of an ELF file's functions.** They agree with the functions exactly when the entry
point has the address of its symbol, and when no address of an absolute symbol or of a manual
function is missing from those that are pushed. -/
theorem symbolIndices_iff {st : SymbolState} (hrun : inputs.run = some st) :
    SymbolIndices st.context ↔ inputs.EntryAtValue ∧
      ∀ s < inputs.elf.context.sections.length, inputs.AddrsAgree s := by
  obtain ⟨added, hentries, hentered⟩ := entered_run hrun
  rw [hentered.indices_iff hentries.sound, hentries.listedAt_iff]
  refine and_congr_right fun hatValue => forall₂_congr fun s hs => ?_
  have haddr := fun a => hentries.addr_iff (s := s) (a := a)
  have hvram := fun a => hentries.vram_iff (s := s) (a := a) hatValue
  constructor
  · intro hagree
    refine ⟨fun a hindex => ?_, fun a hmissing => ?_⟩
    · exact (hvram a).mp ((hagree a).mp ((haddr a).mpr (Or.inr hindex)))
    · exact (haddr a).mp ((hagree a).mpr ((hvram a).mpr (Or.inr hmissing)))
  · intro hagree a
    rw [haddr, hvram]
    constructor
    · rintro (hsymbol | hindex)
      · exact Or.inl hsymbol
      · exact hagree.indices a hindex
    · rintro (hsymbol | hmissing)
      · exact Or.inl hsymbol
      · exact hagree.covered a hmissing

end SymbolInputs

/-! ## Three symbols -/

/-- A section of two words at the ROM address of the entry point. -/
def bootSections : ElfSections where
  context := { Context.empty with
    sections := [{ Section.empty with
      romAddr := 0x1000, ramAddr := 0x80000400, size := 8, name := ascii ".boot" }]
    sectionFunctions := [[]]
    rom := List.replicate 0x1008 0 }
  address := fun _ => 0x80000400
  bssSectionIndex := [0xFFFF]
  functions_eq := rfl
  functionsByVram_eq := rfl
  sectionFunctions_eq := rfl
  functionAddrs_eq := by simp [Section.empty]
  length_lt := by decide

/-- A program of one symbol, which is at the start of the section. -/
def bootInputs (entrypoint : BitVec 32) (sectionIndex : BitVec 16)
    (manuals : List ManualFunction) : SymbolInputs where
  config := ⟨fun _ => none, true, entrypoint, true⟩
  lists := ⟨fun _ => false, fun _ => false, fun _ => false⟩
  dumpingContext := false
  elf := bootSections
  syms := [⟨ascii "boot", 0x80000400, 4, 1, sttFunc, 0, sectionIndex⟩]
  manuals

/-- An entry point at the address of its symbol, and no manual function. -/
theorem bootInputs_symbolIndices :
    ∃ st, (bootInputs 0x80000400 0 []).run = some st ∧ SymbolIndices st.context := by
  obtain ⟨st, hst⟩ := Option.isSome_iff_exists.mp
    (by decide +kernel : (bootInputs 0x80000400 0 []).run.isSome)
  refine ⟨st, hst, (SymbolInputs.symbolIndices_iff hst).mpr ⟨?_, fun s _ => ⟨?_, ?_⟩⟩⟩
  · intro sym hsym _ _ _ _
    obtain rfl := List.mem_singleton.mp hsym
    rfl
  · rintro a ⟨k, manual, hk, -⟩
    cases hk
  · rintro a (⟨sym, hsym, habsolute, -⟩ | ⟨manual, hmanual, -⟩)
    · obtain rfl := List.mem_singleton.mp hsym
      exact absurd habsolute (by decide)
    · cases hmanual

/-- An entry point elsewhere than its symbol, an absolute symbol, and a manual function behind the
symbol: the first is listed under another address than its own, and the addresses of the other two
are not among those of their section. -/
theorem bootInputs_not_symbolIndices :
    (∃ st, (bootInputs 0x80000000 0 []).run = some st ∧ ¬SymbolIndices st.context) ∧
    (∃ st, (bootInputs 0x80000400 shnAbs []).run = some st ∧ ¬SymbolIndices st.context) ∧
    ∃ st, (bootInputs 0x80000400 0 [⟨ascii "next", ascii ".boot", 0x80000404, 4⟩]).run = some st ∧
      ¬SymbolIndices st.context := by
  refine ⟨?_, ?_, ?_⟩
  · obtain ⟨st, hst⟩ := Option.isSome_iff_exists.mp
      (by decide +kernel : (bootInputs 0x80000000 0 []).run.isSome)
    refine ⟨st, hst, fun h => ?_⟩
    have hlisted : (bootInputs 0x80000000 0 []).run.map
        (fun st => (st.context.functionsByVram 0x80000400, st.context.functions.map (·.vram))) =
          some ([0], [0x80000000]) := by decide +kernel
    rw [hst] at hlisted
    obtain ⟨hindices, hvrams⟩ := Prod.mk.inj (Option.some.inj hlisted)
    have hvram := h.getElem?_vram (hindices.symm ▸ List.mem_singleton_self 0)
    rw [hvrams] at hvram
    exact absurd hvram (by decide)
  · obtain ⟨st, hst⟩ := Option.isSome_iff_exists.mp
      (by decide +kernel : (bootInputs 0x80000400 shnAbs []).run.isSome)
    refine ⟨st, hst, fun h => ?_⟩
    have haddrs : (bootInputs 0x80000400 shnAbs []).run.map
        (fun st => (st.context.functions.map fun func => (func.sectionIndex.toNat, func.vram),
          st.context.sections.map (·.functionAddrs))) =
          some ([(0, 0x80000400)], [[]]) := by decide +kernel
    rw [hst] at haddrs
    obtain ⟨hfunctions, hpushed⟩ := Prod.mk.inj (Option.some.inj haddrs)
    have hmem := h.mem_functionAddrs (s := 0) (hfunctions.symm ▸ List.mem_singleton_self _)
      (by rw [hpushed]; rfl)
    cases hmem
  · obtain ⟨st, hst⟩ := Option.isSome_iff_exists.mp
      (by decide +kernel : (bootInputs 0x80000400 0
        [⟨ascii "next", ascii ".boot", 0x80000404, 4⟩]).run.isSome)
    refine ⟨st, hst, fun h => ?_⟩
    have haddrs : (bootInputs 0x80000400 0 [⟨ascii "next", ascii ".boot", 0x80000404, 4⟩]).run.map
        (fun st => (st.context.functions.map fun func => (func.sectionIndex.toNat, func.vram),
          st.context.sections.map (·.functionAddrs))) =
          some ([(0, 0x80000400), (0, 0x80000404)], [[0x80000400, 1]]) := by decide +kernel
    rw [hst] at haddrs
    obtain ⟨hfunctions, hpushed⟩ := Prod.mk.inj (Option.some.inj haddrs)
    have hmem := h.mem_functionAddrs (s := 0) (a := 0x80000404)
      (hfunctions.symm ▸ List.mem_cons_of_mem _ (List.mem_singleton_self _)) (by rw [hpushed]; rfl)
    exact absurd hmem (by decide)

end N64Recomp
