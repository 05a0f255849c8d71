import N64Recomp.Data.Except
import N64Recomp.Elf.SymbolIndices
import N64Recomp.Overlays.SectionTable

/-!
# The rows of the overlay table

What the runtime finds in the overlay table. The sections of the context are counted, also those
without a row; every row is that of a section, and the offsets in it are offsets in the section: of
the instruction at which a function or an alias is entered, and of the words that are relocated.

## Main definitions

* `SectionLists`, `AliasTable.Placed`: what the passes before promise
* `EncodedAt`: the address at which the words of a section are encoded
* `OverlayFile.Correct`: what the runtime relies on

## Main results

* `AliasState.placed_registerInteriorDispatchAliases`, `BlobSection.placed_addDispatchAlias`: the
  aliases are placed
* `write_correct`: the table is correct
-/

namespace N64Recomp

/-! ## What the passes before promise -/

/-- The sections list their functions, each function with words once. -/
structure SectionLists (context : Context) : Prop where
  length_eq : context.sectionFunctions.length = context.sections.length
  nodup : ∀ s, (context.sectionFunctions.getD s []).Nodup
  own : ∀ s, ∀ i ∈ context.sectionFunctions.getD s [],
    ∃ func, context.functions[i]? = some func ∧ func.sectionIndex.toNat = s
  mem : ∀ (i : Nat) func, context.functions[i]? = some func → func.words ≠ [] →
    i ∈ context.sectionFunctions.getD func.sectionIndex.toNat []

/-- **The symbols of an ELF file and the manual functions keep the promise.** -/
theorem SymbolInputs.sectionLists_run {inputs : SymbolInputs} {st : SymbolState}
    (hrun : inputs.run = some st) : SectionLists st.context := by
  obtain ⟨added, hentries, hentered⟩ := entered_run hrun
  have hlength := hentered.length_sections
  have hnone : ∀ s, inputs.elf.context.sections.length ≤ s →
      st.context.sectionFunctions.getD s [] = [] := by
    intro s hs
    rw [List.getD_eq_getElem?_getD, List.getElem?_eq_none (by rw [hentered.length_lists]; exact hs)]
    rfl
  have hlist : ∀ s < inputs.elf.context.sections.length,
      st.context.sectionFunctions.getD s [] = listedIn (entries inputs added) s := by
    intro s hs
    rw [List.getD_eq_getElem?_getD, hentered.bySection s hs]
    rfl
  refine ⟨hentered.length_lists.trans hlength.symm, fun s => ?_, fun s i hi => ?_,
    fun i func hfunc hwords => ?_⟩
  · rcases Nat.lt_or_ge s inputs.elf.context.sections.length with hs | hs
    · rw [hlist s hs]
      exact nodup_listedIn _ _
    · rw [hnone s hs]
      exact List.nodup_nil
  · rcases Nat.lt_or_ge s inputs.elf.context.sections.length with hs | hs
    · rw [hlist s hs] at hi
      obtain ⟨entry, hentry, -, hindex⟩ := mem_listedIn.mp hi
      refine ⟨entry.func, by rw [hentered.functions, List.getElem?_map, hentry]; rfl, ?_⟩
      rw [(hentries.sound entry (List.mem_of_getElem? hentry)).sectionIndex, hindex]
    · rw [hnone s hs] at hi
      cases hi
  · rw [hentered.functions, List.getElem?_map] at hfunc
    obtain ⟨entry, hentry, rfl⟩ := Option.map_eq_some_iff.mp hfunc
    have hsound := hentries.sound entry (List.mem_of_getElem? hentry)
    obtain ⟨hlisted, hlt⟩ := hsound.listed hwords
    rw [hsound.sectionIndex, hlist _ hlt]
    exact mem_listedIn.mpr ⟨entry, hentry, hlisted, rfl⟩

/-- The ROM address of an address in a function. -/
def Function.romOf (func : Function) (vram : BitVec 32) : BitVec 32 := func.rom + (vram - func.vram)

/-- An alias is at the ROM address that its address has in its function. -/
def DispatchAlias.Placed (dispatch : DispatchAlias) (functions : List Function) : Prop :=
  ∃ func, functions[dispatch.targetFunctionIndex]? = some func ∧
    dispatch.rom = func.romOf dispatch.vram

/-- All aliases are placed. -/
def AliasTable.Placed (aliases : AliasTable) (context : Context) : Prop :=
  ∀ dispatch ∈ aliases.dispatchAliases, dispatch.Placed context.functions

section Aliases

variable {dispatch : DispatchAlias} {functions : List Function} {aliases : AliasTable}
  {i : Nat} {target : BitVec 32}

/-- A further entry of a function does not move it. -/
theorem DispatchAlias.Placed.modify (h : dispatch.Placed functions) :
    dispatch.Placed (functions.modify i (·.insertDispatchEntry target)) := by
  obtain ⟨func, hfunc, hrom⟩ := h
  unfold DispatchAlias.Placed
  rw [List.getElem?_modify, hfunc]
  refine ⟨_, rfl, ?_⟩
  dsimp only
  split <;> exact hrom

/-- A new alias that is placed. -/
theorem AliasTable.Placed.push {context : Context} (h : aliases.Placed context)
    (hnew : dispatch.Placed context.functions) : (aliases.push dispatch).Placed context := by
  intro other hother
  rcases List.mem_append.mp hother with hold | hlast
  · exact h other hold
  · obtain rfl := List.mem_singleton.mp hlast
    exact hnew

/-- What the pass over the functions keeps: the aliases are placed, and the functions are where they
were. -/
structure AliasState.Keeps (functions : List Function) (st : AliasState) : Prop where
  placed : st.aliases.Placed st.context
  places : ∀ (i : Nat) func, functions[i]? = some func →
    ∃ now, st.context.functions[i]? = some now ∧ now.vram = func.vram ∧ now.rom = func.rom

/-- A turn of the loop over the words of a function. -/
theorem AliasState.Keeps.register {st : AliasState} {func : Function} (h : st.Keeps functions)
    (hfunc : functions[i]? = some func) : (st.register i func target).Keeps functions where
  placed := by
    intro dispatch hdispatch
    refine DispatchAlias.Placed.modify ?_
    unfold AliasState.register at hdispatch
    dsimp only at hdispatch
    split at hdispatch
    · exact h.placed dispatch hdispatch
    · refine h.placed.push ?_ dispatch hdispatch
      obtain ⟨now, hnow, hvram, hrom⟩ := h.places i func hfunc
      exact ⟨now, hnow, by unfold Function.romOf; rw [hvram, hrom]⟩
  places j other hother := by
    obtain ⟨now, hnow, hplace⟩ := h.places j other hother
    unfold AliasState.register
    rw [List.getElem?_modify, hnow]
    refine ⟨_, rfl, ?_⟩
    dsimp only
    split <;> exact hplace

/-- **The pass over the functions places its aliases.** -/
theorem AliasState.placed_registerInteriorDispatchAliases
    {branchLinkTarget : BitVec 32 → BitVec 32 → Option (BitVec 32)} {st : AliasState}
    (h : st.aliases.Placed st.context) :
    (registerInteriorDispatchAliases branchLinkTarget st).aliases.Placed
      (registerInteriorDispatchAliases branchLinkTarget st).context := by
  have hwords : ∀ (targets : List (BitVec 32)) {i func} (st' : AliasState),
      st.context.functions[i]? = some func → st'.Keeps st.context.functions →
      (targets.foldl (fun st target =>
        if st.context.isInteriorTarget func target then st.register i func target else st)
          st').Keeps st.context.functions := by
    intro targets i func st' hfunc
    induction targets generalizing st' with
    | nil => exact id
    | cons target targets ih =>
      intro hkeeps
      refine ih _ ?_
      dsimp only
      split
      · exact hkeeps.register hfunc
      · exact hkeeps
  have hfunctions : ∀ (l : List (Function × Nat)) (st' : AliasState),
      (∀ p ∈ l, st.context.functions[p.2]? = some p.1) → st'.Keeps st.context.functions →
      (l.foldl (fun st p =>
        if p.1.words = [] ∨ p.1.ignored ∨ p.1.reimplemented ∨ p.1.stubbed then st
        else st.registerFunction branchLinkTarget p.2 p.1) st').Keeps st.context.functions := by
    intro l
    induction l with
    | nil => exact fun _ _ => id
    | cons p l ih =>
      intro st' hmem hkeeps
      refine ih _ (fun q hq => hmem q (List.mem_cons_of_mem _ hq)) ?_
      dsimp only
      split
      · exact hkeeps
      · exact hwords _ st' (hmem p List.mem_cons_self) hkeeps
  refine (hfunctions _ st (fun p hp => List.mem_zipIdx_iff_getElem?.mp hp) ⟨h, ?_⟩).placed
  exact fun i func hfunc => ⟨func, hfunc, rfl, rfl⟩

/-- **The pass over a decompressed section places its aliases**, when the parent is one of the
functions that it added. -/
theorem BlobSection.placed_addDispatchAlias {pass pass' : BlobSection} {parent : Nat}
    {offsets offsets' : List (BitVec 32)} {entryOffset : BitVec 32} {aliases' : AliasTable}
    {added : Bool} (h : aliases.Placed pass.context)
    (hparent : ∀ func, pass.context.functions[parent]? = some func →
      func.vram - pass.vram = func.rom - pass.syntheticRom)
    (hadd : pass.addDispatchAlias aliases offsets parent entryOffset =
      some (pass', aliases', offsets', added)) : aliases'.Placed pass'.context := by
  unfold addDispatchAlias at hadd
  split at hadd
  · obtain ⟨rfl, rfl, -⟩ := Prod.mk.inj (Option.some.inj hadd) |>.imp_right Prod.mk.inj
    exact h
  · obtain ⟨func, hfunc, hadd⟩ := Option.bind_eq_some_iff.mp hadd
    dsimp only at hadd
    split at hadd
    · obtain ⟨rfl, rfl, -⟩ := Prod.mk.inj (Option.some.inj hadd) |>.imp_right Prod.mk.inj
      exact h
    · obtain ⟨rfl, rfl, -⟩ := Prod.mk.inj (Option.some.inj hadd) |>.imp_right Prod.mk.inj
      intro dispatch hdispatch
      refine DispatchAlias.Placed.modify (h.push ⟨func, hfunc, ?_⟩ dispatch hdispatch)
      -- the parent is as far from the start of the section in the memory as in the ROM
      have hsame := hparent func hfunc
      unfold Function.romOf
      dsimp only
      rw [show pass.vram + entryOffset - func.vram = entryOffset - (func.vram - pass.vram) by
        bv_omega, hsame]
      bv_omega

end Aliases

/-! ## The words of a section -/

/-- The functions of a section that lie in its ROM range. -/
def Context.measured (context : Context) (s : Nat) (sect : Section) : List Function :=
  (context.functionsOf s).filter sect.measures

/-- The address at which a section is encoded, by one of its functions. -/
def Section.baseOf (sect : Section) (func : Function) : BitVec 32 :=
  func.vram - (func.rom - sect.romAddr)

/-- The words of a section are encoded at an address: the relocations are those of words that lie
behind it, and the functions agree on it; they do not have to when it is the section's own. -/
structure EncodedAt (context : Context) (s : Nat) (sect : Section) (base : BitVec 32) : Prop where
  relocs : ∀ reloc ∈ sect.relocs, base.toNat ≤ reloc.address.toNat ∧
    reloc.address.toNat < base.toNat + sect.size.toNat
  functions : (context.measured s sect ≠ [] ∧
      ∀ func ∈ context.measured s sect, sect.baseOf func = base) ∨
    (base = sect.ramAddr ∧ (context.measured s sect = [] ∨
      ∃ f ∈ context.measured s sect, ∃ g ∈ context.measured s sect,
        sect.baseOf f ≠ sect.baseOf g))

section Words

variable {context : Context} {s : Nat} {sect : Section} {base : BitVec 32}

/-- The base that is inferred. -/
theorem EncodedAt.infer_eq (h : EncodedAt context s sect base) (hlists : SectionLists context)
    (hs : context.sections[s]? = some sect) :
    inferRecompSectionEncodedVramBase context s = base := by
  have hlt := (List.getElem?_eq_some_iff.mp hs).1
  have hsect : context.sectionAt s = sect := by
    unfold Context.sectionAt
    rw [List.getD_eq_getElem?_getD, hs]
    rfl
  unfold inferRecompSectionEncodedVramBase
  rw [if_neg (by rw [hlists.length_eq]; omega), hsect]
  have hfunctions := h.functions
  unfold Context.measured at hfunctions
  dsimp only
  cases hmeasured : (context.functionsOf s).filter sect.measures with
  | nil =>
    rw [hmeasured] at hfunctions
    rcases hfunctions with ⟨hne, -⟩ | ⟨hram, -⟩
    · exact absurd rfl hne
    · exact hram.symm
  | cons func rest =>
    rw [hmeasured] at hfunctions
    simp only [List.map_cons, List.all_map]
    rcases hfunctions with ⟨-, hbase⟩ | ⟨rfl, hempty | ⟨f, hf, g, hg, hne⟩⟩
    · rw [if_pos]
      · exact hbase func List.mem_cons_self
      · refine List.all_eq_true.mpr fun other hother => decide_eq_true ?_
        exact (hbase other (List.mem_cons_of_mem _ hother)).trans
          (hbase func List.mem_cons_self).symm
    · cases hempty
    · rw [if_neg]
      -- two of the functions are encoded at different addresses
      intro hall
      have heq : ∀ other ∈ func :: rest, sect.baseOf other = sect.baseOf func := by
        intro other hother
        rcases List.mem_cons.mp hother with rfl | hother
        · rfl
        · exact of_decide_eq_true (List.all_eq_true.mp hall other hother)
      exact hne ((heq f hf).trans (heq g hg).symm)

/-- The offset in the row of a relocation leads from the base to the relocated word. -/
theorem EncodedAt.relocOffset (h : EncodedAt context s sect base) (hlists : SectionLists context)
    (hs : context.sections[s]? = some sect) {reloc : Reloc} (hreloc : reloc ∈ sect.relocs) :
    base + relocOffsetInSection context s sect reloc.address = reloc.address ∧
      (relocOffsetInSection context s sect reloc.address).toNat < sect.size.toNat := by
  have hrange := h.relocs reloc hreloc
  unfold relocOffsetInSection
  rw [h.infer_eq hlists hs]
  dsimp only
  rw [if_pos hrange]
  constructor
  · bv_omega
  · rw [BitVec.toNat_sub_of_le (BitVec.le_def.mpr hrange.1)]
    omega

end Words

/-! ## The table -/

/-- A function that the recompiler emits, or that the runtime brings, and that has words. -/
def Function.isEmitted (func : Function) : Bool := func.hasRow ∧ func.words ≠ []

/-- A row leads from the start of the section to an address in a function. -/
def FuncEntry.LeadsTo (entry : FuncEntry) (sect : Section) (func : Function) (vram : BitVec 32) :
    Prop :=
  sect.romAddr + entry.offset = func.romOf vram

/-- What the runtime relies on, of the row of a section. -/
structure RowCorrect (input : OverlayInput) (s : Nat) (sect : Section) (row : SectionTableEntry) :
    Prop where
  place : row.romAddr = sect.romAddr ∧ row.ramAddr = sect.ramAddr ∧ row.size = sect.size
  /-- First the functions, each emitted one once, by the instruction at which it starts; then the
  aliases, by their addresses. -/
  funcs : ∃ (indices : List Nat) (aliases : List DispatchAlias) (funcRows aliasRows : List FuncEntry),
    row.funcs = funcRows ++ aliasRows ∧ indices.Nodup ∧
    (∀ (i : Nat) func, input.context.functions[i]? = some func → func.sectionIndex.toNat = s →
      func.isEmitted → i ∈ indices) ∧
    List.Forall₂ (fun i entry => ∃ func, input.context.functions[i]? = some func ∧
      func.sectionIndex.toNat = s ∧ entry.func = func.name ∧
      entry.LeadsTo sect func func.entry) indices funcRows ∧
    List.Forall₂ (fun dispatch entry => ∃ func,
      input.context.functions[dispatch.targetFunctionIndex]? = some func ∧
      entry.func = dispatch.name ∧ entry.LeadsTo sect func dispatch.vram) aliases aliasRows
  /-- The relocations, by the offsets of their words. -/
  relocs : ∀ base, EncodedAt input.context s sect base →
    List.Forall₂ (fun reloc entry => base + entry.offset = reloc.address ∧
        entry.offset.toNat < sect.size.toNat)
      (sect.relocs.filter (·.hasRow input.referenceSymbolMode)) row.relocs

/-- What the runtime relies on, of the file. -/
structure OverlayFile.Correct (input : OverlayInput) (file : OverlayFile) : Prop where
  /-- All sections are counted, as the rows name them. -/
  numSections : file.numSections = input.context.sections.length
  /-- A section has one row when it is written, and none otherwise. -/
  written : ∀ (s : Nat) sect, input.context.sections[s]? = some sect →
    (file.sectionTable.map (·.index)).count s = if input.isWritten s sect then 1 else 0
  rows : ∀ row ∈ file.sectionTable, row.index < file.numSections ∧
    ∃ sect, input.context.sections[row.index]? = some sect ∧ RowCorrect input row.index sect row
  /-- An entry other than `-1` is the row of a section of its name. -/
  byIndex : ∀ (k : Nat) e, file.overlaySectionsByIndex[k]? = some e → e ≠ -1 →
    ∃ (r : Nat) (row : SectionTableEntry) (sect : Section), e = r ∧
      file.sectionTable[r]? = some row ∧ input.context.sections[row.index]? = some sect ∧
      input.relocatableSectionsOrdered[k]? = some sect.name ∧ sect.relocatable

namespace OverlayInput

variable {input : OverlayInput}

/-- The passes before kept their promises. -/
structure Promised (input : OverlayInput) : Prop where
  lists : SectionLists input.context
  aliases : input.aliases.Placed input.context

theorem offset_funcEntry (sect : Section) (func : Function) :
    (sect.funcEntry func).LeadsTo sect func func.entry := by
  unfold FuncEntry.LeadsTo Section.funcEntry Function.romOf Function.entry
  dsimp only
  split <;> bv_omega

/-- The rows of the functions of a section. -/
theorem forall₂_funcEntries (sect : Section) {l : List Nat} {s : Nat}
    (hl : ∀ i ∈ l, ∃ func, input.context.functions[i]? = some func ∧
      func.sectionIndex.toNat = s) :
    List.Forall₂ (fun i entry => ∃ func, input.context.functions[i]? = some func ∧
        func.sectionIndex.toNat = s ∧ entry.func = func.name ∧
        entry.LeadsTo sect func func.entry)
      (l.filter fun i => (input.context.functions[i]?).any (·.hasRow))
      (((l.filterMap fun i => input.context.functions[i]?).filter (·.hasRow)).map
        sect.funcEntry) := by
  induction l with
  | nil => exact List.Forall₂.nil
  | cons i l ih =>
    obtain ⟨func, hfunc, hs⟩ := hl i List.mem_cons_self
    have ih := ih fun j hj => hl j (List.mem_cons_of_mem _ hj)
    rw [List.filterMap_cons_some hfunc]
    by_cases hrow : func.hasRow
    · rw [List.filter_cons_of_pos (by rw [hfunc]; exact hrow), List.filter_cons_of_pos hrow]
      exact List.Forall₂.cons ⟨func, hfunc, hs, rfl, offset_funcEntry sect func⟩ ih
    · rw [List.filter_cons_of_neg (by rw [hfunc]; exact hrow), List.filter_cons_of_neg hrow]
      exact ih

/-- The row of a section is correct. -/
theorem rowCorrect_tableEntry (h : input.Promised) {s : Nat} {sect : Section}
    (hs : input.context.sections[s]? = some sect) :
    RowCorrect input s sect (input.tableEntry s sect) where
  place := ⟨rfl, rfl, rfl⟩
  funcs := by
    refine ⟨_, _, _, _, rfl, (h.lists.nodup s).filter _, ?_,
      forall₂_funcEntries sect (h.lists.own s),
      List.forall₂_map_right_iff.mpr (List.forall₂_same.mpr ?_)⟩
    · intro i func hfunc hindex hemitted
      obtain ⟨hrow, hwords⟩ := of_decide_eq_true hemitted
      refine List.mem_filter.mpr ⟨?_, by rw [hfunc]; exact hrow⟩
      have hmem := h.lists.mem i func hfunc hwords
      rwa [hindex] at hmem
    · intro dispatch hdispatch
      obtain ⟨i, -, hi⟩ := List.mem_filterMap.mp hdispatch
      obtain ⟨func, hfunc, hrom⟩ := h.aliases dispatch (List.mem_of_getElem? hi)
      refine ⟨func, hfunc, rfl, ?_⟩
      unfold FuncEntry.LeadsTo Section.aliasEntry
      dsimp only
      rw [← hrom]
      bv_omega
  relocs base hbase := by
    refine List.forall₂_map_right_iff.mpr (List.forall₂_same.mpr fun reloc hreloc => ?_)
    exact hbase.relocOffset h.lists hs (List.mem_of_mem_filter hreloc)

/-- What the loop over the sections keeps: one row for each written section, and under a name the
row of a relocatable section of that name. -/
theorem writeSections_inv (l : List (Section × Nat)) :
    (l.foldl input.writeSection ⟨[], fun _ => none⟩).sectionTable =
        (l.filter fun p => input.isWritten p.2 p.1).map (fun p => input.tableEntry p.2 p.1) ∧
      ∀ name r, (l.foldl input.writeSection ⟨[], fun _ => none⟩).relocatableSectionIndices name =
          some r →
        ∃ p ∈ l, (l.foldl input.writeSection ⟨[], fun _ => none⟩).sectionTable[r]? =
          some (input.tableEntry p.2 p.1) ∧ p.1.relocatable ∧ p.1.name = name := by
  induction l using List.reverseRecOn with
  | nil => exact ⟨rfl, fun name r h => by cases h⟩
  | append_singleton l p ih =>
    obtain ⟨htable, hindices⟩ := ih
    rw [List.foldl_append, List.foldl_cons, List.foldl_nil, List.filter_append, List.map_append,
      ← htable]
    generalize l.foldl input.writeSection ⟨[], fun _ => none⟩ = written at hindices
    unfold writeSection
    by_cases hwritten : input.isWritten p.2 p.1
    · have hfilter : [p].filter (fun p => input.isWritten p.2 p.1) = [p] := by simp [hwritten]
      rw [if_pos hwritten, hfilter]
      refine ⟨rfl, fun name r h => ?_⟩
      dsimp only at h ⊢
      split at h
      · -- a name that has a row keeps it
        rename_i row hrow
        obtain rfl := Option.some.inj h
        obtain ⟨q, hq, hget, hq'⟩ := hindices name row hrow
        refine ⟨q, List.mem_append_left _ hq, ?_, hq'⟩
        rw [List.getElem?_append_left (List.getElem?_eq_some_iff.mp hget).1, hget]
      · split at h
        · rename_i hname
          obtain rfl := Option.some.inj h
          exact ⟨p, List.mem_append_right _ (List.mem_singleton_self p),
            List.getElem?_concat_length, hname⟩
        · cases h
    · have hfilter : [p].filter (fun p => input.isWritten p.2 p.1) = [] := by simp [hwritten]
      rw [if_neg hwritten, hfilter, List.map_nil, List.append_nil]
      refine ⟨rfl, fun name r h => ?_⟩
      obtain ⟨q, hq, hrest⟩ := hindices name r h
      exact ⟨q, List.mem_append_left _ hq, hrest⟩

theorem sectionTable_writeSections : input.writeSections.sectionTable =
    (input.context.sections.zipIdx.filter fun p => input.isWritten p.2 p.1).map
      (fun p => input.tableEntry p.2 p.1) := (writeSections_inv _).1

/-- **The overlay table is correct**: for every context whose sections list their functions and whose
aliases are placed, and for every list of names that all have rows. -/
theorem write_correct (h : input.Promised) {file : OverlayFile} (hfile : input.write = some file) :
    file.Correct input := by
  obtain ⟨indices, hindices, rfl⟩ := Option.map_eq_some_iff.mp hfile
  refine ⟨rfl, fun s sect hs => ?_, fun row hrow => ?_, fun k e he hne => ?_⟩
  · have hmap : input.writeSections.sectionTable.map (·.index) =
        (input.context.sections.zipIdx.filter fun p => input.isWritten p.2 p.1).map (·.2) := by
      rw [sectionTable_writeSections, List.map_map]
      rfl
    have hnodup : (input.writeSections.sectionTable.map (·.index)).Nodup := by
      have hpositions : (input.context.sections.zipIdx.map (·.2)).Nodup := by
        rw [List.zipIdx_map_snd]
        exact List.nodup_range' ..
      rw [hmap]
      exact hpositions.sublist (List.filter_sublist.map _)
    have hmem : s ∈ input.writeSections.sectionTable.map (·.index) ↔ input.isWritten s sect := by
      rw [hmap]
      constructor
      · intro hs'
        obtain ⟨⟨sect', s'⟩, hp, rfl⟩ := List.mem_map.mp hs'
        obtain ⟨hzip, hwritten⟩ := List.mem_filter.mp hp
        have hget := List.mem_zipIdx_iff_getElem?.mp hzip
        rw [hs] at hget
        obtain rfl := Option.some.inj hget
        exact hwritten
      · intro hwritten
        exact List.mem_map.mpr ⟨(sect, s),
          List.mem_filter.mpr ⟨List.mem_zipIdx_iff_getElem?.mpr hs, hwritten⟩, rfl⟩
    split
    · rename_i hwritten
      exact List.count_eq_one_of_mem hnodup (hmem.mpr hwritten)
    · rename_i hwritten
      exact List.count_eq_zero.mpr fun hs' => hwritten (hmem.mp hs')
  · rw [sectionTable_writeSections] at hrow
    obtain ⟨p, hp, rfl⟩ := List.mem_map.mp hrow
    have hs := List.mem_zipIdx_iff_getElem?.mp (List.mem_of_mem_filter hp)
    exact ⟨(List.getElem?_eq_some_iff.mp hs).1, p.1, hs, rowCorrect_tableEntry h hs⟩
  · split at hindices
    · obtain rfl := Option.some.inj hindices
      rcases List.mem_singleton.mp (List.mem_of_getElem? he) with rfl
      exact absurd rfl hne
    · have hname := (List.forall₂_iff_get.mp (Option.forall₂_mapM hindices))
      obtain ⟨hk, rfl⟩ := List.getElem?_eq_some_iff.mp he
      have hlt : k < input.relocatableSectionsOrdered.length := hname.1 ▸ hk
      have hof := hname.2 k hlt hk
      unfold overlayIndex at hof
      split at hof
      · exact absurd (Option.some.inj hof).symm hne
      · obtain ⟨r, hr, hre⟩ := Option.map_eq_some_iff.mp hof
        obtain ⟨p, hp, hget, hreloc, hpname⟩ := (writeSections_inv _).2 _ r hr
        refine ⟨r, _, p.1, hre.symm, hget, List.mem_zipIdx_iff_getElem?.mp hp, ?_, hreloc⟩
        rw [hpname]
        exact List.getElem?_eq_getElem hlt

end OverlayInput

/-! ## Two sections -/

/-- A section without anything to load, and behind it a variant of a pattern, which is encoded at
another address than its own. -/
def variantInput (functions : List Function) : OverlayInput where
  context := { Context.empty with
    sections := [Section.empty, { Section.empty with
      romAddr := 0xFE000000
      ramAddr := 0xC0000000
      size := 0x20
      name := ascii "fragment"
      relocatable := true
      hasMips32Relocs := true
      relocs := [⟨0x8FF00010, 0, 0xFFFFFFFF, 1, .mips32, false⟩] }]
    functions
    sectionFunctions := [[], List.range functions.length] }
  aliases := ⟨[], []⟩
  contentHash := fun _ => 0
  originalPatternId := fun _ => 0
  referenceSymbolMode := false
  relocatableSectionsOrdered := [ascii "fragment", ascii "*"]

/-- The function of a variant with code. -/
def variantFunction : Function :=
  Function.mk' 0x8FF00000 0xFE000000 [0x0800E003, 0] (ascii "entry") 1 false false false 0

/-- A variant with code. -/
theorem variantInput_correct : ∃ file, (variantInput [variantFunction]).write = some file ∧
    file.Correct (variantInput [variantFunction]) := by
  obtain ⟨file, hfile⟩ := Option.isSome_iff_exists.mp
    (by decide : (variantInput [variantFunction]).write.isSome)
  refine ⟨file, hfile, OverlayInput.write_correct ⟨⟨rfl, fun s => ?_, fun s i hi => ?_,
    fun i func hfunc _ => ?_⟩, fun dispatch hdispatch => by cases hdispatch⟩ hfile⟩
  · match s with
    | 0 => exact List.nodup_nil
    | 1 => exact List.nodup_singleton 0
    | _ + 2 => exact List.nodup_nil
  · match s with
    | 0 => cases hi
    | 1 =>
      obtain rfl := List.mem_singleton.mp hi
      exact ⟨variantFunction, rfl, rfl⟩
    | _ + 2 => cases hi
  · match i with
    | 0 =>
      obtain rfl := Option.some.inj hfunc
      exact List.mem_singleton_self 0
    | _ + 1 => cases hfunc

/-- A variant that is data: both sections are counted where one has a row, and the word at the offset
`0x10` of the section, which is encoded at `0x8FF00000`, has another offset in its row. -/
theorem variantInput_not_counted :
    (∃ file, (variantInput []).write = some file ∧
      file.numSections = 2 ∧ file.sectionTable.length = 1) ∧
    ∃ file row entry, (variantInput []).write = some file ∧ file.sectionTable = [row] ∧
      row.relocs = [entry] ∧
      ((variantInput []).context.sections.flatMap fun sect => sect.relocs.map (·.address)) =
        [0x8FF00000 + 0x10] ∧ entry.offset ≠ 0x10 := by
  refine ⟨⟨_, rfl, rfl, by decide⟩, ⟨_, _, _, rfl, rfl, rfl, by decide, by decide⟩⟩

end N64Recomp
