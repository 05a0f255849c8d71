import N64Recomp.RecompModTool.ModRuns

/-!
# The output of a mod

The relocations of the output mean what those of the input mean, and the functions lie in their
output sections, when the tables that the relocations lead to have entries for them and the functions
lie between the start of the first and the end of the last section of their run.

## Main definitions

* `ModContents`: where the relocations and the functions of the output come from
* `ModRight`: what is expected of the output
* `ModCondition`: when it is met, on the input

## Main results

* `modContents_addSection`: a turn of the loop over the sections
* `modRight_iff`: when the output is as it is expected
-/

namespace N64Recomp

/-! ## What is expected -/

/-- A function lies between two places of the ROM and of the memory. -/
structure Function.LiesIn (func : Function) (romAddr ramAddr size : BitVec 32) : Prop where
  rom_le : romAddr.toNat ≤ func.rom.toNat
  rom_end_le : func.rom.toNat + 4 * func.words.length ≤ romAddr.toNat + size.toNat
  ram_le : ramAddr.toNat ≤ func.vram.toNat
  ram_end_le : func.vram.toNat + 4 * func.words.length ≤ ramAddr.toNat + size.toNat

/-- A relocation of the output means what one of the input means. -/
structure SameMeaning (input out : Context) (reloc reloc' : Reloc) : Prop where
  address : reloc'.address = reloc.address
  type : reloc'.type = reloc.type
  meaning : ∃ meaning, inputMeaning input reloc = some meaning ∧ Denotes out reloc' meaning

/-- There is an output, whose relocations mean what relocations of the input mean, and whose functions
lie in their sections. -/
def ModRight (input : Context) : Prop :=
  ∃ out, buildModContext input = .ok out ∧
    (∀ sect' ∈ out.sections, ∃ origins,
      (∀ reloc ∈ origins, ∃ sect ∈ input.sections, reloc ∈ sect.relocs) ∧
      List.Forall₂ (SameMeaning input out) origins sect'.relocs) ∧
    ∀ func ∈ out.functions, ∃ sect', out.sections[func.sectionIndex.toNat]? = some sect' ∧
      func.LiesIn sect'.romAddr sect'.ramAddr sect'.size

/-- The tables have entries for the relocations, and the functions lie in their runs. -/
structure ModCondition (input : Context) : Prop where
  /-- The distance of the first section is not the one that the loop starts with. -/
  first : ∀ sect, input.sections.find? (!·.isNoload) = some sect → sect.romToRam ≠ 0xFFFFFFFF
  relocs : ∀ sect ∈ input.sections, sect.isNoload = false → sect.isCopied →
    ∀ reloc ∈ sect.relocs, RelocInBounds input sect reloc
  functions : ∀ run ∈ romRuns input, ∀ s ∈ run.members, ∀ sect, input.sections[s]? = some sect →
    sect.isCopied → ∀ funcs, listedFunctions input s = .ok funcs → ∀ func ∈ funcs,
      func.LiesIn run.first.romAddr run.first.ramAddr
        (run.last.romAddr + run.last.size - run.first.romAddr)

/-! ## The loop over the sections -/

/-- The relocations come from the sections that were visited. -/
def RelocsFrom (input out : Context) (visited : List (Section × Nat)) : Prop :=
  ∀ (o : Nat) sect', out.sections[o]? = some sect' → ∃ origins,
    (∀ reloc ∈ origins, ∃ p ∈ visited, reloc ∈ p.1.relocs) ∧
    List.Forall₂ (Copied input out) origins sect'.relocs

/-- The functions are those that the visited sections list. -/
def FunctionsFrom (input : Context) (st : ModState) (visited : List (Section × Nat)) : Prop :=
  ∀ func', func' ∈ st.out.functions ↔ ∃ p ∈ visited, p.1.isNoload = false ∧
    p.1.isCopied = true ∧ ∃ o funcs, st.sectionMap p.2 = some o ∧
      listedFunctions input p.2 = .ok funcs ∧ ∃ func ∈ funcs, outputFunction p.1 o func = func'

/-- What the output consists of, after the sections that were visited. -/
structure ModContents (input : Context) (visited : List (Section × Nat)) (st : ModState) :
    Prop where
  grows : Grows (visited.map fun p => symbolBound input p.2 p.1).sum (ModState.start input).out st.out
  first : ∀ p, visited.find? (!·.1.isNoload) = some p → p.1.romToRam ≠ 0xFFFFFFFF
  placed : ∀ p ∈ visited, p.1.isNoload = false → ∃ o run, st.sectionMap p.2 = some o ∧
    (visited.foldl addToRuns [])[o]? = some run ∧ p.2 ∈ run.members
  relocs : RelocsFrom input st.out visited
  bounds : ∀ p ∈ visited, p.1.isNoload = false → p.1.isCopied → ∀ reloc ∈ p.1.relocs,
    RelocInBounds input p.1 reloc
  functions : FunctionsFrom input st visited

section Loop

variable {input : Context} {visited rest : List (Section × Nat)} {p : Section × Nat}
  {st st' : ModState}

/-- The sections that were visited are those before the next one. -/
theorem zipIdx_split (h : visited ++ p :: rest = input.sections.zipIdx) :
    input.sections[p.2]? = some p.1 ∧ p.2 = visited.length ∧
      ∀ q ∈ visited, q.2 < visited.length := by
  have hget : input.sections.zipIdx[visited.length]? = some p := by
    rw [← h, List.getElem?_append_right (Nat.le_refl _), Nat.sub_self]
    rfl
  obtain ⟨a, ha, rfl⟩ : ∃ a, input.sections[visited.length]? = some a ∧ (a, visited.length) = p := by
    simpa [List.getElem?_zipIdx] using hget
  refine ⟨ha, rfl, fun q hq => ?_⟩
  obtain ⟨i, hi⟩ := List.mem_iff_getElem?.mp hq
  have hlt := (List.getElem?_eq_some_iff.mp hi).1
  have hzip : input.sections.zipIdx[i]? = some q := by
    rw [← h, List.getElem?_append_left hlt, hi]
  obtain ⟨a, -, rfl⟩ : ∃ a, input.sections[i]? = some a ∧ (a, i) = q := by
    simpa [List.getElem?_zipIdx] using hzip
  exact hlt

theorem modContents_start : ModContents input [] (ModState.start input) where
  grows := Grows.refl _
  first p h := by cases h
  placed p h := absurd h List.not_mem_nil
  relocs o sect' h := by
    refine ⟨[], fun _ hr => absurd hr List.not_mem_nil, ?_⟩
    obtain rfl := List.mem_singleton.mp (List.mem_of_getElem? h)
    exact .nil
  bounds p h := absurd h List.not_mem_nil
  functions func' := by
    constructor
    · exact fun h => absurd h List.not_mem_nil
    · rintro ⟨p, h, -⟩
      exact absurd h List.not_mem_nil

theorem namesSymbols_start (helf : ModElf input) : (ModState.start input).out.NamesSymbols where
  events name i h := by cases h
  imports name dependency i h := by
    obtain ⟨names, hnames, hi⟩ := Option.bind_eq_some_iff.mp h
    rw [helf.imports_eq names (List.mem_of_getElem? hnames)] at hi
    cases hi

/-- The symbols fit into 32 bits, with those of a further section. -/
theorem ModContents.symbolCount_le (helf : ModElf input) (h : ModContents input visited st)
    (hl : visited ++ p :: rest = input.sections.zipIdx) :
    st.out.symbolCount + symbolBound input p.2 p.1 ≤ 2 ^ 32 := by
  have hall := helf.count_lt
  rw [← hl, List.map_append, List.sum_append, List.map_cons, List.sum_cons] at hall
  have hcount := h.grows.count
  have hstart : (ModState.start input).out.symbolCount = 0 := by
    simp [Context.symbolCount, ModState.start, Context.empty, helf.importSymbols_eq]
  omega

/-! ### A turn of the loop -/

/-- Relocations behind those of a section leave the sections where they are. -/
theorem ModLayout.appendRelocs {runs : List RomRun} {o : Nat} {added : List Reloc} {out : Context}
    (h : ModLayout runs st) (hsections : out.sections = appendRelocs st.out.sections o added) :
    ModLayout runs { st with out } where
  index := h.index
  romToRam := h.romToRam
  start := h.start
  length := by
    rw [hsections, N64Recomp.appendRelocs, List.length_modify]
    exact h.length
  sections j run hrun := by
    obtain ⟨sect, hsect, hplace⟩ := h.sections j run hrun
    rw [hsections, N64Recomp.appendRelocs]
    refine ⟨_, by rw [List.getElem?_modify, hsect]; rfl, ?_⟩
    split <;> exact ⟨hplace.romAddr, hplace.ramAddr, hplace.size⟩
  members := h.members
  mapped := h.mapped

/-- The placing of a section leaves the relocations. -/
theorem RelocsFrom.place (h : RelocsFrom input st.out visited)
    (hstep : ModLayout.Step st st' p.2) : RelocsFrom input st'.out visited := by
  intro o sect' hsect'
  rcases hstep.relocs o sect' hsect' with hnil | ⟨sect, hsect, heq⟩
  · rw [hnil]
    exact ⟨[], fun _ hr => absurd hr List.not_mem_nil, .nil⟩
  · obtain ⟨origins, hmem, hcopied⟩ := h o sect hsect
    rw [heq]
    exact ⟨origins, hmem, hcopied.imp fun _ _ hc => hc.grows hstep.grows⟩

theorem RelocsFrom.mono {visited' : List (Section × Nat)} {out : Context}
    (h : RelocsFrom input out visited) (hsub : ∀ q ∈ visited, q ∈ visited') :
    RelocsFrom input out visited' := by
  intro o sect' hsect'
  obtain ⟨origins, hmem, hcopied⟩ := h o sect' hsect'
  refine ⟨origins, fun reloc hr => ?_, hcopied⟩
  obtain ⟨q, hq, hreloc⟩ := hmem reloc hr
  exact ⟨q, hsub q hq, hreloc⟩

/-- The relocations of a section come behind the others. -/
theorem RelocsFrom.append {n o : Nat} {out out' : Context} {origins added : List Reloc}
    (h : RelocsFrom input out visited) (hgrows : Grows n out out')
    (hmem : ∀ reloc ∈ origins, reloc ∈ p.1.relocs)
    (hcopied : List.Forall₂ (Copied input out') origins added)
    (hsections : out'.sections = N64Recomp.appendRelocs out.sections o added) :
    RelocsFrom input out' (visited ++ [p]) := by
  intro j sect' hsect'
  rw [hsections, N64Recomp.appendRelocs, List.getElem?_modify] at hsect'
  obtain ⟨sect, hsect, rfl⟩ := Option.map_eq_some_iff.mp hsect'
  obtain ⟨origins₀, hmem₀, hcopied₀⟩ := h j sect hsect
  replace hcopied₀ := hcopied₀.imp fun _ _ hc => Copied.grows hc hgrows
  have hvisited : ∀ reloc ∈ origins₀, ∃ q ∈ visited ++ [p], reloc ∈ q.1.relocs := by
    intro reloc hr
    obtain ⟨q, hq, hreloc⟩ := hmem₀ reloc hr
    exact ⟨q, List.mem_append_left _ hq, hreloc⟩
  split
  · refine ⟨origins₀ ++ origins, fun reloc hr => ?_, List.rel_append hcopied₀ hcopied⟩
    rcases List.mem_append.mp hr with hr | hr
    · exact hvisited reloc hr
    · exact ⟨p, by simp, hmem reloc hr⟩
  · exact ⟨origins₀, hvisited, hcopied₀⟩

/-- The functions of a section come behind the others. -/
theorem FunctionsFrom.append {o : Nat} {funcs : List Function} (h : FunctionsFrom input st visited)
    (hmap : ∀ q ∈ visited, st'.sectionMap q.2 = st.sectionMap q.2)
    (hself : st'.sectionMap p.2 = some o) (hrom : p.1.isNoload = false)
    (hfuncs : listedFunctions input p.2 = .ok funcs)
    (hfunctions : st'.out.functions = st.out.functions ++
      if p.1.isCopied then funcs.map (outputFunction p.1 o) else []) :
    FunctionsFrom input st' (visited ++ [p]) := by
  intro func'
  rw [hfunctions, List.mem_append, h func']
  constructor
  · rintro (⟨q, hq, hload, hcopied, o', funcs', ho', hlisted⟩ | hnew)
    · refine ⟨q, List.mem_append_left _ hq, hload, hcopied, o', funcs', ?_, hlisted⟩
      rw [hmap q hq, ho']
    · split at hnew
      · rename_i hcopied
        obtain ⟨func, hfunc, heq⟩ := List.mem_map.mp hnew
        exact ⟨p, by simp, hrom, hcopied, o, funcs, hself, hfuncs, func, hfunc, heq⟩
      · exact absurd hnew List.not_mem_nil
  · rintro ⟨q, hq, hload, hcopied, o', funcs', ho', hlisted, func, hfunc, heq⟩
    rcases List.mem_append.mp hq with hq | hq
    · refine Or.inl ⟨q, hq, hload, hcopied, o', funcs', ?_, hlisted, func, hfunc, heq⟩
      rw [← hmap q hq, ho']
    · obtain rfl := List.mem_singleton.mp hq
      rw [hself] at ho'
      obtain rfl := Option.some.inj ho'
      rw [hfuncs] at hlisted
      obtain rfl := Except.ok.inj hlisted
      right
      rw [if_pos hcopied]
      exact List.mem_map.mpr ⟨func, hfunc, heq⟩

/-- Sections that were placed stay in their runs. -/
theorem ModContents.placed_step (h : ModContents input visited st)
    (hmap : ∀ q ∈ visited, st'.sectionMap q.2 = st.sectionMap q.2) :
    ∀ q ∈ visited, q.1.isNoload = false → ∃ o run, st'.sectionMap q.2 = some o ∧
      ((visited ++ [p]).foldl addToRuns [])[o]? = some run ∧ q.2 ∈ run.members := by
  intro q hq hrom
  obtain ⟨o, run, ho, hrun, hmember⟩ := h.placed q hq hrom
  obtain ⟨run', hrun', hmembers⟩ := getElem?_addToRuns (p := p) hrun
  refine ⟨o, run', by rw [hmap q hq, ho], ?_, hmembers _ hmember⟩
  rw [List.foldl_concat, hrun']

/-- The first section of the ROM stays the first one. -/
theorem find?_concat_eq_some {q : Section × Nat}
    (h : (visited ++ [p]).find? (!·.1.isNoload) = some q) :
    visited.find? (!·.1.isNoload) = some q ∨
      (visited.foldl addToRuns [] = [] ∧ q = p ∧ p.1.isNoload = false) := by
  rw [List.find?_append, Option.or_eq_some_iff] at h
  rcases h with h | ⟨hnone, h⟩
  · exact Or.inl h
  · refine Or.inr ⟨runs_eq_nil_iff.mpr fun q hq => by simpa using List.find?_eq_none.mp hnone q hq,
      ?_⟩
    have hmem := List.mem_of_find?_eq_some h
    have hrom := List.find?_some h
    obtain rfl := List.mem_singleton.mp hmem
    exact ⟨rfl, by simpa using hrom⟩

/-- A section that is not in the ROM leaves the relocations and the functions. -/
theorem modContents_addNoload (h : ModContents input visited st)
    (hstep : ModLayout.Step st st' p.2) (hbefore : ∀ q ∈ visited, q.2 < p.2)
    (hnoload : p.1.isNoload = true) : ModContents input (visited ++ [p]) st' := by
  have hmap : ∀ q ∈ visited, st'.sectionMap q.2 = st.sectionMap q.2 :=
    fun q hq => hstep.map_ne q.2 (Nat.ne_of_lt (hbefore q hq))
  have hlast : ∀ q ∈ visited ++ [p], q.1.isNoload = false → q ∈ visited := by
    intro q hq hrom
    rcases List.mem_append.mp hq with hq | hq
    · exact hq
    · rw [List.mem_singleton.mp hq, hnoload] at hrom
      cases hrom
  refine ⟨?_, fun q hq => ?_, fun q hq hrom => h.placed_step hmap q (hlast q hq hrom) hrom,
    (h.relocs.place hstep).mono fun q hq => List.mem_append_left _ hq,
    fun q hq hrom => h.bounds q (hlast q hq hrom) hrom, fun func' => ?_⟩
  · rw [List.map_append, List.sum_append]
    exact (h.grows.trans hstep.grows).mono (Nat.add_le_add_left (Nat.zero_le _) _)
  · rcases find?_concat_eq_some hq with hq | ⟨-, -, hrom⟩
    · exact h.first q hq
    · rw [hnoload] at hrom
      cases hrom
  · rw [hstep.functions, h.functions func']
    constructor
    · rintro ⟨q, hq, hload, hcopied, o, funcs, ho, hlisted⟩
      exact ⟨q, List.mem_append_left _ hq, hload, hcopied, o, funcs, by rw [hmap q hq, ho], hlisted⟩
    · rintro ⟨q, hq, hload, hcopied, o, funcs, ho, hlisted⟩
      have hq := hlast q hq hload
      exact ⟨q, hq, hload, hcopied, o, funcs, by rw [← hmap q hq, ho], hlisted⟩

/-- **A turn of the loop over the sections.** -/
theorem modContents_addSection (helf : ModElf input)
    (hl : visited ++ p :: rest = input.sections.zipIdx)
    (hlayout : ModLayout (visited.foldl addToRuns []) st) (h : ModContents input visited st)
    (hstep : st.addSection input p = .ok st') :
    ModLayout ((visited ++ [p]).foldl addToRuns []) st' ∧
      ModContents input (visited ++ [p]) st' := by
  obtain ⟨hs, hindex, hbefore⟩ := zipIdx_split hl
  rw [← hindex] at hbefore
  have hnew : ∀ run ∈ visited.foldl addToRuns [], p.2 ∉ run.members := by
    intro run hrun hmember
    obtain ⟨q, hq, heq, -⟩ := mem_of_mem_members hrun hmember
    exact absurd (hbefore q hq) (by omega)
  have hcount := h.symbolCount_le helf hl
  rw [List.foldl_concat]
  unfold ModState.addSection at hstep
  split at hstep
  · rename_i hnoload
    obtain rfl := Except.ok.inj hstep
    obtain ⟨hlayout', hplaced⟩ : ModLayout (visited.foldl addToRuns []) (st.placeNoload p.2 p.1) ∧
        ModLayout.Step st (st.placeNoload p.2 p.1) p.2 := modLayout_placeNoload hlayout hnew
    have hruns : addToRuns (visited.foldl addToRuns []) p = visited.foldl addToRuns [] := by
      generalize visited.foldl addToRuns [] = runs
      unfold addToRuns
      rw [if_pos hnoload]
    rw [hruns]
    exact ⟨hlayout', modContents_addNoload h hplaced hbefore hnoload⟩
  · rename_i hrom
    rw [Bool.not_eq_true] at hrom
    obtain ⟨⟨o, st₁⟩, hplace, hstep⟩ := Except.bind_eq_ok_iff.mp hstep
    obtain ⟨out, hcopy, hstep⟩ := Except.bind_eq_ok_iff.mp hstep
    obtain rfl := Except.ok.inj hstep
    obtain ⟨hlayout', hplaced, hself, hfirst, run, hrun, hmember⟩ :=
      modLayout_placeSection hlayout hrom hnew hplace
    have hgrown := h.grows.trans hplaced.grows
    have hcount₁ := hplaced.grows.count
    obtain ⟨hgrows, ⟨origins, added, hmem, hcopied, hsections⟩, ⟨funcs, hfuncs, hfunctions⟩,
      hbounds⟩ := copySection_spec helf hs (hgrown.names (namesSymbols_start helf)) (by omega)
        hgrown.romLength hcopy
    have hmap : ∀ q ∈ visited, st₁.sectionMap q.2 = st.sectionMap q.2 :=
      fun q hq => hplaced.map_ne q.2 (Nat.ne_of_lt (hbefore q hq))
    refine ⟨hlayout'.appendRelocs hsections, ?_, fun q hq => ?_, fun q hq hload => ?_,
      (h.relocs.place hplaced).append hgrows hmem hcopied hsections, fun q hq hload => ?_,
      h.functions.append hmap hself hrom hfuncs ?_⟩
    · rw [List.map_append, List.sum_append, List.map_singleton, List.sum_singleton]
      exact hgrown.trans hgrows
    · rcases find?_concat_eq_some hq with hq | ⟨hnil, rfl, -⟩
      · exact h.first q hq
      · exact hfirst hnil
    · rcases List.mem_append.mp hq with hq | hq
      · exact h.placed_step hmap q hq hload
      · rw [List.mem_singleton.mp hq, List.foldl_concat]
        exact ⟨o, run, hself, hrun, hmember⟩
    · rcases List.mem_append.mp hq with hq | hq
      · exact h.bounds q hq hload
      · rw [List.mem_singleton.mp hq]
        exact hbounds
    · rw [hfunctions, hplaced.functions]

/-- The first section of the ROM, with and without its index. -/
theorem find?_sections (f : Section → Bool) :
    input.sections.find? f = (input.sections.zipIdx.find? fun p => f p.1).map (·.1) := by
  conv_lhs => rw [← List.zipIdx_map_fst 0 input.sections, List.find?_map]
  rfl

/-- A section is placed and copied, or the mod is rejected. -/
theorem addSection_inBounds (helf : ModElf input) (hcondition : ModCondition input)
    (hl : visited ++ p :: rest = input.sections.zipIdx)
    (hlayout : ModLayout (visited.foldl addToRuns []) st) (h : ModContents input visited st) :
    st.addSection input p ≠ .error .outOfBounds := by
  obtain ⟨hs, hindex, hbefore⟩ := zipIdx_split hl
  rw [← hindex] at hbefore
  have hnew : ∀ run ∈ visited.foldl addToRuns [], p.2 ∉ run.members := by
    intro run hrun hmember
    obtain ⟨q, hq, heq, -⟩ := mem_of_mem_members hrun hmember
    exact absurd (hbefore q hq) (by omega)
  have hcount := h.symbolCount_le helf hl
  unfold ModState.addSection
  split
  · exact fun heq => by cases heq
  rename_i hrom
  rw [Bool.not_eq_true] at hrom
  refine bind_ne_outOfBounds ?_ fun a ha => ?_
  · unfold ModState.placeSection
    split
    · rename_i hsame
      cases ho : st.outputSectionIndex with
      | some o => exact fun heq => by cases heq
      | none =>
        -- only the first section of the ROM finds no section before it
        exfalso
        have hnil : visited.foldl addToRuns [] = [] := by
          by_contra hne
          have := hlayout.index
          rw [ho, if_neg hne] at this
          cases this
        refine hcondition.first p.1 ?_ (hsame.symm.trans (hlayout.start hnil))
        have hnone : visited.find? (fun q => !q.1.isNoload) = none :=
          List.find?_eq_none.mpr fun q hq => by simpa using runs_eq_nil_iff.mp hnil q hq
        rw [find?_sections, ← hl, List.find?_append, hnone, List.find?_cons]
        simp [hrom]
    · exact fun heq => by cases heq
  · obtain ⟨o, st₁⟩ := a
    obtain ⟨-, hplaced, -⟩ := modLayout_placeSection hlayout hrom hnew ha
    have hgrown := h.grows.trans hplaced.grows
    have hcount₁ := hplaced.grows.count
    refine bind_ne_outOfBounds (copySection_inBounds helf hs
      (hgrown.names (namesSymbols_start helf)) (by omega) hgrown.romLength fun hcopied =>
        hcondition.relocs p.1 (List.mem_of_getElem? hs) hrom hcopied) fun out _ => ?_
    exact fun heq => by cases heq

/-- **The loop over the sections** ends, or fails at one of them. -/
theorem addSections_cases (helf : ModElf input) :
    (∃ st, input.sections.zipIdx.foldlM (ModState.addSection input) (ModState.start input) = .ok st ∧
      ModLayout (romRuns input) st ∧ ModContents input input.sections.zipIdx st) ∨
    ∃ visited p rest st e, visited ++ p :: rest = input.sections.zipIdx ∧
      (ModLayout (visited.foldl addToRuns []) st ∧ ModContents input visited st) ∧
      st.addSection input p = .error e ∧
      input.sections.zipIdx.foldlM (ModState.addSection input) (ModState.start input) =
        .error e := by
  refine Except.foldlM_cases
    (P := fun visited st => ModLayout (visited.foldl addToRuns []) st ∧
      ModContents input visited st) ⟨modLayout_start input, modContents_start⟩ ?_
  intro visited p rest st st' hl ⟨hlayout, hcontents⟩ hstep
  exact modContents_addSection helf hl hlayout hcontents hstep

end Loop

/-! ## The second pass -/

section Retarget

variable {input out : Context} {st : ModState} {reloc reloc' reloc'' : Reloc}

/-- The runs are numbered with 16 bits, below the reserved indices. -/
theorem toNat_runIndex (helf : ModElf input) {o : Nat} (h : o < (romRuns input).length) :
    (BitVec.ofNat 16 o).toNat = o ∧ BitVec.ofNat 16 o ≠ sectionAbsolute := by
  have hsections := helf.sections_lt
  have hruns : (romRuns input).length ≤ input.sections.length := by
    have hle : (romRuns input).length ≤ input.sections.zipIdx.length := length_runs_le
    rwa [List.length_zipIdx] at hle
  have hvalue : (BitVec.ofNat 16 o).toNat = o := by
    rw [BitVec.toNat_ofNat]
    exact Nat.mod_eq_of_lt (by omega)
  refine ⟨hvalue, fun heq => ?_⟩
  rw [heq] at hvalue
  have habsolute : sectionAbsolute.toNat = 0xFFFE := rfl
  omega

/-- The second pass leads a relocation to the address that it had. -/
theorem retargetReloc_spec (helf : ModElf input) (hlayout : ModLayout (romRuns input) st)
    (hsections : ∀ (o : Nat) sect, st.out.sections[o]? = some sect →
      ∃ relocs, out.sections[o]? = some { sect with relocs })
    (hgrows : Grows 0 st.out out) (hcopied : Copied input st.out reloc reloc')
    (h : retargetReloc input st reloc' = .ok reloc'') : SameMeaning input out reloc reloc'' := by
  unfold retargetReloc at h
  split at h
  · rename_i href
    obtain rfl := Except.ok.inj h
    have hgrown := hcopied.grows hgrows
    rcases hgrown.target with ⟨-, hmeaning⟩ | ⟨-, hfalse, -⟩
    · exact ⟨hcopied.address, hcopied.type, hmeaning⟩
    · rw [href] at hfalse
      cases hfalse
  · rename_i href
    obtain ⟨inputSection, hinput, h⟩ := Except.bind_eq_ok_iff.mp h
    obtain ⟨o, ho, h⟩ := Except.bind_eq_ok_iff.mp h
    obtain ⟨outputSection, houtput, h⟩ := Except.bind_eq_ok_iff.mp h
    obtain rfl := Except.ok.inj h
    rw [inBounds_eq_ok_iff] at hinput houtput
    rw [orReject_eq_ok_iff] at ho
    rcases hcopied.target with ⟨href', -⟩ | ⟨href', -, hsection, hoffset, target, htarget, hevent,
      himport⟩
    · exact absurd href' href
    have hlt := (List.getElem?_eq_some_iff.mp htarget).1
    have habsolute : reloc.targetSection ≠ sectionAbsolute := by
      intro habsolute
      rw [habsolute] at hlt
      exact absurd (hlt.trans helf.sections_lt) (by decide)
    rw [hsection, htarget] at hinput
    obtain rfl := Option.some.inj hinput
    obtain ⟨hindex, hordinary⟩ := toNat_runIndex helf (hlayout.mapped _ _ ho)
    obtain ⟨relocs, hrelocs⟩ := hsections o outputSection houtput
    refine ⟨hcopied.address, hcopied.type, .address (reloc.targetSectionOffset + target.ramAddr),
      ?_, by simpa using href, Or.inr ⟨hordinary, { outputSection with relocs }, ?_, ?_⟩⟩
    · unfold inputMeaning
      rw [if_neg (by simp [href']), if_neg habsolute, htarget]
      simp only [Option.bind_eq_bind, Option.bind_some, if_neg hevent, if_neg himport]
    · dsimp only
      rw [hindex, hrelocs]
    · dsimp only
      rw [hoffset]
      bv_omega

/-- The sections that a relocation leads to are there. -/
theorem retargetReloc_inBounds (hlayout : ModLayout (romRuns input) st)
    (hcopied : Copied input st.out reloc reloc') :
    retargetReloc input st reloc' ≠ .error .outOfBounds := by
  unfold retargetReloc
  split
  · exact fun heq => by cases heq
  · rename_i href
    rcases hcopied.target with ⟨href', -⟩ | ⟨-, -, hsection, -, target, htarget, -⟩
    · exact absurd href' href
    rw [hsection, htarget]
    simp only [inBounds, Except.ok_bind]
    refine bind_ne_outOfBounds (orReject_ne_outOfBounds _) fun o ho => ?_
    have hlt := hlayout.mapped _ _ (orReject_eq_ok_iff.mp ho)
    have hlength := hlayout.length
    rw [List.getElem?_eq_getElem (show o < st.out.sections.length by omega)]
    exact fun heq => by cases heq

end Retarget

/-! ## The output -/

section Output

variable {input out : Context}

/-- The state that an output is made from. -/
structure MadeFrom (input : Context) (st : ModState) (out : Context) : Prop where
  layout : ModLayout (romRuns input) st
  contents : ModContents input input.sections.zipIdx st
  sections : ∀ (o : Nat) sect, st.out.sections[o]? = some sect →
    ∃ relocs, out.sections[o]? = some { sect with relocs }
  functions : out.functions = st.out.functions
  relocs : ∀ sect' ∈ out.sections, ∃ origins,
    (∀ reloc ∈ origins, ∃ sect ∈ input.sections, reloc ∈ sect.relocs) ∧
    List.Forall₂ (SameMeaning input out) origins sect'.relocs

theorem forall₂_trans {α β γ : Type} {R : α → β → Prop} {S : β → γ → Prop} {T : α → γ → Prop}
    {l₁ : List α} {l₂ : List β} {l₃ : List γ} (h : List.Forall₂ R l₁ l₂)
    (h' : List.Forall₂ S l₂ l₃) (hcomp : ∀ a b c, R a b → S b c → T a c) :
    List.Forall₂ T l₁ l₃ := by
  induction h generalizing l₃ with
  | nil =>
    cases h'
    exact .nil
  | cons hab _ ih =>
    cases h' with
    | cons hbc htail => exact .cons (hcomp _ _ _ hab hbc) (ih htail)

/-- **What an output is made of.** -/
theorem exists_madeFrom (helf : ModElf input) (h : buildModContext input = .ok out) :
    ∃ st, MadeFrom input st out := by
  unfold buildModContext at h
  obtain ⟨st, hloop, h⟩ := Except.bind_eq_ok_iff.mp h
  obtain ⟨sections, hpass, h⟩ := Except.bind_eq_ok_iff.mp h
  obtain rfl := Except.ok.inj h
  rcases addSections_cases helf with ⟨st', hst', hlayout, hcontents⟩ | ⟨_, _, _, _, _, -, -, -, hfail⟩
  swap
  · rw [hloop] at hfail
    cases hfail
  rw [hloop] at hst'
  obtain rfl := Except.ok.inj hst'
  have hsections := Except.forall₂_mapM hpass
  have hkept : ∀ (o : Nat) sect, st.out.sections[o]? = some sect →
      ∃ relocs, sections[o]? = some { sect with relocs } := by
    intro o sect hsect
    obtain ⟨hlt, hget⟩ := List.getElem?_eq_some_iff.mp hsect
    have hlt' : o < sections.length := by rwa [← hsections.length_eq]
    have hstep := (List.forall₂_iff_get.mp hsections).2 o hlt hlt'
    obtain ⟨relocs, -, hstep⟩ := Except.bind_eq_ok_iff.mp hstep
    refine ⟨relocs, ?_⟩
    rw [List.getElem?_eq_getElem hlt', ← hget]
    exact congrArg some (Except.ok.inj hstep).symm
  refine ⟨st, hlayout, hcontents, hkept, rfl, fun sect' hsect' => ?_⟩
  obtain ⟨o, hlt', hget'⟩ := List.mem_iff_getElem.mp hsect'
  have hlt : o < st.out.sections.length := by
    rw [hsections.length_eq]
    exact hlt'
  have hstep := (List.forall₂_iff_get.mp hsections).2 o hlt hlt'
  obtain ⟨relocs, hretarget, hstep⟩ := Except.bind_eq_ok_iff.mp hstep
  have hsect := Except.ok.inj hstep
  obtain ⟨origins, hmem, hcopied⟩ := hcontents.relocs o _ (List.getElem?_eq_getElem hlt)
  refine ⟨origins, fun reloc hr => ?_, ?_⟩
  · obtain ⟨p, hp, hreloc⟩ := hmem reloc hr
    exact ⟨p.1, List.mem_of_getElem? (List.mem_zipIdx_iff_getElem?.mp hp), hreloc⟩
  · have hrelocs : sect'.relocs = relocs := by
      rw [← hget']
      exact (congrArg Section.relocs hsect).symm
    rw [hrelocs]
    exact forall₂_trans hcopied (Except.forall₂_mapM hretarget) fun _ _ _ hc hr =>
      retargetReloc_spec helf hlayout hkept (.of_eq rfl rfl rfl rfl rfl rfl) hc hr

/-- No table is read outside of its bounds. -/
theorem buildModContext_inBounds (helf : ModElf input) (hcondition : ModCondition input) :
    buildModContext input ≠ .error .outOfBounds := by
  unfold buildModContext
  rcases addSections_cases helf with ⟨st, hst, hlayout, hcontents⟩ |
    ⟨visited, p, rest, st, e, hl, ⟨hlayout, hcontents⟩, hfail, hall⟩
  · rw [hst, Except.ok_bind]
    refine bind_ne_outOfBounds (fun hpass => ?_) fun sections _ => fun heq => by cases heq
    obtain ⟨sect, hsect, hfail⟩ := Except.exists_of_mapM_error hpass
    obtain ⟨o, ho⟩ := List.mem_iff_getElem?.mp hsect
    obtain ⟨origins, -, hcopied⟩ := hcontents.relocs o sect ho
    refine bind_ne_outOfBounds (fun hretarget => ?_) (fun relocs _ heq => by cases heq) hfail
    obtain ⟨reloc', hreloc', hfail'⟩ := Except.exists_of_mapM_error hretarget
    obtain ⟨i, hi⟩ := List.mem_iff_getElem?.mp hreloc'
    obtain ⟨hlt, hget⟩ := List.getElem?_eq_some_iff.mp hi
    have hlt' : i < origins.length := by rwa [hcopied.length_eq]
    have hc := (List.forall₂_iff_get.mp hcopied).2 i hlt' hlt
    rw [List.get_eq_getElem, List.get_eq_getElem, hget] at hc
    exact retargetReloc_inBounds hlayout hc hfail'
  · rw [hall]
    intro heq
    obtain rfl := Except.error.inj heq
    exact addSection_inBounds helf hcondition hl hlayout hcontents hfail

/-- The functions lie in their sections when they lie in their runs. -/
theorem MadeFrom.functions_iff (helf : ModElf input) {st : ModState} (h : MadeFrom input st out) :
    (∀ func ∈ out.functions, ∃ sect', out.sections[func.sectionIndex.toNat]? = some sect' ∧
      func.LiesIn sect'.romAddr sect'.ramAddr sect'.size) ↔
    ∀ run ∈ romRuns input, ∀ s ∈ run.members, ∀ sect, input.sections[s]? = some sect →
      sect.isCopied → ∀ funcs, listedFunctions input s = .ok funcs → ∀ func ∈ funcs,
        func.LiesIn run.first.romAddr run.first.ramAddr
          (run.last.romAddr + run.last.size - run.first.romAddr) := by
  rw [h.functions]
  -- where the output section of a run is
  have hplace : ∀ (o : Nat) run, (romRuns input)[o]? = some run → ∃ sect',
      out.sections[(BitVec.ofNat 16 o).toNat]? = some sect' ∧ run.IsAt sect' := by
    intro o run hrun
    obtain ⟨sect, hsect, hat⟩ := h.layout.sections o run hrun
    obtain ⟨relocs, hrelocs⟩ := h.sections o sect hsect
    refine ⟨{ sect with relocs }, ?_, ⟨hat.romAddr, hat.ramAddr, hat.size⟩⟩
    rw [(toNat_runIndex helf (List.getElem?_eq_some_iff.mp hrun).1).1, hrelocs]
  -- what is copied of a function lies where the function does
  have hlies : ∀ sect o func romAddr ramAddr size,
      (outputFunction sect o func).LiesIn romAddr ramAddr size ↔
        func.LiesIn romAddr ramAddr size := by
    intro sect o func romAddr ramAddr size
    have hlength : (outputFunction sect o func).words.length = func.words.length :=
      List.length_replicate
    constructor
    · rintro ⟨h₁, h₂, h₃, h₄⟩
      rw [hlength] at h₂ h₄
      exact ⟨h₁, h₂, h₃, h₄⟩
    · rintro ⟨h₁, h₂, h₃, h₄⟩
      rw [← hlength] at h₂ h₄
      exact ⟨h₁, h₂, h₃, h₄⟩
  constructor
  · intro hfunctions run hrun s hs sect hsect hcopied funcs hfuncs func hfunc
    obtain ⟨o, ho⟩ := List.mem_iff_getElem?.mp hrun
    obtain ⟨p, hp, rfl, hrom⟩ := mem_of_mem_members hrun hs
    rw [List.mem_zipIdx_iff_getElem?.mp hp] at hsect
    obtain rfl := Option.some.inj hsect
    obtain ⟨sect', hsect', hat⟩ := hplace o run ho
    obtain ⟨sect'', hsect'', hcovered⟩ := hfunctions (outputFunction p.1 o func)
      ((h.contents.functions _).mpr ⟨p, hp, hrom, hcopied, o, funcs, h.layout.members o run ho _ hs,
        hfuncs, func, hfunc, rfl⟩)
    have hindex : (outputFunction p.1 o func).sectionIndex = BitVec.ofNat 16 o := rfl
    rw [hindex, hsect'] at hsect''
    obtain rfl := Option.some.inj hsect''
    rw [hat.romAddr, hat.ramAddr, hat.size] at hcovered
    exact (hlies _ _ _ _ _ _).mp hcovered
  · intro hruns func' hfunc'
    obtain ⟨p, hp, hrom, hcopied, o, funcs, ho, hfuncs, func, hfunc, rfl⟩ :=
      (h.contents.functions func').mp hfunc'
    obtain ⟨o', run, ho', hrun, hmember⟩ := h.contents.placed p hp hrom
    rw [ho] at ho'
    obtain rfl := Option.some.inj ho'
    obtain ⟨sect', hsect', hat⟩ := hplace o run hrun
    refine ⟨sect', hsect', (hlies _ _ _ _ _ _).mpr ?_⟩
    rw [hat.romAddr, hat.ramAddr, hat.size]
    exact hruns run (List.mem_of_getElem? hrun) p.2 hmember p.1
      (List.mem_zipIdx_iff_getElem?.mp hp) hcopied funcs hfuncs func hfunc

/-- **When the output of an accepted mod is as it is expected.** -/
theorem modRight_iff (helf : ModElf input) (haccepted : buildModContext input ≠ .error .rejected) :
    ModRight input ↔ ModCondition input := by
  constructor
  · rintro ⟨out, hout, -, hfunctions⟩
    obtain ⟨st, hmade⟩ := exists_madeFrom helf hout
    refine ⟨fun sect hsect => ?_, fun sect hsect hrom hcopied => ?_,
      (hmade.functions_iff helf).mp hfunctions⟩
    · rw [find?_sections] at hsect
      obtain ⟨p, hp, rfl⟩ := Option.map_eq_some_iff.mp hsect
      exact hmade.contents.first p hp
    · obtain ⟨s, hs⟩ := List.mem_iff_getElem?.mp hsect
      exact hmade.contents.bounds (sect, s) (List.mem_zipIdx_iff_getElem?.mpr hs) hrom hcopied
  · intro hcondition
    cases hout : buildModContext input with
    | error e =>
      exfalso
      cases e with
      | rejected => exact haccepted hout
      | outOfBounds => exact buildModContext_inBounds helf hcondition hout
    | ok out =>
      obtain ⟨st, hmade⟩ := exists_madeFrom helf hout
      exact ⟨out, hout, hmade.relocs, (hmade.functions_iff helf).mpr hcondition.functions⟩

/-- A mod with the section of index 0 and a section of one function. -/
def smallMod (relocs : List Reloc) : Context :=
  { Context.empty with
    sections := [
      ⟨0xFFFFFFFF, 0, 0, 0, [], [], [], false, false, false, false, false, none⟩,
      ⟨0x1000, 0x80001000, 8, 0, [], relocs, ascii ".text", true, true, false, false, false, none⟩]
    functions := [Function.mk' 0x80001000 0x1000 [0x03E00008, 0] (ascii "f") 1 false false false 0]
    sectionFunctions := [[], [0]] }

/-- The function calls itself. -/
def selfCall : Reloc := ⟨0x80001000, 0, 0, 1, .mips26, false⟩

/-- The function calls an absolute symbol. -/
def absoluteCall : Reloc := ⟨0x80001000, 0x80000100, 0, sectionAbsolute, .mips26, false⟩

theorem smallMod_elf {reloc : Reloc} (h : Context.isRegularReferenceSection reloc.targetSection) :
    ModElf (smallMod [reloc]) where
  sections_lt := by
    change 2 < 0xFF00
    decide
  regular sect hsect r hr := by
    simp only [smallMod, List.mem_cons, List.not_mem_nil, or_false] at hsect
    rcases hsect with rfl | rfl
    · cases hr
    · obtain rfl := List.mem_singleton.mp hr
      exact h
  importSymbols_eq := rfl
  imports_eq names h := by cases h
  sectionFunctions_length := rfl
  listed_lt := by
    change ∀ indices ∈ [[], [0]], ∀ i ∈ indices, i < 1
    decide
  references name symbol? h := by cases h
  count_lt := by simp [smallMod, symbolBound]

/-- The call of the function itself. -/
theorem smallMod_right : ModRight (smallMod [selfCall]) := by
  obtain ⟨out, hout⟩ : ∃ out, buildModContext (smallMod [selfCall]) = .ok out := ⟨_, rfl⟩
  refine (modRight_iff (smallMod_elf rfl) fun heq => by rw [hout] at heq; cases heq).mpr
    ⟨fun sect hsect => ?_, fun sect hsect hrom hcopied reloc hreloc => ?_,
      fun run hrun s hs sect hsect hcopied funcs hfuncs func hfunc => ?_⟩
  · obtain rfl := Option.some.inj hsect
    decide
  · simp only [smallMod, List.mem_cons, List.not_mem_nil, or_false] at hsect
    rcases hsect with rfl | rfl
    · cases hreloc
    · obtain rfl := List.mem_singleton.mp hreloc
      exact Or.inr (by decide)
  · obtain rfl := List.mem_singleton.mp hrun
    obtain rfl := List.mem_singleton.mp hs
    obtain rfl := Except.ok.inj hfuncs
    obtain rfl := List.mem_singleton.mp hfunc
    constructor <;> decide

/-- A call of an absolute symbol reads the table of sections at `0xFFFE`. -/
theorem smallMod_not_right : ModElf (smallMod [absoluteCall]) ∧
    buildModContext (smallMod [absoluteCall]) ≠ .error .rejected ∧
    ¬ModRight (smallMod [absoluteCall]) := by
  have hbounds : buildModContext (smallMod [absoluteCall]) = .error .outOfBounds := rfl
  refine ⟨smallMod_elf rfl, fun heq => ?_, fun ⟨out, hout, _⟩ => ?_⟩
  · rw [hbounds] at heq
    cases heq
  · rw [hbounds] at hout
    cases hout

end Output

end N64Recomp
