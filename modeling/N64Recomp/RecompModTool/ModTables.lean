import N64Recomp.RecompModTool.BuildModContext

/-!
# The tables of a mod

The symbols and the dependencies of a mod's context only grow, and their names lead to them. What the
special sections register for a function changes nothing else.

## Main definitions

* `Context.NamesSymbols`: the names lead to the symbols
* `Grows`: what a step of the loop keeps of the tables
* `Keeps`: what a step keeps of the sections and the functions

## Main results

* `grows_ensureEventSymbol`, `grows_ensureImportSymbol`, `grows_findDependency`: the three searches
* `grows_registerFunction`: what is registered for a function
-/

namespace N64Recomp

/-- The names of the events and of the imports lead to symbols of these names. -/
structure Context.NamesSymbols (out : Context) : Prop where
  events : ∀ name i, out.findEventSymbol name = some i →
    (out.eventSymbols[i]?).map (·.base.name) = some name
  imports : ∀ name dependency i, out.findImportSymbol name dependency = some i →
    (out.importSymbols[i]?).map (fun sym => (sym.base.name, sym.dependencyIndex)) =
      some (name, dependency)

/-- How many symbols the special sections have. -/
def Context.symbolCount (out : Context) : Nat := out.eventSymbols.length + out.importSymbols.length

/-- The tables grow, by at most `n` symbols, and the ROM keeps its length. -/
structure Grows (n : Nat) (out out' : Context) : Prop where
  events : out.eventSymbols <+: out'.eventSymbols
  imports : out.importSymbols <+: out'.importSymbols
  dependencies : ∀ name i, out.dependenciesByName name = some i →
    out'.dependenciesByName name = some i
  names : out.NamesSymbols → out'.NamesSymbols
  count : out'.symbolCount ≤ out.symbolCount + n
  romLength : out'.rom.length = out.rom.length

/-- The sections and the functions stay. -/
structure Keeps (out out' : Context) : Prop where
  sections : out'.sections = out.sections
  functions : out'.functions = out.functions
  sectionFunctions : out'.sectionFunctions = out.sectionFunctions

section Steps

variable {m n : Nat} {out out' out'' : Context}

theorem Keeps.refl (out : Context) : Keeps out out := ⟨rfl, rfl, rfl⟩

theorem Keeps.trans (h : Keeps out out') (h' : Keeps out' out'') : Keeps out out'' :=
  ⟨h'.sections.trans h.sections, h'.functions.trans h.functions,
    h'.sectionFunctions.trans h.sectionFunctions⟩

/-- A step that leaves the tables. -/
theorem Grows.of_eq (hevents : out'.eventSymbols = out.eventSymbols)
    (himports : out'.importSymbols = out.importSymbols)
    (hdependencies : out'.dependenciesByName = out.dependenciesByName)
    (hnames : out'.referenceSymbolsByName = out.referenceSymbolsByName)
    (hindices : out'.dependencyImportsByName = out.dependencyImportsByName)
    (hrom : out'.rom.length = out.rom.length) : Grows 0 out out' where
  events := hevents ▸ List.prefix_refl _
  imports := himports ▸ List.prefix_refl _
  dependencies name i h := by rw [hdependencies, h]
  names h := by
    refine ⟨fun name i hi => ?_, fun name dependency i hi => ?_⟩
    · rw [hevents]
      refine h.events name i ?_
      unfold Context.findEventSymbol at hi ⊢
      rwa [← hnames]
    · rw [himports]
      refine h.imports name dependency i ?_
      unfold Context.findImportSymbol at hi ⊢
      rwa [← hindices]
  count := by simp [Context.symbolCount, hevents, himports]
  romLength := hrom

theorem Grows.refl (out : Context) : Grows 0 out out := .of_eq rfl rfl rfl rfl rfl rfl

theorem Grows.trans (h : Grows m out out') (h' : Grows n out' out'') : Grows (m + n) out out'' where
  events := h.events.trans h'.events
  imports := h.imports.trans h'.imports
  dependencies name i hi := h'.dependencies name i (h.dependencies name i hi)
  names := h'.names ∘ h.names
  count := by
    have := h.count
    have := h'.count
    omega
  romLength := h'.romLength.trans h.romLength

theorem Grows.mono (h : Grows m out out') (hmn : m ≤ n) : Grows n out out' :=
  ⟨h.events, h.imports, h.dependencies, h.names, h.count.trans (Nat.add_le_add_left hmn _),
    h.romLength⟩

/-- A symbol stays where it is. -/
theorem getElem?_of_grown {α : Type} {l l' : List α} (h : l <+: l') {i : Nat} {x : α}
    (hi : l[i]? = some x) : l'[i]? = some x := by
  obtain ⟨rest, rfl⟩ := h
  rw [List.getElem?_append_left (List.getElem?_eq_some_iff.mp hi).1, hi]

end Steps

/-! ## The searches -/

section Searches

variable {out out' : Context} {name event : Str} {i dependency : Nat}

/-- An event has a symbol afterwards. -/
theorem grows_ensureEventSymbol (h : out.NamesSymbols) (name : Str) :
    Grows 1 out (out.ensureEventSymbol name).2 ∧ Keeps out (out.ensureEventSymbol name).2 ∧
      ((out.ensureEventSymbol name).2.eventSymbols[(out.ensureEventSymbol name).1]?).map
        (·.base.name) = some name := by
  unfold Context.ensureEventSymbol
  cases hfind : out.findEventSymbol name with
  | some i => exact ⟨(Grows.refl out).mono (Nat.zero_le 1), Keeps.refl out, h.events name i hfind⟩
  | none =>
    refine ⟨⟨List.prefix_append _ _, List.prefix_refl _, fun _ _ => id, fun h => ⟨?_, h.imports⟩,
      ?_, rfl⟩, ⟨rfl, rfl, rfl⟩, by simp [Context.addEventSymbol]⟩
    · intro other i hi
      unfold Context.findEventSymbol Context.addEventSymbol at hi
      by_cases hother : other = name
      · -- the new symbol
        subst hother
        simp only [if_true, Option.some.injEq] at hi
        subst hi
        simp [Context.addEventSymbol]
      · simp only [if_neg hother] at hi
        have hold := h.events other i hi
        obtain ⟨sym, hsym, hname⟩ := Option.map_eq_some_iff.mp hold
        have hprefix : out.eventSymbols <+: (out.addEventSymbol name).eventSymbols :=
          List.prefix_append _ _
        rw [getElem?_of_grown hprefix hsym]
        exact congrArg some hname
    · simp only [Context.symbolCount, Context.addEventSymbol, List.length_append,
        List.length_singleton]
      omega

/-- An import has a symbol afterwards. -/
theorem grows_ensureImportSymbol (h : out.NamesSymbols) (name : Str) (dependency : Nat) :
    Grows 1 out (out.ensureImportSymbol name dependency).2 ∧
      Keeps out (out.ensureImportSymbol name dependency).2 ∧
      ((out.ensureImportSymbol name dependency).2.importSymbols[
        (out.ensureImportSymbol name dependency).1]?).map
          (fun sym => (sym.base.name, sym.dependencyIndex)) = some (name, dependency) := by
  unfold Context.ensureImportSymbol
  cases hfind : out.findImportSymbol name dependency with
  | some i =>
    exact ⟨(Grows.refl out).mono (Nat.zero_le 1), Keeps.refl out, h.imports name dependency i hfind⟩
  | none =>
    refine ⟨⟨List.prefix_refl _, List.prefix_append _ _, fun _ _ => id, fun h => ⟨h.events, ?_⟩,
      ?_, rfl⟩, ⟨rfl, rfl, rfl⟩, by simp [Context.addImportSymbol]⟩
    · intro other d i hi
      have hprefix : out.importSymbols <+: (out.addImportSymbol name dependency).importSymbols :=
        List.prefix_append _ _
      have hold : out.findImportSymbol other d = some i →
          ((out.addImportSymbol name dependency).importSymbols[i]?).map
            (fun sym => (sym.base.name, sym.dependencyIndex)) = some (other, d) := by
        intro hi
        obtain ⟨sym, hsym, hname⟩ := Option.map_eq_some_iff.mp (h.imports other d i hi)
        rw [getElem?_of_grown hprefix hsym]
        exact congrArg some hname
      unfold Context.findImportSymbol Context.addImportSymbol at hi
      obtain ⟨names, hnames, hi⟩ := Option.bind_eq_some_iff.mp hi
      simp only [List.getElem?_modify] at hnames
      obtain ⟨before, hbefore, rfl⟩ := Option.map_eq_some_iff.mp hnames
      split at hi
      · rename_i hd
        dsimp only at hi
        split at hi
        · -- the new symbol
          rename_i hother
          obtain rfl := Option.some.inj hi
          subst hd hother
          simp [Context.addImportSymbol]
        · exact hold (Option.bind_eq_some_iff.mpr ⟨before, hbefore, hi⟩)
      · exact hold (Option.bind_eq_some_iff.mpr ⟨before, hbefore, hi⟩)
    · simp only [Context.symbolCount, Context.addImportSymbol, List.length_append,
        List.length_singleton]
      omega

/-- A dependency has its index afterwards. -/
theorem grows_findDependency (h : out.findDependency name = some (i, out')) :
    Grows 0 out out' ∧ Keeps out out' ∧ out'.dependenciesByName name = some i := by
  unfold Context.findDependency at h
  cases hname : out.dependenciesByName name with
  | some j =>
    rw [hname] at h
    obtain ⟨rfl, rfl⟩ := Prod.mk.inj (Option.some.inj h)
    exact ⟨Grows.refl out, Keeps.refl out, hname⟩
  | none =>
    rw [hname] at h
    dsimp only at h
    split at h
    swap
    · cases h
    obtain ⟨rfl, rfl⟩ := Prod.mk.inj (Option.some.inj h)
    refine ⟨⟨List.prefix_refl _, List.prefix_refl _, ?_, fun h => ⟨h.events, ?_⟩, le_refl _, rfl⟩,
      ⟨rfl, rfl, rfl⟩, by simp [Context.addDependency]⟩
    · intro other j hj
      have hne : other ≠ name := by
        rintro rfl
        rw [hname] at hj
        cases hj
      simp [Context.addDependency, hne, hj]
    · -- the new dependency has no imports
      intro other d j hj
      refine h.imports other d j ?_
      unfold Context.findImportSymbol Context.addDependency at hj
      unfold Context.findImportSymbol
      obtain ⟨names, hnames, hj⟩ := Option.bind_eq_some_iff.mp hj
      rcases Nat.lt_or_ge d out.dependencyImportsByName.length with hd | hd
      · rw [List.getElem?_append_left hd] at hnames
        rw [hnames]
        exact hj
      · rw [List.getElem?_append_right hd] at hnames
        obtain rfl := List.mem_singleton.mp (List.mem_of_getElem? hnames)
        cases hj

theorem grows_addDependencyEvent (h : out.addDependencyEvent event dependency = some (i, out')) :
    Grows 0 out out' ∧ Keeps out out' := by
  unfold Context.addDependencyEvent at h
  obtain ⟨events, -, h⟩ := Option.bind_eq_some_iff.mp h
  dsimp only at h
  split at h
  · obtain ⟨rfl, rfl⟩ := Prod.mk.inj (Option.some.inj h)
    exact ⟨Grows.refl out, Keeps.refl out⟩
  · obtain ⟨rfl, rfl⟩ := Prod.mk.inj (Option.some.inj h)
    exact ⟨.of_eq rfl rfl rfl rfl rfl rfl, ⟨rfl, rfl, rfl⟩⟩

end Searches

/-! ## What is registered for a function -/

section Register

variable {input out out' : Context} {cur : Section} {func : Function} {i : Nat}

theorem inBounds_eq_ok_iff {α : Type} {x : Option α} {a : α} :
    inBounds x = .ok a ↔ x = some a := by
  cases x <;> simp [inBounds]

theorem orReject_eq_ok_iff {α : Type} {x : Option α} {a : α} :
    orReject x = .ok a ↔ x = some a := by
  cases x <;> simp [orReject]

theorem grows_registerPatch (h : registerPatch input cur func i out = .ok out') :
    Grows 0 out out' ∧ Keeps out out' := by
  unfold registerPatch at h
  split at h
  · obtain ⟨_, -, h⟩ := Except.bind_eq_ok_iff.mp h
    obtain rfl := Except.ok.inj h
    exact ⟨.of_eq rfl rfl rfl rfl rfl rfl, ⟨rfl, rfl, rfl⟩⟩
  · obtain rfl := Except.ok.inj h
    exact ⟨Grows.refl out, Keeps.refl out⟩

theorem grows_registerHook (h : registerHook input cur i out = .ok out') :
    Grows 0 out out' ∧ Keeps out out' := by
  unfold registerHook at h
  split at h
  · obtain ⟨_, -, h⟩ := Except.bind_eq_ok_iff.mp h
    obtain rfl := Except.ok.inj h
    exact ⟨.of_eq rfl rfl rfl rfl rfl rfl, ⟨rfl, rfl, rfl⟩⟩
  · obtain rfl := Except.ok.inj h
    exact ⟨Grows.refl out, Keeps.refl out⟩

theorem grows_registerExport : Grows 0 out (registerExport cur i out) ∧
    Keeps out (registerExport cur i out) := by
  unfold registerExport
  split
  · exact ⟨.of_eq rfl rfl rfl rfl rfl rfl, ⟨rfl, rfl, rfl⟩⟩
  · exact ⟨Grows.refl out, Keeps.refl out⟩

theorem grows_registerCallback (h : registerCallback cur i out = .ok out') :
    Grows 0 out out' ∧ Keeps out out' := by
  unfold registerCallback at h
  split at h
  · obtain ⟨⟨dependency, event⟩, -, h⟩ := Except.bind_eq_ok_iff.mp h
    obtain ⟨⟨d, out₁⟩, hfind, h⟩ := Except.bind_eq_ok_iff.mp h
    obtain ⟨⟨e, out₂⟩, hadd, h⟩ := Except.bind_eq_ok_iff.mp h
    obtain rfl := Except.ok.inj h
    obtain ⟨hgrows₁, hkeeps₁, -⟩ := grows_findDependency (orReject_eq_ok_iff.mp hfind)
    obtain ⟨hgrows₂, hkeeps₂⟩ := grows_addDependencyEvent (orReject_eq_ok_iff.mp hadd)
    have hlast : Grows 0 out₂ { out₂ with callbacks := out₂.callbacks ++ [⟨i, e⟩] } :=
      .of_eq rfl rfl rfl rfl rfl rfl
    exact ⟨(hgrows₁.trans hgrows₂).trans hlast, (hkeeps₁.trans hkeeps₂).trans ⟨rfl, rfl, rfl⟩⟩
  · obtain rfl := Except.ok.inj h
    exact ⟨Grows.refl out, Keeps.refl out⟩

/-- **What is registered for a function** changes neither sections nor functions. -/
theorem grows_registerFunction (h : registerFunction input cur func i out = .ok out') :
    Grows 0 out out' ∧ Keeps out out' := by
  unfold registerFunction at h
  obtain ⟨out₁, hpatch, h⟩ := Except.bind_eq_ok_iff.mp h
  obtain ⟨out₂, hhook, hcallback⟩ := Except.bind_eq_ok_iff.mp h
  obtain ⟨hgrows₁, hkeeps₁⟩ := grows_registerPatch hpatch
  obtain ⟨hgrows₂, hkeeps₂⟩ := grows_registerHook hhook
  have hexport : Grows 0 out₂ (registerExport cur i out₂) ∧ Keeps out₂ (registerExport cur i out₂) :=
    grows_registerExport
  obtain ⟨hgrows₃, hkeeps₃⟩ := hexport
  obtain ⟨hgrows₄, hkeeps₄⟩ := grows_registerCallback hcallback
  exact ⟨((hgrows₁.trans hgrows₂).trans hgrows₃).trans hgrows₄,
    ((hkeeps₁.trans hkeeps₂).trans hkeeps₃).trans hkeeps₄⟩

end Register

end N64Recomp
