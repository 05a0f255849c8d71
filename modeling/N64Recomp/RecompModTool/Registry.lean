import Mathlib.Data.List.AList
import N64Recomp.Data.KeyIndex
import N64Recomp.RecompModTool.BuildModContext

/-!
# The registered names

A context registers dependencies, what is imported from them, their events, and its own events. Each
of these is a vector in the order of the registrations, beside a map from the names to the indices.

## Main definitions

* `Registry`, `Registry.step`: the vectors and the maps, and the operations on them
* `Registry.Consistent`: the maps and the vectors are inverse to each other
* `RegistryOp.Fits`: the names are not registered twice

## Main results

* `Registry.step_consistent_iff`: when an operation keeps the registry consistent
* `registryRight_iff`: when a sequence of operations does
-/

namespace N64Recomp

open KeyIndex

/-! ## The registry -/

/-- A hash map from names. -/
abbrev NameMap (α : Type) := AList fun _ : Str => α

/-- The part of the context that the registrations change. -/
structure Registry where
  dependencies : List Str
  dependenciesByName : NameMap Nat
  importSymbols : List ImportSymbol
  dependencyEvents : List DependencyEvent
  dependencyEventsByName : List (NameMap Nat)
  dependencyImportsByName : List (NameMap Nat)
  eventSymbols : List EventSymbol
  referenceSymbolsByName : NameMap SymbolReference

/-- `emplace`, which keeps the value that is there. -/
def emplace {α : Type} (map : NameMap α) (name : Str) (value : α) : NameMap α :=
  if name ∈ map then map else map.insert name value

/-- `resize`. -/
def resized {α : Type} (n : Nat) (fill : α) (l : List α) : List α :=
  l.take n ++ List.replicate (n - l.length) fill

/-- The operations. -/
inductive RegistryOp
  | addDependency (id : Str)
  | addDependencies (ids : List Str)
  | findDependency (id : Str)
  | addDependencyEvent (event : Str) (dependency : Nat)
  | addImportSymbol (name : Str) (dependency : Nat)
  | findImportSymbol (name : Str) (dependency : Nat)
  | addEventSymbol (name : Str)
  deriving DecidableEq, Repr

namespace Registry

/-- The registry of a context that was constructed by default. -/
def empty : Registry := ⟨[], ∅, [], [], [], [], [], ∅⟩

variable (r : Registry)

/-- `dependencies_by_name.size()`. -/
def dependencyCount : Nat := r.dependenciesByName.entries.length

/-- The two resizes to the number of dependencies. -/
def resizeByDependency : Registry :=
  { r with
    dependencyEventsByName := resized r.dependencyCount ∅ r.dependencyEventsByName
    dependencyImportsByName := resized r.dependencyCount ∅ r.dependencyImportsByName }

/-- The two insertions for a dependency. -/
def appendDependency (id : Str) : Registry :=
  { r with
    dependencies := r.dependencies ++ [id]
    dependenciesByName := emplace r.dependenciesByName id r.dependencyCount }

/-- `add_dependency`. -/
def addDependency (id : Str) : Bool × Registry :=
  if id ∈ r.dependenciesByName then (false, r)
  else (true, (r.appendDependency id).resizeByDependency)

/-- `add_dependencies`. -/
def addDependencies (ids : List Str) : Bool × Registry :=
  if ∃ id ∈ ids, id ∈ r.dependenciesByName then (false, r)
  else (true, (ids.foldl appendDependency r).resizeByDependency)

/-- `find_dependency`. -/
def findDependency (id : Str) : Option Nat × Registry :=
  match r.dependenciesByName.lookup id with
  | some i => (some i, r)
  | none =>
    if id = dependencySelf ∨ id = dependencyBaseRecomp then
      let r := (r.addDependency id).2
      (some ((r.dependenciesByName.lookup id).getD 0), r)
    else (none, r)

/-- `add_dependency_event`; `none` is a read outside of the vector. -/
def addDependencyEvent (event : Str) (dependency : Nat) : Option (Option Nat × Registry) :=
  if dependency < r.dependencyCount then
    r.dependencyEventsByName[dependency]?.map fun events =>
      match events.lookup event with
      | some i => (some i, r)
      | none =>
        let i := r.dependencyEvents.length
        (some i, { r with
          dependencyEvents := r.dependencyEvents ++ [⟨dependency, event⟩]
          dependencyEventsByName :=
            r.dependencyEventsByName.set dependency (events.insert event i) })
  else some (none, r)

/-- `add_import_symbol`; `none` is a write outside of the vector. -/
def addImportSymbol (name : Str) (dependency : Nat) : Option Registry :=
  r.dependencyImportsByName[dependency]?.map fun imports =>
    { r with
      dependencyImportsByName := r.dependencyImportsByName.set dependency
        (imports.insert name r.importSymbols.length)
      importSymbols := r.importSymbols ++ [⟨⟨name, sectionImport, 0, true⟩, dependency⟩] }

/-- `find_import_symbol`; `none` is a read outside of the vector. -/
def findImportSymbol (name : Str) (dependency : Nat) : Option (Option Nat) :=
  if dependency < r.dependencyCount then
    r.dependencyImportsByName[dependency]?.map (·.lookup name)
  else some none

/-- `add_event_symbol`. -/
def addEventSymbol (name : Str) : Registry :=
  { r with
    referenceSymbolsByName :=
      r.referenceSymbolsByName.insert name ⟨sectionEvent, r.eventSymbols.length⟩
    eventSymbols := r.eventSymbols ++ [⟨⟨name, sectionEvent, 0, true⟩⟩] }

/-- One operation: whether it reports success, and what it leaves. `none` is an access outside of a
vector. -/
def step : RegistryOp → Option (Bool × Registry)
  | .addDependency id => some (r.addDependency id)
  | .addDependencies ids => some (r.addDependencies ids)
  | .findDependency id => some ((r.findDependency id).map Option.isSome fun r => r)
  | .addDependencyEvent event dependency =>
    (r.addDependencyEvent event dependency).map (Prod.map Option.isSome fun r => r)
  | .addImportSymbol name dependency => (r.addImportSymbol name dependency).map (true, ·)
  | .findImportSymbol name dependency =>
    (r.findImportSymbol name dependency).map fun i => (i.isSome, r)
  | .addEventSymbol name => some (true, r.addEventSymbol name)

/-- A sequence of operations. -/
def run (r : Registry) : List RegistryOp → Option Registry
  | [] => some r
  | op :: ops => (r.step op).bind fun x => run x.2 ops

/-! ## Consistency -/

/-- The index of an import, as `find_import_symbol` reads it. -/
def importIndex (key : Nat × Str) : Option Nat :=
  r.dependencyImportsByName[key.1]?.bind (·.lookup key.2)

/-- The index of a dependency's event. -/
def dependencyEventIndex (key : Nat × Str) : Option Nat :=
  r.dependencyEventsByName[key.1]?.bind (·.lookup key.2)

/-- The index of an event, as `find_event_symbol` reads it. -/
def eventSymbolIndex (name : Str) : Option Nat :=
  (r.referenceSymbolsByName.lookup name).bind fun ref =>
    if ref.sectionIndex = sectionEvent then some ref.symbolIndex else none

end Registry

/-- The maps and the vectors are inverse to each other, and the vectors by dependency have an entry
for every dependency. -/
structure Registry.Consistent (r : Registry) : Prop where
  dependencies : IsInverse (fun id => r.dependenciesByName.lookup id) r.dependencies id
  imports : IsInverse r.importIndex r.importSymbols fun sym => (sym.dependencyIndex, sym.base.name)
  dependencyEvents : IsInverse r.dependencyEventIndex r.dependencyEvents
    fun event => (event.dependencyIndex, event.eventName)
  eventSymbols : IsInverse r.eventSymbolIndex r.eventSymbols (·.base.name)
  imports_length : r.dependencyImportsByName.length = r.dependencies.length
  events_length : r.dependencyEventsByName.length = r.dependencies.length

/-- What an operation must fit: a batch repeats no name, and an import or an event is not there. -/
def RegistryOp.Fits (r : Registry) : RegistryOp → Prop
  | .addDependencies ids => ids.Nodup ∨ ∃ id ∈ ids, id ∈ r.dependenciesByName
  | .addImportSymbol name dependency =>
    dependency < r.dependencies.length ∧ r.importIndex (dependency, name) = none
  | .addEventSymbol name => r.eventSymbolIndex name = none
  | _ => True

/-- In a run from an empty registry it is consistent before every operation, no operation accesses a
vector outside of its bounds, and one that fails changes nothing. -/
def RegistryRight (ops : List RegistryOp) : Prop :=
  ∀ n, ∃ r, Registry.empty.run (ops.take n) = some r ∧ r.Consistent ∧
    ∀ op, ops[n]? = some op → ∃ x, r.step op = some x ∧ (x.1 = false → x.2 = r)

/-! ## The dependencies -/

section Dependencies

variable {r : Registry} {name : Str} {names : List Str}

/-- There are as many names of dependencies as dependencies. -/
theorem Registry.Consistent.dependencyCount_eq (h : r.Consistent) :
    r.dependencyCount = r.dependencies.length := by
  have hnodup : r.dependencies.Nodup := by
    have hkeys := h.dependencies.nodup
    rwa [List.map_id] at hkeys
  have hperm : r.dependenciesByName.keys.Perm r.dependencies := by
    refine (List.perm_ext_iff_of_nodup r.dependenciesByName.keys_nodup hnodup).mpr fun name => ?_
    rw [← AList.mem_keys, ← AList.lookup_isSome, Option.isSome_iff_exists, List.mem_iff_getElem?]
    refine exists_congr fun i => ?_
    rw [h.dependencies name i]
    simp
  have hlength := hperm.length_eq
  rwa [AList.keys, List.keys, List.length_map] at hlength

theorem getElem?_resized {α : Type} {n : Nat} {fill : α} {l : List α} (hn : l.length ≤ n) (i : Nat) :
    (resized n fill l)[i]? = if i < l.length then l[i]? else if i < n then some fill else none := by
  unfold resized
  rw [List.take_of_length_le hn, List.getElem?_append]
  split
  · rfl
  · rw [List.getElem?_replicate]
    split <;> split <;> first | rfl | omega

theorem length_resized {α : Type} {n : Nat} {fill : α} {l : List α} :
    (resized n fill l).length = n := by
  unfold resized
  rw [List.length_append, List.length_take, List.length_replicate]
  omega

/-- The maps that are added by a resize have no names. -/
theorem lookup_resized {n : Nat} {l : List (NameMap Nat)} (hn : l.length ≤ n) (key : Nat × Str) :
    ((resized n ∅ l)[key.1]?).bind (·.lookup key.2) = l[key.1]?.bind (·.lookup key.2) := by
  rw [getElem?_resized hn]
  split
  · rfl
  · rename_i hlt
    rw [List.getElem?_eq_none (by omega)]
    split
    · exact AList.lookup_empty _
    · rfl

/-- The part of a registry that the dependencies' names are in. -/
theorem foldl_appendDependency (r : Registry) (names : List Str) :
    names.foldl Registry.appendDependency r =
      { r with
        dependencies := r.dependencies ++ names
        dependenciesByName := (names.foldl Registry.appendDependency r).dependenciesByName } := by
  induction names generalizing r with
  | nil => simp
  | cons name names ih =>
    rw [List.foldl_cons, ih]
    simp [Registry.appendDependency]

theorem dependencyCount_emplace (hname : name ∉ r.dependenciesByName) :
    (r.appendDependency name).dependencyCount = r.dependencyCount + 1 := by
  unfold Registry.appendDependency Registry.dependencyCount emplace
  rw [if_neg hname]
  dsimp only
  rw [AList.insert_of_notMem hname]
  rfl

/-- The dependencies and their names, after those of a batch without repeated names are appended. -/
theorem foldl_appendDependency_isInverse (hcount : r.dependencyCount = r.dependencies.length)
    (h : IsInverse (fun name => r.dependenciesByName.lookup name) r.dependencies id)
    (hnew : ∀ name ∈ names, name ∉ r.dependenciesByName) (hnodup : names.Nodup) :
    let r' := names.foldl Registry.appendDependency r
    r'.dependencyCount = r'.dependencies.length ∧
      IsInverse (fun name => r'.dependenciesByName.lookup name) r'.dependencies id := by
  induction names generalizing r with
  | nil => exact ⟨hcount, h⟩
  | cons name names ih =>
    have hname := hnew name List.mem_cons_self
    have hlookup : ∀ k, (r.appendDependency name).dependenciesByName.lookup k =
        if k = name then some r.dependencies.length else r.dependenciesByName.lookup k := by
      intro k
      unfold Registry.appendDependency emplace
      rw [if_neg hname, hcount]
      split
      · rename_i hk
        rw [hk, AList.lookup_insert]
      · rename_i hk
        rw [AList.lookup_insert_ne hk]
    refine ih ?_ ?_ (fun name' hname' => ?_) (List.nodup_cons.mp hnodup).2
    · rw [dependencyCount_emplace hname, hcount]
      simp [Registry.appendDependency]
    · exact (h.append_iff hlookup).mpr (AList.lookup_eq_none.mpr hname)
    · have hne : name' ≠ name := by
        rintro rfl
        exact (List.nodup_cons.mp hnodup).1 hname'
      rw [← AList.lookup_eq_none, hlookup, if_neg hne, AList.lookup_eq_none]
      exact hnew name' (List.mem_cons_of_mem _ hname')

/-- The vectors by dependency follow the dependencies. -/
theorem Registry.Consistent.withDependencies {names : List Str} {map : NameMap Nat}
    (h : r.Consistent) (hlength : r.dependencies.length ≤ names.length)
    (hcount : map.entries.length = names.length)
    (hinverse : IsInverse (fun name => map.lookup name) names id) :
    ({ r with dependencies := names, dependenciesByName := map } :
      Registry).resizeByDependency.Consistent := by
  have hevents : r.dependencyEventsByName.length ≤ map.entries.length := by
    rw [h.events_length, hcount]
    exact hlength
  have himports : r.dependencyImportsByName.length ≤ map.entries.length := by
    rw [h.imports_length, hcount]
    exact hlength
  exact {
    dependencies := hinverse
    imports := h.imports.congr (lookup_resized himports)
    dependencyEvents := h.dependencyEvents.congr (lookup_resized hevents)
    eventSymbols := h.eventSymbols
    imports_length := length_resized.trans hcount
    events_length := length_resized.trans hcount }

/-- **A batch is added consistently when it repeats no name.** -/
theorem addDependencies_consistent_iff (h : r.Consistent)
    (hnew : ¬∃ name ∈ names, name ∈ r.dependenciesByName) :
    (names.foldl Registry.appendDependency r).resizeByDependency.Consistent ↔ names.Nodup := by
  have hfold := foldl_appendDependency r names
  constructor
  · intro h'
    have hkeys := h'.dependencies.nodup
    rw [List.map_id, Registry.resizeByDependency, hfold] at hkeys
    exact (List.nodup_append.mp hkeys).2.1
  · intro hnodup
    obtain ⟨hcount, hinverse⟩ := foldl_appendDependency_isInverse h.dependencyCount_eq h.dependencies
      (fun name hname hmem => hnew ⟨name, hname, hmem⟩) hnodup
    rw [hfold] at hcount hinverse ⊢
    exact h.withDependencies (by simp) hcount hinverse

theorem addDependency_consistent (h : r.Consistent) (name : Str) :
    (r.addDependency name).2.Consistent := by
  unfold Registry.addDependency
  split
  · exact h
  · rename_i hname
    have hnew : ¬∃ name' ∈ [name], name' ∈ r.dependenciesByName := by simpa using hname
    exact (addDependencies_consistent_iff h hnew).mpr (List.nodup_singleton name)

theorem findDependency_consistent (h : r.Consistent) (name : Str) :
    (r.findDependency name).2.Consistent := by
  unfold Registry.findDependency
  split
  · exact h
  · split
    · exact addDependency_consistent h name
    · exact h

end Dependencies

/-! ## The imports and the events -/

section Symbols

variable {r : Registry} {name : Str} {dependency : Nat}

/-- A name is entered into the map of a dependency. -/
theorem lookup_set {l : List (NameMap Nat)} {map : NameMap Nat} {n : Nat}
    (hmap : l[dependency]? = some map) (key : Nat × Str) :
    ((l.set dependency (map.insert name n))[key.1]?).bind (·.lookup key.2) =
      if key = (dependency, name) then some n else l[key.1]?.bind (·.lookup key.2) := by
  obtain ⟨d, a⟩ := key
  have hlt := (List.getElem?_eq_some_iff.mp hmap).1
  by_cases hd : d = dependency
  · subst hd
    rw [List.getElem?_set_self hlt, Option.bind_some, hmap, Option.bind_some]
    by_cases ha : a = name
    · rw [ha, if_pos rfl, AList.lookup_insert]
    · rw [if_neg (by simp [ha]), AList.lookup_insert_ne ha]
  · rw [List.getElem?_set_ne (Ne.symm hd), if_neg (by simp [hd])]

theorem addDependencyEvent_consistent (h : r.Consistent) (event : Str) (dependency : Nat) :
    ∃ x, r.addDependencyEvent event dependency = some x ∧ x.2.Consistent := by
  unfold Registry.addDependencyEvent
  by_cases hlt : dependency < r.dependencyCount
  · rw [if_pos hlt]
    rw [h.dependencyCount_eq, ← h.events_length] at hlt
    rw [List.getElem?_eq_getElem hlt, Option.map_some]
    refine ⟨_, rfl, ?_⟩
    cases hevent : (r.dependencyEventsByName[dependency]).lookup event with
    | some i => exact h
    | none =>
      have hmap := List.getElem?_eq_getElem hlt
      have hnone : r.dependencyEventIndex (dependency, event) = none := by
        unfold Registry.dependencyEventIndex
        rw [hmap, Option.bind_some, hevent]
      have happend := h.dependencyEvents.append_iff (x := ⟨dependency, event⟩)
        (lookup_set hmap)
      exact {
        dependencies := h.dependencies
        imports := h.imports
        dependencyEvents := happend.mpr hnone
        eventSymbols := h.eventSymbols
        imports_length := h.imports_length
        events_length := List.length_set.trans h.events_length }
  · rw [if_neg hlt]
    exact ⟨_, rfl, h⟩

theorem addImportSymbol_consistent_iff (h : r.Consistent) :
    (∃ r', r.addImportSymbol name dependency = some r' ∧ r'.Consistent) ↔
      dependency < r.dependencies.length ∧ r.importIndex (dependency, name) = none := by
  unfold Registry.addImportSymbol
  rw [← h.imports_length]
  by_cases hlt : dependency < r.dependencyImportsByName.length
  · have hmap := List.getElem?_eq_getElem hlt
    have happend := h.imports.append_iff (x := ⟨⟨name, sectionImport, 0, true⟩, dependency⟩)
      (lookup_set hmap)
    rw [hmap, Option.map_some]
    constructor
    · rintro ⟨r', hr', h'⟩
      obtain rfl := Option.some.inj hr'
      exact ⟨hlt, happend.mp h'.imports⟩
    · rintro ⟨-, hnone⟩
      exact ⟨_, rfl, {
        dependencies := h.dependencies
        imports := happend.mpr hnone
        dependencyEvents := h.dependencyEvents
        eventSymbols := h.eventSymbols
        imports_length := List.length_set.trans h.imports_length
        events_length := h.events_length }⟩
  · rw [List.getElem?_eq_none (by omega)]
    simp [hlt]

theorem findImportSymbol_isSome (h : r.Consistent) (name : Str) (dependency : Nat) :
    (r.findImportSymbol name dependency).isSome = true := by
  unfold Registry.findImportSymbol
  split
  · rename_i hlt
    rw [h.dependencyCount_eq, ← h.imports_length] at hlt
    rw [List.getElem?_eq_getElem hlt]
    rfl
  · rfl

theorem addEventSymbol_consistent_iff (h : r.Consistent) :
    (r.addEventSymbol name).Consistent ↔ r.eventSymbolIndex name = none := by
  have hlookup : ∀ k, (r.addEventSymbol name).eventSymbolIndex k =
      if k = name then some r.eventSymbols.length else r.eventSymbolIndex k := by
    intro k
    unfold Registry.eventSymbolIndex Registry.addEventSymbol
    dsimp only
    by_cases hk : k = name
    · rw [hk, if_pos rfl, AList.lookup_insert]
      rfl
    · rw [if_neg hk, AList.lookup_insert_ne hk]
  have happend := h.eventSymbols.append_iff (x := ⟨⟨name, sectionEvent, 0, true⟩⟩) hlookup
  constructor
  · intro h'
    exact happend.mp h'.eventSymbols
  · intro hnone
    exact {
      dependencies := h.dependencies
      imports := h.imports
      dependencyEvents := h.dependencyEvents
      eventSymbols := happend.mpr hnone
      imports_length := h.imports_length
      events_length := h.events_length }

end Symbols

/-! ## Runs -/

section Runs

variable {r : Registry}

/-- **The operations that keep a registry consistent.** -/
theorem Registry.step_consistent_iff (h : r.Consistent) (op : RegistryOp) :
    (∃ x, r.step op = some x ∧ x.2.Consistent) ↔ op.Fits r := by
  cases op with
  | addDependency name => exact ⟨fun _ => trivial, fun _ => ⟨_, rfl, addDependency_consistent h name⟩⟩
  | addDependencies names =>
    unfold Registry.step Registry.addDependencies RegistryOp.Fits
    dsimp only
    by_cases hany : ∃ name ∈ names, name ∈ r.dependenciesByName
    · rw [if_pos hany]
      exact ⟨fun _ => Or.inr hany, fun _ => ⟨_, rfl, h⟩⟩
    · rw [if_neg hany, or_iff_left hany, ← addDependencies_consistent_iff h hany]
      simp
  | findDependency name =>
    exact ⟨fun _ => trivial, fun _ => ⟨_, rfl, findDependency_consistent h name⟩⟩
  | addDependencyEvent event dependency =>
    obtain ⟨x, hx, h'⟩ := addDependencyEvent_consistent h event dependency
    refine ⟨fun _ => trivial, fun _ => ⟨(x.1.isSome, x.2), ?_, h'⟩⟩
    unfold Registry.step
    dsimp only
    rw [hx]
    rfl
  | addImportSymbol name dependency =>
    unfold Registry.step RegistryOp.Fits
    dsimp only
    rw [← addImportSymbol_consistent_iff h]
    simp [Option.map_eq_some_iff]
  | findImportSymbol name dependency =>
    obtain ⟨i, hi⟩ := Option.isSome_iff_exists.mp (findImportSymbol_isSome h name dependency)
    refine ⟨fun _ => trivial, fun _ => ⟨(i.isSome, r), ?_, h⟩⟩
    unfold Registry.step
    dsimp only
    rw [hi]
    rfl
  | addEventSymbol name =>
    unfold Registry.step RegistryOp.Fits
    dsimp only
    rw [← addEventSymbol_consistent_iff h]
    simp

/-- An operation that reports a failure changes nothing. -/
theorem Registry.step_failed {op : RegistryOp} {x : Bool × Registry} (h : r.step op = some x)
    (hfailed : x.1 = false) : x.2 = r := by
  cases op with
  | addDependency name =>
    obtain rfl := Option.some.inj h
    unfold Registry.addDependency at hfailed ⊢
    split_ifs at hfailed ⊢
    rfl
  | addDependencies names =>
    obtain rfl := Option.some.inj h
    unfold Registry.addDependencies at hfailed ⊢
    split_ifs at hfailed ⊢
    rfl
  | findDependency name =>
    obtain rfl := Option.some.inj h
    unfold Registry.findDependency at hfailed ⊢
    cases hlookup : r.dependenciesByName.lookup name with
    | some i =>
      rw [hlookup] at hfailed
      cases hfailed
    | none =>
      rw [hlookup] at hfailed
      dsimp only at hfailed ⊢
      split_ifs at hfailed ⊢
      · cases hfailed
      · rfl
  | addDependencyEvent event dependency =>
    obtain ⟨y, hy, rfl⟩ := Option.map_eq_some_iff.mp h
    unfold Registry.addDependencyEvent at hy
    split at hy
    · obtain ⟨events, -, rfl⟩ := Option.map_eq_some_iff.mp hy
      cases hevent : events.lookup event with
      | none =>
        simp only [hevent] at hfailed
        cases hfailed
      | some i =>
        simp only [hevent] at hfailed
        cases hfailed
    · obtain rfl := Option.some.inj hy
      rfl
  | addImportSymbol name dependency =>
    obtain ⟨y, -, rfl⟩ := Option.map_eq_some_iff.mp h
    cases hfailed
  | findImportSymbol name dependency =>
    obtain ⟨y, -, rfl⟩ := Option.map_eq_some_iff.mp h
    rfl
  | addEventSymbol name =>
    obtain rfl := Option.some.inj h
    cases hfailed

theorem Registry.consistent_empty : Registry.empty.Consistent where
  dependencies := IsInverse.nil fun _ => AList.lookup_empty _
  imports := IsInverse.nil fun _ => rfl
  dependencyEvents := IsInverse.nil fun _ => rfl
  eventSymbols := IsInverse.nil fun name => by
    unfold Registry.eventSymbolIndex Registry.empty
    rw [AList.lookup_empty]
    rfl
  imports_length := rfl
  events_length := rfl

theorem Registry.run_append (ops ops' : List RegistryOp) :
    r.run (ops ++ ops') = (r.run ops).bind fun r' => r'.run ops' := by
  induction ops generalizing r with
  | nil => rfl
  | cons op ops ih =>
    rw [List.cons_append, Registry.run, Registry.run]
    cases r.step op with
    | none => rfl
    | some x => exact ih

/-- A run up to an operation, and that operation. -/
theorem Registry.run_take_succ {ops : List RegistryOp} {n : Nat} {op : RegistryOp} {r' : Registry}
    (hop : ops[n]? = some op) (hrun : r.run (ops.take n) = some r') :
    r.run (ops.take (n + 1)) = (r'.step op).map (·.2) := by
  rw [List.take_add_one, hop, Registry.run_append, hrun]
  simp only [Option.toList_some, Option.bind_some, Registry.run]
  cases r'.step op <;> rfl

/-- **A run keeps the registry consistent exactly when each of its operations fits.** -/
theorem registryRight_iff (ops : List RegistryOp) :
    RegistryRight ops ↔ ∀ n op r, ops[n]? = some op → Registry.empty.run (ops.take n) = some r →
      op.Fits r := by
  constructor
  · intro h n op r hop hrun
    obtain ⟨r₁, hrun₁, hconsistent, hstep⟩ := h n
    obtain rfl := Option.some.inj (hrun.symm.trans hrun₁)
    obtain ⟨x, hx, -⟩ := hstep op hop
    obtain ⟨r₂, hrun₂, hconsistent₂, -⟩ := h (n + 1)
    rw [Registry.run_take_succ hop hrun, hx] at hrun₂
    obtain rfl := Option.some.inj hrun₂
    exact (Registry.step_consistent_iff hconsistent op).mp ⟨x, hx, hconsistent₂⟩
  · intro h
    have hreached : ∀ n, ∃ r, Registry.empty.run (ops.take n) = some r ∧ r.Consistent := by
      intro n
      induction n with
      | zero => exact ⟨_, rfl, Registry.consistent_empty⟩
      | succ n ih =>
        obtain ⟨r, hrun, hconsistent⟩ := ih
        cases hop : ops[n]? with
        | none =>
          -- the run is over
          rw [List.take_add_one, hop]
          exact ⟨r, by simpa using hrun, hconsistent⟩
        | some op =>
          obtain ⟨x, hx, hconsistent'⟩ :=
            (Registry.step_consistent_iff hconsistent op).mpr (h n op r hop hrun)
          exact ⟨x.2, by rw [Registry.run_take_succ hop hrun, hx]; rfl, hconsistent'⟩
    intro n
    obtain ⟨r, hrun, hconsistent⟩ := hreached n
    refine ⟨r, hrun, hconsistent, fun op hop => ?_⟩
    obtain ⟨x, hx, -⟩ := (Registry.step_consistent_iff hconsistent op).mpr (h n op r hop hrun)
    exact ⟨x, hx, Registry.step_failed hx⟩

/-- A batch that repeats a name leaves two dependencies with one name. -/
theorem repeatedBatch_not_right : ¬RegistryRight [.addDependencies [ascii "mod", ascii "mod"]] := by
  intro h
  obtain ⟨r, hrun, hconsistent, -⟩ := h 1
  obtain rfl := Option.some.inj hrun
  have hlength := hconsistent.events_length
  revert hlength
  decide

end Runs

end N64Recomp
