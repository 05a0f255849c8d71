import Mathlib.Data.List.Dedup
import Mathlib.Data.List.Induction
import Mathlib.Data.List.Nodup
import Mathlib.Data.List.Pairwise
import Mathlib.Data.List.Perm.Subperm
import N64Recomp.Context.Names
import N64Recomp.Data.KeyIndex

/-!
# Name collisions

Two functions of one name cannot both be emitted. Either the program stops, or each of them gets its
address in the ROM as a suffix, in one pass over the names that collide. A hash map lists these
names in an order of its own.

## Main definitions

* `byName`: the functions of each name
* `NameGroups`: these groups in the order of the hash map
* `suffixPolicy`, `resolveCollisions`: the pass, and the policy that is configured
* `CollisionsResolved`: the names are told apart, and each leads to its function
* `SuffixFits`: the suffixes are enough for that

## Main results

* `functionsByName_suffixPolicy`: what a name leads to after the pass
* `collisionsResolved_iff`: when the pass resolves the collisions
-/

namespace N64Recomp

/-! ### The pass -/

/-- The functions, and the map from their names to their indices. -/
structure NamedFunctions where
  functions : List Function
  functionsByName : Str → Option Nat

section Groups

variable (functions : List Function)

/-- The indices of the functions of a name. -/
def indicesOf (name : Str) : List Nat :=
  (List.range functions.length).filter fun i => functions[i]?.map (·.name) = some name

/-- `by_name`: every name but the empty one, with the functions that have it. -/
def byName : List (Str × List Nat) :=
  ((functions.map (·.name)).filter (· ≠ [])).dedup.map fun name => (name, indicesOf functions name)

/-- The entries of `by_name` as the hash map lists them. -/
structure NameGroups where
  groups : List (Str × List Nat)
  perm : groups.Perm (byName functions)

/-- Several functions have a name, which is not the empty one. -/
def Collides (name : Str) : Prop := name ≠ [] ∧ 1 < (indicesOf functions name).length

/-- The name of the function at an index. -/
def nameAt (i : Nat) : Str := (functions[i]?.map (·.name)).getD []

/-- The suffixed name of the function at an index. -/
def newNameAt (i : Nat) : Str := (functions[i]?.map fun f => suffixedName f.name f.rom).getD []

end Groups

variable {functions : List Function}

/-- `collisions`. -/
def NameGroups.collisions (order : NameGroups functions) : List (Str × List Nat) :=
  order.groups.filter fun group => 1 < group.2.length

/-- The indices that are renamed, in order. -/
def NameGroups.renamed (order : NameGroups functions) : List Nat :=
  order.collisions.flatMap (·.2)

/-- One function is renamed: its old name is erased from the map, and its new one leads to it. -/
def renameColliding (st : NamedFunctions) (fi : Nat) : NamedFunctions :=
  match st.functions[fi]? with
  | none => st
  | some f =>
    let newName := suffixedName f.name f.rom
    { functions := st.functions.set fi { f with name := newName }
      functionsByName := fun name =>
        if name = newName then some fi
        else if name = f.name then none
        else st.functionsByName name }

/-- The suffix policy: the functions of each colliding name are renamed. -/
def suffixPolicy (order : NameGroups functions) (functionsByName : Str → Option Nat) :
    NamedFunctions :=
  order.collisions.foldl (fun st group => group.2.foldl renameColliding st)
    ⟨functions, functionsByName⟩

inductive CollisionPolicy
  | error | suffix
  deriving DecidableEq, Repr

/-- Without collisions nothing changes, and with some the first policy ends the program. -/
def resolveCollisions (policy : CollisionPolicy) (order : NameGroups functions)
    (functionsByName : Str → Option Nat) : Option NamedFunctions :=
  if order.collisions = [] then some ⟨functions, functionsByName⟩
  else match policy with
    | .error => none
    | .suffix => some (suffixPolicy order functionsByName)

/-! ### What the pass should do -/

/-- **The collisions are resolved**: the functions that have a name have one each, a name that only
one function had is kept, and every name leads to its function. -/
structure CollisionsResolved (functions : List Function) (after : NamedFunctions) : Prop where
  distinct : ∀ (i j : Nat) f g, after.functions[i]? = some f → after.functions[j]? = some g →
    f.name ≠ [] → f.name = g.name → i = j
  unchanged : ∀ (i : Nat) f, functions[i]? = some f →
    (∀ (j : Nat) g, functions[j]? = some g → g.name = f.name → j = i) →
    ∃ f', after.functions[i]? = some f' ∧ f'.name = f.name
  byName : ∀ (i : Nat) f, after.functions[i]? = some f → after.functionsByName f.name = some i

/-- The map leads the names that stay to their functions, the functions of a colliding name have
addresses of their own, a suffixed name is neither one that stays nor one whose functions are
renamed later. -/
structure SuffixFits (functionsByName : Str → Option Nat) (order : NameGroups functions) :
    Prop where
  known : ∀ (i : Nat) f, functions[i]? = some f → ¬Collides functions f.name →
    functionsByName f.name = some i
  roms : ∀ (i j : Nat) f g, functions[i]? = some f → functions[j]? = some g →
    Collides functions f.name → f.name = g.name → f.rom = g.rom → i = j
  fresh : ∀ (i j : Nat) f g, functions[i]? = some f → functions[j]? = some g →
    Collides functions f.name → ¬Collides functions g.name → suffixedName f.name f.rom ≠ g.name
  later : order.collisions.Pairwise fun group next => ∀ i ∈ group.2, ∀ f, functions[i]? = some f →
    suffixedName f.name f.rom ≠ next.1

/-! ### The groups -/

theorem mem_indicesOf {name : Str} {i : Nat} :
    i ∈ indicesOf functions name ↔ ∃ f, functions[i]? = some f ∧ f.name = name := by
  simp only [indicesOf, List.mem_filter, List.mem_range, decide_eq_true_eq, Option.map_eq_some_iff]
  constructor
  · rintro ⟨-, f, hf, hname⟩
    exact ⟨f, hf, hname⟩
  · rintro ⟨f, hf, hname⟩
    exact ⟨(List.getElem?_eq_some_iff.mp hf).1, f, hf, hname⟩

/-- A name that only one function has does not collide. -/
theorem not_collides_of_unique {name : Str} {i : Nat}
    (h : ∀ (j : Nat) g, functions[j]? = some g → g.name = name → j = i) :
    ¬Collides functions name := by
  rintro ⟨-, hmany⟩
  have hnodup : (indicesOf functions name).Nodup := List.nodup_range.filter _
  have hsubset : indicesOf functions name ⊆ [i] := by
    intro j hj
    obtain ⟨g, hg, hname⟩ := mem_indicesOf.mp hj
    exact List.mem_singleton.mpr (h j g hg hname)
  exact absurd (hnodup.subperm hsubset).length_le (Nat.not_le.mpr hmany)

section Renamed

variable {order : NameGroups functions}

/-- The groups are the colliding names with the indices of their functions. -/
theorem mem_collisions {group : Str × List Nat} :
    group ∈ order.collisions ↔
      Collides functions group.1 ∧ group.2 = indicesOf functions group.1 := by
  unfold NameGroups.collisions Collides
  rw [List.mem_filter, order.perm.mem_iff, byName, List.mem_map, decide_eq_true_eq]
  constructor
  · rintro ⟨⟨name, hname, rfl⟩, hmany⟩
    rw [List.mem_dedup, List.mem_filter] at hname
    exact ⟨⟨by simpa using hname.2, hmany⟩, rfl⟩
  · rintro ⟨⟨hne, hmany⟩, hindices⟩
    refine ⟨⟨group.1, ?_, by rw [← hindices]⟩, hindices ▸ hmany⟩
    obtain ⟨i, hi⟩ := List.exists_mem_of_length_pos (Nat.zero_lt_one.trans hmany)
    obtain ⟨f, hf, hname⟩ := mem_indicesOf.mp hi
    rw [List.mem_dedup, List.mem_filter]
    exact ⟨List.mem_map.mpr ⟨f, List.mem_of_getElem? hf, hname⟩, by simpa using hne⟩

/-- No name has two groups. -/
theorem pairwise_collisions (order : NameGroups functions) :
    order.collisions.Pairwise fun group next => group.1 ≠ next.1 := by
  have hnodup : ((byName functions).map (·.1)).Nodup := by
    rw [byName, List.map_map]
    exact (List.nodup_dedup _).map fun _ _ h => h
  exact (List.pairwise_map.mp ((order.perm.map (·.1)).nodup_iff.mpr hnodup)).filter _

/-- The functions of the colliding names are renamed. -/
theorem mem_renamed {i : Nat} :
    i ∈ order.renamed ↔ ∃ f, functions[i]? = some f ∧ Collides functions f.name := by
  rw [NameGroups.renamed, List.mem_flatMap]
  constructor
  · rintro ⟨group, hgroup, hi⟩
    obtain ⟨hcollides, hindices⟩ := mem_collisions.mp hgroup
    rw [hindices] at hi
    obtain ⟨f, hf, hname⟩ := mem_indicesOf.mp hi
    exact ⟨f, hf, hname ▸ hcollides⟩
  · rintro ⟨f, hf, hcollides⟩
    exact ⟨(f.name, indicesOf functions f.name), mem_collisions.mpr ⟨hcollides, rfl⟩,
      mem_indicesOf.mpr ⟨f, hf, rfl⟩⟩

theorem nodup_renamed (order : NameGroups functions) : order.renamed.Nodup := by
  refine List.nodup_flatMap.mpr ⟨fun group hgroup => ?_, ?_⟩
  · rw [(mem_collisions.mp hgroup).2]
    exact List.nodup_range.filter _
  · refine (pairwise_collisions order).imp_of_mem fun {group next} hgroup hnext hne i hi hi' => ?_
    dsimp only at hi hi'
    rw [(mem_collisions.mp hgroup).2, mem_indicesOf] at hi
    rw [(mem_collisions.mp hnext).2, mem_indicesOf] at hi'
    obtain ⟨f, hf, hname⟩ := hi
    obtain ⟨g, hg, hname'⟩ := hi'
    rw [hf] at hg
    cases hg
    exact hne (hname.symm.trans hname')

end Renamed

/-! ### The run -/

theorem nameAt_of {i : Nat} {f : Function} (h : functions[i]? = some f) :
    nameAt functions i = f.name := by
  rw [nameAt, h]
  rfl

theorem newNameAt_of {i : Nat} {f : Function} (h : functions[i]? = some f) :
    newNameAt functions i = suffixedName f.name f.rom := by
  rw [newNameAt, h]
  rfl

/-- A function that is renamed. -/
def suffixed (f : Function) : Function := { f with name := suffixedName f.name f.rom }

theorem renameColliding_of {st : NamedFunctions} {i : Nat} {f : Function}
    (h : st.functions[i]? = some f) :
    renameColliding st i =
      { functions := st.functions.set i (suffixed f)
        functionsByName := fun name =>
          if name = suffixedName f.name f.rom then some i
          else if name = f.name then none
          else st.functionsByName name } := by
  unfold renameColliding
  rw [h]
  rfl

/-- Functions that are renamed once each have their new names, and the map has moved their indices
to these. -/
theorem foldl_renameColliding (st : NamedFunctions) {l : List Nat} (hnodup : l.Nodup)
    (hlt : ∀ i ∈ l, i < st.functions.length) :
    (∀ i : Nat, (l.foldl renameColliding st).functions[i]? =
      st.functions[i]?.map fun f => if i ∈ l then suffixed f else f) ∧
    (l.foldl renameColliding st).functionsByName =
      KeyIndex.moveAll (nameAt st.functions) (newNameAt st.functions) st.functionsByName l := by
  induction l using List.reverseRecOn with
  | nil => simp [KeyIndex.moveAll]
  | append_singleton l i ih =>
    obtain ⟨hnodup, -, hdisjoint⟩ := List.nodup_append.mp hnodup
    have hi : i ∉ l := fun hmem => hdisjoint i hmem i (List.mem_singleton_self i) rfl
    obtain ⟨hfunctions, hmap⟩ := ih hnodup fun j hj => hlt j (List.mem_append_left _ hj)
    have hlti := hlt i (by simp)
    obtain ⟨f, hf⟩ : ∃ f, st.functions[i]? = some f := ⟨_, List.getElem?_eq_getElem hlti⟩
    -- the function still has its old name, since its index comes only once
    have hsame : (l.foldl renameColliding st).functions[i]? = some f := by
      rw [hfunctions, hf, Option.map_some, if_neg hi]
    rw [List.foldl_append, List.foldl_cons, List.foldl_nil, renameColliding_of hsame]
    refine ⟨fun j => ?_, ?_⟩
    · rcases eq_or_ne j i with rfl | hj
      · rw [List.getElem?_set_self (List.getElem?_eq_some_iff.mp hsame).1, hf]
        simp [suffixed]
      · rw [List.getElem?_set_ne hj.symm, hfunctions]
        simp [hj]
    · rw [KeyIndex.moveAll_append, ← hmap, KeyIndex.moveAll, KeyIndex.moveAll, nameAt_of hf,
        newNameAt_of hf]

section Policy

variable {functionsByName : Str → Option Nat} {order : NameGroups functions}

theorem suffixPolicy_eq : suffixPolicy order functionsByName =
    order.renamed.foldl renameColliding ⟨functions, functionsByName⟩ := by
  rw [suffixPolicy, NameGroups.renamed, List.foldl_flatMap]

theorem run_suffixPolicy (functionsByName : Str → Option Nat) (order : NameGroups functions) :
    (∀ i : Nat, (suffixPolicy order functionsByName).functions[i]? =
      functions[i]?.map fun f => if i ∈ order.renamed then suffixed f else f) ∧
    (suffixPolicy order functionsByName).functionsByName =
      KeyIndex.moveAll (nameAt functions) (newNameAt functions) functionsByName order.renamed := by
  rw [suffixPolicy_eq]
  refine foldl_renameColliding _ (nodup_renamed order) fun i hi => ?_
  obtain ⟨f, hf, -⟩ := mem_renamed.mp hi
  exact (List.getElem?_eq_some_iff.mp hf).1

/-- The names lead to their functions exactly when those that stay do, and the new ones. -/
theorem functionsByName_suffixPolicy :
    (∀ (i : Nat) f, (suffixPolicy order functionsByName).functions[i]? = some f →
      (suffixPolicy order functionsByName).functionsByName f.name = some i) ↔
    (∀ (i : Nat) f, functions[i]? = some f → ¬Collides functions f.name →
      functionsByName f.name = some i ∧
        ∀ j ∈ order.renamed, newNameAt functions j ≠ f.name ∧ nameAt functions j ≠ f.name) ∧
    order.renamed.Pairwise fun i j => newNameAt functions j ≠ newNameAt functions i ∧
      nameAt functions j ≠ newNameAt functions i := by
  obtain ⟨hfunctions, hmap⟩ := run_suffixPolicy functionsByName order
  rw [hmap, ← KeyIndex.moveAll_new_iff functionsByName (nodup_renamed order)]
  have hcollides : ∀ {i : Nat} {f : Function}, functions[i]? = some f →
      (i ∈ order.renamed ↔ Collides functions f.name) := by
    intro i f hf
    rw [mem_renamed]
    constructor
    · rintro ⟨g, hg, hcollides⟩
      rw [hf] at hg
      cases hg
      exact hcollides
    · exact fun hcollides => ⟨f, hf, hcollides⟩
  constructor
  · intro h
    refine ⟨fun i f hf hstays => ?_, fun i hi => ?_⟩
    · have hi : i ∉ order.renamed := fun hi => hstays ((hcollides hf).mp hi)
      refine (KeyIndex.moveAll_eq_some_iff hi).mp (h i f ?_)
      rw [hfunctions, hf, Option.map_some, if_neg hi]
    · obtain ⟨f, hf, -⟩ := mem_renamed.mp hi
      rw [newNameAt_of hf]
      refine h i (suffixed f) ?_
      rw [hfunctions, hf, Option.map_some, if_pos hi]
  · rintro ⟨hstays, hrenamed⟩ i f' hf'
    rw [hfunctions] at hf'
    obtain ⟨f, hf, rfl⟩ := Option.map_eq_some_iff.mp hf'
    split_ifs with hi
    · rw [← hrenamed i hi, newNameAt_of hf]
      rfl
    · exact (KeyIndex.moveAll_eq_some_iff hi).mpr
        (hstays i f hf fun hf' => hi ((hcollides hf).mpr hf'))

/-- No move concerns an earlier new name exactly when the addresses of a group differ and no new
name is that of a later group. -/
theorem pairwise_renamed_iff :
    (order.renamed.Pairwise fun i j => newNameAt functions j ≠ newNameAt functions i ∧
      nameAt functions j ≠ newNameAt functions i) ↔
    (∀ (i j : Nat) f g, functions[i]? = some f → functions[j]? = some g →
      Collides functions f.name → f.name = g.name → f.rom = g.rom → i = j) ∧
    order.collisions.Pairwise fun group next => ∀ i ∈ group.2, ∀ f, functions[i]? = some f →
      suffixedName f.name f.rom ≠ next.1 := by
  rw [List.pairwise_and_iff]
  refine and_congr ?_ ?_
  · constructor
    · intro h i j f g hf hg hcollides hname hrom
      by_contra hne
      have hsymm : Std.Symm fun i j => newNameAt functions j ≠ newNameAt functions i :=
        ⟨fun _ _ h => h.symm⟩
      refine h.forall (mem_renamed.mpr ⟨f, hf, hcollides⟩)
        (mem_renamed.mpr ⟨g, hg, hname ▸ hcollides⟩) hne ?_
      rw [newNameAt_of hf, newNameAt_of hg, hname, hrom]
    · intro h
      refine (nodup_renamed order).pairwise_of_forall_ne fun i hi j hj hne heq => hne ?_
      obtain ⟨f, hf, hcollides⟩ := mem_renamed.mp hi
      obtain ⟨g, hg, -⟩ := mem_renamed.mp hj
      rw [newNameAt_of hf, newNameAt_of hg] at heq
      obtain ⟨hname, hrom⟩ := suffixedName_inj heq
      exact h i j f g hf hg hcollides hname.symm hrom.symm
  · rw [NameGroups.renamed, List.pairwise_flatMap]
    have hname : ∀ {group : Str × List Nat}, group ∈ order.collisions → ∀ i ∈ group.2,
        nameAt functions i = group.1 := by
      intro group hgroup i hi
      rw [(mem_collisions.mp hgroup).2] at hi
      obtain ⟨f, hf, hname⟩ := mem_indicesOf.mp hi
      rw [nameAt_of hf, hname]
    constructor
    · rintro ⟨-, h⟩
      refine h.imp_of_mem fun {group next} _ hnext h i hi f hf => ?_
      -- the later group has a function, whose old name is the group's
      obtain ⟨hcollides, hindices⟩ := mem_collisions.mp hnext
      obtain ⟨j, hj⟩ := List.exists_mem_of_length_pos (Nat.zero_lt_one.trans hcollides.2)
      rw [← hindices] at hj
      rw [← newNameAt_of hf, ← hname hnext j hj]
      exact (h i hi j hj).symm
    · refine fun h => ⟨fun group hgroup => ?_,
        h.imp_of_mem fun {group next} hgroup hnext h i hi j hj => ?_⟩
      · -- within a group a new name is longer than the old one
        refine List.pairwise_of_forall_mem_list fun i hi j hj => ?_
        obtain ⟨f, hf, -⟩ := mem_indicesOf.mp ((mem_collisions.mp hgroup).2 ▸ hi)
        intro heq
        have hlt := length_lt_suffixedName f.name f.rom
        rw [← newNameAt_of hf, ← heq, hname hgroup j hj, ← hname hgroup i hi, nameAt_of hf] at hlt
        exact absurd hlt (Nat.lt_irrefl _)
      · obtain ⟨f, hf, -⟩ := mem_indicesOf.mp ((mem_collisions.mp hgroup).2 ▸ hi)
        rw [hname hnext j hj, newNameAt_of hf]
        exact (h i hi f hf).symm

/-- **When the suffix policy resolves the collisions**: exactly when the suffixes fit. -/
theorem collisionsResolved_iff (functions : List Function) (functionsByName : Str → Option Nat)
    (order : NameGroups functions) :
    CollisionsResolved functions (suffixPolicy order functionsByName) ↔
      SuffixFits functionsByName order := by
  constructor
  · intro h
    obtain ⟨hstays, hpairwise⟩ := functionsByName_suffixPolicy.mp h.byName
    obtain ⟨hroms, hlater⟩ := pairwise_renamed_iff.mp hpairwise
    refine ⟨fun i f hf hf' => (hstays i f hf hf').1, hroms, fun i j f g hf hg hcollides hg' => ?_,
      hlater⟩
    rw [← newNameAt_of hf]
    exact ((hstays j g hg hg').2 i (mem_renamed.mpr ⟨f, hf, hcollides⟩)).1
  · intro h
    have hbyName := functionsByName_suffixPolicy.mpr
      ⟨fun i f hf hstays => ⟨h.known i f hf hstays, fun j hj => ?_⟩,
        pairwise_renamed_iff.mpr ⟨h.roms, h.later⟩⟩
    · refine ⟨fun i j f g hf hg _ hname => ?_, fun i f hf hunique => ?_, hbyName⟩
      · have hi := hbyName i f hf
        rw [hname, hbyName j g hg] at hi
        exact (Option.some.inj hi).symm
      · have hi : i ∉ order.renamed := by
          intro hi
          obtain ⟨g, hg, hcollides⟩ := mem_renamed.mp hi
          rw [hf] at hg
          cases hg
          exact not_collides_of_unique hunique hcollides
        exact ⟨f, by rw [(run_suffixPolicy functionsByName order).1, hf, Option.map_some, if_neg hi], rfl⟩
    · obtain ⟨g, hg, hcollides⟩ := mem_renamed.mp hj
      rw [newNameAt_of hg, nameAt_of hg]
      exact ⟨h.fresh j i g f hg hf hcollides hstays, fun hname => hstays (hname ▸ hcollides)⟩

end Policy

/-! ### The configured policy -/

section Configured

variable {functionsByName : Str → Option Nat} {order : NameGroups functions}

theorem collisions_eq_nil_iff : order.collisions = [] ↔ ∀ name, ¬Collides functions name := by
  rw [List.eq_nil_iff_forall_not_mem]
  constructor
  · exact fun h name hcollides => h (name, indicesOf functions name)
      (mem_collisions.mpr ⟨hcollides, rfl⟩)
  · exact fun h group hgroup => h group.1 (mem_collisions.mp hgroup).1

/-- The program ends only for a collision that the policy does not allow. -/
theorem resolveCollisions_eq_none_iff {policy : CollisionPolicy} :
    resolveCollisions policy order functionsByName = none ↔
      policy = .error ∧ ∃ name, Collides functions name := by
  unfold resolveCollisions
  split_ifs with hcollisions
  · have hnone := collisions_eq_nil_iff.mp hcollisions
    simp [hnone]
  · have hsome : ∃ name, Collides functions name := by
      by_contra hnone
      exact hcollisions (collisions_eq_nil_iff.mpr (not_exists.mp hnone))
    cases policy with
    | error => simp [hsome]
    | suffix => simp

/-- The pass does nothing without collisions. -/
theorem resolveCollisions_suffix : resolveCollisions .suffix order functionsByName =
    some (suffixPolicy order functionsByName) := by
  unfold resolveCollisions
  split_ifs with hcollisions
  · rw [suffixPolicy, hcollisions]
    rfl
  · rfl

end Configured

/-! ### A name that looks suffixed -/

/-- Two functions of a name, and a third one with the name that the first will get. -/
def lookalikes : List Function :=
  [.mk' 0x80000400 0x1000 [0x03E00008, 0] (ascii "foo") 0 false false false 0,
    .mk' 0x80000408 0x1008 [0x03E00008, 0] (ascii "foo") 0 false false false 0,
    .mk' 0x80000410 0x1010 [0x03E00008, 0] (ascii "foo__rom_1000") 0 false false false 0]

/-- The pass gives the first of these functions the name of the third. -/
theorem lookalikes_not_resolved : ¬CollisionsResolved lookalikes
    (suffixPolicy ⟨byName lookalikes, List.Perm.refl _⟩ fun name =>
      if name = ascii "foo" then some 1 else if name = ascii "foo__rom_1000" then some 2
      else none) := by
  intro h
  exact absurd (h.distinct 0 2 _ _ rfl rfl (by decide) (by decide)) (by decide)

end N64Recomp
