import Mathlib.Data.List.Induction
import N64Recomp.RecompModTool.ModRelocs

/-!
# The runs of a mod's sections

The output sections of a mod are runs of input sections that are loaded at one distance from their
places in the ROM. The loop over the sections puts the runs at the places of their first sections, and
maps every section of the ROM to its run.

## Main definitions

* `RomRun`, `romRuns`: the runs of a mod's sections
* `ModLayout`: where the output sections are, and which sections are mapped to them

## Main results

* `modLayout_placeSection`, `modLayout_placeNoload`: how a section is placed
* `mem_of_mem_members`, `length_runs_le`, `runs_eq_nil_iff`: what the runs are made of
-/

namespace N64Recomp

/-! ## Runs -/

/-- Sections of the ROM that follow each other, at one distance from their places in the ROM. -/
structure RomRun where
  first : Section
  last : Section
  members : List Nat

/-- A further section of the ROM joins the last run, or starts another one. -/
def addToRuns (runs : List RomRun) (p : Section × Nat) : List RomRun :=
  if p.1.isNoload then runs
  else if runs.getLast?.any (·.last.romToRam = p.1.romToRam) then
    runs.modify (runs.length - 1) fun run =>
      { run with last := p.1, members := run.members ++ [p.2] }
  else runs ++ [⟨p.1, p.1, [p.2]⟩]

/-- The runs of the sections. -/
def romRuns (input : Context) : List RomRun := input.sections.zipIdx.foldl addToRuns []

/-! ## Where the sections are -/

/-- A run's place is that of an output section. -/
structure RomRun.IsAt (run : RomRun) (sect : Section) : Prop where
  romAddr : sect.romAddr = run.first.romAddr
  ramAddr : sect.ramAddr = run.first.ramAddr
  size : sect.size = run.last.romAddr + run.last.size - run.first.romAddr

/-- The output sections are at the places of the runs. -/
structure ModLayout (runs : List RomRun) (st : ModState) : Prop where
  index : st.outputSectionIndex = if runs = [] then none else some (runs.length - 1)
  romToRam : ∀ run, runs.getLast? = some run → st.romToRam = run.last.romToRam
  start : runs = [] → st.romToRam = 0xFFFFFFFF
  length : st.out.sections.length = max 1 runs.length
  sections : ∀ (o : Nat) run, runs[o]? = some run →
    ∃ sect, st.out.sections[o]? = some sect ∧ run.IsAt sect
  members : ∀ (o : Nat) run, runs[o]? = some run → ∀ s ∈ run.members, st.sectionMap s = some o
  mapped : ∀ s o, st.sectionMap s = some o → o < runs.length

section Layout

variable {runs : List RomRun} {st st' : ModState} {cur : Section} {s o : Nat}

theorem modLayout_start (input : Context) : ModLayout [] (ModState.start input) where
  index := rfl
  romToRam run h := by cases h
  start _ := rfl
  length := rfl
  sections o run h := by cases h
  members o run h := by cases h
  mapped s o h := by cases h

/-- What the placing of a section leaves as it is. -/
structure ModLayout.Step (st st' : ModState) (s : Nat) : Prop where
  map_ne : ∀ i ≠ s, st'.sectionMap i = st.sectionMap i
  relocs : ∀ (j : Nat) sect', st'.out.sections[j]? = some sect' →
    sect'.relocs = [] ∨ ∃ sect, st.out.sections[j]? = some sect ∧ sect'.relocs = sect.relocs
  grows : Grows 0 st.out st'.out
  functions : st'.out.functions = st.out.functions

/-- A section at the distance of the last run is merged into it. -/
theorem modLayout_merge (h : ModLayout runs st) (hnew : ∀ run ∈ runs, s ∉ run.members)
    {run : RomRun} (hrun : runs.getLast? = some run) (hlast : run.last.romToRam = cur.romToRam)
    (hrom : cur.isNoload = false) :
    ModLayout (addToRuns runs (cur, s)) { st with
      out := { st.out with
        sections := st.out.sections.modify (runs.length - 1) fun sect =>
          { sect with size := cur.romAddr + cur.size - sect.romAddr } }
      sectionMap := fun i => if i = s then some (runs.length - 1) else st.sectionMap i } ∧
    ∃ run, (addToRuns runs (cur, s))[runs.length - 1]? = some run ∧ s ∈ run.members := by
  have hruns : addToRuns runs (cur, s) = runs.modify (runs.length - 1) fun run =>
      { run with last := cur, members := run.members ++ [s] } := by
    unfold addToRuns
    rw [hrun, hrom]
    simp [hlast]
  have hat : runs[runs.length - 1]? = some run := by rw [← List.getLast?_eq_getElem?, hrun]
  have hlt := (List.getElem?_eq_some_iff.mp hat).1
  have hne : runs ≠ [] := fun hnil => by simp [hnil] at hlt
  rw [hruns]
  refine ⟨⟨?_, ?_, ?_, ?_, ?_, ?_, ?_⟩, ?_⟩
  · have hmodified : (runs.modify (runs.length - 1) fun run =>
        { run with last := cur, members := run.members ++ [s] }) ≠ [] := by
      intro hnil
      have hlength := congrArg List.length hnil
      rw [List.length_modify, List.length_nil] at hlength
      omega
    rw [if_neg hmodified, List.length_modify]
    exact h.index.trans (if_neg hne)
  · intro last hlast'
    rw [List.getLast?_eq_getElem?, List.length_modify, List.getElem?_modify_eq, hat] at hlast'
    obtain rfl := Option.some.inj hlast'
    exact (h.romToRam run hrun).trans hlast
  · intro hnil
    have hlength := congrArg List.length hnil
    rw [List.length_modify, List.length_nil] at hlength
    omega
  · rw [List.length_modify, List.length_modify]
    exact h.length
  · intro j run' hrun'
    rw [List.getElem?_modify] at hrun'
    obtain ⟨before, hbefore, rfl⟩ := Option.map_eq_some_iff.mp hrun'
    obtain ⟨sect, hsect, hplace⟩ := h.sections j before hbefore
    by_cases hj : runs.length - 1 = j
    · subst hj
      refine ⟨_, by rw [List.getElem?_modify_eq, hsect]; rfl, ?_⟩
      rw [if_pos rfl]
      exact ⟨hplace.romAddr, hplace.ramAddr, by rw [← hplace.romAddr]⟩
    · refine ⟨sect, by rw [List.getElem?_modify_ne _ _ hj, hsect], ?_⟩
      rw [if_neg hj]
      exact hplace
  · intro j run' hrun' i hi
    rw [List.getElem?_modify] at hrun'
    obtain ⟨before, hbefore, rfl⟩ := Option.map_eq_some_iff.mp hrun'
    have hold : i ∈ before.members → (if i = s then some (runs.length - 1) else st.sectionMap i) =
        some j := by
      intro hi
      have his : i ≠ s := fun heq => hnew before (List.mem_of_getElem? hbefore) (heq ▸ hi)
      rw [if_neg his]
      exact h.members j before hbefore i hi
    by_cases hj : runs.length - 1 = j
    · rw [if_pos hj] at hi
      rcases List.mem_append.mp hi with hi | hi
      · exact hold hi
      · rw [List.mem_singleton.mp hi]
        exact (if_pos rfl).trans (congrArg some hj)
    · rw [if_neg hj] at hi
      exact hold hi
  · intro i j hi
    rw [List.length_modify]
    dsimp only at hi
    split at hi
    · obtain rfl := Option.some.inj hi
      exact hlt
    · exact h.mapped i j hi
  · refine ⟨_, by rw [List.getElem?_modify_eq, hat]; rfl, ?_⟩
    exact List.mem_append_right _ (List.mem_singleton_self s)

/-- A section at another distance starts a run. -/
theorem modLayout_append (h : ModLayout runs st) (hnew : ∀ run ∈ runs, s ∉ run.members)
    (hother : ∀ run, runs.getLast? = some run → run.last.romToRam ≠ cur.romToRam)
    (hrom : cur.isNoload = false) :
    ModLayout (addToRuns runs (cur, s)) {
      out := { st.out with
        sections := (st.out.sections ++ List.replicate (runs.length + 1 - st.out.sections.length)
            Section.empty).modify runs.length fun sect =>
          { sect with romAddr := cur.romAddr, ramAddr := cur.ramAddr, size := cur.size }
        sectionFunctions := st.out.sectionFunctions ++ [[]] }
      romToRam := cur.romToRam
      outputSectionIndex := some runs.length
      sectionMap := fun i => if i = s then some runs.length else st.sectionMap i } ∧
    ∃ run, (addToRuns runs (cur, s))[runs.length]? = some run ∧ s ∈ run.members := by
  have hruns : addToRuns runs (cur, s) = runs ++ [⟨cur, cur, [s]⟩] := by
    unfold addToRuns
    rw [hrom]
    cases hlast : runs.getLast? with
    | none => rfl
    | some run => simp [hother run hlast]
  have hlength := h.length
  have hsections : (st.out.sections ++ List.replicate
      (runs.length + 1 - st.out.sections.length) Section.empty).length = runs.length + 1 := by
    rw [List.length_append, List.length_replicate]
    omega
  rw [hruns]
  refine ⟨⟨?_, ?_, ?_, ?_, ?_, ?_, ?_⟩, ?_⟩
  · simp
  · intro last hlast
    rw [List.getLast?_concat] at hlast
    obtain rfl := Option.some.inj hlast
    rfl
  · intro hnil
    simp at hnil
  · rw [List.length_modify, hsections, List.length_append, List.length_singleton]
    omega
  · intro j run' hrun'
    rcases Nat.lt_or_ge j runs.length with hj | hj
    · rw [List.getElem?_append_left hj] at hrun'
      obtain ⟨sect, hsect, hplace⟩ := h.sections j run' hrun'
      refine ⟨sect, ?_, hplace⟩
      rw [List.getElem?_modify_ne _ _ (by omega),
        List.getElem?_append_left (List.getElem?_eq_some_iff.mp hsect).1, hsect]
    · rw [List.getElem?_append_right hj] at hrun'
      have hzero : j = runs.length := by
        have := (List.getElem?_eq_some_iff.mp hrun').1
        rw [List.length_singleton] at this
        omega
      subst hzero
      rw [Nat.sub_self] at hrun'
      obtain rfl := Option.some.inj hrun'
      obtain ⟨before, hbefore⟩ : ∃ before, (st.out.sections ++ List.replicate
          (runs.length + 1 - st.out.sections.length) Section.empty)[runs.length]? = some before :=
        ⟨_, List.getElem?_eq_getElem (by omega)⟩
      refine ⟨{ before with romAddr := cur.romAddr, ramAddr := cur.ramAddr, size := cur.size },
        by rw [List.getElem?_modify_eq, hbefore]; rfl, rfl, rfl, ?_⟩
      dsimp only
      bv_omega
  · intro j run' hrun' i hi
    rcases Nat.lt_or_ge j runs.length with hj | hj
    · rw [List.getElem?_append_left hj] at hrun'
      have his : i ≠ s := fun heq => hnew run' (List.mem_of_getElem? hrun') (heq ▸ hi)
      dsimp only
      rw [if_neg his]
      exact h.members j run' hrun' i hi
    · rw [List.getElem?_append_right hj] at hrun'
      have hlt := (List.getElem?_eq_some_iff.mp hrun').1
      rw [List.length_singleton] at hlt
      have hzero : j = runs.length := by omega
      subst hzero
      rw [Nat.sub_self] at hrun'
      obtain rfl := Option.some.inj hrun'
      dsimp only
      rw [if_pos (List.mem_singleton.mp hi)]
  · intro i j hi
    rw [List.length_append, List.length_singleton]
    dsimp only at hi
    split at hi
    · obtain rfl := Option.some.inj hi
      exact Nat.lt_succ_self _
    · exact (h.mapped i j hi).trans (Nat.lt_succ_self _)
  · exact ⟨_, List.getElem?_concat_length, List.mem_singleton_self s⟩

/-- **A section of the ROM is placed** in the last run, or in a run of its own. -/
theorem modLayout_placeSection (h : ModLayout runs st) (hrom : cur.isNoload = false)
    (hnew : ∀ run ∈ runs, s ∉ run.members) (hplace : st.placeSection s cur = .ok (o, st')) :
    ModLayout (addToRuns runs (cur, s)) st' ∧ ModLayout.Step st st' s ∧
      st'.sectionMap s = some o ∧
      (runs = [] → cur.romToRam ≠ 0xFFFFFFFF) ∧
      ∃ run, (addToRuns runs (cur, s))[o]? = some run ∧ s ∈ run.members := by
  unfold ModState.placeSection at hplace
  by_cases hsame : st.romToRam = cur.romToRam
  · rw [if_pos hsame] at hplace
    obtain ⟨o', ho, hplace⟩ := Except.bind_eq_ok_iff.mp hplace
    rw [inBounds_eq_ok_iff, h.index] at ho
    split at ho
    · cases ho
    rename_i hne
    obtain rfl := Option.some.inj ho
    obtain ⟨rfl, rfl⟩ := Prod.mk.inj (Except.ok.inj hplace)
    have hrun : ∃ run, runs.getLast? = some run := ⟨_, List.getLast?_eq_some_getLast hne⟩
    obtain ⟨run, hrun⟩ := hrun
    obtain ⟨hlayout, hmember⟩ := modLayout_merge h hnew hrun
      ((h.romToRam run hrun).symm.trans hsame) hrom
    refine ⟨hlayout, ⟨fun i hi => if_neg hi, fun j sect' hsect' => Or.inr ?_,
      .of_eq rfl rfl rfl rfl rfl rfl, rfl⟩, if_pos rfl, fun hnil => absurd hnil hne, hmember⟩
    dsimp only at hsect'
    rw [List.getElem?_modify] at hsect'
    obtain ⟨sect, hsect, rfl⟩ := Option.map_eq_some_iff.mp hsect'
    refine ⟨sect, hsect, ?_⟩
    split <;> rfl
  · rw [if_neg hsame] at hplace
    have hindex : st.nextIndex = runs.length := by
      unfold ModState.nextIndex
      rw [h.index]
      by_cases hnil : runs = []
      · rw [if_pos hnil, hnil]
        rfl
      · rw [if_neg hnil]
        have := List.length_pos_iff.mpr hnil
        dsimp only
        omega
    dsimp only at hplace
    rw [hindex] at hplace
    obtain ⟨rfl, rfl⟩ := Prod.mk.inj (Except.ok.inj hplace)
    obtain ⟨hlayout, hmember⟩ := modLayout_append h hnew
      (fun run hrun hlast => hsame ((h.romToRam run hrun).trans hlast)) hrom
    refine ⟨hlayout, ⟨fun i hi => if_neg hi, fun j sect' hsect' => ?_,
      .of_eq rfl rfl rfl rfl rfl rfl, rfl⟩, if_pos rfl,
      fun hnil heq => hsame ((h.start hnil).trans heq.symm), hmember⟩
    dsimp only at hsect'
    rw [List.getElem?_modify] at hsect'
    obtain ⟨sect, hsect, rfl⟩ := Option.map_eq_some_iff.mp hsect'
    have hrelocs : (if runs.length = j then { sect with
        romAddr := cur.romAddr, ramAddr := cur.ramAddr, size := cur.size } else sect).relocs =
        sect.relocs := by split <;> rfl
    rcases Nat.lt_or_ge j st.out.sections.length with hj | hj
    · rw [List.getElem?_append_left hj] at hsect
      exact Or.inr ⟨sect, hsect, hrelocs⟩
    · rw [List.getElem?_append_right hj] at hsect
      refine Or.inl (hrelocs.trans ?_)
      rw [(List.mem_replicate.mp (List.mem_of_getElem? hsect)).2]
      rfl

/-- A section that is not in the ROM is mapped to the last run, or to none. -/
theorem modLayout_placeNoload (h : ModLayout runs st) (hnew : ∀ run ∈ runs, s ∉ run.members) :
    ModLayout runs (st.placeNoload s cur) ∧ ModLayout.Step st (st.placeNoload s cur) s := by
  have hsame : ModLayout.Step st st s :=
    ⟨fun _ _ => rfl, fun j sect hsect => Or.inr ⟨sect, hsect, rfl⟩, Grows.refl _, rfl⟩
  unfold ModState.placeNoload
  cases hindex : st.outputSectionIndex with
  | none => exact ⟨h, hsame⟩
  | some o =>
    have hlast := h.index
    rw [hindex] at hlast
    split at hlast
    · cases hlast
    rename_i hne
    obtain rfl := Option.some.inj hlast
    have hlength := List.length_pos_iff.mpr hne
    dsimp only
    split_ifs with hbehind
    swap
    · exact ⟨h, hsame⟩
    refine ⟨⟨?_, h.romToRam, h.start, ?_, ?_, ?_, ?_⟩,
      ⟨fun i hi => if_neg hi, ?_, .of_eq rfl rfl rfl rfl rfl rfl, rfl⟩⟩
    · rw [if_neg hne, ← hindex]
    · rw [List.length_modify]
      exact h.length
    · intro j run hrun
      obtain ⟨sect, hsect, hplace⟩ := h.sections j run hrun
      refine ⟨_, by rw [List.getElem?_modify, hsect]; rfl, ?_⟩
      split <;> exact ⟨hplace.romAddr, hplace.ramAddr, hplace.size⟩
    · intro j run hrun i hi
      have his : i ≠ s := fun heq => hnew run (List.mem_of_getElem? hrun) (heq ▸ hi)
      dsimp only
      rw [if_neg his]
      exact h.members j run hrun i hi
    · intro i j hi
      dsimp only at hi
      split at hi
      · obtain rfl := Option.some.inj hi
        omega
      · exact h.mapped i j hi
    · intro j sect' hsect'
      dsimp only at hsect'
      rw [List.getElem?_modify] at hsect'
      obtain ⟨sect, hsect, rfl⟩ := Option.map_eq_some_iff.mp hsect'
      refine Or.inr ⟨sect, hsect, ?_⟩
      split <;> rfl

end Layout

/-! ## The runs of the sections -/

section Runs

variable {visited : List (Section × Nat)} {runs : List RomRun} {p : Section × Nat}

/-- A run keeps its place, and its members. -/
theorem getElem?_addToRuns {o : Nat} {run : RomRun} (h : runs[o]? = some run) :
    ∃ run', (addToRuns runs p)[o]? = some run' ∧ ∀ s ∈ run.members, s ∈ run'.members := by
  unfold addToRuns
  split_ifs with hnoload hsame
  · exact ⟨run, h, fun _ => id⟩
  · refine ⟨_, by rw [List.getElem?_modify, h]; rfl, fun s hs => ?_⟩
    split
    · exact List.mem_append_left _ hs
    · exact hs
  · refine ⟨run, ?_, fun _ => id⟩
    rw [List.getElem?_append_left (List.getElem?_eq_some_iff.mp h).1, h]

/-- The members of a run are those it had, and the section that joins it. -/
theorem mem_members_addToRuns {run : RomRun} (h : run ∈ addToRuns runs p) {s : Nat}
    (hs : s ∈ run.members) :
    (∃ run ∈ runs, s ∈ run.members) ∨ (s = p.2 ∧ p.1.isNoload = false) := by
  unfold addToRuns at h
  split_ifs at h with hnoload hsame
  · exact Or.inl ⟨run, h, hs⟩
  · rw [Bool.not_eq_true] at hnoload
    obtain ⟨o, ho⟩ := List.mem_iff_getElem?.mp h
    rw [List.getElem?_modify] at ho
    obtain ⟨before, hbefore, rfl⟩ := Option.map_eq_some_iff.mp ho
    split at hs
    · rcases List.mem_append.mp hs with hs | hs
      · exact Or.inl ⟨before, List.mem_of_getElem? hbefore, hs⟩
      · exact Or.inr ⟨List.mem_singleton.mp hs, hnoload⟩
    · exact Or.inl ⟨before, List.mem_of_getElem? hbefore, hs⟩
  · rw [Bool.not_eq_true] at hnoload
    rcases List.mem_append.mp h with h | h
    · exact Or.inl ⟨run, h, hs⟩
    · obtain rfl := List.mem_singleton.mp h
      exact Or.inr ⟨List.mem_singleton.mp hs, hnoload⟩

theorem length_addToRuns : runs.length ≤ (addToRuns runs p).length ∧
    (addToRuns runs p).length ≤ runs.length + 1 := by
  unfold addToRuns
  split_ifs
  · omega
  · rw [List.length_modify]
    omega
  · rw [List.length_append, List.length_singleton]
    omega

/-- The members of the runs are sections of the ROM. -/
theorem mem_of_mem_members {run : RomRun} (h : run ∈ visited.foldl addToRuns []) {s : Nat}
    (hs : s ∈ run.members) : ∃ p ∈ visited, p.2 = s ∧ p.1.isNoload = false := by
  induction visited using List.reverseRecOn generalizing run with
  | nil => cases h
  | append_singleton visited p ih =>
    rw [List.foldl_concat] at h
    rcases mem_members_addToRuns h hs with ⟨run', hrun', hs'⟩ | ⟨rfl, hrom⟩
    · obtain ⟨q, hq, heq, hrom⟩ := ih hrun' hs'
      exact ⟨q, List.mem_append_left _ hq, heq, hrom⟩
    · exact ⟨p, by simp, rfl, hrom⟩

theorem length_runs_le : (visited.foldl addToRuns []).length ≤ visited.length := by
  induction visited using List.reverseRecOn with
  | nil => rfl
  | append_singleton visited p ih =>
    rw [List.foldl_concat, List.length_append, List.length_singleton]
    exact length_addToRuns.2.trans (Nat.succ_le_succ ih)

theorem addToRuns_nil (hrom : p.1.isNoload = false) : addToRuns [] p = [⟨p.1, p.1, [p.2]⟩] := by
  unfold addToRuns
  rw [hrom]
  rfl

/-- There is a run once there is a section of the ROM. -/
theorem runs_eq_nil_iff : visited.foldl addToRuns [] = [] ↔ ∀ p ∈ visited, p.1.isNoload = true := by
  induction visited using List.reverseRecOn with
  | nil => simp
  | append_singleton visited p ih =>
    rw [List.foldl_concat]
    have hlength : _ ≤ (addToRuns (visited.foldl addToRuns []) p).length ∧ _ := length_addToRuns
    constructor
    · intro hnil
      rw [hnil] at hlength
      have hbefore := List.length_eq_zero_iff.mp (Nat.le_zero.mp hlength.1)
      intro q hq
      rcases List.mem_append.mp hq with hq | hq
      · exact ih.mp hbefore q hq
      · obtain rfl := List.mem_singleton.mp hq
        by_contra hrom
        rw [hbefore, addToRuns_nil (by simpa using hrom)] at hnil
        cases hnil
    · intro hall
      rw [ih.mpr fun q hq => hall q (List.mem_append_left _ hq)]
      unfold addToRuns
      rw [if_pos (hall p (by simp))]

end Runs

end N64Recomp
