import N64Recomp.Decompressed.FragmentSection

/-!
# Return addresses of calls

The pass over the return addresses makes each of them an entry of the function that it is in. It
leaves out those that are starts of functions, which can have their entry elsewhere, and it runs
before the forced functions are added.

## Main definitions

* `FragmentScan.IsReturn`: the return addresses of the calls in a range
* `FragmentScan.ReturnsResume`: whether the code can be resumed at each of them
* `ForcedRange`, `ForcedAt`: the functions that forced addresses become, and their labels
* `CodeFragment.ReturnsFit`: no return address is left out

## Main results

* `CodeFragment.returnsResume_iff`: when the code of a fragment can be resumed behind every call
* `forced_call_does_not_resume`: a forced function with a call
-/

namespace N64Recomp

open Compression Except Rounds

namespace FragmentScan

variable (s : FragmentScan)

/-! ### Return addresses -/

/-- The return address of a call in a range, when it is in the range. -/
def IsReturn (range : BitVec 32 × BitVec 32) (offset : BitVec 32) : Prop :=
  ∃ call : BitVec 32, call.toNat % 4 = 0 ∧ range.1.toNat ≤ call.toNat ∧
    s.linksAt call = .ok true ∧ offset.toNat = call.toNat + 8 ∧ offset.toNat < range.2.toNat

/-- A function of the section has its entry at an offset. -/
def IsEntry (sect : BlobSection) (offset : BitVec 32) : Prop :=
  ∃ fn ∈ sect.context.functions, fn.sectionIndex = s.sectionIndex ∧
    fn.entryVram = s.vram + offset

/-- The function at a start has a dispatch entry at an offset. -/
def IsLabel (sect : BlobSection) (start offset : BitVec 32) : Prop :=
  ∃ i fn, sect.functionIndexByOffset start = some i ∧ sect.context.functions[i]? = some fn ∧
    s.vram + offset ∈ fn.dispatchEntryVrams

/-- The function at a start can be resumed at an offset: it has a label there, or there is a function. -/
def Resumes (sect : BlobSection) (start offset : BitVec 32) : Prop :=
  s.IsLabel sect start offset ∨ s.IsEntry sect offset

/-- **The code can be resumed behind every call** of every range. -/
def ReturnsResume (pass : FragmentPass) : Prop :=
  ∀ range ∈ pass.emittedRanges, ∀ offset, s.IsReturn range offset →
    s.Resumes pass.toBlobSection range.1 offset

/-! ### Forced functions -/

/-- The range around an offset. -/
def Encloses (range : BitVec 32 × BitVec 32) (offset : BitVec 32) : Prop :=
  range.1 < offset ∧ offset < range.2

instance (range : BitVec 32 × BitVec 32) (offset : BitVec 32) : Decidable (Encloses range offset) :=
  inferInstanceAs (Decidable (_ ∧ _))

/-- An offset is a word of the body that is neither an entry nor an alias. -/
structure Uncovered (pass : FragmentPass) (offset : BitVec 32) : Prop where
  word : s.IsWordOffset offset
  ne : offset ≠ 0
  fresh : offset ∉ pass.emittedOffsets
  unaliased : offset ∉ pass.emittedAliasOffsets

/-- **A forced address becomes a function of its own**, of a range: it is not covered, no range is
around it, and its bounds are found. -/
structure ForcedRange (pass : FragmentPass) (forcedVram : BitVec 32)
    (range : BitVec 32 × BitVec 32) : Prop where
  above : s.vram ≤ forcedVram
  start : range.1 = forcedVram - s.vram
  uncovered : s.Uncovered pass range.1
  outside : ∀ earlier ∈ pass.emittedRanges, ¬Encloses earlier range.1
  found : ∃ funcSize, s.discover range.1 = .ok (.found funcSize) ∧ funcSize ≠ 0 ∧
    funcSize % 4 = 0 ∧ range.1.toNat + funcSize ≤ s.relocOffset.toNat ∧
    range.2 = BitVec.ofNat 32 (range.1.toNat + funcSize)

/-- A later forced address gives an offset a label: it is not covered. -/
structure ForcedAt (pass : FragmentPass) (later : List (BitVec 32)) (offset : BitVec 32) : Prop where
  fresh : offset ∉ pass.emittedOffsets
  unaliased : offset ∉ pass.emittedAliasOffsets
  forced : s.vram + offset ∈ later

/-- **The calls of the forced functions fit**: each return address in one of them is the entry of a
function, or is forced later on, with no earlier range around it. -/
def ForcedFit (pass : FragmentPass) (forced : List (BitVec 32)) : Prop :=
  ∀ visited forcedVram later mid, forced = visited ++ forcedVram :: later →
    visited.foldlM s.addForced pass = .ok mid → ∀ range, s.ForcedRange mid forcedVram range →
    ∀ offset, s.IsReturn range offset → s.IsEntry mid.toBlobSection offset ∨
      (s.ForcedAt mid later offset ∧ ∀ earlier ∈ mid.emittedRanges, ¬Encloses earlier offset)

/-- The functions of a fragment in front of the labels. -/
def addLoops (context : Context) (aliases : AliasTable) (sectionName : Str)
    (extraEntryOffsets : List (BitVec 32)) : Except Stop FragmentPass := do
  let words := s.relocOffset.toNat / 4
  let pass ← s.seed context aliases sectionName extraEntryOffsets
  let pass ← whenDone (loop s.gapRound (words + 1) pass)
  whenDone (loop s.continuationRound (2 * words + 1) pass)

/-- **No return address is left out**: one that is the start of a function can be resumed, and the
calls of the forced functions fit. -/
structure ReturnsFit (context : Context) (aliases : AliasTable) (sectionName : Str)
    (extraEntryOffsets forcedFunctionVrams : List (BitVec 32)) : Prop where
  starts : ∀ pass, s.addLoops context aliases sectionName extraEntryOffsets = .ok pass →
    ∀ range ∈ pass.emittedRanges, ∀ offset, s.IsReturn range offset →
      offset ∈ pass.emittedOffsets → s.Resumes pass.toBlobSection range.1 offset
  forced : ∀ pass labelled, s.addLoops context aliases sectionName extraEntryOffsets = .ok pass →
    s.labelReturns pass = .ok labelled → s.ForcedFit labelled forcedFunctionVrams

/-! ### Labels -/

section Labels

variable {s} {sect : BlobSection} {start offset o : BitVec 32}

theorem vram_add_inj : s.vram + offset = s.vram + o ↔ offset = o := BitVec.add_right_inj _

/-- The section with a dispatch entry of a function. -/
abbrev withEntry (sect : BlobSection) (parent : Nat) (entryVram : BitVec 32) : BlobSection :=
  { sect with context := { sect.context with
    functions := sect.context.functions.modify parent (·.insertDispatchEntry entryVram) } }

theorem isEntry_withEntry (parent : Nat) (entryVram : BitVec 32) :
    s.IsEntry (withEntry sect parent entryVram) offset ↔ s.IsEntry sect offset := by
  unfold IsEntry
  simp only [List.mem_iff_getElem?, List.getElem?_modify]
  constructor
  · rintro ⟨fn, ⟨i, hi⟩, hindex, hentry⟩
    obtain ⟨old, hold, rfl⟩ := Option.map_eq_some_iff.mp hi
    refine ⟨old, ⟨i, hold⟩, ?_⟩
    split_ifs at hindex hentry <;> exact ⟨hindex, hentry⟩
  · rintro ⟨fn, ⟨i, hi⟩, hindex, hentry⟩
    refine ⟨_, ⟨i, by rw [hi]; rfl⟩, ?_⟩
    split_ifs <;> exact ⟨hindex, hentry⟩

/-- **A dispatch entry is a label of its function**, and of no other. -/
theorem isLabel_withEntry {parent : Nat} (hparent : parent < sect.context.functions.length) :
    s.IsLabel (withEntry sect parent (s.vram + o)) start offset ↔
      s.IsLabel sect start offset ∨ (sect.functionIndexByOffset start = some parent ∧ offset = o) := by
  unfold IsLabel
  simp only [List.getElem?_modify]
  constructor
  · rintro ⟨i, fn, hname, hfn, hmem⟩
    obtain ⟨old, hold, rfl⟩ := Option.map_eq_some_iff.mp hfn
    by_cases hi : parent = i
    · rw [if_pos hi] at hmem
      rcases SortedSet.mem_insertInto.mp hmem with heq | hmem
      · exact .inr ⟨hi ▸ hname, vram_add_inj.mp heq⟩
      · exact .inl ⟨i, old, hname, hold, hmem⟩
    · rw [if_neg hi] at hmem
      exact .inl ⟨i, old, hname, hold, hmem⟩
  · rintro (⟨i, fn, hname, hfn, hmem⟩ | ⟨hname, rfl⟩)
    · refine ⟨i, _, hname, by rw [hfn]; rfl, ?_⟩
      split_ifs
      · exact SortedSet.mem_insertInto.mpr (.inr hmem)
      · exact hmem
    · refine ⟨parent, _, hname, by rw [List.getElem?_eq_getElem hparent]; rfl, ?_⟩
      dsimp only
      rw [if_pos rfl]
      exact SortedSet.mem_insertInto.mpr (.inl rfl)

theorem resumes_withEntry {parent : Nat} (hparent : parent < sect.context.functions.length) :
    s.Resumes (withEntry sect parent (s.vram + o)) start offset ↔
      s.Resumes sect start offset ∨ (sect.functionIndexByOffset start = some parent ∧ offset = o) := by
  unfold Resumes
  rw [isLabel_withEntry hparent, isEntry_withEntry]
  exact or_right_comm

/-- An offset in a range is in the function of the range. -/
theorem inside_of_registers (hs : s.Sound) (h : sect.InBody s) {range : BitVec 32 × BitVec 32}
    (hrange : range ∈ sect.emittedRanges) {parent : Nat}
    (hname : sect.functionIndexByOffset range.1 = some parent)
    (hin : range.1.toNat < offset.toNat ∧ offset.toNat < range.2.toNat) :
    ∃ fn, sect.context.functions[parent]? = some fn ∧ ¬(s.vram + offset ≤ fn.vram ∨
      fn.vram + BitVec.ofNat 32 fn.byteSize ≤ s.vram + offset) := by
  obtain ⟨-, i, fn, hi, hfn, hvram, hbytes⟩ := h.registered range hrange
  obtain rfl : i = parent := Option.some.inj (hi.symm.trans hname)
  have hinside := (h.ranges range hrange).inside
  have hsmall := hs.small
  have hhigh := hs.vram.2
  refine ⟨fn, hfn, ?_⟩
  rw [hvram, h.vram, hbytes]
  rintro (hle | hle)
  · have hle : (s.vram + offset).toNat ≤ (s.vram + range.1).toNat := hle
    rw [BitVec.toNat_add, BitVec.toNat_add] at hle
    omega
  · have hle : (s.vram + range.1 + BitVec.ofNat 32 (range.2.toNat - range.1.toNat)).toNat ≤
        (s.vram + offset).toNat := hle
    rw [BitVec.toNat_add, BitVec.toNat_add, BitVec.toNat_add, BitVec.toNat_ofNat] at hle
    omega

/-- **The label of an offset in a range**: it is left out at a start or an entry. -/
theorem addDispatchLabelOnly_eq (hs : s.Sound) (h : sect.InBody s)
    {range : BitVec 32 × BitVec 32} (hrange : range ∈ sect.emittedRanges) {parent : Nat}
    (hname : sect.functionIndexByOffset range.1 = some parent)
    (hin : range.1.toNat < offset.toNat ∧ offset.toNat < range.2.toNat)
    (hmod : offset.toNat % 4 = 0) :
    sect.addDispatchLabelOnly parent offset =
      some (if offset ∈ sect.emittedOffsets then sect
        else withEntry sect parent (s.vram + offset)) := by
  obtain ⟨fn, hfn, hinside⟩ := inside_of_registers hs h hrange hname hin
  have hreloc : ¬sect.relocOffset ≤ offset := by
    have hle := (h.ranges range hrange).inside
    rw [h.relocOffset]
    change ¬s.relocOffset.toNat ≤ offset.toNat
    omega
  unfold BlobSection.addDispatchLabelOnly
  by_cases hemitted : offset ∈ sect.emittedOffsets
  · rw [if_pos (.inr (.inr hemitted)), if_pos hemitted]
  · rw [if_neg (by
      simp only [not_or]
      exact ⟨not_not.mpr (and_three_of_mod hmod), hreloc, hemitted⟩), if_neg hemitted, hfn]
    rw [← h.vram] at hinside ⊢
    dsimp only [Option.map]
    rw [if_neg hinside]

end Labels

/-! ### The pass over the return addresses -/

/-- A step that adds no start, no entry and no alias. -/
structure SameStarts (before after : FragmentPass) : Prop where
  offsets : after.emittedOffsets = before.emittedOffsets
  ranges : after.emittedRanges = before.emittedRanges
  aliasOffsets : after.emittedAliasOffsets = before.emittedAliasOffsets
  names : after.functionIndexByOffset = before.functionIndexByOffset

theorem SameStarts.refl (pass : FragmentPass) : SameStarts pass pass := ⟨rfl, rfl, rfl, rfl⟩

theorem SameStarts.trans {pass mid last : FragmentPass} (h : SameStarts pass mid)
    (h' : SameStarts mid last) : SameStarts pass last :=
  ⟨h'.offsets.trans h.offsets, h'.ranges.trans h.ranges, h'.aliasOffsets.trans h.aliasOffsets,
    h'.names.trans h.names⟩

section Pass

variable {s} {pass next : FragmentPass} {range : BitVec 32 × BitVec 32}
  {start offset call : BitVec 32}

/-- The call behind a return address is one that the pass reads. -/
theorem mem_offsetsTo_of_call (hs : s.Sound) (hrange : s.IsRange range)
    (hmod : call.toNat % 4 = 0) (hlow : range.1.toNat ≤ call.toNat)
    (hhigh : call.toNat + 8 ≤ range.2.toNat) : call ∈ offsetsTo 8 range.2 range.1 := by
  have hsmall := hs.small
  have hinside := hrange.inside
  have hstart := hrange.start
  have hwalk : ∀ fuel (o : BitVec 32), o.toNat % 4 = 0 → o.toNat ≤ call.toNat →
      call.toNat < o.toNat + 4 * fuel →
      call ∈ offsetsWhile (fun offset => offset + 8 ≤ range.2) fuel o := by
    intro fuel
    induction fuel with
    | zero => omega
    | succ fuel ih =>
      intro o ho hle hlt
      have hgoes : decide (o + 8 ≤ range.2) = true := by
        refine decide_eq_true ?_
        change (o + 8).toNat ≤ range.2.toNat
        rw [toNat_add_small (by omega) (by decide)]
        have height : (8 : BitVec 32).toNat = 8 := rfl
        omega
      unfold offsetsWhile
      rw [if_pos hgoes]
      rcases Nat.lt_or_ge o.toNat call.toNat with hlt' | hge
      · have hnext : (o + 4).toNat = o.toNat + 4 := toNat_add_four (by omega)
        exact List.mem_cons_of_mem _ (ih (o + 4) (by omega) (by omega) (by omega))
      · obtain rfl : call = o := BitVec.eq_of_toNat_eq (by omega)
        exact List.mem_cons_self
  exact hwalk _ _ hstart hlow (by omega)

/-- What the label of a call adds. -/
def Labelled (s : FragmentScan) (pass : FragmentPass) (rangeEnd call offset : BitVec 32) : Prop :=
  s.linksAt call = .ok true ∧ offset = call + 8 ∧ offset.toNat < rangeEnd.toNat ∧
    offset ∉ pass.emittedOffsets

/-- **The step over a call**: its return address becomes a label, unless it is a start or an entry. -/
theorem addReturnLabel_step (hs : s.Sound) (h : pass.InBody s) (hrange : range ∈ pass.emittedRanges)
    {parent : Nat} (hname : pass.functionIndexByOffset range.1 = some parent)
    (hcall : call ∈ offsetsTo 8 range.2 range.1)
    (hstep : s.addReturnLabel range.2 parent pass call = .ok next) :
    next.InBody s ∧ SameStarts pass next ∧ ∀ start offset,
      s.Resumes next.toBlobSection start offset ↔ s.Resumes pass.toBlobSection start offset ∨
        (pass.functionIndexByOffset start = some parent ∧ s.Labelled pass range.2 call offset) := by
  have hsmall := hs.small
  have hrange' := h.sect.ranges range hrange
  have hinside := hrange'.inside
  have hlt := hrange'.lt
  have hbounds := mem_offsetsTo (by decide) (by omega) (by omega) hcall
  have height : (8 : BitVec 32).toNat = 8 := rfl
  rw [height] at hbounds
  have hadd : (call + 8).toNat = call.toNat + 8 := toNat_add_small (by omega) (by decide)
  have hmod := mod_of_mem_offsetsWhile hrange'.start hcall
  obtain ⟨links, hlinks, hstep⟩ := bind_eq_ok_iff.mp hstep
  by_cases hcheck : !links ∨ range.2 ≤ call + 8
  · rw [if_pos hcheck] at hstep
    cases hstep
    refine ⟨h, SameStarts.refl _, fun start offset => ?_⟩
    refine (or_iff_left ?_).symm
    rintro ⟨-, htrue, rfl, hin, -⟩
    rw [hlinks] at htrue
    cases htrue
    rcases hcheck with hfalse | hle
    · exact absurd hfalse (by decide)
    · have hle : range.2.toNat ≤ (call + 8).toNat := hle
      omega
  · rw [if_neg hcheck] at hstep
    simp only [not_or, Bool.not_eq_true', Bool.not_eq_false] at hcheck
    obtain ⟨hlinked, hin⟩ := hcheck
    have hin : ¬range.2.toNat ≤ (call + 8).toNat := hin
    have hinner : range.1.toNat < (call + 8).toNat ∧ (call + 8).toNat < range.2.toNat := by omega
    rw [addDispatchLabelOnly_eq hs h.sect hrange hname hinner (by omega)] at hstep
    cases hstep
    split_ifs with hemitted
    · refine ⟨h, SameStarts.refl _, fun start offset => (or_iff_left ?_).symm⟩
      rintro ⟨-, -, rfl, -, hnew⟩
      exact hnew hemitted
    · obtain ⟨fn, hfn, -⟩ := inside_of_registers hs h.sect hrange hname hinner
      refine ⟨⟨h.sect.insertEntry parent _, h.aliasOffsets⟩, ⟨rfl, rfl, rfl, rfl⟩,
        fun start offset => ?_⟩
      rw [resumes_withEntry (List.getElem?_eq_some_iff.mp hfn).1]
      refine or_congr_right (and_congr_right fun _ => ?_)
      constructor
      · rintro rfl
        exact ⟨hlinked ▸ hlinks, rfl, by omega, hemitted⟩
      · exact fun h => h.2.1

/-- **The labels of a range**: those of its calls. -/
theorem addReturnLabels_step (hs : s.Sound) (h : pass.InBody s)
    (hrange : range ∈ pass.emittedRanges) (hstep : s.addReturnLabels pass range = .ok next) :
    next.InBody s ∧ SameStarts pass next ∧ ∀ start offset,
      s.Resumes next.toBlobSection start offset ↔ s.Resumes pass.toBlobSection start offset ∨
        (pass.functionIndexByOffset start = pass.functionIndexByOffset range.1 ∧
          s.IsReturn range offset ∧ offset ∉ pass.emittedOffsets) := by
  have hsmall := hs.small
  have hrange' := h.sect.ranges range hrange
  have hinside := hrange'.inside
  have hlt := hrange'.lt
  obtain ⟨-, parent, -, hname, -⟩ := h.sect.registered range hrange
  unfold addReturnLabels at hstep
  have hchecks : ¬(range.2 ≤ range.1 ∨ s.relocOffset < range.2) := by
    rintro (hle | hgt)
    · have hle : range.2.toNat ≤ range.1.toNat := hle
      omega
    · have hgt : s.relocOffset.toNat < range.2.toNat := hgt
      omega
  rw [if_neg hchecks, hname] at hstep
  -- the calls up to one of them
  have hrun : ∀ visited mid, mid.InBody s ∧ SameStarts pass mid ∧ (∀ start offset,
      s.Resumes mid.toBlobSection start offset ↔ s.Resumes pass.toBlobSection start offset ∨
        (pass.functionIndexByOffset start = some parent ∧
          ∃ call ∈ visited, s.Labelled pass range.2 call offset)) → ∀ call mid',
      call ∈ offsetsTo 8 range.2 range.1 →
      s.addReturnLabel range.2 parent mid call = .ok mid' →
      mid'.InBody s ∧ SameStarts pass mid' ∧ (∀ start offset,
        s.Resumes mid'.toBlobSection start offset ↔ s.Resumes pass.toBlobSection start offset ∨
          (pass.functionIndexByOffset start = some parent ∧
            ∃ call' ∈ visited ++ [call], s.Labelled pass range.2 call' offset)) := by
    rintro visited mid ⟨hmid, hsame, hresumes⟩ call mid' hcall hadd
    obtain ⟨hmid', hsame', hresumes'⟩ := addReturnLabel_step hs hmid (hsame.ranges ▸ hrange)
      (hsame.names ▸ hname) hcall hadd
    refine ⟨hmid', hsame.trans hsame', fun start offset => ?_⟩
    rw [hresumes', hresumes, hsame.names]
    unfold Labelled
    rw [hsame.offsets]
    simp only [List.mem_append, List.mem_singleton, or_and_right, exists_or, exists_eq_left,
      and_or_left, or_assoc]
  have hfold := foldlM_ok_induction (P := fun visited mid => mid.InBody s ∧ SameStarts pass mid ∧
      ∀ start offset, s.Resumes mid.toBlobSection start offset ↔
        s.Resumes pass.toBlobSection start offset ∨
          (pass.functionIndexByOffset start = some parent ∧
            ∃ call ∈ visited, s.Labelled pass range.2 call offset))
    ⟨h, SameStarts.refl _, fun start offset => (or_iff_left (by rintro ⟨-, _, hmem, -⟩; cases hmem)).symm⟩
    (fun visited call mid mid' hmid hcall hadd => hrun visited mid hmid call mid' hcall hadd) hstep
  obtain ⟨hnext, hsame, hresumes⟩ := hfold
  refine ⟨hnext, hsame, fun start offset => ?_⟩
  rw [hresumes, hname]
  refine or_congr_right (and_congr_right fun _ => ?_)
  constructor
  · rintro ⟨call, hcall, hlinks, rfl, hin, hnew⟩
    have hbounds := mem_offsetsTo (by decide) (by omega) (by omega) hcall
    have height : (8 : BitVec 32).toNat = 8 := rfl
    rw [height] at hbounds
    exact ⟨⟨call, mod_of_mem_offsetsWhile hrange'.start hcall, hbounds.1, hlinks,
      toNat_add_small (by omega) (by decide), hin⟩, hnew⟩
  · rintro ⟨⟨call, hmod, hlow, hlinks, hoffset, hin⟩, hnew⟩
    have height : (8 : BitVec 32).toNat = 8 := rfl
    have heq : offset = call + 8 := BitVec.eq_of_toNat_eq (by
      rw [hoffset, toNat_add_small (by omega) (by decide), height])
    exact ⟨call, mem_offsetsTo_of_call hs hrange' hmod hlow (by omega), hlinks, heq, hin, hnew⟩

/-- **The pass over the return addresses** makes labels of those that are no start and no entry. -/
theorem labelReturns_step (hs : s.Sound) (h : pass.InBody s) (hstep : s.labelReturns pass = .ok next) :
    next.InBody s ∧ SameStarts pass next ∧ ∀ range ∈ pass.emittedRanges, ∀ offset,
      s.IsReturn range offset →
      (s.Resumes next.toBlobSection range.1 offset ↔
        s.Resumes pass.toBlobSection range.1 offset ∨ offset ∉ pass.emittedOffsets) := by
  have hfold := foldlM_ok_induction (P := fun visited mid => mid.InBody s ∧ SameStarts pass mid ∧
      ∀ start offset, s.Resumes mid.toBlobSection start offset ↔
        s.Resumes pass.toBlobSection start offset ∨ ∃ range ∈ visited,
          pass.functionIndexByOffset start = pass.functionIndexByOffset range.1 ∧
          s.IsReturn range offset ∧ offset ∉ pass.emittedOffsets)
    ⟨h, SameStarts.refl _, fun start offset => (or_iff_left (by rintro ⟨_, hmem, -⟩; cases hmem)).symm⟩
    (by
      rintro visited range mid mid' ⟨hmid, hsame, hresumes⟩ hrange hadd
      obtain ⟨hmid', hsame', hresumes'⟩ := addReturnLabels_step hs hmid
        (hsame.ranges ▸ mem_sortedRanges.mp hrange) hadd
      refine ⟨hmid', hsame.trans hsame', fun start offset => ?_⟩
      rw [hresumes', hresumes, hsame.names, hsame.offsets]
      simp only [List.mem_append, List.mem_singleton, or_and_right, exists_or, exists_eq_left,
        or_assoc]) hstep
  obtain ⟨hnext, hsame, hresumes⟩ := hfold
  refine ⟨hnext, hsame, fun range hrange offset hreturn => ?_⟩
  rw [hresumes]
  refine or_congr_right ⟨fun ⟨_, _, _, _, hnew⟩ => hnew, fun hnew => ?_⟩
  exact ⟨range, mem_sortedRanges.mpr hrange, rfl, hreturn, hnew⟩

end Pass

/-! ### Forced functions -/

section Forced

variable {s} {pass next : FragmentPass} {forcedVram : BitVec 32} {range : BitVec 32 × BitVec 32}

/-- **The step over a forced address.** -/
inductive ForcedStep (s : FragmentScan) (pass : FragmentPass) (forcedVram : BitVec 32) :
    FragmentPass → Prop
  | covered (h : s.vram ≤ forcedVram → ¬s.Uncovered pass (forcedVram - s.vram)) :
    ForcedStep s pass forcedVram pass
  | inside (range : BitVec 32 × BitVec 32) (parent : Nat) (aliases : AliasTable)
    (hle : s.vram ≤ forcedVram) (h : s.Uncovered pass (forcedVram - s.vram))
    (hfind : pass.emittedRanges.find? (fun r => Encloses r (forcedVram - s.vram)) = some range)
    (hname : pass.functionIndexByOffset range.1 = some parent)
    (hlt : parent < pass.context.functions.length) :
    ForcedStep s pass forcedVram
      { withEntry pass.toBlobSection parent forcedVram with
        aliases
        emittedAliasOffsets := (forcedVram - s.vram) :: pass.emittedAliasOffsets }
  | refused (h : ∀ r ∈ pass.emittedRanges, ¬Encloses r (forcedVram - s.vram))
    (hnone : ∀ range, ¬s.ForcedRange pass forcedVram range) : ForcedStep s pass forcedVram pass
  | added (range : BitVec 32 × BitVec 32) (words : List (BitVec 32)) (funcEnd : Nat)
    (h : s.ForcedRange pass forcedVram range) (hend : range.2 = BitVec.ofNat 32 funcEnd) :
    ForcedStep s pass forcedVram
      { pass with toBlobSection := pass.addDiscovered range.1 words funcEnd }

/-- The check of a forced address. -/
theorem uncovered_iff (hs : s.Sound) :
    ¬(forcedVram < s.vram ∨ forcedVram - s.vram = 0 ∨ (forcedVram - s.vram) &&& 3 ≠ 0 ∨
        s.relocOffset < forcedVram - s.vram + 4 ∨ forcedVram - s.vram ∈ pass.emittedOffsets ∨
        forcedVram - s.vram ∈ pass.emittedAliasOffsets) ↔
      s.vram ≤ forcedVram ∧ s.Uncovered pass (forcedVram - s.vram) := by
  have hsmall := hs.small
  have hvram := hs.vram.1
  have hlt := forcedVram.isLt
  simp only [not_or, not_not]
  constructor
  · rintro ⟨hle, hzero, hmod, hend, hnew, halias⟩
    have hle : s.vram ≤ forcedVram := Nat.not_lt.mp hle
    have hoffset : (forcedVram - s.vram).toNat < 2 ^ 31 := by
      have hle : s.vram.toNat ≤ forcedVram.toNat := hle
      rw [BitVec.toNat_sub_of_le hle]
      omega
    have hword : (forcedVram - s.vram).toNat + 4 ≤ s.relocOffset.toNat :=
      word_le_of_not_lt (by decide) hoffset hend
    exact ⟨hle, ⟨mod_of_and_three hmod, hword⟩, hzero, hnew, halias⟩
  · rintro ⟨hle, ⟨hmod, hword⟩, hzero, hnew, halias⟩
    refine ⟨Nat.not_lt.mpr hle, hzero, and_three_of_mod hmod, ?_, hnew, halias⟩
    change ¬s.relocOffset.toNat < (forcedVram - s.vram + 4).toNat
    rw [toNat_add_four (by omega)]
    omega

theorem vram_add_sub (s : FragmentScan) (forcedVram : BitVec 32) :
    s.vram + (forcedVram - s.vram) = forcedVram := by
  rw [BitVec.add_comm, BitVec.sub_add_cancel]

/-- **The alias of an offset in a range**, when it is not covered. -/
theorem addDispatchAlias_eq (hs : s.Sound) (h : pass.InBody s) {offset : BitVec 32}
    (hoffset : s.Uncovered pass offset) (hrange : range ∈ pass.emittedRanges) {parent : Nat}
    (hname : pass.functionIndexByOffset range.1 = some parent) (hin : Encloses range offset) :
    ∃ aliases, pass.toBlobSection.addDispatchAlias pass.aliases pass.emittedAliasOffsets parent
      offset = some (withEntry pass.toBlobSection parent (s.vram + offset), aliases,
        offset :: pass.emittedAliasOffsets, true) := by
  obtain ⟨fn, hfn, hinside⟩ := inside_of_registers hs h.sect hrange hname hin
  obtain ⟨hmod, hword⟩ := hoffset.word
  have hreloc : ¬pass.relocOffset ≤ offset := by
    rw [h.sect.relocOffset]
    change ¬s.relocOffset.toNat ≤ offset.toNat
    omega
  unfold BlobSection.addDispatchAlias
  rw [if_neg (by
    simp only [not_or]
    exact ⟨not_not.mpr (and_three_of_mod hmod), hreloc, hoffset.fresh, hoffset.unaliased⟩), hfn]
  rw [← h.sect.vram] at hinside ⊢
  simp only [Option.bind_eq_bind, Option.bind_some, if_neg hinside]
  exact ⟨_, rfl⟩

/-- The first range around an offset. -/
theorem enclosing_eq (pass : FragmentPass) (offset : BitVec 32) :
    enclosing pass offset = (pass.emittedRanges.find? fun r => Encloses r offset).bind
      fun r => pass.functionIndexByOffset r.1 := rfl

theorem addForced_step (hs : s.Sound) (h : pass.InBody s)
    (hadd : s.addForced pass forcedVram = .ok next) : s.ForcedStep pass forcedVram next := by
  unfold addForced at hadd
  dsimp only at hadd
  by_cases hcheck : forcedVram < s.vram ∨ forcedVram - s.vram = 0 ∨
      (forcedVram - s.vram) &&& 3 ≠ 0 ∨ s.relocOffset < forcedVram - s.vram + 4 ∨
      forcedVram - s.vram ∈ pass.emittedOffsets ∨
      forcedVram - s.vram ∈ pass.emittedAliasOffsets
  · rw [if_pos hcheck] at hadd
    cases hadd
    exact .covered fun hle hun => (uncovered_iff hs).mpr ⟨hle, hun⟩ hcheck
  rw [if_neg hcheck] at hadd
  obtain ⟨hle, hun⟩ := (uncovered_iff hs).mp hcheck
  rw [enclosing_eq] at hadd
  cases hfind : pass.emittedRanges.find? fun r => Encloses r (forcedVram - s.vram) with
  | some range =>
    have hrange := List.mem_of_find?_eq_some hfind
    have hin : Encloses range (forcedVram - s.vram) := by
      have hsome := List.find?_some hfind
      exact of_decide_eq_true hsome
    obtain ⟨-, parent, fn, hname, hfn, -⟩ := h.sect.registered range hrange
    obtain ⟨aliases, halias⟩ := addDispatchAlias_eq hs h hun hrange hname hin
    rw [hfind] at hadd
    dsimp only [Option.bind] at hadd
    rw [hname] at hadd
    dsimp only at hadd
    rw [halias, vram_add_sub] at hadd
    cases hadd
    exact .inside range parent aliases hle hun hfind hname (List.getElem?_eq_some_iff.mp hfn).1
  | none =>
    have houtside : ∀ r ∈ pass.emittedRanges, ¬Encloses r (forcedVram - s.vram) := by
      intro r hr
      have hnot := List.find?_eq_none.mp hfind r hr
      exact fun hin => hnot (decide_eq_true hin)
    rw [hfind] at hadd
    dsimp only [Option.bind] at hadd
    obtain ⟨⟨sect, added⟩, hsect, hadd⟩ := bind_eq_ok_iff.mp hadd
    cases hadd
    unfold discoverAndAddFunction at hsect
    rw [if_neg hun.fresh] at hsect
    obtain ⟨bounds, hbounds, hsect⟩ := bind_eq_ok_iff.mp hsect
    -- without bounds that fit there is no range
    have hrefused : (∀ funcSize, bounds = .found funcSize → funcSize = 0 ∨
        s.relocOffset.toNat < (forcedVram - s.vram).toNat + funcSize ∨ funcSize % 4 ≠ 0) →
        s.ForcedStep pass forcedVram pass := by
      refine fun hno => .refused houtside fun range hrange => ?_
      obtain ⟨funcSize, hfound, hpos, hsize, hend, -⟩ := hrange.found
      rw [hrange.start] at hfound hend
      rcases hno funcSize (Except.ok.inj (hbounds.symm.trans hfound)) with hz | hz | hz
      · exact hpos hz
      · omega
      · exact hz hsize
    cases bounds with
    | found funcSize =>
      dsimp only at hsect
      split_ifs at hsect with hbad hflag
      · cases hsect
        refine hrefused ?_
        rintro _ ⟨⟩
        rcases hbad with hz | hz | hz | ⟨hz, -⟩
        · exact .inl hz
        · exact .inr (.inl hz)
        · exact .inr (.inr hz)
        · exact absurd rfl hz
      · simp only [not_or, not_lt] at hbad
        obtain ⟨hpos, hend, hsize, -⟩ := hbad
        obtain ⟨bytes, -, hsect⟩ := bind_eq_ok_iff.mp hsect
        cases hsect
        exact .added (forcedVram - s.vram, BitVec.ofNat 32 ((forcedVram - s.vram).toNat + funcSize))
          (hostWords bytes) ((forcedVram - s.vram).toNat + funcSize)
          ⟨hle, rfl, hun, houtside, funcSize, hbounds, hpos, not_not.mp hsize, hend, rfl⟩ rfl
    | _ =>
      cases hsect
      exact hrefused nofun

theorem IsReturn.encloses {offset : BitVec 32} (h : s.IsReturn range offset) :
    Encloses range offset := by
  obtain ⟨call, -, hlow, -, hoffset, hin⟩ := h
  refine ⟨?_, hin⟩
  change range.1.toNat < offset.toNat
  omega

theorem IsReturn.isWord {offset : BitVec 32} (h : s.IsReturn range offset) (hrange : s.IsRange range) :
    s.IsWordOffset offset ∧ offset ≠ 0 := by
  obtain ⟨call, hmod, -, -, hoffset, hin⟩ := h
  have hstop := hrange.stop
  have hinside := hrange.inside
  refine ⟨⟨by omega, by omega⟩, ?_⟩
  rintro rfl
  have hzero : (0 : BitVec 32).toNat = 0 := rfl
  omega

/-- A range is the one that its function is named by. -/
theorem eq_of_names (h : pass.InBody s) {range' : BitVec 32 × BitVec 32}
    (hrange : range ∈ pass.emittedRanges) (hrange' : range' ∈ pass.emittedRanges)
    (hname : pass.functionIndexByOffset range.1 = pass.functionIndexByOffset range'.1) :
    range = range' := by
  obtain ⟨-, i, fn, hi, hfn, hvram, hbytes⟩ := h.sect.registered range hrange
  obtain ⟨-, i', fn', hi', hfn', hvram', hbytes'⟩ := h.sect.registered range' hrange'
  obtain rfl : i = i' := Option.some.inj (hi.symm.trans (hname.trans hi'))
  obtain rfl : fn = fn' := Option.some.inj (hfn.symm.trans hfn')
  have hstart : range.1 = range'.1 :=
    (BitVec.add_right_inj _).mp (hvram.symm.trans hvram')
  have hlt := (h.sect.ranges range hrange).lt
  have hlt' := (h.sect.ranges range' hrange').lt
  have hstop : range.2.toNat = range'.2.toNat := by
    rw [hstart] at hbytes hlt
    omega
  exact Prod.ext hstart (BitVec.eq_of_toNat_eq hstop)

section Added

variable {sect : BlobSection} {start offset o : BitVec 32}

/-- A function that is added is entered at its start. -/
theorem isEntry_addDiscovered (h : sect.InBody s) (words : List (BitVec 32)) (funcEnd : Nat) :
    s.IsEntry (sect.addDiscovered o words funcEnd) offset ↔ s.IsEntry sect offset ∨ offset = o := by
  unfold IsEntry BlobSection.addDiscovered
  dsimp only
  rw [sect.functions_addFunction]
  simp only [List.mem_append, List.mem_singleton, or_and_right, exists_or, exists_eq_left]
  refine or_congr_right ?_
  have hentry : (Function.mk' (sect.vram + o) (sect.syntheticRom + o) words
      (ascii "func_" ++ hex8 (sect.vram + o)) sect.sectionIndex false false false 0).entryVram =
        sect.vram + o := rfl
  rw [hentry, h.vram, vram_add_inj]
  exact ⟨fun heq => heq.2.symm, fun heq => ⟨h.sectionIndex, heq.symm⟩⟩

/-- It has no labels, and the others keep theirs. -/
theorem isLabel_addDiscovered (hs : s.Sound) (h : sect.InBody s) (hword : s.IsWordOffset o)
    (words : List (BitVec 32)) (funcEnd : Nat)
    (hold : start ≠ o → ∀ i, sect.functionIndexByOffset start = some i →
      i < sect.context.functions.length) :
    s.IsLabel (sect.addDiscovered o words funcEnd) start offset ↔
      start ≠ o ∧ s.IsLabel sect start offset := by
  have hindex := h.index_addFunction hs hword (sect.syntheticRom + o) words
    (ascii "func_" ++ hex8 (sect.vram + o)) 0
  unfold IsLabel BlobSection.addDiscovered
  dsimp only
  rw [hindex, sect.functions_addFunction]
  by_cases hstart : start = o
  · rw [if_pos hstart]
    refine iff_of_false ?_ fun h => h.1 hstart
    rintro ⟨i, fn, ⟨⟩, hfn, hmem⟩
    rw [List.getElem?_concat_length] at hfn
    cases hfn
    cases hmem
  · rw [if_neg hstart]
    constructor
    · rintro ⟨i, fn, hname, hfn, hmem⟩
      rw [List.getElem?_append_left (hold hstart i hname)] at hfn
      exact ⟨hstart, i, fn, hname, hfn, hmem⟩
    · rintro ⟨-, i, fn, hname, hfn, hmem⟩
      refine ⟨i, fn, hname, ?_, hmem⟩
      rw [List.getElem?_append_left (hold hstart i hname), hfn]

end Added

/-- The first range around an offset. -/
def FirstAround (pass : FragmentPass) (range : BitVec 32 × BitVec 32) (offset : BitVec 32) : Prop :=
  pass.emittedRanges.find? (fun r => Encloses r offset) = some range

/-- A range around an offset is not in front of one that is the first. -/
theorem exists_firstAround {offset : BitVec 32} (hrange : range ∈ pass.emittedRanges)
    (hin : Encloses range offset) : ∃ first, FirstAround pass first offset := by
  refine Option.isSome_iff_exists.mp ?_
  rw [List.find?_isSome]
  exact ⟨range, hrange, decide_eq_true hin⟩

/-- **What a forced address does to the return address of a call in a range**: it is resumed, now or by
what is forced later on. -/
theorem ForcedStep.resumes_iff (hs : s.Sound) (h : pass.InBody s)
    (hstep : s.ForcedStep pass forcedVram next) (hrange : range ∈ pass.emittedRanges)
    {offset : BitVec 32} (hreturn : s.IsReturn range offset) (later : List (BitVec 32)) :
    (s.Resumes next.toBlobSection range.1 offset ∨
        (s.ForcedAt next later offset ∧ FirstAround next range offset)) ↔
      (s.Resumes pass.toBlobSection range.1 offset ∨
        (s.ForcedAt pass (forcedVram :: later) offset ∧ FirstAround pass range offset)) := by
  have hin := hreturn.encloses
  obtain ⟨hword, hzero⟩ := hreturn.isWord (h.sect.ranges range hrange)
  have hsub : s.vram + offset - s.vram = offset := by
    rw [BitVec.add_comm, BitVec.add_sub_cancel]
  have hle : s.vram ≤ s.vram + offset := by
    have hvram := hs.vram.2
    have hsmall := hs.small
    have hend := hword.2
    change s.vram.toNat ≤ (s.vram + offset).toNat
    rw [BitVec.toNat_add]
    omega
  -- a later address that is this one, or another one
  have hforced : forcedVram ≠ s.vram + offset →
      (s.ForcedAt pass (forcedVram :: later) offset ↔ s.ForcedAt pass later offset) := by
    intro hne
    constructor
    · rintro ⟨hnew, halias, hmem⟩
      exact ⟨hnew, halias, (List.mem_cons.mp hmem).resolve_left fun heq => hne heq.symm⟩
    · exact fun hat => ⟨hat.fresh, hat.unaliased, List.mem_cons_of_mem _ hat.forced⟩
  cases hstep with
  | covered hcovered =>
    by_cases heq : forcedVram = s.vram + offset
    · have hnot : ∀ later, ¬s.ForcedAt pass later offset := by
        intro later hat
        have hun := hcovered (heq ▸ hle)
        rw [heq, hsub] at hun
        exact hun ⟨hword, hzero, hat.fresh, hat.unaliased⟩
      exact or_congr_right (iff_of_false (fun hat => hnot _ hat.1) fun hat => hnot _ hat.1)
    · rw [hforced heq]
  | refused houtside hnone =>
    have heq : forcedVram ≠ s.vram + offset := by
      rintro rfl
      rw [hsub] at houtside
      exact houtside range hrange hin
    rw [hforced heq]
  | inside first parent aliases hle' hun hfind hname hlt =>
    have hresumes : s.Resumes (withEntry pass.toBlobSection parent forcedVram) range.1 offset ↔
        s.Resumes pass.toBlobSection range.1 offset ∨
          (pass.functionIndexByOffset range.1 = some parent ∧
            offset = forcedVram - s.vram) := by
      have hlabel : s.Resumes (withEntry pass.toBlobSection parent
          (s.vram + (forcedVram - s.vram))) range.1 offset ↔ _ := resumes_withEntry hlt
      rwa [vram_add_sub] at hlabel
    by_cases heq : forcedVram = s.vram + offset
    · subst heq
      rw [hsub] at hun hfind hresumes
      have halias : offset ∈ (s.vram + offset - s.vram) :: pass.emittedAliasOffsets :=
        List.mem_cons.mpr (.inl hsub.symm)
      refine (or_iff_left fun hat => hat.1.unaliased halias).trans
        (hresumes.trans (or_congr_right ?_))
      have hfirst := List.mem_of_find?_eq_some hfind
      constructor
      · rintro ⟨hname', -⟩
        obtain rfl := eq_of_names h hrange hfirst (hname'.trans hname.symm)
        exact ⟨⟨hun.fresh, hun.unaliased, List.mem_cons_self⟩, hfind⟩
      · rintro ⟨-, hfind'⟩
        obtain rfl : first = range := Option.some.inj (hfind.symm.trans hfind')
        exact ⟨hname, rfl⟩
    · have hne : offset ≠ forcedVram - s.vram := by
        rintro rfl
        exact heq (vram_add_sub s forcedVram).symm
      rw [hforced heq]
      refine or_congr (hresumes.trans (or_iff_left fun h => hne h.2)) (and_congr_left fun _ => ?_)
      constructor
      · exact fun hat => ⟨hat.fresh, fun hmem => hat.unaliased (List.mem_cons_of_mem _ hmem),
          hat.forced⟩
      · exact fun hat => ⟨hat.fresh, fun hmem => (List.mem_cons.mp hmem).elim hne hat.unaliased,
          hat.forced⟩
  | added new words funcEnd hnew hend =>
    have hne : offset ≠ new.1 := by
      rintro rfl
      exact hnew.outside range hrange hin
    have heq : forcedVram ≠ s.vram + offset := by
      rintro rfl
      have hstart := hnew.start
      rw [hsub] at hstart
      exact hne hstart.symm
    obtain ⟨hemitted, i, fn, hname, hfn, -⟩ := h.sect.registered range hrange
    have hstart : range.1 ≠ new.1 := fun heq => hnew.uncovered.fresh (heq ▸ hemitted)
    rw [hforced heq]
    refine or_congr ?_ ?_
    · unfold Resumes
      rw [isEntry_addDiscovered h.sect, isLabel_addDiscovered hs h.sect hnew.uncovered.word]
      · simp only [hstart, hne, ne_eq, not_false_eq_true, true_and, or_false]
      · intro _ j hj
        obtain rfl : i = j := Option.some.inj (hname.symm.trans hj)
        exact (List.getElem?_eq_some_iff.mp hfn).1
    · obtain ⟨first, hfirst⟩ := exists_firstAround hrange hin
      have hsame : FirstAround { pass with
          toBlobSection := pass.addDiscovered new.1 words funcEnd } range offset ↔
          FirstAround pass range offset := by
        unfold FirstAround at hfirst ⊢
        rw [hfirst]
        have hfind : (pass.emittedRanges ++ [(new.1, BitVec.ofNat 32 funcEnd)]).find?
            (fun r => decide (Encloses r offset)) = some first := by
          rw [List.find?_append, hfirst, Option.some_or]
        exact Iff.of_eq (congrArg (· = some range) hfind)
      rw [hsame]
      refine and_congr_left fun _ => ?_
      constructor
      · exact fun hat => ⟨fun hmem => hat.fresh (List.mem_cons_of_mem _ hmem), hat.unaliased,
          hat.forced⟩
      · exact fun hat => ⟨fun hmem => (List.mem_cons.mp hmem).elim hne hat.fresh, hat.unaliased,
          hat.forced⟩

/-- **The return addresses in a forced function** have no labels of their own. -/
theorem resumes_forced_iff (hs : s.Sound) (h : pass.InBody s)
    (hnew : s.ForcedRange pass forcedVram range) (words : List (BitVec 32)) {funcEnd : Nat}
    (hend : range.2 = BitVec.ofNat 32 funcEnd) {offset : BitVec 32}
    (hreturn : s.IsReturn range offset) (later : List (BitVec 32)) :
    (s.Resumes (pass.addDiscovered range.1 words funcEnd) range.1 offset ∨
        (s.ForcedAt { pass with toBlobSection := pass.addDiscovered range.1 words funcEnd } later
            offset ∧
          FirstAround { pass with toBlobSection := pass.addDiscovered range.1 words funcEnd } range
            offset)) ↔
      s.IsEntry pass.toBlobSection offset ∨
        (s.ForcedAt pass later offset ∧ ∀ earlier ∈ pass.emittedRanges, ¬Encloses earlier offset) := by
  have hin := hreturn.encloses
  have hne : offset ≠ range.1 := by
    rintro rfl
    exact absurd hin.1 (Nat.lt_irrefl _)
  refine or_congr ?_ (and_congr ?_ ?_)
  · unfold Resumes
    rw [isEntry_addDiscovered h.sect, isLabel_addDiscovered hs h.sect hnew.uncovered.word]
    · simp only [hne, ne_eq, not_true_eq_false, false_and, false_or, or_false]
    · exact fun hself => absurd rfl hself
  · constructor
    · exact fun hat => ⟨fun hmem => hat.fresh (List.mem_cons_of_mem _ hmem), hat.unaliased,
        hat.forced⟩
    · exact fun hat => ⟨fun hmem => (List.mem_cons.mp hmem).elim hne hat.fresh, hat.unaliased,
        hat.forced⟩
  · have hranges : ∀ found, ((pass.emittedRanges ++ [(range.1, BitVec.ofNat 32 funcEnd)]).find?
        (fun r => decide (Encloses r offset)) = some found ↔
          pass.emittedRanges.find? (fun r => decide (Encloses r offset)) = some found ∨
            (pass.emittedRanges.find? (fun r => decide (Encloses r offset)) = none ∧
              range = found)) := by
      intro found
      rw [← hend, List.find?_append, List.find?_singleton, if_pos (decide_eq_true hin)]
      cases pass.emittedRanges.find? fun r => decide (Encloses r offset) with
      | none => simp only [Option.none_or, Option.some.injEq, reduceCtorEq, true_and, false_or]
      | some first => simp only [Option.some_or, Option.some.injEq, reduceCtorEq, false_and, or_false]
    refine (hranges range).trans ?_
    constructor
    · rintro (hfind | ⟨hfind, -⟩)
      · -- a new range is not one of those before it
        have hold := h.sect.registered range (List.mem_of_find?_eq_some hfind)
        exact absurd hold.emitted hnew.uncovered.fresh
      · intro earlier hearlier hin'
        exact List.find?_eq_none.mp hfind earlier hearlier (decide_eq_true hin')
    · intro houtside
      refine .inr ⟨List.find?_eq_none.mpr fun earlier hearlier hin' => ?_, rfl⟩
      exact houtside earlier hearlier (of_decide_eq_true hin')

/-- A forced address becomes one function. -/
theorem ForcedRange.unique {range' : BitVec 32 × BitVec 32} (h : s.ForcedRange pass forcedVram range)
    (h' : s.ForcedRange pass forcedVram range') : range = range' := by
  have hstart : range.1 = range'.1 := h.start.trans h'.start.symm
  obtain ⟨size, hfound, -, -, -, hstop⟩ := h.found
  obtain ⟨size', hfound', -, -, -, hstop'⟩ := h'.found
  rw [hstart] at hfound hstop
  obtain rfl : size = size' := by
    have heq := Except.ok.inj (hfound.symm.trans hfound')
    injection heq
  exact Prod.ext hstart (hstop.trans hstop'.symm)

/-- The first of the forced addresses, and the others. -/
theorem forcedFit_cons {later : List (BitVec 32)} : s.ForcedFit pass (forcedVram :: later) ↔
    (∀ range, s.ForcedRange pass forcedVram range → ∀ offset, s.IsReturn range offset →
      s.IsEntry pass.toBlobSection offset ∨ (s.ForcedAt pass later offset ∧
        ∀ earlier ∈ pass.emittedRanges, ¬Encloses earlier offset)) ∧
    ∀ next, s.addForced pass forcedVram = .ok next → s.ForcedFit next later := by
  constructor
  · intro h
    refine ⟨h [] forcedVram later pass rfl rfl, ?_⟩
    rintro next hnext visited forced later' mid rfl hmid
    refine h (forcedVram :: visited) forced later' mid rfl ?_
    rw [List.foldlM_cons, hnext]
    exact hmid
  · rintro ⟨hfirst, hrest⟩ visited forced later' mid hsplit hmid
    cases visited with
    | nil =>
      cases hsplit
      cases hmid
      exact hfirst
    | cons v visited =>
      rw [List.cons_append, List.cons.injEq] at hsplit
      obtain ⟨rfl, rfl⟩ := hsplit
      rw [List.foldlM_cons] at hmid
      obtain ⟨next, hnext, hmid⟩ := bind_eq_ok_iff.mp hmid
      exact hrest next hnext visited forced later' mid rfl hmid

/-- **The forced functions**: the code can be resumed behind every call, if and only if it can be in
the functions before them, and the calls in them fit. -/
theorem returnsResume_forced_iff (hs : s.Sound) {forced : List (BitVec 32)} {final : FragmentPass}
    (h : pass.InBody s) (hrun : forced.foldlM s.addForced pass = .ok final) :
    s.ReturnsResume final ↔
      (∀ range ∈ pass.emittedRanges, ∀ offset, s.IsReturn range offset →
        s.Resumes pass.toBlobSection range.1 offset ∨
          (s.ForcedAt pass forced offset ∧ FirstAround pass range offset)) ∧
      s.ForcedFit pass forced := by
  induction forced generalizing pass with
  | nil =>
    cases hrun
    constructor
    · intro hresume
      refine ⟨fun range hrange offset hreturn => .inl (hresume range hrange offset hreturn), ?_⟩
      intro visited forced later mid hsplit
      exact absurd hsplit.symm (by simp)
    · rintro ⟨hresume, -⟩ range hrange offset hreturn
      rcases hresume range hrange offset hreturn with hnow | ⟨hat, -⟩
      · exact hnow
      · exact absurd hat.forced List.not_mem_nil
  | cons forcedVram later ih =>
    rw [List.foldlM_cons] at hrun
    obtain ⟨next, hnext, hrun⟩ := bind_eq_ok_iff.mp hrun
    have hstep := addForced_step hs h hnext
    rw [ih ((hs.addForced h forcedVram).2 next hnext) hrun, forcedFit_cons]
    have hrest : (∀ mid, s.addForced pass forcedVram = .ok mid → s.ForcedFit mid later) ↔
        s.ForcedFit next later := by
      constructor
      · exact fun hall => hall next hnext
      · intro hfit mid hmid
        obtain rfl : next = mid := Except.ok.inj (hnext.symm.trans hmid)
        exact hfit
    rw [hrest, ← and_assoc]
    refine and_congr_left fun _ => ?_
    -- the ranges before the step, and the one that it adds
    have hold : ∀ range ∈ pass.emittedRanges, ∀ offset, s.IsReturn range offset → _ :=
      fun range hrange offset hreturn => hstep.resumes_iff hs h hrange hreturn later
    have hsplit : (∀ range ∈ next.emittedRanges, ∀ offset, s.IsReturn range offset →
        s.Resumes next.toBlobSection range.1 offset ∨
          (s.ForcedAt next later offset ∧ FirstAround next range offset)) ↔
        (∀ range ∈ pass.emittedRanges, ∀ offset, s.IsReturn range offset →
          s.Resumes next.toBlobSection range.1 offset ∨
            (s.ForcedAt next later offset ∧ FirstAround next range offset)) ∧
        ∀ range, s.ForcedRange pass forcedVram range → ∀ offset, s.IsReturn range offset →
          s.IsEntry pass.toBlobSection offset ∨ (s.ForcedAt pass later offset ∧
            ∀ earlier ∈ pass.emittedRanges, ¬Encloses earlier offset) := by
      cases hstep with
      | covered hcovered =>
        refine (and_iff_left fun range hnew => ?_).symm
        exact absurd (hnew.start ▸ hnew.uncovered) (hcovered hnew.above)
      | refused _ hnone => exact (and_iff_left fun range hnew => absurd hnew (hnone range)).symm
      | inside first parent aliases _ _ hfind _ _ =>
        refine (and_iff_left fun range hnew => ?_).symm
        have hfirst := List.find?_some hfind
        rw [← hnew.start] at hfirst
        exact absurd (of_decide_eq_true hfirst)
          (hnew.outside first (List.mem_of_find?_eq_some hfind))
      | added range words funcEnd hnew hend =>
        have hmem : ∀ r, r ∈ pass.emittedRanges ++ [(range.1, BitVec.ofNat 32 funcEnd)] ↔
            r ∈ pass.emittedRanges ∨ r = range := by
          intro r
          rw [← hend, List.mem_append, List.mem_singleton]
        constructor
        · intro hall
          refine ⟨fun r hr => hall r ((hmem r).mpr (.inl hr)), fun r hr offset hreturn => ?_⟩
          obtain rfl := hr.unique hnew
          exact (resumes_forced_iff hs h hnew words hend hreturn later).mp
            (hall r ((hmem r).mpr (.inr rfl)) offset hreturn)
        · rintro ⟨hall, hfit⟩ r hr offset hreturn
          rcases (hmem r).mp hr with hr | rfl
          · exact hall r hr offset hreturn
          · exact (resumes_forced_iff hs h hnew words hend hreturn later).mpr
              (hfit r hnew offset hreturn)
    rw [hsplit]
    refine and_congr_left fun _ => ?_
    exact forall_congr' fun range => forall_congr' fun hrange => forall_congr' fun offset =>
      forall_congr' fun hreturn => hold range hrange offset hreturn

end Forced

end FragmentScan

/-! ### The code of a fragment -/

theorem whenDone_eq_ok {result : Except Stop (Option FragmentPass)} {pass : FragmentPass}
    (h : whenDone result = .ok pass) : result = .ok (some pass) := by
  obtain ⟨pass?, hresult, h⟩ := bind_eq_ok_iff.mp h
  cases pass? with
  | none => cases h
  | some last =>
    cases h
    exact hresult

/-- **The code of a fragment can be resumed behind every call, if and only if** no return address is
left out. -/
theorem CodeFragment.returnsResume_iff (f : CodeFragment) {context : Context} {aliases : AliasTable}
    {sectionName : Str} {extraEntryOffsets forcedFunctionVrams : List (BitVec 32)}
    {final : FragmentPass}
    (h : f.addCode context aliases sectionName extraEntryOffsets forcedFunctionVrams = .ok final) :
    f.ReturnsResume final ↔
      f.ReturnsFit context aliases sectionName extraEntryOffsets forcedFunctionVrams := by
  have hs := f.sound
  obtain ⟨seeded, hseeded, h⟩ := bind_eq_ok_iff.mp h
  obtain ⟨gapped, hgapped, h⟩ := bind_eq_ok_iff.mp h
  obtain ⟨pass, hpass, h⟩ := bind_eq_ok_iff.mp h
  obtain ⟨labelled, hlabelled, hforced⟩ := bind_eq_ok_iff.mp h
  have hloops : f.addLoops context aliases sectionName extraEntryOffsets = .ok pass := by
    unfold FragmentScan.addLoops
    dsimp only
    rw [hseeded, ok_bind, hgapped, ok_bind, hpass]
  have hinBody : pass.InBody f.toFragmentScan :=
    hs.continuations_measured.inv_of_loop
      (hs.gaps_measured.inv_of_loop (hs.inBody_of_seed hseeded) (whenDone_eq_ok hgapped)).1
      (whenDone_eq_ok hpass)
  obtain ⟨hlabelledIn, hsame, hresumes⟩ := FragmentScan.labelReturns_step hs hinBody hlabelled
  rw [FragmentScan.returnsResume_forced_iff hs hlabelledIn hforced, hsame.ranges]
  constructor
  · rintro ⟨hstarts, hfit⟩
    refine ⟨fun pass' hpass' range hrange offset hreturn hemitted => ?_,
      fun pass' labelled' hpass' hlabelled' => ?_⟩
    · obtain rfl : pass = pass' := Except.ok.inj (hloops.symm.trans hpass')
      rcases hstarts range hrange offset hreturn with hnow | ⟨hat, -⟩
      · exact ((hresumes range hrange offset hreturn).mp hnow).resolve_right fun hnew =>
          hnew hemitted
      · exact absurd (hsame.offsets ▸ hemitted) hat.fresh
    · obtain rfl : pass = pass' := Except.ok.inj (hloops.symm.trans hpass')
      obtain rfl : labelled = labelled' := Except.ok.inj (hlabelled.symm.trans hlabelled')
      exact hfit
  · intro hfit
    refine ⟨fun range hrange offset hreturn => .inl ?_, hfit.forced pass labelled hloops hlabelled⟩
    rw [hresumes range hrange offset hreturn]
    by_cases hemitted : offset ∈ pass.emittedOffsets
    · exact .inl (hfit.starts pass hloops range hrange offset hreturn hemitted)
    · exact .inr hemitted

/-! ### A forced function with a call -/

/-- An entry, a function that returns, and a function with a call that nothing refers to. -/
def callFragment : List (BitVec 8) :=
  wordsBytes [0x0B400008, 0, 0x46524147, 0x4D454E54, 0x20, 0x3C, 0x3C, 0x3C,
    0x03E00008, 0, 0x0C000000, 0, 0x8FBF0000, 0x03E00008, 0]

def callScan : FragmentScan where
  decoder := Decoder.ofId sampleId
  hasBranchLabel w := (sampleId w).isBranch
  doesLink w := sampleId w ∈ [InstrId.jal, .jalr, .bltzal, .bgezal]
  blob := callFragment
  relocOffset := 0x3C
  vram := 0x8D000000
  sectionIndex := 0
  syntheticRom := 0xFE000000
  relocs := []

theorem callScan_sound : callScan.Sound where
  body := by decide +kernel
  small := by decide
  length := by decide +kernel
  vram := by decide

def callCode : CodeFragment := { callScan with sound := callScan_sound }

/-- The functions of the fragment, when the one with the call is forced. -/
def callPass : Except Stop FragmentPass :=
  callCode.addCode Context.empty ⟨[], []⟩ (ascii "fragment") [] [0x8D000028]

/-- The forced function is added behind the pass over the return addresses: it has no label behind its
call. -/
theorem forced_call_does_not_resume : ∃ final, callPass = .ok final ∧
    (callCode.ReturnsResume final ↔ callCode.ReturnsFit Context.empty ⟨[], []⟩ (ascii "fragment") []
      [0x8D000028]) ∧ ¬callCode.ReturnsResume final := by
  have hranges : callPass.toOption.map (·.emittedRanges) = some [(0x20, 0x28), (0x28, 0x3C)] := by
    decide +kernel
  have hentries : callPass.toOption.map (fun pass => pass.context.functions.map (·.entryVram)) =
      some [0x8D000000, 0x8D000020, 0x8D000028] := by
    decide +kernel
  have hlabels : callPass.toOption.map (fun pass =>
      pass.context.functions.map (·.dispatchEntryVrams)) = some [[], [], []] := by
    decide +kernel
  cases hpass : callPass with
  | error stop =>
    rw [hpass] at hranges
    cases hranges
  | ok final =>
    rw [hpass] at hranges hentries hlabels
    replace hranges : final.emittedRanges = _ := Option.some.inj hranges
    replace hentries : final.context.functions.map (·.entryVram) = _ := Option.some.inj hentries
    replace hlabels : final.context.functions.map (·.dispatchEntryVrams) = _ :=
      Option.some.inj hlabels
    refine ⟨final, rfl, callCode.returnsResume_iff hpass, fun hresumes => ?_⟩
    have hreturn : callCode.IsReturn (0x28, 0x3C) 0x30 :=
      ⟨0x28, by decide, by decide, by decide +kernel, by decide, by decide⟩
    rcases hresumes (0x28, 0x3C) (by rw [hranges]; simp) 0x30 hreturn with
      ⟨i, fn, -, hfn, hmem⟩ | ⟨fn, hfn, -, hentry⟩
    · have hnone : fn.dispatchEntryVrams ∈ [[], [], ([] : List (BitVec 32))] := by
        rw [← hlabels]
        exact List.mem_map_of_mem (List.mem_of_getElem? hfn)
      simp only [List.mem_cons, List.not_mem_nil, or_false, or_self] at hnone
      rw [hnone] at hmem
      cases hmem
    · have hmem := List.mem_map_of_mem (f := Function.entryVram) hfn
      rw [hentry, hentries] at hmem
      revert hmem
      decide

end N64Recomp
