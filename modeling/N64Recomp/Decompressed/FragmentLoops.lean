import N64Recomp.Decompressed.FragmentPass
import N64Recomp.Decompressed.ScanEnds

/-!
# The loops over a code fragment end

A round of the loops over the gaps and over the continuations stays in the body. One that goes on adds
an entry or an alias, of which there are no more than words in the body. An entry can be added where
an alias is, so that the two together need not grow.

## Main definitions

* `CodeFragment`: a body whose size and address were checked
* `LoopEnds`, `CodeFragment.LoopsEnd`: the loops end, and what their rounds grow

## Main results

* `FragmentScan.Sound.gapRound`, `FragmentScan.Sound.continuationRound`: the steps of the rounds
* `CodeFragment.loopsEnd`: the loops over every fragment end
* `aliases_become_entries`: a round that goes on and only adds an entry where an alias is
-/

namespace N64Recomp

open Compression Except Rounds

/-! ### Functions that are added -/

section Added

variable {s : FragmentScan} {sect : BlobSection} {entryOffset : BitVec 32}

/-- The range of a function of the body. -/
theorem FragmentScan.Sound.isRange (hs : s.Sound) {funcSize : Nat}
    (hentry : entryOffset.toNat % 4 = 0) (hpos : funcSize ≠ 0) (hsize : funcSize % 4 = 0)
    (hend : entryOffset.toNat + funcSize ≤ s.relocOffset.toNat) :
    s.IsRange (entryOffset, BitVec.ofNat 32 (entryOffset.toNat + funcSize)) := by
  have hsmall := hs.small
  have hto : (BitVec.ofNat 32 (entryOffset.toNat + funcSize)).toNat =
      entryOffset.toNat + funcSize := by
    rw [BitVec.toNat_ofNat, Nat.mod_eq_of_lt (by omega)]
  constructor <;> dsimp only
  · exact hentry
  · omega
  · omega
  · omega

/-- The functions with the one that is added. -/
theorem BlobSection.functions_addFunction (sect : BlobSection) (fVram fRom : BitVec 32)
    (words : List (BitVec 32)) (name : Str) (entryVram : BitVec 32) :
    (sect.addFunction fVram fRom words name entryVram).context.functions =
      sect.context.functions ++
        [Function.mk' fVram fRom words name sect.sectionIndex false false false entryVram] := by
  unfold addFunction
  dsimp only
  split_ifs <;> rfl

/-- The start of a function of the body names it. -/
theorem BlobSection.InBody.index_addFunction (h : sect.InBody s) (hs : s.Sound)
    (hentry : s.IsWordOffset entryOffset) (fRom : BitVec 32) (words : List (BitVec 32)) (name : Str)
    (entryVram o : BitVec 32) :
    (sect.addFunction (sect.vram + entryOffset) fRom words name entryVram).functionIndexByOffset o =
      if o = entryOffset then some sect.context.functions.length
      else sect.functionIndexByOffset o := by
  obtain ⟨hmod, hle⟩ := hentry
  have hsmall := hs.small
  have hvram := hs.vram.2
  have hoffset : sect.vram + entryOffset - sect.vram = entryOffset := by
    rw [BitVec.add_comm, BitVec.add_sub_cancel]
  have hin : sect.vram ≤ sect.vram + entryOffset ∧
      sect.vram + entryOffset < sect.vram + sect.relocOffset ∧
      (sect.vram + entryOffset - sect.vram) &&& 3 = 0 := by
    rw [hoffset, h.vram, h.relocOffset]
    refine ⟨?_, ?_, ?_⟩
    · change s.vram.toNat ≤ (s.vram + entryOffset).toNat
      rw [BitVec.toNat_add]
      omega
    · change (s.vram + entryOffset).toNat < (s.vram + s.relocOffset).toNat
      rw [BitVec.toNat_add, BitVec.toNat_add]
      omega
    · exact FragmentScan.and_three_of_mod hmod
  unfold addFunction
  dsimp only
  rw [if_pos hin, hoffset]

/-- **A function is one of the body**: it has a range, and its start and its entry are new. -/
theorem BlobSection.InBody.addRange (h : sect.InBody s) (hs : s.Sound) {funcSize : Nat}
    {words : List (BitVec 32)} (hentry : entryOffset.toNat % 4 = 0) (hpos : funcSize ≠ 0)
    (hsize : funcSize % 4 = 0) (hend : entryOffset.toNat + funcSize ≤ s.relocOffset.toNat)
    (hnew : entryOffset ∉ sect.emittedOffsets) (hwords : words.length * 4 = funcSize)
    {offsets : List (BitVec 32)} (hoffsets : ∀ o ∈ offsets, s.IsWordOffset o)
    (hmem : entryOffset ∈ offsets) (fRom : BitVec 32) (name : Str) (entryVram : BitVec 32) :
    BlobSection.InBody s
      { sect.addFunction (sect.vram + entryOffset) fRom words name entryVram with
        emittedOffsets := offsets ++ sect.emittedOffsets
        emittedRanges := sect.emittedRanges ++
          [(entryOffset, BitVec.ofNat 32 (entryOffset.toNat + funcSize))] } := by
  have hrange := hs.isRange hentry hpos hsize hend
  have hindex := h.index_addFunction hs (hoffsets _ hmem) fRom words name entryVram
  refine ⟨h.relocOffset, h.vram, h.sectionIndex, ?_, ?_, ?_⟩
  · intro o ho
    rcases List.mem_append.mp ho with ho | ho
    · exact hoffsets o ho
    · exact h.offsets o ho
  · intro r hr
    rcases List.mem_append.mp hr with hr | hr
    · exact h.ranges r hr
    · obtain rfl := List.mem_singleton.mp hr
      exact hrange
  · intro r hr
    rcases List.mem_append.mp hr with hr | hr
    · obtain ⟨hemitted, i, fn, hname, hfn, hvram, hbytes⟩ := h.registered r hr
      refine ⟨List.mem_append_right _ hemitted, i, fn, ?_, ?_, hvram, hbytes⟩
      · dsimp only
        rw [hindex, if_neg (fun heq : r.1 = entryOffset => hnew (heq ▸ hemitted)), hname]
      · dsimp only
        rw [sect.functions_addFunction]
        exact List.getElem?_append_left (List.getElem?_eq_some_iff.mp hfn).1 |>.trans hfn
    · obtain rfl := List.mem_singleton.mp hr
      refine ⟨List.mem_append_left _ hmem, sect.context.functions.length,
        Function.mk' (sect.vram + entryOffset) fRom words name sect.sectionIndex false false false
          entryVram, ?_, ?_, rfl, ?_⟩
      · dsimp only
        rw [hindex, if_pos rfl]
      · dsimp only
        rw [sect.functions_addFunction, List.getElem?_concat_length]
      · have hstop : (BitVec.ofNat 32 (entryOffset.toNat + funcSize)).toNat =
            entryOffset.toNat + funcSize := by
          have hsmall := hs.small
          rw [BitVec.toNat_ofNat, Nat.mod_eq_of_lt (by omega)]
        have hbytes : words.length * 4 =
            (BitVec.ofNat 32 (entryOffset.toNat + funcSize)).toNat - entryOffset.toNat := by
          omega
        exact hbytes

/-- A dispatch entry changes no address and no size. -/
theorem BlobSection.InBody.insertEntry (h : sect.InBody s) (parent : Nat) (entryVram : BitVec 32) :
    BlobSection.InBody s { sect with context := { sect.context with
      functions := sect.context.functions.modify parent (·.insertDispatchEntry entryVram) } } where
  relocOffset := h.relocOffset
  vram := h.vram
  sectionIndex := h.sectionIndex
  offsets := h.offsets
  ranges := h.ranges
  registered := by
    intro r hr
    obtain ⟨hemitted, i, fn, hname, hfn, hvram, hbytes⟩ := h.registered r hr
    refine ⟨hemitted, i, if parent = i then fn.insertDispatchEntry entryVram else fn, hname, ?_, ?_, ?_⟩
    · dsimp only
      rw [List.getElem?_modify, hfn]
      split_ifs <;> rfl
    · split_ifs <;> exact hvram
    · split_ifs <;> exact hbytes

/-- The pass has nothing at first. -/
theorem FragmentScan.inBody_section₀ (s : FragmentScan) (context : Context) (fRom : BitVec 32)
    (words : List (BitVec 32)) (name : Str) :
    ((s.section₀ context).addFunction s.vram fRom words name 0).InBody s :=
  ⟨rfl, rfl, rfl, fun _ ho => absurd ho List.not_mem_nil, fun _ hr => absurd hr List.not_mem_nil,
    fun _ hr => absurd hr List.not_mem_nil⟩

/-- **A function that is discovered is one of the body.** -/
theorem FragmentScan.Sound.discoverAndAddFunction (hs : s.Sound) (h : sect.InBody s)
    (hentry : entryOffset.toNat % 4 = 0) (maxEndOffset : BitVec 32) (hardFailure : Bool) :
    ReadsWithin (s.discoverAndAddFunction sect entryOffset maxEndOffset hardFailure)
      (SectionStep s sect) := by
  have hbody := hs.body
  have hrefused : ReadsWithin
      (if hardFailure then .error .returnFalse else pure (sect, false)) (SectionStep s sect) := by
    split_ifs
    · exact ensures_error nofun
    · exact ensures_ok (SectionStep.refl h)
  unfold FragmentScan.discoverAndAddFunction
  by_cases hemitted : entryOffset ∈ sect.emittedOffsets
  · rw [if_pos hemitted]
    exact ensures_ok (SectionStep.refl h)
  rw [if_neg hemitted]
  refine (hs.discover entryOffset).bind fun bounds _ => ?_
  split
  · rename_i funcSize _
    dsimp only
    by_cases hcheck : funcSize = 0 ∨ s.relocOffset.toNat < entryOffset.toNat + funcSize ∨
        funcSize % 4 ≠ 0 ∨
        (maxEndOffset ≠ 0 ∧ maxEndOffset.toNat < entryOffset.toNat + funcSize)
    · rw [if_pos hcheck]
      exact hrefused
    · rw [if_neg hcheck]
      simp only [not_or, not_lt] at hcheck
      obtain ⟨hpos, hend, hsize, -⟩ := hcheck
      refine (reads_range (by omega)).bind fun bytes hbytes => ensures_ok ?_
      have hwords : (hostWords bytes).length * 4 = funcSize := by
        have hsize := not_not.mp hsize
        unfold hostWords
        rw [List.length_map, List.length_range, hbytes, List.length_take, List.length_drop]
        omega
      exact {
        inBody := h.addRange hs hentry hpos (not_not.mp hsize) hend hemitted hwords
          (List.forall_mem_singleton.mpr ⟨hentry, by omega⟩) List.mem_cons_self _ _ _
        subset := List.subset_cons_self _ _
        fresh := fun _ => ⟨entryOffset, List.mem_cons_self, hemitted⟩ }
  · exact hrefused

/-- **A function whose size is known is added in the body**, with its entry. -/
theorem FragmentScan.Sound.addKnownSize (hs : s.Sound) (h : sect.InBody s) {funcSize : Nat}
    (hentry : entryOffset.toNat % 4 = 0) (maxEndOffset : BitVec 32)
    {dispatchEntryOffset : BitVec 32} (hdispatch : dispatchEntryOffset.toNat % 4 = 0) :
    ReadsWithin (s.addKnownSize sect entryOffset funcSize maxEndOffset dispatchEntryOffset)
      (SectionStep s sect) := by
  have hbody := hs.body
  unfold FragmentScan.addKnownSize BlobSection.addKnownSizeFunction
  dsimp only
  generalize heffective : (if dispatchEntryOffset ≠ 0 then dispatchEntryOffset else entryOffset) =
    effective
  have hmod : effective.toNat % 4 = 0 := by
    subst heffective
    split_ifs
    · exact hdispatch
    · exact hentry
  by_cases hemitted : entryOffset ∈ sect.emittedOffsets ∨ effective ∈ sect.emittedOffsets
  · rw [if_pos hemitted]
    exact ensures_ok (SectionStep.refl h)
  rw [if_neg hemitted]
  by_cases hcheck : funcSize = 0 ∨ sect.relocOffset.toNat < entryOffset.toNat + funcSize ∨
      funcSize % 4 ≠ 0 ∨ effective < entryOffset ∨
      entryOffset.toNat + funcSize ≤ effective.toNat ∨
      (maxEndOffset ≠ 0 ∧ maxEndOffset.toNat < entryOffset.toNat + funcSize)
  · rw [if_pos hcheck]
    exact ensures_ok (SectionStep.refl h)
  rw [if_neg hcheck]
  simp only [not_or, not_lt, not_le, h.relocOffset] at hcheck
  obtain ⟨hpos, hend, hsize, -, hinside, -⟩ := hcheck
  refine (reads_range (by omega)).bind fun bytes _ => ensures_ok ?_
  have hwords : ((List.range (funcSize / 4)).map fun i =>
      hostWord sect.blob (entryOffset.toNat + 4 * i)).length * 4 = funcSize := by
    have hsize := not_not.mp hsize
    rw [List.length_map, List.length_range]
    omega
  exact {
    inBody := h.addRange hs hentry hpos (not_not.mp hsize) hend (fun ho => hemitted (.inl ho)) hwords
      (List.forall_mem_cons.mpr ⟨⟨hmod, by omega⟩, List.forall_mem_singleton.mpr
        ⟨hentry, by omega⟩⟩) (List.mem_cons_of_mem _ List.mem_cons_self) _ _ _
    subset := fun o ho => List.mem_cons_of_mem _ (List.mem_cons_of_mem _ ho)
    fresh := fun _ => ⟨entryOffset, List.mem_cons_of_mem _ List.mem_cons_self,
      fun ho => hemitted (.inl ho)⟩ }

/-- **An alias is one of a word of the body.** -/
theorem FragmentPass.InBody.addDispatchAlias {pass : FragmentPass} (h : pass.InBody s) {parent : Nat}
    (hentry : s.IsWordOffset entryOffset) {next : BlobSection} {aliases : AliasTable}
    {emittedAliasOffsets : List (BitVec 32)} {added : Bool}
    (hadd : pass.toBlobSection.addDispatchAlias pass.aliases pass.emittedAliasOffsets parent
      entryOffset = some (next, aliases, emittedAliasOffsets, added)) :
    PassStep s pass ({ next with aliases, emittedAliasOffsets }, added) := by
  unfold BlobSection.addDispatchAlias at hadd
  split_ifs at hadd with hcheck
  · cases hadd
    exact PassStep.refl h
  · simp only [not_or] at hcheck
    obtain ⟨-, -, -, hnew⟩ := hcheck
    obtain ⟨parentFunc, -, hadd⟩ := Option.bind_eq_some_iff.mp hadd
    dsimp only at hadd
    split_ifs at hadd
    · cases hadd
      exact PassStep.refl h
    · cases hadd
      exact {
        inBody := {
          sect := h.sect.insertEntry parent _
          aliasOffsets := List.forall_mem_cons.mpr ⟨hentry, h.aliasOffsets⟩ }
        emitted := fun _ ho => ho
        aliased := List.subset_cons_self _ _
        fresh := fun _ => .inr ⟨entryOffset, List.mem_cons_self, hnew⟩ }

end Added

/-! ### Gaps -/

/-- A loop over offsets goes on by words. -/
theorem mod_of_mem_offsetsWhile {goesOn : BitVec 32 → Bool} {fuel : Nat} {start offset : BitVec 32}
    (hstart : start.toNat % 4 = 0) (h : offset ∈ offsetsWhile goesOn fuel start) :
    offset.toNat % 4 = 0 := by
  induction fuel generalizing start with
  | zero => cases h
  | succ fuel ih =>
    unfold offsetsWhile at h
    split_ifs at h
    · rcases List.mem_cons.mp h with rfl | h
      · exact hstart
      · refine ih ?_ h
        rw [BitVec.toNat_add, show (4 : BitVec 32).toNat = 4 from rfl]
        omega
    · cases h

namespace FragmentScan

section Gaps

variable {s : FragmentScan} {sect : BlobSection} {gapBegin gapEnd overlapEnd offset : BitVec 32}

theorem Sound.addFrameEntry (hs : s.Sound) (h : sect.InBody s) (hmod : offset.toNat % 4 = 0)
    (hoffset : offset.toNat < 2 ^ 31) :
    ReadsWithin (s.addFrameEntry gapEnd sect offset) (SectionStep s sect) := by
  refine (hs.looksLikeGapFunctionEntry hoffset).bind fun likely _ => ?_
  split_ifs
  · exact hs.discoverAndAddFunction h hmod gapEnd false
  · exact ensures_ok (SectionStep.refl h)

theorem Sound.addFallthroughEntry (hs : s.Sound) (h : sect.InBody s)
    (hgap : gapEnd.toNat ≤ s.relocOffset.toNat) (hmod : offset.toNat % 4 = 0)
    (hoffset : offset.toNat < 2 ^ 31) :
    ReadsWithin (s.addFallthroughEntry gapEnd overlapEnd sect offset) (SectionStep s sect) := by
  refine (hs.looksLikeFallthroughGapFunctionEntry hgap hoffset).bind fun likely _ => ?_
  split_ifs
  · exact hs.discoverAndAddFunction h hmod overlapEnd false
  · exact ensures_ok (SectionStep.refl h)

theorem Sound.addLeafEntry (hs : s.Sound) (h : sect.InBody s)
    (hgap : gapEnd.toNat ≤ s.relocOffset.toNat) (hmod : offset.toNat % 4 = 0)
    (hoffset : offset.toNat < 2 ^ 31) :
    ReadsWithin (s.addLeafEntry gapBegin gapEnd sect offset) (SectionStep s sect) := by
  refine (hs.looksLikeLeafGapFunctionEntry hgap hoffset).bind fun size? _ => ?_
  split
  · exact hs.addKnownSize h hmod gapEnd (by decide)
  · exact ensures_ok (SectionStep.refl h)

/-- The start of a gap is rounded up to a word. -/
theorem gapBegin_bounds (h : gapBegin.toNat < 2 ^ 25) :
    let start := ((if gapBegin < implOffset then implOffset else gapBegin) + 3) &&& 0xFFFFFFFC
    start.toNat % 4 = 0 ∧ start.toNat < 2 ^ 31 := by
  intro start
  have hthree : start &&& 3 = 0 := by
    rw [BitVec.and_assoc, show (0xFFFFFFFC &&& 3 : BitVec 32) = 0 from rfl]
    exact BitVec.and_zero
  refine ⟨mod_of_and_three hthree, ?_⟩
  have himpl : (implOffset : BitVec 32).toNat = 0x20 := rfl
  have hle : start.toNat ≤
      ((if gapBegin < implOffset then implOffset else gapBegin) + 3 : BitVec 32).toNat := by
    rw [BitVec.toNat_and]
    exact Nat.and_le_left
  rw [BitVec.toNat_add, show (3 : BitVec 32).toNat = 3 from rfl] at hle
  split_ifs at hle <;> omega

/-- **The scan of a gap** adds a function of the body, or nothing. -/
theorem Sound.scanGapForFunction (hs : s.Sound) (h : sect.InBody s)
    (hbegin : gapBegin.toNat < 2 ^ 25) (hgap : gapEnd.toNat ≤ s.relocOffset.toNat) :
    ReadsWithin (s.scanGapForFunction sect gapBegin gapEnd overlapEnd) (SectionStep s sect) := by
  have hsmall := hs.small
  obtain ⟨hmod, hstart⟩ := gapBegin_bounds hbegin
  unfold FragmentScan.scanGapForFunction
  dsimp only at hmod hstart ⊢
  generalize ((if gapBegin < implOffset then implOffset else gapBegin) + 3) &&& 0xFFFFFFFC =
    start at hmod hstart ⊢
  have hwords : ∀ o ∈ offsetsTo 4 gapEnd start, o.toNat % 4 = 0 ∧ o.toNat < 2 ^ 31 := by
    intro o ho
    have hle : o.toNat + 4 ≤ gapEnd.toNat :=
      (mem_offsetsTo (by decide) (by omega) hstart ho).2
    exact ⟨mod_of_mem_offsetsWhile hmod ho, by omega⟩
  have hpairs : ∀ o ∈ offsetsTo 8 gapEnd start, o.toNat % 4 = 0 ∧ o.toNat < 2 ^ 31 := by
    intro o ho
    have hle : o.toNat + 8 ≤ gapEnd.toNat :=
      (mem_offsetsTo (by decide) (by omega) hstart ho).2
    exact ⟨mod_of_mem_offsetsWhile hmod ho, by omega⟩
  refine (addFirst_steps h fun sect hsect o ho =>
    hs.addFrameEntry hsect (hwords o ho).1 (hwords o ho).2).bind ?_
  rintro ⟨framed, added⟩ hframed
  dsimp only
  split_ifs with hadded
  · subst hadded
    exact ensures_ok hframed
  refine (addFirst_steps hframed.inBody fun sect hsect o ho =>
    hs.addFallthroughEntry hsect hgap (hwords o ho).1 (hwords o ho).2).bind ?_
  rintro ⟨fallen, added⟩ hfallen
  dsimp only
  split_ifs with hadded
  · subst hadded
    exact ensures_ok (hframed.trans hfallen)
  refine (addFirst_steps hfallen.inBody fun sect hsect o ho =>
    hs.addLeafEntry hsect hgap (hpairs o ho).1 (hpairs o ho).2).mono fun r hr => ?_
  exact hframed.trans (hfallen.trans hr)

theorem Sound.scanInFront (hs : s.Sound) (h : sect.InBody s) (hbegin : gapBegin.toNat < 2 ^ 25)
    (hgap : gapEnd.toNat ≤ s.relocOffset.toNat) :
    ReadsWithin (s.scanInFront sect gapBegin gapEnd overlapEnd) (SectionStep s sect) := by
  unfold FragmentScan.scanInFront
  split_ifs
  · exact hs.scanGapForFunction h hbegin hgap
  · exact ensures_ok (SectionStep.refl h)

/-- The gaps between ranges of the body. -/
theorem Sound.scanGaps (hs : s.Sound) (h : sect.InBody s) {ranges : List (BitVec 32 × BitVec 32)}
    (hranges : ∀ r ∈ ranges, s.IsRange r) (hbegin : gapBegin.toNat < 2 ^ 25) :
    ReadsWithin (s.scanGaps ranges gapBegin sect) (SectionStep s sect) := by
  have hsmall := hs.small
  induction ranges generalizing gapBegin sect with
  | nil => exact hs.scanInFront h hbegin (Nat.le_refl _)
  | cons range rest ih =>
    obtain ⟨hrange, hrest⟩ := List.forall_mem_cons.mp hranges
    have hlt := hrange.lt
    have hinside := hrange.inside
    unfold FragmentScan.scanGaps
    by_cases hcovered : range.2 ≤ gapBegin
    · rw [if_pos hcovered]
      exact ih h hrest hbegin
    · rw [if_neg hcovered]
      refine (hs.scanInFront h hbegin (by omega)).bind ?_
      rintro ⟨mid, added⟩ hmid
      dsimp only
      by_cases hadded : added = true
      · subst hadded
        exact ensures_ok hmid
      · rw [if_neg hadded]
        refine (ih hmid.inBody hrest ?_).mono fun r hr => hmid.trans hr
        split_ifs <;> omega

theorem mem_sortedRanges {range : BitVec 32 × BitVec 32} {ranges : List (BitVec 32 × BitVec 32)} :
    range ∈ sortedRanges ranges ↔ range ∈ ranges := List.mem_insertionSort _

/-- **A round of the loop over the gaps.** -/
theorem Sound.gapRound (hs : s.Sound) {pass : FragmentPass} (h : pass.InBody s) :
    ReadsWithin (s.gapRound pass) (PassStep s pass) := by
  have hranges : ∀ r ∈ sortedRanges pass.emittedRanges, s.IsRange r := fun r hr =>
    h.sect.ranges r (mem_sortedRanges.mp hr)
  refine (hs.scanGaps h.sect hranges (by decide)).bind fun r hr => ?_
  exact ensures_ok (hr.lift h)

end Gaps

/-! ### Continuations -/

section Continuations

variable {s : FragmentScan} {pass : FragmentPass} {range : BitVec 32 × BitVec 32}
  {offset continuationOffset rangeEnd : BitVec 32}

theorem Sound.linksAt (hs : s.Sound) (h : offset.toNat + 4 ≤ s.relocOffset.toNat) :
    ReadsWithin (s.linksAt offset) fun _ => True :=
  (hs.readWord h).bind fun _ _ => ensures_ok trivial

theorem Sound.suffixLinks (hs : s.Sound) (hrange : rangeEnd.toNat ≤ s.relocOffset.toNat)
    (hoffset : continuationOffset.toNat < 2 ^ 31) :
    ReadsWithin (s.suffixLinks rangeEnd continuationOffset) fun _ => True := by
  have hsmall := hs.small
  refine Ensures.foldlM trivial fun n o ho _ => ?_
  have hle : o.toNat + 8 ≤ rangeEnd.toNat :=
    (mem_offsetsTo (by decide) (by omega) hoffset ho).2
  exact (hs.linksAt (by omega)).bind fun links _ => ensures_ok trivial

/-- An offset of a loop over a range: the continuation behind it is in front of the range's end, or
not in the range. -/
theorem continuation_of_mem (hs : s.Sound) (hrange : s.IsRange range)
    (h : offset ∈ offsetsTo 8 range.2 range.1) :
    offset.toNat + 8 ≤ s.relocOffset.toNat ∧ (offset + 8).toNat % 4 = 0 ∧
      (¬range.2 ≤ offset + 8 → s.IsWordOffset (offset + 8)) := by
  have hsmall := hs.small
  obtain ⟨hstart, hstop, hlt, hinside⟩ := hrange
  have hle : offset.toNat + 8 ≤ range.2.toNat :=
    (mem_offsetsTo (by decide) (by omega) (by omega) h).2
  have hmod := mod_of_mem_offsetsWhile hstart h
  have hadd : (offset + 8).toNat = offset.toNat + 8 := toNat_add_small (by omega) (by decide)
  refine ⟨by omega, by omega, fun hin => ?_⟩
  have hin : ¬range.2.toNat ≤ (offset + 8).toNat := hin
  exact ⟨by omega, by omega⟩

theorem Sound.addSuffix (hs : s.Sound) (h : pass.InBody s) (hrange : s.IsRange range)
    (hmem : offset ∈ offsetsTo 8 range.2 range.1) :
    ReadsWithin (s.addSuffix range.2 pass offset) (PassStep s pass) := by
  have hsmall := hs.small
  have hinside := hrange.inside
  obtain ⟨hword, hmod, hcontinuation⟩ := continuation_of_mem hs hrange hmem
  refine (hs.linksAt (by omega)).bind fun links _ => ?_
  dsimp only
  by_cases hcheck : !links ∨ range.2 ≤ offset + 8 ∨ offset + 8 ∈ pass.emittedOffsets
  · rw [if_pos hcheck]
    exact ensures_ok (PassStep.refl h)
  rw [if_neg hcheck]
  simp only [not_or] at hcheck
  obtain ⟨-, hle⟩ := hcontinuation hcheck.2.1
  refine (hs.suffixLinks hinside (by omega)).bind fun n _ => ?_
  split_ifs
  · exact ensures_ok (PassStep.refl h)
  · refine (hs.discoverAndAddFunction h.sect hmod range.2 false).bind fun r hr => ?_
    exact ensures_ok (hr.lift h)

theorem Sound.addSuffixes (hs : s.Sound) (h : pass.InBody s) (hrange : s.IsRange range) :
    ReadsWithin (s.addSuffixes pass range) (PassStep s pass) := by
  unfold FragmentScan.addSuffixes
  split_ifs
  · exact ensures_ok (PassStep.refl h)
  · exact addEach_steps h fun pass hpass o ho => hs.addSuffix hpass hrange ho

theorem Sound.addDynamicContinuation (hs : s.Sound) (h : pass.InBody s) (hrange : s.IsRange range)
    (hcontinuation : s.IsWordOffset continuationOffset) :
    ReadsWithin (s.addDynamicContinuation range pass continuationOffset) (PassStep s pass) := by
  have hsmall := hs.small
  obtain ⟨hmod, hle⟩ := hcontinuation
  refine (hs.findDynamicContinuationBodyStart hrange.inside (by omega) hmod).bind
    fun bodyStart hstart => ?_
  refine (hs.sizeUpToReturn _ _ _).bind fun size? _ => ?_
  split
  · refine (hs.addKnownSize h.sect hstart range.2 hmod).bind fun r hr => ?_
    exact ensures_ok (hr.lift h)
  · exact ensures_ok (PassStep.refl h)

theorem Sound.addParentContinuation (hs : s.Sound) (h : pass.InBody s) (hrange : s.IsRange range)
    (hcontinuation : s.IsWordOffset continuationOffset) :
    ReadsWithin (s.addParentContinuation range pass continuationOffset) (PassStep s pass) := by
  have hsmall := hs.small
  have hle := hcontinuation.2
  refine (hs.looksLikeLargeParentContinuation hrange.inside (by omega)).bind fun likely _ => ?_
  split
  · exact ensures_ok (PassStep.refl h)
  · split
    · rename_i hadd
      exact ensures_ok (h.addDispatchAlias hcontinuation hadd)
    · exact ensures_error nofun

theorem Sound.addContinuation (hs : s.Sound) (h : pass.InBody s) (hrange : s.IsRange range)
    (hmem : offset ∈ offsetsTo 8 range.2 range.1) :
    ReadsWithin (s.addContinuation range pass offset) (PassStep s pass) := by
  obtain ⟨hword, -, hcontinuation⟩ := continuation_of_mem hs hrange hmem
  refine (hs.readWord (by omega)).bind fun word _ => ?_
  dsimp only
  split_ifs with hcheck hjalr
  · exact ensures_ok (PassStep.refl h)
  · simp only [not_or] at hcheck
    exact hs.addDynamicContinuation h hrange (hcontinuation hcheck.2.1)
  · simp only [not_or] at hcheck
    exact hs.addParentContinuation h hrange (hcontinuation hcheck.2.1)

theorem Sound.addContinuations (hs : s.Sound) (h : pass.InBody s) (hrange : s.IsRange range) :
    ReadsWithin (s.addContinuations pass range) (PassStep s pass) := by
  unfold FragmentScan.addContinuations
  split_ifs
  · exact ensures_ok (PassStep.refl h)
  · exact addEach_steps h fun pass hpass o ho => hs.addContinuation hpass hrange ho

/-- **A round of the loop over the continuations.** -/
theorem Sound.continuationRound (hs : s.Sound) (h : pass.InBody s) :
    ReadsWithin (s.continuationRound pass) (PassStep s pass) := by
  have hranges : ∀ r ∈ sortedRanges pass.emittedRanges, s.IsRange r := fun r hr =>
    h.sect.ranges r (mem_sortedRanges.mp hr)
  refine (addEach_steps h fun pass hpass r hr => hs.addSuffixes hpass (hranges r hr)).bind ?_
  rintro ⟨mid, addedSuffix⟩ hmid
  refine (addEach_steps hmid.inBody fun pass hpass r hr =>
    hs.addContinuations hpass (hranges r hr)).bind ?_
  rintro ⟨last, addedContinuation⟩ hlast
  exact ensures_ok (hmid.trans hlast)

end Continuations

/-! ### Seeds -/

section Seeds

variable {s : FragmentScan} {seeds seeds' : List (BitVec 32)} {offset : BitVec 32}

/-- Seeds are offsets of words. -/
def Aligned (seeds : List (BitVec 32)) : Prop := ∀ o ∈ seeds, o.toNat % 4 = 0

theorem aligned_addSeedIfInBody (h : Aligned seeds) : Aligned (s.addSeedIfInBody seeds offset) := by
  unfold addSeedIfInBody
  split_ifs with hcheck
  · exact h
  · simp only [not_or] at hcheck
    intro o ho
    rcases SortedSet.mem_insertInto.mp ho with rfl | ho
    · exact mod_of_and_three (not_not.mp hcheck.2.1)
    · exact h o ho

theorem aligned_addLikelySeed (h : Aligned seeds) (hadd : s.addLikelySeed seeds offset = .ok seeds') :
    Aligned seeds' := by
  obtain ⟨likely, -, hadd⟩ := bind_eq_ok_iff.mp hadd
  cases hadd
  split_ifs
  · exact aligned_addSeedIfInBody h
  · exact h

theorem aligned_addRelocSeed {reloc : Reloc} (h : Aligned seeds)
    (hadd : s.addRelocSeed seeds reloc = .ok seeds') : Aligned seeds' := by
  unfold addRelocSeed at hadd
  split_ifs at hadd
  · cases hadd
    exact h
  · exact aligned_addLikelySeed h hadd
  · cases hadd
    exact h
  · cases hadd
    exact h
  · obtain ⟨word, -, hadd⟩ := bind_eq_ok_iff.mp hadd
    cases hadd
    split_ifs
    · exact h
    · exact aligned_addSeedIfInBody h

/-- The pass starts at words. -/
theorem aligned_seedOffsets {extraEntryOffsets : List (BitVec 32)}
    (h : s.seedOffsets extraEntryOffsets = .ok seeds) : Aligned seeds := by
  obtain ⟨target, -, h⟩ := bind_eq_ok_iff.mp h
  obtain ⟨extra, hextra, h⟩ := bind_eq_ok_iff.mp h
  obtain ⟨last, hlast, h⟩ := bind_eq_ok_iff.mp h
  obtain ⟨_, -, h⟩ := bind_eq_ok_iff.mp h
  cases h
  have hfirst : Aligned extra :=
    foldlM_ok_induction (P := fun _ seeds => Aligned seeds)
      (aligned_addSeedIfInBody fun _ ho => absurd ho List.not_mem_nil)
      (fun _ _ _ _ hseeds _ hadd => aligned_addLikelySeed hseeds hadd) hextra
  exact foldlM_ok_induction (P := fun _ seeds => Aligned seeds) hfirst
    (fun _ _ _ _ hseeds _ hadd => aligned_addRelocSeed hseeds hadd) hlast

/-- **The pass starts in the body**, without aliases. -/
theorem Sound.inBody_of_seed (hs : s.Sound) {context : Context} {aliases : AliasTable}
    {sectionName : Str} {extraEntryOffsets : List (BitVec 32)} {pass : FragmentPass}
    (h : s.seed context aliases sectionName extraEntryOffsets = .ok pass) :
    pass.InBody s ∧ pass.emittedAliasOffsets = [] := by
  obtain ⟨entry, -, h⟩ := bind_eq_ok_iff.mp h
  obtain ⟨seeds, hseeds, h⟩ := bind_eq_ok_iff.mp h
  obtain ⟨sect, hsect, h⟩ := bind_eq_ok_iff.mp h
  cases h
  have haligned := aligned_seedOffsets hseeds
  have hinBody : sect.InBody s := by
    refine foldlM_ok_induction (P := fun _ (sect : BlobSection) => sect.InBody s)
      (s.inBody_section₀ _ _ _ _) ?_ hsect
    intro _ o sect sect' hin ho hadd
    obtain ⟨r, hr, hadd⟩ := bind_eq_ok_iff.mp hadd
    cases hadd
    exact ((hs.discoverAndAddFunction hin (haligned o ho) 0 true).2 r hr).inBody
  exact ⟨⟨hinBody, fun _ ho => absurd ho List.not_mem_nil⟩, rfl⟩

end Seeds

end FragmentScan

/-! ### The loops -/

/-- A code fragment: a body whose size and address were checked. -/
structure CodeFragment extends FragmentScan where
  sound : toFragmentScan.Sound

/-- The offsets of the entries and of the aliases. -/
def FragmentPass.offsets (pass : FragmentPass) : Finset (BitVec 32) :=
  pass.emittedOffsets.toFinset ∪ pass.emittedAliasOffsets.toFinset

/-- The offsets of the entries and of the aliases, as one set, grow. -/
def UnionGrows (before after : FragmentPass) : Prop := before.offsets ⊂ after.offsets

/-- The entries and the aliases are kept, and one of the two sets grows. -/
structure EitherGrows (before after : FragmentPass) : Prop where
  emitted : before.emittedOffsets ⊆ after.emittedOffsets
  aliased : before.emittedAliasOffsets ⊆ after.emittedAliasOffsets
  grows : ¬after.emittedOffsets ⊆ before.emittedOffsets ∨
    ¬after.emittedAliasOffsets ⊆ before.emittedAliasOffsets

/-- **A loop over a fragment ends**: its rounds that go on grow what it has, which are no more offsets
than words in the body, and there are as many of them as a limit at most. -/
structure LoopEnds (s : FragmentScan) (Grows : FragmentPass → FragmentPass → Prop) (limit : Nat)
    (round : FragmentPass → Except Stop (FragmentPass × Bool)) (start : FragmentPass) : Prop where
  grows : ∀ n pass pass', Comes round start n pass → round pass = .ok (pass', true) →
    Grows pass pass'
  words : ∀ n pass, Comes round start n pass → pass.offsets.card ≤ s.relocOffset.toNat / 4
  rounds : ∀ n pass, Comes round start n pass → n ≤ limit
  ends : ∀ bound, limit < bound →
    ReadsWithin (loop round bound start) fun pass? => pass?.isSome = true

/-- **The loops over a fragment end**, from the seeds of the header, of the entries that are handed
over and of the relocations. -/
structure CodeFragment.LoopsEnd (f : CodeFragment) (Grows : FragmentPass → FragmentPass → Prop)
    (context : Context) (aliases : AliasTable) (sectionName : Str)
    (extraEntryOffsets : List (BitVec 32)) : Prop where
  walks : f.WalksEnd
  gaps : ∀ seeded, f.seed context aliases sectionName extraEntryOffsets = .ok seeded →
    LoopEnds f.toFragmentScan UnionGrows (f.relocOffset.toNat / 4) f.gapRound seeded
  continuations : ∀ seeded bound gapped,
    f.seed context aliases sectionName extraEntryOffsets = .ok seeded →
    loop f.gapRound bound seeded = .ok (some gapped) →
    LoopEnds f.toFragmentScan Grows (2 * (f.relocOffset.toNat / 4)) f.continuationRound gapped

section Loops

variable {s : FragmentScan} {pass : FragmentPass}

theorem FragmentPass.InBody.offsets_subset (h : pass.InBody s) : pass.offsets ⊆ s.wordOffsets := by
  intro o ho
  rcases Finset.mem_union.mp ho with ho | ho
  · exact (h.sect.offsets o (List.mem_toFinset.mp ho)).mem
  · exact (h.aliasOffsets o (List.mem_toFinset.mp ho)).mem

theorem FragmentPass.InBody.card_le (h : pass.InBody s) :
    pass.offsets.card ≤ s.relocOffset.toNat / 4 :=
  (Finset.card_le_card h.offsets_subset).trans s.card_wordOffsets_le

/-- The entries and the aliases, counted apart. -/
def FragmentPass.count (pass : FragmentPass) : Nat :=
  pass.emittedOffsets.toFinset.card + pass.emittedAliasOffsets.toFinset.card

theorem FragmentPass.InBody.count_le (h : pass.InBody s) :
    pass.count ≤ 2 * (s.relocOffset.toNat / 4) := by
  have hemitted := (Finset.card_le_card fun o ho =>
    (h.sect.offsets o (List.mem_toFinset.mp ho)).mem).trans s.card_wordOffsets_le
  have haliased := (Finset.card_le_card fun o ho =>
    (h.aliasOffsets o (List.mem_toFinset.mp ho)).mem).trans s.card_wordOffsets_le
  unfold count
  omega

theorem PassStep.eitherGrows {pass' : FragmentPass} (h : PassStep s pass (pass', true)) :
    EitherGrows pass pass' where
  emitted := h.emitted
  aliased := h.aliased
  grows := (h.fresh rfl).imp (fun ⟨_, ho, hnew⟩ hsub => hnew (hsub ho))
    fun ⟨_, ho, hnew⟩ hsub => hnew (hsub ho)

theorem toFinset_subset {l l' : List (BitVec 32)} (h : l ⊆ l') : l.toFinset ⊆ l'.toFinset :=
  fun _ ho => List.mem_toFinset.mpr (h (List.mem_toFinset.mp ho))

theorem toFinset_ssubset {l l' : List (BitVec 32)} (h : l ⊆ l') (hnew : ¬l' ⊆ l) :
    l.toFinset ⊂ l'.toFinset :=
  ⟨toFinset_subset h, fun hsub => hnew fun _ ho => List.mem_toFinset.mp
    (hsub (List.mem_toFinset.mpr ho))⟩

/-- What grows is counted. -/
theorem EitherGrows.count_lt {pass' : FragmentPass} (h : EitherGrows pass pass') :
    pass.count < pass'.count := by
  have hemitted := Finset.card_le_card (toFinset_subset h.emitted)
  have haliased := Finset.card_le_card (toFinset_subset h.aliased)
  unfold FragmentPass.count
  rcases h.grows with hnew | hnew
  · have hlt := Finset.card_lt_card (toFinset_ssubset h.emitted hnew)
    omega
  · have hlt := Finset.card_lt_card (toFinset_ssubset h.aliased hnew)
    omega

/-- **A round of the gaps that adds something grows the offsets**, as there are no aliases yet. -/
theorem FragmentScan.Sound.gapRound_grows (hs : s.Sound) (h : pass.InBody s)
    (hnone : pass.emittedAliasOffsets = []) {r : FragmentPass × Bool}
    (hround : s.gapRound pass = .ok r) :
    r.1.InBody s ∧ r.1.emittedAliasOffsets = [] ∧ (r.2 = true → UnionGrows pass r.1) := by
  have hstep := (hs.gapRound h).2 r hround
  have hkept : r.1.emittedAliasOffsets = [] := by
    obtain ⟨sect, -, hround⟩ := bind_eq_ok_iff.mp hround
    cases hround
    exact hnone
  refine ⟨hstep.inBody, hkept, fun hadded => ?_⟩
  have hfresh := hstep.fresh hadded
  rw [hkept] at hfresh
  obtain ⟨o, ho, hnew⟩ := hfresh.resolve_right fun ⟨_, ho, _⟩ => absurd ho List.not_mem_nil
  have hssubset := toFinset_ssubset hstep.emitted fun hsub => hnew (hsub ho)
  unfold UnionGrows FragmentPass.offsets
  rwa [hkept, hnone, List.toFinset_nil, Finset.union_empty, Finset.union_empty]

/-- The loop over the gaps has its entries as a measure. -/
theorem FragmentScan.Sound.gaps_measured (hs : s.Sound) :
    Measured Stop.outOfBounds s.gapRound
      (fun pass => pass.InBody s ∧ pass.emittedAliasOffsets = [])
      (fun pass => pass.offsets.card) (s.relocOffset.toNat / 4) where
  step pass h := by
    refine ⟨(hs.gapRound h.1).1, fun r hr => ?_⟩
    obtain ⟨hinBody, hnone, hgrows⟩ := hs.gapRound_grows h.1 h.2 hr
    exact ⟨⟨hinBody, hnone⟩, fun hadded => Finset.card_lt_card (hgrows hadded)⟩
  limited pass h := h.1.card_le

/-- The loop over the continuations has the entries and the aliases as a measure. -/
theorem FragmentScan.Sound.continuations_measured (hs : s.Sound) :
    Measured Stop.outOfBounds s.continuationRound (fun pass => pass.InBody s)
      FragmentPass.count (2 * (s.relocOffset.toNat / 4)) where
  step pass h := by
    refine (hs.continuationRound h).mono fun r hr => ⟨hr.inBody, fun hadded => ?_⟩
    obtain ⟨pass', added⟩ := r
    obtain rfl : added = true := hadded
    exact hr.eitherGrows.count_lt
  limited pass h := h.count_le

end Loops

/-- **The loops over every fragment end.** A round that goes on adds an entry or an alias; an alias
can become an entry. -/
theorem CodeFragment.loopsEnd (f : CodeFragment) (context : Context) (aliases : AliasTable)
    (sectionName : Str) (extraEntryOffsets : List (BitVec 32)) :
    f.LoopsEnd EitherGrows context aliases sectionName extraEntryOffsets where
  walks := f.sound.walksEnd
  gaps seeded hseeded := by
    have hmeasured := f.sound.gaps_measured
    have hstart := f.sound.inBody_of_seed hseeded
    refine {
      grows := fun n pass pass' hcomes hround => ?_
      words := fun n pass hcomes => (hmeasured.inv_of_comes hstart hcomes).1.card_le
      rounds := fun n pass hcomes => hmeasured.rounds_le hstart hcomes
      ends := fun bound hbound => ?_ }
    · obtain ⟨hinBody, hnone⟩ := hmeasured.inv_of_comes hstart hcomes
      exact (f.sound.gapRound_grows hinBody hnone hround).2.2 rfl
    · refine (hmeasured.loop_ends hstart (by omega)).mono ?_
      rintro _ ⟨pass, rfl, -⟩
      rfl
  continuations seeded bound gapped hseeded hgapped := by
    have hmeasured := f.sound.continuations_measured
    have hstart : gapped.InBody f.toFragmentScan :=
      (f.sound.gaps_measured.inv_of_loop (f.sound.inBody_of_seed hseeded) hgapped).1
    refine {
      grows := fun n pass pass' hcomes hround => ?_
      words := fun n pass hcomes => (hmeasured.inv_of_comes hstart hcomes).card_le
      rounds := fun n pass hcomes => hmeasured.rounds_le hstart hcomes
      ends := fun bound hbound => ?_ }
    · have hinv := hmeasured.inv_of_comes hstart hcomes
      exact ((f.sound.continuationRound hinv).2 _ hround).eitherGrows
    · refine (hmeasured.loop_ends hstart (by omega)).mono ?_
      rintro _ ⟨pass, rfl, -⟩
      rfl

/-! ### An alias that becomes an entry -/

section Skips

variable {s : FragmentScan} {range : BitVec 32 × BitVec 32}

/-- Steps that add nothing. -/
theorem addEach_append_of_skip {α : Type}
    {step : FragmentPass → α → Except Stop (FragmentPass × Bool)} {l l' : List α}
    (h : ∀ pass, ∀ a ∈ l', step pass a = .ok (pass, false)) (pass : FragmentPass) :
    addEach step (l ++ l') pass = addEach step l pass := by
  unfold addEach
  rw [List.foldlM_append]
  refine Eq.trans (congrArg _ (funext fun r => ?_)) (bind_pure _)
  induction l' with
  | nil => rfl
  | cons a l' ih =>
    rw [List.foldlM_cons, h r.1 a List.mem_cons_self, ok_bind]
    dsimp only
    rw [Bool.or_false]
    exact ih fun pass a ha => h pass a (List.mem_cons_of_mem _ ha)

/-- A word that is no call has no continuation. -/
theorem FragmentScan.addContinuation_of_plain {offset word : BitVec 32}
    (hword : s.readWord offset = .ok word)
    (hplain : (s.decoder.isValid word && s.doesLink word) = false) (pass : FragmentPass) :
    s.addContinuation range pass offset = .ok (pass, false) := by
  unfold FragmentScan.addContinuation
  rw [hword, ok_bind]
  dsimp only
  rw [if_pos (.inl (by rw [hplain]; rfl))]
  rfl

end Skips

/-- The bytes of words. -/
def wordsBytes (words : List (BitVec 32)) : List (BitVec 8) :=
  words.flatMap fun word => (List.range 4).map (wordByte word)

/-- The header, and a branch to the end, a dynamic call, a call, and a return. -/
def farHead : List (BitVec 8) :=
  wordsBytes [0x0B400008, 0, 0x46524147, 0x4D454E54, 0x20, 0x848, 0x84C, 0x848,
    0x10800207, 0, 0x0320F809, 0, 0x0C000000, 0, 0x8FBF0000, 0x03E00008, 0]

/-- A function with two returns that are far apart, and no relocations. -/
def farFragment : List (BitVec 8) :=
  farHead ++ (List.replicate 2044 0 ++ wordsBytes [0x03E00008, 0, 0])

def farScan : FragmentScan where
  decoder := Decoder.ofId sampleId
  hasBranchLabel w := (sampleId w).isBranch
  doesLink w := sampleId w ∈ [InstrId.jal, .jalr, .bltzal, .bgezal]
  blob := farFragment
  relocOffset := 0x848
  vram := 0x8D000000
  sectionIndex := 0
  syntheticRom := 0xFE000000
  relocs := []

theorem length_farHead : farHead.length = 68 := rfl

theorem length_farFragment : farFragment.length = 0x84C := by
  rw [farFragment, List.length_append, length_farHead, List.length_append, List.length_replicate]
  rfl

theorem farScan_sound : farScan.Sound where
  body := by rw [show farScan.blob.length = 0x84C from length_farFragment]; decide
  small := by decide
  length := by rw [show farScan.blob.length = 0x84C from length_farFragment]; decide
  vram := by decide

def farCode : CodeFragment := { farScan with sound := farScan_sound }

/-- Between the returns there are no instructions but `nop`. -/
theorem farFragment_zero {i : Nat} (h : 68 ≤ i) (hlt : i < 2112) : farFragment[i]? = some 0 := by
  unfold farFragment
  rw [List.getElem?_append_right (by rw [length_farHead]; omega), length_farHead,
    List.getElem?_append_left (by rw [List.length_replicate]; omega), List.getElem?_replicate,
    if_pos (by omega)]

/-- The fragment ends with the second return. -/
theorem farFragment_tail (k : Nat) :
    farFragment[2112 + k]? = (wordsBytes [0x03E00008, 0, 0])[k]? := by
  unfold farFragment
  rw [List.getElem?_append_right (by rw [length_farHead]; omega), length_farHead,
    List.getElem?_append_right (by rw [List.length_replicate]; omega), List.length_replicate,
    show 2112 + k - 68 - 2044 = k by omega]

/-- Behind the first return, there is no call. -/
theorem farScan_plain {offset : BitVec 32} (hmod : offset.toNat % 4 = 0) (hlow : 68 ≤ offset.toNat)
    (hhigh : offset.toNat + 8 ≤ 0x848) : ∃ word, farScan.readWord offset = .ok word ∧
      (farScan.decoder.isValid word && farScan.doesLink word) = false := by
  have hread : ∀ {offset word : BitVec 32}, romWord farFragment offset.toNat = some word →
      farScan.readWord offset = .ok word := by
    intro offset word hword
    unfold FragmentScan.readWord
    rw [show farScan.blob = farFragment from rfl, hword]
    rfl
  rcases Nat.lt_or_ge offset.toNat 0x840 with hlt | hge
  -- between the returns
  · refine ⟨0, hread ?_, by decide⟩
    unfold romWord
    rw [farFragment_zero (by omega) (by omega), farFragment_zero (by omega) (by omega),
      farFragment_zero (by omega) (by omega), farFragment_zero (by omega) (by omega)]
    rfl
  -- the second return, which is a jump that does not link
  · obtain rfl : offset = 0x840 := BitVec.eq_of_toNat_eq (by
      rw [show (0x840 : BitVec 32).toNat = 0x840 from rfl]
      omega)
    refine ⟨0x03E00008, hread ?_, by decide⟩
    change romWord farFragment 2112 = _
    unfold romWord
    rw [farFragment_tail 1, farFragment_tail 2, farFragment_tail 3,
      show farFragment[2112]? = _ from farFragment_tail 0]
    rfl

/-- The offsets up to the first return. -/
def farOffsets : List (BitVec 32) := [0x20, 0x24, 0x28, 0x2C, 0x30, 0x34, 0x38, 0x3C, 0x40]

theorem farScan_offsets : ∃ rest, offsetsTo 8 0x848 0x20 = farOffsets ++ rest ∧
    ∀ o ∈ rest, o.toNat % 4 = 0 ∧ 68 ≤ o.toNat ∧ o.toNat + 8 ≤ 0x848 := by
  refine ⟨offsetsWhile (fun offset => offset + 8 ≤ (0x848 : BitVec 32)) (2 ^ 30 - 9) 0x44, rfl,
    fun o ho => ?_⟩
  have hmod := mod_of_mem_offsetsWhile (by decide) ho
  have hcond : ∀ o : BitVec 32, o.toNat < 2 ^ 31 → decide (o + 8 ≤ 0x848) = true →
      o.toNat + 8 ≤ 0x848 := by
    intro o ho hle
    have hle : (o + 8).toNat ≤ (0x848 : BitVec 32).toNat := of_decide_eq_true hle
    rwa [toNat_add_small ho (by decide)] at hle
  obtain ⟨hle, hlt, hgoes⟩ := mem_offsetsWhile (fun o ho hgoes => by
    have := hcond o ho hgoes
    omega) (by decide) ho
  exact ⟨hmod, hle, hcond o hlt hgoes⟩

/-- The large range is only scanned up to its first return. -/
theorem farScan_addContinuations (pass : FragmentPass) :
    farScan.addContinuations pass (0x20, 0x848) =
      addEach (farScan.addContinuation (0x20, 0x848)) farOffsets pass := by
  obtain ⟨rest, hoffsets, hrest⟩ := farScan_offsets
  unfold FragmentScan.addContinuations
  rw [if_neg (by decide), hoffsets]
  refine addEach_append_of_skip (fun pass o ho => ?_) pass
  obtain ⟨hmod, hlow, hhigh⟩ := hrest o ho
  obtain ⟨word, hword, hplain⟩ := farScan_plain hmod hlow hhigh
  exact farScan.addContinuation_of_plain hword hplain pass

/-- The round, with the large range scanned up to its first return. -/
def farRound (pass : FragmentPass) : Except Stop (FragmentPass × Bool) := do
  let ranges := sortedRanges pass.emittedRanges
  let (pass, addedSuffix) ← addEach farScan.addSuffixes ranges pass
  let (pass, addedContinuation) ← addEach (fun pass range =>
    if range = (0x20, 0x848) then addEach (farScan.addContinuation (0x20, 0x848)) farOffsets pass
    else farScan.addContinuations pass range) ranges pass
  return (pass, addedSuffix || addedContinuation)

theorem continuationRound_farScan : farScan.continuationRound = farRound := by
  have heach : farScan.addContinuations = fun pass range =>
      if range = (0x20, 0x848) then
        addEach (farScan.addContinuation (0x20, 0x848)) farOffsets pass
      else farScan.addContinuations pass range := by
    funext pass range
    split_ifs with hrange
    · rw [hrange, farScan_addContinuations]
    · rfl
  funext pass
  unfold FragmentScan.continuationRound farRound
  rw [← heach]

/-- The offsets after two rounds over the continuations. -/
def farOffsetsAfter : Except Stop (List Bool × List (List (BitVec 32))) := do
  let seeded ← farScan.seed Context.empty ⟨[], []⟩ [] []
  let (gapped, inGap) ← farScan.gapRound seeded
  let (first, addedFirst) ← farRound gapped
  let (second, addedSecond) ← farRound first
  return ([inGap, addedFirst, addedSecond],
    [first.emittedOffsets, first.emittedAliasOffsets, second.emittedOffsets,
      second.emittedAliasOffsets])

theorem farOffsetsAfter_eq : farOffsetsAfter =
    .ok ([false, true, true], [[0x30, 0x30, 0x20], [0x38], [0x38, 0x30, 0x30, 0x20], [0x38]]) := by
  decide +kernel

/-- In the first round the continuation of the second call is an alias; in the second one it is an
entry, and nothing else is added. -/
theorem aliases_become_entries :
    ¬∀ (f : CodeFragment) (context : Context) (aliases : AliasTable) (sectionName : Str)
      (extraEntryOffsets : List (BitVec 32)),
      f.LoopsEnd UnionGrows context aliases sectionName extraEntryOffsets := by
  intro h
  obtain ⟨seeded, hseeded, hrun⟩ := bind_eq_ok_iff.mp farOffsetsAfter_eq
  obtain ⟨⟨gapped, inGap⟩, hgapped, hrun⟩ := bind_eq_ok_iff.mp hrun
  obtain ⟨⟨first, addedFirst⟩, hfirst, hrun⟩ := bind_eq_ok_iff.mp hrun
  obtain ⟨⟨second, addedSecond⟩, hsecond, hrun⟩ := bind_eq_ok_iff.mp hrun
  simp only [pure, Except.pure, Except.ok.injEq, Prod.mk.injEq, List.cons.injEq, and_true] at hrun
  obtain ⟨⟨rfl, rfl, rfl⟩, hemitted, haliased, hemitted', haliased'⟩ := hrun
  rw [← continuationRound_farScan] at hfirst hsecond
  have hloop : loop farScan.gapRound 1 seeded = .ok (some gapped) := by
    unfold Rounds.loop
    rw [hgapped]
  have hends := (h farCode Context.empty ⟨[], []⟩ [] []).continuations seeded 1 gapped hseeded hloop
  have hgrows := hends.grows 1 first second (Comes.start.next hfirst) hsecond
  unfold UnionGrows FragmentPass.offsets at hgrows
  rw [hemitted, haliased, hemitted', haliased'] at hgrows
  exact hgrows.2 (by decide)

end N64Recomp
