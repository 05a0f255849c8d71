import N64Recomp.Decompressed.FragmentScan

/-!
# The heuristics for gaps and continuations stay in the body

What is left of the reads of the scan: the leaves that are chained in front of a frame, the code that
falls through into a function, and the continuations behind calls.

## Main results

* `FragmentScan.Sound.looksLikeLeafGapFunctionEntry`
* `FragmentScan.Sound.looksLikeFallthroughGapFunctionEntry`
* `FragmentScan.Sound.findDynamicContinuationBodyStart`: the start that is found is one of a word
* `FragmentScan.Sound.looksLikeLargeParentContinuation`
-/

namespace N64Recomp

open Compression Except

namespace FragmentScan

/-- The check that an offset is one of a word. -/
theorem mod_of_and_three {offset : BitVec 32} (h : offset &&& 3 = 0) : offset.toNat % 4 = 0 := by
  have hand := congrArg BitVec.toNat h
  rw [BitVec.toNat_and, show (3 : BitVec 32).toNat = 2 ^ 2 - 1 from rfl,
    Nat.and_two_pow_sub_one_eq_mod] at hand
  exact hand

theorem and_three_of_mod {offset : BitVec 32} (h : offset.toNat % 4 = 0) : offset &&& 3 = 0 := by
  apply BitVec.eq_of_toNat_eq
  rw [BitVec.toNat_and, show (3 : BitVec 32).toNat = 2 ^ 2 - 1 from rfl,
    Nat.and_two_pow_sub_one_eq_mod]
  exact h

section Leaves

variable {s : FragmentScan} {offset gapBegin gapEnd cursor funcEnd : BitVec 32} {size : Nat}

/-- A leaf is only found between two words. -/
theorem aligned_of_leaf (h : s.discoverBoundedNoLinkLeaf offset gapEnd = .ok (some size)) :
    offset.toNat % 4 = 0 ∧ gapEnd.toNat % 4 = 0 := by
  unfold FragmentScan.discoverBoundedNoLinkLeaf at h
  split_ifs at h with hcheck
  · cases h
  · simp only [not_or] at hcheck
    exact ⟨mod_of_and_three (not_not.mp hcheck.2.2.1), mod_of_and_three (not_not.mp hcheck.2.2.2)⟩

/-- A leaf that is found is one of the gap. -/
theorem Sound.leaf (hs : s.Sound) : ReadsWithin (s.discoverBoundedNoLinkLeaf offset gapEnd)
    fun size? => ∀ size, size? = some size → offset.toNat % 4 = 0 ∧ gapEnd.toNat % 4 = 0 := by
  have hreads : InBounds (s.discoverBoundedNoLinkLeaf offset gapEnd) :=
    hs.discoverBoundedNoLinkLeaf.1
  refine (ensures_of_ne hreads).mono ?_
  rintro _ h size rfl
  exact aligned_of_leaf h

theorem isLeafSize_iff : isLeafSize offset gapEnd size = true ↔
    8 ≤ size ∧ size ≤ 0x100 ∧ size % 4 = 0 ∧ offset.toNat + size ≤ gapEnd.toNat := by
  unfold isLeafSize
  exact decide_eq_true_iff

/-- The end of a leaf. -/
theorem toNat_leafEnd (hs : s.Sound) (hgap : gapEnd.toNat ≤ s.relocOffset.toNat)
    (h : isLeafSize offset gapEnd size = true) :
    (offset + BitVec.ofNat 32 size).toNat = offset.toNat + size := by
  have hsmall := hs.small
  obtain ⟨-, -, -, hend⟩ := isLeafSize_iff.mp h
  rw [BitVec.toNat_add, BitVec.toNat_ofNat, Nat.mod_eq_of_lt (a := size) (by omega),
    Nat.mod_eq_of_lt (by omega)]

/-- **A chain of leaves is read in the gap**, and then the frame behind it. -/
theorem Sound.validAdjacentLeafChainToFrame (hs : s.Sound)
    (hgap : gapEnd.toNat ≤ s.relocOffset.toNat) (leafCount : Nat) (hcursor : cursor.toNat < 2 ^ 31) :
    ReadsWithin (s.validAdjacentLeafChainToFrame gapEnd leafCount cursor) fun _ => True := by
  have hsmall := hs.small
  induction leafCount generalizing cursor with
  | zero => exact ensures_ok trivial
  | succ leafCount ih =>
    unfold FragmentScan.validAdjacentLeafChainToFrame
    split_ifs with hend hbehind
    · exact hs.startsStackFrameAt (by omega)
    · exact ensures_ok trivial
    · have hword : cursor.toNat + 8 ≤ gapEnd.toNat :=
        word_le_of_not_lt (by decide) hcursor (not_or.mp hbehind).2
      refine (hs.startsLeaf (by omega)).bind fun starts _ => ?_
      split_ifs
      · exact ensures_ok trivial
      · refine hs.leaf.bind fun size? _ => ?_
        split
        · exact ensures_ok trivial
        · rename_i leafSize _
          split_ifs with hsize
          · exact ensures_ok trivial
          · have hsize : isLeafSize cursor gapEnd leafSize = true := by simpa using hsize
            have hleafEnd := toNat_leafEnd hs hgap hsize
            obtain ⟨hmin, -, -, hle⟩ := isLeafSize_iff.mp hsize
            refine (hs.readBeforeEnd (by omega) (by omega)).bind fun last _ => ?_
            split_ifs
            · exact ensures_ok trivial
            · exact ih (by omega)

theorem Sound.followsInitialLeaf (hs : s.Sound) (hgap : gapEnd.toNat ≤ s.relocOffset.toNat)
    (hfunc : funcEnd.toNat % 4 = 0) (hmod : gapEnd.toNat % 4 = 0) :
    ReadsWithin (s.followsInitialLeaf offset funcEnd gapEnd) fun _ => True := by
  unfold FragmentScan.followsInitialLeaf
  split_ifs with h
  · have hlt : funcEnd.toNat < gapEnd.toNat := h.2
    exact (hs.readWord (by omega)).bind fun word _ => ensures_ok trivial
  · exact ensures_ok trivial

/-- **The checks of a leaf stay in the gap.** -/
theorem Sound.isLeafGapFunction (hs : s.Sound) (hgap : gapEnd.toNat ≤ s.relocOffset.toNat)
    (hoffset : offset.toNat % 4 = 0) (hmod : gapEnd.toNat % 4 = 0) :
    ReadsWithin (s.isLeafGapFunction offset gapBegin gapEnd size) fun _ => True := by
  have hsmall := hs.small
  unfold FragmentScan.isLeafGapFunction
  split_ifs with hnot
  · exact ensures_ok trivial
  · have hsize : isLeafSize offset gapEnd size = true := by simpa using hnot
    have hend := toNat_leafEnd hs hgap hsize
    obtain ⟨hmin, -, hsizeMod, hle⟩ := isLeafSize_iff.mp hsize
    have hchain : ReadsWithin (s.startsAdjacentLeafChain offset gapBegin gapEnd) fun _ => True := by
      unfold startsAdjacentLeafChain
      split_ifs
      · exact hs.validAdjacentLeafChainToFrame hgap 16 (by omega)
      · exact ensures_ok trivial
    refine hchain.bind fun chain _ => ?_
    split
    · exact ensures_ok trivial
    · refine (hs.followsInitialLeaf hgap (by omega) hmod).bind fun follows _ => ?_
      split
      · exact ensures_ok trivial
      · refine (hs.readBeforeEnd (by omega) (by omega)).bind fun last _ => ?_
        split_ifs
        · exact ensures_ok trivial
        · exact ensures_ok trivial
        · refine (hs.hasLinkInstructionInRange (by omega) (by omega)).bind fun links _ => ?_
          exact ensures_ok trivial

/-- **The heuristic for leaves stays in the gap.** -/
theorem Sound.looksLikeLeafGapFunctionEntry (hs : s.Sound)
    (hgap : gapEnd.toNat ≤ s.relocOffset.toNat) (hoffset : offset.toNat < 2 ^ 31) :
    ReadsWithin (s.looksLikeLeafGapFunctionEntry offset gapBegin gapEnd) fun _ => True := by
  unfold FragmentScan.looksLikeLeafGapFunctionEntry
  split_ifs with hcheck
  · exact ensures_ok trivial
  · exact ensures_ok trivial
  · rw [not_or] at hcheck
    have hword : offset.toNat + 8 ≤ gapEnd.toNat :=
      word_le_of_not_lt (by decide) hoffset hcheck.2
    refine (hs.startsLeaf (by omega)).bind fun starts _ => ?_
    split_ifs
    · exact ensures_ok trivial
    · refine hs.leaf.bind fun size? hleaf => ?_
      split
      · exact ensures_ok trivial
      · obtain ⟨hmod, hgapMod⟩ := hleaf _ rfl
        refine (hs.isLeafGapFunction hgap hmod hgapMod).bind fun isLeaf _ => ?_
        exact ensures_ok trivial

end Leaves

section Continuations

variable {s : FragmentScan} {offset gapEnd overlapEnd entryOffset rangeStart rangeEnd : BitVec 32}

/-- **The heuristic for code that falls through stays in the body.** -/
theorem Sound.looksLikeFallthroughGapFunctionEntry (hs : s.Sound)
    (hgap : gapEnd.toNat ≤ s.relocOffset.toNat) (hoffset : offset.toNat < 2 ^ 31) :
    ReadsWithin (s.looksLikeFallthroughGapFunctionEntry offset gapEnd overlapEnd)
      fun _ => True := by
  have hsmall := hs.small
  unfold FragmentScan.looksLikeFallthroughGapFunctionEntry
  split_ifs with hcheck
  · exact ensures_ok trivial
  · simp only [not_or] at hcheck
    have hframe : gapEnd.toNat + 4 ≤ s.relocOffset.toNat :=
      word_le_of_not_lt (by decide) (by omega) hcheck.2.2.2.1
    refine (hs.readWord hframe).bind fun nextWord _ => ?_
    split_ifs
    · exact ensures_ok trivial
    · have hstraight : ReadsWithin ((offsetsTo 4 gapEnd offset).allM s.startsLeaf)
          fun _ => True := by
        refine Ensures.allM fun cur hcur => hs.startsLeaf ?_
        have hle : cur.toNat + 4 ≤ gapEnd.toNat :=
          (mem_offsetsTo (by decide) (by omega) hoffset hcur).2
        omega
      refine hstraight.bind fun straight _ => ?_
      split_ifs
      · exact ensures_ok trivial
      · exact (hs.sizeUpToReturn _ _ _).bind fun funcSize _ => ensures_ok trivial

theorem mod_lowerBodyStart (entryOffset rangeStart scan scanWord : BitVec 32) {bodyStart : BitVec 32}
    (h : bodyStart.toNat % 4 = 0) :
    (s.lowerBodyStart entryOffset rangeStart scan scanWord bodyStart).toNat % 4 = 0 := by
  unfold lowerBodyStart
  split
  · split_ifs with htarget
    · exact mod_of_and_three htarget.2.2.1
    · exact h
  · exact h

/-- The start that is found is one of a word. -/
theorem Sound.bodyStartLoop (hs : s.Sound) {scans : List (BitVec 32)}
    (hscans : ∀ o ∈ scans, o.toNat + 4 ≤ s.relocOffset.toNat) {bodyStart : BitVec 32}
    (hstart : bodyStart.toNat % 4 = 0) :
    ReadsWithin (s.bodyStartLoop entryOffset rangeStart scans bodyStart)
      fun start => start.toNat % 4 = 0 := by
  induction scans generalizing bodyStart with
  | nil => exact ensures_ok hstart
  | cons scan rest ih =>
    obtain ⟨hscan, hrest⟩ := List.forall_mem_cons.mp hscans
    unfold FragmentScan.bodyStartLoop
    refine (hs.readWord hscan).bind fun scanWord _ => ?_
    have hmod := mod_lowerBodyStart (s := s) entryOffset rangeStart scan scanWord hstart
    split_ifs
    · exact ensures_ok hstart
    · exact ensures_ok hmod
    · exact ih hrest hmod

/-- **The body of a continuation is looked for in the range.** -/
theorem Sound.findDynamicContinuationBodyStart (hs : s.Sound)
    (hrange : rangeEnd.toNat ≤ s.relocOffset.toNat) (hentry : entryOffset.toNat < 2 ^ 30)
    (hmod : entryOffset.toNat % 4 = 0) :
    ReadsWithin (s.findDynamicContinuationBodyStart entryOffset rangeStart rangeEnd)
      fun start => start.toNat % 4 = 0 := by
  have hsmall := hs.small
  refine hs.bodyStartLoop (fun o ho => ?_) hmod
  have hadd : (entryOffset + 0x800).toNat = entryOffset.toNat + 0x800 :=
    toNat_add_small (by omega) (by decide)
  split_ifs at ho with hlt
  · have hlt : (entryOffset + 0x800).toNat < rangeEnd.toNat := hlt
    have hle : o.toNat + 4 ≤ (entryOffset + 0x800).toNat :=
      (mem_offsetsTo (by decide) (by omega) (by omega) ho).2
    omega
  · have hle : o.toNat + 4 ≤ rangeEnd.toNat :=
      (mem_offsetsTo (by decide) (by omega) (by omega) ho).2
    omega

/-- **The heuristic for continuations stays in the body.** -/
theorem Sound.looksLikeLargeParentContinuation (hs : s.Sound)
    (hrange : rangeEnd.toNat ≤ s.relocOffset.toNat) (hoffset : offset.toNat < 2 ^ 31) :
    ReadsWithin (s.looksLikeLargeParentContinuation offset rangeEnd) fun _ => True := by
  unfold FragmentScan.looksLikeLargeParentContinuation
  split_ifs with hcheck
  · exact ensures_ok trivial
  · rw [not_or] at hcheck
    have hword : offset.toNat + 8 ≤ rangeEnd.toNat :=
      word_le_of_not_lt (by decide) hoffset hcheck.2
    refine (hs.readWord (by omega)).bind fun firstWord _ => ?_
    split_ifs
    · exact ensures_ok trivial
    · exact ensures_ok trivial
    · exact (hs.sizeUpToReturn _ _ _).bind fun funcSize _ => ensures_ok trivial

end Continuations

end FragmentScan

end N64Recomp
