import Mathlib.Data.List.Sort
import Mathlib.Data.List.Nodup
import Mathlib.Data.List.TakeWhile
import N64Recomp.Context.Types

/-!
# The index of executable sections

The pass that looks for code pointers in the ROM asks of every word which overlay sections hold the
address it spells. The sections are put into an index that is sorted by their starts; an address
is looked up from the last start that is not behind it, backwards, until a start is further away
than any section is long.

## Main definitions

* `executableRanges`: the ranges that go into the index, in the order of the sections
* `ExecutableIndex`: the ranges in an order that `std::sort` can leave them in
* `ExecutableIndex.findIndexedExecutableSections`: the search
* `scanExecutableSections`: the sections that hold an address, one after the other

## Main results

* `filter_takeWhile_of_pairwise`: a search that stops early finds what the whole list holds
* `findIndexedExecutableSections_perm`: the search finds what the scan finds
* `findIndexedExecutableSections_correct`
-/

namespace N64Recomp

/-- A search that stops at the first item too far away misses nothing: the items behind it are
too far away as well, and no item that is looked for is. -/
theorem filter_takeWhile_of_pairwise {α : Type} {near wanted : α → Bool} {l : List α}
    (hsorted : l.Pairwise fun a b => near b → near a) (hnear : ∀ x ∈ l, wanted x → near x) :
    (l.takeWhile near).filter wanted = l.filter wanted := by
  induction hsorted with
  | nil => rfl
  | @cons a l hfar _ ih =>
    by_cases ha : near a = true
    · rw [List.takeWhile_cons_of_pos ha, List.filter_cons, List.filter_cons,
        ih fun x hx => hnear x (List.mem_cons_of_mem a hx)]
    · -- the search stops here
      rw [List.takeWhile_cons_of_neg ha, List.filter_nil, eq_comm, List.filter_eq_nil_iff]
      intro x hx hwanted
      have hxnear := hnear x hx hwanted
      rcases List.mem_cons.mp hx with rfl | hx
      · exact ha hxnear
      · exact ha (hfar x hx hxnear)

/-! ## The index -/

def isResidentTextSection (sect : Section) : Bool := sect.name = ascii ".text"

/-- The sections that the search looks for: overlays of code. -/
def Section.isOverlayCode (sect : Section) : Bool :=
  sect.executable && sect.relocatable && !isResidentTextSection sect

/-- A section holds an address: the end is a sum in 32 bits. -/
def Section.holds (sect : Section) (targetVram : BitVec 32) : Bool :=
  sect.ramAddr ≤ targetVram && targetVram < sect.ramAddr + sect.size

structure ExecutableRange where
  start : BitVec 32
  stop : BitVec 32
  sectionIndex : Nat
  deriving DecidableEq, Repr

/-- The comparison that the ranges are sorted by. -/
def ExecutableRange.before (lhs rhs : ExecutableRange) : Bool :=
  if lhs.start ≠ rhs.start then lhs.start < rhs.start else lhs.stop < rhs.stop

def ExecutableRange.ofSection (sect : Section × Nat) : ExecutableRange :=
  ⟨sect.1.ramAddr, sect.1.ramAddr + sect.1.size, sect.2⟩

def executableRanges (sections : List Section) : List ExecutableRange :=
  (sections.zipIdx.filter fun sect => sect.1.isOverlayCode).map ExecutableRange.ofSection

/-- The index after `std::sort`: the ranges in an order in which none comes before one in front of
it. Where two ranges compare equal, either may be in front. -/
structure ExecutableIndex (sections : List Section) where
  ranges : List ExecutableRange
  perm : ranges.Perm (executableRanges sections)
  sorted : ranges.Pairwise fun a b => ¬ b.before a

theorem ExecutableRange.before_iff {a b : ExecutableRange} :
    a.before b ↔ a.start.toNat < b.start.toNat ∨
      a.start.toNat = b.start.toNat ∧ a.stop.toNat < b.stop.toNat := by
  unfold ExecutableRange.before
  rw [BitVec.toNat_inj]
  split_ifs with hne
  · simp [BitVec.lt_def, hne]
  · simp [BitVec.lt_def, not_not.mp hne]

/-- The order that the comparison leaves the ranges in. -/
def ExecutableRange.NotAfter (a b : ExecutableRange) : Prop := ¬ b.before a

instance : DecidableRel ExecutableRange.NotAfter := fun _ _ => inferInstanceAs (Decidable (¬ _))

instance : Std.Total ExecutableRange.NotAfter where
  total a b := by
    simp only [ExecutableRange.NotAfter, ExecutableRange.before_iff]
    omega

instance : IsTrans ExecutableRange ExecutableRange.NotAfter where
  trans a b c := by
    simp only [ExecutableRange.NotAfter, ExecutableRange.before_iff]
    omega

/-- The index as a stable sort leaves it. -/
def executableIndex (sections : List Section) : ExecutableIndex sections where
  ranges := (executableRanges sections).insertionSort ExecutableRange.NotAfter
  perm := List.perm_insertionSort _ _
  sorted := List.pairwise_insertionSort ExecutableRange.NotAfter _

/-- The loop of the search over the ranges in front of the iterator, the nearest one first. -/
def collectMatches (targetVram : BitVec 32) : List ExecutableRange → List Nat
  | [] => []
  | range :: rest =>
    if targetVram - range.start > 0x400000#32 then []
    else if targetVram ≥ range.start ∧ targetVram < range.stop then
      range.sectionIndex :: collectMatches targetVram rest
    else collectMatches targetVram rest

/-- `std::upper_bound` in a sorted index leaves the ranges that do not start behind the address in
front of the iterator. -/
def ExecutableIndex.findIndexedExecutableSections {sections : List Section}
    (index : ExecutableIndex sections) (targetVram : BitVec 32) : List Nat :=
  collectMatches targetVram
    (index.ranges.takeWhile fun range => ¬ targetVram < range.start).reverse

/-- The scan over all sections. -/
def scanExecutableSections (sections : List Section) (targetVram : BitVec 32) : List Nat :=
  (sections.zipIdx.filter fun sect => sect.1.isOverlayCode && sect.1.holds targetVram).map Prod.snd

/-- The range of a section is in the address space, and no longer than the search assumes. -/
structure Section.RangeBounded (sect : Section) : Prop where
  noWrap : sect.ramAddr.toNat + sect.size.toNat < 2 ^ 32
  size_le : sect.size.toNat ≤ 0x400000

/-! ## The search -/

section Search

variable {sections : List Section} {targetVram : BitVec 32}

/-- The range is not too far in front of the address for the search to go on. -/
def ExecutableRange.isNear (range : ExecutableRange) (targetVram : BitVec 32) : Bool :=
  ¬ targetVram - range.start > 0x400000#32

def ExecutableRange.holds (range : ExecutableRange) (targetVram : BitVec 32) : Bool :=
  targetVram ≥ range.start ∧ targetVram < range.stop

/-- The loop takes the ranges that hold the address, up to the first that is too far away. -/
theorem collectMatches_eq (ranges : List ExecutableRange) :
    collectMatches targetVram ranges =
      ((ranges.takeWhile (·.isNear targetVram)).filter (·.holds targetVram)).map
        (·.sectionIndex) := by
  induction ranges with
  | nil => rfl
  | cons range rest ih =>
    rw [collectMatches]
    split_ifs with hfar hholds
    · have hnear : ¬ range.isNear targetVram := fun h => (of_decide_eq_true h : ¬ _) hfar
      rw [List.takeWhile_cons, if_neg hnear]
      rfl
    · have hnear : range.isNear targetVram := decide_eq_true hfar
      have hfound : range.holds targetVram := decide_eq_true hholds
      rw [List.takeWhile_cons, if_pos hnear, List.filter_cons, if_pos hfound, ih, List.map_cons]
    · have hnear : range.isNear targetVram := decide_eq_true hfar
      have hmissed : ¬ range.holds targetVram := fun hfound => hholds (of_decide_eq_true hfound)
      rw [List.takeWhile_cons, if_pos hnear, List.filter_cons, if_neg hmissed, ih]

theorem start_le_of_not_before {a b : ExecutableRange} (h : ¬ b.before a) : a.start ≤ b.start := by
  unfold ExecutableRange.before at h
  split_ifs at h with hne
  · exact BitVec.not_lt.mp fun hlt => h (decide_eq_true hlt)
  · rw [not_not.mp hne]
    exact BitVec.le_refl _

/-- A start that is nearer to the address from below leaves less to it. -/
theorem isNear_of_le {a b : ExecutableRange} (hab : b.start ≤ a.start) (ha : a.start ≤ targetVram)
    (hnear : b.isNear targetVram) : a.isNear targetVram := by
  have hb : b.start ≤ targetVram := BitVec.le_trans hab ha
  have hfar := of_decide_eq_true hnear
  refine decide_eq_true (BitVec.not_lt.mpr ?_)
  rw [gt_iff_lt, BitVec.not_lt, BitVec.le_def, BitVec.toNat_sub_of_le hb] at hfar
  rw [BitVec.le_def, BitVec.toNat_sub_of_le ha]
  rw [BitVec.le_def] at hab
  omega

theorem mem_executableRanges {range : ExecutableRange} :
    range ∈ executableRanges sections ↔
      ∃ sect i, sections[i]? = some sect ∧ sect.isOverlayCode ∧
        range = ⟨sect.ramAddr, sect.ramAddr + sect.size, i⟩ := by
  constructor
  · intro h
    obtain ⟨⟨sect, i⟩, hmem, rfl⟩ := List.mem_map.mp h
    obtain ⟨hget, hcode⟩ := List.mem_filter.mp hmem
    exact ⟨sect, i, List.mem_zipIdx_iff_getElem?.mp hget, hcode, rfl⟩
  · rintro ⟨sect, i, hget, hcode, rfl⟩
    exact List.mem_map.mpr ⟨(sect, i),
      List.mem_filter.mpr ⟨List.mem_zipIdx_iff_getElem?.mpr hget, hcode⟩, rfl⟩

/-- A section that holds the address is near. -/
theorem isNear_of_holds (hbounded : ∀ sect ∈ sections, sect.RangeBounded)
    {range : ExecutableRange} (hrange : range ∈ executableRanges sections)
    (hholds : range.holds targetVram) : range.isNear targetVram := by
  obtain ⟨sect, i, hget, _, rfl⟩ := mem_executableRanges.mp hrange
  obtain ⟨hwrap, hsize⟩ := hbounded sect (List.mem_of_getElem? hget)
  obtain ⟨hle, hlt⟩ := of_decide_eq_true hholds
  refine decide_eq_true (BitVec.not_lt.mpr ?_)
  dsimp only at hle hlt ⊢
  rw [ge_iff_le] at hle
  rw [BitVec.lt_def, BitVec.toNat_add, Nat.mod_eq_of_lt hwrap] at hlt
  rw [BitVec.le_def, BitVec.toNat_sub_of_le hle]
  change _ ≤ 0x400000
  omega

/-- **The search finds what the index holds**: it stops early, but past every range that holds the
address. -/
theorem findIndexed_eq (hbounded : ∀ sect ∈ sections, sect.RangeBounded)
    (index : ExecutableIndex sections) :
    index.findIndexedExecutableSections targetVram =
      ((index.ranges.filter (·.holds targetVram)).map (·.sectionIndex)).reverse := by
  have hstarts : index.ranges.Pairwise fun a b => a.start ≤ b.start :=
    index.sorted.imp start_le_of_not_before
  -- `upper_bound` leaves every range in front that starts at the address or before it
  have hfront : (index.ranges.takeWhile fun range => ¬ targetVram < range.start).filter
      (·.holds targetVram) = index.ranges.filter (·.holds targetVram) := by
    refine filter_takeWhile_of_pairwise (hstarts.imp fun {a b} hab hb => ?_)
      fun range _ hholds => ?_
    · exact decide_eq_true (BitVec.not_lt.mpr
        (BitVec.le_trans hab (BitVec.not_lt.mp (of_decide_eq_true hb))))
    · exact decide_eq_true (BitVec.not_lt.mpr (of_decide_eq_true hholds).1)
  have hstarted : ∀ range ∈ index.ranges.takeWhile fun range => ¬ targetVram < range.start,
      range ∈ index.ranges ∧ range.start ≤ targetVram := by
    intro range hrange
    have hstart := List.mem_takeWhile_imp hrange
    exact ⟨(List.takeWhile_prefix _).subset hrange, BitVec.not_lt.mp (of_decide_eq_true hstart)⟩
  rw [ExecutableIndex.findIndexedExecutableSections, collectMatches_eq,
    filter_takeWhile_of_pairwise, List.filter_reverse, hfront, List.map_reverse]
  · -- backwards, the distance to the address grows
    rw [List.pairwise_reverse]
    refine (hstarts.sublist (List.takeWhile_prefix _).sublist).imp_of_mem ?_
    intro a b _ hb hab hnear
    exact isNear_of_le hab (hstarted b hb).2 hnear
  · intro range hrange hholds
    have hmem := (hstarted range (List.mem_reverse.mp hrange)).1
    exact isNear_of_holds hbounded (index.perm.mem_iff.mp hmem) hholds

theorem map_filter_executableRanges :
    ((executableRanges sections).filter (·.holds targetVram)).map (·.sectionIndex) =
      scanExecutableSections sections targetVram := by
  rw [executableRanges, List.filter_map, List.map_map, List.filter_filter, scanExecutableSections]
  congr 1
  refine List.filter_congr fun sect _ => ?_
  rw [Bool.and_comm]
  simp only [Function.comp, ExecutableRange.holds, ExecutableRange.ofSection, Section.holds,
    Bool.decide_and, ge_iff_le]

/-- The search and the scan find the same sections. -/
theorem findIndexedExecutableSections_perm (hbounded : ∀ sect ∈ sections, sect.RangeBounded)
    (index : ExecutableIndex sections) :
    (index.findIndexedExecutableSections targetVram).Perm
      (scanExecutableSections sections targetVram) := by
  rw [findIndexed_eq hbounded, ← map_filter_executableRanges]
  exact (List.reverse_perm _).trans ((index.perm.filter _).map _)

theorem nodup_scanExecutableSections : (scanExecutableSections sections targetVram).Nodup := by
  have hindices : (sections.zipIdx.map Prod.snd).Nodup := by
    rw [List.zipIdx_map_snd]
    exact List.nodup_range'
  exact (List.filter_sublist.map Prod.snd).nodup hindices

/-- The section holds the address in its range, as a range of the address space. -/
theorem holds_iff {sect : Section} (h : sect.RangeBounded) :
    sect.holds targetVram ↔ sect.ramAddr.toNat ≤ targetVram.toNat ∧
      targetVram.toNat < sect.ramAddr.toNat + sect.size.toNat := by
  rw [Section.holds, Bool.and_eq_true, decide_eq_true_iff, decide_eq_true_iff, BitVec.le_def,
    BitVec.lt_def, BitVec.toNat_add, Nat.mod_eq_of_lt h.noWrap]

theorem mem_scanExecutableSections {i : Nat} :
    i ∈ scanExecutableSections sections targetVram ↔
      ∃ sect, sections[i]? = some sect ∧ sect.isOverlayCode ∧ sect.holds targetVram := by
  rw [scanExecutableSections, List.mem_map]
  constructor
  · rintro ⟨⟨sect, j⟩, hmem, rfl⟩
    obtain ⟨hget, hboth⟩ := List.mem_filter.mp hmem
    exact ⟨sect, List.mem_zipIdx_iff_getElem?.mp hget, Bool.and_eq_true_iff.mp hboth⟩
  · rintro ⟨sect, hget, hboth⟩
    exact ⟨(sect, i), List.mem_filter.mpr ⟨List.mem_zipIdx_iff_getElem?.mpr hget,
      Bool.and_eq_true_iff.mpr hboth⟩, rfl⟩

/-- **The search is right**: for sections within their bounds, in any order and overlapping in any
way, it returns the same sections as the scan, each once, and these are the overlay sections of
code whose range holds the address. -/
theorem findIndexedExecutableSections_correct (hbounded : ∀ sect ∈ sections, sect.RangeBounded)
    (index : ExecutableIndex sections) (targetVram : BitVec 32) :
    (index.findIndexedExecutableSections targetVram).Perm
        (scanExecutableSections sections targetVram) ∧
      (index.findIndexedExecutableSections targetVram).Nodup ∧
      ∀ i, i ∈ index.findIndexedExecutableSections targetVram ↔
        ∃ sect, sections[i]? = some sect ∧ sect.executable ∧ sect.relocatable ∧
          ¬ isResidentTextSection sect ∧ sect.ramAddr.toNat ≤ targetVram.toNat ∧
          targetVram.toNat < sect.ramAddr.toNat + sect.size.toNat := by
  have hperm : (index.findIndexedExecutableSections targetVram).Perm _ :=
    findIndexedExecutableSections_perm hbounded index
  refine ⟨hperm, hperm.nodup_iff.mpr nodup_scanExecutableSections, fun i => ?_⟩
  rw [hperm.mem_iff, mem_scanExecutableSections]
  refine exists_congr fun sect => and_congr_right fun hget => ?_
  rw [holds_iff (hbounded sect (List.mem_of_getElem? hget)), Section.isOverlayCode]
  simp [and_assoc]

/-- An overlay of code at the start of a region that others share. -/
def sampleOverlay (size : BitVec 32) : Section where
  __ := Section.empty
  ramAddr := 0x80400000
  size := size
  executable := true
  relocatable := true

/-- Two overlays that start together, one of them as long as a section may be. -/
def sampleOverlays : List Section := [sampleOverlay 0x400000, sampleOverlay 0x100]

theorem sampleOverlays_found :
    ((executableIndex sampleOverlays).findIndexedExecutableSections 0x807FFFFC).Perm
      (scanExecutableSections sampleOverlays 0x807FFFFC) :=
  (findIndexedExecutableSections_correct
    (by
      intro sect hsect
      simp only [sampleOverlays, List.mem_cons, List.not_mem_nil, or_false] at hsect
      rcases hsect with rfl | rfl
      · exact ⟨by decide, by decide⟩
      · exact ⟨by decide, by decide⟩)
    (executableIndex sampleOverlays) 0x807FFFFC).1

end Search

end N64Recomp
