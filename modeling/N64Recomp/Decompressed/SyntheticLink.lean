import N64Recomp.Decompressed.SyntheticRom

/-!
# Synthetic link addresses

Every variant of a pattern gets a slot of the window `0xC0000000` to `0xD0000000` as its link
addresses. A slot is as long as the stride, whatever the size of the variant, and the number of
slots is not checked. Pointers are moved to the first section that has their target.

## Main definitions

* `lookupSection`: the section of an address
* `LinkAddressesRight`: variants are apart, stay in the window, and are found by their addresses
* `LinkCondition`: sizes, number of variants, and sections in the window

## Main results

* `slotAddr_of_lt`, `slotAddr_of_le`: the link address of a slot inside the window and past it
* `linkAddressesRight_iff`: the addresses are right exactly under the condition
-/

namespace N64Recomp

open Blocks

/-- The section that `resolve_cross_section_targets` gives to an address, a number of 16 bits. -/
def lookupSection (sections : List Section) (target : BitVec 32) : Option Nat :=
  (sections.findIdx? (·.covers target)).map fun i => (BitVec.ofNat 16 i).toNat

/-- The sections from an index on have link ranges apart from each other and in the window, and
their addresses are looked up as theirs. -/
structure LinkAddressesRight (first : Nat) (st : Synthesis) : Prop where
  apart : (st.sections.drop first).Pairwise fun a b =>
    Apart a.placement.linkRange b.placement.linkRange
  window : ∀ sect ∈ st.sections.drop first, sect.size.toNat ≠ 0 →
    0xC0000000 ≤ sect.ramAddr.toNat ∧ sect.ramAddr.toNat + sect.size.toNat ≤ 0xD0000000
  lookup : ∀ n sect, first ≤ n → st.sections[n]? = some sect → ∀ x : BitVec 32,
    sect.ramAddr.toNat ≤ x.toNat → x.toNat < sect.ramAddr.toNat + sect.size.toNat →
      lookupSection st.sections x = some n

/-- The slot of a variant in the window, by its number, and the variant's size. -/
def slotRange (v : PatternHit × Nat) : Nat × Nat :=
  (v.2 % 4096 * 0x100000, (relocOffset v.1.body).toNat)

/-- The slots of all variants. -/
def slotRanges (patterns : List DecompressedPattern) : List (Nat × Nat) :=
  ((variants patterns).map Prod.snd).zipIdx.map slotRange

/-- Whether an address is in the range of a section. -/
def Placement.covers (p : Placement) (target : BitVec 32) : Bool :=
  p.size ≠ 0 && decide (p.ramAddr ≤ target ∧ target < p.ramAddr + p.size)

/-- Variants that are not empty end inside the window and before the next one, have numbers of 16
bits as sections, and no other section has an address in their slots. -/
structure LinkCondition (before : List Section) (explicit : List DecompressedSection)
    (patterns : List DecompressedPattern) : Prop where
  window : ∀ r ∈ slotRanges patterns, r.2 ≠ 0 → r.1 + r.2 ≤ 0x10000000
  apart : (slotRanges patterns).Pairwise Apart
  index : ∀ v ∈ ((variants patterns).map Prod.snd).zipIdx, (relocOffset v.1.body).toNat ≠ 0 →
    before.length + explicit.length + v.2 < 0x10000
  others : ∀ p ∈ before.map Section.placement ++ explicit.map (·.placement),
    ∀ r ∈ slotRanges patterns, ∀ x : BitVec 32, 0xC0000000 + r.1 ≤ x.toNat →
      x.toNat < 0xC0000000 + r.1 + r.2 → p.covers x = false

/-! ### Addresses -/

section Addresses

/-- The address of a fragment is one of `KSEG0`. -/
theorem vram_lt_of_decoded {bytes : List (BitVec 8)} {vram : BitVec 32}
    (h : decodeFragmentLinkVram bytes = some vram) : vram.toNat < 0xC0000000 := by
  obtain ⟨_, h⟩ := guard_bind_eq_some_iff.mp h
  obtain ⟨_, h⟩ := guard_bind_eq_some_iff.mp h
  obtain ⟨jTarget, hj, h⟩ := Option.bind_eq_some_iff.mp h
  obtain ⟨entry, _, h⟩ := Option.bind_eq_some_iff.mp h
  obtain ⟨_, h⟩ := guard_bind_eq_some_iff.mp h
  obtain ⟨word, _, hj⟩ := Option.bind_eq_some_iff.mp hj
  obtain ⟨_, hj⟩ := guard_bind_eq_some_iff.mp hj
  obtain rfl := Option.some.inj hj
  -- both branches are the target rounded down, without the bit that the window has
  have hrounded : vram = (0x80000000 ||| ((word &&& 0x03FFFFFF) <<< 2)) &&& 0xFFF00000 := by
    obtain rfl := Option.some.inj h
    split
    · rename_i heq
      rw [← heq]
      bv_omega
    · rfl
  have hbit : vram.getLsbD 30 = false := by
    rw [hrounded]
    simp
  rw [BitVec.getLsbD, Nat.testBit_eq_decide_div_mod_eq, decide_eq_false_iff_not] at hbit
  have hlt := vram.isLt
  omega

variable {i : Nat} {hit : PatternHit}

theorem poolAddr_toNat (i : Nat) :
    (kSyntheticPoolBase + BitVec.ofNat 32 i * kSyntheticPoolStride).toNat =
      (0xC0000000 + i % 4096 * 0x100000) % 2 ^ 32 := by
  rw [BitVec.toNat_add, BitVec.toNat_mul, BitVec.toNat_ofNat]
  simp only [kSyntheticPoolBase, kSyntheticPoolStride, BitVec.toNat_ofNat]
  omega

/-- Inside the address space a slot has the address of its number. -/
theorem slotAddr_of_lt (h : i % 4096 < 1024) :
    (variantLinkAddr i hit).toNat = 0xC0000000 + i % 4096 * 0x100000 := by
  have haddr := poolAddr_toNat i
  rw [variantLinkAddr]
  rw [if_pos, haddr]
  · omega
  · intro hzero
    rw [hzero] at haddr
    change 0 = _ at haddr
    omega

/-- Past the address space, the address wraps or is the fragment's own. -/
theorem slotAddr_of_le (h : 1024 ≤ i % 4096) : (variantLinkAddr i hit).toNat < 0xC0000000 := by
  have haddr := poolAddr_toNat i
  rw [variantLinkAddr]
  split
  · omega
  · obtain ⟨bytes, hdecoded⟩ := hit.decoded
    exact vram_lt_of_decoded hdecoded

/-- A variant is in the window exactly when its slot is. -/
theorem window_iff {size : Nat} :
    0xC0000000 ≤ (variantLinkAddr i hit).toNat ∧
        (variantLinkAddr i hit).toNat + size ≤ 0xD0000000 ↔
      i % 4096 * 0x100000 + size ≤ 0x10000000 := by
  rcases Nat.lt_or_ge (i % 4096) 1024 with h | h
  · rw [slotAddr_of_lt h]
    omega
  · have hlt : (variantLinkAddr i hit).toNat < 0xC0000000 := slotAddr_of_le h
    omega

end Addresses

/-! ### Lookups -/

section Lookups

theorem Section.covers_eq (sect : Section) (x : BitVec 32) :
    sect.covers x = sect.placement.covers x := rfl

/-- A range without a wrap has the addresses between its ends. -/
theorem Placement.covers_iff {p : Placement} {x : BitVec 32}
    (h : p.size.toNat ≠ 0 → p.ramAddr.toNat + p.size.toNat < 2 ^ 32) :
    p.covers x = true ↔ p.linkRange.1 ≤ x.toNat ∧ x.toNat < p.linkRange.1 + p.linkRange.2 := by
  dsimp only [Placement.covers, Placement.linkRange]
  rw [Bool.and_eq_true, decide_eq_true_eq, decide_eq_true_eq, BitVec.le_def, BitVec.lt_def,
    BitVec.toNat_add]
  by_cases hsize : p.size = 0
  · rw [hsize]
    simp only [ne_eq, not_true_eq_false, false_and, false_iff]
    change ¬ (_ ∧ x.toNat < p.ramAddr.toNat + 0)
    omega
  · have hpos : p.size.toNat ≠ 0 := fun hzero => hsize (BitVec.eq_of_toNat_eq hzero)
    rw [Nat.mod_eq_of_lt (h hpos)]
    exact and_iff_right hsize

/-- The first match behind a list without one. -/
theorem findIdx?_append_eq_some_iff {α : Type} {q : α → Bool} {l l' : List α} {n k : Nat}
    (hlen : l.length = n) :
    (l ++ l').findIdx? q = some (n + k) ↔ (∀ a ∈ l, q a = false) ∧ l'.findIdx? q = some k := by
  subst hlen
  rw [List.findIdx?_append]
  cases hfind : l.findIdx? q with
  | none =>
    have hnone := List.findIdx?_eq_none_iff.mp hfind
    rw [Option.none_or, Option.map_eq_some_iff]
    constructor
    · rintro ⟨j, hj, hsum⟩
      obtain rfl : j = k := by omega
      exact ⟨hnone, hj⟩
    · intro h
      exact ⟨k, h.2, Nat.add_comm _ _⟩
  | some j =>
    rw [Option.some_or]
    obtain ⟨hlt, hq, _⟩ := List.findIdx?_eq_some_iff_getElem.mp hfind
    constructor
    · intro h
      have hj := Option.some.inj h
      omega
    · intro h
      rw [h.1 _ (List.getElem_mem hlt)] at hq
      cases hq

/-- Among ranges apart from each other, an address has at most one. -/
theorem findIdx?_covers_of_apart {placements : List Placement} {k : Nat} {p : Placement}
    {x : BitVec 32} (hapart : placements.Pairwise fun a b => Apart a.linkRange b.linkRange)
    (hwrap : ∀ p ∈ placements, p.size.toNat ≠ 0 → p.ramAddr.toNat + p.size.toNat < 2 ^ 32)
    (hk : placements[k]? = some p) (hx : p.covers x = true) :
    placements.findIdx? (·.covers x) = some k := by
  obtain ⟨hlt, rfl⟩ := List.getElem?_eq_some_iff.mp hk
  refine List.findIdx?_eq_some_iff_getElem.mpr ⟨hlt, hx, ?_⟩
  intro j hj hcovers
  have hpair := List.pairwise_iff_getElem.mp hapart j k (by omega) hlt hj
  have hin := (Placement.covers_iff (hwrap _ (List.getElem_mem (by omega)))).mp hcovers
  have hin' := (Placement.covers_iff (hwrap _ (List.getElem_mem hlt))).mp hx
  exact apart_iff.mp hpair x.toNat ⟨hin, hin'⟩

theorem lookupSection_eq_some_iff {sections : List Section} {x : BitVec 32} {n : Nat} :
    lookupSection sections x = some n ↔
      ∃ i, (sections.map Section.placement).findIdx? (·.covers x) = some i ∧ i % 0x10000 = n := by
  rw [lookupSection, List.findIdx?_map, Option.map_eq_some_iff]
  rfl

end Lookups

/-! ### The variants of a synthesis -/

/-- The link range of a variant, by its number. -/
def variantLinkRange (v : PatternHit × Nat) : Nat × Nat :=
  ((variantLinkAddr v.2 v.1).toNat, (relocOffset v.1.body).toNat)

theorem linkRange_variantPlacements {start i : Nat} {hits : List PatternHit} :
    (variantPlacements start i hits).map Placement.linkRange =
      (hits.zipIdx i).map variantLinkRange := by
  induction hits generalizing start i with
  | nil => rfl
  | cons hit hits ih =>
    rw [variantPlacements, List.zipIdx_cons, List.map_cons, List.map_cons, ih]
    rfl

/-- A slot in the window is the link range, from the window's start on. -/
theorem variantLinkRange_fst {v : PatternHit × Nat}
    (h : (slotRange v).1 + (slotRange v).2 ≤ 0x10000000) :
    (variantLinkRange v).1 = 0xC0000000 + (slotRange v).1 := by
  refine slotAddr_of_lt ?_
  dsimp only [slotRange] at h
  omega

theorem apart_variantLinkRange {v w : PatternHit × Nat}
    (hv : (slotRange v).2 ≠ 0 → (slotRange v).1 + (slotRange v).2 ≤ 0x10000000)
    (hw : (slotRange w).2 ≠ 0 → (slotRange w).1 + (slotRange w).2 ≤ 0x10000000) :
    Apart (variantLinkRange v) (variantLinkRange w) ↔ Apart (slotRange v) (slotRange w) := by
  have hsizev : (variantLinkRange v).2 = (slotRange v).2 := rfl
  have hsizew : (variantLinkRange w).2 = (slotRange w).2 := rfl
  by_cases hv0 : (slotRange v).2 = 0
  · exact iff_of_true (Or.inl hv0) (Or.inl hv0)
  by_cases hw0 : (slotRange w).2 = 0
  · exact iff_of_true (Or.inr (Or.inl hw0)) (Or.inr (Or.inl hw0))
  unfold Apart
  rw [variantLinkRange_fst (hv hv0), variantLinkRange_fst (hw hw0), hsizev, hsizew]
  omega

section Variants

variable {rom : List (BitVec 8)} {before : List Section} {explicit : List DecompressedSection}
  {patterns : List DecompressedPattern} {st : Synthesis}

/-- The sections in front of the variants. -/
def otherPlacements (before : List Section) (explicit : List DecompressedSection) :
    List Placement :=
  before.map Section.placement ++ explicit.map (·.placement)

@[simp] theorem length_otherPlacements :
    (otherPlacements before explicit).length = before.length + explicit.length := by
  rw [otherPlacements, List.length_append, List.length_map, List.length_map]

variable (h : Synthesized rom before explicit ((variants patterns).map Prod.snd) st)

include h

theorem Synthesized.placements_eq :
    st.sections.map Section.placement = otherPlacements before explicit ++
      variantPlacements syntheticRomBase.toNat 0 ((variants patterns).map Prod.snd) := by
  rw [h.sections, otherPlacements, List.append_assoc]

theorem Synthesized.linkRange_eq :
    (st.sections.drop (before.length + explicit.length)).map (·.placement.linkRange) =
      ((variants patterns).map Prod.snd).zipIdx.map variantLinkRange := by
  have hvariants : (variantPlacements syntheticRomBase.toNat 0
      ((variants patterns).map Prod.snd)).map Placement.linkRange =
        ((variants patterns).map Prod.snd).zipIdx.map variantLinkRange :=
    linkRange_variantPlacements
  rw [← hvariants, ← Function.comp_def Placement.linkRange, ← List.map_map, List.map_drop,
    h.placements_eq, List.drop_left' length_otherPlacements]

/-- The window holds all variants exactly when it holds all slots. -/
theorem Synthesized.window_iff :
    (∀ sect ∈ st.sections.drop (before.length + explicit.length), sect.size.toNat ≠ 0 →
        0xC0000000 ≤ sect.ramAddr.toNat ∧
          sect.ramAddr.toNat + sect.size.toNat ≤ 0xD0000000) ↔
      ∀ r ∈ slotRanges patterns, r.2 ≠ 0 → r.1 + r.2 ≤ 0x10000000 := by
  have hranges := List.forall_mem_map (l := st.sections.drop (before.length + explicit.length))
    (f := fun sect : Section => sect.placement.linkRange)
    (P := fun r => r.2 ≠ 0 → 0xC0000000 ≤ r.1 ∧ r.1 + r.2 ≤ 0xD0000000)
  rw [h.linkRange_eq, List.forall_mem_map] at hranges
  rw [slotRanges, List.forall_mem_map]
  exact hranges.symm.trans (forall₂_congr fun v _ => imp_congr_right fun _ => N64Recomp.window_iff)

theorem Synthesized.apart_iff
    (hwindow : ∀ r ∈ slotRanges patterns, r.2 ≠ 0 → r.1 + r.2 ≤ 0x10000000) :
    ((st.sections.drop (before.length + explicit.length)).Pairwise fun a b =>
        Apart a.placement.linkRange b.placement.linkRange) ↔
      (slotRanges patterns).Pairwise Apart := by
  rw [← List.pairwise_map (f := fun sect : Section => sect.placement.linkRange), h.linkRange_eq,
    slotRanges, List.pairwise_map, List.pairwise_map]
  have hslots := List.forall_mem_map.mp hwindow
  exact List.Pairwise.iff_of_mem fun hv hw => apart_variantLinkRange (hslots _ hv) (hslots _ hw)

/-- A variant has the section behind the others. -/
theorem Synthesized.getElem?_variant {k : Nat} {hit : PatternHit}
    (hk : ((variants patterns).map Prod.snd)[k]? = some hit) :
    ∃ sect, st.sections[before.length + explicit.length + k]? = some sect ∧
      sect.placement.linkRange = variantLinkRange (hit, k) := by
  have hget := congrArg (·[k]?) h.linkRange_eq
  simp only [List.getElem?_map, List.getElem?_drop, List.getElem?_zipIdx, hk,
    Option.map_some, Nat.zero_add] at hget
  obtain ⟨sect, hsect, hrange⟩ := Option.map_eq_some_iff.mp hget
  exact ⟨sect, hsect, hrange⟩

/-- Under the condition, the addresses of a variant are looked up as the variant's. -/
theorem Synthesized.lookup_of_condition (hcond : LinkCondition before explicit patterns)
    {n : Nat} {sect : Section} (hn : before.length + explicit.length ≤ n)
    (hsect : st.sections[n]? = some sect) {x : BitVec 32} (hlow : sect.ramAddr.toNat ≤ x.toNat)
    (hhigh : x.toNat < sect.ramAddr.toNat + sect.size.toNat) :
    lookupSection st.sections x = some n := by
  obtain ⟨k, rfl⟩ := Nat.exists_eq_add_of_le hn
  have hwindow := h.window_iff.mpr hcond.window
  have hapart := (h.apart_iff hcond.window).mpr hcond.apart
  have hdrop : st.sections.map Section.placement = otherPlacements before explicit ++
      (st.sections.drop (before.length + explicit.length)).map Section.placement := by
    rw [List.map_drop, h.placements_eq, List.drop_left' length_otherPlacements]
  -- the slot of the variant
  obtain ⟨hit, hhit, hrange⟩ : ∃ hit, ((variants patterns).map Prod.snd)[k]? = some hit ∧
      variantLinkRange (hit, k) = sect.placement.linkRange := by
    have hget := congrArg (·[k]?) h.linkRange_eq
    rw [List.getElem?_map, List.getElem?_drop, hsect, List.getElem?_map, List.getElem?_zipIdx,
      Option.map_map, Nat.zero_add] at hget
    exact Option.map_eq_some_iff.mp hget.symm
  have hmem : (hit, k) ∈ ((variants patterns).map Prod.snd).zipIdx :=
    List.mk_mem_zipIdx_iff_getElem?.mpr hhit
  have hslot : slotRange (hit, k) ∈ slotRanges patterns := List.mem_map_of_mem hmem
  have hsize : sect.size.toNat = (slotRange (hit, k)).2 := (congrArg Prod.snd hrange).symm
  have hpos : (slotRange (hit, k)).2 ≠ 0 := by omega
  have haddr : 0xC0000000 + (slotRange (hit, k)).1 = sect.ramAddr.toNat := by
    rw [← variantLinkRange_fst (hcond.window _ hslot hpos), hrange]
    rfl
  have hindex := hcond.index _ hmem hpos
  refine lookupSection_eq_some_iff.mpr
    ⟨before.length + explicit.length + k, ?_, Nat.mod_eq_of_lt hindex⟩
  rw [hdrop]
  refine (findIdx?_append_eq_some_iff length_otherPlacements).mpr
    ⟨?_, findIdx?_covers_of_apart (p := sect.placement) ?_ ?_ ?_ ?_⟩
  · intro p hp
    exact hcond.others p hp _ hslot x (by omega) (by omega)
  · exact List.pairwise_map.mpr hapart
  · intro p hp hne
    obtain ⟨other, hother, rfl⟩ := List.mem_map.mp hp
    have hle := (hwindow other hother hne).2
    change other.ramAddr.toNat + other.size.toNat < 2 ^ 32
    omega
  · rw [List.getElem?_map, List.getElem?_drop, hsect]
    rfl
  · refine (Placement.covers_iff fun hne => ?_).mpr ⟨hlow, hhigh⟩
    have hmem : sect ∈ st.sections.drop (before.length + explicit.length) :=
      List.mem_of_getElem? (i := k) (by rw [List.getElem?_drop, hsect])
    have hle := (hwindow sect hmem hne).2
    change sect.ramAddr.toNat + sect.size.toNat < 2 ^ 32
    omega

/-- An address of a variant that is looked up as the variant's is in no other section in front. -/
theorem Synthesized.lookup_variant {k : Nat} {hit : PatternHit}
    (hright : LinkAddressesRight (before.length + explicit.length) st)
    (hk : ((variants patterns).map Prod.snd)[k]? = some hit) {x : BitVec 32}
    (hlow : (variantLinkRange (hit, k)).1 ≤ x.toNat)
    (hhigh : x.toNat < (variantLinkRange (hit, k)).1 + (variantLinkRange (hit, k)).2) :
    before.length + explicit.length + k < 0x10000 ∧
      ∀ p ∈ otherPlacements before explicit, p.covers x = false := by
  obtain ⟨sect, hsect, hrange⟩ := h.getElem?_variant hk
  rw [← hrange] at hlow hhigh
  have hlookup := hright.lookup _ sect (Nat.le_add_right _ k) hsect x hlow hhigh
  obtain ⟨i, hfind, hi⟩ := lookupSection_eq_some_iff.mp hlookup
  have hlt : before.length + explicit.length + k < 0x10000 := by
    rw [← hi]
    exact Nat.mod_lt _ (by decide)
  refine ⟨hlt, ?_⟩
  -- the first section with the address is not behind the variant
  have hcovers : sect.placement.covers x = true := by
    refine (Placement.covers_iff fun hne => ?_).mpr ⟨hlow, hhigh⟩
    have hmem : sect ∈ st.sections.drop (before.length + explicit.length) :=
      List.mem_of_getElem? (i := k) (by rw [List.getElem?_drop, hsect])
    have hle := (hright.window sect hmem hne).2
    change sect.ramAddr.toNat + sect.size.toNat < 2 ^ 32
    omega
  obtain ⟨hbound, _, hfirst⟩ := List.findIdx?_eq_some_iff_getElem.mp hfind
  have hle : i ≤ before.length + explicit.length + k := by
    by_contra hgt
    have hno := hfirst (before.length + explicit.length + k) (by omega)
    obtain ⟨_, hsect'⟩ := List.getElem?_eq_some_iff.mp hsect
    rw [List.getElem_map, hsect', hcovers] at hno
    exact hno rfl
  obtain rfl : i = before.length + explicit.length + k := by omega
  rw [h.placements_eq] at hfind
  exact ((findIdx?_append_eq_some_iff length_otherPlacements).mp hfind).1

theorem Synthesized.linkRight_iff :
    LinkAddressesRight (before.length + explicit.length) st ↔
      LinkCondition before explicit patterns := by
  constructor
  · intro hright
    have hwindow := h.window_iff.mp hright.window
    refine ⟨hwindow, (h.apart_iff hwindow).mp hright.apart, ?_, ?_⟩
    · rintro ⟨hit, k⟩ hv hne
      have hk := List.mk_mem_zipIdx_iff_getElem?.mp hv
      -- the first address of the variant
      refine (h.lookup_variant hright hk (x := variantLinkAddr k hit) (Nat.le_refl _) ?_).1
      exact Nat.lt_add_of_pos_right (Nat.pos_of_ne_zero hne)
    · intro p hp r hr x hlow hhigh
      obtain ⟨⟨hit, k⟩, hv, rfl⟩ := List.mem_map.mp hr
      have hk := List.mk_mem_zipIdx_iff_getElem?.mp hv
      have hpos : (slotRange (hit, k)).2 ≠ 0 := by omega
      rw [← variantLinkRange_fst (hwindow _ hr hpos)] at hlow hhigh
      exact (h.lookup_variant hright hk hlow hhigh).2 p hp
  · intro hcond
    exact ⟨(h.apart_iff hcond.window).mpr hcond.apart, h.window_iff.mpr hcond.window,
      fun n sect hn hsect x hlow hhigh => h.lookup_of_condition hcond hn hsect hlow hhigh⟩

end Variants

/-- **Link addresses are right exactly when** every variant fits its slot, there are slots for all
of them, and no other section has addresses in the slots. -/
theorem linkAddressesRight_iff {accepts : List (BitVec 8) → Bool} {fileSize : Nat}
    {rom : List (BitVec 8)} {before : List Section} {explicit : List DecompressedSection}
    {patterns : List DecompressedPattern} {st : Synthesis}
    (hrun : synthesize accepts fileSize rom before explicit patterns = some st) :
    LinkAddressesRight (before.length + explicit.length) st ↔
      LinkCondition before explicit patterns :=
  (synthesized_of_synthesize hrun).linkRight_iff

/-! ## Two runs -/

section Plain

variable (tag : BitVec 8) (size : BitVec 32)

theorem plainFragment_romWord_size : romWord (plainFragment tag size) 0x14 = some size := by
  change some (wordByte size 0 ++ wordByte size 1 ++ wordByte size 2 ++ wordByte size 3) = some size
  rw [wordByte_append]

theorem plainFragment_romWord_sizeInRam : romWord (plainFragment tag size) 0x1C = some size := by
  change some (wordByte size 0 ++ wordByte size 1 ++ wordByte size 2 ++ wordByte size 3) = some size
  rw [wordByte_append]

theorem relocOffset_plainFragment : relocOffset (plainFragment tag size) = size := by
  rw [relocOffset, plainFragment_romWord_size]
  rfl

variable {size} (hsize : 0x20 ≤ size.toNat)

include hsize

theorem length_plainFragment : (plainFragment tag size).length = size.toNat + 4 := by
  rw [plainFragment, List.length_append, List.length_replicate]
  change 0x20 + _ = _
  omega

theorem plainFragment_romWord_count :
    romWord (plainFragment tag size) size.toNat = some 0 := by
  have hzero : ∀ k, k < 4 → (plainFragment tag size)[size.toNat + k]? = some 0 := by
    intro k hk
    rw [plainFragment, List.getElem?_append_right]
    · change (List.replicate (size.toNat + 4 - 0x20) 0)[size.toNat + k - 0x20]? = some 0
      rw [List.getElem?_replicate, if_pos (by omega)]
    · change 0x20 ≤ _
      omega
  have h0 := hzero 0 (by decide)
  rw [Nat.add_zero] at h0
  unfold romWord
  rw [h0, hzero 1 (by decide), hzero 2 (by decide), hzero 3 (by decide)]
  rfl

/-- The table is empty. -/
theorem fragmentTable_plainFragment (hlt : size.toNat < 2 ^ 31) :
    fragmentTable (plainFragment tag size) = some [] := by
  have hlen := length_plainFragment tag hsize
  have hend : (size + 4).toNat = size.toNat + 4 := by
    rw [BitVec.toNat_add]
    exact Nat.mod_eq_of_lt (by change size.toNat + 4 < 2 ^ 32; omega)
  have hmagic : hasFragmentMagic (plainFragment tag size) := decide_eq_true rfl
  refine guard_bind_eq_some_iff.mpr ⟨⟨by omega, hmagic⟩, Option.bind_eq_some_iff.mpr
    ⟨size, plainFragment_romWord_size tag size, Option.bind_eq_some_iff.mpr
      ⟨size, plainFragment_romWord_sizeInRam tag size, guard_bind_eq_some_iff.mpr
        ⟨by omega, guard_bind_eq_some_iff.mpr ⟨by omega, Option.bind_eq_some_iff.mpr
          ⟨0, plainFragment_romWord_count tag hsize, guard_bind_eq_some_iff.mpr ⟨?_, rfl⟩⟩⟩⟩⟩⟩⟩
  change (size + 4).toNat + 4 * 0 ≤ _
  omega

end Plain

/-- A pattern with two matches, told apart by a byte of the header. -/
def twoHits (size : BitVec 32) : DecompressedPattern where
  sectionName := fun _ => ascii "fragment__rom"
  relocatable := true
  hits := [plainHit 0x1000 0 size, plainHit 0x8000 1 0x100]

theorem keptHits_pair {a b : PatternHit} {i j : BitVec 64} (ha : dedupeKey a = some i)
    (hb : dedupeKey b = some j) (hne : j ≠ i) : keptHits [] [a, b] = [a, b] := by
  simp only [keptHits, ha, hb, List.not_mem_nil, if_false, List.mem_singleton, if_neg hne]

theorem keptHits_twoHits {size : BitVec 32}
    (h : ((dedupeKey (plainHit 0x1000 0 size)).isSome && (dedupeKey (plainHit 0x8000 1 0x100)).isSome
      && dedupeKey (plainHit 0x8000 1 0x100) ≠ dedupeKey (plainHit 0x1000 0 size)) = true) :
    keptHits [] (twoHits size).hits = (twoHits size).hits := by
  simp only [Bool.and_eq_true, decide_eq_true_eq] at h
  obtain ⟨⟨ha, hb⟩, hne⟩ := h
  obtain ⟨i, hi⟩ := Option.isSome_iff_exists.mp ha
  obtain ⟨j, hj⟩ := Option.isSome_iff_exists.mp hb
  refine keptHits_pair hi hj fun heq => hne ?_
  rw [hi, hj, heq]

theorem slotRanges_twoHits {size : BitVec 32}
    (h : keptHits [] (twoHits size).hits = (twoHits size).hits) :
    slotRanges [twoHits size] = [(0, size.toNat), (0x100000, 0x100)] := by
  rw [slotRanges, variants, List.flatMap_singleton, h]
  simp only [twoHits, List.map_cons, List.map_nil, List.zipIdx_cons, List.zipIdx_nil, slotRange,
    plainHit, relocOffset_plainFragment]
  rfl

theorem exists_synthesize_twoHits {size : BitVec 32} (hlow : 0x20 ≤ size.toNat)
    (hhigh : size.toNat ≤ 0x1000000) (h : keptHits [] (twoHits size).hits = (twoHits size).hits) :
    ∃ st, synthesize (fun _ => true) 0x10000 [] [] [] [twoHits size] = some st := by
  have hvariants : variants [twoHits size] =
      [(twoHits size, plainHit 0x1000 0 size), (twoHits size, plainHit 0x8000 1 0x100)] := by
    rw [variants, List.flatMap_singleton, h]
    rfl
  refine exists_synthesize ?_ ?_ fun _ _ => rfl
  · intro v hv
    rw [hvariants] at hv
    refine Option.isSome_iff_exists.mpr ⟨[], ?_⟩
    rcases List.mem_pair.mp hv with rfl | rfl
    · exact fragmentTable_plainFragment 0 hlow (by omega)
    · exact fragmentTable_plainFragment 1 (by decide) (by decide)
  · rw [hvariants]
    simp only [List.map_cons, List.map_nil, List.sum_cons, List.sum_nil, plainHit,
      relocOffset_plainFragment]
    change 0xFE000000 + (alignWord size.toNat + (alignWord 0x100 + 0)) ≤ 0xFFFFFFFF
    unfold alignWord
    omega

theorem twoHits_linkAddressesRight :
    ∃ st, synthesize (fun _ => true) 0x10000 [] [] [] [twoHits 0x100] = some st ∧
      LinkAddressesRight 0 st := by
  have hkept : keptHits [] (twoHits 0x100).hits = (twoHits 0x100).hits :=
    keptHits_twoHits (by decide +kernel)
  obtain ⟨st, hrun⟩ := exists_synthesize_twoHits (by decide) (by decide) hkept
  refine ⟨st, hrun, (linkAddressesRight_iff hrun).mpr ?_⟩
  have hslots := slotRanges_twoHits hkept
  refine ⟨?_, ?_, ?_, ?_⟩
  · rw [hslots]
    decide
  · rw [hslots]
    decide
  · intro v hv _
    have hlt := List.snd_lt_of_mem_zipIdx hv
    have hlen : ((variants [twoHits 0x100]).map Prod.snd).length = 2 := by
      rw [variants, List.flatMap_singleton, hkept]
      rfl
    dsimp only [List.length_nil]
    omega
  · intro p hp
    cases hp

/-- A variant of more than a megabyte reaches into the slot of the next one. -/
theorem twoHits_not_linkAddressesRight :
    ∃ st, synthesize (fun _ => true) 0x10000 [] [] [] [twoHits 0x110000] = some st ∧
      ¬ LinkAddressesRight 0 st := by
  have hkept : keptHits [] (twoHits 0x110000).hits = (twoHits 0x110000).hits :=
    keptHits_twoHits (by decide +kernel)
  obtain ⟨st, hrun⟩ := exists_synthesize_twoHits (by decide) (by decide) hkept
  refine ⟨st, hrun, ?_⟩
  intro hright
  have hcond := (synthesized_of_synthesize hrun).linkRight_iff.mp hright
  have hapart := hcond.apart
  rw [slotRanges_twoHits hkept] at hapart
  exact absurd hapart (by decide)

end N64Recomp
