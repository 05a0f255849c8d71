import N64Recomp.Decompressed.FragmentPairs
import N64Recomp.Decompressed.SyntheticLink

/-!
# The targets of pointers

A pointer in the body of a decompressed section is encoded for the address that the fragment was
linked at, and the section has an address of its own, which for a variant of a pattern is one of the
pool. The parser takes the pointer's distance from the encoded base, and the pass over the sections
adds it to the section's own address to look the target up. The two are one address only for a
section whose own address is the encoded one.

## Main definitions

* `EncodedSection`, `RefersTo`: where the address of a pointer is
* `PointerRight`: a pointer is relocated to where it refers to, for every load of the sections
* `PointerCondition`: the lookup finds the section at the distance that the bases have

## Main results

* `pointerRight_iff`: one pointer
* `pointersRight_iff`: the pointers of all sections of a synthesis
-/

namespace N64Recomp

/-- A section with the address that its bytes are encoded for. -/
structure EncodedSection where
  encoded : BitVec 32
  placement : Placement
  deriving DecidableEq, Repr

namespace EncodedSection

variable (S : EncodedSection) (word : BitVec 32)

/-- The encoded addresses of a section. -/
def Contains : Prop := (word - S.encoded).toNat < S.placement.size.toNat

instance : Decidable (S.Contains word) := inferInstanceAs (Decidable (_ < _))

/-- How far the section's own address is from the encoded one. -/
def distance : BitVec 32 := S.placement.ramAddr - S.encoded

/-- The address under which the pass over the sections looks a pointer of the section up. -/
def lookedUp : BitVec 32 := S.placement.ramAddr + (word - S.encoded)

end EncodedSection

/-- The first section with an address, by the sections' own addresses. -/
def firstCover (sections : List EncodedSection) (target : BitVec 32) : Option Nat :=
  sections.findIdx? (·.placement.covers target)

/-- A pointer of a section refers to a section with its address; to the section itself when the
address is one of its own. -/
def RefersTo (sections : List EncodedSection) (home : Nat) (word : BitVec 32) (t : Nat) : Prop :=
  (∃ T, sections[t]? = some T ∧ T.Contains word) ∧
    ∀ S, sections[home]? = some S → S.Contains word → t = home

/-- **A pointer that refers to a section** is relocated to the section's load address plus the
distance that it has from the section's encoded base, wherever the sections are loaded. -/
def PointerRight (sections : List EncodedSection) (home : Nat) (word : BitVec 32)
    (reloc : Reloc) : Prop :=
  (∃ t, RefersTo sections home word t) → ∃ t T, RefersTo sections home word t ∧
    sections[t]? = some T ∧ ∀ load : Nat → BitVec 32,
      load reloc.targetSection.toNat + reloc.targetSectionOffset = load t + (word - T.encoded)

/-- The first of the visible sections with the looked up address is the section itself for its own
pointers, and is at the section's distance from its encoded base for the others. -/
structure PointerCondition (visible sections : List EncodedSection) (home : Nat)
    (S : EncodedSection) (word : BitVec 32) : Prop where
  own : S.Contains word → ∀ i, firstCover visible (S.lookedUp word) = some i → i = home
  other : ¬ S.Contains word → (∃ T ∈ sections, T.Contains word) → ∃ i T,
    firstCover visible (S.lookedUp word) = some i ∧ visible[i]? = some T ∧ T.distance = S.distance

/-! ## One pointer -/

section One

variable {visible sections : List EncodedSection} {home i : Nat} {S T : EncodedSection}
  {word : BitVec 32}

/-- Load addresses tell sections apart. -/
theorem forall_load_iff {a b : Nat} {x y : BitVec 32} :
    (∀ load : Nat → BitVec 32, load a + x = load b + y) ↔ a = b ∧ x = y := by
  constructor
  · intro h
    have hxy : x = y := by simpa using h fun _ => 0
    refine ⟨?_, hxy⟩
    by_contra hab
    have hload := h fun n => if n = a then 1 else 0
    rw [if_pos rfl, if_neg (Ne.symm hab), hxy] at hload
    bv_omega
  · rintro ⟨rfl, rfl⟩ load
    rfl

/-- An address that a range covers is at a distance below the size. -/
theorem toNat_sub_of_covers {p : Placement} {x : BitVec 32} (h : p.covers x = true) :
    (x - p.ramAddr).toNat < p.size.toNat := by
  rw [Placement.covers, Bool.and_eq_true, decide_eq_true_eq, decide_eq_true_eq] at h
  obtain ⟨-, hle, hlt⟩ := h
  bv_omega

/-- The distance to a section's own address is that to its encoded base, for sections that are
moved alike. -/
theorem lookedUp_sub_iff : S.lookedUp word - T.placement.ramAddr = word - T.encoded ↔
    T.distance = S.distance := by
  rw [EncodedSection.lookedUp, EncodedSection.distance, EncodedSection.distance]
  constructor
  · intro h
    bv_omega
  · intro h
    bv_omega

theorem firstCover_some (h : firstCover visible (S.lookedUp word) = some i) :
    ∃ T, visible[i]? = some T ∧ T.placement.covers (S.lookedUp word) = true := by
  obtain ⟨hlt, hcovers, -⟩ := List.findIdx?_eq_some_iff_getElem.mp h
  exact ⟨_, List.getElem?_eq_getElem hlt, hcovers⟩

/-- A pointer as the parser leaves it. -/
structure IsOwnPointer (home : Nat) (S : EncodedSection) (word : BitVec 32) (reloc : Reloc) :
    Prop where
  type : reloc.type = .mips32
  target : reloc.targetSection = BitVec.ofNat 16 home
  offset : reloc.targetSectionOffset = word - S.encoded

/-- What the pass makes of a pointer. -/
theorem retargetPointer_eq {context : List Section} {sect : Section} {reloc : Reloc}
    (hcontext : context.map Section.placement = visible.map (·.placement))
    (hsect : sect.placement = S.placement) (hown : IsOwnPointer home S word reloc) :
    retargetPointer context sect reloc =
      match firstCover visible (S.lookedUp word) with
      | some i => { reloc with
          targetSection := BitVec.ofNat 16 i
          targetSectionOffset := S.lookedUp word -
            ((visible[i]?.map (·.placement.ramAddr)).getD 0) }
      | none => reloc := by
  have htarget : sect.ramAddr + reloc.targetSectionOffset = S.lookedUp word := by
    have haddr : sect.ramAddr = S.placement.ramAddr := congrArg Placement.ramAddr hsect
    rw [hown.offset, haddr, EncodedSection.lookedUp]
  have hfind : context.findIdx? (·.covers (S.lookedUp word)) =
      firstCover visible (S.lookedUp word) := by
    have hmap : (context.map Section.placement).findIdx? (·.covers (S.lookedUp word)) =
        (visible.map (·.placement)).findIdx? (·.covers (S.lookedUp word)) := by rw [hcontext]
    rw [List.findIdx?_map, List.findIdx?_map] at hmap
    exact hmap
  rw [retargetPointer, if_neg (not_not.mpr hown.type), htarget, hfind]
  cases hcover : firstCover visible (S.lookedUp word) with
  | none => rfl
  | some i =>
    obtain ⟨T, hT, -⟩ := firstCover_some hcover
    have hget : (context.map Section.placement)[i]? = (visible.map (·.placement))[i]? := by
      rw [hcontext]
    rw [List.getElem?_map, List.getElem?_map, hT, Option.map_some, Option.map_eq_some_iff] at hget
    obtain ⟨c, hc, hplacement⟩ := hget
    have haddr : c.ramAddr = T.placement.ramAddr := congrArg Placement.ramAddr hplacement
    dsimp only
    rw [hT, List.getD_eq_getElem?_getD, hc, Option.getD_some, haddr]
    rfl

/-- **One pointer is right exactly under the condition.** -/
theorem pointerRight_iff {context : List Section} {sect : Section} {reloc : Reloc}
    (hvisible : ∀ (i : Nat) T, visible[i]? = some T → sections[i]? = some T)
    (hlength : visible.length < 2 ^ 16)
    (hcontext : context.map Section.placement = visible.map (·.placement))
    (hhome : visible[home]? = some S) (hsect : sect.placement = S.placement)
    (hown : IsOwnPointer home S word reloc) :
    PointerRight sections home word (retargetPointer context sect reloc) ↔
      PointerCondition visible sections home S word := by
  have hhome' := hvisible home S hhome
  have hsmall : ∀ (i : Nat) T, visible[i]? = some T → (BitVec.ofNat 16 i).toNat = i := by
    intro i T hT
    have hlt := (List.getElem?_eq_some_iff.mp hT).1
    rw [BitVec.toNat_ofNat, Nat.mod_eq_of_lt (by omega)]
  have hrefers : S.Contains word → RefersTo sections home word home :=
    fun h => ⟨⟨S, hhome', h⟩, fun _ _ _ => rfl⟩
  have hcontains : ∀ t, RefersTo sections home word t → S.Contains word → t = home :=
    fun t ht h => ht.2 S hhome' h
  rw [retargetPointer_eq hcontext hsect hown]
  cases hcover : firstCover visible (S.lookedUp word) with
  | none =>
    dsimp only
    constructor
    · intro hright
      refine ⟨fun _ i hi => absurd (hcover.symm.trans hi) (by simp), ?_⟩
      rintro hnot ⟨T, hT, hword⟩
      -- a pointer that is not moved is one of the section itself
      obtain ⟨t, ht⟩ := List.getElem?_of_mem hT
      obtain ⟨t', T', ⟨⟨T'', hT'', hword'⟩, -⟩, hT', hload⟩ := hright
        ⟨t, ⟨T, ht, hword⟩, fun S' hS' h => by
          rw [hhome', Option.some.injEq] at hS'
          exact absurd (hS' ▸ h) hnot⟩
      rw [hown.target, hown.offset, hsmall home S hhome, forall_load_iff] at hload
      obtain ⟨rfl, -⟩ := hload
      rw [hhome', Option.some.injEq] at hT''
      exact absurd (hT'' ▸ hword') hnot
    · intro hcondition hexists
      by_cases hword : S.Contains word
      · refine ⟨home, S, hrefers hword, hhome', fun load => ?_⟩
        rw [hown.target, hown.offset, hsmall home S hhome]
      · obtain ⟨t, ⟨T, hT, hTword⟩, -⟩ := hexists
        obtain ⟨i, _, hi, -⟩ := hcondition.other hword ⟨T, List.mem_of_getElem? hT, hTword⟩
        rw [hcover] at hi
        cases hi
  | some i =>
    obtain ⟨T, hT, hcovers⟩ := firstCover_some hcover
    dsimp only
    rw [hT, Option.map_some, Option.getD_some]
    constructor
    · intro hright
      refine ⟨fun hword j hj => ?_, fun hnot ⟨U, hU, hword⟩ => ?_⟩
      · obtain ⟨t, U, ht, hU, hload⟩ := hright ⟨home, hrefers hword⟩
        rw [hsmall i T hT, forall_load_iff] at hload
        rw [hcover, Option.some.injEq] at hj
        rw [← hj, hload.1, hcontains t ht hword]
      · obtain ⟨t, ht⟩ := List.getElem?_of_mem hU
        obtain ⟨t', T', -, hT', hload⟩ := hright ⟨t, ⟨U, ht, hword⟩, fun S' hS' h => by
          rw [hhome', Option.some.injEq] at hS'
          exact absurd (hS' ▸ h) hnot⟩
        rw [hsmall i T hT, forall_load_iff] at hload
        obtain ⟨rfl, hoffset⟩ := hload
        rw [hvisible i T hT, Option.some.injEq] at hT'
        subst hT'
        exact ⟨i, T, hcover, hT, lookedUp_sub_iff.mp hoffset⟩
    · intro hcondition hexists
      by_cases hword : S.Contains word
      · -- the section's own pointers are found in the section
        obtain rfl := hcondition.own hword i hcover
        rw [hhome, Option.some.injEq] at hT
        subst hT
        refine ⟨i, S, hrefers hword, hhome', fun load => ?_⟩
        rw [hsmall i S hhome, lookedUp_sub_iff.mpr rfl]
      · obtain ⟨t, ⟨U, hU, hUword⟩, -⟩ := hexists
        obtain ⟨j, T', hj, hT', hdistance⟩ :=
          hcondition.other hword ⟨U, List.mem_of_getElem? hU, hUword⟩
        rw [hcover, Option.some.injEq] at hj
        subst hj
        rw [hT, Option.some.injEq] at hT'
        subst hT'
        have hsub : S.lookedUp word - T.placement.ramAddr = word - T.encoded :=
          lookedUp_sub_iff.mpr hdistance
        have hTword : T.Contains word := by
          rw [EncodedSection.Contains, ← hsub]
          exact toNat_sub_of_covers hcovers
        refine ⟨i, T, ⟨⟨T, hvisible i T hT, hTword⟩, fun S' hS' h => ?_⟩, hvisible i T hT,
          fun load => ?_⟩
        · rw [hhome', Option.some.injEq] at hS'
          exact absurd (hS' ▸ h) hword
        · rw [hsmall i T hT, hsub]

end One

/-! ## The sections of a synthesis -/

/-- The variants with their numbers and places. -/
def variantSections (start i : Nat) (hits : List PatternHit) :
    List (List (BitVec 8) × EncodedSection) :=
  (hits.zip (variantPlacements start i hits)).map fun v => (v.1.body, ⟨v.1.vram, v.2⟩)

/-- The sections that a synthesis adds, with their bodies. -/
def synthesizedSections (explicit : List DecompressedSection) (patterns : List DecompressedPattern) :
    List (List (BitVec 8) × EncodedSection) :=
  explicit.map (fun cfg => (cfg.blob, ⟨cfg.vram, cfg.placement⟩)) ++
    variantSections syntheticRomBase.toNat 0 ((variants patterns).map Prod.snd)

/-- All sections; the ones that were there before are at their encoded addresses. -/
def allSections (before : List Section) (explicit : List DecompressedSection)
    (patterns : List DecompressedPattern) : List EncodedSection :=
  before.map (fun sect => ⟨sect.ramAddr, sect.placement⟩) ++
    (synthesizedSections explicit patterns).map Prod.snd

/-- The sections that are there when the pointers of the `j`-th added section are moved: the
pointers of explicit sections are moved in front of the patterns. -/
def visibleSections (before : List Section) (explicit : List DecompressedSection)
    (patterns : List DecompressedPattern) (j : Nat) : List EncodedSection :=
  if j < explicit.length then
    (allSections before explicit patterns).take (before.length + explicit.length)
  else allSections before explicit patterns

/-- The pointers of the added sections are right. The word of a pointer is that of the body. -/
def PointersRight (before : List Section) (explicit : List DecompressedSection)
    (patterns : List DecompressedPattern) (st : Synthesis) : Prop :=
  ∀ j blob S, (synthesizedSections explicit patterns)[j]? = some (blob, S) →
    ∀ sect, st.sections[before.length + j]? = some sect → ∀ r ∈ sect.relocs, r.type = .mips32 →
      ∀ word, romWord blob (r.address - S.encoded).toNat = some word →
        PointerRight (allSections before explicit patterns) (before.length + j) word r

/-- The condition of every pointer in the tables of the added sections. -/
def PointersCondition (before : List Section) (explicit : List DecompressedSection)
    (patterns : List DecompressedPattern) : Prop :=
  ∀ j blob S, (synthesizedSections explicit patterns)[j]? = some (blob, S) →
    ∀ raw, fragmentTable blob = some raw → ∀ rr ∈ raw, rr.type = .mips32 →
      PointerCondition (visibleSections before explicit patterns j)
        (allSections before explicit patterns) (before.length + j) S rr.word

/-- An added section before its pointers are moved. -/
structure IsParsed (n : Nat) (blob : List (BitVec 8)) (S : EncodedSection) (sect : Section) :
    Prop where
  placement : sect.placement = S.placement
  relocs : ∃ raw, fragmentTable blob = some raw ∧ ∀ r, r ∈ sect.relocs ↔
    r ∈ tableRelocs raw S.encoded (BitVec.ofNat 16 n)

/-- The sections are parsed from their bodies, with their places in the list. -/
inductive AllParsed : Nat → List (List (BitVec 8) × EncodedSection) → List Section → Prop
  | nil (n : Nat) : AllParsed n [] []
  | cons {n : Nat} {blob : List (BitVec 8)} {S : EncodedSection} {sect : Section}
      {added : List (List (BitVec 8) × EncodedSection)} {sections : List Section}
      (first : IsParsed n blob S sect) (rest : AllParsed (n + 1) added sections) :
      AllParsed n ((blob, S) :: added) (sect :: sections)

section Run

variable {accepts : List (BitVec 8) → Bool} {fileSize n : Nat} {st st' : Synthesis}
  {added : List (List (BitVec 8) × EncodedSection)} {sections : List Section}

theorem AllParsed.length_eq (h : AllParsed n added sections) : sections.length = added.length := by
  induction h with
  | nil => rfl
  | cons _ _ ih => rw [List.length_cons, List.length_cons, ih]

theorem AllParsed.get (h : AllParsed n added sections) {j : Nat} {blob : List (BitVec 8)}
    {S : EncodedSection} (hj : added[j]? = some (blob, S)) :
    ∃ sect, sections[j]? = some sect ∧ IsParsed (n + j) blob S sect := by
  induction h generalizing j with
  | nil => cases hj
  | @cons n _ _ sect _ _ first rest ih =>
    cases j with
    | zero =>
      cases hj
      exact ⟨sect, rfl, first⟩
    | succ j =>
      obtain ⟨sect, hsect, hparsed⟩ := ih hj
      exact ⟨sect, hsect, by rwa [Nat.add_right_comm] at hparsed⟩

theorem AllParsed.placements (h : AllParsed n added sections) :
    sections.map Section.placement = added.map (·.2.placement) := by
  induction h with
  | nil => rfl
  | cons first _ ih => rw [List.map_cons, List.map_cons, first.placement, ih]

/-- Parsing gives the relocations of the table, sorted. -/
theorem isParsed_of_parse {blob : List (BitVec 8)} {S : EncodedSection} {base sect : Section}
    (hrelocs : base.relocs = []) (hplacement : base.placement = S.placement)
    (h : parseFragmentRelocs blob S.encoded (BitVec.ofNat 16 n) base = some sect) :
    IsParsed n blob S sect := by
  obtain ⟨raw, hraw, rfl⟩ := Option.map_eq_some_iff.mp h
  refine ⟨hplacement, raw, hraw, fun r => ?_⟩
  dsimp only
  rw [List.mem_insertionSort, hrelocs, List.nil_append]

theorem parsed_explicit {explicit : List DecompressedSection}
    (h : explicit.foldlM (addExplicitSection fileSize) st = some st') :
    ∃ sections, st'.sections = st.sections ++ sections ∧
      AllParsed st.sections.length
        (explicit.map fun cfg => (cfg.blob, ⟨cfg.vram, cfg.placement⟩)) sections := by
  induction explicit generalizing st with
  | nil =>
    cases h
    exact ⟨[], (List.append_nil _).symm, .nil _⟩
  | cons cfg explicit ih =>
    rw [List.foldlM_cons] at h
    obtain ⟨st₁, hadd, h⟩ := Option.bind_eq_some_iff.mp h
    obtain ⟨_, hadd⟩ := guard_bind_eq_some_iff.mp hadd
    obtain ⟨offset, hoffset, hadd⟩ := Option.bind_eq_some_iff.mp hadd
    obtain ⟨sect, hsect, hadd⟩ := Option.bind_eq_some_iff.mp hadd
    obtain rfl := Option.some.inj hadd
    obtain ⟨sections, hsections, hparsed⟩ := ih h
    have hsize : relocOffset cfg.blob = offset := by rw [relocOffset, hoffset, Option.getD_some]
    refine ⟨sect :: sections, ?_, ?_⟩
    · rw [hsections, List.append_assoc]
      rfl
    · refine .cons (isParsed_of_parse rfl ?_ hsect) ?_
      · rw [DecompressedSection.placement, hsize]
        rfl
      · rwa [List.length_append, List.length_singleton] at hparsed

theorem parsed_variants {vs : List (DecompressedPattern × PatternHit)}
    (h : vs.foldlM (fun st v => addVariant accepts v.1 st v.2) st = some st') :
    ∃ sections, st'.sections = st.sections ++ sections ∧
      AllParsed st.sections.length
        (variantSections st.nextSyntheticRom st.syntheticVariantIdx (vs.map Prod.snd))
        sections := by
  induction vs generalizing st with
  | nil =>
    cases h
    exact ⟨[], (List.append_nil _).symm, .nil _⟩
  | cons v vs ih =>
    rw [List.foldlM_cons] at h
    obtain ⟨st₁, hadd, h⟩ := Option.bind_eq_some_iff.mp h
    obtain ⟨_, hadd⟩ := guard_bind_eq_some_iff.mp hadd
    obtain ⟨offset, hoffset, hadd⟩ := Option.bind_eq_some_iff.mp hadd
    obtain ⟨_, hadd⟩ := guard_bind_eq_some_iff.mp hadd
    obtain ⟨_, hadd⟩ := guard_bind_eq_some_iff.mp hadd
    obtain ⟨sect, hsect, hadd⟩ := Option.bind_eq_some_iff.mp hadd
    obtain ⟨_, hadd⟩ := guard_bind_eq_some_iff.mp hadd
    obtain rfl := Option.some.inj hadd
    obtain ⟨sections, hsections, hparsed⟩ := ih h
    have hsize : relocOffset v.2.body = offset := by rw [relocOffset, hoffset, Option.getD_some]
    subst hsize
    refine ⟨sect :: sections, ?_, ?_⟩
    · rw [hsections, List.append_assoc]
      rfl
    · refine .cons (isParsed_of_parse rfl rfl hsect) ?_
      rwa [List.length_append, List.length_singleton] at hparsed

end Run

section Synthesized

variable {accepts : List (BitVec 8) → Bool} {fileSize : Nat} {rom : List (BitVec 8)}
  {before : List Section} {explicit : List DecompressedSection}
  {patterns : List DecompressedPattern} {st : Synthesis} {j : Nat} {blob : List (BitVec 8)}
  {S : EncodedSection}

/-- A section with its pointers moved. -/
def Section.retargeted (sect : Section) (context : List Section) : Section :=
  { sect with relocs := sect.relocs.map (retargetPointer context sect) }

theorem getElem?_resolve {sections : List Section} {first i : Nat} {sect : Section}
    (h : sections[i]? = some sect) : (resolveCrossSectionTargets sections first)[i]? =
      some (if first ≤ i then sect.retargeted sections else sect) := by
  rw [resolveCrossSectionTargets, List.getElem?_mapIdx, h]
  rfl

@[simp] theorem length_resolve (sections : List Section) (first : Nat) :
    (resolveCrossSectionTargets sections first).length = sections.length := by
  rw [resolveCrossSectionTargets, List.length_mapIdx]

theorem visible_explicit (h : j < explicit.length) :
    (visibleSections before explicit patterns j).map (·.placement) =
      before.map Section.placement ++ explicit.map (·.placement) := by
  rw [visibleSections, if_pos h, allSections, synthesizedSections, List.map_append,
    ← List.append_assoc, List.take_left'
      (by rw [List.length_append, List.length_map, List.length_map, List.length_map]),
    List.map_append, List.map_map, List.map_map, List.map_map]
  rfl

theorem allSections_placements :
    (allSections before explicit patterns).map (·.placement) =
      before.map Section.placement ++ (synthesizedSections explicit patterns).map (·.2.placement) := by
  rw [allSections, List.map_append, List.map_map, List.map_map]
  rfl

/-- **What a synthesis leaves of an added section**: the parsed section, with its pointers moved
among the sections that were visible. -/
theorem section_of_synthesize
    (h : synthesize accepts fileSize rom before explicit patterns = some st)
    (hlength : before.length + (synthesizedSections explicit patterns).length < 2 ^ 16)
    (hj : (synthesizedSections explicit patterns)[j]? = some (blob, S)) :
    ∃ context sect, context.map Section.placement =
        (visibleSections before explicit patterns j).map (·.placement) ∧
      IsParsed (before.length + j) blob S sect ∧
      st.sections[before.length + j]? = some (sect.retargeted context) := by
  obtain ⟨st₁, hexplicit, h⟩ := Option.bind_eq_some_iff.mp h
  obtain ⟨st₂, hpatterns, h⟩ := Option.bind_eq_some_iff.mp h
  cases h
  obtain ⟨-, -, hnext, hidx⟩ := adds_explicit hexplicit
  obtain ⟨es, hes, hparsed⟩ := parsed_explicit hexplicit
  rw [foldlM_addHits] at hpatterns
  obtain ⟨vs, hvs, hparsed'⟩ := parsed_variants hpatterns
  have hlengthEs := hparsed.length_eq
  rw [synthesizedSections, List.length_append, List.length_map] at hlength
  rw [List.length_map] at hlengthEs
  have hindex : (BitVec.ofNat 16 before.length).toNat = before.length := by
    rw [BitVec.toNat_ofNat, Nat.mod_eq_of_lt (by omega)]
  have hindex' : (BitVec.ofNat 16 (before.length + explicit.length)).toNat =
      before.length + explicit.length := by
    rw [BitVec.toNat_ofNat, Nat.mod_eq_of_lt (by omega)]
  dsimp only at hes hparsed hvs hparsed' hnext hidx
  rw [hes, hindex] at hvs hparsed'
  rw [hnext, hidx, length_resolve, List.length_append, hlengthEs] at hparsed'
  have hresolved : (resolveCrossSectionTargets (before ++ es) before.length).length =
      before.length + explicit.length := by
    rw [length_resolve, List.length_append, hlengthEs]
  dsimp only
  rw [hvs, hes, hindex, hresolved, hindex']
  rw [synthesizedSections] at hj
  rcases Nat.lt_or_ge j explicit.length with hlt | hge
  · -- an explicit section
    rw [List.getElem?_append_left (by rwa [List.length_map])] at hj
    obtain ⟨sect, hsect, hsectParsed⟩ := hparsed.get hj
    have hget : (before ++ es)[before.length + j]? = some sect := by
      rw [List.getElem?_append_right (Nat.le_add_right _ _), Nat.add_sub_cancel_left, hsect]
    refine ⟨before ++ es, sect, ?_, hsectParsed, ?_⟩
    · rw [visible_explicit hlt, List.map_append, hparsed.placements, List.map_map]
      rfl
    · have hget' : (resolveCrossSectionTargets (before ++ es) before.length ++
          vs)[before.length + j]? = some (sect.retargeted (before ++ es)) := by
        rw [List.getElem?_append_left (by omega), getElem?_resolve hget,
          if_pos (Nat.le_add_right _ _)]
      rw [getElem?_resolve hget', if_neg (by omega)]
  · -- a variant
    rw [List.getElem?_append_right (by rwa [List.length_map]), List.length_map] at hj
    obtain ⟨sect, hsect, hsectParsed⟩ := hparsed'.get hj
    have hget : (resolveCrossSectionTargets (before ++ es) before.length ++
        vs)[before.length + j]? = some sect := by
      rw [List.getElem?_append_right (by omega), hresolved]
      rw [← hsect]
      congr 1
      omega
    refine ⟨resolveCrossSectionTargets (before ++ es) before.length ++ vs, sect, ?_, ?_, ?_⟩
    · rw [visibleSections, if_neg (by omega), allSections_placements, List.map_append,
        resolveCrossSectionTargets_placement, List.map_append, hparsed.placements,
        hparsed'.placements, synthesizedSections, List.map_append, List.append_assoc]
    · have hsum : before.length + explicit.length + (j - explicit.length) = before.length + j := by
        omega
      rwa [hsum] at hsectParsed
    · rw [getElem?_resolve hget, if_pos (by omega)]

theorem getElem?_allSections (hj : (synthesizedSections explicit patterns)[j]? = some (blob, S)) :
    (allSections before explicit patterns)[before.length + j]? = some S := by
  rw [allSections, List.getElem?_append_right (by rw [List.length_map]; omega), List.length_map,
    Nat.add_sub_cancel_left, List.getElem?_map, hj]
  rfl

theorem getElem?_visible {i : Nat} {T : EncodedSection}
    (h : (visibleSections before explicit patterns j)[i]? = some T) :
    (allSections before explicit patterns)[i]? = some T := by
  unfold visibleSections at h
  split_ifs at h
  · rw [List.getElem?_take] at h
    split_ifs at h
    exact h
  · exact h

theorem getElem?_visible_self
    (hj : (synthesizedSections explicit patterns)[j]? = some (blob, S)) :
    (visibleSections before explicit patterns j)[before.length + j]? = some S := by
  unfold visibleSections
  split_ifs with hlt
  · rw [List.getElem?_take, if_pos (by omega)]
    exact getElem?_allSections hj
  · exact getElem?_allSections hj

theorem length_visible_le : (visibleSections before explicit patterns j).length ≤
    before.length + (synthesizedSections explicit patterns).length := by
  have hall : (allSections before explicit patterns).length =
      before.length + (synthesizedSections explicit patterns).length := by
    rw [allSections, List.length_append, List.length_map, List.length_map]
  unfold visibleSections
  split_ifs
  · rw [List.length_take]
    omega
  · omega

/-- A pointer of the table, as a relocation. -/
theorem isOwnPointer_fragmentReloc {raw : List RawReloc} {rr : RawReloc} (h : rr.type = .mips32)
    (n i : Nat) :
    IsOwnPointer n S rr.word (fragmentReloc raw S.encoded (BitVec.ofNat 16 n) i rr) where
  type := h
  target := rfl
  offset := by
    rw [fragmentReloc, fragmentOffset]
    dsimp only
    rw [h]

@[simp] theorem retargetPointer_type (context : List Section) (sect : Section) (reloc : Reloc) :
    (retargetPointer context sect reloc).type = reloc.type := by
  unfold retargetPointer
  dsimp only
  split_ifs
  · rfl
  · split <;> rfl

@[simp] theorem retargetPointer_addr (context : List Section) (sect : Section) (reloc : Reloc) :
    (retargetPointer context sect reloc).address = reloc.address := by
  unfold retargetPointer
  dsimp only
  split_ifs
  · rfl
  · split <;> rfl

section Pointers

variable (h : synthesize accepts fileSize rom before explicit patterns = some st)
  (hlength : before.length + (synthesizedSections explicit patterns).length < 2 ^ 16)

include h hlength

theorem condition_of_pointersRight (hright : PointersRight before explicit patterns st) :
    PointersCondition before explicit patterns := by
  intro j blob S hj raw hraw rr hrr htype
  obtain ⟨context, sect, hcontext, hparsed, hget⟩ := section_of_synthesize h hlength hj
  obtain ⟨raw', hraw', hrelocs⟩ := hparsed.relocs
  rw [hraw, Option.some.injEq] at hraw'
  subst hraw'
  obtain ⟨i, hi⟩ := List.getElem?_of_mem hrr
  have hmem : fragmentReloc raw S.encoded (BitVec.ofNat 16 (before.length + j)) i rr ∈
      sect.relocs := by
    rw [hrelocs, tableRelocs]
    refine List.mem_of_getElem? (i := i) ?_
    rw [List.getElem?_mapIdx, hi]
    rfl
  have hown : IsOwnPointer (before.length + j) S rr.word
      (fragmentReloc raw S.encoded (BitVec.ofNat 16 (before.length + j)) i rr) :=
    isOwnPointer_fragmentReloc htype _ _
  refine (pointerRight_iff (fun _ _ => getElem?_visible)
    (Nat.lt_of_le_of_lt length_visible_le hlength) hcontext (getElem?_visible_self hj)
    hparsed.placement hown).mp ?_
  refine hright j blob S hj _ hget _ (List.mem_map.mpr ⟨_, hmem, rfl⟩) ?_ _ ?_
  · rw [retargetPointer_type]
    exact htype
  · rw [retargetPointer_addr, fragmentReloc, BitVec.add_comm, BitVec.add_sub_cancel]
    exact romWord_of_mem_fragmentTable hraw hrr

theorem pointersRight_of_condition (hcondition : PointersCondition before explicit patterns) :
    PointersRight before explicit patterns st := by
  intro j blob S hj sect' hget' r hr htype word hword
  obtain ⟨context, sect, hcontext, hparsed, hget⟩ := section_of_synthesize h hlength hj
  rw [hget, Option.some.injEq] at hget'
  subst hget'
  obtain ⟨raw, hraw, hrelocs⟩ := hparsed.relocs
  obtain ⟨r₀, hr₀, rfl⟩ := List.mem_map.mp hr
  obtain ⟨i, hi⟩ := List.getElem?_of_mem ((hrelocs r₀).mp hr₀)
  rw [tableRelocs, List.getElem?_mapIdx, Option.map_eq_some_iff] at hi
  obtain ⟨rr, hrr, rfl⟩ := hi
  rw [retargetPointer_type] at htype
  -- the word of the body is the one that the parser read
  rw [retargetPointer_addr, fragmentReloc, BitVec.add_comm, BitVec.add_sub_cancel,
    romWord_of_mem_fragmentTable hraw (List.mem_of_getElem? hrr), Option.some.injEq] at hword
  subst hword
  exact (pointerRight_iff (fun _ _ => getElem?_visible)
    (Nat.lt_of_le_of_lt length_visible_le hlength) hcontext (getElem?_visible_self hj)
    hparsed.placement (isOwnPointer_fragmentReloc htype (before.length + j) i)).mpr
      (hcondition j blob S hj raw hraw rr (List.mem_of_getElem? hrr) htype)

/-- **The pointers of all added sections are right exactly when** each of them meets the condition;
for every synthesis that succeeds with section indices of 16 bits. -/
theorem pointersRight_iff :
    PointersRight before explicit patterns st ↔ PointersCondition before explicit patterns :=
  ⟨condition_of_pointersRight h hlength, pointersRight_of_condition h hlength⟩

end Pointers

end Synthesized

/-! ### A pointer into the code that is always loaded -/

/-- A fragment with a function, and a pointer to `0x80000500` behind it. -/
def pointerFragment : List (BitVec 8) :=
  [0x0BFC0008, 0, 0x46524147, 0x4D454E54, 0x20, 0x30, 0, 0x38, 0x03E00008, 0, 0x80000500, 0, 1,
    0x02000028].flatMap fun w => (List.range 4).map (wordByte w)

/-- A section that is always loaded. -/
def bootSection : Section :=
  { Section.empty with romAddr := 0x1000, ramAddr := 0x80000400, size := 0x1000 }

/-- The fragment as an explicit section. -/
def pointerSection : DecompressedSection := ⟨ascii "fragment", 0x2000, 0x8FF00000, true,
  pointerFragment⟩

/-- The fragment as the variant of a pattern. -/
def pointerPattern : DecompressedPattern where
  sectionName _ := ascii "fragment__rom"
  relocatable := true
  hits := [⟨0x2000, 0x8FF00000, pointerFragment, ⟨pointerFragment, by decide +kernel⟩⟩]

theorem fragmentTable_pointerFragment :
    fragmentTable pointerFragment = some [⟨.mips32, 0x28, 0x80000500⟩] := by decide +kernel

/-- The pointer of the explicit section is right. -/
theorem pointerSection_pointersRight : ∃ st, synthesize (fun _ => true) 0x4000 [] [bootSection]
    [pointerSection] [] = some st ∧ PointersRight [bootSection] [pointerSection] [] st := by
  obtain ⟨st, h⟩ := Option.isSome_iff_exists.mp (by decide +kernel :
    (synthesize (fun _ => true) 0x4000 [] [bootSection] [pointerSection] []).isSome)
  refine ⟨st, h, (pointersRight_iff h (by decide)).mpr ?_⟩
  intro j blob S hj raw hraw rr hrr htype
  obtain ⟨hlt, heq⟩ := List.getElem?_eq_some_iff.mp hj
  obtain rfl : j = 0 := Nat.lt_one_iff.mp hlt
  obtain ⟨rfl, rfl⟩ := Prod.mk.inj heq
  obtain rfl := Option.some.inj (fragmentTable_pointerFragment.symm.trans hraw)
  obtain rfl := List.mem_singleton.mp hrr
  exact ⟨fun h => absurd h (by decide +kernel), fun _ _ => ⟨0, _, by decide +kernel, rfl, rfl⟩⟩

/-- The same pointer of the variant is left to the variant itself. -/
theorem pointerPattern_not_pointersRight : ∃ st, synthesize (fun _ => true) 0x4000 []
    [bootSection] [] [pointerPattern] = some st ∧
      ¬ PointersRight [bootSection] [] [pointerPattern] st := by
  obtain ⟨st, h⟩ := Option.isSome_iff_exists.mp (by decide +kernel :
    (synthesize (fun _ => true) 0x4000 [] [bootSection] [] [pointerPattern]).isSome)
  refine ⟨st, h, fun hright => ?_⟩
  have hadded : synthesizedSections [] [pointerPattern] = [(pointerFragment,
      ⟨0x8FF00000, 0xFE000000, 0xC0000000, 0x30⟩)] := by decide +kernel
  have hcondition := condition_of_pointersRight h (by rw [hadded]; decide) hright
  obtain ⟨i, T, hcover, -⟩ := (hcondition 0 pointerFragment _ (by rw [hadded]; rfl) _
    fragmentTable_pointerFragment _ List.mem_cons_self rfl).other (by decide +kernel)
      ⟨⟨0x80000400, bootSection.placement⟩, List.mem_cons_self, by decide +kernel⟩
  have hnone : firstCover (visibleSections [bootSection] [] [pointerPattern] 0)
      (EncodedSection.lookedUp ⟨0x8FF00000, 0xFE000000, 0xC0000000, 0x30⟩ 0x80000500) = none := by
    decide +kernel
  rw [hnone] at hcover
  cases hcover

end N64Recomp
