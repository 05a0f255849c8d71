import N64Recomp.Recompilation.ProcessInstruction

/-!
# What a resolved relocation points at

The section and the offset that the translation of an instruction hands to the generator, against the
relocation they come from. The two remaps change the representation of an address of the context's
own; the one of a BSS section is also applied to relocations against reference sections, whose
indices count other sections.

## Main definitions

* `LinkTime`, `linkTime`: what a section and an offset stand for
* `Represents`: the resolved relocation stands for what the relocation does

## Main results

* `remapReloc_linkTime`: the remaps of a relocation of the context's own keep its address
* `resolveReloc_represents_iff`: a relocation that is acted on is represented exactly when no BSS
  remap meets a reference
-/

namespace N64Recomp

/-- What a section and an offset stand for: an address, or a symbol that gets its address later. -/
inductive LinkTime
  | address (a : BitVec 32)
  | special (sectionIndex offset : BitVec 32)
  deriving DecidableEq, Repr

/-- The section indices of a reference are those of the reference sections. -/
def linkTime (context : Context) (reference : Bool) (sectionIndex offset : BitVec 32) : LinkTime :=
  if sectionIndex = sectionAbsolute.setWidth 32 then .address offset
  else if reference then
    if sectionIndex = sectionImport.setWidth 32 ∨ sectionIndex = sectionEvent.setWidth 32 then
      .special sectionIndex offset
    else .address (((context.referenceSections[sectionIndex.toNat]?.map (·.ramAddr)).getD 0) +
      offset)
  else .address ((context.sectionAt sectionIndex.toNat).ramAddr + offset)

/-- The resolved relocation stands for what the relocation does, and a reference is left alone. -/
def Represents (context : Context) (reloc : Reloc) (info : RelocInfo) : Prop :=
  linkTime context reloc.referenceSymbol info.sectionIndex info.targetSectionOffset =
      linkTime context reloc.referenceSymbol (reloc.targetSection.setWidth 32)
        reloc.targetSectionOffset ∧
    (reloc.referenceSymbol = true → info.sectionIndex = reloc.targetSection.setWidth 32 ∧
      info.targetSectionOffset = reloc.targetSectionOffset)

/-- The index of the absolute section is not the index of a section, and the parents of the BSS
sections are sections. -/
structure Context.AbsoluteIndexFree (context : Context) : Prop where
  sections : context.sections.length ≤ sectionAbsolute.toNat
  parents : ∀ bss parent, context.bssSectionToSection bss = some parent →
    parent.toNat < context.sections.length

variable {context : Context} {reloc : Reloc}

/-! ### Link-time addresses -/

@[simp] theorem linkTime_absolute (reference : Bool) (offset : BitVec 32) :
    linkTime context reference (sectionAbsolute.setWidth 32) offset = .address offset := by
  simp only [linkTime, if_true]

theorem setWidth_32_ne {a b : BitVec 16} (h : a ≠ b) : a.setWidth 32 ≠ b.setWidth 32 := by
  intro heq
  have hnat := congrArg BitVec.toNat heq
  rw [BitVec.toNat_setWidth, BitVec.toNat_setWidth, Nat.mod_eq_of_lt (by omega),
    Nat.mod_eq_of_lt (by omega)] at hnat
  exact h (BitVec.eq_of_toNat_eq hnat)

theorem linkTime_section {sectionIndex : BitVec 32} (hcontext : context.AbsoluteIndexFree)
    (h : sectionIndex.toNat < context.sections.length) (offset : BitVec 32) :
    linkTime context false sectionIndex offset =
      .address ((context.sectionAt sectionIndex.toNat).ramAddr + offset) := by
  have habs : sectionIndex ≠ sectionAbsolute.setWidth 32 := by
    rintro rfl
    have hlen := hcontext.sections
    rw [BitVec.toNat_setWidth, Nat.mod_eq_of_lt (by decide)] at h
    omega
  simp only [linkTime, habs, if_false, Bool.false_eq_true]

/-- An address of the context's own, also where the index of the section is the absolute one. -/
theorem linkTime_own (hcontext : context.AbsoluteIndexFree) (targetSection : BitVec 16)
    (offset : BitVec 32) :
    linkTime context false (targetSection.setWidth 32) offset =
      .address ((context.sectionAt targetSection.toNat).ramAddr + offset) := by
  by_cases h : targetSection = sectionAbsolute
  · have hempty : context.sectionAt sectionAbsolute.toNat = Section.empty := by
      rw [Context.sectionAt, List.getD_eq_getElem?_getD,
        List.getElem?_eq_none hcontext.sections, Option.getD_none]
    rw [h, linkTime_absolute, hempty]
    exact congrArg LinkTime.address (BitVec.zero_add offset).symm
  · have hwide := setWidth_32_ne h
    have hindex : (targetSection.setWidth 32).toNat = targetSection.toNat := by
      rw [BitVec.toNat_setWidth, Nat.mod_eq_of_lt (by omega)]
    simp only [linkTime, hwide, hindex, if_false, Bool.false_eq_true]

/-! ### The two remaps -/

theorem remapReloc_bss {parent : BitVec 16} (hcontext : context.AbsoluteIndexFree)
    (h : context.bssSectionToSection reloc.targetSection = some parent) :
    remapReloc context reloc = (parent.setWidth 32,
      (context.sectionAt reloc.targetSection.toNat).ramAddr -
        (context.sectionAt parent.toNat).ramAddr) := by
  have hparent : parent.setWidth 32 ≠ sectionAbsolute.setWidth 32 := by
    refine setWidth_32_ne ?_
    rintro rfl
    have hlen := hcontext.sections
    have hlt := hcontext.parents _ _ h
    omega
  simp only [remapReloc, h, hparent, false_and, if_false]

theorem remapReloc_no_bss (h : context.bssSectionToSection reloc.targetSection = none)
    (hkeep : reloc.targetSection.setWidth 32 ≠ sectionAbsolute.setWidth 32 ∨
      reloc.referenceSymbol = true ∨
      context.sections.findIdx? (·.remaps reloc.targetSectionOffset) = none) :
    remapReloc context reloc = (reloc.targetSection.setWidth 32, 0) := by
  unfold remapReloc
  simp only [h]
  rcases hkeep with hkeep | hkeep | hkeep
  · simp only [hkeep, false_and, if_false]
  · simp only [hkeep, Bool.not_true, Bool.false_eq_true, and_false, if_false]
  · simp only [hkeep, ite_self]

theorem remapReloc_absolute {i : Nat}
    (h : context.bssSectionToSection reloc.targetSection = none)
    (habs : reloc.targetSection.setWidth 32 = sectionAbsolute.setWidth 32)
    (hown : reloc.referenceSymbol = false)
    (hi : context.sections.findIdx? (·.remaps reloc.targetSectionOffset) = some i) :
    remapReloc context reloc = (BitVec.ofNat 32 i, 0 - (context.sectionAt i).ramAddr) := by
  unfold remapReloc
  simp only [h, habs, hown, hi, Bool.not_false, and_self, if_true]

/-- The remaps of a relocation of the context's own keep its address. -/
theorem remapReloc_linkTime (hcontext : context.AbsoluteIndexFree)
    (hown : reloc.referenceSymbol = false) {sectionIndex adjustment : BitVec 32}
    (h : remapReloc context reloc = (sectionIndex, adjustment)) :
    linkTime context false sectionIndex (reloc.targetSectionOffset + adjustment) =
      linkTime context false (reloc.targetSection.setWidth 32) reloc.targetSectionOffset := by
  -- a BSS section goes to its parent, and an absolute address to the section that contains it
  rcases hbss : context.bssSectionToSection reloc.targetSection with _ | parent
  · by_cases hkeep : reloc.targetSection.setWidth 32 ≠ sectionAbsolute.setWidth 32 ∨
        reloc.referenceSymbol = true ∨
        context.sections.findIdx? (·.remaps reloc.targetSectionOffset) = none
    · rw [remapReloc_no_bss hbss hkeep] at h
      obtain ⟨rfl, rfl⟩ := Prod.mk.inj h
      exact congrArg _ (BitVec.add_zero reloc.targetSectionOffset)
    · push Not at hkeep
      obtain ⟨habs, -, hfound⟩ := hkeep
      obtain ⟨i, hi⟩ := Option.ne_none_iff_exists'.mp hfound
      rw [remapReloc_absolute hbss habs hown hi] at h
      obtain ⟨rfl, rfl⟩ := Prod.mk.inj h
      have hlt : i < context.sections.length := by
        obtain ⟨hlt, -⟩ := List.findIdx?_eq_some_iff_getElem.mp hi
        exact hlt
      have hindex : (BitVec.ofNat 32 i).toNat = i := by
        have hlen := hcontext.sections
        have : sectionAbsolute.toNat = 0xFFFE := rfl
        rw [BitVec.toNat_ofNat, Nat.mod_eq_of_lt (by omega)]
      rw [linkTime_section hcontext (by rw [hindex]; exact hlt), hindex, habs, linkTime_absolute]
      exact congrArg LinkTime.address (by bv_omega)
  · rw [remapReloc_bss hcontext hbss] at h
    obtain ⟨rfl, rfl⟩ := Prod.mk.inj h
    rw [linkTime_own hcontext, linkTime_own hcontext]
    exact congrArg LinkTime.address (by bv_omega)

/-! ### The resolved relocation -/

/-- A half of an address in a section of the context's own; the base itself is a constant. -/
theorem resolveReloc_own {relocs : List Reloc} {k : Nat} {vram sectionIndex adjustment : BitVec 32}
    {sect : Section} (hreloc : relocs[k]? = some reloc) (haddress : reloc.address = vram)
    (hown : reloc.referenceSymbol = false) (hhalf : reloc.type = .hi16 ∨ reloc.type = .lo16)
    (hremap : remapReloc context reloc = (sectionIndex, adjustment))
    (hsect : context.sections[sectionIndex.toNat]? = some sect)
    (habs : sectionIndex ≠ sectionAbsolute.setWidth 32) :
    resolveReloc context relocs k vram =
      some (if sect.relocatable ∧ reloc.targetSectionOffset + adjustment ≠ 0 then
        ⟨true, sectionIndex, reloc.type, reloc.targetSectionOffset + adjustment, none⟩
      else ⟨true, sectionIndex, .none, 0, none⟩) := by
  have htarget : targetRelocatable context reloc sectionIndex adjustment =
      some (sect.relocatable && !decide (reloc.targetSectionOffset + adjustment = 0)) := by
    unfold targetRelocatable
    rw [hown, if_pos ⟨rfl, habs⟩, hsect, Option.map_some, decide_eq_true hhalf, Bool.true_and]
  unfold resolveReloc
  simp only [hreloc, haddress, ne_eq, not_true, if_false, hremap, htarget, Option.bind_some, hown,
    Bool.or_false, Bool.false_eq_true, false_and]
  by_cases hrel : sect.relocatable = true <;>
    by_cases hbase : reloc.targetSectionOffset + adjustment = 0#32 <;> simp [hrel, hbase]

/-- What `resolveReloc` returns keeps what the remaps made of the relocation. -/
theorem resolveReloc_info {relocs : List Reloc} {k : Nat} {vram : BitVec 32} {info : RelocInfo}
    (hreloc : relocs[k]? = some reloc) (haddress : reloc.address = vram)
    (hacted : reloc.referenceSymbol = true ∨ info.type ≠ .none)
    (h : resolveReloc context relocs k vram = some info) :
    info.sectionIndex = (remapReloc context reloc).1 ∧
      info.targetSectionOffset = reloc.targetSectionOffset + (remapReloc context reloc).2 := by
  simp only [resolveReloc, hreloc, haddress, ne_eq, not_true, if_false] at h
  obtain ⟨relocatable, -, h⟩ := Option.bind_eq_some_iff.mp h
  split at h
  · rename_i hliteral
    cases h
    simp_all
  · split at h
    · split at h
      · obtain ⟨referenceRelocatable, -, h⟩ := Option.map_eq_some_iff.mp h
        split at h <;> cases h <;> exact ⟨rfl, rfl⟩
      · cases h
        exact ⟨rfl, rfl⟩
    · cases h
      exact ⟨rfl, rfl⟩

/-- **The remaps change the representation only**, except where the index of a reference section is
the index of a BSS section. -/
theorem resolveReloc_represents_iff (hcontext : context.AbsoluteIndexFree) {relocs : List Reloc}
    {k : Nat} {vram : BitVec 32} {info : RelocInfo} (hreloc : relocs[k]? = some reloc)
    (haddress : reloc.address = vram) (hacted : reloc.referenceSymbol = true ∨ info.type ≠ .none)
    (h : resolveReloc context relocs k vram = some info) :
    Represents context reloc info ↔
      (reloc.referenceSymbol = true →
        ∀ parent, context.bssSectionToSection reloc.targetSection = some parent →
          parent = reloc.targetSection) := by
  obtain ⟨hsection, hoffset⟩ := resolveReloc_info hreloc haddress hacted h
  rcases hown : reloc.referenceSymbol with _ | _
  · simp only [Bool.false_eq_true, false_imp_iff, iff_true]
    refine ⟨?_, by simp only [hown, Bool.false_eq_true, false_imp_iff]⟩
    rw [hown, hsection, hoffset]
    exact remapReloc_linkTime hcontext hown rfl
  · constructor
    · rintro ⟨-, hsame⟩ - parent hparent
      obtain ⟨heq, -⟩ := hsame hown
      rw [hsection, remapReloc_bss hcontext hparent] at heq
      by_contra hne
      exact setWidth_32_ne hne heq
    · intro hfree
      have hremap : remapReloc context reloc = (reloc.targetSection.setWidth 32, 0) := by
        rcases hbss : context.bssSectionToSection reloc.targetSection with _ | parent
        · exact remapReloc_no_bss hbss (Or.inr (Or.inl hown))
        · rw [remapReloc_bss hcontext hbss, hfree rfl parent hbss, BitVec.sub_self]
          rfl
      rw [hremap] at hsection hoffset
      have hoffset' : info.targetSectionOffset = reloc.targetSectionOffset :=
        hoffset.trans (BitVec.add_zero _)
      exact ⟨by rw [hsection, hoffset'], fun _ => ⟨hsection, hoffset'⟩⟩

/-! ### A BSS section and a reference section of one index -/

/-- A relocatable section at `0x81400000` and its BSS section, which has index 1, and two reference
sections. -/
def sampleBssContext : Context where
  __ := Context.empty
  sections := [{ Section.empty with ramAddr := 0x81400000, size := 0x1000, relocatable := true },
    { Section.empty with ramAddr := 0x81401000, size := 0x100 }]
  bssSectionToSection i := if i = 1 then some 0 else none
  referenceSections := [⟨0x1000, 0x80000400, 0x1000, true⟩, ⟨0x2000, 0x80300000, 0x1000, true⟩]

/-- A `HI16` at `0x81400000` of the byte `0x10` of section 1. -/
def sampleBssReloc (referenceSymbol : Bool) : Reloc where
  address := 0x81400000
  targetSectionOffset := 0x10
  symbolIndex := 0
  targetSection := 1
  type := .hi16
  referenceSymbol

theorem sampleBssContext_absoluteIndexFree : sampleBssContext.AbsoluteIndexFree where
  sections := by decide
  parents bss parent h := by
    have hcase : (if bss = 1 then some (0 : BitVec 16) else none) = some parent := h
    split at hcase <;> cases hcase
    decide

theorem resolveReloc_represents_bss :
    Represents sampleBssContext (sampleBssReloc false) ⟨true, 0, .hi16, 0x1010, none⟩ := by
  have hresolved : resolveReloc sampleBssContext [sampleBssReloc false] 0 0x81400000 =
      some ⟨true, 0, .hi16, 0x1010, none⟩ := by decide
  exact (resolveReloc_represents_iff sampleBssContext_absoluteIndexFree rfl rfl
    (Or.inr (by decide)) hresolved).mpr (by decide)

/-- The reference is handed on as the byte `0x1010` of reference section 0. -/
theorem resolveReloc_redirects_reference :
    resolveReloc sampleBssContext [sampleBssReloc true] 0 0x81400000 =
        some ⟨true, 0, .hi16, 0x1010, some 0⟩ ∧
      ¬ Represents sampleBssContext (sampleBssReloc true) ⟨true, 0, .hi16, 0x1010, some 0⟩ := by
  refine ⟨by decide, ?_⟩
  rintro ⟨haddress, -⟩
  revert haddress
  decide

end N64Recomp
