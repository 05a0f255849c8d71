import N64Recomp.CGenerator.RelocOperands
import N64Recomp.Decompressed.FragmentRelocs
import N64Recomp.Recompilation.RelocCursor
import N64Recomp.Recompilation.RelocTarget

/-!
# The pairs of a fragment

The address that an emitted `lui` and an emitted instruction with a low half compute. Each of the
two is emitted with the relocation of its own entry, which has the target of the pair that its entry
was parsed in; when several low halves share a `lui`, that is the pair of the first of them.

## Main definitions

* `FragmentSection`: a section that was made from a fragment
* `targetAt`: the target that the first entry of a word has
* `PairComputes`: the emitted pair computes the target of its entries

## Main results

* `fragment_pair_computes_iff`: a pair computes its target exactly when its two halves are relocated
  alike and the carry is the same
-/

namespace N64Recomp

open CLang CLang.CType Mips CGenerator

/-- A section of the context that was made from a fragment, with its own pointers moved. -/
structure FragmentSection (context : Context) (raw : List RawReloc) (sectionVram : BitVec 32)
    (sectionIndex : BitVec 16) : Prop where
  bound : sectionIndex.toNat < context.sections.length
  notAbsolute : sectionIndex ≠ sectionAbsolute
  notBss : context.bssSectionToSection sectionIndex = none
  relocs : ∃ sections sect, (context.sectionAt sectionIndex.toNat).relocs =
    (sortByAddress (tableRelocs raw sectionVram sectionIndex)).map (retargetPointer sections sect)

/-- The first entry of a word, with its place in the table. -/
def entryAt (raw : List RawReloc) (sectionOffset : BitVec 32) : Option (RawReloc × Nat) :=
  raw.zipIdx.find? (·.1.sectionOffset = sectionOffset)

/-- The target that the first entry of a word has, from the section's start. -/
def targetAt (raw : List RawReloc) (sectionVram sectionOffset : BitVec 32) : BitVec 32 :=
  ((entryAt raw sectionOffset).map fun e => fragmentOffset raw sectionVram e.2 e.1).getD 0

/-- The instruction of an entry. -/
def RawReloc.instr (rr : RawReloc) (sectionVram : BitVec 32) : InstructionCpu :=
  ⟨rr.word, sectionVram + rr.sectionOffset⟩

/-- What the texts of a `lui` and of an instruction with a low half compute. -/
def TextsCompute (m : Machine) (ctxHi ctxLo : InstructionContext) (x : BitVec 32) : Prop :=
  ∃ hiText loText : CExpr, ∃ u v : BitVec 64, getOperand .immU16 .lui ctxHi = .ok hiText ∧
    getOperand .immS16 .none ctxLo = .ok loText ∧ Yields m hiText u ∧ Yields m loText v ∧
    word (u + v) = x

namespace Translation

/-- What the loop hands to the translation of an instruction. -/
def relocInfoAt (t : Translation) (instr : InstructionCpu) : Option RelocInfo :=
  resolveReloc t.context t.funcSection.relocs (advanceRelocs instr.vram t.funcSection.relocs 0)
    instr.vram

/-- The emitted pair is relocated or literal as one, and computes `R` plus the offset of its target,
or its target. -/
def PairComputes (t : Translation) (m : Machine) (sectionVram : BitVec 32) (hi lo : RawReloc) :
    Prop :=
  ∃ hiInfo loInfo : RelocInfo,
    t.relocInfoAt (hi.instr sectionVram) = some hiInfo ∧
    t.relocInfoAt (lo.instr sectionVram) = some loInfo ∧
    (hiInfo.type = .none ↔ loInfo.type = .none) ∧
    TextsCompute m (t.instructionContext (hi.instr sectionVram) hiInfo)
      (t.instructionContext (lo.instr sectionVram) loInfo)
      (if hiInfo.type = .none then combinedAddress hi lo
        else m.sectionAddresses (t.func.sectionIndex.setWidth 32) +
          (combinedAddress hi lo - sectionVram))

end Translation

/-- The halves with two targets are relocated alike, and the carry of the first is that of a target
of the pair. -/
def OffsetsAgree (relocatable : Bool) (base hiOffset loOffset offset : BitVec 32) : Prop :=
  relocatable = false ∨ (hiOffset = 0 ∧ loOffset = 0) ∨
    (hiOffset ≠ 0 ∧ loOffset ≠ 0 ∧ relocInRange base hiOffset = true ∧
      relocInRange base loOffset = true ∧
      highHalf (base + hiOffset) <<< 16 = highHalf (base + offset) <<< 16)

/-- The halves of a pair agree, with the targets of the first entries of their words. -/
def PairAgrees (relocatable : Bool) (base sectionVram : BitVec 32) (raw : List RawReloc)
    (hi lo : RawReloc) : Prop :=
  OffsetsAgree relocatable base (targetAt raw sectionVram hi.sectionOffset)
    (targetAt raw sectionVram lo.sectionOffset) (combinedAddress hi lo - sectionVram)

instance (relocatable : Bool) (base hiOffset loOffset offset : BitVec 32) :
    Decidable (OffsetsAgree relocatable base hiOffset loOffset offset) :=
  inferInstanceAs (Decidable (_ ∨ _ ∨ _))

/-! ### The relocation that the cursor finds -/

section Table

variable {raw : List RawReloc} {sectionVram : BitVec 32} {sectionIndex : BitVec 16}

/-- A word that has an entry has a first entry. -/
theorem exists_entryAt {rr : RawReloc} (h : rr ∈ raw) :
    ∃ first j, entryAt raw rr.sectionOffset = some (first, j) ∧ first ∈ raw ∧
      first.sectionOffset = rr.sectionOffset := by
  have hsome : (entryAt raw rr.sectionOffset).isSome := by
    obtain ⟨j, hj, rfl⟩ := List.getElem_of_mem h
    unfold entryAt
    rw [List.find?_isSome]
    exact ⟨(raw[j], j), List.mk_mem_zipIdx_iff_getElem?.mpr (List.getElem?_eq_getElem hj),
      decide_eq_true rfl⟩
  obtain ⟨⟨first, j⟩, hfirst⟩ := Option.isSome_iff_exists.mp hsome
  have hmem := List.mem_of_find?_eq_some hfirst
  have hoffset := List.find?_some hfirst
  exact ⟨first, j, hfirst, (List.fst_mem_of_mem_zipIdx hmem), of_decide_eq_true hoffset⟩

theorem relocAt_tableRelocs (sectionOffset : BitVec 32) :
    relocAt (tableRelocs raw sectionVram sectionIndex) (sectionVram + sectionOffset) =
      (entryAt raw sectionOffset).map fun e =>
        fragmentReloc raw sectionVram sectionIndex e.2 e.1 := by
  unfold relocAt tableRelocs entryAt
  rw [List.mapIdx_eq_zipIdx_map, List.find?_map]
  congr 2
  funext e
  simp only [Function.comp, fragmentReloc, BitVec.add_right_inj]

@[simp] theorem retargetPointer_address (sections : List Section) (sect : Section) (reloc : Reloc) :
    (retargetPointer sections sect reloc).address = reloc.address := by
  unfold retargetPointer
  by_cases htype : reloc.type = .mips32
  · simp only [htype, ne_eq, not_true, if_false]
    split <;> rfl
  · simp only [htype, ne_eq, not_false_eq_true, if_true]

/-- The pass over the pointers keeps the relocations of the halves. -/
theorem relocAt_map_retarget {relocs : List Reloc} {sections : List Section} {sect : Section}
    {vram : BitVec 32} {reloc : Reloc} (h : relocAt relocs vram = some reloc)
    (htype : reloc.type ≠ .mips32) :
    relocAt (relocs.map (retargetPointer sections sect)) vram = some reloc := by
  have hkeep : retargetPointer sections sect reloc = reloc := if_pos htype
  unfold relocAt at h ⊢
  rw [List.find?_map]
  simp only [Function.comp_def, retargetPointer_address, h, Option.map_some, hkeep]

/-- The pass over the pointers keeps the order. -/
theorem sortedByAddress_map_retarget {relocs : List Reloc} (h : SortedByAddress relocs)
    (sections : List Section) (sect : Section) :
    SortedByAddress (relocs.map (retargetPointer sections sect)) := by
  unfold SortedByAddress
  simp only [List.pairwise_map, retargetPointer_address]
  exact h

end Table

section Resolve

variable {t : Translation} {raw : List RawReloc} {sectionVram : BitVec 32}

/-- What the translation of a half acts on. -/
def halfInfo (relocatable : Bool) (type : RelocType) (sectionIndex : BitVec 16)
    (offset : BitVec 32) : RelocInfo :=
  if relocatable ∧ offset ≠ 0 then ⟨true, sectionIndex.setWidth 32, type, offset, none⟩
  else ⟨true, sectionIndex.setWidth 32, .none, 0, none⟩

/-- The cursor finds the first entry of a word, and the translation takes its target. -/
theorem relocInfoAt_half (hsection : FragmentSection t.context raw sectionVram t.func.sectionIndex)
    {rr : RawReloc} (hmem : rr ∈ raw) (hhalf : rr.type = .hi16 ∨ rr.type = .lo16)
    (hcarries : ∀ e ∈ raw, e.sectionOffset = rr.sectionOffset → e.type = rr.type) :
    t.relocInfoAt (rr.instr sectionVram) = some (halfInfo t.funcSection.relocatable rr.type
      t.func.sectionIndex (targetAt raw sectionVram rr.sectionOffset)) := by
  obtain ⟨first, j, hentry, hfirst, hoffset⟩ := exists_entryAt hmem
  have htype := hcarries first hfirst hoffset
  obtain ⟨sections, sect, hrelocs⟩ := hsection.relocs
  have hat : relocAt t.funcSection.relocs (sectionVram + rr.sectionOffset) =
      some (fragmentReloc raw sectionVram t.func.sectionIndex j first) := by
    rw [Translation.funcSection, hrelocs]
    refine relocAt_map_retarget ?_ ?_
    · rw [relocAt_sortByAddress, relocAt_tableRelocs, hentry]
      rfl
    · rw [show (fragmentReloc raw sectionVram t.func.sectionIndex j first).type = rr.type from
        htype]
      rcases hhalf with h | h <;> rw [h] <;> decide
  have hsorted : SortedByAddress t.funcSection.relocs := by
    rw [Translation.funcSection, hrelocs]
    exact sortedByAddress_map_retarget (sortedByAddress_sortByAddress _) _ _
  have htarget : targetAt raw sectionVram rr.sectionOffset =
      fragmentOffset raw sectionVram j first := by
    unfold targetAt
    rw [hentry]
    rfl
  have habs := setWidth_32_ne hsection.notAbsolute
  have hremap : remapReloc t.context (fragmentReloc raw sectionVram t.func.sectionIndex j first) =
      (t.func.sectionIndex.setWidth 32, 0) :=
    remapReloc_no_bss hsection.notBss (Or.inl habs)
  have hindex : (t.func.sectionIndex.setWidth 32).toNat = t.func.sectionIndex.toNat := by
    rw [BitVec.toNat_setWidth, Nat.mod_eq_of_lt (by omega)]
  have hsect : t.context.sections[(t.func.sectionIndex.setWidth 32).toNat]? =
      some t.funcSection := by
    rw [hindex, Translation.funcSection, Context.sectionAt, List.getD_eq_getElem?_getD,
      List.getElem?_eq_getElem hsection.bound, Option.getD_some]
  unfold Translation.relocInfoAt RawReloc.instr
  have htype' : (fragmentReloc raw sectionVram t.func.sectionIndex j first).type = rr.type := htype
  have hoffset' : (fragmentReloc raw sectionVram t.func.sectionIndex j first).targetSectionOffset +
      0 = targetAt raw sectionVram rr.sectionOffset := by
    rw [htarget]
    exact BitVec.add_zero _
  rw [resolveReloc_own (getElem?_advanceRelocs hsorted hat)
    (show sectionVram + first.sectionOffset = _ by rw [hoffset]) rfl (by rw [htype']; exact hhalf)
    hremap hsect habs, hoffset', htype']
  rfl

end Resolve

/-! ### The printed texts -/

section Texts

variable {m : Machine} {ctxHi ctxLo : InstructionContext}

/-- The value of a text is unique. -/
theorem Yields.unique {e : CExpr} {x y : BitVec 64} (hx : Yields m e x) (hy : Yields m e y) :
    x = y := by
  obtain ⟨v, hv, rfl⟩ := hx
  obtain ⟨w, hw, rfl⟩ := hy
  rw [hv] at hw
  exact congrArg CVal.bits (Option.some.inj hw)

theorem textsCompute_iff {hiText loText : CExpr} {u v : BitVec 64}
    (hhi : getOperand .immU16 .lui ctxHi = .ok hiText)
    (hlo : getOperand .immS16 .none ctxLo = .ok loText) (hu : Yields m hiText u)
    (hv : Yields m loText v) (x : BitVec 32) :
    TextsCompute m ctxHi ctxLo x ↔ word (u + v) = x := by
  constructor
  · rintro ⟨hiText', loText', u', v', hhi', hlo', hu', hv', rfl⟩
    obtain rfl : hiText = hiText' := Except.ok.inj (hhi.symm.trans hhi')
    obtain rfl : loText = loText' := Except.ok.inj (hlo.symm.trans hlo')
    rw [hu.unique hu', hv.unique hv']
  · exact fun h => ⟨hiText, loText, u, v, hhi, hlo, hu, hv, h⟩

/-- Two literal halves compute what the instruction words do. -/
theorem textsCompute_literal (hhi : ctxHi.relocType = .none) (hlo : ctxLo.relocType = .none)
    (x : BitVec 32) :
    TextsCompute m ctxHi ctxLo x ↔
      (ctxHi.imm16.setWidth 32 <<< 16) + ctxLo.imm16.signExtend 32 = x := by
  have htextHi : getOperand .immU16 .lui ctxHi =
      .ok (unaryAffixes .lui (literal ctxHi.imm16.toNat)) := by
    simp only [getOperand, operandText, hhi, ne_eq, not_true, if_false]
    rfl
  have htextLo : getOperand .immS16 .none ctxLo = .ok (signedLiteral ctxLo.imm16.toInt) := by
    simp only [getOperand, operandText, hlo, ne_eq, not_true, if_false]
    rfl
  rw [textsCompute_iff htextHi htextLo (yields_lui _) (holds_immS16 _).yields]
  have hsum : word (ofWord (ctxHi.imm16.setWidth 32 <<< 16) + ctxLo.imm16.signExtend 64) =
      (ctxHi.imm16.setWidth 32 <<< 16) + ctxLo.imm16.signExtend 32 := by
    rw [← ofWord_signExtend, word, BitVec.setWidth_add _ _ (by decide)]
    exact congrArg₂ (· + ·) (word_ofWord _) (word_ofWord _)
  rw [hsum]

/-- Two relocated halves compute the address that their two targets make up. -/
theorem textsCompute_reloc (hhi : ctxHi.relocType = .hi16) (hlo : ctxLo.relocType = .lo16)
    (x : BitVec 32) :
    TextsCompute m ctxHi ctxLo x ↔
      relocInRange (relocBase m ctxHi) ctxHi.relocTargetSectionOffset = true ∧
      relocInRange (relocBase m ctxLo) ctxLo.relocTargetSectionOffset = true ∧
      (highHalf (relocBase m ctxHi + ctxHi.relocTargetSectionOffset) <<< 16) +
        signedImmediateOf (relocBase m ctxLo + ctxLo.relocTargetSectionOffset) = x := by
  by_cases hrangeHi : relocInRange (relocBase m ctxHi) ctxHi.relocTargetSectionOffset = true
  · by_cases hrangeLo : relocInRange (relocBase m ctxLo) ctxLo.relocTargetSectionOffset = true
    · rw [textsCompute_iff (getOperand_relocLui hhi) (getOperand_relocLow hlo)
        (yields_relocLui hrangeHi) (yields_relocLow hrangeLo), word,
        BitVec.setWidth_add _ _ (by decide)]
      simp only [hrangeHi, hrangeLo, true_and]
      rw [show (ofWord _).setWidth 32 = _ from word_ofWord _,
        show (ofWord _).setWidth 32 = _ from word_ofWord _]
    · have hno := not_yields_reloc (Bool.eq_false_iff.mpr hrangeLo)
      simp only [hrangeLo, Bool.false_eq_true, false_and, and_false, iff_false]
      rintro ⟨hiText, loText, u, v, -, hlo', -, hv, -⟩
      obtain rfl := Except.ok.inj ((getOperand_relocLow hlo).symm.trans hlo')
      exact (hno v).2 hv
  · have hno := not_yields_reloc (Bool.eq_false_iff.mpr hrangeHi)
    simp only [hrangeHi, Bool.false_eq_true, false_and, iff_false]
    rintro ⟨hiText, loText, u, v, hhi', -, hu, -, -⟩
    obtain rfl := Except.ok.inj ((getOperand_relocLui hhi).symm.trans hhi')
    exact (hno u).1 hu

end Texts

/-! ### The pair -/

section Pair

variable {bytes : List (BitVec 8)} {raw : List RawReloc} {sectionVram : BitVec 32} {hi lo : RawReloc}
  {i : Nat}

/-- An entry has the word of the body at its offset. -/
theorem romWord_of_mem_fragmentTable (hbytes : fragmentTable bytes = some raw) {rr : RawReloc}
    (h : rr ∈ raw) : romWord bytes rr.sectionOffset.toNat = some rr.word := by
  have hraw : ∃ relocOffset sizeInRam count, raw = rawRelocs bytes sizeInRam relocOffset count := by
    unfold fragmentTable at hbytes
    simp only [Option.bind_eq_bind, Option.bind_eq_some_iff] at hbytes
    obtain ⟨-, -, relocOffset, -, sizeInRam, -, -, -, -, -, count, -, -, -, hraw⟩ := hbytes
    exact ⟨relocOffset, sizeInRam, count.toNat, (Option.some.inj hraw).symm⟩
  obtain ⟨relocOffset, sizeInRam, count, rfl⟩ := hraw
  obtain ⟨j, -, hj⟩ := List.mem_filterMap.mp h
  obtain ⟨entry, -, hentry⟩ := Option.bind_eq_some_iff.mp hj
  unfold rawReloc at hentry
  dsimp only at hentry
  split at hentry
  · cases hentry
  · split at hentry
    · cases hentry
    · obtain ⟨word, hword, rfl⟩ := Option.map_eq_some_iff.mp hentry
      exact hword

/-- A target other than the base has the low half of its instruction. -/
theorem lowHalf_targetAt (hi : RawReloc) (hbytes : fragmentTable bytes = some raw) (hmem : lo ∈ raw)
    (hcarries : ∀ e ∈ raw, e.sectionOffset = lo.sectionOffset → e.type = .lo16)
    (hbase : targetAt raw sectionVram lo.sectionOffset ≠ 0) (base : BitVec 32) :
    lowHalf (base + targetAt raw sectionVram lo.sectionOffset) =
      lowHalf (base + (combinedAddress hi lo - sectionVram)) := by
  obtain ⟨first, j, hentry, hfirst, hoffset⟩ := exists_entryAt hmem
  have htype := hcarries first hfirst hoffset
  have hword : first.word = lo.word := by
    have h := romWord_of_mem_fragmentTable hbytes hfirst
    rw [hoffset, romWord_of_mem_fragmentTable hbytes hmem] at h
    exact (Option.some.inj h).symm
  have htarget : targetAt raw sectionVram lo.sectionOffset =
      ((precedingHi16 raw j).map fun hi => combinedAddress hi first - sectionVram).getD 0 := by
    rw [targetAt, hentry, Option.map_some, Option.getD_some, fragmentOffset, htype]
  rcases hpaired : precedingHi16 raw j with _ | hi'
  · rw [htarget, hpaired] at hbase
    exact absurd rfl hbase
  · rw [htarget, hpaired, Option.map_some, Option.getD_some]
    have hsplit : ∀ h : BitVec 32, base + ((h <<< 16) + signedImmediateOf lo.word - sectionVram) =
        (h <<< 16) + (base + signedImmediateOf lo.word - sectionVram) := by
      intro h
      generalize h <<< 16 = a
      generalize signedImmediateOf lo.word = b
      bv_omega
    rw [combinedAddress, combinedAddress, hword, hsplit, hsplit, lowHalf_shift_add,
      lowHalf_shift_add]

theorem textsCompute_instr {t : Translation} {m : Machine} {hiInfo loInfo : RelocInfo}
    (hhi : hiInfo.type = .none) (hlo : loInfo.type = .none) :
    TextsCompute m (t.instructionContext (hi.instr sectionVram) hiInfo)
      (t.instructionContext (lo.instr sectionVram) loInfo) (combinedAddress hi lo) := by
  rw [textsCompute_literal hhi hlo]
  have himm : (hi.word.setWidth 16).setWidth 32 = immediateOf hi.word := by
    have hmask : (0xFFFF : BitVec 32).toNat = 2 ^ 16 - 1 := by decide
    apply BitVec.eq_of_toNat_eq
    rw [immediateOf, BitVec.toNat_and, hmask, Nat.and_two_pow_sub_one_eq_mod,
      BitVec.toNat_setWidth, BitVec.toNat_setWidth]
    omega
  show ((hi.word.setWidth 16).setWidth 32 <<< 16) + (lo.word.setWidth 16).signExtend 32 = _
  rw [himm]
  rfl

/-- A pair that is translated with two targets. -/
theorem pairComputes_iff_offsetsAgree {t : Translation} {m : Machine} {relocatable : Bool}
    {hiOffset loOffset : BitVec 32}
    (hinfoHi : t.relocInfoAt (hi.instr sectionVram) =
      some (halfInfo relocatable .hi16 t.func.sectionIndex hiOffset))
    (hinfoLo : t.relocInfoAt (lo.instr sectionVram) =
      some (halfInfo relocatable .lo16 t.func.sectionIndex loOffset))
    (hlow : loOffset ≠ 0 →
      lowHalf (m.sectionAddresses (t.func.sectionIndex.setWidth 32) + loOffset) =
        lowHalf (m.sectionAddresses (t.func.sectionIndex.setWidth 32) +
          (combinedAddress hi lo - sectionVram))) :
    t.PairComputes m sectionVram hi lo ↔
      OffsetsAgree relocatable (m.sectionAddresses (t.func.sectionIndex.setWidth 32)) hiOffset
        loOffset (combinedAddress hi lo - sectionVram) := by
  unfold Translation.PairComputes OffsetsAgree
  simp only [hinfoHi, hinfoLo, Option.some.injEq, exists_and_left, exists_eq_left']
  -- either half is relocated or literal; a pair of the two kinds fails
  have hreloc : ∀ type offset, (relocatable = true ∧ offset ≠ 0) →
      halfInfo relocatable type t.func.sectionIndex offset =
        ⟨true, t.func.sectionIndex.setWidth 32, type, offset, none⟩ := fun _ _ h => if_pos h
  have hliteral : ∀ type offset, ¬ (relocatable = true ∧ offset ≠ 0) →
      halfInfo relocatable type t.func.sectionIndex offset =
        ⟨true, t.func.sectionIndex.setWidth 32, .none, 0, none⟩ := fun _ _ h => if_neg h
  have hnone : ∀ type : RelocType, type = .hi16 ∨ type = .lo16 → type ≠ .none := by
    rintro _ (rfl | rfl) <;> decide
  by_cases hkindHi : relocatable = true ∧ hiOffset ≠ 0 <;>
    by_cases hkindLo : relocatable = true ∧ loOffset ≠ 0
  · obtain ⟨rfl, hneHi⟩ := hkindHi
    obtain ⟨-, hneLo⟩ := hkindLo
    rw [hreloc _ _ ⟨rfl, hneHi⟩, hreloc _ _ ⟨rfl, hneLo⟩, if_neg (hnone _ (.inl rfl)),
      textsCompute_reloc rfl rfl]
    have hbase : ∀ type offset rr, relocBase m (t.instructionContext (RawReloc.instr rr sectionVram)
        ⟨true, t.func.sectionIndex.setWidth 32, type, offset, none⟩) =
        m.sectionAddresses (t.func.sectionIndex.setWidth 32) := fun _ _ _ => rfl
    have hoffset : ∀ type offset rr, (t.instructionContext (RawReloc.instr rr sectionVram)
        ⟨true, t.func.sectionIndex.setWidth 32, type, offset, none⟩).relocTargetSectionOffset =
        offset := fun _ _ _ => rfl
    simp only [hbase, hoffset, reduceCtorEq, false_or, hneHi, hneLo, false_and, ne_eq,
      not_false_eq_true, true_and, Bool.true_eq_false, pair_eq_iff, hlow hneLo, and_true]
  · rw [hreloc _ _ hkindHi, hliteral _ _ hkindLo]
    obtain ⟨rfl, hneHi⟩ := hkindHi
    have hlo0 : loOffset = 0#32 := by
      by_contra h
      exact hkindLo ⟨rfl, h⟩
    have hne : ¬ hiOffset = 0#32 := hneHi
    simp [hne, hlo0]
  · rw [hliteral _ _ hkindHi, hreloc _ _ hkindLo]
    obtain ⟨rfl, hneLo⟩ := hkindLo
    have hhi0 : hiOffset = 0#32 := by
      by_contra h
      exact hkindHi ⟨rfl, h⟩
    have hne : ¬ loOffset = 0#32 := hneLo
    simp [hne, hhi0]
  · rw [hliteral _ _ hkindHi, hliteral _ _ hkindLo, if_pos rfl]
    refine ⟨fun _ => ?_, fun _ => ⟨Iff.rfl, textsCompute_instr rfl rfl⟩⟩
    rcases relocatable with _ | _
    · exact .inl rfl
    · exact .inr (.inl ⟨by_contra fun h => hkindHi ⟨rfl, h⟩, by_contra fun h => hkindLo ⟨rfl, h⟩⟩)

/-- The pair of a `LO16` whose two words have its own target agrees wherever no sum overflows. -/
theorem pairAgrees_of_targetAt_eq {relocatable : Bool} {base : BitVec 32}
    (hhi : targetAt raw sectionVram hi.sectionOffset = combinedAddress hi lo - sectionVram)
    (hlo : targetAt raw sectionVram lo.sectionOffset = combinedAddress hi lo - sectionVram)
    (hrange : relocInRange base (combinedAddress hi lo - sectionVram) = true) :
    PairAgrees relocatable base sectionVram raw hi lo := by
  unfold PairAgrees OffsetsAgree
  rw [hhi, hlo]
  by_cases hbase : combinedAddress hi lo - sectionVram = 0
  · exact .inr (.inl ⟨hbase, hbase⟩)
  · exact .inr (.inr ⟨hbase, hbase, hrange, hrange, rfl⟩)

end Pair

/-! ### One `lui` for two loads -/

/-- A fragment at `0x81000000` with a `lui` and two loads, at `0x81007FE0` and `0x81007FF0`. -/
def sampleFragment : List (BitVec 8) :=
  let header : List (BitVec 32) := [0, 0, 0x46524147, 0x4D454E54, 0, 0x2C, 0, 0x2C]
  let body : List (BitVec 32) := [0x3C088100, 0x8D097FE0, 0x8D0A7FF0]
  let table : List (BitVec 32) := [3, 0x05000020, 0x06000024, 0x06000028]
  (header ++ body ++ table).flatMap fun word => (List.range 4).map (wordByte word)

def sampleFragmentRaw : List RawReloc :=
  [⟨.hi16, 0x20, 0x3C088100⟩, ⟨.lo16, 0x24, 0x8D097FE0⟩, ⟨.lo16, 0x28, 0x8D0A7FF0⟩]

/-- The fragment's section, which is relocatable, and a function that is its body. -/
def sampleFragmentTranslation : Translation :=
  let func := Function.mk' 0x81000020 0x20 ([0x3C088100, 0x8D097FE0, 0x8D0A7FF0].map byteswap)
    (ascii "func_81000020") 0 false false false 0
  let sect := { Section.empty with ramAddr := 0x81000000, size := 0x2C, relocatable := true }
  let context := { Context.empty with
    functions := [func]
    sections := (parseFragmentRelocs sampleFragment 0x81000000 0 sect).toList }
  let recompiler : Recompiler :=
    ⟨.ofId sampleId, cGenerator context, context, fun _ _ => false⟩
  recompiler.translation 0 func false [] []

/-- The fragment is loaded at an address. -/
def machineLoadedAt (base : BitVec 32) : Machine where
  gpr _ := 0
  hi := 0
  lo := 0
  c1cs := 0
  rdram _ := 0
  sectionAddresses _ := base
  referenceSectionAddresses _ := 0

theorem fragmentTable_sampleFragment : fragmentTable sampleFragment = some sampleFragmentRaw := by
  decide

theorem sampleFragment_section :
    FragmentSection sampleFragmentTranslation.context sampleFragmentRaw 0x81000000
      sampleFragmentTranslation.func.sectionIndex where
  bound := by decide
  notAbsolute := by decide
  notBss := rfl
  relocs := ⟨[], Section.empty, by decide⟩

end N64Recomp
