import Mathlib.Data.BitVec
import Mathlib.Data.List.TakeWhile
import Mathlib.Tactic.Ring
import N64Recomp.Elf.Pairing

/-!
# Pairs against fixed reference sections

The folding of the address of a reference symbol into a pair of instructions. The halves of the
address are combined with the words by `|`, over the bits of the addend that the words hold, so that
the pair computes the symbol's address plus the addend only when those bits are among the bits of the
address.

## Main definitions

* `Apart`: entries whose words do not overlap
* `highTarget`: the address whose high half is folded into a `HI16`
* `PairComputes`: what the patched pair has to compute
* `Absorbed`: the bits of the addend are among the bits of the halves

## Main results

* `Reads.word_eq`, `bakeRelocs_word`: the words that the loop and the folding leave
* `baked_pair_computes_iff`: a pair is right exactly when its addend is absorbed
-/

namespace N64Recomp

section Table

variable {context : Context} {sect : Section} {table : RelocTable}

variable (sect) in
/-- The words of two addresses do not overlap. -/
def Apart (a b : BitVec 32) : Prop :=
  romAddrOf sect a + 4 ≤ romAddrOf sect b ∨ romAddrOf sect b + 4 ≤ romAddrOf sect a

theorem Apart.symm {a b : BitVec 32} (h : Apart sect a b) : Apart sect b a := Or.symm h

/-! ### The words after the loop -/

section Loop

variable {rom rom' : List (BitVec 8)} {ps : List ParsedEntry}

theorem readRom_eq_ok_iff {address word : BitVec 32} : readRom sect rom address = .ok word ↔
    romWord rom (romAddrOf sect address) = some word := by
  unfold readRom
  cases romWord rom (romAddrOf sect address) <;> simp

/-- An entry changes no word but its own. -/
theorem patchMips32_word {rel : ElfRel} {target : SymbolTarget} {word : BitVec 32}
    (h : patchMips32 context sect rom rel target word = .ok rom') {address : BitVec 32}
    (hapart : Apart sect rel.offset address) :
    romWord rom' (romAddrOf sect address) = romWord rom (romAddrOf sect address) := by
  unfold patchMips32 at h
  split at h
  · split at h
    · cases h
    · obtain rfl := Except.ok.inj h
      exact romWord_setRomWord_of_disjoint hapart
  · obtain rfl := Except.ok.inj h
    rfl

/-- Entries elsewhere do not change a word. -/
theorem Reads.word_of_apart (h : Reads context sect rom ps rom') {address : BitVec 32}
    (hapart : ∀ p ∈ ps, Apart sect p.rel.offset address) :
    romWord rom' (romAddrOf sect address) = romWord rom (romAddrOf sect address) := by
  induction ps generalizing rom with
  | nil =>
    obtain rfl : rom' = rom := h
    rfl
  | cons p ps ih =>
    obtain ⟨-, rom₁, hpatch, h⟩ := h
    rw [ih h fun q hq => hapart q (by simp [hq]), patchMips32_word hpatch (hapart p (by simp))]

/-- When the entries are apart, each is read as the ROM holds it at the start, and only a pointer
changes its word. -/
theorem Reads.word_eq (h : Reads context sect rom ps rom')
    (hapart : ps.Pairwise fun p q => Apart sect p.rel.offset q.rel.offset) {p : ParsedEntry}
    (hp : p ∈ ps) :
    romWord rom (romAddrOf sect p.rel.offset) = some p.word ∧
      (p.rel.type ≠ .mips32 → romWord rom' (romAddrOf sect p.rel.offset) = some p.word) := by
  induction ps generalizing rom with
  | nil => cases hp
  | cons q ps ih =>
    obtain ⟨hq, rom₁, hpatch, h⟩ := h
    obtain ⟨hfirst, hrest⟩ := List.pairwise_cons.mp hapart
    rcases List.mem_cons.mp hp with rfl | hp
    · refine ⟨readRom_eq_ok_iff.mp hq, fun htype => ?_⟩
      rw [patchMips32_of_ne htype] at hpatch
      obtain rfl := Except.ok.inj hpatch
      rw [h.word_of_apart fun r hr => (hfirst r hr).symm]
      exact readRom_eq_ok_iff.mp hq
    · obtain ⟨h₁, h₂⟩ := ih h hrest hp
      exact ⟨by rw [← patchMips32_word hpatch (hfirst p hp), h₁], h₂⟩

end Loop

/-! ### The words after the folding -/

section Bake

variable {rom rom' : List (BitVec 8)} {reloc reloc' : Reloc} {relocs relocs' : List Reloc}

/-- What is folded into the word of a relocation against a fixed reference section. -/
def foldedImmediate (type : RelocType) (x : BitVec 32) : BitVec 32 :=
  if type = .hi16 then highHalf x else lowHalf x

theorem bakeReloc_word_of_apart (h : bakeReloc context sect rom reloc = .ok (rom', reloc'))
    {address : BitVec 32} (hapart : Apart sect reloc.address address) :
    romWord rom' (romAddrOf sect address) = romWord rom (romAddrOf sect address) := by
  unfold bakeReloc at h
  repeat' split at h
  all_goals cases h
  all_goals first
    | rfl
    | exact romWord_setRomWord_of_disjoint hapart

theorem bakeRelocs_word_of_apart (h : bakeRelocs context sect rom relocs = .ok (rom', relocs'))
    {address : BitVec 32} (hapart : ∀ r ∈ relocs, Apart sect r.address address) :
    romWord rom' (romAddrOf sect address) = romWord rom (romAddrOf sect address) := by
  induction relocs generalizing rom relocs' with
  | nil =>
    cases h
    rfl
  | cons r relocs ih =>
    obtain ⟨⟨rom₁, baked⟩, hbaked, h⟩ := Except.bind_eq_ok_iff.mp h
    obtain ⟨⟨rom₂, rest⟩, hrest, h⟩ := Except.bind_eq_ok_iff.mp h
    cases h
    rw [ih hrest fun q hq => hapart q (by simp [hq]),
      bakeReloc_word_of_apart hbaked (hapart r (by simp))]

/-- The word of a relocation against a fixed reference section. -/
theorem bakeReloc_word (h : bakeReloc context sect rom reloc = .ok (rom', reloc'))
    (hreference : reloc.referenceSymbol = true) (htype : reloc.type = .hi16 ∨ reloc.type = .lo16)
    (hfixed : context.isReferenceSectionRelocatable reloc.targetSection = some false)
    {word vram : BitVec 32} (hword : romWord rom (romAddrOf sect reloc.address) = some word)
    (hvram : context.getReferenceSectionVram reloc.targetSection = some vram) :
    romWord rom' (romAddrOf sect reloc.address) =
      some (word ||| foldedImmediate reloc.type (reloc.targetSectionOffset + vram)) := by
  unfold bakeReloc at h
  simp only [hreference, htype, true_and, if_true, hfixed, hword, hvram] at h
  cases h
  refine romWord_setRomWord ?_
  exact romWord_isSome_iff.mp (by rw [hword]; rfl)

/-- The folding of relocations that are apart, at one of them. -/
theorem bakeRelocs_word (h : bakeRelocs context sect rom relocs = .ok (rom', relocs'))
    (hapart : relocs.Pairwise fun r q => Apart sect r.address q.address) (hmem : reloc ∈ relocs)
    (hreference : reloc.referenceSymbol = true) (htype : reloc.type = .hi16 ∨ reloc.type = .lo16)
    (hfixed : context.isReferenceSectionRelocatable reloc.targetSection = some false)
    {word vram : BitVec 32} (hword : romWord rom (romAddrOf sect reloc.address) = some word)
    (hvram : context.getReferenceSectionVram reloc.targetSection = some vram) :
    romWord rom' (romAddrOf sect reloc.address) =
      some (word ||| foldedImmediate reloc.type (reloc.targetSectionOffset + vram)) := by
  induction relocs generalizing rom relocs' with
  | nil => cases hmem
  | cons r relocs ih =>
    obtain ⟨⟨rom₁, baked⟩, hbaked, h⟩ := Except.bind_eq_ok_iff.mp h
    obtain ⟨⟨rom₂, rest⟩, hrest, h⟩ := Except.bind_eq_ok_iff.mp h
    cases h
    obtain ⟨hfirst, hrestApart⟩ := List.pairwise_cons.mp hapart
    rcases List.mem_cons.mp hmem with rfl | hmem
    · rw [bakeRelocs_word_of_apart hrest fun q hq => (hfirst q hq).symm]
      exact bakeReloc_word hbaked hreference htype hfixed hword hvram
    · refine ih hrest hrestApart hmem ?_
      rw [bakeReloc_word_of_apart hbaked (hfirst reloc hmem), hword]

end Bake

/-! ### Pairs -/

variable (context sect table) in
/-- The word of an entry, as the ROM holds it. -/
def wordOf (rel : ElfRel) : BitVec 32 :=
  (romWord context.rom (romAddrOf sect rel.offset)).getD 0

variable (context sect) in
/-- The offset that the relocation of a `HI16` gets: with the low half of the `LO16` that ends its
run, and the provisional one without such a `LO16`. -/
def highTarget (target : SymbolTarget) (hi : ElfRel) (after : List ElfRel) : BitVec 32 :=
  match after.dropWhile fun rel => rel.type = .hi16 with
  | [] => immediateOf (wordOf context sect hi) <<< 16
  | own :: _ => (immediateOf (wordOf context sect hi) <<< 16) +
      signedImmediateOf (wordOf context sect own) + target.symbolOffset - target.sectionVram

variable (context sect) in
/-- The address that a pair has to compute: the symbol's address plus the addend in the pair. -/
def wanted (target : SymbolTarget) (vram : BitVec 32) (hi lo : ElfRel) : BitVec 32 :=
  vram + target.symbolOffset + ((immediateOf (wordOf context sect hi) <<< 16) +
    signedImmediateOf (wordOf context sect lo))

variable (context sect) in
/-- The pair computes the address in the patched ROM, and only its immediates were changed. -/
def PairComputes (rom : List (BitVec 8)) (hi lo : ElfRel) (address : BitVec 32) : Prop :=
  ∃ hiWord loWord, romWord rom (romAddrOf sect hi.offset) = some hiWord ∧
    romWord rom (romAddrOf sect lo.offset) = some loWord ∧
      (hiWord <<< 16) + signedImmediateOf loWord = address ∧
        hiWord >>> 16 = wordOf context sect hi >>> 16 ∧
          loWord >>> 16 = wordOf context sect lo >>> 16

variable (context sect) in
/-- The bits of the addend are among the bits of the halves that are folded in, and the high half
neither differs from the pair's own nor carries out of the immediate. -/
structure Absorbed (hi lo : ElfRel) (folded address : BitVec 32) : Prop where
  high : (wordOf context sect hi ||| highHalf folded) <<< 16 = highHalf address <<< 16
  carry : (wordOf context sect hi ||| highHalf folded) >>> 16 = wordOf context sect hi >>> 16
  low : lowHalf (wordOf context sect lo) ||| lowHalf address = lowHalf address

/-! ### What the loop computed for a pair -/

section Parsed

variable {rom : List (BitVec 8)} {ps run : List ParsedEntry} {s : PairState}

theorem resolveSymbol_reference {i : Nat} {rel : ElfRel} {target : SymbolTarget}
    (h : resolveSymbol context table i rel = .ok target)
    (hreference : target.referenceSymbol = true) : target.sectionVram = 0 := by
  unfold resolveSymbol at h
  simp only at h
  repeat' split at h
  all_goals cases h
  all_goals first
    | rfl
    | cases hreference

theorem LoopHolds.wordOf_eq (hs : LoopHolds context sect table context.rom ps run s)
    (hapart : (ps ++ run).Pairwise fun p q => Apart sect p.rel.offset q.rel.offset)
    {p : ParsedEntry} (hp : p ∈ ps ++ run) : wordOf context sect p.rel = p.word := by
  rw [wordOf, (hs.reads.word_eq hapart hp).1, Option.getD_some]

/-- The offset of a `HI16` of the loop. -/
theorem LoopHolds.high_offset (hs : LoopHolds context sect table context.rom ps run s)
    (hapart : (ps ++ run).Pairwise fun p q => Apart sect p.rel.offset q.rel.offset)
    {before after : List ParsedEntry} {hi : ParsedEntry} (h : ps ++ run = before ++ hi :: after)
    (hhi : hi.rel.type = .hi16) :
    hi.offset = highTarget context sect hi.target hi.rel (after.map (·.rel)) := by
  have hword : ∀ p ∈ before ++ hi :: after, wordOf context sect p.rel = p.word := by
    rw [← h]
    exact fun p hp => hs.wordOf_eq hapart hp
  -- an entry of the open run has only `HI16` entries after it
  have hopen : ∀ as, after = as → (∀ p ∈ as, p.rel.type = .hi16) → hi ∈ run →
      hi.offset = highTarget context sect hi.target hi.rel (after.map (·.rel)) := by
    rintro as rfl has hrun
    have hdrop : (after.map (·.rel)).dropWhile (fun rel => rel.type = .hi16) = [] := by
      rw [List.dropWhile_eq_nil_iff]
      intro rel hrel
      obtain ⟨p, hp, rfl⟩ := List.mem_map.mp hrel
      simpa using has p hp
    rw [highTarget, hdrop, hword hi (by simp)]
    exact (hs.held hi hrun).2.2
  rcases List.append_eq_append_iff.mp h with ⟨as, -, hrun⟩ | ⟨bs, hps, htail⟩
  · refine hopen after rfl (fun p hp => (hs.held p ?_).1) ?_
    · rw [hrun]
      simp [hp]
    · rw [hrun]
      simp
  · cases bs with
    | nil =>
      rw [List.nil_append] at htail
      refine hopen after rfl (fun p hp => (hs.held p ?_).1) ?_
      · rw [← htail]
        simp [hp]
      · rw [← htail]
        simp
    | cons b bs =>
      rw [List.cons_append] at htail
      obtain ⟨rfl, rfl⟩ := List.cons.inj htail
      obtain ⟨run', lo, rest, rfl, hrun', hlo, -, hoffset⟩ := hs.finalised before hi bs hps hhi
      have hdrop : ((run' ++ lo :: rest ++ run).map (·.rel)).dropWhile
          (fun rel => rel.type = .hi16) = lo.rel :: ((rest ++ run).map (·.rel)) := by
        rw [List.append_assoc, List.map_append, List.dropWhile_append_of_pos]
        · rw [List.cons_append, List.map_cons, List.dropWhile_cons_of_neg (by simp [hlo])]
        · intro rel hrel
          obtain ⟨p, hp, rfl⟩ := List.mem_map.mp hrel
          simpa using hrun' p hp
      rw [highTarget, hdrop, hword hi (by simp)]
      simp only
      rw [hword lo (by simp), hoffset]

/-- The low half of the address of a `LO16` of the loop does not depend on its pairing. -/
theorem LoopHolds.low_offset (hs : LoopHolds context sect table context.rom ps run s)
    {lo : ParsedEntry} (hmem : lo ∈ ps ++ run) (hlo : lo.rel.type = .lo16) (vram : BitVec 32) :
    lowHalf (lo.offset + vram) =
      lowHalf (vram + lo.target.symbolOffset - lo.target.sectionVram +
        signedImmediateOf lo.word) := by
  rcases List.mem_append.mp hmem with hmem | hmem
  · obtain ⟨h, hoffset⟩ := hs.low lo hmem hlo
    have hsum : lo.offset + vram = (h <<< 16) + (vram + lo.target.symbolOffset -
        lo.target.sectionVram + signedImmediateOf lo.word) := by
      rw [hoffset]
      ring
    rw [hsum, lowHalf_shift_add]
  · have hhi := (hs.held lo hmem).1
    rw [hlo] at hhi
    cases hhi

end Parsed

/-- The low half changes no bit above the immediate. -/
theorem or_lowHalf (x y : BitVec 32) :
    lowHalf (x ||| lowHalf y) = lowHalf x ||| lowHalf y ∧ (x ||| lowHalf y) >>> 16 = x >>> 16 := by
  have hmask : (0xFFFF : BitVec 32) >>> 16 = 0#32 := by decide
  constructor
  · unfold lowHalf
    ext i hi
    simp only [BitVec.getElem_and, BitVec.getElem_or]
    cases x[i] <;> cases y[i] <;> simp
  · unfold lowHalf
    rw [BitVec.ushiftRight_or_distrib, BitVec.ushiftRight_and_distrib, hmask, BitVec.and_zero,
      BitVec.or_zero]

/-- A pair whose words are the old ones with the halves of two addresses. -/
theorem pairComputes_iff {rom : List (BitVec 8)} {hi lo : ElfRel} {folded address : BitVec 32}
    (hhi : romWord rom (romAddrOf sect hi.offset) =
      some (wordOf context sect hi ||| highHalf folded))
    (hlo : romWord rom (romAddrOf sect lo.offset) =
      some (wordOf context sect lo ||| lowHalf address)) :
    PairComputes context sect rom hi lo address ↔ Absorbed context sect hi lo folded address := by
  obtain ⟨hlow, hshift⟩ := or_lowHalf (wordOf context sect lo) address
  constructor
  · rintro ⟨hiWord, loWord, hhiWord, hloWord, hpair, hcarry, -⟩
    obtain rfl := Option.some.inj (hhi.symm.trans hhiWord)
    obtain rfl := Option.some.inj (hlo.symm.trans hloWord)
    obtain ⟨hhigh, hlow'⟩ := (pair_eq_iff _ _ _).mp hpair
    exact ⟨hhigh, hcarry, hlow.symm.trans hlow'⟩
  · intro h
    refine ⟨_, _, hhi, hlo, (pair_eq_iff _ _ _).mpr ⟨h.high, hlow.trans h.low⟩, h.carry, hshift⟩

end Table

/-- The context of a `lui`/`addiu` pair against a symbol of a fixed reference section. -/
def sampleFixedContext (symbolAddress : BitVec 32) (rom : List (BitVec 8)) : Context :=
  { sampleElfContext rom with
    referenceSections := [⟨0, symbolAddress, 4, false⟩]
    referenceSymbols := [⟨ascii "symbol", 0, 0, false⟩]
    referenceSymbolsByName := fun _ => some ⟨0, 0⟩ }

/-- Its relocation table. -/
def sampleFixedTable : RelocTable where
  entries := [⟨0x80000000, 1, .hi16⟩, ⟨0x80000004, 1, .lo16⟩]
  symbolAt _ := ⟨ascii "symbol", shnUndef⟩
  sectionIndex := 0
  bssSectionIndex := 0xFFFF

end N64Recomp
