import N64Recomp.Data.Rounds
import N64Recomp.Data.SortedSet
import N64Recomp.Decompressed.ScanReads

/-!
# The functions of a code fragment

How the functions of a code fragment are found: the pass starts with the target of the header and
those of relocations, and then adds functions in the gaps between the ranges that it has, and at the
continuations behind calls, for as long as a round adds something.

## Main definitions

* `FragmentPass`: the section, and its aliases
* `FragmentScan.seed`: the trampoline and the functions that the pass starts with
* `FragmentScan.gapRound`, `FragmentScan.continuationRound`: the rounds of the two loops
* `FragmentPass.InBody`: the offsets and the ranges are those of words of the body, and a range has a
  function
* `SectionStep`, `PassStep`: what a step of the pass keeps and adds

## Main results

* `addFirst_steps`, `addEach_steps`: loops of steps
-/

namespace N64Recomp

open Compression Except Rounds

/-! ### The state of the pass -/

/-- What the pass changes: the section, and its aliases with their offsets. -/
structure FragmentPass extends BlobSection where
  aliases : AliasTable
  emittedAliasOffsets : List (BitVec 32)

/-- A function whose bounds were discovered: it is entered at its start. -/
def BlobSection.addDiscovered (pass : BlobSection) (entryOffset : BitVec 32)
    (words : List (BitVec 32)) (funcEnd : Nat) : BlobSection :=
  let name := ascii "func_" ++ hex8 (pass.vram + entryOffset)
  let pass := pass.addFunction (pass.vram + entryOffset) (pass.syntheticRom + entryOffset) words
    name 0
  { pass with
    emittedOffsets := entryOffset :: pass.emittedOffsets
    emittedRanges := pass.emittedRanges ++ [(entryOffset, BitVec.ofNat 32 funcEnd)] }

/-- `std::sort` of the ranges, in the order of pairs. -/
def sortedRanges (ranges : List (BitVec 32 × BitVec 32)) : List (BitVec 32 × BitVec 32) :=
  ranges.insertionSort fun a b => a.1 < b.1 ∨ (a.1 = b.1 ∧ a.2 ≤ b.2)

/-- Steps of a loop that tell whether they added something, and whether any of them did. -/
def addEach {α : Type} (step : FragmentPass → α → Except Stop (FragmentPass × Bool)) (l : List α)
    (pass : FragmentPass) : Except Stop (FragmentPass × Bool) :=
  l.foldlM (fun r a => do
    let (pass, added) ← step r.1 a
    return (pass, r.2 || added)) (pass, false)

/-- The first offset of a loop at which something is added. -/
def addFirst (step : BlobSection → BitVec 32 → Except Stop (BlobSection × Bool)) :
    List (BitVec 32) → BlobSection → Except Stop (BlobSection × Bool)
  | [], pass => return (pass, false)
  | offset :: rest, pass => do
    let (pass, added) ← step pass offset
    if added then return (pass, true) else addFirst step rest pass

namespace FragmentScan

variable (s : FragmentScan)

/-! ### Functions -/

/-- `discover_and_add_function`: without a hard failure, bounds that do not fit are no function. -/
def discoverAndAddFunction (pass : BlobSection) (entryOffset maxEndOffset : BitVec 32)
    (hardFailure : Bool) : Except Stop (BlobSection × Bool) :=
  if entryOffset ∈ pass.emittedOffsets then return (pass, false)
  else do
    match ← s.discover entryOffset with
    | .found funcSize =>
      let funcEnd := entryOffset.toNat + funcSize
      if funcSize = 0 ∨ s.relocOffset.toNat < funcEnd ∨ funcSize % 4 ≠ 0 ∨
          (maxEndOffset ≠ 0 ∧ maxEndOffset.toNat < funcEnd) then
        if hardFailure then .error .returnFalse else return (pass, false)
      else do
        let bytes ← getRange s.blob entryOffset.toNat funcSize
        return (pass.addDiscovered entryOffset (hostWords bytes) funcEnd, true)
    | _ => if hardFailure then .error .returnFalse else return (pass, false)

/-- `add_known_size_function`, with the read of the bytes that it copies. -/
def addKnownSize (pass : BlobSection) (entryOffset : BitVec 32) (funcSize : Nat)
    (maxEndOffset dispatchEntryOffset : BitVec 32) : Except Stop (BlobSection × Bool) :=
  let added := pass.addKnownSizeFunction entryOffset funcSize maxEndOffset dispatchEntryOffset
  if added.2 then do
    let _ ← getRange s.blob entryOffset.toNat funcSize
    return added
  else return added

/-! ### Seeds -/

/-- Whether there is a `jr $ra` in the first words. -/
def hasJrRa : Except Stop Bool := do
  let found ← firstReturn s.blob (bodyOffsets (min s.relocOffset.toNat (0x20 + 0x400)))
  return found.isSome

/-- `add_seed_if_in_body`. -/
def addSeedIfInBody (seeds : List (BitVec 32)) (offset : BitVec 32) : List (BitVec 32) :=
  if offset = 0 ∨ offset &&& 3 ≠ 0 ∨ s.relocOffset < offset + 4 then seeds
  else SortedSet.insertInto offset seeds

/-- The offset of the target of the header. -/
def headerTarget : Except Stop (BitVec 32) := do
  let target ← fragmentJTarget s.blob 0 s.blob.length
  require (s.vram ≤ target ∧ target < s.vram + s.relocOffset ∧ (target - s.vram) &&& 3 = 0)
  return target - s.vram

/-- A seed that has to look like an entry. -/
def addLikelySeed (seeds : List (BitVec 32)) (offset : BitVec 32) :
    Except Stop (List (BitVec 32)) := do
  let likely ← s.looksLikeFunctionEntry offset
  return if likely then s.addSeedIfInBody seeds offset else seeds

/-- The seed of a relocation: of a jump, its target. -/
def addRelocSeed (seeds : List (BitVec 32)) (reloc : Reloc) : Except Stop (List (BitVec 32)) :=
  if reloc.targetSection ≠ s.sectionIndex then return seeds
  else if reloc.type ≠ .mips26 then s.addLikelySeed seeds reloc.targetSectionOffset
  else if reloc.address < s.vram then return seeds
  else if s.relocOffset < reloc.address - s.vram + 4 then return seeds
  else do
    let word ← s.readWord (reloc.address - s.vram)
    let opcode := (word >>> 26) &&& 0x3F
    return if opcode ≠ 0x02 ∧ opcode ≠ 0x03 then seeds
      else s.addSeedIfInBody seeds reloc.targetSectionOffset

/-- The offsets that the pass starts with. There has to be one. -/
def seedOffsets (extraEntryOffsets : List (BitVec 32)) : Except Stop (List (BitVec 32)) := do
  let target ← s.headerTarget
  let seeds ← extraEntryOffsets.foldlM s.addLikelySeed (s.addSeedIfInBody [] target)
  let seeds ← s.relocs.foldlM s.addRelocSeed seeds
  require (seeds ≠ [])
  return seeds

/-- The section before the pass. -/
def section₀ (context : Context) : BlobSection where
  context
  sectionIndex := s.sectionIndex
  vram := s.vram
  syntheticRom := s.syntheticRom
  blob := s.blob
  relocOffset := s.relocOffset
  functionIndexByOffset := fun _ => none
  emittedOffsets := []
  emittedRanges := []

/-- A seed has to be a function. -/
def addSeed (pass : BlobSection) (entryOffset : BitVec 32) : Except Stop BlobSection := do
  let (pass, _) ← s.discoverAndAddFunction pass entryOffset 0 true
  return pass

/-- The trampoline at the start, and the functions at the seeds. -/
def seed (context : Context) (aliases : AliasTable) (sectionName : Str)
    (extraEntryOffsets : List (BitVec 32)) : Except Stop FragmentPass := do
  let entry ← getRange s.blob 0 8
  let pass := (s.section₀ context).addFunction s.vram s.syntheticRom (hostWords entry)
    (sectionName ++ ascii "_entry") 0
  let seeds ← s.seedOffsets extraEntryOffsets
  let pass ← seeds.foldlM s.addSeed pass
  return { pass with aliases, emittedAliasOffsets := [] }

/-! ### Gaps -/

/-- An entry with a frame. -/
def addFrameEntry (gapEnd : BitVec 32) (pass : BlobSection) (offset : BitVec 32) :
    Except Stop (BlobSection × Bool) := do
  let likely ← s.looksLikeGapFunctionEntry offset
  if likely then s.discoverAndAddFunction pass offset gapEnd false else return (pass, false)

/-- An entry that falls through into a function. -/
def addFallthroughEntry (gapEnd overlapEnd : BitVec 32) (pass : BlobSection)
    (offset : BitVec 32) : Except Stop (BlobSection × Bool) := do
  let likely ← s.looksLikeFallthroughGapFunctionEntry offset gapEnd overlapEnd
  if likely then s.discoverAndAddFunction pass offset overlapEnd false else return (pass, false)

/-- A leaf. -/
def addLeafEntry (gapBegin gapEnd : BitVec 32) (pass : BlobSection) (offset : BitVec 32) :
    Except Stop (BlobSection × Bool) := do
  match ← s.looksLikeLeafGapFunctionEntry offset gapBegin gapEnd with
  | some leafFuncSize => s.addKnownSize pass offset leafFuncSize gapEnd 0
  | none => return (pass, false)

/-- `scan_gap_for_function`. -/
def scanGapForFunction (pass : BlobSection) (gapBegin gapEnd overlapEnd : BitVec 32) :
    Except Stop (BlobSection × Bool) := do
  let gapBegin := ((if gapBegin < implOffset then implOffset else gapBegin) + 3) &&& 0xFFFFFFFC
  let (pass, added) ← addFirst (s.addFrameEntry gapEnd) (offsetsTo 4 gapEnd gapBegin) pass
  if added then return (pass, true)
  else do
    let (pass, added) ←
      addFirst (s.addFallthroughEntry gapEnd overlapEnd) (offsetsTo 4 gapEnd gapBegin) pass
    if added then return (pass, true)
    else addFirst (s.addLeafEntry gapBegin gapEnd) (offsetsTo 8 gapEnd gapBegin) pass

/-- The gap in front of a range, when there is one. -/
def scanInFront (pass : BlobSection) (gapStart rangeStart rangeEnd : BitVec 32) :
    Except Stop (BlobSection × Bool) :=
  if gapStart < rangeStart then s.scanGapForFunction pass gapStart rangeStart rangeEnd
  else return (pass, false)

/-- The gaps between the ranges and the one behind them, up to the first function. -/
def scanGaps : List (BitVec 32 × BitVec 32) → BitVec 32 → BlobSection →
    Except Stop (BlobSection × Bool)
  | [], gapStart, pass => s.scanInFront pass gapStart s.relocOffset s.relocOffset
  | (rangeStart, rangeEnd) :: rest, gapStart, pass =>
    if rangeEnd ≤ gapStart then scanGaps rest gapStart pass
    else do
      let (pass, added) ← s.scanInFront pass gapStart rangeStart rangeEnd
      if added then return (pass, true)
      else scanGaps rest (if gapStart < rangeEnd then rangeEnd else gapStart) pass

/-- A round of the loop over the gaps. -/
def gapRound (pass : FragmentPass) : Except Stop (FragmentPass × Bool) := do
  let (sect, added) ← s.scanGaps (sortedRanges pass.emittedRanges) implOffset pass.toBlobSection
  return ({ pass with toBlobSection := sect }, added)

/-! ### Continuations -/

/-- Whether the word at an offset sets a return address. -/
def linksAt (offset : BitVec 32) : Except Stop Bool := do
  let word ← s.readWord offset
  return s.decoder.isValid word && s.doesLink word

/-- `suffix_links`. -/
def suffixLinks (rangeEnd continuationOffset : BitVec 32) : Except Stop Nat :=
  (offsetsTo 8 rangeEnd continuationOffset).foldlM (fun suffixLinks offset => do
    let links ← s.linksAt offset
    return if links then suffixLinks + 1 else suffixLinks) 1

/-- The continuation of a call in a small range, with `MIN_SUFFIX_LINKS`. -/
def addSuffix (rangeEnd : BitVec 32) (pass : FragmentPass) (offset : BitVec 32) :
    Except Stop (FragmentPass × Bool) := do
  let links ← s.linksAt offset
  let continuationOffset := offset + 8
  if !links ∨ rangeEnd ≤ continuationOffset ∨ continuationOffset ∈ pass.emittedOffsets then
    return (pass, false)
  else do
    let suffixLinks ← s.suffixLinks rangeEnd continuationOffset
    if suffixLinks < 1 then return (pass, false)
    else do
      let (sect, added) ←
        s.discoverAndAddFunction pass.toBlobSection continuationOffset rangeEnd false
      return ({ pass with toBlobSection := sect }, added)

/-- A range of the loop over the small ranges. -/
def addSuffixes (pass : FragmentPass) (range : BitVec 32 × BitVec 32) :
    Except Stop (FragmentPass × Bool) :=
  if range.2 ≤ range.1 ∨ 0x800 < range.2 - range.1 ∨ s.relocOffset < range.2 then
    return (pass, false)
  else addEach (s.addSuffix range.2) (offsetsTo 8 range.2 range.1) pass

/-- The continuation of a dynamic call in a large range, with the loop around it. -/
def addDynamicContinuation (range : BitVec 32 × BitVec 32) (pass : FragmentPass)
    (continuationOffset : BitVec 32) : Except Stop (FragmentPass × Bool) := do
  let bodyStart ← s.findDynamicContinuationBodyStart continuationOffset range.1 range.2
  match ← s.sizeUpToReturn bodyStart 0x800 0 range.2.toNat with
  | some funcSize => do
    let (sect, added) ←
      s.addKnownSize pass.toBlobSection bodyStart funcSize range.2 continuationOffset
    return ({ pass with toBlobSection := sect }, added)
  | none => return (pass, false)

/-- The continuation of a static call in a large range, as an alias of the range's function. -/
def addParentContinuation (range : BitVec 32 × BitVec 32) (pass : FragmentPass)
    (continuationOffset : BitVec 32) : Except Stop (FragmentPass × Bool) := do
  let likely ← s.looksLikeLargeParentContinuation continuationOffset range.2
  match if likely then pass.functionIndexByOffset range.1 else none with
  | none => return (pass, false)
  | some parent =>
    match pass.toBlobSection.addDispatchAlias pass.aliases pass.emittedAliasOffsets parent
        continuationOffset with
    | some (sect, aliases, emittedAliasOffsets, added) =>
      return ({ sect with aliases, emittedAliasOffsets }, added)
    | none => .error .returnFalse

/-- The continuation of a call in a large range. -/
def addContinuation (range : BitVec 32 × BitVec 32) (pass : FragmentPass) (offset : BitVec 32) :
    Except Stop (FragmentPass × Bool) := do
  let word ← s.readWord offset
  let continuationOffset := offset + 8
  if !(s.decoder.isValid word && s.doesLink word) ∨ range.2 ≤ continuationOffset ∨
      continuationOffset ∈ pass.emittedOffsets then
    return (pass, false)
  else if isJalrInstruction word then s.addDynamicContinuation range pass continuationOffset
  else s.addParentContinuation range pass continuationOffset

/-- A range of the loop over the large ranges. -/
def addContinuations (pass : FragmentPass) (range : BitVec 32 × BitVec 32) :
    Except Stop (FragmentPass × Bool) :=
  if range.2 ≤ range.1 ∨ range.2 - range.1 ≤ 0x800 ∨ s.relocOffset < range.2 then
    return (pass, false)
  else addEach (s.addContinuation range) (offsetsTo 8 range.2 range.1) pass

/-- A round of the loop over the continuations: the ranges are those at its start. -/
def continuationRound (pass : FragmentPass) : Except Stop (FragmentPass × Bool) := do
  let ranges := sortedRanges pass.emittedRanges
  let (pass, addedSuffix) ← addEach s.addSuffixes ranges pass
  let (pass, addedContinuation) ← addEach s.addContinuations ranges pass
  return (pass, addedSuffix || addedContinuation)

/-! ### Offsets of words -/

/-- An offset of a word of the body. -/
def IsWordOffset (offset : BitVec 32) : Prop :=
  offset.toNat % 4 = 0 ∧ offset.toNat + 4 ≤ s.relocOffset.toNat

/-- A range of words of the body. -/
structure IsRange (range : BitVec 32 × BitVec 32) : Prop where
  start : range.1.toNat % 4 = 0
  stop : range.2.toNat % 4 = 0
  lt : range.1.toNat < range.2.toNat
  inside : range.2.toNat ≤ s.relocOffset.toNat

/-- The offsets of the words of the body. -/
def wordOffsets : Finset (BitVec 32) :=
  (Finset.range (s.relocOffset.toNat / 4)).image fun i => BitVec.ofNat 32 (4 * i)

theorem card_wordOffsets_le : s.wordOffsets.card ≤ s.relocOffset.toNat / 4 := by
  have hcard := Finset.card_image_le (s := Finset.range (s.relocOffset.toNat / 4))
    (f := fun i => BitVec.ofNat 32 (4 * i))
  rwa [Finset.card_range] at hcard

variable {s}

theorem IsWordOffset.mem {offset : BitVec 32} (h : s.IsWordOffset offset) :
    offset ∈ s.wordOffsets := by
  obtain ⟨hmod, hle⟩ := h
  refine Finset.mem_image.mpr ⟨offset.toNat / 4, Finset.mem_range.mpr (by omega), ?_⟩
  rw [show 4 * (offset.toNat / 4) = offset.toNat by omega, BitVec.ofNat_toNat, BitVec.setWidth_eq]

end FragmentScan

/-! ### Steps -/

/-- A range has a function, of its address and size, that its start names. -/
structure BlobSection.Registers (sect : BlobSection) (range : BitVec 32 × BitVec 32) : Prop where
  emitted : range.1 ∈ sect.emittedOffsets
  named : ∃ i fn, sect.functionIndexByOffset range.1 = some i ∧
    sect.context.functions[i]? = some fn ∧ fn.vram = sect.vram + range.1 ∧
    fn.byteSize = range.2.toNat - range.1.toNat

/-- **What the pass keeps**: the entries are offsets of words of the body, and the ranges are ranges
of words with a function each. -/
structure BlobSection.InBody (s : FragmentScan) (sect : BlobSection) : Prop where
  relocOffset : sect.relocOffset = s.relocOffset
  vram : sect.vram = s.vram
  sectionIndex : sect.sectionIndex = s.sectionIndex
  offsets : ∀ o ∈ sect.emittedOffsets, s.IsWordOffset o
  ranges : ∀ r ∈ sect.emittedRanges, s.IsRange r
  registered : ∀ r ∈ sect.emittedRanges, sect.Registers r

/-- A step of the pass over a section: entries are kept, and one that adds something adds an entry. -/
structure SectionStep (s : FragmentScan) (before : BlobSection) (r : BlobSection × Bool) : Prop where
  inBody : r.1.InBody s
  subset : before.emittedOffsets ⊆ r.1.emittedOffsets
  fresh : r.2 = true → ∃ o ∈ r.1.emittedOffsets, o ∉ before.emittedOffsets

/-- What the pass keeps, with the aliases. -/
structure FragmentPass.InBody (s : FragmentScan) (pass : FragmentPass) : Prop where
  sect : pass.toBlobSection.InBody s
  aliasOffsets : ∀ o ∈ pass.emittedAliasOffsets, s.IsWordOffset o

/-- A step of the pass: entries and aliases are kept, and one that adds something adds an entry or an
alias. -/
structure PassStep (s : FragmentScan) (before : FragmentPass) (r : FragmentPass × Bool) : Prop where
  inBody : r.1.InBody s
  emitted : before.emittedOffsets ⊆ r.1.emittedOffsets
  aliased : before.emittedAliasOffsets ⊆ r.1.emittedAliasOffsets
  fresh : r.2 = true → (∃ o ∈ r.1.emittedOffsets, o ∉ before.emittedOffsets) ∨
    ∃ o ∈ r.1.emittedAliasOffsets, o ∉ before.emittedAliasOffsets

section Steps

variable {s : FragmentScan} {sect mid : BlobSection} {pass midPass : FragmentPass}

theorem SectionStep.refl (h : sect.InBody s) : SectionStep s sect (sect, false) :=
  ⟨h, fun _ ho => ho, nofun⟩

/-- A step that added nothing, and a step. -/
theorem SectionStep.trans {r : BlobSection × Bool} {added : Bool}
    (h : SectionStep s sect (mid, added)) (hr : SectionStep s mid r) : SectionStep s sect r where
  inBody := hr.inBody
  subset := fun _ ho => hr.subset (h.subset ho)
  fresh := fun hadded => by
    obtain ⟨o, ho, hnew⟩ := hr.fresh hadded
    exact ⟨o, ho, fun hold => hnew (h.subset hold)⟩

theorem PassStep.refl (h : pass.InBody s) : PassStep s pass (pass, false) :=
  ⟨h, fun _ ho => ho, fun _ ho => ho, nofun⟩

/-- Two steps, of which one added something if the whole did. -/
theorem PassStep.trans {r : FragmentPass × Bool} {added : Bool}
    (h : PassStep s pass (midPass, added)) (hr : PassStep s midPass r) :
    PassStep s pass (r.1, added || r.2) where
  inBody := hr.inBody
  emitted := fun _ ho => hr.emitted (h.emitted ho)
  aliased := fun _ ho => hr.aliased (h.aliased ho)
  fresh := fun hadded => by
    rcases (Bool.or_eq_true _ _).mp hadded with hadded | hadded
    · exact (h.fresh hadded).imp (fun ⟨o, ho, hnew⟩ => ⟨o, hr.emitted ho, hnew⟩)
        fun ⟨o, ho, hnew⟩ => ⟨o, hr.aliased ho, hnew⟩
    · exact (hr.fresh hadded).imp (fun ⟨o, ho, hnew⟩ => ⟨o, ho, fun hold => hnew (h.emitted hold)⟩)
        fun ⟨o, ho, hnew⟩ => ⟨o, ho, fun hold => hnew (h.aliased hold)⟩

/-- A step over the section is one of the pass. -/
theorem SectionStep.lift {r : BlobSection × Bool} (h : pass.InBody s)
    (hr : SectionStep s pass.toBlobSection r) :
    PassStep s pass ({ pass with toBlobSection := r.1 }, r.2) where
  inBody := ⟨hr.inBody, h.aliasOffsets⟩
  emitted := hr.subset
  aliased := fun _ ho => ho
  fresh := fun hadded => .inl (hr.fresh hadded)

/-- Steps up to the first one that adds something. -/
theorem addFirst_steps {step : BlobSection → BitVec 32 → Except Stop (BlobSection × Bool)}
    {offsets : List (BitVec 32)} (h : sect.InBody s)
    (hstep : ∀ sect : BlobSection, sect.InBody s → ∀ o ∈ offsets,
      ReadsWithin (step sect o) (SectionStep s sect)) :
    ReadsWithin (addFirst step offsets sect) (SectionStep s sect) := by
  induction offsets generalizing sect with
  | nil => exact ensures_ok (SectionStep.refl h)
  | cons o rest ih =>
    unfold addFirst
    refine (hstep sect h o List.mem_cons_self).bind ?_
    rintro ⟨mid, added⟩ hmid
    dsimp only
    split_ifs with hadded
    · subst hadded
      exact ensures_ok hmid
    · have hrest := ih hmid.inBody fun sect hsect o ho =>
        hstep sect hsect o (List.mem_cons_of_mem _ ho)
      exact hrest.mono fun r hr => hmid.trans hr

/-- All the steps of a loop. -/
theorem addEach_steps {α : Type} {step : FragmentPass → α → Except Stop (FragmentPass × Bool)}
    {l : List α} (h : pass.InBody s)
    (hstep : ∀ pass : FragmentPass, pass.InBody s → ∀ a ∈ l,
      ReadsWithin (step pass a) (PassStep s pass)) :
    ReadsWithin (addEach step l pass) (PassStep s pass) := by
  refine Ensures.foldlM (PassStep.refl h) fun r a ha hr => ?_
  refine (hstep r.1 hr.inBody a ha).bind ?_
  rintro ⟨next, added⟩ hnext
  exact ensures_ok (hr.trans hnext)

end Steps

end N64Recomp
