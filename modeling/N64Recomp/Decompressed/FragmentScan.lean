import N64Recomp.Decompressed.CheckedReads
import N64Recomp.Recompilation.FunctionBounds

/-!
# The scan of a fragment's code

What the pass over the body of a code fragment looks for: entries of functions, leaves in the gaps
between functions, and continuations behind calls. The offsets are numbers of 32 bits, and so are the
sums in the checks of the loops.

## Main definitions

* `FragmentScan`: the body, and what does not change during the pass
* `looksLikeFunctionEntry`: the heuristic that is used for targets of relocations
* `looksLikeLeafGapFunctionEntry`, `looksLikeFallthroughGapFunctionEntry`: those for gaps
* `looksLikeLargeParentContinuation`: the one for continuations

## Main results

* `looksLikeFunctionEntry_inBounds_iff`: it reads out of the body for the last word of the offsets only
* `Sound.discoverBoundedNoLinkLeaf`: a leaf is walked in the body
-/

namespace N64Recomp

open Compression Except

/-! ### Loops over offsets -/

/-- The offsets of a loop that goes on by a word while a condition holds. There are `2 ^ 30` words at
most. -/
def offsetsWhile (goesOn : BitVec 32 → Bool) : Nat → BitVec 32 → List (BitVec 32)
  | 0, _ => []
  | fuel + 1, offset =>
    if goesOn offset then offset :: offsetsWhile goesOn fuel (offset + 4) else []

/-- `for (offset = start; offset + width <= stop; offset += 4)`. -/
def offsetsTo (width stop start : BitVec 32) : List (BitVec 32) :=
  offsetsWhile (fun offset => offset + width ≤ stop) (2 ^ 30) start

/-! ### Words -/

/-- `jr $ra`. -/
def returnWord : BitVec 32 := 0x03E00008

/-- `addiu $sp, $sp, -frame_size`. -/
def isFramePrologue (word : BitVec 32) : Bool :=
  word &&& 0xFFFF0000 = 0x27BD0000 ∧ word &&& 0x8000 ≠ 0

/-- A store to the stack. -/
def isStackStore (word : BitVec 32) : Bool :=
  (word >>> 21) &&& 0x1F = 29 ∧
    (word >>> 26) &&& 0x3F ∈ [(0x28 : BitVec 32), 0x29, 0x2B, 0x39, 0x3D]

/-- `lw $ra, offset($sp)`. -/
def isStackLoadRa (word : BitVec 32) : Bool :=
  (word >>> 26) &&& 0x3F = 0x23 ∧ (word >>> 21) &&& 0x1F = 29 ∧ (word >>> 16) &&& 0x1F = 31

def isJalrInstruction (word : BitVec 32) : Bool :=
  (word >>> 26) &&& 0x3F = 0 ∧ word &&& 0x3F = 0x09

/-- `decode_mips_jump_target`. -/
def decodeMipsJumpTarget (word pcDelaySlot : BitVec 32) : Option (BitVec 32) :=
  if (word >>> 26) &&& 0x3F = 0x02 ∨ (word >>> 26) &&& 0x3F = 0x03 then
    some ((pcDelaySlot &&& 0xF0000000) ||| ((word &&& 0x03FFFFFF) <<< 2))
  else none

/-! ### The body -/

/-- The body of a code fragment, the section that it was added as, and the library's answers:
`doesLink` is whether an instruction sets a return address. -/
structure FragmentScan where
  decoder : Decoder
  hasBranchLabel : BitVec 32 → Bool
  doesLink : BitVec 32 → Bool
  blob : List (BitVec 8)
  relocOffset : BitVec 32
  vram : BitVec 32
  sectionIndex : BitVec 16
  syntheticRom : BitVec 32
  /-- The relocations of the section. -/
  relocs : List Reloc

namespace FragmentScan

variable (s : FragmentScan)

/-- `IMPL_OFFSET`. -/
def implOffset : BitVec 32 := 0x20

def readWord (offset : BitVec 32) : Except Stop (BitVec 32) := get (romWord s.blob offset.toNat)

/-- `read_be_u32(blob.data() + func_end - 8)`. -/
def readBeforeEnd (funcEnd : BitVec 32) : Except Stop (BitVec 32) :=
  if funcEnd.toNat < 8 then .error .outOfBounds else get (romWord s.blob (funcEnd.toNat - 8))

/-- The bounds of a function. The body is handed over as a range. -/
def discover (entryOffset : BitVec 32) : Except Stop Bounds := do
  let body ← getRange s.blob 0 s.relocOffset.toNat
  return discoverFunctionBounds s.decoder s.hasBranchLabel body s.vram entryOffset

/-- The size of the bounds that are discovered at an offset, when they are not larger than a maximum
and end with a return, behind one offset and not behind another. -/
def sizeUpToReturn (offset : BitVec 32) (maxSize behind stop : Nat) : Except Stop (Option Nat) := do
  match ← s.discover offset with
  | .found funcSize =>
    let funcEnd := offset.toNat + funcSize
    if funcSize < 8 ∨ maxSize < funcSize ∨ funcSize % 4 ≠ 0 ∨ funcEnd ≤ behind ∨ stop < funcEnd then
      return none
    else do
      let last ← s.readBeforeEnd (BitVec.ofNat 32 funcEnd)
      return if last = returnWord then some funcSize else none
  | _ => return none

/-- A valid instruction that does not set a return address. -/
def isPlain (word : BitVec 32) : Bool := s.decoder.isValid word && !s.doesLink word

/-- A valid instruction that is no call and no branch. -/
def isStraight (word : BitVec 32) : Bool := s.isPlain word && !s.decoder.isBranch word

/-- The loop over the words of a leaf that starts with a store: only its return is a branch. -/
def leafWordsStraight (offset funcEnd : BitVec 32) : Except Stop Bool :=
  (offsetsWhile (fun cur => cur + 4 < funcEnd) (2 ^ 30) offset).allM fun cur => do
    let curWord ← s.readWord cur
    return s.isPlain curWord && !(cur + 8 < funcEnd && s.decoder.isBranch curWord)

/-- A leaf that does not allocate a stack frame. -/
def isStackStoreLeaf (offset : BitVec 32) : Except Stop Bool := do
  match ← s.sizeUpToReturn offset 0x40 0 s.relocOffset.toNat with
  | some funcSize => s.leafWordsStraight offset (offset + BitVec.ofNat 32 funcSize)
  | none => return false

/-- `looks_like_function_entry`. -/
def looksLikeFunctionEntry (offset : BitVec 32) : Except Stop Bool :=
  if offset &&& 3 ≠ 0 ∨ s.relocOffset < offset + 4 then return false
  else do
    let word ← s.readWord offset
    if isFramePrologue word then return true
    else if word = returnWord then return true
    else if !isStackStore word then return false
    else if !s.isStraight word then return false
    else s.isStackStoreLeaf offset

/-- `looks_like_gap_function_entry`. -/
def looksLikeGapFunctionEntry (offset : BitVec 32) : Except Stop Bool :=
  if offset &&& 3 ≠ 0 ∨ s.relocOffset < offset + 4 then return false
  else do
    let word ← s.readWord offset
    return isFramePrologue word

/-! ### Relocations -/

def hasRelocSiteInRange (start stop : BitVec 32) : Bool :=
  s.relocs.any fun reloc =>
    s.vram ≤ reloc.address ∧ start ≤ reloc.address - s.vram ∧ reloc.address - s.vram < stop

def hasLeafEntryRelocSiteAt (offset : BitVec 32) : Bool :=
  s.relocs.any fun reloc =>
    s.vram ≤ reloc.address ∧ reloc.address - s.vram = offset ∧
      reloc.type ∈ [RelocType.hi16, .mips32, .gprel16]

def hasSelfPointerRelocTargetAt (offset : BitVec 32) : Bool :=
  s.relocs.any fun reloc =>
    reloc.targetSection = s.sectionIndex ∧ reloc.targetSectionOffset = offset ∧
      reloc.type = .mips32

def hasLinkInstructionInRange (start stop : BitVec 32) : Except Stop Bool :=
  (offsetsTo 4 stop start).anyM fun offset => do
    let word ← s.readWord offset
    return s.decoder.isValid word && s.doesLink word

/-! ### Leaves -/

/-- The state of the walk over a leaf. -/
structure LeafWalk where
  visited : List (BitVec 32)
  worklist : List (BitVec 32)
  maxReached : BitVec 32
  sawReturn : Bool

/-- Visits an offset. -/
def LeafWalk.visit (w : LeafWalk) (offset : BitVec 32) : LeafWalk :=
  { w with
    visited := offset :: w.visited
    maxReached := if w.maxReached < offset then offset else w.maxReached }

/-- `mark_delay`. -/
def LeafWalk.markDelay (w : LeafWalk) (gapEnd delay : BitVec 32) : Option LeafWalk :=
  if gapEnd < delay + 4 then none else some (w.visit delay)

/-- `enqueue_local_target`. -/
def enqueueLocalTarget (w : LeafWalk) (offset gapEnd targetVram : BitVec 32) : Option LeafWalk :=
  if targetVram < s.vram + offset ∨ s.vram + gapEnd ≤ targetVram then none
  else
    let targetOffset := targetVram - s.vram
    if targetOffset &&& 3 ≠ 0 then none
    else if targetOffset ∈ w.visited then some w
    else some { w with worklist := targetOffset :: w.worklist }

/-- The scan of a block of a leaf; `none` is a word that a leaf does not have. -/
def leafBlock (offset gapEnd : BitVec 32) :
    Nat → BitVec 32 → LeafWalk → Except Stop (Option LeafWalk)
  | 0, _, w => return some w
  | fuel + 1, cursor, w =>
    if cursor + 4 ≤ gapEnd ∧ cursor ∉ w.visited then do
      let w := w.visit cursor
      let word ← s.readWord cursor
      if word = 0xFFFFFFFF ∨ !s.isPlain word then return none
      else if word = returnWord then
        return (w.markDelay gapEnd (cursor + 4)).map fun w => { w with sawReturn := true }
      else if (word >>> 26) &&& 0x3F = 0 ∧ (word &&& 0x3F = 0x08 ∨ word &&& 0x3F = 0x09) then
        return none
      else if (word >>> 26) &&& 0x3F = 0x02 then
        return (decodeMipsJumpTarget word (s.vram + cursor + 4)).bind fun target =>
          (w.markDelay gapEnd (cursor + 4)).bind fun w =>
            s.enqueueLocalTarget w offset gapEnd target
      else
        match decodeConditionalBranchTarget word (s.vram + cursor) with
        | some target =>
          match (w.markDelay gapEnd (cursor + 4)).bind fun w =>
              s.enqueueLocalTarget w offset gapEnd target with
          | some w => leafBlock offset gapEnd fuel (cursor + 8) w
          | none => return none
        | none => leafBlock offset gapEnd fuel (cursor + 4) w
    else return some w

/-- The walk over the blocks of a leaf. A word is scanned once and enqueues one block at most. -/
def leafBlocks (offset gapEnd : BitVec 32) : Nat → LeafWalk → Except Stop (Option LeafWalk)
  | 0, _ => return none
  | fuel + 1, w =>
    match w.worklist with
    | [] => return some w
    | cursor :: worklist => do
      match ← s.leafBlock offset gapEnd (2 ^ 30) cursor { w with worklist } with
      | none => return none
      | some w => leafBlocks offset gapEnd fuel w

/-- `discover_bounded_no_link_leaf`. -/
def discoverBoundedNoLinkLeaf (offset gapEnd : BitVec 32) : Except Stop (Option Nat) :=
  if s.relocOffset < gapEnd ∨ gapEnd ≤ offset ∨ offset &&& 3 ≠ 0 ∨ gapEnd &&& 3 ≠ 0 then return none
  else do
    match ← s.leafBlocks offset gapEnd (2 ^ 31) ⟨[], [offset], offset, false⟩ with
    | none => return none
    | some w =>
      let funcEnd := w.maxReached + 4
      if !w.sawReturn ∨ gapEnd < funcEnd ∨ funcEnd ≤ offset then return none
      else return some (funcEnd - offset).toNat

/-- The first word of a leaf. -/
def startsLeaf (offset : BitVec 32) : Except Stop Bool := do
  let word ← s.readWord offset
  return word ≠ 0 ∧ word ≠ 0xFFFFFFFF ∧ s.isStraight word

def startsStackFrameAt (start : BitVec 32) : Except Stop Bool :=
  if s.relocOffset < start + 4 then return false
  else do
    let word ← s.readWord start
    return isFramePrologue word

/-- Whether a size is that of a leaf that ends in front of an end. -/
def isLeafSize (offset gapEnd : BitVec 32) (size : Nat) : Bool :=
  8 ≤ size ∧ size ≤ 0x100 ∧ size % 4 = 0 ∧ offset.toNat + size ≤ gapEnd.toNat

/-- `valid_adjacent_leaf_chain_to_frame`, with the leaves that are left to count. -/
def validAdjacentLeafChainToFrame (gapEnd : BitVec 32) : Nat → BitVec 32 → Except Stop Bool
  | 0, _ => return false
  | leafCount + 1, cursor =>
    if cursor = gapEnd then s.startsStackFrameAt gapEnd
    else if gapEnd < cursor ∨ gapEnd < cursor + 8 then return false
    else do
      if !(← s.startsLeaf cursor) then return false
      else
        match ← s.discoverBoundedNoLinkLeaf cursor gapEnd with
        | none => return false
        | some leafSize =>
          if !isLeafSize cursor gapEnd leafSize then return false
          else do
            let leafEnd := cursor + BitVec.ofNat 32 leafSize
            let last ← s.readBeforeEnd leafEnd
            if last ≠ returnWord then return false
            else validAdjacentLeafChainToFrame gapEnd leafCount leafEnd

/-- Whether a leaf that is adjacent to a function starts a chain of leaves. -/
def startsAdjacentLeafChain (offset gapBegin gapEnd : BitVec 32) : Except Stop Bool :=
  if offset = gapBegin ∧ offset ≠ implOffset then
    s.validAdjacentLeafChainToFrame gapEnd 16 offset
  else return false

/-- What follows a leaf at the start of a body: another leaf's return, or a frame. -/
def followsInitialLeaf (offset funcEnd gapEnd : BitVec 32) : Except Stop Bool :=
  if offset = implOffset ∧ funcEnd < gapEnd then do
    let nextWord ← s.readWord funcEnd
    return nextWord = returnWord ∨ isFramePrologue nextWord
  else return true

/-- The checks of `looks_like_leaf_gap_function_entry` on a leaf whose size is known. -/
def isLeafGapFunction (offset gapBegin gapEnd : BitVec 32) (funcSize : Nat) : Except Stop Bool :=
  if !isLeafSize offset gapEnd funcSize then return false
  else do
    let funcEnd := offset + BitVec.ofNat 32 funcSize
    let chain ← s.startsAdjacentLeafChain offset gapBegin gapEnd
    if offset ≠ implOffset ∧ !chain ∧ funcEnd ≠ gapEnd then return false
    else do
      let follows ← s.followsInitialLeaf offset funcEnd gapEnd
      if !follows then return false
      else do
        let last ← s.readBeforeEnd funcEnd
        if last ≠ returnWord then return false
        else if !s.hasRelocSiteInRange offset funcEnd ∧ !chain then return false
        else do
          let links ← s.hasLinkInstructionInRange offset funcEnd
          return !links

/-- `looks_like_leaf_gap_function_entry`, with the size of the leaf. -/
def looksLikeLeafGapFunctionEntry (offset gapBegin gapEnd : BitVec 32) :
    Except Stop (Option Nat) :=
  if offset &&& 3 ≠ 0 ∨ gapEnd < offset + 8 then return none
  else if offset ≠ implOffset ∧ offset ≠ gapBegin ∧ !s.hasLeafEntryRelocSiteAt offset then
    return none
  else do
    if !(← s.startsLeaf offset) then return none
    else
      match ← s.discoverBoundedNoLinkLeaf offset gapEnd with
      | none => return none
      | some funcSize => do
        let isLeaf ← s.isLeafGapFunction offset gapBegin gapEnd funcSize
        return if isLeaf then some funcSize else none

/-! ### Code that falls through, and continuations -/

/-- `looks_like_fallthrough_gap_function_entry`. -/
def looksLikeFallthroughGapFunctionEntry (offset gapEnd overlapEnd : BitVec 32) :
    Except Stop Bool :=
  if offset &&& 3 ≠ 0 ∨ gapEnd < offset + 4 ∨ overlapEnd ≤ gapEnd ∨ s.relocOffset < gapEnd + 4 ∨
      (!s.hasLeafEntryRelocSiteAt offset ∧ !s.hasSelfPointerRelocTargetAt offset) ∨
      0x80 < gapEnd - offset then
    return false
  else do
    let nextWord ← s.readWord gapEnd
    if !isFramePrologue nextWord then return false
    else do
      let straight ← (offsetsTo 4 gapEnd offset).allM s.startsLeaf
      if !straight then return false
      else do
        let funcSize ← s.sizeUpToReturn offset 0x800 gapEnd.toNat overlapEnd.toNat
        return funcSize.isSome

/-- The start of a body that a branch goes back in front of its entry. -/
def lowerBodyStart (entryOffset rangeStart scan scanWord bodyStart : BitVec 32) : BitVec 32 :=
  match decodeConditionalBranchTarget scanWord (s.vram + scan) with
  | some target =>
    if s.vram + rangeStart ≤ target ∧ target < s.vram + entryOffset ∧
        (target - s.vram) &&& 3 = 0 ∧ target - s.vram < bodyStart then target - s.vram
    else bodyStart
  | none => bodyStart

/-- The loop of `find_dynamic_continuation_body_start`. -/
def bodyStartLoop (entryOffset rangeStart : BitVec 32) :
    List (BitVec 32) → BitVec 32 → Except Stop (BitVec 32)
  | [], bodyStart => return bodyStart
  | scan :: rest, bodyStart => do
    let scanWord ← s.readWord scan
    if !s.decoder.isValid scanWord then return bodyStart
    else
      let bodyStart := s.lowerBodyStart entryOffset rangeStart scan scanWord bodyStart
      if scanWord = returnWord ∨ (scanWord >>> 26) &&& 0x3F = 0x02 then return bodyStart
      else bodyStartLoop entryOffset rangeStart rest bodyStart

/-- `find_dynamic_continuation_body_start`. -/
def findDynamicContinuationBodyStart (entryOffset rangeStart rangeEnd : BitVec 32) :
    Except Stop (BitVec 32) :=
  let scanEnd := if entryOffset + 0x800 < rangeEnd then entryOffset + 0x800 else rangeEnd
  s.bodyStartLoop entryOffset rangeStart (offsetsTo 4 scanEnd entryOffset) entryOffset

/-- `looks_like_large_parent_continuation`. -/
def looksLikeLargeParentContinuation (offset rangeEnd : BitVec 32) : Except Stop Bool :=
  if offset &&& 3 ≠ 0 ∨ rangeEnd < offset + 8 then return false
  else do
    let firstWord ← s.readWord offset
    if !s.decoder.isValid firstWord then return false
    else if !s.doesLink firstWord ∧ !s.decoder.isBranch firstWord ∧ !isStackLoadRa firstWord ∧
        !s.hasRelocSiteInRange offset (offset + 4) then
      return false
    else do
      let funcSize ← s.sizeUpToReturn offset 0x800 0 rangeEnd.toNat
      return funcSize.isSome

/-! ### The loops stay in front of their ends -/

/-- **A body of a code fragment**: it ends in the bytes, is not larger than the synthetic ROM, and is
linked in `KSEG0`. -/
structure Sound : Prop where
  body : s.relocOffset.toNat ≤ s.blob.length
  small : s.relocOffset.toNat < 2 ^ 25
  length : s.blob.length < 2 ^ 32
  vram : 0x80000000 ≤ s.vram.toNat ∧ s.vram.toNat < 0xC0000000

end FragmentScan

section Loops

variable {goesOn : BitVec 32 → Bool} {fuel : Nat} {start offset : BitVec 32}

/-- The sums do not wrap below `2 ^ 31`. -/
theorem toNat_add_small {x y : BitVec 32} (hx : x.toNat < 2 ^ 31) (hy : y.toNat < 2 ^ 31) :
    (x + y).toNat = x.toNat + y.toNat := by
  rw [BitVec.toNat_add, Nat.mod_eq_of_lt (by omega)]

/-- A loop whose condition bounds its offsets goes up from the start. -/
theorem mem_offsetsWhile
    (hgoes : ∀ o : BitVec 32, o.toNat < 2 ^ 31 → goesOn o = true → o.toNat + 4 < 2 ^ 31)
    (hstart : start.toNat < 2 ^ 31) (h : offset ∈ offsetsWhile goesOn fuel start) :
    start.toNat ≤ offset.toNat ∧ offset.toNat < 2 ^ 31 ∧ goesOn offset = true := by
  induction fuel generalizing start with
  | zero => cases h
  | succ fuel ih =>
    unfold offsetsWhile at h
    split_ifs at h with hcond
    · rcases List.mem_cons.mp h with rfl | h
      · exact ⟨Nat.le_refl _, hstart, hcond⟩
      · have hnext : (start + 4).toNat = start.toNat + 4 := toNat_add_small hstart (by decide)
        have hlt := hgoes start hstart hcond
        obtain ⟨hle, hoffset⟩ := ih (by omega) h
        exact ⟨by omega, hoffset⟩
    · cases h

/-- **A loop over offsets stays in front of its end.** -/
theorem mem_offsetsTo {width stop : BitVec 32} (hwidth : 4 ≤ width.toNat ∧ width.toNat < 2 ^ 31)
    (hstop : stop.toNat < 2 ^ 31) (hstart : start.toNat < 2 ^ 31)
    (h : offset ∈ offsetsTo width stop start) :
    start.toNat ≤ offset.toNat ∧ offset.toNat + width.toNat ≤ stop.toNat := by
  have hcond : ∀ o : BitVec 32, o.toNat < 2 ^ 31 → decide (o + width ≤ stop) = true →
      o.toNat + width.toNat ≤ stop.toNat := by
    intro o ho hle
    have hle : (o + width).toNat ≤ stop.toNat := of_decide_eq_true hle
    rwa [toNat_add_small ho hwidth.2] at hle
  obtain ⟨hle, hlt, hgoes⟩ := mem_offsetsWhile (fun o ho hgoes => by
    have := hcond o ho hgoes
    omega) hstart h
  exact ⟨hle, hcond offset hlt hgoes⟩

end Loops

namespace FragmentScan

section Reads

variable {s : FragmentScan} {offset gapBegin gapEnd : BitVec 32}

theorem Sound.readWord (hs : s.Sound) (h : offset.toNat + 4 ≤ s.relocOffset.toNat) :
    ReadsWithin (s.readWord offset) fun _ => True :=
  (reads_word (h.trans hs.body)).mono fun _ _ => trivial

/-- The check of an offset against the end of the body, for every offset but the last one. -/
theorem word_le_of_check (hs : s.Sound) (haligned : ¬offset &&& 3 ≠ 0)
    (hcheck : ¬s.relocOffset < offset + 4) (hlast : offset ≠ 0xFFFFFFFC) :
    offset.toNat + 4 ≤ s.relocOffset.toNat := by
  have hsmall := hs.small
  have hle : ¬s.relocOffset.toNat < (offset + 4).toNat := hcheck
  have hmod : offset.toNat % 4 = 0 := by
    have hand := congrArg BitVec.toNat (not_not.mp haligned)
    rw [BitVec.toNat_and, show (3 : BitVec 32).toNat = 2 ^ 2 - 1 from rfl,
      Nat.and_two_pow_sub_one_eq_mod] at hand
    exact hand
  have hne : offset.toNat ≠ 0xFFFFFFFC := fun heq => hlast (BitVec.eq_of_toNat_eq heq)
  rw [BitVec.toNat_add, show (4 : BitVec 32).toNat = 4 from rfl] at hle
  have := offset.isLt
  omega

/-- The walk gets the whole body, and finds bounds in it. -/
theorem Sound.discover (hs : s.Sound) (entryOffset : BitVec 32) :
    ReadsWithin (s.discover entryOffset) fun bounds => ∀ size, bounds = .found size →
      0 < size ∧ entryOffset.toNat + size ≤ s.relocOffset.toNat := by
  have hbody := hs.body
  refine (reads_range (by omega)).bind fun body hbytes => ensures_ok ?_
  intro size hfound
  have hwithin := discoverFunctionBounds_within hfound
  rw [hbytes, List.length_take] at hwithin
  exact ⟨hwithin.1, hwithin.2.trans (Nat.min_le_left _ _)⟩

theorem Sound.readBeforeEnd (hs : s.Sound) {funcEnd : BitVec 32} (h : 8 ≤ funcEnd.toNat)
    (hend : funcEnd.toNat ≤ s.relocOffset.toNat) :
    ReadsWithin (s.readBeforeEnd funcEnd) fun _ => True := by
  have hbody := hs.body
  unfold FragmentScan.readBeforeEnd
  rw [if_neg (by omega)]
  exact (reads_word (by omega)).mono fun _ _ => trivial

/-- Bounds that end with a return. -/
theorem Sound.sizeUpToReturn (hs : s.Sound) (maxSize behind stop : Nat) :
    ReadsWithin (s.sizeUpToReturn offset maxSize behind stop) fun funcSize =>
      ∀ size, funcSize = some size → offset.toNat + size ≤ s.relocOffset.toNat := by
  refine (hs.discover offset).bind fun bounds hbounds => ?_
  split
  · rename_i funcSize
    have hsmall := hs.small
    obtain ⟨-, hwithin⟩ := hbounds funcSize rfl
    dsimp only
    split_ifs with hcheck
    · exact ensures_ok nofun
    · have hend : (BitVec.ofNat 32 (offset.toNat + funcSize)).toNat = offset.toNat + funcSize := by
        rw [BitVec.toNat_ofNat, Nat.mod_eq_of_lt (by omega)]
      refine (hs.readBeforeEnd (by omega) (by omega)).bind fun last _ => ensures_ok ?_
      intro size hsize
      split_ifs at hsize
      cases hsize
      exact hwithin
  · exact ensures_ok nofun

theorem Sound.leafWordsStraight (hs : s.Sound) {funcEnd : BitVec 32}
    (hoffset : offset.toNat < 2 ^ 31) (hend : funcEnd.toNat ≤ s.relocOffset.toNat) :
    ReadsWithin (s.leafWordsStraight offset funcEnd) fun _ => True := by
  have hsmall := hs.small
  have hcond : ∀ o : BitVec 32, o.toNat < 2 ^ 31 → decide (o + 4 < funcEnd) = true →
      o.toNat + 4 < funcEnd.toNat := by
    intro o ho hlt
    have hlt : (o + 4).toNat < funcEnd.toNat := of_decide_eq_true hlt
    rwa [toNat_add_small ho (by decide)] at hlt
  refine Ensures.allM fun cur hcur => ?_
  obtain ⟨-, hlt, hgoes⟩ := mem_offsetsWhile (fun o ho hgoes => by
    have := hcond o ho hgoes
    omega) hoffset hcur
  have := hcond cur hlt hgoes
  exact (hs.readWord (by omega)).bind fun word _ => ensures_ok trivial

theorem Sound.isStackStoreLeaf (hs : s.Sound) (hoffset : offset.toNat < 2 ^ 31) :
    ReadsWithin (s.isStackStoreLeaf offset) fun _ => True := by
  have hsmall := hs.small
  refine (hs.sizeUpToReturn _ _ _).bind fun funcSize hsize => ?_
  cases funcSize with
  | none => exact ensures_ok trivial
  | some size =>
    have hwithin := hsize size rfl
    refine hs.leafWordsStraight hoffset ?_
    rw [BitVec.toNat_add, BitVec.toNat_ofNat, Nat.mod_eq_of_lt (a := size) (by omega),
      Nat.mod_eq_of_lt (by omega)]
    exact hwithin

/-- **The heuristic for the targets of relocations stays in the body, if and only if** the target is
not the last word of the offsets: the sum in its check wraps there. -/
theorem looksLikeFunctionEntry_inBounds_iff (hs : s.Sound) :
    InBounds (s.looksLikeFunctionEntry offset) ↔ offset ≠ 0xFFFFFFFC := by
  constructor
  · rintro h rfl
    refine h ?_
    have hread : s.readWord 0xFFFFFFFC = .error .outOfBounds := by
      have hnone : romWord s.blob (0xFFFFFFFC : BitVec 32).toNat = none := by
        rw [← Option.not_isSome_iff_eq_none, romWord_isSome_iff]
        have := hs.length
        have : (0xFFFFFFFC : BitVec 32).toNat = 0xFFFFFFFC := rfl
        omega
      rw [FragmentScan.readWord, hnone]
      rfl
    unfold FragmentScan.looksLikeFunctionEntry
    rw [if_neg, hread]
    · rfl
    · rintro (h | h)
      · exact h (by decide)
      · exact absurd h (Nat.not_lt_zero _)
  · intro hlast
    rw [← readsWithin_iff_inBounds]
    unfold FragmentScan.looksLikeFunctionEntry
    split_ifs with hcheck
    · exact ensures_ok trivial
    · rw [not_or] at hcheck
      have hword := word_le_of_check hs hcheck.1 hcheck.2 hlast
      have hsmall := hs.small
      refine (hs.readWord hword).bind fun word _ => ?_
      split_ifs
      · exact ensures_ok trivial
      · exact ensures_ok trivial
      · exact ensures_ok trivial
      · exact ensures_ok trivial
      · exact hs.isStackStoreLeaf (by omega)

/-! ### The gaps -/

theorem ne_last_of_small (h : offset.toNat < 2 ^ 31) : offset ≠ 0xFFFFFFFC := by
  rintro rfl
  exact absurd h (by decide)

/-- A word in front of an end. -/
theorem word_le_of_not_lt {stop width : BitVec 32} (hwidth : width.toNat < 2 ^ 31)
    (hoffset : offset.toNat < 2 ^ 31) (h : ¬stop < offset + width) :
    offset.toNat + width.toNat ≤ stop.toNat := by
  have hle : ¬stop.toNat < (offset + width).toNat := h
  rw [toNat_add_small hoffset hwidth] at hle
  omega

theorem Sound.looksLikeGapFunctionEntry (hs : s.Sound) (hoffset : offset.toNat < 2 ^ 31) :
    ReadsWithin (s.looksLikeGapFunctionEntry offset) fun _ => True := by
  unfold FragmentScan.looksLikeGapFunctionEntry
  split_ifs with hcheck
  · exact ensures_ok trivial
  · rw [not_or] at hcheck
    have hword := word_le_of_check hs hcheck.1 hcheck.2 (ne_last_of_small hoffset)
    exact (hs.readWord hword).bind fun word _ => ensures_ok trivial

theorem Sound.startsStackFrameAt (hs : s.Sound) (hoffset : offset.toNat < 2 ^ 31) :
    ReadsWithin (s.startsStackFrameAt offset) fun _ => True := by
  unfold FragmentScan.startsStackFrameAt
  split_ifs with hcheck
  · exact ensures_ok trivial
  · have hword : offset.toNat + 4 ≤ s.relocOffset.toNat :=
      word_le_of_not_lt (by decide) hoffset hcheck
    exact (hs.readWord hword).bind fun word _ => ensures_ok trivial

theorem Sound.hasLinkInstructionInRange (hs : s.Sound) {stop : BitVec 32}
    (hoffset : offset.toNat < 2 ^ 31) (hstop : stop.toNat ≤ s.relocOffset.toNat) :
    ReadsWithin (s.hasLinkInstructionInRange offset stop) fun _ => True := by
  have hsmall := hs.small
  refine Ensures.anyM fun o ho => ?_
  have hword : o.toNat + 4 ≤ stop.toNat :=
    (mem_offsetsTo (by decide) (by omega) hoffset ho).2
  exact (hs.readWord (hword.trans hstop)).bind fun word _ => ensures_ok trivial

theorem Sound.startsLeaf (hs : s.Sound) (h : offset.toNat + 4 ≤ s.relocOffset.toNat) :
    ReadsWithin (s.startsLeaf offset) fun _ => True :=
  (hs.readWord h).bind fun _ _ => ensures_ok trivial

/-- The blocks that a leaf is still to be scanned from are in front of the gap's end. -/
def LeafWalk.InGap (w : LeafWalk) : Prop := ∀ o ∈ w.worklist, o.toNat < 2 ^ 31

theorem LeafWalk.inGap_of_markDelay {w w' : LeafWalk} {delay : BitVec 32} (hw : w.InGap)
    (h : w.markDelay gapEnd delay = some w') : w'.InGap := by
  unfold LeafWalk.markDelay at h
  split_ifs at h
  cases h
  exact hw

/-- A target is in the gap, as no sum with the link address wraps. -/
theorem Sound.inGap_of_enqueue (hs : s.Sound) (hgap : gapEnd.toNat ≤ s.relocOffset.toNat)
    {w w' : LeafWalk} {targetVram : BitVec 32} (hoffset : offset.toNat < gapEnd.toNat)
    (hw : w.InGap) (h : s.enqueueLocalTarget w offset gapEnd targetVram = some w') : w'.InGap := by
  unfold enqueueLocalTarget at h
  dsimp only at h
  split_ifs at h with hrange
  · cases h
    exact hw
  · cases h
    refine List.forall_mem_cons.mpr ⟨?_, hw⟩
    rw [not_or] at hrange
    have hlow : ¬targetVram.toNat < (s.vram + offset).toNat := hrange.1
    have hhigh : ¬(s.vram + gapEnd).toNat ≤ targetVram.toNat := hrange.2
    have hsmall := hs.small
    obtain ⟨-, hvram⟩ := hs.vram
    rw [BitVec.toNat_add, Nat.mod_eq_of_lt (by omega)] at hlow hhigh
    rw [BitVec.toNat_sub_of_le (show s.vram.toNat ≤ targetVram.toNat by omega)]
    omega

/-- **A block of a leaf is scanned in the body.** -/
theorem Sound.leafBlock (hs : s.Sound) (hgap : gapEnd.toNat ≤ s.relocOffset.toNat)
    (hoffset : offset.toNat < gapEnd.toNat) (fuel : Nat) {cursor : BitVec 32} {w : LeafWalk}
    (hcursor : cursor.toNat < 2 ^ 31) (hw : w.InGap) :
    ReadsWithin (s.leafBlock offset gapEnd fuel cursor w) fun w? =>
      ∀ w', w? = some w' → w'.InGap := by
  induction fuel generalizing cursor w with
  | zero =>
    refine ensures_ok ?_
    rintro _ ⟨⟩
    exact hw
  | succ fuel ih =>
    have hsmall := hs.small
    unfold FragmentScan.leafBlock
    split_ifs with hloop
    · have hword : cursor.toNat + 4 ≤ gapEnd.toNat := by
        have hle : (cursor + 4).toNat ≤ gapEnd.toNat := hloop.1
        rwa [toNat_add_small hcursor (by decide)] at hle
      have hvisit : (w.visit cursor).InGap := hw
      have htarget : ∀ target w', ((w.visit cursor).markDelay gapEnd (cursor + 4)).bind
          (fun w => s.enqueueLocalTarget w offset gapEnd target) = some w' → w'.InGap := by
        intro target w' h
        obtain ⟨w₁, hdelay, htarget⟩ := Option.bind_eq_some_iff.mp h
        exact hs.inGap_of_enqueue hgap hoffset (LeafWalk.inGap_of_markDelay hvisit hdelay) htarget
      refine (hs.readWord (hword.trans hgap)).bind fun word _ => ?_
      split_ifs
      · exact ensures_ok nofun
      · refine ensures_ok fun w' h => ?_
        obtain ⟨w₁, hdelay, rfl⟩ := Option.map_eq_some_iff.mp h
        have hw₁ : w₁.InGap := LeafWalk.inGap_of_markDelay hvisit hdelay
        exact hw₁
      · exact ensures_ok nofun
      · refine ensures_ok fun w' h => ?_
        obtain ⟨target, -, h⟩ := Option.bind_eq_some_iff.mp h
        exact htarget target w' h
      · split
        · split
          · rename_i w₁ h
            refine ih ?_ (htarget _ w₁ h)
            rw [toNat_add_small hcursor (by decide)]
            have : (8 : BitVec 32).toNat = 8 := rfl
            omega
          · exact ensures_ok nofun
        · refine ih ?_ hvisit
          rw [toNat_add_small hcursor (by decide)]
          have : (4 : BitVec 32).toNat = 4 := rfl
          omega
    · refine ensures_ok ?_
      rintro _ ⟨⟩
      exact hw

theorem Sound.leafBlocks (hs : s.Sound) (hgap : gapEnd.toNat ≤ s.relocOffset.toNat)
    (hoffset : offset.toNat < gapEnd.toNat) (fuel : Nat) {w : LeafWalk} (hw : w.InGap) :
    ReadsWithin (s.leafBlocks offset gapEnd fuel w) fun _ => True := by
  induction fuel generalizing w with
  | zero => exact ensures_ok trivial
  | succ fuel ih =>
    unfold FragmentScan.leafBlocks
    split
    · exact ensures_ok trivial
    · rename_i cursor worklist hworklist
      have hmem : ∀ o ∈ cursor :: worklist, o.toNat < 2 ^ 31 := hworklist ▸ hw
      obtain ⟨hcursor, hrest⟩ := List.forall_mem_cons.mp hmem
      have hinGap : LeafWalk.InGap { w with worklist } := hrest
      refine (hs.leafBlock hgap hoffset _ hcursor hinGap).bind fun w? hw? => ?_
      split
      · exact ensures_ok trivial
      · exact ih (hw? _ rfl)

theorem Sound.discoverBoundedNoLinkLeaf (hs : s.Sound) :
    ReadsWithin (s.discoverBoundedNoLinkLeaf offset gapEnd) fun _ => True := by
  unfold FragmentScan.discoverBoundedNoLinkLeaf
  have hsmall := hs.small
  split_ifs with hcheck
  · exact ensures_ok trivial
  · rw [not_or, not_or] at hcheck
    have hgap : gapEnd.toNat ≤ s.relocOffset.toNat := Nat.not_lt.mp hcheck.1
    have hoffset : offset.toNat < gapEnd.toNat := Nat.not_le.mp hcheck.2.1
    refine (hs.leafBlocks hgap hoffset _ ?_).bind fun w? _ => ?_
    · intro o ho
      rw [List.mem_singleton.mp ho]
      omega
    · split
      · exact ensures_ok trivial
      · dsimp only
        split_ifs
        · exact ensures_ok trivial
        · exact ensures_ok trivial

end Reads

end FragmentScan

end N64Recomp
