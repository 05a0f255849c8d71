import N64Recomp.Decompressed.FragmentSection

/-!
# Reads of the patterns

The synthesis of the sections that the patterns find in the ROM, with the reads of the ROM, of the
wrappers and of the bodies, behind that of the explicit sections.

## Main definitions

* `foundAt`, `findBodies`: the wrappers of a pattern
* `slotSeeds`: the entries that tables of jumps in the bodies give
* `synthesizePatterns`, `synthesizeFragments`: the patterns, and the whole synthesis
* `SlotsFit`, `PatternFits`, `SynthesisFits`: what the bodies are like

## Main results

* `synthesizeFragments_inBounds_iff`: when the synthesis reads nothing out of bounds
-/

namespace N64Recomp

open Compression Except

/-! ### Wrappers -/

/-- A wrapper that was found, with its address and its patched body. -/
structure FoundBody where
  wrapOff : BitVec 32
  vram : BitVec 32
  body : List (BitVec 8)

section Scan

variable (rom : List (BitVec 8)) (p : DecompressedSectionPattern)
  (patches : List DecompressedSectionPatch)

/-- Whether `PERS-SZP` stands `0x18` in front of a stream. -/
def persSzpAt (y0 : Nat) : Except Stop Bool :=
  if 0x18 ≤ y0 then do
    let magic ← getRange rom (y0 - 0x18) 8
    return magic = ascii "PERS-SZP"
  else return false

/-- Where the wrapper of a stream starts; `none` is a stream of another format. -/
def wrapOffAt (y0 : Nat) : WrapperFormat → Except Stop (Option (BitVec 32))
  | .persSzpYay0 => do
    let szp ← persSzpAt rom y0
    return if szp then some (BitVec.ofNat 32 (y0 - 0x18)) else none
  | .bareYay0 => do
    let szp ← persSzpAt rom y0
    return if szp then none else some (BitVec.ofNat 32 y0)
  | .unknown _ => .error .returnFalse
  | _ => return some (BitVec.ofNat 32 y0)

/-- A body with its patches. -/
def patchedBody (wrapOff vram : BitVec 32) (body : List (BitVec 8)) :
    Except Stop (Option FoundBody) := do
  let body ← patchBlob wrapOff vram patches body
  return some ⟨wrapOff, vram, body⟩

/-- A `FRAGMENT` in the ROM, eight bytes behind the start of its fragment. -/
def foundRaw (magicOff : Nat) : Except Stop (Option FoundBody) :=
  if magicOff < 8 then return none
  else do
    let rawOff := BitVec.ofNat 32 (magicOff - 8)
    match ← (extractRawFragment rom rawOff).attempt .outOfBounds with
    | none => return none
    | some (linkVram, body) =>
      if p.vram ≠ 0 ∧ linkVram ≠ p.vram then return none
      else if fragmentIdFromVram linkVram = none then return none
      else patchedBody patches rawOff linkVram body

/-- The wrapper of a stream whose address is known. -/
def foundWrapper (y0 : Nat) (hitVram : BitVec 32) : Except Stop (Option FoundBody) := do
  match ← wrapOffAt rom y0 p.wrapperFormat with
  | none => return none
  | some wrapOff =>
    match ← (decompressWrapper rom wrapOff p.wrapperFormat).attempt .outOfBounds with
    | none => return none
    | some body => patchedBody patches wrapOff hitVram body

/-- A `Yay0` in the ROM: the stream is decoded first, and its header read. -/
def foundYay0 (y0 : Nat) : Except Stop (Option FoundBody) := do
  match ← (yay0Decompress (rom.drop y0)).attempt .outOfBounds with
  | none => return none
  | some start =>
    match ← (fragmentLinkVram start 0 start.length).attempt .outOfBounds with
    | none => return none
    | some hitVram =>
      if p.vram ≠ 0 ∧ hitVram ≠ p.vram then return none
      else foundWrapper rom p patches y0 hitVram

def foundAt (i : Nat) : Except Stop (Option FoundBody) :=
  if p.wrapperFormat = .rawFragment then foundRaw rom p patches i else foundYay0 rom p patches i

/-- The wrappers of a pattern. -/
def findBodies : Except Stop (List FoundBody) := do
  let found ← (scanPositions rom (magicOf p.wrapperFormat)).mapM (foundAt rom p patches)
  return found.reduceOption

end Scan

/-! ### Slots -/

/-- `scan_limit`. -/
def scanLimit (body : List (BitVec 8)) : BitVec 32 :=
  if relocOffset body < BitVec.ofNat 32 body.length then relocOffset body
  else BitVec.ofNat 32 body.length

/-- The loop over the slots, with the targets of their jumps. From `0x20` on there are offsets for
`2 ^ 29 - 4` of them. -/
def slotLoop (body : List (BitVec 8)) (vram limit : BitVec 32) :
    Nat → BitVec 32 → List (BitVec 32) → Except Stop (List (BitVec 32))
  | 0, _, targets => return targets
  | fuel + 1, slotOff, targets =>
    if slotOff + 8 ≤ limit then do
      let instr ← get (romWord body slotOff.toNat)
      let delay ← get (romWord body (slotOff.toNat + 4))
      if delay ≠ 0 then return targets
      else
        match decodeMipsJumpTarget instr (vram + slotOff + 4) with
        | none => return targets
        | some target => slotLoop body vram limit fuel (slotOff + 8) (targets ++ [target])
    else return targets

/-- The targets of the slots of a body. -/
def addSlots (targets : List (BitVec 32)) (hit : FoundBody) : Except Stop (List (BitVec 32)) :=
  if hit.body.length < 0x28 then return targets
  else do
    let _ ← get (romWord hit.body 0x14)
    slotLoop hit.body hit.vram (scanLimit hit.body) (2 ^ 29 - 4) 0x20 targets

/-- `jump_slot_entry_seeds`, of the fragments at an address. -/
def slotSeeds (targets : List (BitVec 32)) (vram : BitVec 32) : List (BitVec 32) :=
  let offsets := (targets.filter fun target => target &&& 0xFFF00000 = vram).map
    fun target => target - (target &&& 0xFFF00000)
  (offsets.filter fun offset => offset &&& 3 = 0).foldl
    (fun seeds offset => SortedSet.insertInto offset seeds) []

/-! ### Patterns -/

/-- What the patterns change: the context, and the count of the variants. -/
structure PatternState where
  load : LoadState
  syntheticVariantIdx : Nat

/-- The key of a body for the removal of duplicates, when its address names a fragment. -/
def contentKey (hit : FoundBody) : Option (BitVec 64) :=
  (fragmentIdFromVram hit.vram).map fun id =>
    fnv1a64 (hit.body.take hashWindow) ^^^ ((id.setWidth 64 : BitVec 64) <<< 32)

section Patterns

variable (decoder : Decoder) (hasBranchLabel doesLink : BitVec 32 → Bool)
  (rom : List (BitVec 8)) (patches : List DecompressedSectionPatch)
  (forcedFunctionVrams : List (BitVec 32))

/-- What a variant is added with. -/
def variantArgs (p : DecompressedSectionPattern) (targets : List (BitVec 32)) (i : Nat)
    (hit : FoundBody) : FragmentArgs where
  blob := hit.body
  vram := hit.vram
  sectionName := p.base ++ ascii "__rom_" ++ hexDigits hit.wrapOff
  relocatable := p.relocatable
  overrideLinkRamAddr := kSyntheticPoolBase + BitVec.ofNat 32 i * kSyntheticPoolStride
  extraEntryOffsets := slotSeeds targets hit.vram
  forcedFunctionVrams

/-- A turn of the loop over the bodies: one whose key was seen is left out. -/
def addVariantBody (p : DecompressedSectionPattern) (targets : List (BitVec 32))
    (r : List (BitVec 64) × PatternState) (hit : FoundBody) :
    Except Stop (List (BitVec 64) × PatternState) :=
  match contentKey hit with
  | none => return r
  | some key =>
    if key ∈ r.1 then return r
    else do
      let load ← addFragment decoder hasBranchLabel doesLink r.2.load
        (variantArgs forcedFunctionVrams p targets r.2.syntheticVariantIdx hit)
      return (key :: r.1, ⟨load, r.2.syntheticVariantIdx + 1⟩)

/-- One pattern. -/
def addPattern (st : PatternState) (p : DecompressedSectionPattern) : Except Stop PatternState := do
  let hits ← findBodies rom p patches
  let targets ← hits.foldlM addSlots []
  let (_, st) ← hits.foldlM
    (addVariantBody decoder hasBranchLabel doesLink forcedFunctionVrams p targets) ([], st)
  return st

/-- `synthesize_decompressed_patterns`. -/
def synthesizePatterns (patterns : List DecompressedSectionPattern) (st : LoadState) :
    Except Stop LoadState := do
  if patterns.isEmpty then return st
  require (rom ≠ [])
  let firstAddedIndex := (BitVec.ofNat 16 st.context.sections.length).toNat
  let last ← patterns.foldlM
    (addPattern decoder hasBranchLabel doesLink rom patches forcedFunctionVrams) ⟨st, 0⟩
  return { last.load with context := { last.load.context with
    sections := resolveCrossSectionTargets last.load.context.sections firstAddedIndex } }

/-- The explicit sections, then the patterns, with the counter of the synthetic ROM at its start. -/
def synthesizeFragments (configs : List ExplicitConfig)
    (patterns : List DecompressedSectionPattern) (context : Context) (aliases : AliasTable) :
    Except Stop LoadState := do
  let st ← addExplicitSections rom patches configs ⟨context, aliases, syntheticRomBase.toNat⟩
  synthesizePatterns decoder hasBranchLabel doesLink rom patches forcedFunctionVrams patterns st

end Patterns

/-! ### Wrappers stay in the ROM -/

section ScanReads

variable {rom : List (BitVec 8)} {p : DecompressedSectionPattern}
  {patches : List DecompressedSectionPatch}

/-- **A body that was found**: its size has 32 bits, and its address is that of a header. -/
structure FoundBody.Decoded (hit : FoundBody) : Prop where
  length : hit.body.length < 2 ^ 32
  vram : 0x80000000 ≤ hit.vram.toNat ∧ hit.vram.toNat < 0xC0000000

/-- A refusal is handled, and a hit is decoded. -/
abbrev FindsDecoded (x : Except Stop (Option FoundBody)) : Prop :=
  ReadsWithin x fun hit? => ∀ hit, hit? = some hit → hit.Decoded

theorem patchedBody_reads {wrapOff vram : BitVec 32} {body : List (BitVec 8)}
    (hlength : body.length < 2 ^ 32)
    (hvram : 0x80000000 ≤ vram.toNat ∧ vram.toNat < 0xC0000000) :
    FindsDecoded (patchedBody patches wrapOff vram body) := by
  refine (patchBlob_reads wrapOff vram patches).bind fun patched hpatched => ensures_ok ?_
  rintro _ ⟨⟩
  exact ⟨hpatched ▸ hlength, hvram⟩

theorem persSzpAt_reads {y0 : Nat} (h : y0 ≤ rom.length) :
    ReadsWithin (persSzpAt rom y0) fun _ => True := by
  unfold persSzpAt
  split_ifs
  · exact (reads_range (by omega)).bind fun magic _ => ensures_ok trivial
  · exact ensures_ok trivial

theorem wrapOffAt_reads {y0 : Nat} (h : y0 ≤ rom.length) (format : WrapperFormat) :
    ReadsWithin (wrapOffAt rom y0 format) fun _ => True := by
  cases format with
  | persSzpYay0 => exact (persSzpAt_reads h).bind fun szp _ => ensures_ok trivial
  | bareYay0 => exact (persSzpAt_reads h).bind fun szp _ => ensures_ok trivial
  | unknown text => exact ensures_error nofun
  | yay0 => exact ensures_ok trivial
  | rawFragment => exact ensures_ok trivial

theorem foundRaw_reads (magicOff : Nat) : FindsDecoded (foundRaw rom p patches magicOff) := by
  unfold foundRaw
  split_ifs
  · exact ensures_ok nofun
  · refine (extractRawFragment_reads _).attempt.bind fun r? hr? => ?_
    split
    · exact ensures_ok nofun
    · obtain ⟨hvram, hlength⟩ := hr? _ rfl
      split_ifs
      · exact ensures_ok nofun
      · exact ensures_ok nofun
      · exact patchedBody_reads hlength hvram

theorem foundYay0_reads {y0 : Nat} (h : y0 ≤ rom.length) :
    FindsDecoded (foundYay0 rom p patches y0) := by
  refine (yay0Decompress_reads _).attempt.bind fun start? _ => ?_
  split
  · exact ensures_ok nofun
  · refine (fragmentLinkVram_reads fun _ => by omega).attempt.bind fun vram? hvram? => ?_
    split
    · exact ensures_ok nofun
    · have hvram := hvram? _ rfl
      split_ifs
      · exact ensures_ok nofun
      · refine (wrapOffAt_reads h _).bind fun wrapOff? _ => ?_
        split
        · exact ensures_ok nofun
        · refine (decompressWrapper_reads _ _).attempt.bind fun body? hbody? => ?_
          split
          · exact ensures_ok nofun
          · exact patchedBody_reads (hbody? _ rfl) hvram

theorem mem_of_mem_scanFrom {size step scanPos i : Nat} {l : List Nat}
    (h : i ∈ scanFrom size step scanPos l) : i ∈ l := by
  induction l generalizing scanPos with
  | nil => cases h
  | cons j rest ih =>
    unfold scanFrom at h
    split_ifs at h
    · rcases List.mem_cons.mp h with rfl | h
      · exact List.mem_cons_self
      · exact List.mem_cons_of_mem j (ih h)
    · exact List.mem_cons_of_mem j (ih h)
    · cases h

/-- **The wrappers of a pattern are read in the ROM**, and decoded. -/
theorem findBodies_reads :
    ReadsWithin (findBodies rom p patches) fun hits => ∀ hit ∈ hits, hit.Decoded := by
  have hfound : ∀ i ∈ scanPositions rom (magicOf p.wrapperFormat),
      FindsDecoded (foundAt rom p patches i) := by
    intro i hi
    have hle := (mem_magicPositions.mp (mem_of_mem_scanFrom hi)).1
    unfold foundAt
    split_ifs
    · exact foundRaw_reads i
    · exact foundYay0_reads hle
  refine (reads_mapM hfound).bind fun found hhits => ensures_ok ?_
  intro hit hhit
  exact hhits _ (List.reduceOption_mem_iff.mp hhit) hit rfl

end ScanReads

/-! ### Slots stay in their bodies -/

section Slots

variable {body : List (BitVec 8)} {vram limit slotOff : BitVec 32} {targets : List (BitVec 32)}

/-- A slot of a table of jumps: a jump with an empty delay slot. -/
def IsSlot (body : List (BitVec 8)) (off : Nat) : Prop :=
  romWord body (off + 4) = some 0 ∧ ∃ instr : BitVec 32, romWord body off = some instr ∧
    ((instr >>> 26) &&& 0x3F = 0x02 ∨ (instr >>> 26) &&& 0x3F = 0x03)

/-- **The slots of a body end** in front of the end of the offsets: the body does, or there is a word
that is no slot. -/
def SlotsFit (body : List (BitVec 8)) : Prop :=
  0x28 ≤ body.length → 0xFFFFFFF8 ≤ (scanLimit body).toNat →
    ∃ k, 0x20 + 8 * k + 8 ≤ 0xFFFFFFF8 ∧ ¬IsSlot body (0x20 + 8 * k)

theorem decodeMipsJumpTarget_isSome_iff {instr pc : BitVec 32} :
    (decodeMipsJumpTarget instr pc).isSome ↔
      (instr >>> 26) &&& 0x3F = 0x02 ∨ (instr >>> 26) &&& 0x3F = 0x03 := by
  unfold decodeMipsJumpTarget
  split_ifs with h
  · exact iff_of_true rfl h
  · exact iff_of_false nofun h

/-- A turn of the loop at words of the body. -/
theorem slotLoop_succ (vram : BitVec 32) (targets : List (BitVec 32)) (fuel : Nat) (hle : slotOff + 8 ≤ limit)
    (hword : slotOff.toNat + 8 ≤ body.length) :
    (IsSlot body slotOff.toNat ∧ ∃ target, slotLoop body vram limit (fuel + 1) slotOff targets =
        slotLoop body vram limit fuel (slotOff + 8) (targets ++ [target])) ∨
      (¬IsSlot body slotOff.toNat ∧
        slotLoop body vram limit (fuel + 1) slotOff targets = .ok targets) := by
  obtain ⟨instr, hinstr⟩ := Option.isSome_iff_exists.mp
    (romWord_isSome_iff.mpr (show slotOff.toNat + 4 ≤ body.length by omega))
  obtain ⟨delay, hdelay⟩ := Option.isSome_iff_exists.mp
    (romWord_isSome_iff.mpr (show slotOff.toNat + 4 + 4 ≤ body.length by omega))
  have hturn : slotLoop body vram limit (fuel + 1) slotOff targets =
      if delay ≠ 0 then .ok targets
      else
        match decodeMipsJumpTarget instr (vram + slotOff + 4) with
        | none => .ok targets
        | some target => slotLoop body vram limit fuel (slotOff + 8) (targets ++ [target]) := by
    rw [slotLoop, if_pos hle, hinstr, hdelay]
    rfl
  unfold IsSlot
  rw [hturn, hinstr, hdelay]
  by_cases hzero : delay = 0
  · rw [if_neg (not_not.mpr hzero), hzero]
    cases htarget : decodeMipsJumpTarget instr (vram + slotOff + 4) with
    | none =>
      refine .inr ⟨?_, rfl⟩
      rintro ⟨-, _, ⟨⟩, hjump⟩
      have hsome : (decodeMipsJumpTarget instr (vram + slotOff + 4)).isSome :=
        decodeMipsJumpTarget_isSome_iff.mpr hjump
      rw [htarget] at hsome
      cases hsome
    | some target =>
      refine .inl ⟨⟨rfl, instr, rfl, ?_⟩, target, rfl⟩
      rw [← decodeMipsJumpTarget_isSome_iff, htarget]
      rfl
  · rw [if_pos hzero]
    exact .inr ⟨fun h => hzero (Option.some.inj h.1), rfl⟩

/-- **The loop over the slots stays in the body, if and only if** the slots end. -/
theorem slotLoop_inBounds_iff (hlength : body.length < 2 ^ 32)
    (hlimit : limit.toNat ≤ body.length) {fuel : Nat}
    (hfuel : slotOff.toNat + 8 * fuel = 2 ^ 32)
    (hoff : slotOff.toNat < 0xFFFFFFF8 ∨ slotOff.toNat ≤ limit.toNat) :
    InBounds (slotLoop body vram limit fuel slotOff targets) ↔
      (0xFFFFFFF8 ≤ limit.toNat → ∃ k, slotOff.toNat + 8 * k + 8 ≤ 0xFFFFFFF8 ∧
        ¬IsSlot body (slotOff.toNat + 8 * k)) := by
  induction fuel generalizing slotOff targets with
  | zero => exact absurd slotOff.isLt (by omega)
  | succ fuel ih =>
    have height : (slotOff + 8).toNat = (slotOff.toNat + 8) % 2 ^ 32 := by
      rw [BitVec.toNat_add]
      rfl
    rcases Nat.eq_zero_or_pos fuel with rfl | hpos
    · -- the last offset, where the sum in the check wraps
      refine iff_of_false (fun h => h ?_) ?_
      · have hle : slotOff + 8 ≤ limit := by
          change (slotOff + 8).toNat ≤ limit.toNat
          omega
        have hnone : romWord body (slotOff.toNat + 4) = none := by
          rw [← Option.not_isSome_iff_eq_none, romWord_isSome_iff]
          omega
        unfold slotLoop
        rw [if_pos hle, hnone]
        cases romWord body slotOff.toNat with
        | none => rfl
        | some instr => rfl
      · intro h
        obtain ⟨k, hk, -⟩ := h (by omega)
        omega
    · have hnext : (slotOff + 8).toNat = slotOff.toNat + 8 := by omega
      by_cases hle : slotOff + 8 ≤ limit
      · have hle' : (slotOff + 8).toNat ≤ limit.toNat := hle
        have hword : slotOff.toNat + 8 ≤ body.length := by omega
        rcases slotLoop_succ vram targets fuel hle hword with ⟨hslot, target, heq⟩ | ⟨hslot, heq⟩
        · rw [heq, ih (by omega) (.inr hle'), hnext]
          refine imp_congr_right fun _ => ?_
          constructor
          · rintro ⟨k, hk, hnot⟩
            refine ⟨k + 1, by omega, ?_⟩
            rwa [show slotOff.toNat + 8 * (k + 1) = slotOff.toNat + 8 + 8 * k by omega]
          · rintro ⟨k, hk, hnot⟩
            rcases Nat.eq_zero_or_pos k with rfl | hk'
            · exact absurd hslot hnot
            · refine ⟨k - 1, by omega, ?_⟩
              rwa [show slotOff.toNat + 8 + 8 * (k - 1) = slotOff.toNat + 8 * k by omega]
        · rw [heq]
          exact iff_of_true (inBounds_ok _) fun _ => ⟨0, by omega, hslot⟩
      · have hlt : ¬(slotOff + 8).toNat ≤ limit.toNat := hle
        unfold slotLoop
        rw [if_neg hle]
        exact iff_of_true (inBounds_ok _) fun h => absurd h (by omega)

/-- The slots of a body are read in it, if and only if they end. -/
theorem addSlots_inBounds_iff {hit : FoundBody} (hhit : hit.Decoded) :
    InBounds (addSlots targets hit) ↔ SlotsFit hit.body := by
  have hlength := hhit.length
  unfold addSlots SlotsFit
  split_ifs with hsmall
  · exact iff_of_true (inBounds_ok _) fun h => absurd h (by omega)
  · obtain ⟨offset, hoffset⟩ := Option.isSome_iff_exists.mp
      (romWord_isSome_iff.mpr (show 0x14 + 4 ≤ hit.body.length by omega))
    have hlimit : (scanLimit hit.body).toNat ≤ hit.body.length := by
      have hsize : (BitVec.ofNat 32 hit.body.length).toNat = hit.body.length := by
        rw [BitVec.toNat_ofNat, Nat.mod_eq_of_lt hlength]
      unfold scanLimit
      split_ifs with hlt
      · have hlt : (relocOffset hit.body).toNat < (BitVec.ofNat 32 hit.body.length).toNat := hlt
        omega
      · omega
    rw [hoffset, get_some, ok_bind,
      slotLoop_inBounds_iff hlength hlimit (by decide) (.inl (by decide))]
    exact ⟨fun h _ => h, fun h => h (by omega)⟩

theorem completes_addSlots (hit : FoundBody) : FragmentScan.Completes (addSlots targets hit) := by
  have hloop : ∀ fuel slotOff targets, FragmentScan.Completes
      (slotLoop hit.body hit.vram (scanLimit hit.body) fuel slotOff targets) := by
    intro fuel
    induction fuel with
    | zero => exact fun _ _ => ensures_ok trivial
    | succ fuel ih =>
      intro slotOff targets
      unfold slotLoop
      split_ifs
      · refine (FragmentScan.completes_get _).bind fun instr _ => ?_
        refine (FragmentScan.completes_get _).bind fun delay _ => ?_
        split_ifs
        · exact ensures_ok trivial
        · split
          · exact ensures_ok trivial
          · exact ih _ _
      · exact ensures_ok trivial
  unfold addSlots
  split_ifs
  · exact ensures_ok trivial
  · exact (FragmentScan.completes_get _).bind fun _ _ => hloop _ _ _

/-- An entry of a slot is in the part of an address that it is rounded down by. -/
theorem slotSeeds_ne_last {seed : BitVec 32} (h : seed ∈ slotSeeds targets vram) :
    seed ≠ 0xFFFFFFFC := by
  have hmem : ∀ (offsets seeds : List (BitVec 32)),
      seed ∈ offsets.foldl (fun seeds offset => SortedSet.insertInto offset seeds) seeds →
      seed ∈ offsets ∨ seed ∈ seeds := by
    intro offsets
    induction offsets with
    | nil => exact fun seeds h => .inr h
    | cons offset offsets ih =>
      intro seeds h
      rcases ih _ h with h | h
      · exact .inl (List.mem_cons_of_mem offset h)
      · rcases SortedSet.mem_insertInto.mp h with rfl | h
        · exact .inl List.mem_cons_self
        · exact .inr h
  obtain ⟨hoffset, -⟩ := List.mem_filter.mp ((hmem _ _ h).resolve_right List.not_mem_nil)
  obtain ⟨target, -, rfl⟩ := List.mem_map.mp hoffset
  have hparts : target - (target &&& 0xFFF00000) = target &&& 0x000FFFFF := by
    have hdisjoint : (target &&& 0xFFF00000) &&& (target &&& 0x000FFFFF) = 0#32 := by
      rw [BitVec.and_comm target 0x000FFFFF, ← BitVec.and_assoc, BitVec.and_assoc target,
        show (0xFFF00000 &&& 0x000FFFFF : BitVec 32) = 0#32 from rfl, BitVec.and_zero,
        BitVec.zero_and]
    have hsum := BitVec.add_eq_or_of_and_eq_zero _ _ hdisjoint
    rw [← BitVec.and_or_distrib_left, show (0xFFF00000 ||| 0x000FFFFF : BitVec 32) =
      BitVec.allOnes 32 from rfl, BitVec.and_allOnes] at hsum
    calc target - (target &&& 0xFFF00000)
        = ((target &&& 0xFFF00000) + (target &&& 0x000FFFFF)) - (target &&& 0xFFF00000) := by
          rw [hsum]
      _ = target &&& 0x000FFFFF := by
          rw [BitVec.add_comm, BitVec.add_sub_cancel]
  rintro hlast
  have hle : (target &&& 0x000FFFFF).toNat ≤ 0x000FFFFF := by
    rw [BitVec.toNat_and]
    exact Nat.and_le_right
  rw [← hparts, hlast] at hle
  exact absurd hle (by decide)

end Slots

/-! ### The synthesis stays in its bodies -/

section Synthesis

variable {decoder : Decoder} {hasBranchLabel doesLink : BitVec 32 → Bool}
  {rom : List (BitVec 8)} {patches : List DecompressedSectionPatch}
  {forcedFunctionVrams : List (BitVec 32)} {p : DecompressedSectionPattern}
  {targets : List (BitVec 32)} {st : PatternState}

/-- The counter of the synthetic ROM is in the range of the synthetic ROM. -/
def PatternState.Counts (st : PatternState) : Prop :=
  syntheticRomBase.toNat ≤ st.load.nextSyntheticRom

/-- **A pattern fits**: the slots of each body that was found end, and each variant fits when its turn
comes. -/
def PatternFits (decoder : Decoder) (hasBranchLabel doesLink : BitVec 32 → Bool)
    (rom : List (BitVec 8)) (patches : List DecompressedSectionPatch)
    (forcedFunctionVrams : List (BitVec 32)) (st : PatternState)
    (p : DecompressedSectionPattern) : Prop :=
  ∀ hits, findBodies rom p patches = .ok hits →
    (∀ hit ∈ hits, SlotsFit hit.body) ∧
    ∀ targets, hits.foldlM addSlots [] = .ok targets →
    ∀ visited hit rest r key, hits = visited ++ hit :: rest →
      visited.foldlM (addVariantBody decoder hasBranchLabel doesLink forcedFunctionVrams p targets)
        ([], st) = .ok r →
      contentKey hit = some key → key ∉ r.1 →
      FragmentFits decoder hasBranchLabel doesLink r.2.load
        (variantArgs forcedFunctionVrams p targets r.2.syntheticVariantIdx hit)

/-- A hit is added with the address of a header, and with entries of slots. -/
theorem fromPattern_variantArgs {hit : FoundBody} (hhit : hit.Decoded) (i : Nat) :
    (variantArgs forcedFunctionVrams p targets i hit).FromPattern where
  length := hhit.length
  vram := hhit.vram
  extra := fun _ => slotSeeds_ne_last

section Variant

variable {r r' : List (BitVec 64) × PatternState} {hit : FoundBody}

theorem addVariantBody_inBounds_iff (hr : r.2.Counts) (hhit : hit.Decoded) :
    InBounds (addVariantBody decoder hasBranchLabel doesLink forcedFunctionVrams p targets r hit) ↔
      ∀ key, contentKey hit = some key → key ∉ r.1 →
        FragmentFits decoder hasBranchLabel doesLink r.2.load
          (variantArgs forcedFunctionVrams p targets r.2.syntheticVariantIdx hit) := by
  unfold addVariantBody
  cases hkey : contentKey hit with
  | none => exact iff_of_true (inBounds_ok _) nofun
  | some key =>
    dsimp only
    by_cases hseen : key ∈ r.1
    · rw [if_pos hseen]
      refine iff_of_true (inBounds_ok _) ?_
      rintro _ ⟨⟩ hnew
      exact absurd hseen hnew
    · rw [if_neg hseen]
      have hadd : InBounds (addFragment decoder hasBranchLabel doesLink r.2.load
          (variantArgs forcedFunctionVrams p targets r.2.syntheticVariantIdx hit)) ↔ _ :=
        addFragment_inBounds_iff hr (fromPattern_variantArgs hhit _)
      constructor
      · rintro h _ ⟨⟩ -
        refine hadd.mp fun hfault => h ?_
        rw [hfault]
        rfl
      · intro h
        exact InBounds.bind (hadd.mpr (h key rfl hseen)) fun load _ => inBounds_ok _

theorem counts_addVariantBody (hr : r.2.Counts) (hhit : hit.Decoded)
    (h : addVariantBody decoder hasBranchLabel doesLink forcedFunctionVrams p targets r hit =
      .ok r') : r'.2.Counts := by
  unfold addVariantBody at h
  cases hkey : contentKey hit with
  | none =>
    rw [hkey] at h
    cases h
    exact hr
  | some key =>
    rw [hkey] at h
    dsimp only at h
    split_ifs at h
    · cases h
      exact hr
    · obtain ⟨load, hload, h⟩ := bind_eq_ok_iff.mp h
      cases h
      exact nextSyntheticRom_of_addFragment hr (fromPattern_variantArgs hhit _) hload

end Variant

/-- The counter stays in its range along the bodies of a pattern. -/
theorem counts_of_variants {hits : List FoundBody} (hst : st.Counts)
    (hhits : ∀ hit ∈ hits, hit.Decoded) {r : List (BitVec 64) × PatternState}
    (h : hits.foldlM (addVariantBody decoder hasBranchLabel doesLink forcedFunctionVrams p targets)
      ([], st) = .ok r) : r.2.Counts := by
  refine foldlM_ok_induction (P := fun _ (r : List (BitVec 64) × PatternState) => r.2.Counts) hst
    ?_ h
  intro visited hit r r' hr hmem hadd
  exact counts_addVariantBody hr (hhits hit hmem) hadd

/-- **A pattern reads nothing out of bounds, if and only if** it fits. -/
theorem addPattern_inBounds_iff (hst : st.Counts) :
    InBounds (addPattern decoder hasBranchLabel doesLink rom patches forcedFunctionVrams st p) ↔
      PatternFits decoder hasBranchLabel doesLink rom patches forcedFunctionVrams st p := by
  have hfound : ReadsWithin (findBodies rom p patches) _ := findBodies_reads
  unfold addPattern PatternFits
  rw [inBounds_bind_iff hfound.1]
  refine forall_congr' fun hits => imp_congr_right fun hhits => ?_
  have hdecoded : ∀ hit ∈ hits, hit.Decoded := hfound.2 hits hhits
  have hslots : InBounds (hits.foldlM addSlots []) ↔ ∀ hit ∈ hits, SlotsFit hit.body :=
    FragmentScan.foldlM_inBounds_iff
      (fun targets hit hhit => addSlots_inBounds_iff (hdecoded hit hhit))
      fun targets hit _ => completes_addSlots hit
  -- the turns of the loop over the bodies, in the states that they are in
  have hvariants : ∀ targets,
      InBounds (hits.foldlM
        (addVariantBody decoder hasBranchLabel doesLink forcedFunctionVrams p targets) ([], st)) ↔
      ∀ visited hit rest r key, hits = visited ++ hit :: rest →
        visited.foldlM
          (addVariantBody decoder hasBranchLabel doesLink forcedFunctionVrams p targets)
          ([], st) = .ok r →
        contentKey hit = some key → key ∉ r.1 →
        FragmentFits decoder hasBranchLabel doesLink r.2.load
          (variantArgs forcedFunctionVrams p targets r.2.syntheticVariantIdx hit) := by
    intro targets
    have hturn : ∀ visited hit rest r, hits = visited ++ hit :: rest →
        visited.foldlM
          (addVariantBody decoder hasBranchLabel doesLink forcedFunctionVrams p targets)
          ([], st) = .ok r →
        (InBounds (addVariantBody decoder hasBranchLabel doesLink forcedFunctionVrams p targets r
          hit) ↔ ∀ key, contentKey hit = some key → key ∉ r.1 →
            FragmentFits decoder hasBranchLabel doesLink r.2.load
              (variantArgs forcedFunctionVrams p targets r.2.syntheticVariantIdx hit)) := by
      rintro visited hit rest r rfl hvisited
      have hcounts := counts_of_variants hst
        (fun hit hhit => hdecoded hit (List.mem_append_left _ hhit)) hvisited
      exact addVariantBody_inBounds_iff hcounts
        (hdecoded hit (List.mem_append_right _ List.mem_cons_self))
    refine (foldlM_ne_error_iff).trans ?_
    constructor
    · intro h visited hit rest r key hsplit hvisited hkey hnew
      exact (hturn visited hit rest r hsplit hvisited).mp
        (h visited hit rest r hsplit hvisited) key hkey hnew
    · intro h visited hit rest r hsplit hvisited
      exact (hturn visited hit rest r hsplit hvisited).mpr fun key =>
        h visited hit rest r key hsplit hvisited
  constructor
  · intro h
    have hfirst : InBounds (hits.foldlM addSlots []) := by
      intro hfault
      refine h ?_
      rw [hfault]
      rfl
    refine ⟨hslots.mp hfirst, fun targets htargets => (hvariants targets).mp ?_⟩
    have hloop := (inBounds_bind_iff hfirst).mp h targets htargets
    intro hfault
    refine hloop ?_
    rw [hfault]
    rfl
  · rintro ⟨hbodies, hfits⟩
    refine (inBounds_bind_iff (hslots.mpr hbodies)).mpr fun targets htargets => ?_
    exact InBounds.bind ((hvariants targets).mpr (hfits targets htargets)) fun r _ => inBounds_ok _

theorem counts_addPattern {st' : PatternState} (hst : st.Counts)
    (h : addPattern decoder hasBranchLabel doesLink rom patches forcedFunctionVrams st p =
      .ok st') : st'.Counts := by
  have hfound : ReadsWithin (findBodies rom p patches) _ := findBodies_reads
  obtain ⟨hits, hhits, h⟩ := bind_eq_ok_iff.mp h
  obtain ⟨targets, -, h⟩ := bind_eq_ok_iff.mp h
  obtain ⟨r, hr, h⟩ := bind_eq_ok_iff.mp h
  cases h
  exact counts_of_variants hst (hfound.2 hits hhits) hr

theorem scanPositions_nil (magic : Str) : scanPositions [] magic = [] := by
  unfold scanPositions
  cases magicPositions [] magic with
  | nil => rfl
  | cons i rest => rfl

/-- A pattern finds nothing in an empty ROM. -/
theorem patternFits_nil (st : PatternState) (p : DecompressedSectionPattern) :
    PatternFits decoder hasBranchLabel doesLink [] patches forcedFunctionVrams st p := by
  intro hits hhits
  have hnil : hits = [] := by
    unfold findBodies at hhits
    rw [scanPositions_nil] at hhits
    cases hhits
    rfl
  subst hnil
  refine ⟨nofun, ?_⟩
  intro targets _ visited hit rest r key hsplit
  exact absurd hsplit.symm (by simp)

/-- **The patterns read nothing out of bounds, if and only if** each of them that has its turn fits. -/
theorem synthesizePatterns_inBounds_iff {load : LoadState}
    (hload : syntheticRomBase.toNat ≤ load.nextSyntheticRom)
    (patterns : List DecompressedSectionPattern) :
    InBounds (synthesizePatterns decoder hasBranchLabel doesLink rom patches forcedFunctionVrams
        patterns load) ↔
      ∀ visited p rest st, patterns = visited ++ p :: rest →
        visited.foldlM (addPattern decoder hasBranchLabel doesLink rom patches forcedFunctionVrams)
          ⟨load, 0⟩ = .ok st →
        PatternFits decoder hasBranchLabel doesLink rom patches forcedFunctionVrams st p := by
  have hloop : InBounds (patterns.foldlM
        (addPattern decoder hasBranchLabel doesLink rom patches forcedFunctionVrams) ⟨load, 0⟩) ↔
      ∀ visited p rest st, patterns = visited ++ p :: rest →
        visited.foldlM (addPattern decoder hasBranchLabel doesLink rom patches forcedFunctionVrams)
          ⟨load, 0⟩ = .ok st →
        PatternFits decoder hasBranchLabel doesLink rom patches forcedFunctionVrams st p := by
    refine (foldlM_ne_error_iff).trans ?_
    refine forall_congr' fun visited => forall_congr' fun p => forall_congr' fun rest =>
      forall_congr' fun st => imp_congr_right fun _ => imp_congr_right fun hvisited => ?_
    refine addPattern_inBounds_iff ?_
    have hstart : PatternState.Counts ⟨load, 0⟩ := hload
    refine foldlM_ok_induction (P := fun _ (st : PatternState) => st.Counts) hstart ?_ hvisited
    intro visited p st st' hst _ hadd
    exact counts_addPattern hst hadd
  unfold synthesizePatterns
  split_ifs with hempty
  · refine iff_of_true (inBounds_ok _) ?_
    rintro visited p rest st rfl
    simp at hempty
  · rw [inBounds_require_bind, ← hloop]
    constructor
    · intro h
      by_cases hrom : rom = []
      · -- an empty ROM has no wrappers
        rw [hloop, hrom]
        exact fun _ _ _ st _ _ => patternFits_nil st _
      · intro hfault
        refine h hrom ?_
        rw [hfault]
        rfl
    · intro h _
      exact InBounds.bind h fun st _ => inBounds_ok _

/-- The explicit sections leave the counter of the synthetic ROM where it is. -/
theorem nextSyntheticRom_of_addExplicit {load load' : LoadState} {cfg : ExplicitConfig}
    (h : addExplicit rom patches load cfg = .ok load') :
    load'.nextSyntheticRom = load.nextSyntheticRom := by
  obtain ⟨blob, -, h⟩ := bind_eq_ok_iff.mp h
  obtain ⟨offset, -, h⟩ := bind_eq_ok_iff.mp h
  obtain ⟨body, -, h⟩ := bind_eq_ok_iff.mp h
  obtain ⟨sect, -, h⟩ := bind_eq_ok_iff.mp h
  obtain ⟨entry, -, h⟩ := bind_eq_ok_iff.mp h
  obtain ⟨found, -, h⟩ := bind_eq_ok_iff.mp h
  obtain ⟨pass, -, h⟩ := bind_eq_ok_iff.mp h
  cases h
  rfl

theorem nextSyntheticRom_of_addExplicitSections {load load' : LoadState}
    {configs : List ExplicitConfig} (h : addExplicitSections rom patches configs load = .ok load') :
    load'.nextSyntheticRom = load.nextSyntheticRom := by
  unfold addExplicitSections at h
  split_ifs at h
  · cases h
    rfl
  · obtain ⟨_, -, h⟩ := bind_eq_ok_iff.mp h
    obtain ⟨last, hlast, h⟩ := bind_eq_ok_iff.mp h
    cases h
    show last.nextSyntheticRom = load.nextSyntheticRom
    refine foldlM_ok_induction
      (P := fun _ (st : LoadState) => st.nextSyntheticRom = load.nextSyntheticRom) rfl ?_ hlast
    intro visited cfg st st' hst _ hadd
    exact (nextSyntheticRom_of_addExplicit hadd).trans hst

end Synthesis

/-- **The bodies fit**: that of each explicit section that has its turn, then each pattern that has
its turn. -/
structure SynthesisFits (decoder : Decoder) (hasBranchLabel doesLink : BitVec 32 → Bool)
    (rom : List (BitVec 8)) (patches : List DecompressedSectionPatch)
    (forcedFunctionVrams : List (BitVec 32)) (configs : List ExplicitConfig)
    (patterns : List DecompressedSectionPattern) (start : LoadState) : Prop where
  sections : ∀ visited cfg rest st blob, configs = visited ++ cfg :: rest →
    visited.foldlM (addExplicit rom patches) start = .ok st →
    explicitBody rom patches cfg = .ok blob → ExplicitFits blob
  patterns : ∀ load, addExplicitSections rom patches configs start = .ok load →
    ∀ visited p rest st, patterns = visited ++ p :: rest →
      visited.foldlM (addPattern decoder hasBranchLabel doesLink rom patches forcedFunctionVrams)
        ⟨load, 0⟩ = .ok st →
      PatternFits decoder hasBranchLabel doesLink rom patches forcedFunctionVrams st p

/-- **The synthesis reads nothing out of bounds, if and only if** the bodies fit. -/
theorem synthesizeFragments_inBounds_iff (decoder : Decoder)
    (hasBranchLabel doesLink : BitVec 32 → Bool) (rom : List (BitVec 8))
    (patches : List DecompressedSectionPatch) (forcedFunctionVrams : List (BitVec 32))
    (configs : List ExplicitConfig) (patterns : List DecompressedSectionPattern)
    (context : Context) (aliases : AliasTable) :
    InBounds (synthesizeFragments decoder hasBranchLabel doesLink rom patches forcedFunctionVrams
        configs patterns context aliases) ↔
      SynthesisFits decoder hasBranchLabel doesLink rom patches forcedFunctionVrams configs patterns
        ⟨context, aliases, syntheticRomBase.toNat⟩ := by
  have hsections : InBounds (addExplicitSections rom patches configs
      ⟨context, aliases, syntheticRomBase.toNat⟩) ↔ _ :=
    addExplicitSections_inBounds_iff configs ⟨context, aliases, syntheticRomBase.toNat⟩
  have hpatterns : ∀ load,
      addExplicitSections rom patches configs ⟨context, aliases, syntheticRomBase.toNat⟩ =
        .ok load →
      (InBounds (synthesizePatterns decoder hasBranchLabel doesLink rom patches forcedFunctionVrams
        patterns load) ↔ _) := fun load hload =>
    synthesizePatterns_inBounds_iff (nextSyntheticRom_of_addExplicitSections hload).ge patterns
  unfold synthesizeFragments
  constructor
  · intro h
    have hfirst : InBounds (addExplicitSections rom patches configs
        ⟨context, aliases, syntheticRomBase.toNat⟩) := by
      intro hfault
      refine h ?_
      rw [hfault]
      rfl
    exact ⟨hsections.mp hfirst, fun load hload =>
      (hpatterns load hload).mp ((inBounds_bind_iff hfirst).mp h load hload)⟩
  · intro h
    exact InBounds.bind (hsections.mpr h.sections) fun load hload =>
      (hpatterns load hload).mpr (h.patterns load hload)

/-! ### A word in front of a body -/

instance {α : Type} (x : Except Stop α) : Decidable (InBounds x) :=
  match x with
  | .error .outOfBounds => isFalse fun h => h rfl
  | .error .returnFalse => isTrue nofun
  | .ok a => isTrue (inBounds_ok a)

/-- A raw fragment with a word at `0x28` that a relocation makes an address: it is that of the word
in front of the fragment. -/
def frontFragment : List (BitVec 8) :=
  wordsBytes [0x08400008, 0] ++ ascii "FRAGMENT" ++
    wordsBytes [0x20, 0x2C, 0x34, 0x2C, 0x03E00008, 0, 0x80FFFFFC, 1, 0x02000028]

/-- The entry's offset is `0xFFFFFFFC`, with which the sum in the check for an entry wraps to zero. -/
theorem frontFragment_faults :
    ¬InBounds (synthesizeFragments (Decoder.ofId sampleId) (fun w => (sampleId w).isBranch)
      (fun w => sampleId w ∈ [InstrId.jal, .jalr, .bltzal, .bgezal]) frontFragment [] [] []
      [⟨ascii "frag", 0x81000000, .rawFragment, true⟩] Context.empty ⟨[], []⟩) := by
  decide +kernel

end N64Recomp
