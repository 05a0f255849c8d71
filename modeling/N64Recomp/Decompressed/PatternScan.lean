import Mathlib.Data.List.Infix
import N64Recomp.Compression.PersSzp
import N64Recomp.Context.Names
import N64Recomp.Data.KeepFirst
import N64Recomp.Decompressed.Synthesis

/-!
# The scan of a pattern

A pattern of the configuration is searched in the whole ROM: its wrappers are those whose magic is
found, whose stream is decompressed to a fragment with the pattern's address, and around which the
wrapper of the pattern's format is. The bodies are patched, and those with a runtime fragment are
added without duplicates, by a hash of their first bytes and their fragment.

## Main definitions

* `tryExtractRawFragment`, `decompressWrapperAt`, `applyDecompressedSectionPatches`: one wrapper
* `scanPositions`, `scanHits`: the scan of the ROM
* `synthesizeDecompressedPatterns`: the patterns, one after the other
* `DedupeLossless`: every body is added, and none twice

## Main results

* `mem_scanPositions`: the scan finds every magic that is not at the end of the ROM
* `dedupeLossless_iff`: no body is lost exactly when bodies of one key are equal
-/

namespace N64Recomp

open Compression KeepFirst

/-- `wrapper_format`. -/
inductive WrapperFormat
  | persSzpYay0
  | yay0
  | bareYay0
  | rawFragment
  | unknown (text : Str)
  deriving DecidableEq, Repr

/-- `DecompressedSectionPattern`. -/
structure DecompressedSectionPattern where
  baseName : Str
  vram : BitVec 32
  wrapperFormat : WrapperFormat
  relocatable : Bool

/-- `DecompressedSectionPatch`; a field that is not set applies to every section. -/
structure DecompressedSectionPatch where
  romWrapper : Option (BitVec 32)
  originalPatternId : Option (BitVec 32)
  offset : BitVec 32
  value : BitVec 32

/-! ## One wrapper -/

section Wrapper

/-- Whether a patch is for a section. -/
def DecompressedSectionPatch.applies (patch : DecompressedSectionPatch)
    (romWrapper vram : BitVec 32) : Bool :=
  patch.romWrapper.all (· = romWrapper) &&
    patch.originalPatternId.all (fragmentIdFromVram vram = some ·)

/-- `apply_decompressed_section_patches`. -/
def applyDecompressedSectionPatches (romWrapper vram : BitVec 32)
    (patches : List DecompressedSectionPatch) (blob : List (BitVec 8)) :
    Option (List (BitVec 8)) :=
  patches.foldlM (fun blob patch =>
    if !patch.applies romWrapper vram then some blob
    else if patch.offset.toNat + 4 > blob.length then none
    else some (setRomWord blob patch.offset.toNat patch.value)) blob

variable (rom : List (BitVec 8))

/-- `try_extract_raw_fragment`, with the address of the fragment. The source makes some of the
checks of the header twice. -/
def tryExtractRawFragment (romOffset : BitVec 32) : Option (BitVec 32 × List (BitVec 8)) := do
  guard (romOffset.toNat + 0x20 ≤ rom.length)
  let base := rom.drop romOffset.toNat
  let linkVram ← decodeFragmentLinkVram (base.take 0x20)
  let relocOffset ← romWord base 0x14
  let fileSizeHint ← romWord base 0x18
  let sizeInRam ← romWord base 0x1C
  guard (relocOffset &&& 3 = 0 ∧ 0x20 ≤ relocOffset.toNat)
  guard (romOffset.toNat + relocOffset.toNat + 4 ≤ rom.length)
  let count ← romWord base relocOffset.toNat
  guard (count.toNat ≤ 0x10000)
  let relocTableEnd := relocOffset.toNat + 4 + 4 * count.toNat
  let size := max relocTableEnd sizeInRam.toNat
  let blobSize := if relocTableEnd ≤ fileSizeHint.toNat then max size fileSizeHint.toNat else size
  guard (blobSize ≤ 0x400000 ∧ romOffset.toNat + blobSize ≤ rom.length)
  return (linkVram, base.take blobSize)

/-- `decompress_wrapper_at`. -/
def decompressWrapperAt (romWrapper : BitVec 32) :
    WrapperFormat → Option (List (BitVec 8))
  | .persSzpYay0 =>
    if rom.length ≤ romWrapper.toNat then none
    else (persSzpDecompress (rom.drop romWrapper.toNat)).toOption
  | .yay0 | .bareYay0 =>
    if rom.length ≤ romWrapper.toNat then none
    else (yay0Decompress (rom.drop romWrapper.toNat)).toOption
  | .rawFragment =>
    if rom.length ≤ romWrapper.toNat then none
    else (tryExtractRawFragment rom romWrapper).map Prod.snd
  | .unknown _ => none

/-- Whether `PERS-SZP` stands `0x18` in front of a stream. -/
def persSzpBefore (y0 : Nat) : Bool :=
  0x18 ≤ y0 ∧ (rom.drop (y0 - 0x18)).take 8 = ascii "PERS-SZP"

end Wrapper

/-! ## The scan -/

/-- What a position of a magic is: a wrapper, something else, or an error that ends the synthesis. -/
inductive ScanResult
  | hit (hit : PatternHit)
  | skip
  | abort

section Scan

variable (rom : List (BitVec 8)) (p : DecompressedSectionPattern)
  (patches : List DecompressedSectionPatch)

/-- A body, patched. -/
def patchedHit (wrapOff vram : BitVec 32) (body : List (BitVec 8))
    (decoded : ∃ bytes, decodeFragmentLinkVram bytes = some vram) : ScanResult :=
  match applyDecompressedSectionPatches wrapOff vram patches body with
  | none => .abort
  | some body => .hit ⟨wrapOff, vram, body, decoded⟩

theorem tryExtractRawFragment_decoded {rom : List (BitVec 8)} {romOffset : BitVec 32}
    {r : BitVec 32 × List (BitVec 8)} (h : tryExtractRawFragment rom romOffset = some r) :
    ∃ bytes, decodeFragmentLinkVram bytes = some r.1 := by
  obtain ⟨_, h⟩ := guard_bind_eq_some_iff.mp h
  obtain ⟨linkVram, hdecoded, h⟩ := Option.bind_eq_some_iff.mp h
  obtain ⟨_, _, h⟩ := Option.bind_eq_some_iff.mp h
  obtain ⟨_, _, h⟩ := Option.bind_eq_some_iff.mp h
  obtain ⟨_, _, h⟩ := Option.bind_eq_some_iff.mp h
  obtain ⟨_, h⟩ := guard_bind_eq_some_iff.mp h
  obtain ⟨_, h⟩ := guard_bind_eq_some_iff.mp h
  obtain ⟨_, _, h⟩ := Option.bind_eq_some_iff.mp h
  obtain ⟨_, h⟩ := guard_bind_eq_some_iff.mp h
  obtain ⟨_, h⟩ := guard_bind_eq_some_iff.mp h
  cases h
  exact ⟨_, hdecoded⟩

/-- A `FRAGMENT` in the ROM, eight bytes behind the start of its fragment. -/
def rawHitAt (magicOff : Nat) : ScanResult :=
  if magicOff < 8 then .skip
  else
    let rawOff := BitVec.ofNat 32 (magicOff - 8)
    match h : tryExtractRawFragment rom rawOff with
    | none => .skip
    | some r =>
      if p.vram ≠ 0 ∧ r.1 ≠ p.vram then .skip
      else if fragmentIdFromVram r.1 = none then .skip
      else patchedHit patches rawOff r.1 r.2 (tryExtractRawFragment_decoded h)

/-- Where the wrapper of a stream starts; `none` is a stream of another format. -/
def wrapOffOf (y0 : Nat) : WrapperFormat → Option (BitVec 32)
  | .persSzpYay0 => if persSzpBefore rom y0 then some (BitVec.ofNat 32 (y0 - 0x18)) else none
  | .bareYay0 => if persSzpBefore rom y0 then none else some (BitVec.ofNat 32 y0)
  | _ => some (BitVec.ofNat 32 y0)

/-- A `Yay0` in the ROM. An unknown format ends the synthesis at the first fragment. -/
def yay0HitAt (y0 : Nat) : ScanResult :=
  match (yay0Decompress (rom.drop y0)).toOption with
  | none => .skip
  | some start =>
    match h : decodeFragmentLinkVram start with
    | none => .skip
    | some hitVram =>
      if p.vram ≠ 0 ∧ hitVram ≠ p.vram then .skip
      else if p.wrapperFormat matches .unknown _ then .abort
      else
        match wrapOffOf rom y0 p.wrapperFormat with
        | none => .skip
        | some wrapOff =>
          match decompressWrapperAt rom wrapOff p.wrapperFormat with
          | none => .skip
          | some body => patchedHit patches wrapOff hitVram body ⟨start, h⟩

/-- The magic of a pattern's streams. -/
def magicOf : WrapperFormat → Str
  | .rawFragment => ascii "FRAGMENT"
  | _ => ascii "Yay0"

def hitAt (i : Nat) : ScanResult :=
  if p.wrapperFormat = .rawFragment then rawHitAt rom p patches i else yay0HitAt rom p patches i

/-- Whether a magic stands at a position. -/
def magicAt (magic : Str) (i : Nat) : Bool := (rom.drop i).take magic.length = magic

/-- The loop over the positions of a magic: the next one is searched behind the last one, while
more than sixteen bytes are left. -/
def scanFrom (size step : Nat) : Nat → List Nat → List Nat
  | _, [] => []
  | scanPos, i :: rest =>
    if scanPos + 16 < size then
      if scanPos ≤ i then i :: scanFrom size step (i + step) rest
      else scanFrom size step scanPos rest
    else []

/-- The positions of a magic. -/
def magicPositions (magic : Str) : List Nat :=
  (rom.tails.zipIdx.filter fun t => t.1.take magic.length = magic).map Prod.snd

/-- The positions of a magic that the scan stops at. -/
def scanPositions (magic : Str) : List Nat :=
  scanFrom rom.length magic.length 0 (magicPositions rom magic)

/-- The hits among the results; `none` when one of them is an error. -/
def hitsOf : List ScanResult → Option (List PatternHit)
  | [] => some []
  | .hit hit :: rest => (hitsOf rest).map (hit :: ·)
  | .skip :: rest => hitsOf rest
  | .abort :: _ => none

/-- The hits of a pattern. -/
def scanHits : Option (List PatternHit) :=
  hitsOf ((scanPositions rom (magicOf p.wrapperFormat)).map (hitAt rom p patches))

end Scan

/-! ## The patterns -/

section Patterns

variable (accepts : List (BitVec 8) → Bool) (rom : List (BitVec 8))
  (patches : List DecompressedSectionPatch)

/-- The uppercase hexadecimal digits of a number, without leading zeros. -/
def hexDigits (x : BitVec 32) : Str :=
  match (hex8 x).dropWhile (· = 48) with
  | [] => ascii "0"
  | digits => digits

/-- `base_name`, or `frag_{:08X}`. -/
def DecompressedSectionPattern.base (p : DecompressedSectionPattern) : Str :=
  if p.baseName.isEmpty then ascii "frag_" ++ hex8 p.vram else p.baseName

/-- A pattern with its hits. -/
def DecompressedSectionPattern.withHits (p : DecompressedSectionPattern)
    (hits : List PatternHit) : DecompressedPattern where
  sectionName wrapOff := p.base ++ ascii "__rom_" ++ hexDigits wrapOff
  relocatable := p.relocatable
  hits := hits

/-- One pattern: the scan, then the sections. -/
def synthesizePattern (st : Synthesis) (p : DecompressedSectionPattern) : Option Synthesis := do
  let hits ← scanHits rom p patches
  addHits accepts (p.withHits hits) [] hits st

/-- `synthesize_decompressed_patterns`, from the state behind the explicit sections. -/
def synthesizeDecompressedPatterns (patterns : List DecompressedSectionPattern)
    (st : Synthesis) : Option Synthesis := do
  if patterns.isEmpty then return st
  guard (rom ≠ [])
  let firstAddedIndex := (BitVec.ofNat 16 st.sections.length).toNat
  let st ← patterns.foldlM (synthesizePattern accepts rom patches)
    { st with syntheticVariantIdx := 0 }
  return { st with sections := resolveCrossSectionTargets st.sections firstAddedIndex }

end Patterns

/-! ## The scan finds every magic -/

section Found

variable {rom : List (BitVec 8)} {magic : Str} {i j : Nat}

theorem mem_scanFrom {size step pos : Nat} {l : List Nat}
    (hapart : l.Pairwise fun i j => i + step ≤ j) (hpos : ∀ i ∈ l, pos ≤ i) (hi : i ∈ l)
    (hsize : i + 16 < size) : i ∈ scanFrom size step pos l := by
  induction l generalizing pos with
  | nil => cases hi
  | cons first rest ih =>
    have hfirst : pos ≤ first := hpos first List.mem_cons_self
    have hle : pos ≤ i := hpos i hi
    obtain ⟨hstep, hrest⟩ := List.pairwise_cons.mp hapart
    rw [scanFrom, if_pos (by omega), if_pos hfirst]
    rcases List.mem_cons.mp hi with rfl | hi
    · exact List.mem_cons_self
    · exact List.mem_cons_of_mem _ (ih hrest hstep hi)

/-- A magic whose first byte is not in it again does not overlap itself. -/
theorem magicAt_apart (hmagic : ∀ d < magic.length, 0 < d → magic[d]? ≠ magic[0]?)
    (hpos : 0 < magic.length) (hi : magicAt rom magic i = true) (hj : magicAt rom magic j = true)
    (hij : i < j) : i + magic.length ≤ j := by
  have hbyte : ∀ {k}, magicAt rom magic k = true → ∀ d < magic.length,
      magic[d]? = rom[k + d]? := by
    intro k hk d hd
    have hk' : (rom.drop k).take magic.length = magic := of_decide_eq_true hk
    calc magic[d]? = ((rom.drop k).take magic.length)[d]? := congrArg (·[d]?) hk'.symm
      _ = (rom.drop k)[d]? := List.getElem?_take_of_lt hd
      _ = rom[k + d]? := List.getElem?_drop
  by_contra hlt
  refine hmagic (j - i) (by omega) (by omega) ?_
  rw [hbyte hi _ (by omega), hbyte hj 0 hpos]
  congr 1
  omega

theorem mem_magicPositions :
    i ∈ magicPositions rom magic ↔ i ≤ rom.length ∧ magicAt rom magic i = true := by
  rw [magicPositions, List.mem_map]
  constructor
  · rintro ⟨⟨t, k⟩, hmem, rfl⟩
    obtain ⟨hzip, hmagic⟩ := List.mem_filter.mp hmem
    obtain ⟨hk, ht⟩ := List.getElem?_eq_some_iff.mp (List.mem_zipIdx_iff_getElem?.mp hzip)
    rw [List.getElem_tails] at ht
    rw [List.length_tails] at hk
    dsimp only at ht hk hmagic ⊢
    subst ht
    exact ⟨Nat.le_of_lt_succ hk, hmagic⟩
  · rintro ⟨hle, hmagic⟩
    have hk : i < rom.tails.length := by rw [List.length_tails]; omega
    refine ⟨(rom.drop i, i), List.mem_filter.mpr ⟨List.mem_zipIdx_iff_getElem?.mpr ?_, hmagic⟩, rfl⟩
    rw [List.getElem?_eq_getElem hk, List.getElem_tails]

theorem sorted_magicPositions : (magicPositions rom magic).Pairwise (· < ·) := by
  have hsub : (magicPositions rom magic).Sublist (List.range' 0 rom.tails.length) := by
    rw [← List.zipIdx_map_snd 0 rom.tails]
    exact List.filter_sublist.map _
  exact List.Pairwise.sublist hsub List.pairwise_lt_range'

/-- **The scan stops at every magic** that is not at the end of the ROM. -/
theorem mem_scanPositions (hmagic : ∀ d < magic.length, 0 < d → magic[d]? ≠ magic[0]?)
    (hpos : 0 < magic.length) (hi : magicAt rom magic i = true) (hsize : i + 16 < rom.length) :
    i ∈ scanPositions rom magic := by
  refine mem_scanFrom ?_ (fun _ _ => Nat.zero_le _) (mem_magicPositions.mpr ⟨by omega, hi⟩) hsize
  refine sorted_magicPositions.imp_of_mem fun ha hb hlt => ?_
  exact magicAt_apart hmagic hpos (mem_magicPositions.mp ha).2 (mem_magicPositions.mp hb).2 hlt

theorem magicOf_cases (format : WrapperFormat) :
    magicOf format = ascii "FRAGMENT" ∨ magicOf format = ascii "Yay0" := by
  cases format with
  | rawFragment => exact .inl rfl
  | persSzpYay0 | yay0 | bareYay0 | unknown => exact .inr rfl

theorem magicOf_apart (format : WrapperFormat) : ∀ d < (magicOf format).length, 0 < d →
    (magicOf format)[d]? ≠ (magicOf format)[0]? := by
  rcases magicOf_cases format with h | h
  · rw [h]
    decide
  · rw [h]
    decide

theorem magicOf_length_pos (format : WrapperFormat) : 0 < (magicOf format).length := by
  rcases magicOf_cases format with h | h
  · rw [h]
    decide
  · rw [h]
    decide

/-- A stream that is decompressed to something has a word of its mask. -/
theorem length_of_yay0Decompress {data out : List (BitVec 8)} (h : yay0Decompress data = .ok out)
    (hout : 0 < out.length) : 20 ≤ data.length := by
  obtain ⟨_, _, h⟩ := Except.bind_eq_ok_iff.mp h
  obtain ⟨_, _, h⟩ := Except.bind_eq_ok_iff.mp h
  obtain ⟨decompSize, _, h⟩ := Except.bind_eq_ok_iff.mp h
  obtain ⟨_, _, h⟩ := Except.bind_eq_ok_iff.mp h
  obtain ⟨_, _, h⟩ := Except.bind_eq_ok_iff.mp h
  obtain ⟨_, _, h⟩ := Except.bind_eq_ok_iff.mp h
  obtain ⟨s, hloop, h⟩ := Except.bind_eq_ok_iff.mp h
  obtain ⟨_, hsize, h⟩ := Except.bind_eq_ok_iff.mp h
  have hlength := require_eq_ok_iff.mp hsize
  cases h
  rw [loop] at hloop
  rw [if_pos (by simp only [List.length_nil]; omega)] at hloop
  split at hloop
  · rename_i s' hstep
    obtain ⟨s₁, hrefill, -⟩ := Except.bind_eq_ok_iff.mp hstep
    rw [refill, if_pos rfl] at hrefill
    obtain ⟨_, hword, -⟩ := Except.bind_eq_ok_iff.mp hrefill
    exact require_eq_ok_iff.mp hword
  · cases hloop

/-- A fragment has a whole header. -/
theorem length_of_decoded {bytes : List (BitVec 8)} {vram : BitVec 32}
    (h : decodeFragmentLinkVram bytes = some vram) : 0x20 ≤ bytes.length :=
  (guard_bind_eq_some_iff.mp h).1

end Found

/-! ## Deduplication -/

section Dedupe

variable (rom : List (BitVec 8)) (p : DecompressedSectionPattern)
  (patches : List DecompressedSectionPatch)

/-- How far behind the start of a wrapper its magic is. -/
def magicOffset : WrapperFormat → Nat
  | .persSzpYay0 => 0x18
  | .rawFragment => 8
  | _ => 0

/-- The wrapper at an offset of the ROM is one of the pattern, with this patched body. -/
def MatchesAt (wrapOff : BitVec 32) (hit : PatternHit) : Prop :=
  magicAt rom (magicOf p.wrapperFormat) (wrapOff.toNat + magicOffset p.wrapperFormat) = true ∧
    hitAt rom p patches (wrapOff.toNat + magicOffset p.wrapperFormat) = .hit hit

/-- The scan finds a hit. -/
def IsHit (hit : PatternHit) : Prop :=
  ∃ i ∈ scanPositions rom (magicOf p.wrapperFormat), hitAt rom p patches i = .hit hit

/-- Two hits are of the same fragment, with the same body. -/
def SameContent (a b : PatternHit) : Prop :=
  a.body = b.body ∧ fragmentIdFromVram a.vram = fragmentIdFromVram b.vram

/-- **The deduplication loses nothing**: every wrapper of the pattern is found, every hit with a
runtime fragment has the content of an added one, and no two added ones have the same content. -/
structure DedupeLossless (added : List PatternHit) : Prop where
  found : ∀ wrapOff hit, MatchesAt rom p patches wrapOff hit → IsHit rom p patches hit
  kept : ∀ hit, IsHit rom p patches hit → (fragmentIdFromVram hit.vram).isSome →
    ∃ a ∈ added, SameContent a hit
  distinct : added.Pairwise fun a b => ¬ SameContent a b

/-- Hits with one key have the same content. -/
def KeysDistinguish : Prop :=
  ∀ a b, IsHit rom p patches a → IsHit rom p patches b → (dedupeKey a).isSome →
    dedupeKey a = dedupeKey b → SameContent a b

variable {rom p patches} {hit : PatternHit}

theorem length_of_yay0HitAt {y0 : Nat} (h : yay0HitAt rom p patches y0 = .hit hit) :
    y0 + 16 < rom.length := by
  unfold yay0HitAt at h
  split at h
  · cases h
  · rename_i start hstart
    split at h
    · cases h
    · rename_i vram hdecoded
      have hok : yay0Decompress (rom.drop y0) = .ok start := by
        cases hdata : yay0Decompress (rom.drop y0) with
        | error e =>
          rw [hdata] at hstart
          cases hstart
        | ok out =>
          rw [hdata] at hstart
          exact congrArg Except.ok (Option.some.inj hstart)
      have hheader := length_of_decoded hdecoded
      have hlength := length_of_yay0Decompress hok (by omega)
      rw [List.length_drop] at hlength
      omega

theorem length_of_rawHitAt {rawOff : BitVec 32}
    (h : rawHitAt rom p patches (rawOff.toNat + 8) = .hit hit) :
    rawOff.toNat + 8 + 16 < rom.length := by
  unfold rawHitAt at h
  rw [if_neg (by omega), Nat.add_sub_cancel, BitVec.ofNat_toNat, BitVec.setWidth_eq] at h
  dsimp only at h
  split at h
  · cases h
  · rename_i r hraw
    have hheader := (guard_bind_eq_some_iff.mp hraw).1
    omega

/-- Every wrapper of the pattern is found. -/
theorem isHit_of_matchesAt {wrapOff : BitVec 32} (h : MatchesAt rom p patches wrapOff hit) :
    IsHit rom p patches hit := by
  refine ⟨_, mem_scanPositions (magicOf_apart _) (magicOf_length_pos _) h.1 ?_, h.2⟩
  have hhit := h.2
  rw [hitAt] at hhit
  split_ifs at hhit with hraw
  · rw [hraw] at hhit ⊢
    exact length_of_rawHitAt hhit
  · exact length_of_yay0HitAt hhit

theorem mem_hitsOf {results : List ScanResult} {hits : List PatternHit}
    (h : hitsOf results = some hits) : hit ∈ hits ↔ .hit hit ∈ results := by
  induction results generalizing hits with
  | nil => cases h; simp
  | cons result rest ih =>
    cases result with
    | hit first =>
      obtain ⟨hits', hrest, rfl⟩ := Option.map_eq_some_iff.mp h
      rw [List.mem_cons, List.mem_cons, ih hrest, ScanResult.hit.injEq]
    | skip =>
      rw [List.mem_cons, ih h]
      exact (or_iff_right (by intro h; cases h)).symm
    | abort => cases h

theorem mem_scanHits {hits : List PatternHit} (h : scanHits rom p patches = some hits) :
    hit ∈ hits ↔ IsHit rom p patches hit := by
  rw [mem_hitsOf h, List.mem_map]
  rfl

theorem keptHits_eq (seen : List (BitVec 64)) (hits : List PatternHit) :
    keptHits seen hits = keepFirst dedupeKey seen hits := by
  induction hits generalizing seen with
  | nil => rfl
  | cons hit hits ih =>
    rw [keptHits, keepFirst]
    cases dedupeKey hit with
    | none => exact ih seen
    | some key =>
      dsimp only
      split_ifs
      · exact ih seen
      · exact congrArg (hit :: ·) (ih _)

theorem sameContent_equivalence : Equivalence SameContent where
  refl _ := ⟨rfl, rfl⟩
  symm h := ⟨h.1.symm, h.2.symm⟩
  trans h h' := ⟨h.1.trans h'.1, h.2.trans h'.2⟩

theorem dedupeKey_eq_of_sameContent {a b : PatternHit} (h : SameContent a b) :
    dedupeKey a = dedupeKey b := by
  rw [dedupeKey, dedupeKey, h.1, h.2]

theorem dedupeKey_isSome (hit : PatternHit) :
    (dedupeKey hit).isSome = (fragmentIdFromVram hit.vram).isSome := Option.isSome_map

/-- No body is lost exactly when hits with one key have the same content. -/
theorem dedupeLossless_of_scan {hits : List PatternHit} (h : scanHits rom p patches = some hits) :
    DedupeLossless rom p patches (keptHits [] hits) ↔ KeysDistinguish rom p patches := by
  have hcovers := covers_iff (l := hits) sameContent_equivalence
    fun a b => dedupeKey_eq_of_sameContent (a := a) (b := b)
  rw [keptHits_eq]
  constructor
  · intro hlossless a b ha hb hsome hkey
    refine hcovers.mp ?_ a ((mem_scanHits h).mpr ha) b ((mem_scanHits h).mpr hb) hsome hkey
    intro c hc hc'
    exact hlossless.kept c ((mem_scanHits h).mp hc) (dedupeKey_isSome c ▸ hc')
  · intro hkeys
    refine ⟨fun _ _ => isHit_of_matchesAt, ?_, ?_⟩
    · intro hit hhit hsome
      refine hcovers.mpr ?_ hit ((mem_scanHits h).mpr hhit) ((dedupeKey_isSome hit).trans hsome)
      intro a ha b hb
      exact hkeys a b ((mem_scanHits h).mp ha) ((mem_scanHits h).mp hb)
    · have hnodup : ((keepFirst dedupeKey [] hits).map dedupeKey).Nodup := nodup_map_keepFirst
      refine (List.pairwise_map.mp hnodup).imp fun hne hsame => ?_
      exact hne (dedupeKey_eq_of_sameContent hsame)

/-- What one pattern adds: the kept hits, in their order. -/
def PatternAdds (accepts : List (BitVec 8) → Bool) (rom : List (BitVec 8))
    (patches : List DecompressedSectionPatch) (p : DecompressedSectionPattern)
    (hits : List PatternHit) (st st' : Synthesis) : Prop :=
  scanHits rom p patches = some hits ∧
    (keptHits [] hits).foldlM (addVariant accepts (p.withHits hits)) st = some st'

/-- **What a pattern adds is without losses exactly when** the hits with one key have the same
content; for every pattern of every synthesis that succeeds. -/
theorem dedupeLossless_iff {accepts : List (BitVec 8) → Bool} {st st' : Synthesis}
    {patterns : List DecompressedSectionPattern}
    (h : synthesizeDecompressedPatterns accepts rom patches patterns st = some st')
    (hp : p ∈ patterns) : ∃ before after hits st₁ st₂, patterns = before ++ p :: after ∧
      before.foldlM (synthesizePattern accepts rom patches)
        { st with syntheticVariantIdx := 0 } = some st₁ ∧
      PatternAdds accepts rom patches p hits st₁ st₂ ∧
      (DedupeLossless rom p patches (keptHits [] hits) ↔ KeysDistinguish rom p patches) := by
  obtain ⟨before, after, rfl⟩ := List.append_of_mem hp
  have hne : (before ++ p :: after).isEmpty = false := by simp
  rw [synthesizeDecompressedPatterns, hne] at h
  obtain ⟨_, h⟩ := guard_bind_eq_some_iff.mp h
  obtain ⟨st₃, hrun, _⟩ := Option.bind_eq_some_iff.mp h
  rw [List.foldlM_append] at hrun
  obtain ⟨st₁, hbefore, hrun⟩ := Option.bind_eq_some_iff.mp hrun
  rw [List.foldlM_cons] at hrun
  obtain ⟨st₂, hpattern, _⟩ := Option.bind_eq_some_iff.mp hrun
  obtain ⟨hits, hscan, hadds⟩ := Option.bind_eq_some_iff.mp hpattern
  rw [addHits_eq] at hadds
  exact ⟨before, after, hits, st₁, st₂, rfl, hbefore, ⟨hscan, hadds⟩, dedupeLossless_of_scan hscan⟩

end Dedupe

/-! ### Two fragments with one key -/

/-- A fragment with a function behind its header, that is told apart by its last word only. -/
def longFragment (last : BitVec 32) : List (BitVec 8) :=
  ([0x0BFC0008, 0, 0x46524147, 0x4D454E54, 0x20, 0x104, 0, 0x104, 0x03E00008, 0] ++
      List.replicate 54 0 ++ [last, 0]).flatMap fun w => (List.range 4).map (wordByte w)

/-- All fragments of a ROM. -/
def anyFragment : DecompressedSectionPattern := ⟨[], 0, .rawFragment, true⟩

/-- The state without explicit sections. -/
def noSections (rom : List (BitVec 8)) : Synthesis :=
  ⟨rom, [], syntheticRomBase.toNat, 0⟩

theorem longFragment_dedupeLossless_iff :
    ∃ st', synthesizeDecompressedPatterns (fun _ => true) (longFragment 1) [] [anyFragment]
        (noSections (longFragment 1)) = some st' ∧
      ∃ before after hits st₁ st₂, [anyFragment] = before ++ anyFragment :: after ∧
        before.foldlM (synthesizePattern (fun _ => true) (longFragment 1) [])
          { noSections (longFragment 1) with syntheticVariantIdx := 0 } = some st₁ ∧
        PatternAdds (fun _ => true) (longFragment 1) [] anyFragment hits st₁ st₂ ∧
        (DedupeLossless (longFragment 1) anyFragment [] (keptHits [] hits) ↔
          KeysDistinguish (longFragment 1) anyFragment []) := by
  obtain ⟨st', h⟩ := Option.isSome_iff_exists.mp (by decide +kernel :
    (synthesizeDecompressedPatterns (fun _ => true) (longFragment 1) [] [anyFragment]
      (noSections (longFragment 1))).isSome)
  exact ⟨st', h, dedupeLossless_iff h List.mem_cons_self⟩

/-- The second of two fragments that differ behind the window of the hash is lost. -/
theorem longFragments_not_dedupeLossless :
    (synthesizeDecompressedPatterns (fun _ => true) (longFragment 1 ++ longFragment 2) []
      [anyFragment] (noSections (longFragment 1 ++ longFragment 2))).isSome ∧
    ∃ hits, scanHits (longFragment 1 ++ longFragment 2) anyFragment [] = some hits ∧
      ¬ DedupeLossless (longFragment 1 ++ longFragment 2) anyFragment [] (keptHits [] hits) := by
  refine ⟨by decide +kernel, ?_⟩
  have hcollide : (scanHits (longFragment 1 ++ longFragment 2) anyFragment []).any (fun hits =>
      hits.any fun a => hits.any fun b => (dedupeKey a).isSome && dedupeKey a = dedupeKey b &&
        a.body ≠ b.body) = true := by decide +kernel
  cases hscan : scanHits (longFragment 1 ++ longFragment 2) anyFragment [] with
  | none =>
    rw [hscan] at hcollide
    cases hcollide
  | some hits =>
  rw [hscan] at hcollide
  refine ⟨hits, rfl, fun hlossless => ?_⟩
  obtain ⟨a, ha, hcollide⟩ := List.any_eq_true.mp hcollide
  obtain ⟨b, hb, hcollide⟩ := List.any_eq_true.mp hcollide
  simp only [Bool.and_eq_true, decide_eq_true_eq] at hcollide
  exact hcollide.2 ((dedupeLossless_of_scan hscan).mp hlossless a b ((mem_scanHits hscan).mp ha)
    ((mem_scanHits hscan).mp hb) hcollide.1.1 hcollide.1.2).1

end N64Recomp
