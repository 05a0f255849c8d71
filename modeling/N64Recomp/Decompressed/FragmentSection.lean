import N64Recomp.Decompressed.FragmentLoops

/-!
# The section of a fragment

A decompressed body as a section with its functions: behind the loops, every return address of a call
becomes an entry of its function, and the functions that the configuration forces are added.

## Main definitions

* `FragmentScan.labelReturns`, `FragmentScan.addForced`: the passes behind the loops
* `openFragment`, `addFragment`: a body as a section
* `FragmentScan.SeedsFit`: no relocation points to the last word of the offsets

## Main results

* `addFragment_inBounds_iff`: when a body is added without a read out of it
-/

namespace N64Recomp

open Compression Except Rounds

/-- `add_dispatch_label_only`. -/
def BlobSection.addDispatchLabelOnly (pass : BlobSection) (parent : Nat)
    (entryOffset : BitVec 32) : Option BlobSection :=
  if entryOffset &&& 3 ≠ 0 ∨ pass.relocOffset ≤ entryOffset ∨
      entryOffset ∈ pass.emittedOffsets then
    some pass
  else
    (pass.context.functions[parent]?).map fun parentFunc =>
      let entryVram := pass.vram + entryOffset
      if entryVram ≤ parentFunc.vram ∨
          parentFunc.vram + BitVec.ofNat 32 parentFunc.byteSize ≤ entryVram then pass
      else { pass with context := { pass.context with
        functions := pass.context.functions.modify parent (·.insertDispatchEntry entryVram) } }

/-- The result of a loop that is done. -/
def whenDone (result : Except Stop (Option FragmentPass)) : Except Stop FragmentPass := do
  match ← result with
  | some pass => return pass
  | none => .error .returnFalse

namespace FragmentScan

variable (s : FragmentScan)

/-! ### Return addresses -/

/-- The label of the return address of a call in a range. -/
def addReturnLabel (rangeEnd : BitVec 32) (parent : Nat) (pass : FragmentPass)
    (offset : BitVec 32) : Except Stop FragmentPass := do
  let links ← s.linksAt offset
  if !links ∨ rangeEnd ≤ offset + 8 then return pass
  else
    match pass.toBlobSection.addDispatchLabelOnly parent (offset + 8) with
    | some sect => return { pass with toBlobSection := sect }
    | none => .error .returnFalse

/-- The labels of a range, in the function that starts at the range's start. -/
def addReturnLabels (pass : FragmentPass) (range : BitVec 32 × BitVec 32) :
    Except Stop FragmentPass :=
  if range.2 ≤ range.1 ∨ s.relocOffset < range.2 then return pass
  else
    match pass.functionIndexByOffset range.1 with
    | none => return pass
    | some parent =>
      (offsetsTo 8 range.2 range.1).foldlM (s.addReturnLabel range.2 parent) pass

/-- The universal return labels. -/
def labelReturns (pass : FragmentPass) : Except Stop FragmentPass :=
  (sortedRanges pass.emittedRanges).foldlM s.addReturnLabels pass

/-! ### Forced functions -/

/-- The function of the first range that an offset is inside of. -/
def enclosing (pass : FragmentPass) (offset : BitVec 32) : Option Nat :=
  (pass.emittedRanges.find? fun range => range.1 < offset ∧ offset < range.2).bind
    fun range => pass.functionIndexByOffset range.1

/-- A forced function: an alias of the function around it, or a function of its own. -/
def addForced (pass : FragmentPass) (forcedVram : BitVec 32) : Except Stop FragmentPass :=
  let offset := forcedVram - s.vram
  if forcedVram < s.vram ∨ offset = 0 ∨ offset &&& 3 ≠ 0 ∨ s.relocOffset < offset + 4 ∨
      offset ∈ pass.emittedOffsets ∨ offset ∈ pass.emittedAliasOffsets then
    return pass
  else
    match enclosing pass offset with
    | some parent =>
      match pass.toBlobSection.addDispatchAlias pass.aliases pass.emittedAliasOffsets parent
          offset with
      | some (sect, aliases, emittedAliasOffsets, _) =>
        return { sect with aliases, emittedAliasOffsets }
      | none => .error .returnFalse
    | none => do
      let (sect, _) ← s.discoverAndAddFunction pass.toBlobSection offset 0 false
      return { pass with toBlobSection := sect }

/-- The functions of a code fragment. The bounds on the rounds are not reached. -/
def addCode (context : Context) (aliases : AliasTable) (sectionName : Str)
    (extraEntryOffsets forcedFunctionVrams : List (BitVec 32)) : Except Stop FragmentPass := do
  let words := s.relocOffset.toNat / 4
  let pass ← s.seed context aliases sectionName extraEntryOffsets
  let pass ← whenDone (loop s.gapRound (words + 1) pass)
  let pass ← whenDone (loop s.continuationRound (2 * words + 1) pass)
  let pass ← s.labelReturns pass
  forcedFunctionVrams.foldlM s.addForced pass

end FragmentScan

/-! ### The section -/

/-- What a fragment is added with. -/
structure FragmentArgs where
  blob : List (BitVec 8)
  vram : BitVec 32
  sectionName : Str
  relocatable : Bool
  overrideLinkRamAddr : BitVec 32
  extraEntryOffsets : List (BitVec 32)
  forcedFunctionVrams : List (BitVec 32)

section Section

/- The library's answers. -/
variable (decoder : Decoder) (hasBranchLabel doesLink : BitVec 32 → Bool)

/-- The section of a body, with the scan of its code and the counter behind it. -/
def openFragment (st : LoadState) (args : FragmentArgs) :
    Except Stop (FragmentScan × Context × Nat) := do
  require (0x20 ≤ args.blob.length)
  let magic ← getRange args.blob 0x08 8
  require (magic = ascii "FRAGMENT")
  let relocOffset ← get (romWord args.blob 0x14)
  require (relocOffset.toNat ≤ args.blob.length)
  let syntheticRom := BitVec.ofNat 32 st.nextSyntheticRom
  let nextSyntheticRom := st.nextSyntheticRom + alignWord relocOffset.toNat
  require (nextSyntheticRom ≤ 0xFFFFFFFF)
  let body ← getRange args.blob 0 relocOffset.toNat
  let sectionIndex := BitVec.ofNat 16 st.context.sections.length
  let sect ← parseRelocs args.blob args.vram sectionIndex
    { Section.empty with
      romAddr := syntheticRom
      ramAddr := if args.overrideLinkRamAddr ≠ 0 then args.overrideLinkRamAddr else args.vram
      size := relocOffset
      name := args.sectionName
      executable := true
      relocatable := args.relocatable }
  return ({
    decoder
    hasBranchLabel
    doesLink
    blob := args.blob
    relocOffset
    vram := args.vram
    sectionIndex
    syntheticRom
    relocs := sect.relocs }, st.context.addBody syntheticRom body sect, nextSyntheticRom)

/-- `add_decompressed_section`: a body without a `jr $ra` is one of data, and has no functions. -/
def addFragment (st : LoadState) (args : FragmentArgs) : Except Stop LoadState := do
  let (s, context, nextSyntheticRom) ← openFragment decoder hasBranchLabel doesLink st args
  let hasJrRa ← s.hasJrRa
  if hasJrRa then do
    let pass ← s.addCode context st.aliases.addSection args.sectionName args.extraEntryOffsets
      args.forcedFunctionVrams
    return { context := pass.context, aliases := pass.aliases, nextSyntheticRom }
  else return { context, aliases := st.aliases.addSection, nextSyntheticRom }

end Section

namespace FragmentScan

/-! ### The heuristic for seeds does not refuse -/

section Completes

variable {s : FragmentScan}

/-- A computation ends with a result, unless it reads out of bounds. -/
abbrev Completes {α : Type} (x : Except Stop α) : Prop :=
  Ensures Stop.returnFalse x fun _ => True

theorem completes_get {α : Type} (x : Option α) : Completes (get x) := by
  cases x with
  | none => exact ensures_error nofun
  | some a => exact ensures_ok trivial

theorem completes_discover (entryOffset : BitVec 32) : Completes (s.discover entryOffset) := by
  have hrange : Completes (getRange s.blob 0 s.relocOffset.toNat) := by
    unfold getRange
    split_ifs
    · exact ensures_ok trivial
    · exact ensures_error nofun
  exact hrange.bind fun body _ => ensures_ok trivial

theorem completes_readBeforeEnd (funcEnd : BitVec 32) : Completes (s.readBeforeEnd funcEnd) := by
  unfold FragmentScan.readBeforeEnd
  split_ifs
  · exact ensures_error nofun
  · exact completes_get _

theorem completes_sizeUpToReturn (offset : BitVec 32) (maxSize behind stop : Nat) :
    Completes (s.sizeUpToReturn offset maxSize behind stop) := by
  refine (completes_discover offset).bind fun bounds _ => ?_
  split
  · dsimp only
    split_ifs
    · exact ensures_ok trivial
    · exact (completes_readBeforeEnd _).bind fun last _ => ensures_ok trivial
  · exact ensures_ok trivial

theorem completes_looksLikeFunctionEntry (offset : BitVec 32) :
    Completes (s.looksLikeFunctionEntry offset) := by
  unfold FragmentScan.looksLikeFunctionEntry
  split_ifs
  · exact ensures_ok trivial
  · refine (completes_get _).bind fun word _ => ?_
    split_ifs
    · exact ensures_ok trivial
    · exact ensures_ok trivial
    · exact ensures_ok trivial
    · exact ensures_ok trivial
    · refine (completes_sizeUpToReturn _ _ _ _).bind fun size? _ => ?_
      cases size? with
      | none => exact ensures_ok trivial
      | some size =>
        refine Ensures.allM fun cur _ => ?_
        exact (completes_get _).bind fun word _ => ensures_ok trivial

end Completes

/-! ### Seeds -/

section Seeds

variable {s : FragmentScan} {seeds : List (BitVec 32)} {offset : BitVec 32} {reloc : Reloc}

/-- **The relocations fit**: one of another type than that of jumps does not point to the last word
of the offsets. -/
def SeedFits (s : FragmentScan) (reloc : Reloc) : Prop :=
  reloc.targetSection = s.sectionIndex → reloc.type ≠ .mips26 →
    reloc.targetSectionOffset ≠ 0xFFFFFFFC

/-- The sites of the relocations are near the start of the body. -/
def SitesLocal (s : FragmentScan) : Prop :=
  ∀ reloc ∈ s.relocs, (reloc.address - s.vram).toNat < 2 ^ 24

theorem Sound.addLikelySeed_inBounds_iff (hs : s.Sound) :
    InBounds (s.addLikelySeed seeds offset) ↔ offset ≠ 0xFFFFFFFC := by
  rw [← looksLikeFunctionEntry_inBounds_iff hs]
  constructor
  · intro h hfault
    refine h ?_
    unfold addLikelySeed
    rw [hfault]
    rfl
  · exact fun h => InBounds.bind h fun likely _ => inBounds_ok _

theorem completes_addLikelySeed (offset : BitVec 32) : Completes (s.addLikelySeed seeds offset) :=
  (completes_looksLikeFunctionEntry offset).bind fun _ _ => ensures_ok trivial

/-- **The seed of a relocation is read in the body, if and only if** the relocation fits. -/
theorem Sound.addRelocSeed_inBounds_iff (hs : s.Sound)
    (hsite : (reloc.address - s.vram).toNat < 2 ^ 24) :
    InBounds (s.addRelocSeed seeds reloc) ↔ s.SeedFits reloc := by
  unfold addRelocSeed SeedFits
  split_ifs with hsection htype haddress hend
  · exact iff_of_true (inBounds_ok _) fun h => absurd h hsection
  · rw [hs.addLikelySeed_inBounds_iff]
    exact ⟨fun h _ _ => h, fun h => h (not_not.mp hsection) htype⟩
  · exact iff_of_true (inBounds_ok _) fun _ h => absurd h htype
  · exact iff_of_true (inBounds_ok _) fun _ h => absurd h htype
  · refine iff_of_true ?_ fun _ h => absurd h htype
    have hword : (reloc.address - s.vram).toNat + 4 ≤ s.relocOffset.toNat := by
      have hle : ¬s.relocOffset.toNat < (reloc.address - s.vram + 4).toNat := hend
      rw [toNat_add_four (by omega)] at hle
      omega
    exact ((hs.readWord hword).bind (Q := fun _ => True) fun word _ => ensures_ok trivial).1

theorem completes_addRelocSeed : Completes (s.addRelocSeed seeds reloc) := by
  unfold addRelocSeed
  split_ifs
  · exact ensures_ok trivial
  · exact completes_addLikelySeed _
  · exact ensures_ok trivial
  · exact ensures_ok trivial
  · exact (completes_get _).bind fun word _ => ensures_ok trivial

/-- A loop whose turns do not refuse has no fault when none of its elements has one. -/
theorem foldlM_inBounds_iff {α β : Type} {step : β → α → Except Stop β} {F : α → Prop}
    {l : List α} {b : β} (hstep : ∀ b, ∀ a ∈ l, InBounds (step b a) ↔ F a)
    (hcompletes : ∀ b, ∀ a ∈ l, Completes (step b a)) :
    InBounds (l.foldlM step b) ↔ ∀ a ∈ l, F a := by
  induction l generalizing b with
  | nil => exact iff_of_true (inBounds_ok _) nofun
  | cons a l ih =>
    have ih := fun b => ih (b := b) (fun b a ha => hstep b a (List.mem_cons_of_mem _ ha))
      fun b a ha => hcompletes b a (List.mem_cons_of_mem _ ha)
    rw [List.foldlM_cons, List.forall_mem_cons, ← hstep b a List.mem_cons_self]
    cases hturn : step b a with
    | error e =>
      cases e with
      | outOfBounds => exact iff_of_false (fun h => h rfl) fun h => h.1 rfl
      | returnFalse => exact absurd hturn (hcompletes b a List.mem_cons_self).1
    | ok b' =>
      rw [ok_bind, ih b']
      exact ⟨fun h => ⟨inBounds_ok _, h⟩, And.right⟩

/-- The seeds are read in the body, if and only if the relocations of a fragment whose header is right
fit. -/
theorem Sound.seedOffsets_inBounds_iff (hs : s.Sound) (hsites : s.SitesLocal) {extraEntryOffsets : List (BitVec 32)}
    (hextra : ∀ o ∈ extraEntryOffsets, o ≠ 0xFFFFFFFC) :
    InBounds (s.seedOffsets extraEntryOffsets) ↔
      ∀ target, s.headerTarget = .ok target → ∀ reloc ∈ s.relocs, s.SeedFits reloc := by
  have htarget : InBounds s.headerTarget :=
    ((fragmentJTarget_reads fun _ => by omega).bind (Q := fun _ => True) fun target _ =>
      (reads_require _).bind fun _ _ => ensures_ok trivial).1
  unfold seedOffsets
  rw [inBounds_bind_iff htarget]
  refine forall_congr' fun target => imp_congr_right fun _ => ?_
  have hfirst : InBounds (extraEntryOffsets.foldlM s.addLikelySeed
      (s.addSeedIfInBody [] target)) :=
    (foldlM_inBounds_iff (F := fun o => o ≠ 0xFFFFFFFC)
      (fun _ _ _ => hs.addLikelySeed_inBounds_iff) fun _ o _ => completes_addLikelySeed o).mpr hextra
  have hcompletes : Completes (extraEntryOffsets.foldlM s.addLikelySeed
      (s.addSeedIfInBody [] target)) :=
    Ensures.foldlM trivial fun _ o _ _ => completes_addLikelySeed o
  rw [inBounds_bind_iff hfirst]
  have hlast : ∀ seeds, InBounds (s.relocs.foldlM s.addRelocSeed seeds >>= fun seeds => do
      require (seeds ≠ [])
      return seeds) ↔ ∀ reloc ∈ s.relocs, s.SeedFits reloc := by
    intro seeds
    have hloop : InBounds (s.relocs.foldlM s.addRelocSeed seeds) ↔
        ∀ reloc ∈ s.relocs, s.SeedFits reloc :=
      foldlM_inBounds_iff
        (fun _ reloc hreloc => hs.addRelocSeed_inBounds_iff (hsites reloc hreloc))
        fun _ _ _ => completes_addRelocSeed
    rw [← hloop]
    constructor
    · intro h hfault
      refine h ?_
      rw [hfault]
      rfl
    · exact fun h => InBounds.bind h fun seeds _ =>
        ((reads_require _).bind (Q := fun _ => True) fun _ _ => ensures_ok trivial).1
  obtain ⟨seeds, hseeds⟩ : ∃ seeds, extraEntryOffsets.foldlM s.addLikelySeed
      (s.addSeedIfInBody [] target) = .ok seeds := by
    cases hx : extraEntryOffsets.foldlM s.addLikelySeed (s.addSeedIfInBody [] target) with
    | ok seeds => exact ⟨seeds, rfl⟩
    | error e =>
      cases e with
      | outOfBounds => exact absurd hx hfirst
      | returnFalse => exact absurd hx hcompletes.1
  exact ⟨fun h => (hlast seeds).mp (h seeds hseeds), fun h seeds _ => (hlast seeds).mpr h⟩

end Seeds

/-! ### The passes behind the loops -/

section Passes

variable {s : FragmentScan} {pass : FragmentPass} {range : BitVec 32 × BitVec 32}
  {offset : BitVec 32}

/-- A label changes no offset and no range. -/
theorem addDispatchLabelOnly_inBody (h : pass.InBody s) {parent : Nat} {sect : BlobSection}
    (hadd : pass.toBlobSection.addDispatchLabelOnly parent offset = some sect) :
    FragmentPass.InBody s { pass with toBlobSection := sect } := by
  unfold BlobSection.addDispatchLabelOnly at hadd
  split_ifs at hadd
  · cases hadd
    exact h
  · obtain ⟨parentFunc, -, rfl⟩ := Option.map_eq_some_iff.mp hadd
    refine ⟨?_, h.aliasOffsets⟩
    dsimp only
    split_ifs
    · exact h.sect
    · exact h.sect.insertEntry parent _

theorem Sound.addReturnLabels (hs : s.Sound) (h : pass.InBody s) (hrange : s.IsRange range) :
    ReadsWithin (s.addReturnLabels pass range) fun pass => pass.InBody s := by
  unfold FragmentScan.addReturnLabels
  split_ifs
  · exact ensures_ok h
  · split
    · exact ensures_ok h
    · refine Ensures.foldlM h fun pass o ho hpass => ?_
      obtain ⟨hword, -, -⟩ := continuation_of_mem hs hrange ho
      refine (hs.linksAt (by omega)).bind fun links _ => ?_
      split_ifs
      · exact ensures_ok hpass
      · split
        · rename_i hadd
          exact ensures_ok (addDispatchLabelOnly_inBody hpass hadd)
        · exact ensures_error nofun

theorem Sound.labelReturns (hs : s.Sound) (h : pass.InBody s) :
    ReadsWithin (s.labelReturns pass) fun pass => pass.InBody s := by
  refine Ensures.foldlM h fun pass' r hr hpass' => ?_
  exact hs.addReturnLabels hpass' (h.sect.ranges r (mem_sortedRanges.mp hr))

/-- **A forced function is added in the body**, as its address is behind that of the body. -/
theorem Sound.addForced (hs : s.Sound) (h : pass.InBody s) (forcedVram : BitVec 32) :
    ReadsWithin (s.addForced pass forcedVram) fun pass => pass.InBody s := by
  unfold FragmentScan.addForced
  dsimp only
  by_cases hcheck : forcedVram < s.vram ∨ forcedVram - s.vram = 0 ∨
      (forcedVram - s.vram) &&& 3 ≠ 0 ∨ s.relocOffset < forcedVram - s.vram + 4 ∨
      forcedVram - s.vram ∈ pass.emittedOffsets ∨
      forcedVram - s.vram ∈ pass.emittedAliasOffsets
  · rw [if_pos hcheck]
    exact ensures_ok h
  rw [if_neg hcheck]
  simp only [not_or] at hcheck
  obtain ⟨hle, -, hmod, hend, -⟩ := hcheck
  have hmod := mod_of_and_three (not_not.mp hmod)
  have hlow : s.vram.toNat ≤ forcedVram.toNat := Nat.not_lt.mp hle
  have hsmall : (forcedVram - s.vram).toNat < 2 ^ 31 := by
    have hlt := forcedVram.isLt
    have hvram := hs.vram.1
    rw [BitVec.toNat_sub_of_le hlow]
    omega
  have hword : (forcedVram - s.vram).toNat + 4 ≤ s.relocOffset.toNat :=
    word_le_of_not_lt (by decide) hsmall hend
  split
  · split
    · rename_i hadd
      exact ensures_ok (h.addDispatchAlias ⟨hmod, hword⟩ hadd).inBody
    · exact ensures_error nofun
  · refine (hs.discoverAndAddFunction h.sect hmod 0 false).bind fun r hr => ?_
    exact ensures_ok (hr.lift h).inBody

/-- **The code of a fragment is read in its body, if and only if** its relocations fit. -/
theorem Sound.addCode_inBounds_iff (hs : s.Sound) (hheader : 8 ≤ s.blob.length)
    (hsites : s.SitesLocal) (context : Context) (aliases : AliasTable) (sectionName : Str)
    {extraEntryOffsets : List (BitVec 32)} (hextra : ∀ o ∈ extraEntryOffsets, o ≠ 0xFFFFFFFC)
    (forcedFunctionVrams : List (BitVec 32)) :
    InBounds (s.addCode context aliases sectionName extraEntryOffsets forcedFunctionVrams) ↔
      ∀ target, s.headerTarget = .ok target → ∀ reloc ∈ s.relocs, s.SeedFits reloc := by
  have hseed : InBounds (s.seed context aliases sectionName extraEntryOffsets) ↔
      ∀ target, s.headerTarget = .ok target → ∀ reloc ∈ s.relocs, s.SeedFits reloc := by
    rw [← hs.seedOffsets_inBounds_iff hsites hextra]
    have hentry : getRange s.blob 0 8 = .ok ((s.blob.drop 0).take 8) := if_pos (by omega)
    unfold seed
    rw [hentry, ok_bind]
    constructor
    · intro h hfault
      refine h ?_
      rw [hfault]
      rfl
    · intro h
      refine InBounds.bind h fun seeds hseeds => ?_
      have haligned := aligned_seedOffsets hseeds
      refine InBounds.bind ?_ fun _ _ => inBounds_ok _
      refine (Ensures.foldlM (Q := fun sect : BlobSection => sect.InBody s)
        (s.inBody_section₀ _ _ _ _) fun sect o ho hsect => ?_).1
      exact (hs.discoverAndAddFunction hsect (haligned o ho) 0 true).bind fun r hr =>
        ensures_ok hr.inBody
  rw [← hseed]
  constructor
  · intro h hfault
    refine h ?_
    unfold addCode
    rw [hfault]
    rfl
  · intro h
    refine InBounds.bind h fun seeded hseeded => ?_
    have hstart := hs.inBody_of_seed hseeded
    have hgaps : ReadsWithin (loop s.gapRound (s.relocOffset.toNat / 4 + 1) seeded) _ :=
      hs.gaps_measured.loop_ends hstart (by omega)
    refine (Ensures.bind (P := fun pass : FragmentPass => pass.InBody s) (Q := fun _ => True)
      ?_ fun gapped hgapped => ?_).1
    · refine hgaps.bind ?_
      rintro _ ⟨gapped, rfl, hgapped, -⟩
      exact ensures_ok hgapped
    have hloop : ReadsWithin
        (loop s.continuationRound (2 * (s.relocOffset.toNat / 4) + 1) gapped) _ :=
      hs.continuations_measured.loop_ends hgapped (by omega)
    refine Ensures.bind (P := fun pass : FragmentPass => pass.InBody s) ?_ fun last hlast => ?_
    · refine hloop.bind ?_
      rintro _ ⟨last, rfl, hlast⟩
      exact ensures_ok hlast
    refine (hs.labelReturns hlast).bind fun labelled hlabelled => ?_
    exact (Ensures.foldlM hlabelled fun pass forced _ hpass =>
      hs.addForced hpass forced).mono fun _ _ => trivial

end Passes

end FragmentScan

/-! ### The section of a body -/

section Opened

variable {decoder : Decoder} {hasBranchLabel doesLink : BitVec 32 → Bool} {st : LoadState}
  {args : FragmentArgs}

/-- **A fragment fits**: when it has code and its header is right, its relocations fit. -/
def FragmentFits (decoder : Decoder) (hasBranchLabel doesLink : BitVec 32 → Bool) (st : LoadState)
    (args : FragmentArgs) : Prop :=
  ∀ s context next, openFragment decoder hasBranchLabel doesLink st args = .ok (s, context, next) →
    s.hasJrRa = .ok true → ∀ target, s.headerTarget = .ok target →
    ∀ reloc ∈ s.relocs, s.SeedFits reloc

/-- A fragment as the scan of the patterns hands it over: its address is that of a header, and so are
the entries of the slots. -/
structure FragmentArgs.FromPattern (args : FragmentArgs) : Prop where
  length : args.blob.length < 2 ^ 32
  vram : 0x80000000 ≤ args.vram.toNat ∧ args.vram.toNat < 0xC0000000
  extra : ∀ o ∈ args.extraEntryOffsets, o ≠ 0xFFFFFFFC

/-- **The section of a body is read in the body**, and its code can be scanned. -/
theorem openFragment_reads (hst : syntheticRomBase.toNat ≤ st.nextSyntheticRom)
    (hargs : args.FromPattern) :
    ReadsWithin (openFragment decoder hasBranchLabel doesLink st args) fun r =>
      r.1.Sound ∧ r.1.SitesLocal ∧ 8 ≤ r.1.blob.length ∧ st.nextSyntheticRom ≤ r.2.2 := by
  have hlength := hargs.length
  have hbase : syntheticRomBase.toNat = 0xFE000000 := rfl
  refine (reads_require _).bind fun _ hheader => ?_
  refine (reads_range (by omega)).bind fun magic _ => ?_
  refine (reads_require _).bind fun _ _ => ?_
  refine (reads_word (by omega)).bind fun offset hoffset => ?_
  refine (reads_require _).bind fun _ hbody => ?_
  refine (reads_require _).bind fun _ hnext => ?_
  have halign : offset.toNat ≤ alignWord offset.toNat := by
    unfold alignWord
    omega
  have hsmall : offset.toNat < 2 ^ 25 := by omega
  refine (reads_range (by omega)).bind fun body _ => ?_
  have hfits : TableFits args.blob := by
    intro _ _ _ _ hsum
    have hreloc : relocOffset args.blob = offset := by
      rw [relocOffset, hoffset, Option.getD_some]
    rw [hreloc, toNat_add_four (by omega)] at hsum
    rw [hreloc]
    exact hsum
  refine (parseRelocs_reads hlength hfits _ _ _).bind fun sect hsect => ensures_ok ?_
  refine ⟨⟨hbody, hsmall, hlength, hargs.vram⟩, ?_, by dsimp only; omega, by dsimp only; omega⟩
  intro reloc hreloc
  exact (hsect.2 rfl reloc hreloc).1

theorem FragmentScan.Sound.hasJrRa {s : FragmentScan} (hs : s.Sound) :
    ReadsWithin s.hasJrRa fun _ => True := by
  have hbody := hs.body
  refine (firstReturn_reads fun off hoff => ?_).bind fun found _ => ensures_ok trivial
  have hle := mem_bodyOffsets hoff
  omega

/-- **A fragment is added without a read out of its body, if and only if** it fits. -/
theorem addFragment_inBounds_iff (hst : syntheticRomBase.toNat ≤ st.nextSyntheticRom)
    (hargs : args.FromPattern) :
    InBounds (addFragment decoder hasBranchLabel doesLink st args) ↔
      FragmentFits decoder hasBranchLabel doesLink st args := by
  have hopened : ReadsWithin (openFragment decoder hasBranchLabel doesLink st args) _ :=
    openFragment_reads hst hargs
  unfold addFragment
  rw [inBounds_bind_iff hopened.1]
  unfold FragmentFits
  constructor
  · intro h s context next hopen hcode
    obtain ⟨hs, hsites, hlength, -⟩ := hopened.2 _ hopen
    have hadd := h _ hopen
    dsimp only at hadd
    rw [hcode, ok_bind, if_pos rfl] at hadd
    rw [← hs.addCode_inBounds_iff hlength hsites context st.aliases.addSection args.sectionName
      hargs.extra args.forcedFunctionVrams]
    intro hfault
    refine hadd ?_
    rw [hfault]
    rfl
  · rintro h ⟨s, context, next⟩ hopen
    obtain ⟨hs, hsites, hlength, -⟩ := hopened.2 _ hopen
    dsimp only
    refine InBounds.bind hs.hasJrRa.1 fun hasJrRa hcode => ?_
    split_ifs with hjr
    · subst hjr
      refine InBounds.bind ?_ fun pass _ => inBounds_ok _
      exact (hs.addCode_inBounds_iff hlength hsites context st.aliases.addSection args.sectionName
        hargs.extra args.forcedFunctionVrams).mpr (h s context next hopen hcode)
    · exact inBounds_ok _

/-- The counter of the synthetic ROM goes up. -/
theorem nextSyntheticRom_of_addFragment (hst : syntheticRomBase.toNat ≤ st.nextSyntheticRom)
    (hargs : args.FromPattern) {st' : LoadState}
    (h : addFragment decoder hasBranchLabel doesLink st args = .ok st') :
    syntheticRomBase.toNat ≤ st'.nextSyntheticRom := by
  obtain ⟨⟨s, context, next⟩, hopen, h⟩ := bind_eq_ok_iff.mp h
  obtain ⟨-, -, -, hle⟩ := (openFragment_reads hst hargs).2 _ hopen
  obtain ⟨hasJrRa, -, h⟩ := bind_eq_ok_iff.mp h
  dsimp only at hle h
  split_ifs at h
  · obtain ⟨pass, -, h⟩ := bind_eq_ok_iff.mp h
    cases h
    exact hst.trans hle
  · cases h
    exact hst.trans hle

end Opened

end N64Recomp
