import N64Recomp.Data.Except
import N64Recomp.Elf.SectionRelocs

/-!
# The pairing of HI16 and LO16 entries

What the loop over a relocation table has done after each entry: the entries up to it are read, the
`HI16` entries of the current run hold their provisional offsets, and every `HI16` entry before the
run is finalised by the `LO16` entry that ends its run.

## Main definitions

* `ParsedEntry`: an entry with what the loop read and computed for it
* `Reads`: the words of the entries, as the ROM holds them when each is reached
* `PairState.Holds`: the invariant of the loop
* `Finalised`, `FinalisedAll`: what the pairing rule promises of a `HI16` entry

## Main results

* `parseEntry_holds`, `parseEntries_holds`: the step and the run
* `parseSectionRelocs_finalised_iff`: every `HI16` is finalised exactly when no run is left open
-/

namespace N64Recomp

/-- An entry, its instruction word and its target, and the offset of its relocation. -/
structure ParsedEntry where
  rel : ElfRel
  word : BitVec 32
  target : SymbolTarget
  offset : BitVec 32
  deriving DecidableEq, Repr

namespace ParsedEntry

variable (p : ParsedEntry)

def reloc : Reloc := makeReloc p.rel p.target p.offset

/-- The entry with the low half that ends its run. -/
def finalise (lo : SymbolTarget) (loWord : BitVec 32) : ParsedEntry :=
  { p with offset := p.offset + signedImmediateOf loWord + lo.symbolOffset - lo.sectionVram }

@[simp] theorem rel_finalise (lo : SymbolTarget) (loWord : BitVec 32) :
    (p.finalise lo loWord).rel = p.rel := rfl

@[simp] theorem word_finalise (lo : SymbolTarget) (loWord : BitVec 32) :
    (p.finalise lo loWord).word = p.word := rfl

@[simp] theorem target_finalise (lo : SymbolTarget) (loWord : BitVec 32) :
    (p.finalise lo loWord).target = p.target := rfl

theorem reloc_finalise (lo : SymbolTarget) (loWord : BitVec 32) :
    (p.finalise lo loWord).reloc = finaliseHi16 lo loWord p.reloc := rfl

end ParsedEntry

section Table

variable (context : Context) (sect : Section) (table : RelocTable)

/-! ### What is read -/

/-- Each entry's word is the one of the ROM when the entry is reached; the pointers to reference
symbols before it are resolved already. -/
def Reads : List (BitVec 8) → List ParsedEntry → List (BitVec 8) → Prop
  | rom, [], rom' => rom' = rom
  | rom, p :: ps, rom' =>
    readRom sect rom p.rel.offset = .ok p.word ∧
      ∃ rom₁, patchMips32 context sect rom p.rel p.target p.word = .ok rom₁ ∧ Reads rom₁ ps rom'

variable {context sect table} {rom rom' : List (BitVec 8)} {ps : List ParsedEntry}

theorem Reads.concat (h : Reads context sect rom ps rom') {p : ParsedEntry}
    {rom'' : List (BitVec 8)} (hword : readRom sect rom' p.rel.offset = .ok p.word)
    (hpatch : patchMips32 context sect rom' p.rel p.target p.word = .ok rom'') :
    Reads context sect rom (ps ++ [p]) rom'' := by
  induction ps generalizing rom with
  | nil =>
    obtain rfl : rom' = rom := h
    exact ⟨hword, rom'', hpatch, rfl⟩
  | cons q ps ih =>
    obtain ⟨hq, rom₁, hq₁, h⟩ := h
    exact ⟨hq, rom₁, hq₁, ih h⟩

/-- The offsets do not matter. -/
theorem Reads.finalise {done run : List ParsedEntry}
    (h : Reads context sect rom (done ++ run) rom') (lo : SymbolTarget) (loWord : BitVec 32) :
    Reads context sect rom (done ++ run.map (·.finalise lo loWord)) rom' := by
  induction done generalizing rom with
  | nil =>
    induction run generalizing rom with
    | nil => exact h
    | cons q run ih =>
      obtain ⟨hq, rom₁, hq₁, h⟩ := h
      exact ⟨hq, rom₁, hq₁, ih h⟩
  | cons q done ih =>
    obtain ⟨hq, rom₁, hq₁, h⟩ := h
    exact ⟨hq, rom₁, hq₁, ih h⟩

theorem patchMips32_of_ne {rel : ElfRel} (h : rel.type ≠ .mips32) (target : SymbolTarget)
    (word : BitVec 32) : patchMips32 context sect rom rel target word = .ok rom := by
  simp [patchMips32, h]

/-- Entries of one symbol have one target, unless one of them is a pointer. -/
theorem resolveSymbol_unique {i j : Nat} {rel rel' : ElfRel} {target target' : SymbolTarget}
    (hsymbol : rel.symbol = rel'.symbol) (htype : rel.type ≠ .mips32) (htype' : rel'.type ≠ .mips32)
    (h : resolveSymbol context table i rel = .ok target)
    (h' : resolveSymbol context table j rel' = .ok target') : target = target' := by
  unfold resolveSymbol at h h'
  simp only [hsymbol, htype, htype', false_and, if_false] at h h'
  repeat' split at h
  all_goals simp_all

/-! ### Finalised entries -/

/-- The `HI16` entry is paired with a `LO16` entry of its symbol that only `HI16` entries separate
from it, and its offset is that of the address that the pair encodes. -/
def Finalised (hi : ParsedEntry) (after : List ParsedEntry) : Prop :=
  ∃ run lo rest, after = run ++ lo :: rest ∧ (∀ p ∈ run, p.rel.type = .hi16) ∧
    lo.rel.type = .lo16 ∧ lo.rel.symbol = hi.rel.symbol ∧
      hi.offset = (immediateOf hi.word <<< 16) + signedImmediateOf lo.word +
        hi.target.symbolOffset - hi.target.sectionVram

/-- Every `HI16` entry is finalised. -/
def FinalisedAll (ps : List ParsedEntry) : Prop :=
  ∀ before hi after, ps = before ++ hi :: after → hi.rel.type = .hi16 → Finalised hi after

theorem finalisedAll_nil : FinalisedAll [] := by
  intro before hi after h
  cases before <;> cases h

/-- Entries after a `LO16` do not change what is finalised before. -/
theorem FinalisedAll.append {ps qs : List ParsedEntry} (hp : FinalisedAll ps)
    (hq : ∀ before hi after, qs = before ++ hi :: after → hi.rel.type = .hi16 →
      Finalised hi after) : FinalisedAll (ps ++ qs) := by
  intro before hi after h htype
  rcases List.append_eq_append_iff.mp h with ⟨as, hbefore, hqs⟩ | ⟨bs, hps, htail⟩
  · exact hq as hi after hqs htype
  · cases bs with
    | nil =>
      rw [List.nil_append] at htail
      exact hq [] hi after htail.symm htype
    | cons b bs =>
      rw [List.cons_append] at htail
      obtain ⟨rfl, rfl⟩ := List.cons.inj htail
      obtain ⟨run, lo, rest, rfl, hrun, hlo⟩ := hp before hi bs hps htype
      exact ⟨run, lo, rest ++ qs, by simp, hrun, hlo⟩

/-- The last of finalised entries is no `HI16`. -/
theorem FinalisedAll.getLast (h : FinalisedAll ps) {p : ParsedEntry}
    (hp : ps.getLast? = some p) : p.rel.type ≠ .hi16 := by
  intro htype
  obtain ⟨before, hbefore⟩ := List.getLast?_eq_some_iff.mp hp
  obtain ⟨run, lo, rest, hafter, -⟩ := h before p [] hbefore htype
  cases run <;> cases hafter

/-! ### The loop -/

variable (context sect table) in
/-- What the loop has done when it has read `ps` and then `run`, which is the open run. -/
structure LoopHolds (rom : List (BitVec 8)) (ps run : List ParsedEntry) (s : PairState) :
    Prop where
  reads : Reads context sect rom (ps ++ run) s.rom
  relocs : s.relocs = (ps ++ run).map ParsedEntry.reloc
  targets : ∀ p ∈ ps ++ run, ∃ i, resolveSymbol context table i p.rel = .ok p.target
  count : s.prevHiCount = run.length
  held : ∀ p ∈ run, p.rel.type = .hi16 ∧ p.rel.symbol = s.prevHiSymbol ∧
    p.offset = immediateOf p.word <<< 16
  finalised : FinalisedAll ps
  low : ∀ p ∈ ps, p.rel.type = .lo16 → ∃ h : BitVec 32, p.offset =
    (h <<< 16) + signedImmediateOf p.word + p.target.symbolOffset - p.target.sectionVram

theorem start_holds :
    LoopHolds context sect table context.rom [] [] (PairState.start context) where
  reads := rfl
  relocs := rfl
  targets := by rintro p ⟨⟩
  count := rfl
  held := by rintro p ⟨⟩
  finalised := finalisedAll_nil
  low := by rintro p ⟨⟩

variable {run : List ParsedEntry} {s s' : PairState} {rel : ElfRel} {target : SymbolTarget}
  {word : BitVec 32}

/-- The held entries of a run are finalised by the `LO16` that ends it. -/
theorem finalised_run (lo : ParsedEntry) (hlo : lo.rel.type = .lo16)
    (htarget : ∃ i, resolveSymbol context table i lo.rel = .ok lo.target)
    (hrun : ∀ p ∈ run, p.rel.type = .hi16 ∧ p.rel.symbol = lo.rel.symbol ∧
      p.offset = immediateOf p.word <<< 16)
    (htargets : ∀ p ∈ run, ∃ i, resolveSymbol context table i p.rel = .ok p.target)
    {before after : List ParsedEntry} {hi : ParsedEntry}
    (h : run.map (·.finalise lo.target lo.word) ++ [lo] = before ++ hi :: after)
    (hhi : hi.rel.type = .hi16) : Finalised hi after := by
  induction run generalizing before with
  | nil =>
    cases before with
    | nil =>
      obtain ⟨rfl, -⟩ := List.cons.inj h
      rw [hlo] at hhi
      cases hhi
    | cons b before => cases before <;> cases h
  | cons p run ih =>
    rw [List.map_cons, List.cons_append] at h
    cases before with
    | nil =>
      obtain ⟨rfl, rfl⟩ := List.cons.inj h
      obtain ⟨hp, hsymbol, hoffset⟩ := hrun p (by simp)
      obtain ⟨i, hi⟩ := htargets p (by simp)
      obtain ⟨j, hj⟩ := htarget
      have heq : p.target = lo.target := resolveSymbol_unique hsymbol (by rw [hp]; decide)
        (by rw [hlo]; decide) hi hj
      refine ⟨run.map (·.finalise lo.target lo.word), lo, [], rfl, ?_, hlo, hsymbol.symm, ?_⟩
      · intro q hq
        obtain ⟨r, hr, rfl⟩ := List.mem_map.mp hq
        exact (hrun r (by simp [hr])).1
      · rw [ParsedEntry.target_finalise, ParsedEntry.word_finalise, ParsedEntry.finalise, hoffset,
          heq]
    | cons b before =>
      obtain ⟨-, h⟩ := List.cons.inj h
      exact ih (fun q hq => hrun q (by simp [hq])) (fun q hq => htargets q (by simp [hq])) h

/-- A `LO16` ends the run and finalises it. -/
theorem parseLo16_holds (hs : LoopHolds context sect table rom ps run s)
    (htype : rel.type = .lo16) (hword : readRom sect s.rom rel.offset = .ok word)
    (htarget : ∃ i, resolveSymbol context table i rel = .ok target)
    (h : parseLo16 sect table s rel target word = .ok s') :
    ∃ p : ParsedEntry, p.rel = rel ∧
      LoopHolds context sect table rom (ps ++ (run.map (·.finalise target word) ++ [p])) [] s' := by
  unfold parseLo16 at h
  obtain ⟨nearest, -, h⟩ := Except.bind_eq_ok_iff.mp h
  simp only at h
  split at h
  · cases h
  rename_i hsymbol
  obtain rfl := Except.ok.inj h
  let p : ParsedEntry := ⟨rel, word, target, (nearest.getD s.prevHiImmediate <<< 16) +
    signedImmediateOf word + target.symbolOffset - target.sectionVram⟩
  have hrun : ∀ q ∈ run, q.rel.type = .hi16 ∧ q.rel.symbol = p.rel.symbol ∧
      q.offset = immediateOf q.word <<< 16 := by
    intro q hq
    obtain ⟨hq₁, hq₂, hq₃⟩ := hs.held q hq
    have hcount : s.prevHiCount ≠ 0 := by
      rw [hs.count]
      exact fun h => List.ne_nil_of_mem hq (List.length_eq_zero_iff.mp h)
    have hprev : s.prevHiSymbol = rel.symbol := by
      simpa [hcount] using hsymbol
    exact ⟨hq₁, hq₂.trans hprev, hq₃⟩
  refine ⟨p, rfl, ?_, ?_, ?_, rfl, by rintro q ⟨⟩, ?_, ?_⟩
  · rw [List.append_nil, ← List.append_assoc]
    refine (hs.reads.finalise target word).concat hword ?_
    exact patchMips32_of_ne (by rw [htype]; decide) _ _
  · have hstart : s.relocs.length - s.prevHiCount = ps.length := by
      rw [hs.relocs, hs.count]
      simp
    have hsplit : s.relocs = ps.map ParsedEntry.reloc ++ run.map ParsedEntry.reloc := by
      rw [hs.relocs, List.map_append]
    rw [hstart, hsplit]
    have htake : (ps.map ParsedEntry.reloc ++ run.map ParsedEntry.reloc).take ps.length =
        ps.map ParsedEntry.reloc := by
      rw [List.take_left' (by simp)]
    have hdrop : (ps.map ParsedEntry.reloc ++ run.map ParsedEntry.reloc).drop ps.length =
        run.map ParsedEntry.reloc := by
      rw [List.drop_left' (by simp)]
    rw [htake, hdrop]
    rw [List.append_nil, List.map_append, List.map_append, List.map_map, List.map_map,
      List.append_assoc]
    rfl
  · intro q hq
    simp only [List.append_nil, List.mem_append, List.mem_map, List.mem_singleton] at hq
    rcases hq with hq | ⟨r, hr, rfl⟩ | rfl
    · exact hs.targets q (by simp [hq])
    · exact hs.targets r (by simp [hr])
    · exact htarget
  · refine hs.finalised.append fun before hi after h hhi => ?_
    exact finalised_run p htype htarget hrun (fun q hq => hs.targets q (by simp [hq])) h hhi
  · intro q hq hlo
    simp only [List.mem_append, List.mem_map, List.mem_singleton] at hq
    rcases hq with hq | ⟨r, hr, rfl⟩ | rfl
    · exact hs.low q hq hlo
    · have hr' := (hrun r hr).1
      rw [ParsedEntry.rel_finalise, hr'] at hlo
      cases hlo
    · exact ⟨_, rfl⟩

/-- A `HI16` opens a run or continues it. -/
theorem parseHi16_holds (hs : LoopHolds context sect table rom ps run s)
    (htype : rel.type = .hi16) (hword : readRom sect s.rom rel.offset = .ok word)
    (htarget : ∃ i, resolveSymbol context table i rel = .ok target)
    (h : parseHi16 s rel target word = .ok s') :
    ∃ p : ParsedEntry, p.rel = rel ∧ LoopHolds context sect table rom ps (run ++ [p]) s' := by
  let p : ParsedEntry := ⟨rel, word, target, immediateOf word <<< 16⟩
  have hreads : Reads context sect rom (ps ++ (run ++ [p])) s.rom := by
    rw [← List.append_assoc]
    exact hs.reads.concat hword (patchMips32_of_ne (by rw [htype]; decide) _ _)
  have hrelocs : s.relocs ++ [p.reloc] = (ps ++ (run ++ [p])).map ParsedEntry.reloc := by
    rw [hs.relocs, ← List.append_assoc]
    have happend : (ps ++ run ++ [p]).map ParsedEntry.reloc = _ := List.map_append
    exact happend.symm
  have htargets : ∀ q ∈ ps ++ (run ++ [p]), ∃ i, resolveSymbol context table i q.rel =
      .ok q.target := by
    intro q hq
    rw [← List.append_assoc] at hq
    rcases List.mem_append.mp hq with hq | hq
    · exact hs.targets q hq
    · obtain rfl := List.mem_singleton.mp hq
      exact htarget
  refine ⟨p, rfl, ?_⟩
  unfold parseHi16 at h
  simp only at h
  split at h
  · rename_i hcount
    obtain rfl := Except.ok.inj h
    have hrun : run = [] := List.length_eq_zero_iff.mp (hs.count ▸ hcount)
    subst hrun
    refine ⟨hreads, hrelocs, htargets, rfl, ?_, hs.finalised, hs.low⟩
    intro q hq
    obtain rfl := List.mem_singleton.mp hq
    exact ⟨htype, rfl, rfl⟩
  · split at h
    · cases h
    rename_i hsymbol
    obtain rfl := Except.ok.inj h
    refine ⟨hreads, hrelocs, htargets, ?_, ?_, hs.finalised, hs.low⟩
    · rw [List.length_append, ← hs.count]
      rfl
    · intro q hq
      rcases List.mem_append.mp hq with hq | hq
      · exact hs.held q hq
      · obtain rfl := List.mem_singleton.mp hq
        exact ⟨htype, (not_not.mp hsymbol).symm, rfl⟩

/-- Another entry comes only without an open run. -/
theorem parseOther_holds (hs : LoopHolds context sect table rom ps run s)
    (hhi : rel.type ≠ .hi16) (hlo : rel.type ≠ .lo16)
    (hword : readRom sect s.rom rel.offset = .ok word)
    (htarget : ∃ i, resolveSymbol context table i rel = .ok target)
    (h : parseOther context sect s rel target word = .ok s') :
    ∃ p : ParsedEntry, p.rel = rel ∧ run = [] ∧
      LoopHolds context sect table rom (ps ++ [p]) [] s' := by
  unfold parseOther at h
  split at h
  · cases h
  rename_i hcount
  obtain ⟨rom', hpatch, rfl⟩ := Except.map_eq_ok_iff.mp h
  have hrun : run = [] := List.length_eq_zero_iff.mp (hs.count ▸ not_not.mp hcount)
  subst hrun
  let p : ParsedEntry := ⟨rel, word, target, otherOffset sect rel target word⟩
  have hreads := hs.reads
  have htargets := hs.targets
  rw [List.append_nil] at hreads htargets
  refine ⟨p, rfl, rfl, ?_, ?_, ?_, not_not.mp hcount, by rintro q ⟨⟩, ?_, ?_⟩
  · rw [List.append_nil]
    exact hreads.concat hword hpatch
  · rw [List.append_nil, List.map_append, hs.relocs, List.append_nil]
    rfl
  · intro q hq
    rw [List.append_nil] at hq
    rcases List.mem_append.mp hq with hq | hq
    · exact htargets q hq
    · obtain rfl := List.mem_singleton.mp hq
      exact htarget
  · refine hs.finalised.append fun before hi after h htype => ?_
    cases before with
    | nil =>
      obtain ⟨rfl, -⟩ := List.cons.inj h
      exact absurd htype hhi
    | cons b before => cases before <;> cases h
  · intro q hq hqlo
    rcases List.mem_append.mp hq with hq | hq
    · exact hs.low q hq hqlo
    · obtain rfl := List.mem_singleton.mp hq
      exact absurd hqlo hlo

/-- **The step.** Every entry keeps the invariant. -/
theorem parseEntry_holds (hs : LoopHolds context sect table rom ps run s)
    (h : parseEntry context sect table s rel = .ok s') :
    ∃ ps' run', (ps' ++ run').map (·.rel) = (ps ++ run).map (·.rel) ++ [rel] ∧
      LoopHolds context sect table rom ps' run' s' := by
  unfold parseEntry at h
  obtain ⟨word, hword, h⟩ := Except.bind_eq_ok_iff.mp h
  obtain ⟨target, htarget, h⟩ := Except.bind_eq_ok_iff.mp h
  split at h
  case h_1 htype =>
    obtain ⟨p, rfl, hp⟩ := parseLo16_holds hs htype hword ⟨_, htarget⟩ h
    refine ⟨_, _, ?_, hp⟩
    simp [Function.comp_def]
  case h_2 htype =>
    obtain ⟨p, rfl, hp⟩ := parseHi16_holds hs htype hword ⟨_, htarget⟩ h
    refine ⟨_, _, ?_, hp⟩
    simp
  case h_3 hlo hhi =>
    obtain ⟨p, rfl, rfl, hp⟩ := parseOther_holds hs hhi hlo hword ⟨_, htarget⟩ h
    refine ⟨_, _, ?_, hp⟩
    simp

/-- The whole loop: the entries are read, and what is not finalised is the open run at the end. -/
theorem parseEntries_holds (h : parseEntries context sect table = .ok s) :
    ∃ ps run, (ps ++ run).map (·.rel) = table.entries ∧
      LoopHolds context sect table context.rom ps run s := by
  refine Except.foldlM_ok_induction (P := fun visited s => ∃ ps run, (ps ++ run).map (·.rel) =
    visited ∧ LoopHolds context sect table context.rom ps run s) ⟨[], [], rfl, start_holds⟩ ?_ h
  rintro visited rel s s' ⟨ps, run, rfl, hs⟩ - h
  exact parseEntry_holds hs h

/-! ### The result -/

/-- What the folding and the sorting of the relocations keep of each. -/
def Reloc.location (reloc : Reloc) : BitVec 32 × BitVec 16 × BitVec 32 :=
  (reloc.address, reloc.targetSection, reloc.targetSectionOffset)

theorem bakeReloc_location {reloc reloc' : Reloc}
    (h : bakeReloc context sect rom reloc = .ok (rom', reloc')) :
    reloc'.location = reloc.location := by
  unfold bakeReloc at h
  repeat' split at h
  all_goals cases h
  all_goals rfl

theorem bakeRelocs_location {relocs relocs' : List Reloc}
    (h : bakeRelocs context sect rom relocs = .ok (rom', relocs')) :
    relocs'.map Reloc.location = relocs.map Reloc.location := by
  induction relocs generalizing rom relocs' with
  | nil =>
    cases h
    rfl
  | cons reloc relocs ih =>
    obtain ⟨⟨rom₁, baked⟩, hbaked, h⟩ := Except.bind_eq_ok_iff.mp h
    obtain ⟨⟨rom₂, rest⟩, hrest, h⟩ := Except.bind_eq_ok_iff.mp h
    cases h
    rw [List.map_cons, List.map_cons, bakeReloc_location hbaked, ih hrest]

variable (context sect table) in
/-- Every `HI16` entry of the table is finalised in the relocations of the section. -/
def HighHalvesFinalised (relocs : List Reloc) : Prop :=
  ∃ ps rom, ps.map (·.rel) = table.entries ∧ Reads context sect context.rom ps rom ∧
    (∀ p ∈ ps, ∃ i, resolveSymbol context table i p.rel = .ok p.target) ∧ FinalisedAll ps ∧
      (relocs.map Reloc.location).Perm (ps.map fun p => p.reloc.location)

/-- **Every `HI16` is finalised exactly when no run is left open**: a run at the end of the table is
neither paired nor refused. -/
theorem parseSectionRelocs_finalised_iff {relocs : List Reloc}
    (h : parseSectionRelocs context sect table = .ok (rom, relocs)) :
    HighHalvesFinalised context sect table relocs ↔
      ∀ last, table.entries.getLast? = some last → last.type ≠ .hi16 := by
  constructor
  · rintro ⟨ps, rom₁, hentries, -, -, hfinalised, -⟩ last hlast
    rw [← hentries, List.getLast?_map] at hlast
    obtain ⟨p, hp, rfl⟩ := Option.map_eq_some_iff.mp hlast
    exact hfinalised.getLast hp
  · intro hlast
    obtain ⟨s, hs, hbake⟩ := Except.bind_eq_ok_iff.mp h
    obtain ⟨ps, run, hentries, hholds⟩ := parseEntries_holds hs
    have hrun : run = [] := by
      rcases List.eq_nil_or_concat run with hrun | ⟨run, p, rfl⟩
      · exact hrun
      · have hp := (hholds.held p (by simp)).1
        refine absurd hp (hlast p.rel ?_)
        rw [← hentries, List.concat_eq_append, ← List.append_assoc, List.map_append,
          List.map_singleton, List.getLast?_concat]
    subst hrun
    have hreads := hholds.reads
    have hrelocs := hholds.relocs
    have htargets := hholds.targets
    rw [List.append_nil] at hentries hreads hrelocs htargets
    refine ⟨ps, s.rom, hentries, hreads, htargets, hholds.finalised, ?_⟩
    rw [bakeRelocs_location hbake, hrelocs]
    refine ((List.perm_insertionSort _ _).map _).trans ?_
    rw [List.map_map]
    exact List.Perm.refl _

end Table

/-- A section at `0x80000000` of one instruction, the start of the ROM. -/
def sampleElfSection : Section := { Section.empty with ramAddr := 0x80000000, size := 4 }

def sampleElfContext (rom : List (BitVec 8)) : Context :=
  { Context.empty with rom, sections := [sampleElfSection] }

/-- A table of one `HI16` of an absolute symbol. -/
def sampleElfTable : RelocTable where
  entries := [⟨0x80000000, 1, .hi16⟩]
  symbolAt _ := ⟨ascii "symbol", shnAbs⟩
  sectionIndex := 0
  bssSectionIndex := 0xFFFF

/-- A `HI16` at the end of a table keeps its provisional offset. -/
theorem parseSectionRelocs_keeps_open_run :
    let context := sampleElfContext [0x3C, 0x08, 0x12, 0x34]
    let result := parseSectionRelocs context sampleElfSection sampleElfTable
    result = .ok (context.rom, [⟨0x80000000, 0x12340000, 1, sectionAbsolute, .hi16, false⟩]) ∧
      ∀ rom relocs, result = .ok (rom, relocs) →
        ¬HighHalvesFinalised context sampleElfSection sampleElfTable relocs := by
  refine ⟨by decide, ?_⟩
  rintro rom relocs - ⟨ps, rom₁, hentries, -, -, hfinalised, -⟩
  obtain ⟨p, rfl, hp⟩ := List.map_eq_singleton_iff.mp hentries
  have hlast : [p].getLast? = some p := rfl
  exact hfinalised.getLast hlast (by rw [hp])

/-- A table whose `HI16` is followed by its `LO16`. -/
theorem parseSectionRelocs_pairs :
    let context := sampleElfContext [0x3C, 0x08, 0x12, 0x34, 0x25, 0x08, 0xFF, 0xFC]
    let table := { sampleElfTable with
      entries := [⟨0x80000000, 1, .hi16⟩, ⟨0x80000004, 1, .lo16⟩] }
    ∃ rom relocs, parseSectionRelocs context sampleElfSection table = .ok (rom, relocs) ∧
      HighHalvesFinalised context sampleElfSection table relocs := by
  refine ⟨_, _, rfl, (parseSectionRelocs_finalised_iff rfl).mpr ?_⟩
  rintro last ⟨⟩
  decide

end N64Recomp
