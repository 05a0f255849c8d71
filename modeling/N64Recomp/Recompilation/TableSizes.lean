import Mathlib.Data.List.Sort
import N64Recomp.Recompilation.Analysis

/-!
# The sizes of the jump tables

The tables that the scan of a function finds are sorted by address, and each is read up to the next
one in that order, or up to the first word that is no address of the function. Two tables at one
address leave the first of them without words. No read is checked against the size of the ROM.

## Main definitions

* `scanFunction`, `resolveTables`: the tables that are found, and their addresses
* `TableEntries`: the maximal prefix of the words of a table
* `nextTable`: the next address of a table
* `ReadsInside`: the words that are examined are in the ROM
* `SizesRight`: the analysis fails or sizes every table, and reads the ROM only
* `SizesFit`: when it does

## Main results

* `readEntries_eq_some_iff`: the reading of a table finds the maximal prefix
* `sizeTables_ne_outOfBounds_iff`: when the reads are in the ROM
* `sizesRight_iff`: when the analysis is right
-/

namespace N64Recomp

/-! ### What the analysis finds -/

/-- The jump tables that the scan finds; `none` is the failure of an instruction. -/
def scanFunction (dec : Decoder) (context : Context) (func : Function)
    (instructions : List InstructionCpu) : Option (List JumpTable) :=
  (instructions.foldlM (fun s instr => analyzeInstruction dec instr
    (context.sectionAt func.sectionIndex.toNat).gotRamAddr.isSome s)
    ⟨fun _ => RegState.invalid, [], []⟩).map (·.jumpTables)

/-- The tables at their absolute addresses; `none` is a read outside of the ROM. -/
def resolveTables (context : Context) (func : Function) (found : List JumpTable) :
    Option (List JumpTable) :=
  match (context.sectionAt func.sectionIndex.toNat).gotRamAddr with
  | none => some found
  | some got =>
    found.mapM (resolveGot context.rom (context.sectionAt func.sectionIndex.toNat) func got)

/-- The tables by address. -/
def sortTables (tables : List JumpTable) : List JumpTable :=
  tables.insertionSort fun a b => a.vram ≤ b.vram

/-- The analysis is the scan, and the sizes of the tables that are found. -/
theorem analyzeFunction_eq (dec : Decoder) (context : Context) (func : Function)
    (instructions : List InstructionCpu) :
    analyzeFunction dec context func instructions =
      match scanFunction dec context func instructions with
      | none => .failed
      | some found =>
        match resolveTables context func found with
        | none => .outOfBounds
        | some tables => sizeTables context.rom func
          (context.sectionAt func.sectionIndex.toNat).gotRamAddr (sortTables tables) [] := by
  unfold analyzeFunction scanFunction resolveTables
  dsimp only
  cases instructions.foldlM (fun s instr => analyzeInstruction dec instr
    (context.sectionAt func.sectionIndex.toNat).gotRamAddr.isSome s)
    ⟨fun _ => RegState.invalid, [], []⟩ with
  | none => rfl
  | some s => rfl

/-! ### The words of a table -/

section Words

variable (rom : List (BitVec 8)) (func : Function) (got : Option (BitVec 32))

/-- The word at an address, as a table of the function has it; `none` is outside of the ROM. -/
def tableWordAt (vram : BitVec 32) : Option (BitVec 32) :=
  (romWord rom (vram + func.rom - func.vram).toNat).map (· + got.getD 0)

/-- **The maximal prefix** of the words at an address that are targets in the function, before an
end. -/
structure TableEntries (endAddress vram : BitVec 32) (entries : List (BitVec 32)) : Prop where
  valid : ∀ (k : Nat) entry, entries[k]? = some entry →
    vram + BitVec.ofNat 32 (4 * k) < endAddress ∧
      tableWordAt rom func got (vram + BitVec.ofNat 32 (4 * k)) = some entry ∧
      func.containsEntry entry = true
  maximal : vram + BitVec.ofNat 32 (4 * entries.length) < endAddress →
    ∃ word, tableWordAt rom func got (vram + BitVec.ofNat 32 (4 * entries.length)) = some word ∧
      func.containsEntry word = false

end Words

section Reading

variable {rom : List (BitVec 8)} {func : Function} {got : Option (BitVec 32)}
  {endAddress vram word : BitVec 32} {entries : List (BitVec 32)} {fuel : Nat}

theorem add_ofNat_succ (vram : BitVec 32) (k : Nat) :
    vram + 4 + BitVec.ofNat 32 (4 * k) = vram + BitVec.ofNat 32 (4 * (k + 1)) := by
  rw [Nat.mul_succ, Nat.add_comm, BitVec.ofNat_add, BitVec.add_assoc]
  rfl

theorem tableEntries_nil_iff : TableEntries rom func got endAddress vram [] ↔
    (vram < endAddress → ∃ word, tableWordAt rom func got vram = some word ∧
      func.containsEntry word = false) := by
  constructor
  · intro h
    simpa using h.maximal
  · intro h
    refine ⟨?_, by simpa using h⟩
    rintro k entry ⟨⟩

theorem tableEntries_cons_iff : TableEntries rom func got endAddress vram (word :: entries) ↔
    (vram < endAddress ∧ tableWordAt rom func got vram = some word ∧
      func.containsEntry word = true) ∧
    TableEntries rom func got endAddress (vram + 4) entries := by
  constructor
  · intro h
    refine ⟨by simpa using h.valid 0 word rfl, fun k entry hk => ?_, ?_⟩
    · rw [add_ofNat_succ]
      exact h.valid (k + 1) entry hk
    · rw [add_ofNat_succ]
      exact h.maximal
  · rintro ⟨hfirst, hrest⟩
    refine ⟨fun k entry hk => ?_, ?_⟩
    · cases k with
      | zero =>
        cases hk
        simpa using hfirst
      | succ k =>
        rw [← add_ofNat_succ]
        exact hrest.valid k entry hk
    · rw [List.length_cons, ← add_ofNat_succ]
      exact hrest.maximal

/-- With enough fuel the reading finds the maximal prefix. -/
theorem readEntries_eq_some_iff_of_fuel :
    readEntries rom func got endAddress fuel vram = some entries ↔
      TableEntries rom func got endAddress vram entries ∧ entries.length < fuel := by
  induction fuel generalizing vram entries with
  | zero => simp [readEntries]
  | succ fuel ih =>
    unfold readEntries
    by_cases hend : vram < endAddress
    · rw [if_pos hend]
      cases hword : romWord rom (vram + func.rom - func.vram).toNat with
      | none =>
        have hnone : tableWordAt rom func got vram = none := by
          rw [tableWordAt, hword, Option.map_none]
        cases entries with
        | nil => simp [tableEntries_nil_iff, hend, hnone]
        | cons e entries => simp [tableEntries_cons_iff, hnone]
      | some w =>
        have hentry : tableWordAt rom func got vram = some (w + got.getD 0) := by
          rw [tableWordAt, hword, Option.map_some]
        dsimp only
        generalize w + got.getD 0 = found at hentry
        split_ifs with hvalid
        · cases entries with
          | nil => simp [tableEntries_nil_iff, hend, hentry, hvalid]
          | cons e entries =>
            simp only [Option.map_eq_some_iff, List.cons.injEq, tableEntries_cons_iff, hend, hentry,
              Option.some.injEq, List.length_cons, Nat.add_lt_add_iff_right, true_and]
            constructor
            · rintro ⟨rest, hrest, rfl, rfl⟩
              obtain ⟨hrest, hlt⟩ := ih.mp hrest
              exact ⟨⟨⟨rfl, hvalid⟩, hrest⟩, hlt⟩
            · rintro ⟨⟨⟨rfl, -⟩, hrest⟩, hlt⟩
              exact ⟨entries, ih.mpr ⟨hrest, hlt⟩, rfl, rfl⟩
        · cases entries with
          | nil => simp [tableEntries_nil_iff, hend, hentry, hvalid]
          | cons e entries =>
            simp only [Option.some.injEq, List.nil_eq, reduceCtorEq, false_iff,
              tableEntries_cons_iff, hentry, not_and]
            rintro ⟨⟨-, rfl, hvalid'⟩, -⟩
            exact absurd hvalid' hvalid
    · rw [if_neg hend]
      cases entries with
      | nil => simp [tableEntries_nil_iff, hend]
      | cons e entries => simp [tableEntries_cons_iff, hend]

/-- A table has fewer words than there are addresses: the word after them would be its first one. -/
theorem TableEntries.length_lt (h : TableEntries rom func got endAddress vram entries) :
    entries.length < 2 ^ 30 := by
  by_contra hge
  obtain ⟨m, hm⟩ := Nat.exists_eq_add_of_le (Nat.not_lt.mp hge)
  have hsame : BitVec.ofNat 32 (4 * entries.length) = BitVec.ofNat 32 (4 * m) := by
    rw [hm, Nat.mul_add, BitVec.ofNat_add, show BitVec.ofNat 32 (4 * 2 ^ 30) = 0#32 from rfl,
      BitVec.zero_add]
  obtain ⟨hend, hentry, hvalid⟩ := h.valid m _ (List.getElem?_eq_getElem (by omega))
  rw [← hsame] at hend hentry
  obtain ⟨word, hword, hinvalid⟩ := h.maximal hend
  rw [hentry] at hword
  cases hword
  rw [hvalid] at hinvalid
  cases hinvalid

/-- **The reading of a table finds the maximal prefix of its words.** -/
theorem readEntries_eq_some_iff :
    readEntries rom func got endAddress (2 ^ 30) vram = some entries ↔
      TableEntries rom func got endAddress vram entries := by
  rw [readEntries_eq_some_iff_of_fuel]
  exact ⟨And.left, fun h => ⟨h, h.length_lt⟩⟩

theorem TableEntries.unique {entries' : List (BitVec 32)}
    (h : TableEntries rom func got endAddress vram entries)
    (h' : TableEntries rom func got endAddress vram entries') : entries = entries' :=
  Option.some.inj ((readEntries_eq_some_iff.mpr h).symm.trans (readEntries_eq_some_iff.mpr h'))

end Reading

/-! ### The tables in the order of their addresses -/

section Tables

variable (rom : List (BitVec 8)) (func : Function) (got : Option (BitVec 32))

/-- The entries of a table of position-independent code are offsets from the global offset table. -/
def gotOf (jtbl : JumpTable) : Option (BitVec 32) := if jtbl.gotOffset.isSome then got else none

/-- The end of a table is the address of the next one, or of the last byte. -/
def endOf : List JumpTable → BitVec 32
  | next :: _ => next.vram
  | [] => 0xFFFFFFFF

/-- A table with its words. -/
def sizedTable (jtbl : JumpTable) (entries : List (BitVec 32)) : JumpTable :=
  { jtbl with
    rom := jtbl.vram + func.rom - func.vram
    sectionIndex := func.sectionIndex
    entries }

/-- The words that are examined are in the ROM: the prefix of valid words of each table ends at the
next table or at a word that is not valid, up to the first table without words. -/
def ReadsInside : List JumpTable → Prop
  | [] => True
  | jtbl :: rest =>
    ∃ entries, TableEntries rom func (gotOf got jtbl) (endOf rest) jtbl.vram entries ∧
      (entries ≠ [] → ReadsInside rest)

/-- Every table has words, up to the next one. -/
inductive SizedAll : List JumpTable → List JumpTable → Prop
  | nil : SizedAll [] []
  | cons {jtbl rest sized entries} :
    TableEntries rom func (gotOf got jtbl) (endOf rest) jtbl.vram entries → entries ≠ [] →
    SizedAll rest sized → SizedAll (jtbl :: rest) (sizedTable func jtbl entries :: sized)

/-- The first word of a table is in the ROM and a target in the function. -/
def FirstValid (jtbl : JumpTable) : Prop :=
  ∃ word, tableWordAt rom func (gotOf got jtbl) jtbl.vram = some word ∧
    func.containsEntry word = true

end Tables

/-- The next distinct address of a table behind an address, or the address of the last byte. -/
structure NextAddress (tables : List JumpTable) (vram endAddress : BitVec 32) : Prop where
  le : ∀ jtbl ∈ tables, vram < jtbl.vram → endAddress ≤ jtbl.vram
  attained : endAddress = 0xFFFFFFFF ∨ ∃ jtbl ∈ tables, vram < jtbl.vram ∧ jtbl.vram = endAddress

section Sizes

variable {rom : List (BitVec 8)} {func : Function} {got : Option (BitVec 32)}
  {jtbl : JumpTable} {tables rest sized found : List JumpTable}

/-- One table of the loop. -/
theorem sizeTables_cons : sizeTables rom func got (jtbl :: rest) sized =
    match readEntries rom func (gotOf got jtbl) (endOf rest) (2 ^ 30) jtbl.vram with
    | none => .outOfBounds
    | some [] => .failed
    | some entries => sizeTables rom func got rest (sized ++ [sizedTable func jtbl entries]) := by
  cases rest <;> rfl

/-- **When the reads are in the ROM.** -/
theorem sizeTables_ne_outOfBounds_iff :
    sizeTables rom func got tables sized ≠ .outOfBounds ↔ ReadsInside rom func got tables := by
  induction tables generalizing sized with
  | nil => simp [sizeTables, ReadsInside]
  | cons jtbl rest ih =>
    rw [sizeTables_cons, ReadsInside]
    simp only [← readEntries_eq_some_iff]
    split
    · rename_i hnone
      rw [hnone]
      constructor
      · exact fun h => absurd rfl h
      · rintro ⟨entries, ⟨⟩, -⟩
    · rename_i hnil
      rw [hnil]
      refine ⟨fun _ => ⟨[], rfl, fun hne => absurd rfl hne⟩, fun _ h => ?_⟩
      cases h
    · rename_i entries hne hentries
      rw [hentries, ih]
      have hne : entries ≠ [] := fun h => hne h
      constructor
      · exact fun h => ⟨entries, rfl, fun _ => h⟩
      · rintro ⟨_, ⟨⟩, h⟩
        exact h hne

/-- **When the loop is done**, and with what. -/
theorem sizeTables_eq_tables_iff :
    sizeTables rom func got tables sized = .tables found ↔
      ∃ new, found = sized ++ new ∧ SizedAll rom func got tables new := by
  induction tables generalizing sized with
  | nil =>
    rw [sizeTables]
    constructor
    · rintro ⟨⟩
      exact ⟨[], (List.append_nil _).symm, .nil⟩
    · rintro ⟨new, rfl, ⟨⟩⟩
      rw [List.append_nil]
  | cons jtbl rest ih =>
    rw [sizeTables_cons]
    constructor
    · intro h
      split at h
      · cases h
      · cases h
      · rename_i entries hne hentries
        obtain ⟨new, rfl, hnew⟩ := ih.mp h
        exact ⟨sizedTable func jtbl entries :: new, by rw [List.append_assoc]; rfl,
          .cons (readEntries_eq_some_iff.mp hentries) (fun h => hne h) hnew⟩
    · rintro ⟨new, rfl, hnew⟩
      cases hnew with
      | cons hentries hne hrest =>
        rename_i sized' entries
        rw [readEntries_eq_some_iff.mpr hentries]
        cases entries with
        | nil => exact absurd rfl hne
        | cons entry entries => exact ih.mpr ⟨sized', by rw [List.append_assoc]; rfl, hrest⟩

/-- A table with words begins before its end. -/
theorem TableEntries.lt {endAddress vram : BitVec 32} {entries : List (BitVec 32)}
    (h : TableEntries rom func got endAddress vram entries) (hne : entries ≠ []) :
    vram < endAddress := by
  cases entries with
  | nil => exact absurd rfl hne
  | cons word entries => exact (tableEntries_cons_iff.mp h).1.1

/-- Sorted tables that all have words are at different addresses. -/
theorem SizedAll.strictlySorted (h : SizedAll rom func got tables sized)
    (hsorted : tables.Pairwise fun a b => a.vram ≤ b.vram) :
    tables.Pairwise fun a b => a.vram < b.vram := by
  induction h with
  | nil => exact List.Pairwise.nil
  | @cons jtbl rest sized entries hentries hne hrest ih =>
    obtain ⟨-, hsorted⟩ := List.pairwise_cons.mp hsorted
    refine List.pairwise_cons.mpr ⟨fun t ht => ?_, ih hsorted⟩
    have hlt := hentries.lt hne
    cases rest with
    | nil => cases ht
    | cons next rest =>
      rcases List.mem_cons.mp ht with rfl | ht
      · exact hlt
      · exact Nat.lt_of_lt_of_le hlt ((List.pairwise_cons.mp hsorted).1 t ht)

theorem SizedAll.ne_last (h : SizedAll rom func got tables sized) :
    ∀ t ∈ tables, t.vram ≠ 0xFFFFFFFF := by
  induction h with
  | nil => rintro t ⟨⟩
  | cons hentries hne hrest ih =>
    intro t ht hlast
    rcases List.mem_cons.mp ht with rfl | ht
    · have hlt := hentries.lt hne
      rw [hlast, BitVec.lt_def] at hlt
      exact absurd (Nat.lt_of_lt_of_le hlt (Nat.le_of_lt_succ (BitVec.isLt _))) (Nat.lt_irrefl _)
    · exact ih t ht hlast

/-- Of strictly sorted tables, the next one in the list has the next distinct address. -/
theorem nextAddress_endOf {front : List JumpTable}
    (hsorted : (front ++ jtbl :: rest).Pairwise fun a b => a.vram < b.vram) :
    NextAddress (front ++ jtbl :: rest) jtbl.vram (endOf rest) := by
  obtain ⟨-, hback, hcross⟩ := List.pairwise_append.mp hsorted
  obtain ⟨hnext, hrest⟩ := List.pairwise_cons.mp hback
  constructor
  · intro t ht hlt
    rcases List.mem_append.mp ht with ht | ht
    · exact absurd (Nat.lt_trans hlt (hcross t ht jtbl List.mem_cons_self)) (Nat.lt_irrefl _)
    · rcases List.mem_cons.mp ht with rfl | ht
      · exact absurd hlt (Nat.lt_irrefl _)
      · cases rest with
        | nil => cases ht
        | cons next rest =>
          rcases List.mem_cons.mp ht with rfl | ht
          · exact Nat.le_refl _
          · exact Nat.le_of_lt ((List.pairwise_cons.mp hrest).1 t ht)
  · cases rest with
    | nil => exact .inl rfl
    | cons next rest =>
      exact .inr ⟨next, by simp, hnext next List.mem_cons_self, rfl⟩

/-- Tables whose first words are valid, at different addresses, all have words. -/
theorem exists_sizedAll (hreads : ReadsInside rom func got tables)
    (hsorted : tables.Pairwise fun a b => a.vram < b.vram)
    (hlast : ∀ t ∈ tables, t.vram ≠ 0xFFFFFFFF) (hfirst : ∀ t ∈ tables, FirstValid rom func got t) :
    ∃ sized, SizedAll rom func got tables sized := by
  induction tables with
  | nil => exact ⟨[], .nil⟩
  | cons jtbl rest ih =>
    obtain ⟨hnext, hsorted⟩ := List.pairwise_cons.mp hsorted
    obtain ⟨entries, hentries, hrest⟩ := hreads
    have hlt : jtbl.vram < endOf rest := by
      cases rest with
      | nil =>
        have hne := hlast jtbl List.mem_cons_self
        have hle : jtbl.vram.toNat ≤ 0xFFFFFFFF := Nat.le_of_lt_succ jtbl.vram.isLt
        exact Nat.lt_of_le_of_ne hle fun h => hne (BitVec.eq_of_toNat_eq h)
      | cons next rest => exact hnext next List.mem_cons_self
    have hne : entries ≠ [] := by
      rintro rfl
      obtain ⟨word, hword, hvalid⟩ := hfirst jtbl List.mem_cons_self
      obtain ⟨word', hword', hinvalid⟩ := tableEntries_nil_iff.mp hentries hlt
      rw [hword] at hword'
      cases hword'
      rw [hvalid] at hinvalid
      cases hinvalid
    obtain ⟨sized, hsized⟩ := ih (hrest hne) hsorted (fun t ht => hlast t (by simp [ht]))
      fun t ht => hfirst t (by simp [ht])
    exact ⟨_, .cons hentries hne hsized⟩

/-- A table that the analysis has sized: the maximal prefix of the words at its address, before the
next distinct table, with at least one word. -/
def TableSized (rom : List (BitVec 8)) (func : Function) (got : Option (BitVec 32))
    (tables : List JumpTable) (jtbl sized : JumpTable) : Prop :=
  ∃ entries endAddress, sized = sizedTable func jtbl entries ∧ entries ≠ [] ∧
    NextAddress tables jtbl.vram endAddress ∧
    TableEntries rom func (gotOf got jtbl) endAddress jtbl.vram entries

theorem SizedAll.tableSized (h : SizedAll rom func got rest sized) (front : List JumpTable)
    (hsorted : (front ++ rest).Pairwise fun a b => a.vram < b.vram) :
    List.Forall₂ (TableSized rom func got (front ++ rest)) rest sized := by
  induction h generalizing front with
  | nil => exact .nil
  | @cons jtbl rest sized entries hentries hne hrest ih =>
    refine .cons ⟨entries, endOf rest, rfl, hne, nextAddress_endOf hsorted, hentries⟩ ?_
    have hsplit : front ++ jtbl :: rest = front ++ [jtbl] ++ rest := by
      rw [List.append_assoc, List.singleton_append]
    rw [hsplit] at hsorted ⊢
    exact ih _ hsorted

theorem NextAddress.congr {tables' : List JumpTable} {vram endAddress : BitVec 32}
    (h : NextAddress tables vram endAddress) (hmem : ∀ t, t ∈ tables ↔ t ∈ tables') :
    NextAddress tables' vram endAddress := by
  refine ⟨fun t ht => h.le t ((hmem t).mpr ht), h.attained.imp_right ?_⟩
  rintro ⟨t, ht, hend⟩
  exact ⟨t, (hmem t).mp ht, hend⟩

end Sizes

theorem sortTables_perm (tables : List JumpTable) : (sortTables tables).Perm tables :=
  List.perm_insertionSort _ _

theorem pairwise_sortTables (tables : List JumpTable) :
    (sortTables tables).Pairwise fun a b => a.vram ≤ b.vram :=
  List.pairwise_insertionSort (fun a b : JumpTable => a.vram ≤ b.vram) tables

/-! ### The analysis -/

section Analysis

variable (dec : Decoder) (context : Context) (func : Function) (instructions : List InstructionCpu)

/-- **The analysis sizes the tables rightly**: it reads the ROM only and ends; when it does not
fail, every table that was found has the maximal prefix of its words; and it does not fail when the
first word of each table is a target in the function. -/
structure SizesRight : Prop where
  inside : analyzeFunction dec context func instructions ≠ .outOfBounds
  exact : ∀ found tables sized, scanFunction dec context func instructions = some found →
    resolveTables context func found = some tables →
    analyzeFunction dec context func instructions = .tables sized →
    ∃ sorted, sorted.Perm tables ∧ List.Forall₂ (TableSized context.rom func
      (context.sectionAt func.sectionIndex.toNat).gotRamAddr tables) sorted sized
  succeeds : ∀ found tables, scanFunction dec context func instructions = some found →
    resolveTables context func found = some tables →
    (∀ jtbl ∈ tables, FirstValid context.rom func
      (context.sectionAt func.sectionIndex.toNat).gotRamAddr jtbl) →
    ∃ sized, analyzeFunction dec context func instructions = .tables sized

/-- The words that are examined are in the ROM; and when the first words of all tables are valid, no
two tables are at one address and none is at the last byte. -/
def SizesFit : Prop :=
  ∀ found, scanFunction dec context func instructions = some found →
    ∃ tables, resolveTables context func found = some tables ∧
      ReadsInside context.rom func (context.sectionAt func.sectionIndex.toNat).gotRamAddr
        (sortTables tables) ∧
      ((∀ jtbl ∈ tables, FirstValid context.rom func
          (context.sectionAt func.sectionIndex.toNat).gotRamAddr jtbl) →
        (tables.map (·.vram)).Nodup ∧ ∀ jtbl ∈ tables, jtbl.vram ≠ 0xFFFFFFFF)

/-- **When the analysis sizes the tables rightly.** -/
theorem sizesRight_iff :
    SizesRight dec context func instructions ↔ SizesFit dec context func instructions := by
  have heq := analyzeFunction_eq dec context func instructions
  constructor
  · intro h found hfound
    rw [hfound] at heq
    dsimp only at heq
    cases htables : resolveTables context func found with
    | none =>
      rw [htables] at heq
      exact absurd heq h.inside
    | some tables =>
      rw [htables] at heq
      dsimp only at heq
      have hinside := h.inside
      rw [heq] at hinside
      refine ⟨tables, rfl, sizeTables_ne_outOfBounds_iff.mp hinside, fun hfirst => ?_⟩
      obtain ⟨sized, hsized⟩ := h.succeeds found tables hfound htables hfirst
      rw [heq] at hsized
      obtain ⟨new, -, hnew⟩ := sizeTables_eq_tables_iff.mp hsized
      have hstrict := hnew.strictlySorted (pairwise_sortTables tables)
      constructor
      · have hnodup : ((sortTables tables).map (·.vram)).Nodup :=
          List.pairwise_map.mpr (hstrict.imp fun hlt heq => by
            rw [heq] at hlt
            exact Nat.lt_irrefl _ hlt)
        exact ((sortTables_perm tables).map (·.vram)).nodup_iff.mp hnodup
      · exact fun t ht => hnew.ne_last t ((sortTables_perm tables).mem_iff.mpr ht)
  · intro h
    cases hfound : scanFunction dec context func instructions with
    | none =>
      rw [hfound] at heq
      refine ⟨by rw [heq]; exact nofun, ?_, ?_⟩
      · rintro found - - hsome
        rw [hfound] at hsome
        cases hsome
      · rintro found - hsome
        rw [hfound] at hsome
        cases hsome
    | some found =>
      obtain ⟨tables, htables, hreads, hfits⟩ := h found hfound
      rw [hfound] at heq
      dsimp only at heq
      rw [htables] at heq
      dsimp only at heq
      have hsame : ∀ found' tables', scanFunction dec context func instructions = some found' →
          resolveTables context func found' = some tables' → tables' = tables := by
        intro found' tables' hfound' htables'
        rw [hfound] at hfound'
        cases hfound'
        rw [htables] at htables'
        exact (Option.some.inj htables').symm
      refine ⟨?_, fun found' tables' sized hfound' htables' hsized => ?_,
        fun found' tables' hfound' htables' hfirst => ?_⟩
      · rw [heq]
        exact sizeTables_ne_outOfBounds_iff.mpr hreads
      · obtain rfl := hsame found' tables' hfound' htables'
        rw [heq] at hsized
        obtain ⟨new, rfl, hnew⟩ := sizeTables_eq_tables_iff.mp hsized
        have hstrict := hnew.strictlySorted (pairwise_sortTables tables')
        refine ⟨sortTables tables', sortTables_perm tables', ?_⟩
        refine (hnew.tableSized [] hstrict).imp ?_
        rintro jtbl s ⟨entries, endAddress, hs, hne, hnext, hentries⟩
        exact ⟨entries, endAddress, hs, hne,
          hnext.congr fun t => (sortTables_perm tables').mem_iff, hentries⟩
      · obtain rfl := hsame found' tables' hfound' htables'
        obtain ⟨hnodup, hlast⟩ := hfits hfirst
        have hnodup := ((sortTables_perm tables').map (·.vram)).nodup_iff.mpr hnodup
        have hstrict : (sortTables tables').Pairwise fun a b => a.vram < b.vram :=
          ((pairwise_sortTables tables').and (List.pairwise_map.mp hnodup)).imp fun h =>
            Nat.lt_of_le_of_ne h.1 fun heq => h.2 (BitVec.eq_of_toNat_eq heq)
        obtain ⟨sized, hsized⟩ := exists_sizedAll hreads hstrict
          (fun t ht => hlast t ((sortTables_perm tables').mem_iff.mp ht))
          fun t ht => hfirst t ((sortTables_perm tables').mem_iff.mp ht)
        exact ⟨sized, by rw [heq]; exact sizeTables_eq_tables_iff.mpr ⟨sized, rfl, hsized⟩⟩

end Analysis

/-! ### Two jumps through one table -/

/-- `lui; addu; lw; jr; nop`, twice. -/
def twoJumps : List (BitVec 32) :=
  [0x3C088000, 0x01094021, 0x8D080428, 0x01000008, 0, 0x3C088000, 0x01094021, 0x8D080428,
    0x01000008, 0]

/-- The function with these words. -/
def twoJumpsFunction : Function :=
  Function.mk' 0x80000400 0 (twoJumps.map byteswap) (ascii "func") 0 false false false 0

/-- The function, with the table of one word behind it. -/
def sharedTable : Context :=
  { Context.empty with
    functions := [twoJumpsFunction]
    rom := (twoJumps ++ [0x80000400, 0]).flatMap fun word => (List.range 4).map (wordByte word) }

/-- The analysis fails, although the table's word is a target in the function. -/
theorem twoJumps_not_sized : ¬SizesRight (.ofId sampleId) sharedTable twoJumpsFunction
    (decodeFrom twoJumpsFunction.vram twoJumpsFunction.words) := by
  intro h
  have hfailed : analyzeFunction (.ofId sampleId) sharedTable twoJumpsFunction
      (decodeFrom twoJumpsFunction.vram twoJumpsFunction.words) = .failed := by decide
  obtain ⟨sized, hsized⟩ := h.succeeds _ _ rfl rfl (by
    intro jtbl hjtbl
    refine ⟨0x80000400, ?_⟩
    revert jtbl hjtbl
    decide)
  rw [hfailed] at hsized
  cases hsized

end N64Recomp
