import Mathlib.Data.List.Sort
import N64Recomp.Context.ResolveJal
import N64Recomp.Context.Rom
import N64Recomp.Recompilation.Instruction

/-!
# Jump tables of a function

The linear scan of a function that simulates the computation of a jump-table address in the
registers and on the stack, and the reading of the tables that it finds.

## Main definitions

* `RegState`: the abstract value of a register
* `analyzeInstruction`: one instruction of the scan
* `analyzeFunction`: the scan, and the sizes of the tables

## Main results

* `analyzeFunction_entries`: every entry of a table is an address in the function
* `analyzeFunction_lwVram`: the load of a table is a load of the function
-/

namespace N64Recomp

/-- The abstract value of a register: an address in progress, and what was loaded from one. -/
structure RegState where
  prevLui : BitVec 32
  prevAddiuVram : BitVec 32
  prevAdduVram : BitVec 32
  prevAddendReg : Fin 32
  /-- The offset of a load from the global offset table. -/
  prevGotOffset : BitVec 32
  validLui : Bool
  validAddiu : Bool
  validAddend : Bool
  validGotOffset : Bool
  loadedLwVram : BitVec 32
  loadedAdduVram : BitVec 32
  loadedAddress : BitVec 32
  loadedAddendReg : Fin 32
  validLoaded : Bool
  validGotLoaded : Bool
  deriving DecidableEq, Repr

/-- `invalidate()`, which is also the initial state. -/
def RegState.invalid : RegState where
  prevLui := 0
  prevAddiuVram := 0
  prevAdduVram := 0
  prevAddendReg := 0
  prevGotOffset := 0
  validLui := false
  validAddiu := false
  validAddend := false
  validGotOffset := false
  loadedLwVram := 0
  loadedAdduVram := 0
  loadedAddress := 0
  loadedAddendReg := 0
  validLoaded := false
  validGotLoaded := false

/-- The state of the scan. -/
structure ScanState where
  regs : Fin 32 → RegState
  stackStates : List RegState
  jumpTables : List JumpTable

namespace ScanState

def setReg (s : ScanState) (r : Fin 32) (x : RegState) : ScanState :=
  { s with regs := fun q => if q = r then x else s.regs q }

/-- `stack_states.resize(offset + 1)` when the offset is past the end. -/
def resize (s : ScanState) (offset : Nat) : ScanState :=
  { s with stackStates :=
      s.stackStates ++ List.replicate (offset + 1 - s.stackStates.length) RegState.invalid }

/-- A jump table whose entries are not read yet. -/
def pushTable (s : ScanState) (x : RegState) (jrVram : BitVec 32) (gotOffset : Option (BitVec 32)) :
    ScanState :=
  { s with jumpTables := s.jumpTables ++ [{
      vram := x.loadedAddress
      addendReg := x.loadedAddendReg
      rom := 0
      lwVram := x.loadedLwVram
      adduVram := x.loadedAdduVram
      jrVram
      sectionIndex := 0
      gotOffset
      entries := [] }] }

end ScanState

/-- `(int16_t)imm`, as a 32-bit value. -/
def immS32 (imm : BitVec 16) : BitVec 32 := imm.signExtend 32

/-- A register copied to another one by `or` or `addu` with `$zero`. -/
def checkMove (s : ScanState) (rd rs rt : Fin 32) : ScanState :=
  if rs = 0 then s.setReg rd (s.regs rt)
  else if rt = 0 then s.setReg rd (s.regs rs)
  else s.setReg rd RegState.invalid

/-- The slot of a stack access; a misaligned or negative offset ends the analysis. -/
def stackOffset (imm : BitVec 16) : Option Nat :=
  if imm &&& 3 ≠ 0 then none else if imm.slt 0 then none else some (imm.toNat / 4)

/-- An address with an index register added to it. -/
def withAddend (x : RegState) (addendReg : Fin 32) (vram : BitVec 32) : RegState :=
  { x with validAddend := true, prevAddendReg := addendReg, prevAdduVram := vram }

/-- `addu`: the state that its destination gets. When the instruction is a move the copy that
`check_move` makes is overwritten with the invalid state. -/
def adduState (s : ScanState) (rs rt : Fin 32) (vram : BitVec 32) : RegState :=
  if (s.regs rs).validGotOffset ≠ (s.regs rt).validGotOffset then
    if (s.regs rs).validGotOffset then withAddend (s.regs rs) rt vram
    else withAddend (s.regs rt) rs vram
  else if (rs = regGp ∨ rt = regGp) ∧ (s.regs rs).validGotLoaded ≠ (s.regs rt).validGotLoaded then
    if (s.regs rs).validGotLoaded then s.regs rs else s.regs rt
  else if (s.regs rs).validLui ≠ (s.regs rt).validLui then
    if (s.regs rs).validLui then withAddend (s.regs rs) rt vram
    else withAddend (s.regs rt) rs vram
  else RegState.invalid

/-- `lw` from a register other than the stack pointer. -/
def loadState (x : RegState) (base : Fin 32) (imm : BitVec 16) (vram : BitVec 32)
    (isGotAddrDefined : Bool) : RegState :=
  if x.validLui ∧ x.validAddend then
    if imm ≠ 0 ∧ x.validAddiu then RegState.invalid
    else
      { RegState.invalid with
        validLoaded := true
        loadedLwVram := vram
        loadedAddress := x.prevLui + if imm ≠ 0 then immS32 imm else x.prevAddiuVram
        loadedAddendReg := x.prevAddendReg
        loadedAdduVram := x.prevAdduVram }
  else if x.validGotOffset ∧ x.validAddend then
    { RegState.invalid with
      validGotLoaded := true
      loadedLwVram := vram
      loadedAddress := imm.setWidth 32
      loadedAddendReg := x.prevAddendReg
      loadedAdduVram := x.prevAdduVram
      prevGotOffset := x.prevGotOffset }
  else if base = regGp ∧ isGotAddrDefined then
    { RegState.invalid with prevGotOffset := imm.setWidth 32, validGotOffset := true }
  else RegState.invalid

/-- One instruction of the scan; `none` is the failure of the analysis. -/
def analyzeInstruction (dec : Decoder) (instr : InstructionCpu) (isGotAddrDefined : Bool)
    (s : ScanState) : Option ScanState :=
  let rd := instr.rd
  let rs := instr.rs
  let rt := instr.rt
  let imm := instr.immediate
  match instr.uniqueId dec with
  | .lui =>
    some (s.setReg rt
      { RegState.invalid with prevLui := immS32 imm <<< 16, validLui := true })
  | .addiu =>
    let x := s.regs rs
    if !x.validAddiu then
      some (s.setReg rt { x with prevAddiuVram := immS32 imm, validAddiu := true })
    else some (s.setReg rt RegState.invalid)
  | .addu => some (s.setReg rd (adduState s rs rt instr.vram))
  | .daddu | .or => some (checkMove s rd rs rt)
  | .sw =>
    if rs = regSp then
      (stackOffset imm).map fun offset =>
        let s := s.resize offset
        { s with stackStates := s.stackStates.set offset (s.regs rt) }
    else some s
  | .lw =>
    if rs = regSp then
      (stackOffset imm).map fun offset =>
        let s := s.resize offset
        s.setReg rt (s.stackStates.getD offset RegState.invalid)
    else some (s.setReg rt (loadState (s.regs rs) rs imm instr.vram isGotAddrDefined))
  | .jr =>
    if rs = regRa then some s
    else if (s.regs rs).validLoaded then some (s.pushTable (s.regs rs) instr.vram none)
    else if (s.regs rs).validGotLoaded then
      some (s.pushTable (s.regs rs) instr.vram (some (s.regs rs).prevGotOffset))
    else some s
  | _ =>
    let s := if instr.modifiesRd dec then s.setReg rd RegState.invalid else s
    some (if instr.modifiesRt dec then s.setReg rt RegState.invalid else s)

/-! ### The tables -/

/-- Whether an entry is the address of an instruction or of a byte in the function. -/
def Function.containsEntry (func : Function) (entry : BitVec 32) : Bool :=
  func.vram ≤ entry ∧ entry.toNat < func.vram.toNat + func.byteSize

/-- How the analysis ends. -/
inductive Analysis
  | tables (jumpTables : List JumpTable)
  | failed
  /-- A read outside of the ROM, or one that never ends. -/
  | outOfBounds
  deriving DecidableEq, Repr

/-- Absolute addresses for the tables of position-independent code. -/
def resolveGot (rom : List (BitVec 8)) (sect : Section) (func : Function) (got : BitVec 32)
    (jtbl : JumpTable) : Option JumpTable :=
  match jtbl.gotOffset with
  | none => some jtbl
  | some gotOffset =>
    (romWord rom (got + func.rom - func.vram + gotOffset).toNat).map fun gotWord =>
      { jtbl with vram := jtbl.vram + (sect.ramAddr + gotWord) }

/-- Reads entries from `vram` on, up to the next table or to the first word that is no address of the
function. -/
def readEntries (rom : List (BitVec 8)) (func : Function) (got : Option (BitVec 32))
    (endAddress : BitVec 32) : Nat → BitVec 32 → Option (List (BitVec 32))
  | 0, _ => none
  | fuel + 1, vram =>
    if vram < endAddress then
      match romWord rom (vram + func.rom - func.vram).toNat with
      | none => none
      | some word =>
        let entry := word + got.getD 0
        if func.containsEntry entry then
          (readEntries rom func got endAddress fuel (vram + 4)).map (entry :: ·)
        else some []
    else some []

/-- The sizes of the sorted tables. No table has more words than there are addresses. -/
def sizeTables (rom : List (BitVec 8)) (func : Function) (got : Option (BitVec 32)) :
    List JumpTable → List JumpTable → Analysis
  | [], sized => .tables sized
  | jtbl :: rest, sized =>
    let endAddress := match rest with
      | next :: _ => next.vram
      | [] => 0xFFFFFFFF
    let got' := if jtbl.gotOffset.isSome then got else none
    match readEntries rom func got' endAddress (2 ^ 30) jtbl.vram with
    | none => .outOfBounds
    | some [] => .failed
    | some entries =>
      sizeTables rom func got rest (sized ++ [{ jtbl with
        rom := jtbl.vram + func.rom - func.vram
        sectionIndex := func.sectionIndex
        entries }])

/-- `analyze_function`. The tables are sorted by their address; the order of tables at one address
is not specified by `std::sort`, and is taken as the order in which they were found. -/
def analyzeFunction (dec : Decoder) (context : Context) (func : Function)
    (instructions : List InstructionCpu) : Analysis :=
  let sect := context.sectionAt func.sectionIndex.toNat
  let got := sect.gotRamAddr
  let start : ScanState := ⟨fun _ => RegState.invalid, [], []⟩
  match instructions.foldlM (fun s instr => analyzeInstruction dec instr got.isSome s) start with
  | none => .failed
  | some s =>
    let resolved := match got with
      | none => some s.jumpTables
      | some got => s.jumpTables.mapM (resolveGot context.rom sect func got)
    match resolved with
    | none => .outOfBounds
    | some tables =>
      sizeTables context.rom func got (tables.insertionSort fun a b => a.vram ≤ b.vram) []

/-! ### What the tables hold -/

theorem readEntries_contains {rom : List (BitVec 8)} {func : Function} {got : Option (BitVec 32)}
    {endAddress vram : BitVec 32} {fuel : Nat} {entries : List (BitVec 32)}
    (h : readEntries rom func got endAddress fuel vram = some entries) :
    ∀ e ∈ entries, func.containsEntry e = true := by
  induction fuel generalizing vram entries with
  | zero => cases h
  | succ fuel ih =>
    unfold readEntries at h
    split at h
    · split at h
      · cases h
      · simp only at h
        split at h
        · rename_i hentry
          obtain ⟨rest, hrest, rfl⟩ := Option.map_eq_some_iff.mp h
          intro e he
          rcases List.mem_cons.mp he with rfl | he
          · exact hentry
          · exact ih hrest e he
        · cases h
          rintro e ⟨⟩
    · cases h
      rintro e ⟨⟩

theorem sizeTables_contains {rom : List (BitVec 8)} {func : Function} {got : Option (BitVec 32)}
    {tables sized found : List JumpTable}
    (hsized : ∀ t ∈ sized, ∀ e ∈ t.entries, func.containsEntry e = true)
    (h : sizeTables rom func got tables sized = .tables found) :
    ∀ t ∈ found, ∀ e ∈ t.entries, func.containsEntry e = true := by
  induction tables generalizing sized with
  | nil =>
    cases h
    exact hsized
  | cons jtbl rest ih =>
    unfold sizeTables at h
    simp only at h
    split at h
    · cases h
    · cases h
    · rename_i entries _ hread
      refine ih ?_ h
      intro t ht
      rcases List.mem_append.mp ht with ht | ht
      · exact hsized t ht
      · obtain rfl := List.mem_singleton.mp ht
        exact readEntries_contains hread

/-- Every entry of a table that the analysis finds is an address in the function. -/
theorem analyzeFunction_entries {dec : Decoder} {context : Context} {func : Function}
    {instructions : List InstructionCpu} {tables : List JumpTable}
    (h : analyzeFunction dec context func instructions = .tables tables) :
    ∀ t ∈ tables, ∀ e ∈ t.entries, func.containsEntry e = true := by
  unfold analyzeFunction at h
  simp only at h
  split at h
  · cases h
  · split at h
    · cases h
    · exact sizeTables_contains (by rintro t ⟨⟩) h

/-! ### The loads of the tables -/

section Loads

variable {P : BitVec 32 → Prop}

/-- A register that was loaded from a table was loaded at an address of `P`. -/
def RegState.LoadedAt (P : BitVec 32 → Prop) (x : RegState) : Prop :=
  x.validLoaded = true ∨ x.validGotLoaded = true → P x.loadedLwVram

/-- So were all registers, all stack slots and all tables. -/
structure ScanState.LoadedAt (P : BitVec 32 → Prop) (s : ScanState) : Prop where
  regs : ∀ r, (s.regs r).LoadedAt P
  stack : ∀ x ∈ s.stackStates, x.LoadedAt P
  tables : ∀ jtbl ∈ s.jumpTables, P jtbl.lwVram

theorem RegState.loadedAt_invalid : RegState.invalid.LoadedAt P := by
  rintro (h | h) <;> cases h

/-- The other fields do not matter. -/
theorem RegState.LoadedAt.congr {x y : RegState} (hx : x.LoadedAt P)
    (hloaded : y.validLoaded = x.validLoaded) (hgot : y.validGotLoaded = x.validGotLoaded)
    (hvram : y.loadedLwVram = x.loadedLwVram) : y.LoadedAt P := by
  unfold RegState.LoadedAt at hx ⊢
  rwa [hloaded, hgot, hvram]

theorem ScanState.LoadedAt.setReg {s : ScanState} (hs : s.LoadedAt P) {x : RegState}
    (hx : x.LoadedAt P) (r : Fin 32) : (s.setReg r x).LoadedAt P := by
  refine ⟨?_, hs.stack, hs.tables⟩
  intro q
  unfold ScanState.setReg
  simp only
  split
  · exact hx
  · exact hs.regs q

theorem ScanState.LoadedAt.resize {s : ScanState} (hs : s.LoadedAt P) (offset : Nat) :
    (s.resize offset).LoadedAt P := by
  refine ⟨hs.regs, ?_, hs.tables⟩
  intro x hx
  rcases List.mem_append.mp hx with hx | hx
  · exact hs.stack x hx
  · rw [(List.mem_replicate.mp hx).2]
    exact RegState.loadedAt_invalid

theorem ScanState.LoadedAt.pushTable {s : ScanState} (hs : s.LoadedAt P) {x : RegState}
    (hx : P x.loadedLwVram) (jrVram : BitVec 32) (gotOffset : Option (BitVec 32)) :
    (s.pushTable x jrVram gotOffset).LoadedAt P := by
  refine ⟨hs.regs, hs.stack, ?_⟩
  intro jtbl hjtbl
  rcases List.mem_append.mp hjtbl with hjtbl | hjtbl
  · exact hs.tables jtbl hjtbl
  · obtain rfl := List.mem_singleton.mp hjtbl
    exact hx

theorem adduState_loadedAt {s : ScanState} (hs : s.LoadedAt P) (rs rt : Fin 32)
    (vram : BitVec 32) : (adduState s rs rt vram).LoadedAt P := by
  unfold adduState
  repeat' split
  all_goals first
    | exact RegState.loadedAt_invalid
    | exact hs.regs _

theorem checkMove_loadedAt {s : ScanState} (hs : s.LoadedAt P) (rd rs rt : Fin 32) :
    (checkMove s rd rs rt).LoadedAt P := by
  unfold checkMove
  repeat' split
  · exact hs.setReg (hs.regs rt) rd
  · exact hs.setReg (hs.regs rs) rd
  · exact hs.setReg RegState.loadedAt_invalid rd

theorem loadState_loadedAt {x : RegState} {base : Fin 32} {imm : BitVec 16} {vram : BitVec 32}
    {got : Bool} (h : P vram) : (loadState x base imm vram got).LoadedAt P := by
  unfold loadState
  repeat' split
  case isTrue.isTrue => exact RegState.loadedAt_invalid
  case isTrue.isFalse.isTrue | isTrue.isFalse.isFalse => exact fun _ => h
  case isFalse.isTrue => exact fun _ => h
  case isFalse.isFalse.isTrue => rintro (h | h) <;> cases h
  case isFalse.isFalse.isFalse => exact RegState.loadedAt_invalid

/-- One instruction: only an `lw` brings a new address. -/
theorem analyzeInstruction_loadedAt {dec : Decoder} {instr : InstructionCpu} {got : Bool}
    {s s' : ScanState} (hs : s.LoadedAt P) (hlw : instr.uniqueId dec = .lw → P instr.vram)
    (h : analyzeInstruction dec instr got s = some s') : s'.LoadedAt P := by
  unfold analyzeInstruction at h
  simp only at h
  split at h
  case h_1 =>
    cases h
    exact hs.setReg (by rintro (h | h) <;> cases h) _
  case h_2 =>
    split at h
    · cases h
      refine hs.setReg ?_ _
      exact (hs.regs instr.rs).congr rfl rfl rfl
    · cases h
      exact hs.setReg RegState.loadedAt_invalid _
  case h_3 =>
    cases h
    exact hs.setReg (adduState_loadedAt hs _ _ _) _
  case h_4 | h_5 =>
    cases h
    exact checkMove_loadedAt hs _ _ _
  case h_6 =>
    split at h
    · obtain ⟨offset, -, rfl⟩ := Option.map_eq_some_iff.mp h
      refine ⟨hs.regs, ?_, hs.tables⟩
      intro x hx
      rcases List.mem_or_eq_of_mem_set hx with hx | rfl
      · exact (hs.resize offset).stack x hx
      · exact hs.regs _
    · cases h
      exact hs
  case h_7 hid =>
    split at h
    · obtain ⟨offset, -, rfl⟩ := Option.map_eq_some_iff.mp h
      refine (hs.resize offset).setReg ?_ _
      rw [List.getD_eq_getElem?_getD]
      cases hx : (s.resize offset).stackStates[offset]? with
      | none => exact RegState.loadedAt_invalid
      | some x => exact (hs.resize offset).stack x (List.mem_of_getElem? hx)
    · cases h
      exact hs.setReg (loadState_loadedAt (hlw hid)) _
  case h_8 =>
    split at h
    · cases h
      exact hs
    · split at h
      · rename_i hloaded
        cases h
        exact hs.pushTable (hs.regs _ (.inl hloaded)) _ _
      · split at h
        · rename_i hloaded
          cases h
          exact hs.pushTable (hs.regs _ (.inr hloaded)) _ _
        · cases h
          exact hs
  case h_9 =>
    cases h
    repeat' split
    · exact (hs.setReg RegState.loadedAt_invalid _).setReg RegState.loadedAt_invalid _
    · exact hs.setReg RegState.loadedAt_invalid _
    · exact hs.setReg RegState.loadedAt_invalid _
    · exact hs

/-- The whole scan. -/
theorem scan_loadedAt {dec : Decoder} {got : Bool} {instructions : List InstructionCpu}
    {s s' : ScanState} (hs : s.LoadedAt P)
    (hlw : ∀ instr ∈ instructions, instr.uniqueId dec = .lw → P instr.vram)
    (h : instructions.foldlM (fun s instr => analyzeInstruction dec instr got s) s = some s') :
    s'.LoadedAt P := by
  induction instructions generalizing s with
  | nil =>
    cases h
    exact hs
  | cons instr rest ih =>
    obtain ⟨s₁, h₁, hrest⟩ := Option.bind_eq_some_iff.mp h
    exact ih (analyzeInstruction_loadedAt hs (hlw instr (by simp)) h₁)
      (fun i hi => hlw i (by simp [hi])) hrest

theorem sizeTables_lwVram {rom : List (BitVec 8)} {func : Function} {got : Option (BitVec 32)}
    {tables sized found : List JumpTable} (htables : ∀ t ∈ tables, P t.lwVram)
    (hsized : ∀ t ∈ sized, P t.lwVram)
    (h : sizeTables rom func got tables sized = .tables found) : ∀ t ∈ found, P t.lwVram := by
  induction tables generalizing sized with
  | nil =>
    cases h
    exact hsized
  | cons jtbl rest ih =>
    unfold sizeTables at h
    simp only at h
    split at h
    · cases h
    · cases h
    · refine ih (fun t ht => htables t (by simp [ht])) ?_ h
      intro t ht
      rcases List.mem_append.mp ht with ht | ht
      · exact hsized t ht
      · obtain rfl := List.mem_singleton.mp ht
        exact htables jtbl (by simp)

theorem resolveGot_lwVram {rom : List (BitVec 8)} {sect : Section} {func : Function}
    {got : BitVec 32} {jtbl jtbl' : JumpTable} (h : resolveGot rom sect func got jtbl = some jtbl') :
    jtbl'.lwVram = jtbl.lwVram := by
  unfold resolveGot at h
  split at h
  · cases h
    rfl
  · obtain ⟨gotWord, -, rfl⟩ := Option.map_eq_some_iff.mp h
    rfl

theorem resolveGots_lwVram {rom : List (BitVec 8)} {sect : Section} {func : Function}
    {got : BitVec 32} {tables tables' : List JumpTable} (htables : ∀ t ∈ tables, P t.lwVram)
    (h : tables.mapM (resolveGot rom sect func got) = some tables') :
    ∀ t ∈ tables', P t.lwVram := by
  induction tables generalizing tables' with
  | nil =>
    cases h
    rintro t ⟨⟩
  | cons jtbl rest ih =>
    rw [List.mapM_cons] at h
    obtain ⟨first, hfirst, h⟩ := Option.bind_eq_some_iff.mp h
    obtain ⟨others, hothers, h⟩ := Option.bind_eq_some_iff.mp h
    cases h
    intro t ht
    rcases List.mem_cons.mp ht with rfl | ht
    · rw [resolveGot_lwVram hfirst]
      exact htables jtbl (by simp)
    · exact ih (fun t ht => htables t (by simp [ht])) hothers t ht

/-- The load of a table that the analysis finds is an `lw` of the function. -/
theorem analyzeFunction_lwVram {dec : Decoder} {context : Context} {func : Function}
    {instructions : List InstructionCpu} {tables : List JumpTable}
    (h : analyzeFunction dec context func instructions = .tables tables) :
    ∀ t ∈ tables, ∃ instr ∈ instructions, instr.uniqueId dec = .lw ∧ instr.vram = t.lwVram := by
  unfold analyzeFunction at h
  simp only at h
  split at h
  · cases h
  · rename_i s hscan
    have hs : s.LoadedAt fun v => ∃ instr ∈ instructions, instr.uniqueId dec = .lw ∧
        instr.vram = v := by
      refine scan_loadedAt ⟨fun _ => RegState.loadedAt_invalid, ?_, ?_⟩ ?_ hscan
      · rintro x ⟨⟩
      · rintro x ⟨⟩
      · exact fun instr hinstr hid => ⟨instr, hinstr, hid, rfl⟩
    split at h
    · cases h
    · rename_i found hfound
      refine sizeTables_lwVram (P := fun v => ∃ instr ∈ instructions,
        instr.uniqueId dec = .lw ∧ instr.vram = v) ?_ (by rintro t ⟨⟩) h
      intro t ht
      rw [List.mem_insertionSort] at ht
      split at hfound
      · cases hfound
        exact hs.tables t ht
      · exact resolveGots_lwVram (P := fun v => ∃ instr ∈ instructions,
          instr.uniqueId dec = .lw ∧ instr.vram = v) hs.tables hfound t ht

end Loads

end N64Recomp
