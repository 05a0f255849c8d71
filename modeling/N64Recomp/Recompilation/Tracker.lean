import N64Recomp.Mips.Integer
import N64Recomp.Recompilation.Analysis

/-!
# What the scan for jump tables knows

The scan of a function keeps an abstract value for each register and for each slot of the stack. Over
a straight-line execution the abstract values speak of the concrete ones: an address that is built
from its halves, an address with an index, and the word that was loaded from there. They do so as long
as every step meets the assumptions of the scan.

## Main definitions

* `Executes`, `ScanRun`: an execution beside the scan
* `RegState.Sound`, `ScanState.Sound`: what the abstract values say of the concrete ones
* `KeepsTrack`: the assumptions of the scan on a step
* `JumpTable.Right`: the jump leads to the word that was loaded from the table

## Main results

* `ScanState.Sound.step`: a step that meets the assumptions keeps what the scan knows
* `jumpTables_right`: then the tables of a run are right
-/

namespace N64Recomp

open Mips (word ofWord)

/-! ## Executions -/

section Executions

variable (dec : Decoder) (translate : BitVec 32 → BitVec 32)

/-- The instructions that the scan follows. -/
def InstructionCpu.followed (instr : InstructionCpu) : Option Mips.Instr :=
  match instr.uniqueId dec with
  | .lui => some (.lui instr.rt instr.immediate)
  | .addiu => some (.imm .addiu instr.rt instr.rs instr.immediate)
  | .addu => some (.reg .addu instr.rd instr.rs instr.rt)
  | .daddu => some (.reg .daddu instr.rd instr.rs instr.rt)
  | .or => some (.reg .or instr.rd instr.rs instr.rt)
  | .sw => some (.store .sw instr.rt instr.rs instr.immediate)
  | .lw => some (.load .lw instr.rt instr.rs instr.immediate)
  | _ => none

/-- The calls and the branches that write their return address into `$ra`. -/
def InstrId.links (id : InstrId) : Bool :=
  id = .jal || (conditionalBranchOps id).any (·.link)

/-- The registers that an instruction may write: those that the disassembly library reports, and the
return address. -/
def InstructionCpu.MayWrite (instr : InstructionCpu) (r : Fin 32) : Prop :=
  (instr.modifiesRd dec = true ∧ r = instr.rd) ∨ (instr.modifiesRt dec = true ∧ r = instr.rt) ∨
    ((instr.uniqueId dec).links = true ∧ r = regRa)

/-- A step of a straight-line execution, over memory that is addressed with 32 bits. Of the
instructions that are not followed only the registers that they keep are told; they may change the
memory in any way. -/
def Executes (instr : InstructionCpu) (m m' : Mips.State 32) : Prop :=
  match instr.followed dec with
  | some i => i.step (fun address => translate (word address)) m = .ok ⟨m', false⟩
  | none =>
    if instr.uniqueId dec = .jr then m' = m
    else ∀ r, ¬instr.MayWrite dec r → m'.gpr r = m.gpr r

/-- An instruction and the state that it is executed in. -/
structure Event where
  instr : InstructionCpu
  before : Mips.State 32

/-- The state before the first instruction. -/
def ScanState.start : ScanState := ⟨fun _ => RegState.invalid, [], []⟩

/-- An execution beside the scan of its instructions, where every step satisfies `P`. -/
inductive ScanRun (isGotAddrDefined : Bool)
    (P : InstructionCpu → ScanState → Mips.State 32 → Mips.State 32 → Prop) :
    List Event → ScanState → Mips.State 32 → Prop
  | start (m : Mips.State 32) : ScanRun isGotAddrDefined P [] ScanState.start m
  | step {events : List Event} {instr : InstructionCpu} {s s' : ScanState} {m m' : Mips.State 32} :
      ScanRun isGotAddrDefined P events s m →
      analyzeInstruction dec instr isGotAddrDefined s = some s' → Executes dec translate instr m m' →
      P instr s m m' → ScanRun isGotAddrDefined P (events ++ [⟨instr, m⟩]) s' m'

end Executions

/-! ## What the abstract values say -/

section Sound

variable (dec : Decoder) (translate : BitVec 32 → BitVec 32)

/-- An event of an instruction at an address. -/
structure Event.IsAt (event : Event) (id : InstrId) (vram : BitVec 32) : Prop where
  id_eq : event.instr.uniqueId dec = id
  vram_eq : event.instr.vram = vram

/-- The word at an address. -/
def readWord (m : Mips.State 32) (address : BitVec 32) : BitVec 32 := m.mem.read (translate address) 4

/-- The register of the jump holds the word that the load took from the table, at the index that was
added to its address. -/
def JumpTable.Right (events : List Event) (jtbl : JumpTable) : Prop :=
  ∃ (i j k : Nat) (addu lw jr : Event), i < j ∧ j < k ∧ events[i]? = some addu ∧
    events[j]? = some lw ∧ events[k]? = some jr ∧ addu.IsAt dec .addu jtbl.adduVram ∧
    lw.IsAt dec .lw jtbl.lwVram ∧ jr.IsAt dec .jr jtbl.jrVram ∧
    word (jr.before.gpr jr.instr.rs) =
      readWord translate lw.before (jtbl.vram + word (addu.before.gpr jtbl.addendReg))

/-- What an abstract value says of the value of its register. -/
structure RegState.Sound (events : List Event) (x : RegState) (value : BitVec 64) : Prop where
  addiu : x.validAddiu = false → x.prevAddiuVram = 0
  address : x.validLui = true → x.validAddend = false →
    value = ofWord (x.prevLui + x.prevAddiuVram)
  indexed : x.validLui = true → x.validAddend = true → ∃ (i : Nat) (addu : Event),
    events[i]? = some addu ∧ addu.IsAt dec .addu x.prevAdduVram ∧
    value = ofWord (x.prevLui + x.prevAddiuVram + word (addu.before.gpr x.prevAddendReg))
  loaded : x.validLoaded = true → ∃ (i j : Nat) (addu lw : Event), i < j ∧
    events[i]? = some addu ∧ events[j]? = some lw ∧ addu.IsAt dec .addu x.loadedAdduVram ∧
    lw.IsAt dec .lw x.loadedLwVram ∧ value = ofWord (readWord translate lw.before
      (x.loadedAddress + word (addu.before.gpr x.loadedAddendReg)))
  lui_only : x.validLui = true →
    x.validLoaded = false ∧ x.validGotOffset = false ∧ x.validGotLoaded = false
  loaded_only : x.validLoaded = true → x.validGotOffset = false ∧ x.validGotLoaded = false

/-- An abstract value that says something of a table without a global offset table. -/
def RegState.Tracked (x : RegState) : Prop := x.validLui = true ∨ x.validLoaded = true

/-- The word of a slot of the stack. -/
def slotWord (m : Mips.State 32) (k : Nat) : BitVec 32 :=
  readWord translate m (word (m.gpr regSp) + BitVec.ofNat 32 (4 * k))

/-- What the scan knows. -/
structure ScanState.Sound (events : List Event) (s : ScanState) (m : Mips.State 32) : Prop where
  regs : ∀ r, (s.regs r).Sound dec translate events (m.gpr r)
  stack : ∀ (k : Nat) x, s.stackStates[k]? = some x →
    x.Sound dec translate events (ofWord (slotWord translate m k))
  tables : ∀ jtbl ∈ s.jumpTables, jtbl.gotOffset = none → jtbl.Right dec translate events

end Sound

/-! ## The assumptions -/

section Assumptions

variable (dec : Decoder)

/-- The register that an instruction is computed into, of those that are followed. -/
def InstructionCpu.destination (instr : InstructionCpu) : Option (Fin 32) :=
  match instr.uniqueId dec with
  | .lui | .addiu | .lw => some instr.rt
  | .addu | .daddu | .or => some instr.rd
  | _ => none

/-- The slot of the stack that an instruction accesses. -/
def InstructionCpu.slot (instr : InstructionCpu) : Option Nat :=
  if instr.rs = regSp then stackOffset instr.immediate else none

/-- The abstract values that an instruction is computed from. -/
def ScanState.sources (s : ScanState) (instr : InstructionCpu) : List RegState :=
  match instr.uniqueId dec with
  | .addiu => [s.regs instr.rs]
  | .addu | .daddu | .or => [s.regs instr.rs, s.regs instr.rt]
  | .lw => s.regs instr.rs :: (instr.slot.bind (s.stackStates[·]?)).toList
  | _ => []

/-- The slot of the stack that an instruction stores to. -/
def InstructionCpu.storedSlot (instr : InstructionCpu) : Option Nat :=
  if instr.uniqueId dec = .sw then instr.slot else none

/-- **The assumptions of the scan on a step.** -/
structure KeepsTrack (translate : BitVec 32 → BitVec 32) (instr : InstructionCpu) (s : ScanState)
    (m m' : Mips.State 32) : Prop where
  /-- Nothing that is followed is computed into `$zero`. -/
  zero : instr.destination dec = some 0 →
    instr.uniqueId dec ≠ .lui ∧ ∀ x ∈ s.sources dec instr, ¬x.Tracked
  /-- Nothing is added to a word that was loaded from a table. -/
  addiu : instr.uniqueId dec = .addiu → (s.regs instr.rs).validLoaded = true →
    (s.regs instr.rs).validAddiu = false → instr.immediate = 0
  /-- No other index is added to an address that has one. -/
  addu : instr.uniqueId dec = .addu → ∀ x y,
    (x = s.regs instr.rs ∧ y = s.regs instr.rt) ∨ (x = s.regs instr.rt ∧ y = s.regs instr.rs) →
    x.validLui = true → y.validLui = false → y.validGotOffset = false → x.validAddend = false
  /-- The return address is not written over anything that is followed. -/
  link : (instr.uniqueId dec).links = true → ¬(s.regs regRa).Tracked
  /-- The words stay in the slots of the stack, but for the one that is stored to. -/
  stack : ∀ (k : Nat) x, s.stackStates[k]? = some x → x.Tracked →
    instr.storedSlot dec ≠ some k → slotWord translate m' k = slotWord translate m k

end Assumptions

/-! ## The abstract values after a step -/

section Values

variable {dec : Decoder} {translate : BitVec 32 → BitVec 32} {events : List Event} {e : Event}
  {x y : RegState} {value value' : BitVec 64}

/-- An abstract value without an address and without a loaded word. -/
theorem RegState.Sound.of_nothing (haddiu : x.validAddiu = false → x.prevAddiuVram = 0)
    (hlui : x.validLui = false) (hloaded : x.validLoaded = false) :
    x.Sound dec translate events value where
  addiu := haddiu
  address h := by rw [hlui] at h; cases h
  indexed h := by rw [hlui] at h; cases h
  loaded h := by rw [hloaded] at h; cases h
  lui_only h := by rw [hlui] at h; cases h
  loaded_only h := by rw [hloaded] at h; cases h

theorem RegState.sound_invalid : RegState.invalid.Sound dec translate events value :=
  .of_nothing (fun _ => rfl) rfl rfl

/-- An abstract value that says nothing holds of every value. -/
theorem RegState.Sound.of_not_tracked (h : x.Sound dec translate events value)
    (hx : ¬x.Tracked) : x.Sound dec translate events value' :=
  .of_nothing h.addiu (Bool.eq_false_iff.mpr fun hlui => hx (Or.inl hlui))
    (Bool.eq_false_iff.mpr fun hloaded => hx (Or.inr hloaded))

/-- What is said of the events before holds after a further one. -/
theorem getElem?_append_event {i : Nat} {event : Event} (h : events[i]? = some event) :
    (events ++ [e])[i]? = some event := by
  rw [List.getElem?_append_left (List.getElem?_eq_some_iff.mp h).1, h]

theorem RegState.Sound.append (h : x.Sound dec translate events value) :
    x.Sound dec translate (events ++ [e]) value where
  addiu := h.addiu
  address := h.address
  indexed hlui haddend := by
    obtain ⟨i, addu, hi, hat, hvalue⟩ := h.indexed hlui haddend
    exact ⟨i, addu, getElem?_append_event hi, hat, hvalue⟩
  loaded hloaded := by
    obtain ⟨i, j, addu, lw, hij, hi, hj, hrest⟩ := h.loaded hloaded
    exact ⟨i, j, addu, lw, hij, getElem?_append_event hi, getElem?_append_event hj, hrest⟩
  lui_only := h.lui_only
  loaded_only := h.loaded_only

/-- A value that is tracked is a word. -/
theorem RegState.Sound.ofWord_word (h : x.Sound dec translate events value) (hx : x.Tracked) :
    ofWord (word value) = value := by
  rcases hx with hlui | hloaded
  · cases haddend : x.validAddend with
    | false => rw [h.address hlui haddend, Mips.word_ofWord]
    | true =>
      obtain ⟨i, addu, -, -, hvalue⟩ := h.indexed hlui haddend
      rw [hvalue, Mips.word_ofWord]
  · obtain ⟨i, j, addu, lw, -, -, -, -, -, hvalue⟩ := h.loaded hloaded
    rw [hvalue, Mips.word_ofWord]

/-- A word that is copied keeps what is known of it. -/
theorem RegState.Sound.copyWord (h : x.Sound dec translate events value) :
    x.Sound dec translate events (ofWord (word value)) := by
  by_cases hx : x.Tracked
  · rw [h.ofWord_word hx]
    exact h
  · exact h.of_not_tracked hx

theorem word_signExtend (imm : BitVec 16) : word (imm.signExtend 64) = immS32 imm := by
  unfold immS32
  apply BitVec.eq_of_getLsbD_eq
  intro j hj
  simp [-BitVec.getLsbD_eq_getElem, BitVec.getLsbD_signExtend, hj, show j < 64 by omega]

/-- `lui` -/
theorem sound_lui (imm : BitVec 16) :
    RegState.Sound dec translate events
      { RegState.invalid with prevLui := immS32 imm <<< 16, validLui := true }
      (ofWord (imm.setWidth 32 <<< 16)) where
  addiu _ := rfl
  address _ _ := by
    have hhigh : immS32 imm <<< 16 = imm.setWidth 32 <<< 16 := by
      unfold immS32
      apply BitVec.eq_of_getLsbD_eq
      intro j hj
      simp only [BitVec.getLsbD_shiftLeft, BitVec.getLsbD_signExtend, BitVec.getLsbD_setWidth]
      by_cases hlow : j < 16
      · simp [hlow]
      · simp [show j - 16 < 16 by omega, show j - 16 < 32 by omega]
    rw [hhigh]
    simp [RegState.invalid]
  indexed _ h := by cases h
  loaded h := by cases h
  lui_only _ := ⟨rfl, rfl, rfl⟩
  loaded_only h := by cases h

/-- `addiu`, on a register that no other was applied to. -/
theorem RegState.Sound.addImmediate {imm : BitVec 16} (h : x.Sound dec translate events value)
    (hnone : x.validAddiu = false) (hloaded : x.validLoaded = true → imm = 0) :
    RegState.Sound dec translate events
      { x with prevAddiuVram := immS32 imm, validAddiu := true }
      (ofWord (word value + immS32 imm)) where
  addiu h := by cases h
  address hlui haddend := by
    rw [h.address hlui haddend, h.addiu hnone, Mips.word_ofWord, BitVec.ofNat_eq_ofNat,
      BitVec.add_zero]
  indexed hlui haddend := by
    obtain ⟨i, addu, hi, hat, hvalue⟩ := h.indexed hlui haddend
    refine ⟨i, addu, hi, hat, ?_⟩
    rw [hvalue, h.addiu hnone, Mips.word_ofWord, BitVec.ofNat_eq_ofNat, BitVec.add_zero]
    dsimp only
    congr 1
    ac_rfl
  loaded hx := by
    obtain ⟨i, j, addu, lw, hij, hi, hj, haddu, hlw, hvalue⟩ := h.loaded hx
    refine ⟨i, j, addu, lw, hij, hi, hj, haddu, hlw, ?_⟩
    rw [hloaded hx]
    have hzero : immS32 0 = 0 := by decide
    rw [hzero, BitVec.ofNat_eq_ofNat, BitVec.add_zero, h.ofWord_word (Or.inr hx), hvalue]
  lui_only := h.lui_only
  loaded_only := h.loaded_only

/-- An index is added to an address. -/
theorem RegState.Sound.withAddend {m : Mips.State 32} {instr : InstructionCpu} {r : Fin 32}
    (h : x.Sound dec translate events value) (hid : instr.uniqueId dec = .addu)
    (hlui : x.validLui = true) (hnone : x.validAddend = false) :
    (N64Recomp.withAddend x r instr.vram).Sound dec translate (events ++ [⟨instr, m⟩])
      (ofWord (word value + word (m.gpr r))) where
  addiu := h.addiu
  address _ haddend := by cases haddend
  indexed _ _ := by
    refine ⟨events.length, ⟨instr, m⟩, List.getElem?_concat_length, ⟨hid, rfl⟩, ?_⟩
    rw [h.address hlui hnone, Mips.word_ofWord]
    rfl
  loaded hx := by
    have hfalse := (h.lui_only hlui).1
    have hx' : x.validLoaded = true := hx
    rw [hfalse] at hx'
    cases hx'
  lui_only := h.lui_only
  loaded_only := h.loaded_only

/-- A value that says nothing of the tables says nothing with an index, either. -/
theorem RegState.Sound.withAddend_of_not_tracked {r : Fin 32} {vram : BitVec 32}
    (h : x.Sound dec translate events value) (hx : ¬x.Tracked) :
    (N64Recomp.withAddend x r vram).Sound dec translate (events ++ [e]) value' :=
  .of_nothing h.addiu (Bool.eq_false_iff.mpr fun hlui => hx (Or.inl hlui))
    (Bool.eq_false_iff.mpr fun hloaded => hx (Or.inr hloaded))

/-- A load through a register other than the stack pointer. -/
theorem RegState.Sound.load {m : Mips.State 32} {instr : InstructionCpu} {base : Fin 32}
    {imm : BitVec 16} {got : Bool} (h : x.Sound dec translate events value)
    (hid : instr.uniqueId dec = .lw) :
    (loadState x base imm instr.vram got).Sound dec translate (events ++ [⟨instr, m⟩])
      (ofWord (readWord translate m (word (value + imm.signExtend 64)))) := by
  have hword : word (value + imm.signExtend 64) = word value + immS32 imm := by
    rw [word, BitVec.setWidth_add _ _ (by decide), ← word_signExtend]
  unfold loadState
  by_cases haddress : x.validLui = true ∧ x.validAddend = true
  · rw [if_pos haddress]
    obtain ⟨hlui, haddend⟩ := haddress
    by_cases himm : imm ≠ 0 ∧ x.validAddiu = true
    · rw [if_pos himm]
      exact RegState.sound_invalid
    · rw [if_neg himm]
      refine ⟨fun _ => rfl, (absurd · Bool.false_ne_true), (absurd · Bool.false_ne_true),
        fun _ => ?_, (absurd · Bool.false_ne_true), fun _ => ⟨rfl, rfl⟩⟩
      obtain ⟨i, addu, hi, hat, hvalue⟩ := h.indexed hlui haddend
      refine ⟨i, events.length, addu, ⟨instr, m⟩, (List.getElem?_eq_some_iff.mp hi).1,
        getElem?_append_event hi, List.getElem?_concat_length, hat, ⟨hid, rfl⟩, ?_⟩
      -- one of the two halves of the table's offset is zero
      have hoffset : x.prevAddiuVram + immS32 imm =
          if imm ≠ 0 then immS32 imm else x.prevAddiuVram := by
        by_cases hzero : imm = 0
        · have himmediate : immS32 0 = 0 := by decide
          rw [if_neg (by simp [hzero]), hzero, himmediate, BitVec.ofNat_eq_ofNat, BitVec.add_zero]
        · have hnone : x.validAddiu = false :=
            Bool.eq_false_iff.mpr fun haddiu => himm ⟨hzero, haddiu⟩
          rw [if_pos hzero, h.addiu hnone, BitVec.ofNat_eq_ofNat, BitVec.zero_add]
      dsimp only
      rw [hword, hvalue, Mips.word_ofWord, ← hoffset]
      congr 2
      ac_rfl
  · rw [if_neg haddress]
    split_ifs
    · exact .of_nothing (fun _ => rfl) rfl rfl
    · exact .of_nothing (fun _ => rfl) rfl rfl
    · exact RegState.sound_invalid

end Values

/-! ## Steps -/

section Steps

variable {dec : Decoder} {translate : BitVec 32 → BitVec 32} {events : List Event} {e : Event}
  {s s' : ScanState} {m m' : Mips.State 32} {instr : InstructionCpu} {got : Bool}

/-- A register and its abstract value are written; a write to `$zero` is lost. -/
theorem sound_setReg {d : Fin 32} {x : RegState} {value : BitVec 64}
    (hregs : ∀ r, (s.regs r).Sound dec translate events (m.gpr r))
    (hx : x.Sound dec translate (events ++ [e]) value) (hzero : d = 0 → ¬x.Tracked) (r : Fin 32) :
    ((s.setReg d x).regs r).Sound dec translate (events ++ [e]) ((m.setReg d value).gpr r) := by
  unfold ScanState.setReg Mips.State.setReg
  dsimp only
  by_cases hr : r = d
  · rw [if_pos hr]
    by_cases hd : d = 0
    · exact hx.of_not_tracked (hzero hd)
    · rw [if_pos ⟨hr, hd⟩]
      exact hx
  · rw [if_neg hr, if_neg (fun h => hr h.1)]
    exact (hregs r).append

/-- The slots of the stack, where the words stay. -/
theorem sound_stack (h : s.Sound dec translate events m)
    (hstay : ∀ (k : Nat) x, s.stackStates[k]? = some x → x.Tracked →
      slotWord translate m' k = slotWord translate m k) (k : Nat) (x : RegState)
    (hx : s.stackStates[k]? = some x) :
    x.Sound dec translate (events ++ [e]) (ofWord (slotWord translate m' k)) := by
  by_cases htracked : x.Tracked
  · rw [hstay k x hx htracked]
    exact (h.stack k x hx).append
  · exact ((h.stack k x hx).of_not_tracked htracked).append

theorem JumpTable.Right.append {jtbl : JumpTable} (h : jtbl.Right dec translate events) :
    jtbl.Right dec translate (events ++ [e]) := by
  obtain ⟨i, j, k, addu, lw, jr, hij, hjk, hi, hj, hk, hrest⟩ := h
  exact ⟨i, j, k, addu, lw, jr, hij, hjk, getElem?_append_event hi, getElem?_append_event hj,
    getElem?_append_event hk, hrest⟩

/-- The tables stay right. -/
theorem sound_tables (h : s.Sound dec translate events m) :
    ∀ jtbl ∈ s.jumpTables, jtbl.gotOffset = none → jtbl.Right dec translate (events ++ [e]) :=
  fun jtbl hjtbl hgot => (h.tables jtbl hjtbl hgot).append

/-- An instruction that computes a register, and whose abstract value is right. -/
theorem sound_compute {d : Fin 32} {x : RegState} {value : BitVec 64}
    (h : s.Sound dec translate events m) (hx : x.Sound dec translate (events ++ [e]) value)
    (hzero : d = 0 → ¬x.Tracked)
    (hstay : ∀ (k : Nat) x, s.stackStates[k]? = some x → x.Tracked →
      slotWord translate (m.setReg d value) k = slotWord translate m k) :
    (s.setReg d x).Sound dec translate (events ++ [e]) (m.setReg d value) :=
  ⟨sound_setReg h.regs hx hzero, fun k x hx => sound_stack h hstay k x hx,
    fun jtbl hjtbl => sound_tables h jtbl hjtbl⟩

/-- The abstract value of a move. -/
theorem checkMove_eq (d rs rt : Fin 32) : checkMove s d rs rt = s.setReg d
    (if rs = 0 then s.regs rt else if rt = 0 then s.regs rs else RegState.invalid) := by
  unfold checkMove
  split_ifs <;> rfl

/-- A move copies a register; with two registers nothing is known of the result. -/
theorem sound_move {rs rt : Fin 32} {value : BitVec 64} (h : s.Sound dec translate events m)
    (hrt : rs = 0 → value = m.gpr rt) (hrs : rt = 0 → value = m.gpr rs) :
    (if rs = 0 then s.regs rt else if rt = 0 then s.regs rs else RegState.invalid).Sound
      dec translate (events ++ [e]) value := by
  split_ifs with hs ht
  · rw [hrt hs]
    exact (h.regs rt).append
  · rw [hrs ht]
    exact (h.regs rs).append
  · exact RegState.sound_invalid

theorem not_tracked_invalid : ¬RegState.invalid.Tracked := by
  rintro (h | h) <;> cases h

/-- The abstract value of a sum. -/
theorem sound_adduState {rs rt : Fin 32} (h : s.Sound dec translate events m)
    (hid : instr.uniqueId dec = .addu)
    (hindex : ∀ x y, (x = s.regs rs ∧ y = s.regs rt) ∨ (x = s.regs rt ∧ y = s.regs rs) →
      x.validLui = true → y.validLui = false → y.validGotOffset = false → x.validAddend = false) :
    (adduState s rs rt instr.vram).Sound dec translate (events ++ [⟨instr, m⟩])
      (ofWord (word (m.gpr rs) + word (m.gpr rt))) := by
  have hgot : ∀ r, (s.regs r).validGotOffset = true → ¬(s.regs r).Tracked := by
    rintro r hr (hlui | hloaded)
    · rw [((h.regs r).lui_only hlui).2.1] at hr
      cases hr
    · rw [((h.regs r).loaded_only hloaded).1] at hr
      cases hr
  have hgotLoaded : ∀ r, (s.regs r).validGotLoaded = true → ¬(s.regs r).Tracked := by
    rintro r hr (hlui | hloaded)
    · rw [((h.regs r).lui_only hlui).2.2] at hr
      cases hr
    · rw [((h.regs r).loaded_only hloaded).2] at hr
      cases hr
  unfold adduState
  split_ifs with hoffset hrs hgp hrs hlui hrs
  · exact (h.regs rs).withAddend_of_not_tracked (hgot rs hrs)
  · refine (h.regs rt).withAddend_of_not_tracked (hgot rt ?_)
    cases hrt : (s.regs rt).validGotOffset
    · rw [hrt] at hoffset
      exact absurd hoffset (by simpa using hrs)
    · rfl
  · exact ((h.regs rs).of_not_tracked (hgotLoaded rs hrs)).append
  · refine ((h.regs rt).of_not_tracked (hgotLoaded rt ?_)).append
    cases hrt : (s.regs rt).validGotLoaded
    · rw [hrt] at hgp
      exact absurd hgp.2 (by simpa using hrs)
    · rfl
  · -- the address is in `rs`
    have hrt : (s.regs rt).validLui = false := by
      rw [hrs] at hlui
      cases hrt : (s.regs rt).validLui with
      | false => rfl
      | true => exact absurd hrt.symm hlui
    have hnone : (s.regs rt).validGotOffset = false := by
      rw [Ne, Classical.not_not] at hoffset
      rw [← hoffset]
      exact ((h.regs rs).lui_only hrs).2.1
    exact (h.regs rs).withAddend hid hrs (hindex _ _ (Or.inl ⟨rfl, rfl⟩) hrs hrt hnone)
  · -- the address is in `rt`
    rw [Bool.not_eq_true] at hrs
    have hrt : (s.regs rt).validLui = true := by
      rw [hrs] at hlui
      cases hrt : (s.regs rt).validLui with
      | true => rfl
      | false => exact absurd hrt.symm hlui
    have hnone : (s.regs rs).validGotOffset = false := by
      rw [Ne, Classical.not_not] at hoffset
      rw [hoffset]
      exact ((h.regs rt).lui_only hrt).2.1
    rw [BitVec.add_comm]
    exact (h.regs rt).withAddend hid hrt (hindex _ _ (Or.inr ⟨rfl, rfl⟩) hrt hrs hnone)
  · exact RegState.sound_invalid

/-- The stack grows by slots of which nothing is known. -/
theorem ScanState.Sound.resize (h : s.Sound dec translate events m) (offset : Nat) :
    (s.resize offset).Sound dec translate events m := by
  refine ⟨h.regs, fun k x hx => ?_, h.tables⟩
  unfold ScanState.resize at hx
  rcases Nat.lt_or_ge k s.stackStates.length with hk | hk
  · rw [List.getElem?_append_left hk] at hx
    exact h.stack k x hx
  · rw [List.getElem?_append_right hk] at hx
    rw [(List.mem_replicate.mp (List.mem_of_getElem? hx)).2]
    exact RegState.sound_invalid

/-- A slot that says something was there before. -/
theorem getElem?_of_resize {offset k : Nat} {x : RegState}
    (hx : (s.resize offset).stackStates[k]? = some x) (htracked : x.Tracked) :
    s.stackStates[k]? = some x := by
  unfold ScanState.resize at hx
  rcases Nat.lt_or_ge k s.stackStates.length with hk | hk
  · rwa [List.getElem?_append_left hk] at hx
  · rw [List.getElem?_append_right hk] at hx
    rw [(List.mem_replicate.mp (List.mem_of_getElem? hx)).2] at htracked
    exact absurd htracked not_tracked_invalid

/-- The address of a slot. -/
theorem word_slot {imm : BitVec 16} {offset : Nat} (h : stackOffset imm = some offset)
    (m : Mips.State 32) : word (m.gpr regSp + imm.signExtend 64) =
      word (m.gpr regSp) + BitVec.ofNat 32 (4 * offset) := by
  unfold stackOffset at h
  split at h
  · cases h
  rename_i haligned
  split at h
  · cases h
  rename_i hnegative
  obtain rfl := Option.some.inj h
  have hlow : imm.toNat % 4 = 0 := by
    have heq := congrArg BitVec.toNat (Classical.not_not.mp haligned)
    rw [BitVec.toNat_and] at heq
    have hand : imm.toNat &&& 3 = imm.toNat % 4 := Nat.and_two_pow_sub_one_eq_mod imm.toNat 2
    exact hand.symm.trans heq
  have hsign : imm.msb = false := by
    rw [BitVec.msb_eq_toInt]
    simpa [BitVec.slt] using hnegative
  have himm : imm.signExtend 64 = imm.setWidth 64 := BitVec.signExtend_eq_setWidth_of_msb_false hsign
  rw [word, BitVec.setWidth_add _ _ (by decide), himm]
  congr 1
  apply BitVec.eq_of_toNat_eq
  have hlt := imm.isLt
  rw [BitVec.toNat_setWidth, BitVec.toNat_setWidth, BitVec.toNat_ofNat]
  omega

/-! ### The instructions that are followed -/

theorem executes_followed {i : Mips.Instr} (hf : instr.followed dec = some i)
    (h : Executes dec translate instr m m') :
    i.step (fun address => translate (word address)) m = .ok ⟨m', false⟩ := by
  unfold Executes at h
  rw [hf] at h
  exact h

/-- The slots keep their words in a step that stores to none of them. -/
theorem KeepsTrack.stay (h : KeepsTrack dec translate instr s m m')
    (hslot : instr.storedSlot dec = none) (k : Nat) (x : RegState)
    (hx : s.stackStates[k]? = some x) (htracked : x.Tracked) :
    slotWord translate m' k = slotWord translate m k :=
  h.stack k x hx htracked (by rw [hslot]; exact fun heq => nomatch heq)

theorem storedSlot_eq_none (h : instr.uniqueId dec ≠ .sw) : instr.storedSlot dec = none := if_neg h

theorem sound_step_lui (hid : instr.uniqueId dec = .lui) (h : s.Sound dec translate events m)
    (hexec : Executes dec translate instr m m') (hkeeps : KeepsTrack dec translate instr s m m') :
    (s.setReg instr.rt
      { RegState.invalid with prevLui := immS32 instr.immediate <<< 16, validLui := true }).Sound
      dec translate (events ++ [⟨instr, m⟩]) m' := by
  have hf : instr.followed dec = some (.lui instr.rt instr.immediate) := by
    unfold InstructionCpu.followed
    rw [hid]
  have hm := executes_followed hf hexec
  obtain rfl := (Mips.Outcome.mk.inj (Except.ok.inj hm)).1
  refine sound_compute h (sound_lui instr.immediate) (fun hzero => ?_)
    (hkeeps.stay (storedSlot_eq_none (by simp [hid])))
  have hdestination : instr.destination dec = some 0 := by
    unfold InstructionCpu.destination
    rw [hid, hzero]
  exact absurd hid (hkeeps.zero hdestination).1

theorem sound_step_addiu (hid : instr.uniqueId dec = .addiu) (h : s.Sound dec translate events m)
    (hexec : Executes dec translate instr m m') (hkeeps : KeepsTrack dec translate instr s m m') :
    (s.setReg instr.rt
      (if !(s.regs instr.rs).validAddiu then
        { s.regs instr.rs with prevAddiuVram := immS32 instr.immediate, validAddiu := true }
      else RegState.invalid)).Sound dec translate (events ++ [⟨instr, m⟩]) m' := by
  have hf : instr.followed dec = some (.imm .addiu instr.rt instr.rs instr.immediate) := by
    unfold InstructionCpu.followed
    rw [hid]
  have hm := executes_followed hf hexec
  obtain rfl := (Mips.Outcome.mk.inj (Except.ok.inj hm)).1
  have hstay := hkeeps.stay (storedSlot_eq_none (by simp [hid]))
  refine sound_compute h ?_ (fun hzero => ?_) hstay
  · split_ifs with hnone
    · have hvalue := (h.regs instr.rs).addImmediate (by simpa using hnone) fun hloaded =>
        hkeeps.addiu hid hloaded (by simpa using hnone)
      have hword : word (Mips.ImmOp.addiu.extend instr.immediate) = immS32 instr.immediate :=
        word_signExtend instr.immediate
      rw [hword]
      exact hvalue.append
    · exact RegState.sound_invalid
  · have hdestination : instr.destination dec = some 0 := by
      unfold InstructionCpu.destination
      rw [hid, hzero]
    have hsource := (hkeeps.zero hdestination).2 (s.regs instr.rs) (by simp [ScanState.sources, hid])
    split_ifs
    · exact hsource
    · exact not_tracked_invalid

/-- A sum of values that are not tracked is not tracked. -/
theorem not_tracked_adduState {rs rt : Fin 32} {vram : BitVec 32} (hrs : ¬(s.regs rs).Tracked)
    (hrt : ¬(s.regs rt).Tracked) : ¬(adduState s rs rt vram).Tracked := by
  unfold adduState
  split_ifs
  · exact hrs
  · exact hrt
  · exact hrs
  · exact hrt
  · exact hrs
  · exact hrt
  · exact not_tracked_invalid

/-- Neither operand is tracked when the result is written to `$zero`. -/
theorem KeepsTrack.operands (h : KeepsTrack dec translate instr s m m')
    (hid : instr.uniqueId dec ∈ [InstrId.addu, .daddu, .or]) (hzero : instr.rd = 0) :
    ¬(s.regs instr.rs).Tracked ∧ ¬(s.regs instr.rt).Tracked := by
  simp only [List.mem_cons, List.not_mem_nil, or_false] at hid
  have hdestination : instr.destination dec = some 0 := by
    unfold InstructionCpu.destination
    rcases hid with hid | hid | hid <;> rw [hid, hzero]
  have hsources := (h.zero hdestination).2
  have hlist : s.sources dec instr = [s.regs instr.rs, s.regs instr.rt] := by
    unfold ScanState.sources
    rcases hid with hid | hid | hid <;> rw [hid]
  rw [hlist] at hsources
  exact ⟨hsources _ (by simp), hsources _ (by simp)⟩

theorem sound_step_addu (hid : instr.uniqueId dec = .addu) (h : s.Sound dec translate events m)
    (hexec : Executes dec translate instr m m') (hkeeps : KeepsTrack dec translate instr s m m') :
    (s.setReg instr.rd (adduState s instr.rs instr.rt instr.vram)).Sound dec translate
      (events ++ [⟨instr, m⟩]) m' := by
  have hf : instr.followed dec = some (.reg .addu instr.rd instr.rs instr.rt) := by
    unfold InstructionCpu.followed
    rw [hid]
  have hm := executes_followed hf hexec
  obtain rfl := (Mips.Outcome.mk.inj (Except.ok.inj hm)).1
  refine sound_compute h (sound_adduState h hid (hkeeps.addu hid)) (fun hzero => ?_)
    (hkeeps.stay (storedSlot_eq_none (by simp [hid])))
  obtain ⟨hrs, hrt⟩ := hkeeps.operands (by simp [hid]) hzero
  exact not_tracked_adduState hrs hrt

/-- `daddu` and `or`, of which only the moves are followed. -/
theorem sound_step_move {op : Mips.RegOp} (hf : instr.followed dec =
      some (.reg op instr.rd instr.rs instr.rt)) {value : BitVec 64}
    (hop : op.eval (m.gpr instr.rs) (m.gpr instr.rt) = .ok value)
    (hrt : instr.rs = 0 → value = m.gpr instr.rt) (hrs : instr.rt = 0 → value = m.gpr instr.rs)
    (hid : instr.uniqueId dec ∈ [InstrId.addu, .daddu, .or]) (hsw : instr.uniqueId dec ≠ .sw)
    (h : s.Sound dec translate events m) (hexec : Executes dec translate instr m m')
    (hkeeps : KeepsTrack dec translate instr s m m') :
    (checkMove s instr.rd instr.rs instr.rt).Sound dec translate (events ++ [⟨instr, m⟩]) m' := by
  have hm := executes_followed hf hexec
  simp only [Mips.Instr.step, hop] at hm
  obtain rfl := (Mips.Outcome.mk.inj (Except.ok.inj hm)).1
  rw [checkMove_eq]
  refine sound_compute h (sound_move h hrt hrs) (fun hzero => ?_)
    (hkeeps.stay (storedSlot_eq_none hsw))
  obtain ⟨hnrs, hnrt⟩ := hkeeps.operands hid hzero
  split_ifs
  · exact hnrt
  · exact hnrs
  · exact not_tracked_invalid

/-- A store to a slot of the stack, or elsewhere. -/
theorem sound_step_sw (hid : instr.uniqueId dec = .sw) (h : s.Sound dec translate events m)
    (hscan : analyzeInstruction dec instr got s = some s')
    (hexec : Executes dec translate instr m m') (hkeeps : KeepsTrack dec translate instr s m m') :
    s'.Sound dec translate (events ++ [⟨instr, m⟩]) m' := by
  have hf : instr.followed dec = some (.store .sw instr.rt instr.rs instr.immediate) := by
    unfold InstructionCpu.followed
    rw [hid]
  have hm := executes_followed hf hexec
  simp only [Mips.Instr.step] at hm
  split at hm
  · cases hm
  obtain rfl := (Mips.Outcome.mk.inj (Except.ok.inj hm)).1
  unfold analyzeInstruction at hscan
  rw [hid] at hscan
  dsimp only at hscan
  split at hscan
  · rename_i hsp
    obtain ⟨offset, hoffset, rfl⟩ := Option.map_eq_some_iff.mp hscan
    have hslot : instr.storedSlot dec = some offset := by
      unfold InstructionCpu.storedSlot InstructionCpu.slot
      rw [if_pos hid, if_pos hsp, hoffset]
    refine ⟨fun r => (h.regs r).append, fun k x hx => ?_, fun jtbl => sound_tables h jtbl⟩
    dsimp only at hx
    by_cases hk : k = offset
    · -- the slot that is stored to
      subst hk
      rw [List.getElem?_set_self'] at hx
      obtain ⟨_, -, rfl⟩ := Option.map_eq_some_iff.mp hx
      have hword : slotWord translate { m with
          mem := m.mem.write (translate (word (Mips.effectiveAddress m instr.rs instr.immediate))) 4
            (word (m.gpr instr.rt)) } k = word (m.gpr instr.rt) := by
        unfold slotWord readWord Mips.effectiveAddress
        rw [hsp, word_slot hoffset]
        exact Mips.Memory.read_write (by decide) _ _ _
      exact hword ▸ (h.regs instr.rt).append.copyWord
    · rw [List.getElem?_set_ne (fun heq => hk heq.symm)] at hx
      by_cases htracked : x.Tracked
      · have hbefore := getElem?_of_resize hx htracked
        have hother : instr.storedSlot dec ≠ some k := by
          rw [hslot]
          exact fun heq => hk (Option.some.inj heq).symm
        rw [hkeeps.stack k x hbefore htracked hother]
        exact (h.stack k x hbefore).append
      · exact (((h.resize offset).stack k x hx).of_not_tracked htracked).append
  · rename_i hsp
    obtain rfl := Option.some.inj hscan
    have hslot : instr.storedSlot dec = none := by
      unfold InstructionCpu.storedSlot InstructionCpu.slot
      rw [if_pos hid, if_neg hsp]
    exact ⟨fun r => (h.regs r).append, fun k x hx => sound_stack h (hkeeps.stay hslot) k x hx,
      fun jtbl => sound_tables h jtbl⟩

/-- A load from a slot of the stack, or from elsewhere. -/
theorem sound_step_lw (hid : instr.uniqueId dec = .lw) (h : s.Sound dec translate events m)
    (hscan : analyzeInstruction dec instr got s = some s')
    (hexec : Executes dec translate instr m m') (hkeeps : KeepsTrack dec translate instr s m m') :
    s'.Sound dec translate (events ++ [⟨instr, m⟩]) m' := by
  have hf : instr.followed dec = some (.load .lw instr.rt instr.rs instr.immediate) := by
    unfold InstructionCpu.followed
    rw [hid]
  have hm := executes_followed hf hexec
  simp only [Mips.Instr.step] at hm
  split at hm
  · cases hm
  obtain rfl := (Mips.Outcome.mk.inj (Except.ok.inj hm)).1
  have hstay := hkeeps.stay (storedSlot_eq_none (by simp [hid]))
  have hsources : instr.rt = 0 → ∀ x ∈ s.sources dec instr, ¬x.Tracked := by
    intro hzero
    have hdestination : instr.destination dec = some 0 := by
      unfold InstructionCpu.destination
      rw [hid, hzero]
    exact (hkeeps.zero hdestination).2
  have hlist : s.sources dec instr =
      s.regs instr.rs :: (instr.slot.bind (s.stackStates[·]?)).toList := by
    unfold ScanState.sources
    rw [hid]
  rw [hlist] at hsources
  unfold analyzeInstruction at hscan
  rw [hid] at hscan
  dsimp only at hscan
  split at hscan
  · rename_i hsp
    obtain ⟨offset, hoffset, rfl⟩ := Option.map_eq_some_iff.mp hscan
    have hvalue : ofWord (readWord translate m (word (Mips.effectiveAddress m instr.rs
        instr.immediate))) = ofWord (slotWord translate m offset) := by
      unfold slotWord Mips.effectiveAddress
      rw [hsp, word_slot hoffset]
    rw [List.getD_eq_getElem?_getD]
    refine sound_compute (h.resize offset) ?_ (fun hzero htracked => ?_)
      fun k x hx htracked => hstay k x (getElem?_of_resize hx htracked) htracked
    · refine Eq.mpr (congrArg _ hvalue) ?_
      cases hx : (s.resize offset).stackStates[offset]? with
      | none => exact RegState.sound_invalid
      | some x => exact ((h.resize offset).stack offset x hx).append
    · cases hx : (s.resize offset).stackStates[offset]? with
      | none =>
        rw [hx] at htracked
        exact not_tracked_invalid htracked
      | some x =>
        rw [hx] at htracked
        have hbefore := getElem?_of_resize hx htracked
        refine hsources hzero x ?_ htracked
        unfold InstructionCpu.slot
        rw [if_pos hsp, hoffset]
        simp [hbefore]
  · obtain rfl := Option.some.inj hscan
    refine sound_compute h ((h.regs instr.rs).load hid) (fun hzero htracked => ?_) hstay
    have hbase := hsources hzero (s.regs instr.rs) (by simp)
    unfold loadState at htracked
    rw [if_neg fun haddress => hbase (Or.inl haddress.1)] at htracked
    split_ifs at htracked
    · rcases htracked with hlui | hloaded
      · cases hlui
      · cases hloaded
    · rcases htracked with hlui | hloaded
      · cases hlui
      · cases hloaded
    · exact not_tracked_invalid htracked

/-- A jump records a table when its register was loaded from one. -/
theorem sound_step_jr (hid : instr.uniqueId dec = .jr) (h : s.Sound dec translate events m)
    (hscan : analyzeInstruction dec instr got s = some s')
    (hexec : Executes dec translate instr m m') :
    s'.Sound dec translate (events ++ [⟨instr, m⟩]) m' := by
  have hf : instr.followed dec = none := by
    unfold InstructionCpu.followed
    rw [hid]
  unfold Executes at hexec
  rw [hf] at hexec
  dsimp only at hexec
  rw [if_pos hid] at hexec
  subst hexec
  have hsame : s.Sound dec translate (events ++ [⟨instr, m'⟩]) m' :=
    ⟨fun r => (h.regs r).append, fun k x hx => (h.stack k x hx).append, sound_tables h⟩
  unfold analyzeInstruction at hscan
  rw [hid] at hscan
  dsimp only at hscan
  split at hscan
  · obtain rfl := Option.some.inj hscan
    exact hsame
  split at hscan
  · rename_i hloaded
    obtain rfl := Option.some.inj hscan
    refine ⟨hsame.regs, hsame.stack, fun jtbl hjtbl hgot => ?_⟩
    rcases List.mem_append.mp hjtbl with hjtbl | hjtbl
    · exact hsame.tables jtbl hjtbl hgot
    obtain rfl := List.mem_singleton.mp hjtbl
    obtain ⟨i, j, addu, lw, hij, hi, hj, haddu, hlw, hvalue⟩ :=
      (h.regs instr.rs).loaded hloaded
    refine ⟨i, j, events.length, addu, lw, ⟨instr, m'⟩, hij, (List.getElem?_eq_some_iff.mp hj).1,
      getElem?_append_event hi, getElem?_append_event hj, List.getElem?_concat_length, haddu, hlw,
      ⟨hid, rfl⟩, ?_⟩
    dsimp only
    rw [hvalue, Mips.word_ofWord]
  · split at hscan
    · -- a table behind the global offset table
      obtain rfl := Option.some.inj hscan
      refine ⟨hsame.regs, hsame.stack, fun jtbl hjtbl hgot => ?_⟩
      rcases List.mem_append.mp hjtbl with hjtbl | hjtbl
      · exact hsame.tables jtbl hjtbl hgot
      obtain rfl := List.mem_singleton.mp hjtbl
      cases hgot
    · obtain rfl := Option.some.inj hscan
      exact hsame

/-- Any other instruction: what it may write is forgotten. -/
theorem sound_step_other (hf : instr.followed dec = none) (hjr : instr.uniqueId dec ≠ .jr)
    (h : s.Sound dec translate events m) (hexec : Executes dec translate instr m m')
    (hkeeps : KeepsTrack dec translate instr s m m') :
    (if instr.modifiesRt dec then
      (if instr.modifiesRd dec then s.setReg instr.rd RegState.invalid else s).setReg instr.rt
        RegState.invalid
    else if instr.modifiesRd dec then s.setReg instr.rd RegState.invalid else s).Sound dec translate
      (events ++ [⟨instr, m⟩]) m' := by
  unfold Executes at hexec
  rw [hf] at hexec
  dsimp only at hexec
  rw [if_neg hjr] at hexec
  have hsw : instr.uniqueId dec ≠ .sw := by
    intro hid
    unfold InstructionCpu.followed at hf
    rw [hid] at hf
    cases hf
  have hstack := fun k x hx =>
    sound_stack (e := ⟨instr, m⟩) h (hkeeps.stay (storedSlot_eq_none hsw)) k x hx
  -- a register that is not forgotten keeps its value, unless it is the return address
  have hkept : ∀ r, ¬(instr.modifiesRd dec = true ∧ r = instr.rd) →
      ¬(instr.modifiesRt dec = true ∧ r = instr.rt) →
      (s.regs r).Sound dec translate (events ++ [⟨instr, m⟩]) (m'.gpr r) := by
    intro r hrd hrt
    by_cases hlink : (instr.uniqueId dec).links = true ∧ r = regRa
    · obtain ⟨hlinks, rfl⟩ := hlink
      exact ((h.regs regRa).of_not_tracked (hkeeps.link hlinks)).append
    · rw [hexec r fun hwrite => hwrite.elim hrd fun hwrite => hwrite.elim hrt hlink]
      exact (h.regs r).append
  have htables := sound_tables (e := ⟨instr, m⟩) h
  split_ifs with hrt hrd hrd
  · refine ⟨fun r => ?_, hstack, htables⟩
    unfold ScanState.setReg
    dsimp only
    split_ifs with hr hr'
    · exact RegState.sound_invalid
    · exact RegState.sound_invalid
    · exact hkept r (fun h => hr' h.2) fun h => hr h.2
  · refine ⟨fun r => ?_, hstack, htables⟩
    unfold ScanState.setReg
    dsimp only
    split_ifs with hr
    · exact RegState.sound_invalid
    · exact hkept r (fun h => hrd h.1) fun h => hr h.2
  · refine ⟨fun r => ?_, hstack, htables⟩
    unfold ScanState.setReg
    dsimp only
    split_ifs with hr
    · exact RegState.sound_invalid
    · exact hkept r (fun h => hr h.2) fun h => hrt h.1
  · exact ⟨fun r => hkept r (fun h => hrd h.1) fun h => hrt h.1, hstack, htables⟩

/-- **A step that meets the assumptions of the scan** keeps what the scan knows. -/
theorem ScanState.Sound.step (h : s.Sound dec translate events m)
    (hscan : analyzeInstruction dec instr got s = some s')
    (hexec : Executes dec translate instr m m') (hkeeps : KeepsTrack dec translate instr s m m') :
    s'.Sound dec translate (events ++ [⟨instr, m⟩]) m' := by
  have hwhole := hscan
  unfold analyzeInstruction at hscan
  dsimp only at hscan
  split at hscan
  case h_1 hid =>
    obtain rfl := Option.some.inj hscan
    exact sound_step_lui hid h hexec hkeeps
  case h_2 hid =>
    have hstep := sound_step_addiu hid h hexec hkeeps
    split at hscan
    · rename_i hnone
      obtain rfl := Option.some.inj hscan
      rwa [if_pos hnone] at hstep
    · rename_i hnone
      obtain rfl := Option.some.inj hscan
      rwa [if_neg hnone] at hstep
  case h_3 hid =>
    obtain rfl := Option.some.inj hscan
    exact sound_step_addu hid h hexec hkeeps
  case h_4 hid =>
    obtain rfl := Option.some.inj hscan
    have hf : instr.followed dec = some (.reg .daddu instr.rd instr.rs instr.rt) := by
      unfold InstructionCpu.followed
      rw [hid]
    refine sound_step_move hf rfl (fun hzero => ?_) (fun hzero => ?_) (by simp [hid])
      (by simp [hid]) h hexec hkeeps
    · rw [hzero, m.gpr_zero, BitVec.ofNat_eq_ofNat, BitVec.zero_add]
    · rw [hzero, m.gpr_zero, BitVec.ofNat_eq_ofNat, BitVec.add_zero]
  case h_5 hid =>
    obtain rfl := Option.some.inj hscan
    have hf : instr.followed dec = some (.reg .or instr.rd instr.rs instr.rt) := by
      unfold InstructionCpu.followed
      rw [hid]
    refine sound_step_move hf rfl (fun hzero => ?_) (fun hzero => ?_) (by simp [hid])
      (by simp [hid]) h hexec hkeeps
    · rw [hzero, m.gpr_zero, BitVec.ofNat_eq_ofNat, BitVec.zero_or]
    · rw [hzero, m.gpr_zero, BitVec.ofNat_eq_ofNat, BitVec.or_zero]
  case h_6 hid => exact sound_step_sw hid h hwhole hexec hkeeps
  case h_7 hid => exact sound_step_lw hid h hwhole hexec hkeeps
  case h_8 hid => exact sound_step_jr hid h hwhole hexec
  case h_9 hlui haddiu haddu hdaddu hor hsw hlw hjr =>
    obtain rfl := Option.some.inj hscan
    refine sound_step_other ?_ hjr h hexec hkeeps
    unfold InstructionCpu.followed
    split
    · exact absurd ‹_› hlui
    · exact absurd ‹_› haddiu
    · exact absurd ‹_› haddu
    · exact absurd ‹_› hdaddu
    · exact absurd ‹_› hor
    · exact absurd ‹_› hsw
    · exact absurd ‹_› hlw
    · rfl

/-- What the scan knows over a run whose steps meet its assumptions. -/
theorem ScanRun.sound (h : ScanRun dec translate got (KeepsTrack dec translate) events s m) :
    s.Sound dec translate events m := by
  induction h with
  | start m =>
    refine ⟨fun r => RegState.sound_invalid, fun k x hx => ?_, fun jtbl hjtbl => ?_⟩
    · cases hx
    · cases hjtbl
  | step _ hscan hexec hkeeps ih => exact ih.step hscan hexec hkeeps

/-- **The tables of a run whose steps meet the assumptions of the scan** are right. -/
theorem jumpTables_right
    (h : ScanRun dec translate got (KeepsTrack dec translate) events s m) :
    ∀ jtbl ∈ s.jumpTables, jtbl.gotOffset = none → jtbl.Right dec translate events :=
  h.sound.tables

end Steps

/-! ### Two runs -/

section Runs

/-- A step of a followed instruction, without a stack. -/
theorem keepsTrack_of_noStack {dec : Decoder} {translate : BitVec 32 → BitVec 32}
    {instr : InstructionCpu} {s : ScanState} {m m' : Mips.State 32}
    (hdestination : instr.destination dec ≠ some 0) (haddiu : instr.uniqueId dec ≠ .addiu)
    (hlinks : (instr.uniqueId dec).links = false) (hstack : s.stackStates = [])
    (haddu : instr.uniqueId dec = .addu →
      (s.regs instr.rs).validAddend = false ∧ (s.regs instr.rt).validAddend = false) :
    KeepsTrack dec translate instr s m m' where
  zero h := absurd h hdestination
  addiu h := absurd h haddiu
  addu hid x y hxy _ _ _ := by
    rcases hxy with ⟨rfl, -⟩ | ⟨rfl, -⟩
    · exact (haddu hid).1
    · exact (haddu hid).2
  link h := by
    rw [hlinks] at h
    cases h
  stack k x hx := by
    rw [hstack] at hx
    cases hx

theorem executes_of_followed {dec : Decoder} {translate : BitVec 32 → BitVec 32}
    {instr : InstructionCpu} {m m' : Mips.State 32} {i : Mips.Instr}
    (hf : instr.followed dec = some i)
    (h : i.step (fun address => translate (word address)) m = .ok ⟨m', false⟩) :
    Executes dec translate instr m m' := by
  unfold Executes
  rw [hf]
  exact h

theorem executes_jr {dec : Decoder} {translate : BitVec 32 → BitVec 32} {instr : InstructionCpu}
    (m : Mips.State 32) (hid : instr.uniqueId dec = .jr) : Executes dec translate instr m m := by
  have hf : instr.followed dec = none := by
    unfold InstructionCpu.followed
    rw [hid]
  unfold Executes
  rw [hf]
  exact if_pos hid ▸ rfl

/-- The index 4 in `$t1`, and one word in the memory. -/
def indexState : Mips.State 32 where
  gpr r := if r = 9 then 4 else 0
  gpr_zero := rfl
  hi := 0
  lo := 0
  fpCondition := false
  mem address := if address = 0x80100007 then 1 else 0

def luiT0 : InstructionCpu := ⟨0x3C088010, 0x80001000⟩
def adduT1 : InstructionCpu := ⟨0x01094021, 0x80001004⟩
def adduT2 : InstructionCpu := ⟨0x010A4021, 0x80001008⟩
def lwT0 : InstructionCpu := ⟨0x8D080000, 0x8000100C⟩
def jrT0 : InstructionCpu := ⟨0x01000008, 0x80001010⟩

/-- A table at `0x80100000` with the index in `$t1`. -/
theorem tableRun_right : ∃ events s m, s.jumpTables.length = 1 ∧
    ScanRun (Decoder.ofId sampleId) id false (KeepsTrack (Decoder.ofId sampleId) id) events s m ∧
    ∀ jtbl ∈ s.jumpTables, jtbl.gotOffset = none →
      jtbl.Right (Decoder.ofId sampleId) id events := by
  have hstart : ScanRun (Decoder.ofId sampleId) id false (KeepsTrack (Decoder.ofId sampleId) id)
      [] ScanState.start indexState := .start indexState
  have hlui := hstart.step
    (rfl : analyzeInstruction (Decoder.ofId sampleId) luiT0 false _ = some _)
    (executes_of_followed rfl rfl)
    (keepsTrack_of_noStack (by decide) (by decide) rfl rfl (by decide))
  have haddu := hlui.step
    (rfl : analyzeInstruction (Decoder.ofId sampleId) adduT1 false _ = some _)
    (executes_of_followed rfl rfl)
    (keepsTrack_of_noStack (by decide) (by decide) rfl rfl fun _ => ⟨rfl, rfl⟩)
  have hlw := haddu.step
    (rfl : analyzeInstruction (Decoder.ofId sampleId) lwT0 false _ = some _)
    (executes_of_followed rfl rfl)
    (keepsTrack_of_noStack (by decide) (by decide) rfl rfl (by decide))
  have hjr := hlw.step
    (rfl : analyzeInstruction (Decoder.ofId sampleId) jrT0 false _ = some _)
    (executes_jr _ rfl)
    (keepsTrack_of_noStack (by decide) (by decide) rfl rfl (by decide))
  exact ⟨_, _, _, rfl, hjr, jumpTables_right hjr⟩

/-- The index in `$t1` is forgotten when `$t2` is added, too: the jump is taken for one to the first
entry of the table. -/
theorem tableRun_not_right : ∃ events s m,
    ScanRun (Decoder.ofId sampleId) id false (fun _ _ _ _ => True) events s m ∧
    ∃ jtbl ∈ s.jumpTables, jtbl.gotOffset = none ∧
      ¬jtbl.Right (Decoder.ofId sampleId) id events := by
  have hstart : ScanRun (Decoder.ofId sampleId) id false (fun _ _ _ _ => True)
      [] ScanState.start indexState := .start indexState
  have hlui := hstart.step
    (rfl : analyzeInstruction (Decoder.ofId sampleId) luiT0 false _ = some _)
    (executes_of_followed rfl rfl) trivial
  have hindex := hlui.step
    (rfl : analyzeInstruction (Decoder.ofId sampleId) adduT1 false _ = some _)
    (executes_of_followed rfl rfl) trivial
  have haddu := hindex.step
    (rfl : analyzeInstruction (Decoder.ofId sampleId) adduT2 false _ = some _)
    (executes_of_followed rfl rfl) trivial
  have hlw := haddu.step
    (rfl : analyzeInstruction (Decoder.ofId sampleId) lwT0 false _ = some _)
    (executes_of_followed rfl rfl) trivial
  have hjr := hlw.step
    (rfl : analyzeInstruction (Decoder.ofId sampleId) jrT0 false _ = some _)
    (executes_jr _ rfl) trivial
  refine ⟨_, _, _, hjr, _, List.mem_singleton_self _, rfl, ?_⟩
  rintro ⟨i, j, k, addu, lw, jr, -, -, hi, hj, hk, haddu, hlw, hjr, hvalue⟩
  -- the events are found by their addresses
  have hi' : addu.instr.vram = adduT2.vram := haddu.vram_eq
  have hj' : lw.instr.vram = lwT0.vram := hlw.vram_eq
  have hk' : jr.instr.vram = jrT0.vram := hjr.vram_eq
  replace hi := List.mem_of_getElem? hi
  replace hj := List.mem_of_getElem? hj
  replace hk := List.mem_of_getElem? hk
  simp only [List.nil_append, List.cons_append, List.mem_cons, List.not_mem_nil, or_false] at hi hj hk
  rcases hi with rfl | rfl | rfl | rfl | rfl
  · exact absurd hi' (by decide)
  · exact absurd hi' (by decide)
  · rcases hj with rfl | rfl | rfl | rfl | rfl
    · exact absurd hj' (by decide)
    · exact absurd hj' (by decide)
    · exact absurd hj' (by decide)
    · rcases hk with rfl | rfl | rfl | rfl | rfl
      · exact absurd hk' (by decide)
      · exact absurd hk' (by decide)
      · exact absurd hk' (by decide)
      · exact absurd hk' (by decide)
      · exact absurd hvalue (by decide)
    · exact absurd hj' (by decide)
  · exact absurd hi' (by decide)
  · exact absurd hi' (by decide)

end Runs

end N64Recomp
