import N64Recomp.CLang.Word
import N64Recomp.RSPRecomp.Emit

/-!
# Running the emitted C++

The meaning of the emitted lines over the runtime's context. A block of lines is run from its start:
it ends behind its last line, at a jump, or with the function. A function is run from jump to jump,
each label being defined once.

The macros are those of the runtime, which is not part of the repository: they are taken to be the
32-bit operations and the big-endian accesses to the data memory that they name. The writes to the
coprocessor's registers and the vector operations are parameters.

## Main definitions

* `RspContext`, `Runtime`: the context, and what is not modelled of the runtime
* `Stmt.run`, `exec`: statements, and blocks of lines
* `runFrom`: a function, from some of its lines on

## Main results

* `Balanced.skip`, `Balanced.exec_append`: lines whose blocks are closed, in front of others
* `afterLabel_eq`: lines behind a label
-/

namespace N64Recomp.RSPRecomp

open CLang CVal

/-- The context of a task; `rsp` is the state of the vector unit and of the DMA engine. -/
structure RspContext (ρ : Type) where
  gpr : BitVec 5 → BitVec 32
  jumpTarget : BitVec 32
  dmaMemAddress : BitVec 32
  resumeAddress : BitVec 32
  resumeDelay : Bool
  watchdogCount : Nat
  dmem : BitVec 12 → BitVec 8
  rsp : ρ

/-- The runtime's operations other than those of the scalar unit. -/
structure Runtime (ρ : Type) where
  cop0Write : Str → BitVec 32 → RspContext ρ → RspContext ρ
  vectorOp : BitVec 32 → RspContext ρ → RspContext ρ

/-! ## The data memory -/

section Memory

variable (dmem : BitVec 12 → BitVec 8) (address : BitVec 32)

/-- The byte at a distance from an address. -/
def dmemByte (k : Nat) : BitVec 8 := dmem ((address + BitVec.ofNat 32 k).setWidth 12)

def dmemHalf : BitVec 16 := dmemByte dmem address 0 ++ dmemByte dmem address 1

def dmemWord : BitVec 32 :=
  dmemByte dmem address 0 ++ dmemByte dmem address 1 ++ dmemByte dmem address 2 ++
    dmemByte dmem address 3

/-- The data memory with a byte at a distance from an address. -/
def setDmemByte (k : Nat) (b : BitVec 8) : BitVec 12 → BitVec 8 :=
  Function.update dmem ((address + BitVec.ofNat 32 k).setWidth 12) b

/-- A store of the low bytes of a value. -/
def dmemStore (size : StoreSize) (value : BitVec 32) : BitVec 12 → BitVec 8 :=
  match size with
  | .byte => setDmemByte dmem address 0 (value.extractLsb' 0 8)
  | .half => setDmemByte (setDmemByte dmem address 0 (value.extractLsb' 8 8)) address 1
      (value.extractLsb' 0 8)
  | .word =>
    setDmemByte (setDmemByte (setDmemByte (setDmemByte dmem address 0 (value.extractLsb' 24 8))
      address 1 (value.extractLsb' 16 8)) address 2 (value.extractLsb' 8 8)) address 3
      (value.extractLsb' 0 8)

end Memory

/-! ## Expressions and statements -/

variable {ρ : Type}

/-- The value of a macro; loads take an offset and a base. -/
def Macro.apply (dmem : BitVec 12 → BitVec 8) : Macro → List CVal → Option CVal
  | S32, [a] | RSP_SIGNED, [a] => some (ofSigned (toWord a))
  | U32, [a] => some (ofWord (toWord a))
  | RSP_ADD32, [a, b] => some (ofWord (toWord a + toWord b))
  | RSP_SUB32, [a, b] => some (ofWord (toWord a - toWord b))
  | RSP_MEM_W_LOAD, [a, b] => some (ofWord (dmemWord dmem (toWord a + toWord b)))
  | RSP_MEM_H_LOAD, [a, b] =>
    some (CVal.ofBits .int16 ((dmemHalf dmem (toWord a + toWord b)).setWidth 64))
  | RSP_MEM_HU_LOAD, [a, b] =>
    some (CVal.ofBits .uint16 ((dmemHalf dmem (toWord a + toWord b)).setWidth 64))
  | RSP_MEM_B, [a, b] =>
    some (CVal.ofBits .int8 ((dmemByte dmem (toWord a + toWord b) 0).setWidth 64))
  | RSP_MEM_BU, [a, b] =>
    some (CVal.ofBits .uint8 ((dmemByte dmem (toWord a + toWord b) 0).setWidth 64))
  | _, _ => none

/-- The objects and the macros of a function. -/
def RspContext.env (s : RspContext ρ) : Env Var Macro where
  var
    | .gpr n => some (ofWord (s.gpr n))
    | .jumpTarget => some (ofWord s.jumpTarget)
    | .dmaMemAddress => some (ofWord s.dmaMemAddress)
    | .notALiteral => none
  call := Macro.apply s.dmem

/-- A register of the context. -/
def RspContext.setGpr (s : RspContext ρ) (reg : BitVec 5) (x : BitVec 32) : RspContext ρ :=
  { s with gpr := Function.update s.gpr reg x }

/-- A statement that assigns to an object, and whose literals are literals. -/
def Stmt.isValid : Stmt → Bool
  | assign reg e => reg ≠ 0 && e ≠ .var .notALiteral
  | _ => true

/-- The effect of a statement. -/
def Stmt.run (rt : Runtime ρ) (s : RspContext ρ) : Stmt → Option (RspContext ρ)
  | assign reg e => if reg = 0 then none else (e.eval s.env).map fun v => s.setGpr reg (toWord v)
  | setJumpTarget e => (e.eval s.env).map fun v => { s with jumpTarget := toWord v }
  | store size offset base value =>
    (offset.eval s.env).bind fun o => (base.eval s.env).bind fun b =>
      (value.eval s.env).map fun v =>
        { s with dmem := dmemStore s.dmem (toWord o + toWord b) size (toWord v) }
  | setResume address delay => some { s with resumeAddress := address, resumeDelay := delay }
  | cop0Write action value => (value.eval s.env).map fun v => rt.cop0Write action (toWord v) s
  | vectorOp word => some (rt.vectorOp word s)
  | clearWatchdog => some { s with watchdogCount := 0 }

/-! ## Lines -/

/-- How a block of lines ends. -/
inductive Outcome (ρ : Type)
  | next (s : RspContext ρ)
  | goto (l : Label) (s : RspContext ρ)
  | exit (reason : RspExitReason) (s : RspContext ρ)

def watchdogLimit : Nat := 100000000

/-- The address that the switch on the jump target looks at. -/
def imemAddress (x : BitVec 32) : BitVec 32 := (x ||| 0x1000) &&& rspMemMask

/-- A block of lines, from its start or while so many blocks inside of it are left out. -/
def exec (rt : Runtime ρ) : Nat → List Line → RspContext ρ → Option (Outcome ρ)
  | _, [], s => some (.next s)
  | skip + 1, line :: rest, s =>
    match line with
    | .openIf _ => exec rt (skip + 2) rest s
    | .close => exec rt skip rest s
    | _ => exec rt (skip + 1) rest s
  | 0, line :: rest, s =>
    match line with
    | .label _ | .close => exec rt 0 rest s
    | .watchdog _ =>
      if watchdogLimit < s.watchdogCount + 1 then
        some (.exit .watchdog { s with watchdogCount := s.watchdogCount + 1 })
      else exec rt 0 rest { s with watchdogCount := s.watchdogCount + 1 }
    | .stmt st => (st.run rt s).bind (exec rt 0 rest)
    | .openIf c =>
      (c.eval s.env).bind fun v => if v.truthy then exec rt 0 rest s else exec rt 1 rest s
    | .goto l => some (.goto l s)
    | .ret reason => some (.exit reason s)
    | .resumeSwitch delay nonDelay =>
      if s.resumeDelay then
        if s.resumeAddress ∈ delay then some (.goto (.resumeDelay s.resumeAddress) s)
        else exec rt 0 rest s
      else if s.resumeAddress ∈ nonDelay then some (.goto (.resume s.resumeAddress) s)
      else exec rt 0 rest s
    | .jumpSwitch targets =>
      if imemAddress s.jumpTarget ∈ targets then
        some (.goto (.code (imemAddress s.jumpTarget)) s)
      else exec rt 0 rest s

/-- The lines behind a label, which is defined once. -/
def afterLabel (lines : List Line) (l : Label) : Option (List Line) :=
  if lines.count (.label l) = 1 then some (lines.drop (lines.idxOf (.label l) + 1)) else none

/-- What follows when a block of lines is run to its end. -/
def Outcome.andThen (f : RspContext ρ → Option (Outcome ρ)) : Outcome ρ → Option (Outcome ρ)
  | next s => f s
  | goto l s => some (.goto l s)
  | exit reason s => some (.exit reason s)

/-- A line that opens or closes a block. -/
def Line.isBrace : Line → Bool
  | openIf _ | close => true
  | _ => false

/-- Lines whose blocks are all closed. -/
inductive Balanced : List Line → Prop
  | nil : Balanced []
  | line {l : Line} {rest : List Line} : l.isBrace = false → Balanced rest → Balanced (l :: rest)
  | block {c : RspExpr} {inner rest : List Line} : Balanced inner → Balanced rest →
      Balanced (.openIf c :: inner ++ .close :: rest)

namespace Balanced

variable {lines lines' : List Line} {rt : Runtime ρ}

theorem append (h : Balanced lines) (h' : Balanced lines') : Balanced (lines ++ lines') := by
  induction h with
  | nil => exact h'
  | line hl _ ih => exact line hl ih
  | @block c inner rest hinner _ _ ih =>
    rw [List.cons_append, List.cons_append, List.append_assoc, List.cons_append]
    exact block hinner ih

theorem of_lines (h : ∀ l ∈ lines, l.isBrace = false) : Balanced lines := by
  induction lines with
  | nil => exact nil
  | cons l lines ih =>
    exact line (h l List.mem_cons_self) (ih fun x hx => h x (List.mem_cons_of_mem l hx))

/-- Closed lines in a block that is left out are left out with it. -/
theorem skip (h : Balanced lines) (n : Nat) (tail : List Line) (s : RspContext ρ) :
    exec rt (n + 1) (lines ++ tail) s = exec rt (n + 1) tail s := by
  induction h generalizing n tail with
  | nil => rfl
  | @line l rest hl _ ih =>
    have hskip : exec rt (n + 1) (l :: (rest ++ tail)) s = exec rt (n + 1) (rest ++ tail) s := by
      cases l with
      | openIf c => cases hl
      | close => cases hl
      | _ => rfl
    rw [List.cons_append, hskip, ih]
  | @block c inner rest _ _ ihinner ihrest =>
    rw [List.cons_append, List.cons_append, List.append_assoc, List.cons_append, exec, ihinner,
      exec, ihrest]

/-- Closed lines run in front of others. -/
theorem exec_append (h : Balanced lines) (tail : List Line) (s : RspContext ρ) :
    exec rt 0 (lines ++ tail) s = (exec rt 0 lines s).bind (Outcome.andThen (exec rt 0 tail)) := by
  induction h generalizing tail s with
  | nil => rfl
  | @line l rest hl _ ih =>
    rw [List.cons_append]
    cases l with
    | openIf c => cases hl
    | close => cases hl
    | label l => exact ih tail s
    | watchdog pc =>
      rw [exec, exec]
      split
      · rfl
      · exact ih tail _
    | stmt st =>
      rw [exec, exec]
      cases st.run rt s with
      | none => rfl
      | some s' => exact ih tail s'
    | goto l => rfl
    | ret reason => rfl
    | resumeSwitch delay nonDelay =>
      rw [exec, exec]
      split
      · split
        · rfl
        · exact ih tail s
      · split
        · rfl
        · exact ih tail s
    | jumpSwitch targets =>
      rw [exec, exec]
      split
      · rfl
      · exact ih tail s
  | @block c inner rest hinner _ ihinner ihrest =>
    rw [List.cons_append, List.cons_append, List.append_assoc, List.cons_append, exec, exec]
    cases c.eval s.env with
    | none => rfl
    | some v =>
      rw [Option.bind_some, Option.bind_some]
      split
      · rw [ihinner, ihinner]
        cases exec rt 0 inner s with
        | none => rfl
        | some outcome =>
          cases outcome with
          | next s' => exact ihrest tail s'
          | goto l s' => rfl
          | exit reason s' => rfl
      · -- the block is left out
        rw [hinner.skip, hinner.skip, exec, exec]
        exact ihrest tail s

end Balanced

/-- A function from some of its lines on, for a number of jumps. -/
def runFrom (rt : Runtime ρ) (lines : List Line) :
    Nat → List Line → RspContext ρ → Option (RspExitReason × RspContext ρ)
  | jumps, code, s =>
    match exec rt 0 code s with
    | some (.exit reason s') => some (reason, s')
    | some (.goto l s') =>
      match jumps with
      | 0 => none
      | jumps + 1 => (afterLabel lines l).bind fun code => runFrom rt lines jumps code s'
    | _ => none

/-- Lines behind one that is defined once are found by its label. -/
theorem afterLabel_eq {lines before after : List Line} {l : Label}
    (hlines : lines = before ++ .label l :: after) (honce : lines.count (.label l) = 1) :
    afterLabel lines l = some after := by
  have hnot : .label l ∉ before := by
    intro hmem
    have hpos := List.count_pos_iff.mpr hmem
    rw [hlines, List.count_append, List.count_cons_self] at honce
    omega
  rw [afterLabel, if_pos honce, hlines, List.idxOf_append_of_notMem hnot, List.idxOf_cons_self,
    Nat.add_zero, List.drop_append, List.drop_of_length_le (Nat.le_succ _),
    Nat.add_sub_cancel_left]
  rfl

end N64Recomp.RSPRecomp
