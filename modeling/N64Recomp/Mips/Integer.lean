import N64Recomp.Mips.Memory

/-!
# The MIPS III integer instructions

The computational integer instructions, the loads and stores, and the conditions of the
branches, over a memory bus of any width and an address translation. Words are kept in the
registers sign-extended; on a register that does not hold a sign-extended word the word
instructions use its low half, except that the arithmetic right shifts of a word shift the whole
register.

## Main definitions

* `State`, `State.setReg`: registers, memory, and register writes
* `Instr`, `Instr.step`: the instructions, and what one of them does
* `Instr.untrapped`: the instruction without its integer overflow trap

## Main results

* `Instr.step_untrapped`: an instruction that does not trap is its untrapped form
* `ShiftOp.eval_sra_of_word`: on a sign-extended word `sra` is the shift of the word
-/

namespace Mips

/-- What an instruction raises instead of completing. -/
inductive Exception
  | integerOverflow | addressErrorLoad | addressErrorStore
  deriving DecidableEq, Repr

abbrev Reg := Fin 32

/-- The registers and the memory. Register 0 holds zero. -/
@[ext]
structure State (w : Nat) where
  gpr : Reg → BitVec 64
  gpr_zero : gpr 0 = 0
  hi : BitVec 64
  lo : BitVec 64
  fpCondition : Bool
  mem : Memory w

variable {w : Nat}

namespace State

/-- Writes a register; a write to register 0 is lost. -/
def setReg (s : State w) (r : Reg) (x : BitVec 64) : State w :=
  { s with
    gpr := fun q => if q = r ∧ r ≠ 0 then x else s.gpr q
    gpr_zero := by
      rw [if_neg (fun h => h.2 h.1.symm)]
      exact s.gpr_zero }

@[simp] theorem setReg_hi (s : State w) (r : Reg) (x : BitVec 64) : (s.setReg r x).hi = s.hi := rfl

@[simp] theorem setReg_lo (s : State w) (r : Reg) (x : BitVec 64) : (s.setReg r x).lo = s.lo := rfl

@[simp] theorem setReg_mem (s : State w) (r : Reg) (x : BitVec 64) :
    (s.setReg r x).mem = s.mem := rfl

@[simp] theorem setReg_zero (s : State w) (x : BitVec 64) : s.setReg 0 x = s := by
  apply State.ext <;> simp [setReg]

end State

/-- The low word of a register. -/
abbrev word (x : BitVec 64) : BitVec 32 := x.setWidth 32

/-- A word in a register. -/
abbrev ofWord (x : BitVec 32) : BitVec 64 := x.signExtend 64

theorem word_ofWord (w : BitVec 32) : word (ofWord w) = w := by
  apply BitVec.eq_of_getLsbD_eq
  intro j hj
  simp [-BitVec.getLsbD_eq_getElem, BitVec.getLsbD_signExtend, hj, show j < 64 by omega]

@[simp] theorem word_append (above w : BitVec 32) : word (above ++ w : BitVec (32 + 32)) = w := by
  apply BitVec.eq_of_getLsbD_eq
  intro j hj
  rw [word, BitVec.getLsbD_setWidth, BitVec.getLsbD_append, if_pos hj]
  simp only [hj, decide_true, Bool.true_and]

/-- The truth value that the set instructions write. -/
def ofBool (b : Bool) : BitVec 64 := if b then 1 else 0

/-- The result of an arithmetic instruction that traps on overflow. -/
def trapIf (overflow : Bool) (x : BitVec 64) : Except Exception (BitVec 64) :=
  if overflow then .error .integerOverflow else .ok x

/-! ### Operations -/

/-- The two-operand operations. -/
inductive RegOp
  | add | addu | sub | subu | dadd | daddu | dsub | dsubu
  | and | or | xor | nor | slt | sltu
  deriving DecidableEq, Repr

def RegOp.eval : RegOp → BitVec 64 → BitVec 64 → Except Exception (BitVec 64)
  | add, x, y => trapIf ((word x).saddOverflow (word y)) (ofWord (word x + word y))
  | addu, x, y => .ok (ofWord (word x + word y))
  | sub, x, y => trapIf ((word x).ssubOverflow (word y)) (ofWord (word x - word y))
  | subu, x, y => .ok (ofWord (word x - word y))
  | dadd, x, y => trapIf (x.saddOverflow y) (x + y)
  | daddu, x, y => .ok (x + y)
  | dsub, x, y => trapIf (x.ssubOverflow y) (x - y)
  | dsubu, x, y => .ok (x - y)
  | and, x, y => .ok (x &&& y)
  | or, x, y => .ok (x ||| y)
  | xor, x, y => .ok (x ^^^ y)
  | nor, x, y => .ok (~~~(x ||| y))
  | slt, x, y => .ok (ofBool (x.slt y))
  | sltu, x, y => .ok (ofBool (x.ult y))

/-- The operation without its overflow trap. -/
def RegOp.untrapped : RegOp → RegOp
  | add => addu
  | sub => subu
  | dadd => daddu
  | dsub => dsubu
  | op => op

theorem RegOp.eval_untrapped {op : RegOp} {x y z : BitVec 64} (h : op.eval x y = .ok z) :
    op.untrapped.eval x y = .ok z := by
  cases op
  case add | sub | dadd | dsub =>
    simp only [eval, trapIf] at h
    split at h
    · cases h
    · exact h
  all_goals exact h

/-- The operations of a register and a 16-bit immediate. -/
inductive ImmOp
  | addi | addiu | daddi | daddiu | slti | sltiu | andi | ori | xori
  deriving DecidableEq, Repr

/-- The operation applied, and the extended immediate. -/
def ImmOp.regOp : ImmOp → RegOp
  | addi => .add
  | addiu => .addu
  | daddi => .dadd
  | daddiu => .daddu
  | slti => .slt
  | sltiu => .sltu
  | andi => .and
  | ori => .or
  | xori => .xor

def ImmOp.extend : ImmOp → BitVec 16 → BitVec 64
  | andi, imm | ori, imm | xori, imm => imm.setWidth 64
  | _, imm => imm.signExtend 64

def ImmOp.untrapped : ImmOp → ImmOp
  | addi => addiu
  | daddi => daddiu
  | op => op

theorem ImmOp.regOp_untrapped (op : ImmOp) : op.untrapped.regOp = op.regOp.untrapped := by
  cases op <;> rfl

theorem ImmOp.extend_untrapped (op : ImmOp) : op.untrapped.extend = op.extend := by
  cases op <;> rfl

/-- The shifts, of a word or of a doubleword. -/
inductive ShiftOp
  | sll | srl | sra | dsll | dsrl | dsra
  deriving DecidableEq, Repr

def ShiftOp.eval : ShiftOp → BitVec 64 → Nat → BitVec 64
  | sll, x, n => ofWord (word x <<< n)
  | srl, x, n => ofWord (word x >>> n)
  | sra, x, n => ofWord (word (x.sshiftRight n))
  | dsll, x, n => x <<< n
  | dsrl, x, n => x >>> n
  | dsra, x, n => x.sshiftRight n

/-- The amount that a register gives: its low five bits for a word, six for a doubleword. -/
def ShiftOp.amount : ShiftOp → BitVec 64 → Nat
  | sll, x | srl, x | sra, x => x.toNat % 32
  | dsll, x | dsrl, x | dsra, x => x.toNat % 64

/-- On a sign-extended word the low word of the shifted register is the shifted word. -/
theorem ShiftOp.eval_sra_of_word (y : BitVec 32) {n : Nat} (hn : n < 32) :
    sra.eval (ofWord y) n = ofWord (y.sshiftRight n) := by
  have hword : word ((ofWord y).sshiftRight n) = y.sshiftRight n := by
    apply BitVec.eq_of_getLsbD_eq
    intro i hi
    simp only [BitVec.getLsbD_setWidth, BitVec.getLsbD_sshiftRight, BitVec.getLsbD_signExtend,
      BitVec.msb_signExtend, hi, decide_true, Bool.true_and]
    by_cases hlt : n + i < 32
    · simp [hi, hlt, show ¬ 64 ≤ i by omega, show n + i < 64 by omega]
    · simp [hi, hlt, show ¬ 64 ≤ i by omega, show n + i < 64 by omega]
  rw [eval, hword]

/-! ### Loads, stores and branch conditions -/

inductive LoadOp
  | lb | lbu | lh | lhu | lw | lwu | ld | lwl | lwr | ldl | ldr
  deriving DecidableEq, Repr

inductive StoreOp
  | sb | sh | sw | sd | swl | swr | sdl | sdr
  deriving DecidableEq, Repr

/-- The alignment that the address of an access must have; the unaligned accesses need none. -/
def LoadOp.alignment : LoadOp → Nat
  | lh | lhu => 2
  | lw | lwu => 4
  | ld => 8
  | _ => 1

def StoreOp.alignment : StoreOp → Nat
  | sh => 2
  | sw => 4
  | sd => 8
  | _ => 1

/-- The value loaded from the physical address `p` of offset `k` in its word or doubleword, into
a register that holds `x`. A partial word load leaves the result sign-extended. -/
def LoadOp.eval (mem : Memory w) (p : BitVec w) (k : Nat) (x : BitVec 64) : LoadOp → BitVec 64
  | lb => (mem.read p 1).signExtend 64
  | lbu => (mem.read p 1).setWidth 64
  | lh => (mem.read p 2).signExtend 64
  | lhu => (mem.read p 2).setWidth 64
  | lw => ofWord (mem.read p 4)
  | lwu => (mem.read p 4).setWidth 64
  | ld => mem.read p 8
  | lwl => ofWord (ofBytes 4 fun i =>
      if i < 4 - k % 4 then mem (p + BitVec.ofNat w i) else byte 4 (word x) i)
  | lwr => ofWord (ofBytes 4 fun i =>
      if 4 - 1 - k % 4 ≤ i then mem (p - BitVec.ofNat w (4 - 1 - i)) else byte 4 (word x) i)
  | ldl => ofBytes 8 fun i =>
      if i < 8 - k then mem (p + BitVec.ofNat w i) else byte 8 x i
  | ldr => ofBytes 8 fun i =>
      if 8 - 1 - k ≤ i then mem (p - BitVec.ofNat w (8 - 1 - i)) else byte 8 x i

/-- The memory after the register value `x` is stored at the physical address `p` of offset `k`
in its doubleword. -/
def StoreOp.eval (mem : Memory w) (p : BitVec w) (k : Nat) (x : BitVec 64) : StoreOp → Memory w
  | sb => mem.write p 1 (x.setWidth 8)
  | sh => mem.write p 2 (x.setWidth 16)
  | sw => mem.write p 4 (word x)
  | sd => mem.write p 8 x
  | swl => mem.writeBytes p (4 - k % 4) (byte 4 (word x))
  | swr => mem.writeBytes (p - BitVec.ofNat w (k % 4)) (k % 4 + 1) fun i =>
      byte 4 (word x) (4 - 1 - k % 4 + i)
  | sdl => mem.writeBytes p (8 - k) (byte 8 x)
  | sdr => mem.writeBytes (p - BitVec.ofNat w k) (k + 1) fun i => byte 8 x (8 - 1 - k + i)

/-- The conditions of the branches. -/
inductive BranchOp
  | eq | ne | gez | gtz | lez | ltz | fpFalse | fpTrue
  deriving DecidableEq, Repr

def BranchOp.eval (fpCondition : Bool) (x y : BitVec 64) : BranchOp → Bool
  | eq => x == y
  | ne => x != y
  | gez => (0 : BitVec 64).sle x
  | gtz => (0 : BitVec 64).slt x
  | lez => x.sle 0
  | ltz => x.slt 0
  | fpFalse => !fpCondition
  | fpTrue => fpCondition

/-! ### Instructions -/

/-- The integer instructions. The immediate shifts have their whole amount, up to 63. -/
inductive Instr
  | lui (rt : Reg) (imm : BitVec 16)
  | mthi (rs : Reg) | mtlo (rs : Reg) | mfhi (rd : Reg) | mflo (rd : Reg)
  | reg (op : RegOp) (rd rs rt : Reg)
  | imm (op : ImmOp) (rt rs : Reg) (imm : BitVec 16)
  | shift (op : ShiftOp) (rd rt : Reg) (amount : Nat)
  | shiftVariable (op : ShiftOp) (rd rt rs : Reg)
  | load (op : LoadOp) (rt base : Reg) (offset : BitVec 16)
  | store (op : StoreOp) (rt base : Reg) (offset : BitVec 16)
  | branch (op : BranchOp) (rs rt : Reg)
  deriving DecidableEq, Repr

/-- The state after an instruction, and whether it branches. -/
structure Outcome (w : Nat) where
  state : State w
  taken : Bool

/-- The effective address of a load or a store. -/
def effectiveAddress (s : State w) (base : Reg) (offset : BitVec 16) : BitVec 64 :=
  s.gpr base + offset.signExtend 64

/-- What an instruction does, other than to transfer control. -/
def Instr.step (translate : BitVec 64 → BitVec w) (s : State w) :
    Instr → Except Exception (Outcome w)
  | lui rt i => .ok ⟨s.setReg rt (ofWord (i.setWidth 32 <<< 16)), false⟩
  | mthi rs => .ok ⟨{ s with hi := s.gpr rs }, false⟩
  | mtlo rs => .ok ⟨{ s with lo := s.gpr rs }, false⟩
  | mfhi rd => .ok ⟨s.setReg rd s.hi, false⟩
  | mflo rd => .ok ⟨s.setReg rd s.lo, false⟩
  | reg op rd rs rt => (op.eval (s.gpr rs) (s.gpr rt)).map fun x => ⟨s.setReg rd x, false⟩
  | imm op rt rs i =>
    (op.regOp.eval (s.gpr rs) (op.extend i)).map fun x => ⟨s.setReg rt x, false⟩
  | shift op rd rt amount => .ok ⟨s.setReg rd (op.eval (s.gpr rt) amount), false⟩
  | shiftVariable op rd rt rs =>
    .ok ⟨s.setReg rd (op.eval (s.gpr rt) (op.amount (s.gpr rs))), false⟩
  | load op rt base offset =>
    let address := effectiveAddress s base offset
    if address.toNat % op.alignment ≠ 0 then .error .addressErrorLoad
    else .ok ⟨s.setReg rt
      (op.eval s.mem (translate address) (address.toNat % 8) (s.gpr rt)), false⟩
  | store op rt base offset =>
    let address := effectiveAddress s base offset
    if address.toNat % op.alignment ≠ 0 then .error .addressErrorStore
    else .ok ⟨{ s with
      mem := op.eval s.mem (translate address) (address.toNat % 8) (s.gpr rt) }, false⟩
  | branch op rs rt => .ok ⟨s, op.eval s.fpCondition (s.gpr rs) (s.gpr rt)⟩

/-- The instruction that does the same without an integer overflow trap. -/
def Instr.untrapped : Instr → Instr
  | reg op rd rs rt => reg op.untrapped rd rs rt
  | imm op rt rs i => imm op.untrapped rt rs i
  | instr => instr

/-- An instruction that does not trap is its untrapped form. -/
theorem Instr.step_untrapped {translate : BitVec 64 → BitVec w} {s : State w} {instr : Instr}
    {o : Outcome w} (h : instr.step translate s = .ok o) :
    instr.untrapped.step translate s = .ok o := by
  cases instr
  case reg op rd rs rt =>
    simp only [untrapped, step] at h ⊢
    cases hx : op.eval (s.gpr rs) (s.gpr rt) with
    | error e =>
      rw [hx] at h
      cases h
    | ok x => rwa [RegOp.eval_untrapped hx, ← hx]
  case imm op rt rs i =>
    simp only [untrapped, step, ImmOp.regOp_untrapped, ImmOp.extend_untrapped] at h ⊢
    cases hx : op.regOp.eval (s.gpr rs) (op.extend i) with
    | error e =>
      rw [hx] at h
      cases h
    | ok x => rwa [RegOp.eval_untrapped hx, ← hx]
  all_goals exact h

end Mips
