import Mathlib.Data.BitVec
import N64Recomp.Data.Widths

/-!
# A two-address compiler back end

The integer instructions of the platform-independent low-level representation of a just-in-time
compiler, over any kind `μ` of memory operand; the floating-point instructions `φ` are not
interpreted. A word has 64 bits. What the documentation of the representation leaves undefined is
`none` here: a shift by the width or more, a division by zero or one that overflows, a condition
that no instruction has set. The upper half of a register after a 32-bit operation is the host's
to choose.

Jumps are forward: a jump skips the instructions up to its label.

## Main definitions

* `Reg`, `Operand`, `Instr`: registers, operands, instructions
* `Host`: what the memory operands name, and what a 32-bit operation leaves undefined
* `Instr.exec`, `run`: what one instruction does, and a sequence of them

## Main results

* `run_cons`: an instruction, and what follows it
* `run_jump`, `run_cmp`: a jump goes on after its label
-/

namespace Sljit

/-- The scratch registers and the saved registers. -/
inductive Reg
  | r (n : Nat)
  | s (n : Nat)
  deriving DecidableEq, Repr

/-- An immediate, a register, or a place in memory. -/
inductive Operand (μ : Type)
  | imm (x : BitVec 64)
  | reg (r : Reg)
  | mem (m : μ)
  deriving DecidableEq, Repr

/-- The moves: of a word, of 32 bits, and of a narrower value that is extended. -/
inductive MovType
  | mov | mov32 | u8 | s8 | u16 | s16 | u32 | s32
  deriving DecidableEq, Repr

/-- The operations of two operands. The shifts `mshl`, `mlshr` and `mashr` mask their count. -/
inductive Op2
  | add | sub | and | or | xor
  | shl | lshr | ashr | mshl | mlshr | mashr | rotl
  deriving DecidableEq, Repr

/-- The conditions on two compared operands. -/
inductive Cond
  | equal | notEqual
  | less | greaterEqual | greater | lessEqual
  | sigLess | sigGreaterEqual | sigGreater | sigLessEqual
  deriving DecidableEq, Repr

/-- The instructions. -/
inductive Instr (μ φ : Type)
  | op1 (type : MovType) (dst src : Operand μ)
  | op2 (op : Op2) (is32 : Bool) (dst src1 src2 : Operand μ)
  /-- The operation, which also sets the zero flag. -/
  | op2SetZ (op : Op2) (dst src1 src2 : Operand μ)
  /-- A subtraction for the flag of the condition. -/
  | compare (cond : Cond) (src1 src2 : Operand μ)
  /-- The flag of the condition, as a word. -/
  | opFlags (dst : Operand μ) (cond : Cond)
  /-- `R1:R0 = R0 * R1`. -/
  | lmul (isSigned : Bool)
  /-- `R0 = R0 / R1` and `R1 = R0 % R1`. -/
  | divmod (is32 isSigned : Bool)
  /-- `dst = cond ? src1 : src2`. -/
  | select (cond : Cond) (dst : Reg) (src1 : Operand μ) (src2 : Reg)
  | cmp (cond : Cond) (src1 src2 : Operand μ) (target : Nat)
  | jump (target : Nat)
  | label (n : Nat)
  | float (f : φ) (dst : Operand μ) (srcs : List (Operand μ))
  deriving DecidableEq, Repr

/-- What an instruction finds: the registers, the memory, and the last condition set. -/
structure State (σ : Type) where
  reg : Reg → BitVec 64
  mem : σ
  flag : Option (Cond × Bool)

/-- The memory of a host. An access is of a number of bytes: a load gives them extended by
zeros, a store takes them from the low end of a word. -/
structure Host (μ σ : Type) where
  load : (Reg → BitVec 64) → σ → μ → Nat → Option (BitVec 64)
  store : (Reg → BitVec 64) → σ → μ → Nat → BitVec 64 → Option σ
  /-- What stands above the 32-bit result of an operation. -/
  upper : (Reg → BitVec 64) → BitVec 32 → BitVec 32

/-! ### Operations -/

/-- The number of bytes that a move reads and writes. -/
def MovType.size : MovType → Nat
  | mov => 8
  | mov32 | u32 | s32 => 4
  | u16 | s16 => 2
  | u8 | s8 => 1

@[simp] theorem MovType.size_mov : mov.size = 8 := rfl

@[simp] theorem MovType.size_u32 : u32.size = 4 := rfl

@[simp] theorem MovType.size_s32 : s32.size = 4 := rfl

@[simp] theorem MovType.size_u16 : u16.size = 2 := rfl

@[simp] theorem MovType.size_s16 : s16.size = 2 := rfl

@[simp] theorem MovType.size_u8 : u8.size = 1 := rfl

@[simp] theorem MovType.size_s8 : s8.size = 1 := rfl

/-- The word that a move leaves in a register; `above` is what the host puts above 32 bits. -/
def MovType.extend (above : BitVec 32 → BitVec 32) : MovType → BitVec 64 → BitVec 64
  | mov, x => x
  | mov32, x => above (x.setWidth 32) ++ x.setWidth 32
  | u8, x => (x.setWidth 8).setWidth 64
  | s8, x => (x.setWidth 8).signExtend 64
  | u16, x => (x.setWidth 16).setWidth 64
  | s16, x => (x.setWidth 16).signExtend 64
  | u32, x => (x.setWidth 32).setWidth 64
  | s32, x => (x.setWidth 32).signExtend 64

@[simp] theorem MovType.extend_mov (above : BitVec 32 → BitVec 32) (x : BitVec 64) :
    mov.extend above x = x := rfl

@[simp] theorem MovType.extend_u8 (above : BitVec 32 → BitVec 32) (x : BitVec 64) :
    u8.extend above x = (x.setWidth 8).setWidth 64 := rfl

@[simp] theorem MovType.extend_u16 (above : BitVec 32 → BitVec 32) (x : BitVec 64) :
    u16.extend above x = (x.setWidth 16).setWidth 64 := rfl

@[simp] theorem MovType.extend_s16 (above : BitVec 32 → BitVec 32) (x : BitVec 64) :
    s16.extend above x = (x.setWidth 16).signExtend 64 := rfl

@[simp] theorem MovType.extend_s32 (above : BitVec 32 → BitVec 32) (x : BitVec 64) :
    s32.extend above x = (x.setWidth 32).signExtend 64 := rfl

@[simp] theorem MovType.extend_u32 (above : BitVec 32 → BitVec 32) (x : BitVec 64) :
    u32.extend above x = (x.setWidth 32).setWidth 64 := rfl

/-- The operations on values of a width. -/
def Op2.eval {w : Nat} (x y : BitVec w) : Op2 → Option (BitVec w)
  | add => some (x + y)
  | sub => some (x - y)
  | and => some (x &&& y)
  | or => some (x ||| y)
  | xor => some (x ^^^ y)
  | shl => if y.toNat < w then some (x <<< y.toNat) else none
  | lshr => if y.toNat < w then some (x >>> y.toNat) else none
  | ashr => if y.toNat < w then some (x.sshiftRight y.toNat) else none
  | mshl => some (x <<< (y.toNat % w))
  | mlshr => some (x >>> (y.toNat % w))
  | mashr => some (x.sshiftRight (y.toNat % w))
  | rotl => if y.toNat < w then some (x.rotateLeft y.toNat) else none

section Eval

variable {w : Nat} (x y : BitVec w)

@[simp] theorem Op2.eval_add : add.eval x y = some (x + y) := rfl

@[simp] theorem Op2.eval_sub : sub.eval x y = some (x - y) := rfl

@[simp] theorem Op2.eval_and : and.eval x y = some (x &&& y) := rfl

@[simp] theorem Op2.eval_or : or.eval x y = some (x ||| y) := rfl

@[simp] theorem Op2.eval_xor : xor.eval x y = some (x ^^^ y) := rfl

@[simp] theorem Op2.eval_mshl : mshl.eval x y = some (x <<< (y.toNat % w)) := rfl

@[simp] theorem Op2.eval_mlshr : mlshr.eval x y = some (x >>> (y.toNat % w)) := rfl

@[simp] theorem Op2.eval_mashr : mashr.eval x y = some (x.sshiftRight (y.toNat % w)) := rfl

variable {x y}

@[simp] theorem Op2.eval_shl (h : y.toNat < w) : shl.eval x y = some (x <<< y.toNat) := if_pos h

@[simp] theorem Op2.eval_lshr (h : y.toNat < w) : lshr.eval x y = some (x >>> y.toNat) := if_pos h

@[simp] theorem Op2.eval_ashr (h : y.toNat < w) : ashr.eval x y = some (x.sshiftRight y.toNat) :=
  if_pos h

@[simp] theorem Op2.eval_rotl (h : y.toNat < w) : rotl.eval x y = some (x.rotateLeft y.toNat) :=
  if_pos h

end Eval

def Cond.eval (x y : BitVec 64) : Cond → Bool
  | equal => x == y
  | notEqual => x != y
  | less => x.ult y
  | greaterEqual => y.ule x
  | greater => y.ult x
  | lessEqual => x.ule y
  | sigLess => x.slt y
  | sigGreaterEqual => y.sle x
  | sigGreater => y.slt x
  | sigLessEqual => x.sle y

/-- The quotient and the remainder; undefined for a zero divisor and where the quotient is not a
value of the width. -/
def divide {w : Nat} (isSigned : Bool) (x y : BitVec w) : Option (BitVec w × BitVec w) :=
  if y = 0 ∨ (isSigned ∧ x = BitVec.intMin w ∧ y = -1) then none
  else if isSigned then some (x.sdiv y, x.srem y)
  else some (x / y, x % y)

theorem divide_signed {w : Nat} {x y : BitVec w} (hy : y ≠ 0)
    (h : ¬(x = BitVec.intMin w ∧ y = -1)) : divide true x y = some (x.sdiv y, x.srem y) :=
  (if_neg fun hor => hor.elim hy fun hand => h hand.2).trans (if_pos rfl)

theorem divide_unsigned {w : Nat} {x y : BitVec w} (hy : y ≠ 0) :
    divide false x y = some (x / y, x % y) :=
  (if_neg fun hor => hor.elim hy fun hand => Bool.false_ne_true hand.1).trans
    (if_neg Bool.false_ne_true)

/-- The product of two words, in two words. -/
def longMultiply (isSigned : Bool) (x y : BitVec 64) : BitVec 64 × BitVec 64 :=
  let product : BitVec 128 :=
    if isSigned then x.signExtend 128 * y.signExtend 128 else x.setWidth 128 * y.setWidth 128
  ((product >>> 64).setWidth 64, product.setWidth 64)

/-! ### Execution -/

section Execution

variable {μ φ σ : Type} (host : Host μ σ)

namespace State

/-- Writes a register. -/
def setReg (s : State σ) (r : Reg) (x : BitVec 64) : State σ :=
  { s with reg := fun q => if q = r then x else s.reg q }

@[simp] theorem setReg_reg (s : State σ) (r q : Reg) (x : BitVec 64) :
    (s.setReg r x).reg q = if q = r then x else s.reg q := rfl

@[simp] theorem setReg_mem (s : State σ) (r : Reg) (x : BitVec 64) :
    (s.setReg r x).mem = s.mem := rfl

@[simp] theorem setReg_flag (s : State σ) (r : Reg) (x : BitVec 64) :
    (s.setReg r x).flag = s.flag := rfl

/-- The state with a condition set. -/
def setFlag (s : State σ) (flag : Option (Cond × Bool)) : State σ := { s with flag }

@[simp] theorem setFlag_reg (s : State σ) (flag : Option (Cond × Bool)) :
    (s.setFlag flag).reg = s.reg := rfl

@[simp] theorem setFlag_mem (s : State σ) (flag : Option (Cond × Bool)) :
    (s.setFlag flag).mem = s.mem := rfl

@[simp] theorem setFlag_flag (s : State σ) (flag : Option (Cond × Bool)) :
    (s.setFlag flag).flag = flag := rfl

/-- The value of an operand that is read with a number of bytes. -/
def read (s : State σ) (size : Nat) : Operand μ → Option (BitVec 64)
  | .imm x => some x
  | .reg r => some (s.reg r)
  | .mem m => host.load s.reg s.mem m size

/-- Writes a word to a register, or its low bytes to memory. -/
def write (s : State σ) (size : Nat) (x : BitVec 64) : Operand μ → Option (State σ)
  | .imm _ => none
  | .reg r => some (s.setReg r x)
  | .mem m => (host.store s.reg s.mem m size x).map fun mem => { s with mem }

@[simp] theorem read_imm (s : State σ) (size : Nat) (x : BitVec 64) :
    s.read host size (.imm x) = some x := rfl

@[simp] theorem read_reg (s : State σ) (size : Nat) (r : Reg) :
    s.read host size (.reg r) = some (s.reg r) := rfl

@[simp] theorem read_mem (s : State σ) (size : Nat) (m : μ) :
    s.read host size (.mem m) = host.load s.reg s.mem m size := rfl

@[simp] theorem write_reg (s : State σ) (size : Nat) (x : BitVec 64) (r : Reg) :
    s.write host size x (.reg r) = some (s.setReg r x) := rfl

@[simp] theorem write_mem (s : State σ) (size : Nat) (x : BitVec 64) (m : μ) :
    s.write host size x (.mem m) =
      (host.store s.reg s.mem m size x).map fun mem => { s with mem } := rfl

/-- Whether a condition holds, when it is the one that was set. -/
def holds (s : State σ) (cond : Cond) : Option Bool :=
  match s.flag with
  | some (c, b) => if c = cond then some b else none
  | none => none

end State

/-- The result of an operation, as a word. -/
def op2Result (s : State σ) (op : Op2) (is32 : Bool) (x y : BitVec 64) : Option (BitVec 64) :=
  if is32 then (op.eval (x.setWidth 32) (y.setWidth 32)).map fun z => host.upper s.reg z ++ z
  else op.eval x y

@[simp] theorem op2Result_false (s : State σ) (op : Op2) (x y : BitVec 64) :
    op2Result host s op false x y = op.eval x y := rfl

@[simp] theorem op2Result_true (s : State σ) (op : Op2) (x y : BitVec 64) :
    op2Result host s op true x y =
      (op.eval (x.setWidth 32) (y.setWidth 32)).map fun z => host.upper s.reg z ++ z := rfl

/-- The number of bytes of the operands of an operation. -/
@[simp] def op2Size (is32 : Bool) : Nat := if is32 then 4 else 8

/-- What an integer instruction other than a jump or a label does. -/
def Instr.exec (s : State σ) : Instr μ φ → Option (State σ)
  | op1 type dst src => do
    let x ← s.read host type.size src
    s.write host type.size (type.extend (host.upper s.reg) x) dst
  | op2 op is32 dst src1 src2 => do
    let x ← s.read host (op2Size is32) src1
    let y ← s.read host (op2Size is32) src2
    let z ← op2Result host s op is32 x y
    (s.setFlag none).write host (op2Size is32) z dst
  | op2SetZ op dst src1 src2 => do
    let x ← s.read host 8 src1
    let y ← s.read host 8 src2
    let z ← op.eval x y
    (s.setFlag (some (.equal, z == 0))).write host 8 z dst
  | compare cond src1 src2 => do
    let x ← s.read host 8 src1
    let y ← s.read host 8 src2
    return s.setFlag (some (cond, cond.eval x y))
  | opFlags dst cond => do
    let b ← s.holds cond
    s.write host 8 (if b then 1 else 0) dst
  | lmul isSigned =>
    let z := longMultiply isSigned (s.reg (.r 0)) (s.reg (.r 1))
    some ((s.setReg (.r 0) z.2).setReg (.r 1) z.1)
  | divmod is32 isSigned => do
    let x := s.reg (.r 0)
    let y := s.reg (.r 1)
    if is32 then
      let z ← divide isSigned (x.setWidth 32) (y.setWidth 32)
      return (s.setReg (.r 0) (host.upper s.reg z.1 ++ z.1)).setReg (.r 1)
        (host.upper s.reg z.2 ++ z.2)
    else
      let z ← divide isSigned x y
      return (s.setReg (.r 0) z.1).setReg (.r 1) z.2
  | select cond dst src1 src2 => do
    let b ← s.holds cond
    let x ← s.read host 8 src1
    return s.setReg dst (if b then x else s.reg src2)
  | cmp _ _ _ _ | jump _ | label _ | float _ _ _ => none

theorem exec_divmod {isSigned : Bool} {s : State σ} {z : BitVec 64 × BitVec 64}
    (h : divide isSigned (s.reg (.r 0)) (s.reg (.r 1)) = some z) :
    (Instr.divmod false isSigned : Instr μ φ).exec host s =
      some ((s.setReg (.r 0) z.1).setReg (.r 1) z.2) := by
  simp [Instr.exec, h]

theorem exec_divmod32 {isSigned : Bool} {s : State σ} {z : BitVec 32 × BitVec 32}
    (h : divide isSigned ((s.reg (.r 0)).setWidth 32) ((s.reg (.r 1)).setWidth 32) = some z) :
    (Instr.divmod true isSigned : Instr μ φ).exec host s =
      some ((s.setReg (.r 0) (host.upper s.reg z.1 ++ z.1)).setReg (.r 1)
        (host.upper s.reg z.2 ++ z.2)) := by
  simp [Instr.exec, h]

/-- One instruction of a sequence. While a label is sought only that label is seen. -/
def step (p : State σ × Option Nat) (i : Instr μ φ) : Option (State σ × Option Nat) :=
  match p.2, i with
  | some l, .label n => some (p.1, if n = l then none else some l)
  | some l, _ => some (p.1, some l)
  | none, .label _ => some (p.1, none)
  | none, .jump l => some (p.1, some l)
  | none, .cmp cond src1 src2 l => do
    let x ← p.1.read host 8 src1
    let y ← p.1.read host 8 src2
    return (p.1, if cond.eval x y then some l else none)
  | none, i => (i.exec host p.1).map fun s => (s, none)

/-- A sequence, from a state in which a label may be sought. -/
def runFrom (code : List (Instr μ φ)) (p : State σ × Option Nat) : Option (State σ × Option Nat) :=
  code.foldlM (step host) p

/-- A sequence of instructions; the label of every jump that is taken has to be found. -/
def run (code : List (Instr μ φ)) (s : State σ) : Option (State σ) :=
  (runFrom host code (s, none)).bind fun p => if p.2 = none then some p.1 else none

/-! ### Sequences -/

/-- Whether an instruction is neither a jump nor a label. -/
def Instr.straight : Instr μ φ → Bool
  | cmp _ _ _ _ | jump _ | label _ => false
  | _ => true

/-- The instructions after a label. -/
@[simp] def after (l : Nat) : List (Instr μ φ) → Option (List (Instr μ φ))
  | [] => none
  | .label n :: code => if n = l then some code else after l code
  | _ :: code => after l code

variable {host} {s : State σ} {code : List (Instr μ φ)}

theorem runFrom_cons (i : Instr μ φ) (p : State σ × Option Nat) :
    runFrom host (i :: code) p = (step host p i).bind (runFrom host code) := rfl

/-- A sequence in which a label is sought starts after the label. -/
theorem runFrom_sought (l : Nat) (code : List (Instr μ φ)) :
    ((runFrom host code (s, some l)).bind fun p => if p.2 = none then some p.1 else none) =
      (after l code).bind fun rest => run host rest s := by
  induction code with
  | nil => simp [runFrom]
  | cons i code ih =>
    cases i with
    | label n =>
      by_cases hn : n = l
      · simp only [hn, runFrom_cons, step, after, if_true, Option.bind_some]
        rfl
      · simpa only [hn, runFrom_cons, step, after, if_false, Option.bind_some] using ih
    | _ => exact ih

@[simp] theorem run_nil : run host ([] : List (Instr μ φ)) s = some s := rfl

/-- An instruction that is not a jump, and what follows it. -/
theorem run_cons {i : Instr μ φ} (hi : i.straight = true) :
    run host (i :: code) s = (i.exec host s).bind (run host code) := by
  have hstep : step host (s, none) i = (i.exec host s).map fun t => (t, none) := by
    cases i <;> first | rfl | cases hi
  change ((step host (s, none) i).bind (runFrom host code)).bind _ = _
  rw [hstep]
  cases i.exec host s <;> rfl

@[simp] theorem run_op1 (type : MovType) (dst src : Operand μ) :
    run host (.op1 type dst src :: code) s = (s.read host type.size src).bind fun x =>
      (s.write host type.size (type.extend (host.upper s.reg) x) dst).bind (run host code) := by
  rw [run_cons rfl]
  exact Option.bind_assoc _ _ _

@[simp] theorem run_op2 (op : Op2) (is32 : Bool) (dst src1 src2 : Operand μ) :
    run host (.op2 op is32 dst src1 src2 :: code) s =
      (s.read host (op2Size is32) src1).bind fun x => (s.read host (op2Size is32) src2).bind fun y =>
        (op2Result host s op is32 x y).bind fun z =>
          ((s.setFlag none).write host (op2Size is32) z dst).bind (run host code) := by
  rw [run_cons rfl]
  simp [Instr.exec, Option.bind_assoc]

@[simp] theorem run_op2SetZ (op : Op2) (dst src1 src2 : Operand μ) :
    run host (.op2SetZ op dst src1 src2 :: code) s = (s.read host 8 src1).bind fun x =>
      (s.read host 8 src2).bind fun y => (op.eval x y).bind fun z =>
        ((s.setFlag (some (.equal, z == 0))).write host 8 z dst).bind (run host code) := by
  rw [run_cons rfl]
  simp [Instr.exec, Option.bind_assoc]

@[simp] theorem run_compare (cond : Cond) (src1 src2 : Operand μ) :
    run host (.compare cond src1 src2 :: code) s = (s.read host 8 src1).bind fun x =>
      (s.read host 8 src2).bind fun y => run host code (s.setFlag (some (cond, cond.eval x y))) := by
  rw [run_cons rfl]
  simp [Instr.exec, Option.bind_assoc]

@[simp] theorem run_opFlags (dst : Operand μ) (cond : Cond) :
    run host (.opFlags dst cond :: code) s = (s.holds cond).bind fun b =>
      (s.write host 8 (if b then 1 else 0) dst).bind (run host code) := by
  rw [run_cons rfl]
  exact Option.bind_assoc _ _ _

@[simp] theorem run_lmul (isSigned : Bool) :
    run host (.lmul isSigned :: code) s =
      let z := longMultiply isSigned (s.reg (.r 0)) (s.reg (.r 1))
      run host code ((s.setReg (.r 0) z.2).setReg (.r 1) z.1) :=
  run_cons rfl

@[simp] theorem run_select (cond : Cond) (dst : Reg) (src1 : Operand μ) (src2 : Reg) :
    run host (.select cond dst src1 src2 :: code) s = (s.holds cond).bind fun b =>
      (s.read host 8 src1).bind fun x =>
        run host code (s.setReg dst (if b then x else s.reg src2)) := by
  rw [run_cons rfl]
  simp [Instr.exec, Option.bind_assoc]

@[simp] theorem run_label (n : Nat) : run host (.label n :: code) s = run host code s := rfl

/-- A jump goes on after its label. -/
@[simp] theorem run_jump (l : Nat) :
    run host (.jump l :: code) s = (after l code).bind fun rest => run host rest s :=
  runFrom_sought l code

/-- A conditional jump. -/
@[simp] theorem run_cmp (cond : Cond) (src1 src2 : Operand μ) (l : Nat) :
    run host (.cmp cond src1 src2 l :: code) s = (s.read host 8 src1).bind fun x =>
      (s.read host 8 src2).bind fun y =>
        if cond.eval x y then (after l code).bind fun rest => run host rest s
        else run host code s := by
  change ((step host (s, none) (.cmp cond src1 src2 l)).bind (runFrom host code)).bind _ = _
  cases hx : s.read host 8 src1 with
  | none => simp [step, hx]
  | some x =>
    cases hy : s.read host 8 src2 with
    | none => simp [step, hx, hy]
    | some y =>
      have hstep : step host (s, none) (.cmp cond src1 src2 l : Instr μ φ) =
          some (s, if cond.eval x y then some l else none) := by
        simp [step, hx, hy]
      rw [hstep]
      by_cases hc : cond.eval x y
      · rw [if_pos hc]
        exact (runFrom_sought l code).trans (if_pos hc).symm
      · rw [if_neg hc]
        exact (if_neg hc).symm

/-- A sequence after another one that neither jumps nor has a label. -/
theorem run_append {p : List (Instr μ φ)} (hp : p.all Instr.straight = true)
    (q : List (Instr μ φ)) : run host (p ++ q) s = (run host p s).bind (run host q) := by
  induction p generalizing s with
  | nil => rfl
  | cons i p ih =>
    simp only [List.all_cons, Bool.and_eq_true] at hp
    obtain ⟨hi, hp⟩ := hp
    rw [List.cons_append, run_cons hi, run_cons hi, Option.bind_assoc]
    exact Option.bind_congr fun t _ => ih hp

end Execution

end Sljit
