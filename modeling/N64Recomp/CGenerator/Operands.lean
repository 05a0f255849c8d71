import N64Recomp.Context.Reloc
import N64Recomp.Operations
import N64Recomp.Runtime.RecompH

/-!
# The C generator: operands and expressions

The C text that `CGenerator` prints for the operands and the operations of the decode tables, as
syntax trees: each tree is the parse of the printed text.

## Main definitions

* `InstructionContext`: the operands of a decoded instruction
* `CGenerator.getOperand`, `CGenerator.getBinaryExpr`: the printed expressions
* `CGenerator.processBinaryOp`, `CGenerator.processUnaryOp`, `CGenerator.processStoreOp`,
  `CGenerator.branchCondition`: the printed statements
* `CStatement.exec`: what a printed statement does
-/

namespace N64Recomp

open CLang CLang.CType

/-- The operands resolved from a decoded instruction. -/
structure InstructionContext where
  rd : Fin 32
  rs : Fin 32
  rt : Fin 32
  sa : Fin 32
  fd : Fin 32
  fs : Fin 32
  ft : Fin 32
  cop1Cs : Fin 32
  imm16 : BitVec 16
  relocTagAsReference : Bool
  relocType : RelocType
  relocSectionIndex : BitVec 32
  relocTargetSectionOffset : BitVec 32
  deriving DecidableEq, Repr

/-- The expressions that the generator prints. -/
abbrev CExpr := Expr Object Callee

/-- The statements that the generator prints for the operations of the tables. -/
inductive CStatement
  /-- `output = value;` -/
  | assign (output value : CExpr)
  /-- `MEM_W(offset, reg) = value;`, and with `MEM_H` and `MEM_B`. -/
  | assignMem (type : StoreOpType) (offset reg value : CExpr)
  /-- `SD(value, offset, reg);` -/
  | sd (value offset reg : CExpr)
  /-- `do_swl(rdram, offset, reg, value);`, and the other helpers. -/
  | call (type : StoreOpType) (offset reg value : CExpr)
  deriving DecidableEq, Repr

/-- What the generator throws, or asserts. -/
inductive GeneratorError
  | unexpectedReloc (type : RelocType)
  | unhandledOperand (operand : Operand)
  deriving DecidableEq, Repr

namespace CGenerator

/-- An `int` literal. -/
def literal (n : Nat) : CExpr := .lit int32 n

/-- A GPR prints as the literal `0` when it is `$zero`, and as the context's field otherwise. -/
def gprToString (r : Fin 32) : CExpr :=
  if r = 0 then literal 0 else .var (.gpr r)

/-- Odd single-precision registers are in the `f_odd` overlay. -/
def fprU32lToString (i : Fin 32) : CExpr :=
  if i.val % 2 = 1 then .var (.fOdd ((i.val - 1) * 2)) else .var (.fprU32l i)

/-- An `int` literal, printed with its sign. -/
def signedLiteral (n : Int) : CExpr :=
  if n < 0 then .unary .neg (literal n.natAbs) else literal n.natAbs

/-- The type of a hexadecimal literal of 32 bits. -/
def hexLiteral (x : BitVec 32) : CExpr :=
  if x.toNat < 2 ^ 31 then .lit int32 x.toNat else .lit uint32 x.toNat

/-- `section_addresses[section_index] + (offset)`. -/
def relocAddress (ctx : InstructionContext) : CExpr :=
  .binary .add (.var (.sectionAddress ctx.relocTagAsReference ctx.relocSectionIndex))
    (hexLiteral ctx.relocTargetSectionOffset)

/-- The immediate of a relocated instruction: `HI16` or `LO16` of the target's address. -/
def unsignedReloc (ctx : InstructionContext) : Except GeneratorError CExpr :=
  let x := relocAddress ctx
  match ctx.relocType with
  | .hi16 => .ok (.binary .add (.binary .shr x (literal 16))
      (.binary .and (.binary .shr x (literal 15)) (literal 1)))
  | .lo16 => .ok (.binary .and x (literal 0xFFFF))
  | t => .error (.unexpectedReloc t)

def signedReloc (ctx : InstructionContext) : Except GeneratorError CExpr :=
  (unsignedReloc ctx).map (.cast int16)

/-- The text that a transform wraps around an operand. -/
def unaryAffixes (op : UnaryOpType) (e : CExpr) : CExpr :=
  match op with
  | .none | .toU64 => e
  | .toS32 => .call₁ .s32 e
  | .toU32 => .call₁ .u32 e
  | .toS64 => .call₁ .signed e
  | .lui => .call₁ .s32 (.binary .shl (.call₁ .u32 e) (literal 16))
  | .mask5 => .binary .and e (literal 31)
  | .mask6 => .binary .and e (literal 63)
  | .toInt32 => .cast int32 e
  | .negateFloat | .negateDouble => .unary .neg e
  | .absFloat => .call₁ (.float .fabsf) e
  | .absDouble => .call₁ (.float .fabs) e
  | .sqrtFloat => .call₁ (.float .sqrtf) e
  | .sqrtDouble => .call₁ (.float .sqrt) e
  | .convertSFromW => .call₁ (.float .cvtSW) e
  | .convertWFromS => .call₁ (.float .cvtWS) e
  | .convertDFromW => .call₁ (.float .cvtDW) e
  | .convertWFromD => .call₁ (.float .cvtWD) e
  | .convertDFromS => .call₁ (.float .cvtDS) e
  | .convertSFromD => .call₁ (.float .cvtSD) e
  | .convertDFromL => .call₁ (.float .cvtDL) e
  | .convertLFromD => .call₁ (.float .cvtLD) e
  | .convertSFromL => .call₁ (.float .cvtSL) e
  | .convertLFromS => .call₁ (.float .cvtLS) e
  | .truncateWFromS => .call₁ (.float .truncWS) e
  | .truncateWFromD => .call₁ (.float .truncWD) e
  | .truncateLFromS => .call₁ (.float .truncLS) e
  | .truncateLFromD => .call₁ (.float .truncLD) e
  | .roundWFromS => .call₁ (.float .lroundf) e
  | .roundWFromD => .call₁ (.float .lround) e
  | .roundLFromS => .call₁ (.float .llroundf) e
  | .roundLFromD => .call₁ (.float .llround) e
  | .ceilWFromS => .call₁ .s32 (.call₁ (.float .ceilf) e)
  | .ceilWFromD => .call₁ .s32 (.call₁ (.float .ceil) e)
  | .ceilLFromS => .call₁ .s64 (.call₁ (.float .ceilf) e)
  | .ceilLFromD => .call₁ .s64 (.call₁ (.float .ceil) e)
  | .floorWFromS => .call₁ .s32 (.call₁ (.float .floorf) e)
  | .floorWFromD => .call₁ .s32 (.call₁ (.float .floor) e)
  | .floorLFromS => .call₁ .s64 (.call₁ (.float .floorf) e)
  | .floorLFromD => .call₁ .s64 (.call₁ (.float .floor) e)

/-- The operand before its transform. -/
def operandText (operand : Operand) (ctx : InstructionContext) : Except GeneratorError CExpr :=
  match operand with
  | .rd => .ok (gprToString ctx.rd)
  | .rs => .ok (gprToString ctx.rs)
  | .rt => .ok (gprToString ctx.rt)
  | .fd => .ok (.var (.fprFl ctx.fd))
  | .fs => .ok (.var (.fprFl ctx.fs))
  | .ft => .ok (.var (.fprFl ctx.ft))
  | .fdDouble => .ok (.var (.fprD ctx.fd))
  | .fsDouble => .ok (.var (.fprD ctx.fs))
  | .ftDouble => .ok (.var (.fprD ctx.ft))
  | .fdU32L => .ok (fprU32lToString ctx.fd)
  | .fsU32L => .ok (fprU32lToString ctx.fs)
  | .ftU32L => .ok (fprU32lToString ctx.ft)
  | .fdU32H | .fsU32H | .ftU32H => .error (.unhandledOperand operand)
  | .fdU64 => .ok (.var (.fprU64 ctx.fd))
  | .fsU64 => .ok (.var (.fprU64 ctx.fs))
  | .ftU64 => .ok (.var (.fprU64 ctx.ft))
  | .immU16 =>
    if ctx.relocType ≠ .none then unsignedReloc ctx else .ok (literal ctx.imm16.toNat)
  | .immS16 =>
    if ctx.relocType ≠ .none then signedReloc ctx else .ok (signedLiteral ctx.imm16.toInt)
  | .sa => .ok (literal ctx.sa.val)
  | .sa32 => .ok (.binary .add (literal ctx.sa.val) (literal 32))
  | .cop1cs => .ok (.var .c1cs)
  | .hi => .ok (.var .hi)
  | .lo => .ok (.var .lo)
  | .zero => .ok (literal 0)

/-- The operand with its transform. -/
def getOperand (operand : Operand) (operation : UnaryOpType) (ctx : InstructionContext) :
    Except GeneratorError CExpr :=
  (operandText operand ctx).map (unaryAffixes operation)

/-- How an operation is spelled: a call of its operands, an operator between them, or a call or
a `~` around the operator. -/
inductive OpNotation
  | func (f : Callee)
  | between (op : BinOp)
  | funcBetween (f : Callee) (op : BinOp)
  | complBetween (op : BinOp)
  | constant
  deriving DecidableEq, Repr

/-- The spelling of each operation; the constants have none. -/
def getNotation : BinaryOpType → OpNotation
  | .add32 => .func .add32
  | .sub32 => .func .sub32
  | .add64 => .between .add
  | .sub64 => .between .sub
  | .addFloat | .addDouble => .between .add
  | .subFloat | .subDouble => .between .sub
  | .mulFloat => .func (.float .mulS)
  | .mulDouble => .func (.float .mulD)
  | .divFloat => .func (.float .divS)
  | .divDouble => .func (.float .divD)
  | .and64 => .between .and
  | .or64 => .between .or
  | .nor64 => .complBetween .or
  | .xor64 => .between .xor
  | .sll32 => .funcBetween .s32 .shl
  | .sll64 => .between .shl
  | .srl32 => .funcBetween .s32 .shr
  | .srl64 => .between .shr
  | .sra32 => .funcBetween .s32 .shr
  | .sra64 => .between .shr
  | .equal | .equalFloat | .equalDouble => .between .eq
  | .notEqual => .between .ne
  | .less | .lessFloat | .lessDouble => .between .lt
  | .lessEq | .lessEqFloat | .lessEqDouble => .between .le
  | .greater => .between .gt
  | .greaterEq => .between .ge
  | .ld => .func .ld
  | .lw => .func .memW
  | .lwu => .func .memWU
  | .lh => .func .memH
  | .lhu => .func .memHU
  | .lb => .func .memB
  | .lbu => .func .memBU
  | .ldl => .func .doLdl
  | .ldr => .func .doLdr
  | .lwl => .func .doLwl
  | .lwr => .func .doLwr
  | .true_ | .false_ => .constant

/-- The loads that also take `rdram` and the destination. -/
def takesOutput : BinaryOpType → Bool
  | .lwl | .lwr | .ldl | .ldr => true
  | _ => false

/-- The text of an operation on two printed operands, with a destination that prints as
`output`. A comparison other than with a plain zero is made a value, and an equality with a plain
zero is printed without its zero. -/
def spellBinary (type : BinaryOpType) (operands : BinaryOperands) (output a b : CExpr) : CExpr :=
  let secondIsPlainZero := operands.operand1 = .zero ∧ operands.operandOperation1 = .none
  let firstIsFloat := operands.operand0 = .fs ∨ operands.operand0 = .fsDouble
  if type = .less ∧ ¬ (secondIsPlainZero ∨ firstIsFloat) then
    .cond (.binary .lt a b) (literal 1) (literal 0)
  else if type = .equal ∧ secondIsPlainZero then
    .unary .lnot a
  else if type = .notEqual ∧ secondIsPlainZero then
    a
  else
    match getNotation type with
    | .func f => if takesOutput type then .call₃ f output a b else .call₂ f a b
    | .between op => .binary op a b
    | .funcBetween f op => .call₁ f (.binary op a b)
    | .complBetween op => .unary .compl (.binary op a b)
    | .constant => if type = .true_ then literal 1 else literal 0

/-- The expression of an operation whose destination prints as `output`. -/
def getBinaryExpr (type : BinaryOpType) (operands : BinaryOperands) (ctx : InstructionContext)
    (output : CExpr) : Except GeneratorError CExpr := do
  let a ← getOperand operands.operand0 operands.operandOperation0 ctx
  let b ← getOperand operands.operand1 operands.operandOperation1 ctx
  return spellBinary type operands output a b

/-- Whether the destination is `$zero`. -/
def isZeroGprOperand (operand : Operand) (ctx : InstructionContext) : Bool :=
  match operand with
  | .rd => ctx.rd = 0
  | .rs => ctx.rs = 0
  | .rt => ctx.rt = 0
  | _ => false

/-- Nothing is printed for an operation that writes `$zero`. -/
def processBinaryOp (op : BinaryOp) (ctx : InstructionContext) :
    Except GeneratorError (List CStatement) := do
  if isZeroGprOperand op.output ctx then return []
  let output ← getOperand op.output .none ctx
  let expression ← getBinaryExpr op.type op.operands ctx output
  return [.assign output expression]

def processUnaryOp (op : UnaryOp) (ctx : InstructionContext) :
    Except GeneratorError (List CStatement) := do
  if isZeroGprOperand op.output ctx then return []
  let output ← getOperand op.output .none ctx
  let input ← getOperand op.input op.operation ctx
  return [.assign output input]

def processStoreOp (op : StoreOp) (ctx : InstructionContext) :
    Except GeneratorError (List CStatement) := do
  let base ← getOperand .base .none ctx
  let imm ← getOperand .immS16 .none ctx
  let value ← getOperand op.valueInput .none ctx
  match op.type with
  | .sd | .sdc1 => return [.sd value imm base]
  | .sdl | .sdr | .swl | .swr => return [.call op.type imm base value]
  | .sw | .sh | .sb | .swc1 => return [.assignMem op.type imm base value]

/-- The condition of the `if` that a conditional branch prints. -/
def branchCondition (op : ConditionalBranchOp) (ctx : InstructionContext) :
    Except GeneratorError CExpr :=
  getBinaryExpr op.comparison op.operands ctx (literal 0)

end CGenerator

/-! ### Execution -/

/-- An assignment converts to the object's type. Floating-point registers are not modelled. -/
def Machine.assign (m : Machine) (v : CVal) : Object → Option Machine
  | .gpr r => some { m with gpr := fun q => if q = r then (v.convert uint64).bits else m.gpr q }
  | .hi => some { m with hi := (v.convert uint64).bits }
  | .lo => some { m with lo := (v.convert uint64).bits }
  | .c1cs => some { m with c1cs := (v.convert int32).bits.setWidth 32 }
  | _ => none

/-- The memory after an assignment through a macro. -/
def assignMem (rdram : Rdram) (type : StoreOpType) (offset reg value : CVal) : Option Rdram :=
  match type with
  | .sw | .swc1 => setMemW rdram offset reg value
  | .sh => (memHOffset offset reg).bind fun o => rdram.store int16 o value
  | .sb => (memBOffset offset reg).bind fun o => rdram.store int8 o value
  | _ => none

/-- The memory after a call of a helper. -/
def callStore (rdram : Rdram) (type : StoreOpType) (offset reg value : CVal) : Option Rdram :=
  match type with
  | .swl => doSwl rdram offset reg value
  | .swr => doSwr rdram offset reg value
  | .sdl => doSdl rdram offset reg value
  | .sdr => doSdr rdram offset reg value
  | _ => none

/-- What a printed statement does; `none` is undefined behaviour, or a floating-point operand. -/
def CStatement.exec (m : Machine) : CStatement → Option Machine
  | .assign output value => do
    let v ← value.eval m.env
    match output with
    | .var x => m.assign v x
    | _ => none
  | .assignMem type offset reg value => do
    let rdram ← N64Recomp.assignMem m.rdram type (← offset.eval m.env) (← reg.eval m.env)
      (← value.eval m.env)
    return { m with rdram }
  | .sd value offset reg => do
    let rdram ← N64Recomp.sd m.rdram (← value.eval m.env) (← offset.eval m.env)
      (← reg.eval m.env)
    return { m with rdram }
  | .call type offset reg value => do
    let rdram ← callStore m.rdram type (← offset.eval m.env) (← reg.eval m.env)
      (← value.eval m.env)
    return { m with rdram }

/-- Statements in sequence. -/
def execAll (m : Machine) (statements : List CStatement) : Option Machine :=
  statements.foldlM CStatement.exec m

end N64Recomp
