import N64Recomp.CGenerator.Operands
import N64Recomp.Sljit.Basic

/-!
# The live generator: operands and operations

The instructions that `LiveGenerator` emits for the operations of the decode tables. The guest's
registers are fields of the context in the host's memory, except for `hi`, `lo` and the condition
of the floating-point unit, which are kept in saved registers. An emission that sets the
generator's error flag is `none`.

## Main definitions

* `Slot`, `LiveInstr`: the memory operands, and the instructions
* `LiveGenerator.getOperandValues`, `LiveGenerator.loadRelocatedAddress`: the operands
* `LiveGenerator.processBinaryOp`, `LiveGenerator.processUnaryOp`,
  `LiveGenerator.processStoreOp`: the operations
-/

namespace N64Recomp

open Sljit (Reg Cond Op2)

/-- The places in memory that the generated code names. -/
inductive Slot
  /-- `SLJIT_MEM1(Registers::ctx)` at the offset of a general-purpose register. -/
  | gpr (r : Fin 32)
  /-- The same at the offset of a floating-point register, or of the pointer `f_odd`. -/
  | fprFl (i : Fin 32) | fprD (i : Fin 32) | fprU32l (i : Fin 32) | fprU64 (i : Fin 32)
  | fOddPointer
  /-- `SLJIT_MEM1(addressRegister)` at the offset of an element. -/
  | fOdd (addressRegister : Reg) (index : Nat)
  /-- `SLJIT_MEM2(Registers::rdram, index)`. -/
  | rdram (index : Reg)
  /-- `SLJIT_MEM0()` at the address of a section's runtime base. -/
  | sectionAddress (reference : Bool) (index : BitVec 32)
  deriving DecidableEq, Repr

/-- The floating-point instructions and the host functions that the generated code uses for an
operation. -/
inductive LiveFloat
  | unary (op : UnaryOpType)
  | binary (op : BinaryOpType)
  deriving DecidableEq, Repr

abbrev LiveOperand := Sljit.Operand Slot

abbrev LiveInstr := Sljit.Instr Slot LiveFloat

/-! ### Registers -/

namespace Registers

/-- The base of the memory window, less the offset of the window in the guest. -/
abbrev rdram : Reg := .s 0
abbrev ctx : Reg := .s 1
abbrev c1cs : Reg := .s 2
abbrev hi : Reg := .s 3
abbrev lo : Reg := .s 4
abbrev tempReg1 : Reg := .r 0
abbrev tempReg2 : Reg := .r 1
abbrev tempReg3 : Reg := .r 2
abbrev tempReg4 : Reg := .r 3

end Registers

open Registers

namespace LiveGenerator

/-! ### Operands -/

/-- `$zero` is an immediate zero, any other register its field of the context. -/
def getGprValues (r : Fin 32) : LiveOperand :=
  if r = 0 then .imm 0 else .mem (.gpr r)

def isFprU32l : Operand → Bool
  | .fdU32L | .fsU32L | .ftU32L => true
  | _ => false

/-- Odd registers are behind a pointer, which is loaded first. -/
def getFprU32lContextOffset (i : Fin 32) (oddFloatAddressRegister : Reg) :
    List LiveInstr × LiveOperand :=
  if i.val % 2 = 1 then
    ([.op1 .mov (.reg oddFloatAddressRegister) (.mem .fOddPointer)],
      .mem (.fOdd oddFloatAddressRegister ((i.val - 1) * 2)))
  else ([], .mem (.fprU32l i))

/-- The operand, after the code that makes it addressable. -/
def getOperandValues (operand : Operand) (ctx : InstructionContext)
    (oddFloatAddressRegister : Reg) : Option (List LiveInstr × LiveOperand) :=
  match operand with
  | .rd => some ([], getGprValues ctx.rd)
  | .rs => some ([], getGprValues ctx.rs)
  | .rt => some ([], getGprValues ctx.rt)
  | .fd => some ([], .mem (.fprFl ctx.fd))
  | .fs => some ([], .mem (.fprFl ctx.fs))
  | .ft => some ([], .mem (.fprFl ctx.ft))
  | .fdDouble => some ([], .mem (.fprD ctx.fd))
  | .fsDouble => some ([], .mem (.fprD ctx.fs))
  | .ftDouble => some ([], .mem (.fprD ctx.ft))
  | .fdU32L => some (getFprU32lContextOffset ctx.fd oddFloatAddressRegister)
  | .fsU32L => some (getFprU32lContextOffset ctx.fs oddFloatAddressRegister)
  | .ftU32L => some (getFprU32lContextOffset ctx.ft oddFloatAddressRegister)
  | .fdU32H | .fsU32H | .ftU32H => none
  | .fdU64 => some ([], .mem (.fprU64 ctx.fd))
  | .fsU64 => some ([], .mem (.fprU64 ctx.fs))
  | .ftU64 => some ([], .mem (.fprU64 ctx.ft))
  | .immU16 => some ([], .imm (ctx.imm16.setWidth 64))
  | .immS16 => some ([], .imm (ctx.imm16.signExtend 64))
  | .sa => some ([], .imm (BitVec.ofNat 64 ctx.sa.val))
  | .sa32 => some ([], .imm (BitVec.ofNat 64 (ctx.sa.val + 32)))
  | .cop1cs => some ([], .reg c1cs)
  | .hi => some ([], .reg hi)
  | .lo => some ([], .reg lo)
  | .zero => some ([], .imm 0)

def isImm : LiveOperand → Bool
  | .imm _ => true
  | _ => false

def outputsToZero (output : Operand) (ctx : InstructionContext) : Bool :=
  match output with
  | .rd => ctx.rd = 0
  | .rt => ctx.rt = 0
  | .rs => ctx.rs = 0
  | _ => false

/-- The runtime base of the target's section, and the target's offset in it. -/
def loadRelocatedAddress (ctx : InstructionContext) (reg : Reg) : List LiveInstr :=
  .op1 .s32 (.reg reg) (.mem (.sectionAddress ctx.relocTagAsReference ctx.relocSectionIndex)) ::
    if ctx.relocTargetSectionOffset ≠ 0 then
      [.op2 .add false (.reg reg) (.reg reg) (.imm (ctx.relocTargetSectionOffset.setWidth 64))]
    else []

/-! ### Binary operations -/

section Binary

variable (dst src1 src2 : LiveOperand)

/-- Widens `temp_reg1` and writes it. -/
def storeSext32 : List LiveInstr :=
  [.op1 .s32 (.reg tempReg1) (.reg tempReg1), .op1 .mov dst (.reg tempReg1)]

def emitAlu32 (op : Op2) : List LiveInstr :=
  .op2 op true (.reg tempReg1) src1 src2 :: storeSext32 dst

def emitAlu64 (op : Op2) : List LiveInstr := [.op2 op false dst src1 src2]

def emitLoad (op : Sljit.MovType) (addressXor : BitVec 64) : List LiveInstr :=
  [.op2 .add false (.reg tempReg1) src1 src2] ++
  (if addressXor ≠ 0 then
    [.op2 .xor false (.reg tempReg1) (.reg tempReg1) (.imm addressXor)] else []) ++
  [.op1 op (.reg tempReg1) (.mem (.rdram tempReg1)), .op1 .mov dst (.reg tempReg1)]

def emitIcmp (cmpUnsigned : Bool) (opUnsigned opSigned : Cond) : List LiveInstr :=
  let op := if cmpUnsigned then opUnsigned else opSigned
  [.compare op src1 src2, .opFlags dst op]

/-- The size of the word that an unaligned access works on. -/
def wordSize (doubleword : Bool) : BitVec 64 := if doubleword then 8 else 4

/-- All bits of that word. -/
def wordMask (doubleword : Bool) : BitVec 64 :=
  if doubleword then 0xFFFFFFFFFFFFFFFF else 0xFFFFFFFF

/-- The word around the address in `temp_reg1`, in the order of its bytes in the guest. -/
def loadAlignedWord (doubleword : Bool) (reg : Reg) : LiveInstr :=
  if doubleword then .op2 .rotl false (.reg reg) (.mem (.rdram tempReg1)) (.imm 32)
  else .op1 .s32 (.reg reg) (.mem (.rdram tempReg1))

def emitUnalignedLoad (left doubleword : Bool) : List LiveInstr :=
  let shiftOp : Op2 := if left then .shl else .lshr
  [.op2 .add false (.reg tempReg1) src1 src2,
    -- the misalignment, and the aligned address
    .op2 .and false (.reg tempReg2) (.reg tempReg1) (.imm (wordSize doubleword - 1)),
    .op2 .and false (.reg tempReg1) (.reg tempReg1) (.imm (~~~(wordSize doubleword - 1))),
    loadAlignedWord doubleword tempReg1] ++
  (if left then []
    else [.op2 .sub false (.reg tempReg2) (.imm (wordSize doubleword - 1)) (.reg tempReg2)]) ++
  -- the misalignment in bits, and the mask of the loaded bytes
  [.op2 .shl false (.reg tempReg2) (.reg tempReg2) (.imm 3),
    .op2 shiftOp (!doubleword) (.reg tempReg3) (.imm (wordMask doubleword)) (.reg tempReg2)] ++
  (if doubleword then [] else [.op1 .s32 (.reg tempReg3) (.reg tempReg3)]) ++
  [.op2 shiftOp false (.reg tempReg1) (.reg tempReg1) (.reg tempReg2)] ++
  (if left && !doubleword then [.op1 .s32 (.reg tempReg1) (.reg tempReg1)] else []) ++
  [.op2 .and false (.reg tempReg1) (.reg tempReg1) (.reg tempReg3),
    .op2 .xor false (.reg tempReg3) (.reg tempReg3) (.imm (-1)),
    .op2 .and false (.reg tempReg3) dst (.reg tempReg3),
    .op2 .or false dst (.reg tempReg3) (.reg tempReg1)]

/-- The code of an operation; none for an operation that the generator does not handle. -/
def binaryCode (type : BinaryOpType) (cmpUnsigned : Bool) : Option (List LiveInstr) :=
  match type with
  | .add32 => some (emitAlu32 dst src1 src2 .add)
  | .sub32 => some (emitAlu32 dst src1 src2 .sub)
  | .add64 => some (emitAlu64 dst src1 src2 .add)
  | .sub64 => some (emitAlu64 dst src1 src2 .sub)
  | .addFloat | .addDouble | .subFloat | .subDouble | .mulFloat | .mulDouble | .divFloat
  | .divDouble | .equalFloat | .lessFloat | .lessEqFloat | .equalDouble | .lessDouble
  | .lessEqDouble => some [.float (.binary type) dst [src1, src2]]
  | .and64 => some (emitAlu64 dst src1 src2 .and)
  | .or64 => some (emitAlu64 dst src1 src2 .or)
  | .nor64 => some [.op2 .or false (.reg tempReg1) src1 src2,
      .op2 .xor false dst (.reg tempReg1) (.imm (-1))]
  | .xor64 => some (emitAlu64 dst src1 src2 .xor)
  | .sll32 => some (emitAlu32 dst src1 src2 .mshl)
  | .sll64 => some (emitAlu64 dst src1 src2 .mshl)
  | .srl32 => some (emitAlu32 dst src1 src2 .mlshr)
  | .srl64 => some (emitAlu64 dst src1 src2 .mlshr)
  -- the upper half of the register is shifted into the result
  | .sra32 => some ([.op2 .and true (.reg tempReg1) src2 (.imm 0b11111),
      .op2 .mashr false (.reg tempReg1) src1 (.reg tempReg1)] ++ storeSext32 dst)
  | .sra64 => some (emitAlu64 dst src1 src2 .mashr)
  | .equal => some (emitIcmp dst src1 src2 cmpUnsigned .equal .equal)
  | .notEqual => some (emitIcmp dst src1 src2 cmpUnsigned .notEqual .notEqual)
  | .less => some (emitIcmp dst src1 src2 cmpUnsigned .less .sigLess)
  | .lessEq => some (emitIcmp dst src1 src2 cmpUnsigned .lessEqual .sigLessEqual)
  | .greater => some (emitIcmp dst src1 src2 cmpUnsigned .greater .sigGreater)
  | .greaterEq => some (emitIcmp dst src1 src2 cmpUnsigned .greaterEqual .sigGreaterEqual)
  | .false_ => some [.op1 .mov dst (.imm 0)]
  | .ld => some [.op2 .add false (.reg tempReg1) src1 src2,
      .op2 .rotl false (.reg tempReg1) (.mem (.rdram tempReg1)) (.imm 32),
      .op1 .mov dst (.reg tempReg1)]
  | .lw => some (emitLoad dst src1 src2 .s32 0)
  | .lwu => some (emitLoad dst src1 src2 .u32 0)
  | .lh => some (emitLoad dst src1 src2 .s16 2)
  | .lhu => some (emitLoad dst src1 src2 .u16 2)
  | .lb => some (emitLoad dst src1 src2 .s8 3)
  | .lbu => some (emitLoad dst src1 src2 .u8 3)
  | .ldl => some (emitUnalignedLoad dst src1 src2 true true)
  | .ldr => some (emitUnalignedLoad dst src1 src2 false true)
  | .lwl => some (emitUnalignedLoad dst src1 src2 true false)
  | .lwr => some (emitUnalignedLoad dst src1 src2 false false)
  | .true_ => none

end Binary

/-- The operations whose immediate may be relocated. -/
def takesRelocation : BinaryOpType → Bool
  | .ld | .lw | .lwu | .lh | .lhu | .lb | .lbu | .ldl | .ldr | .lwl | .lwr | .add64
  | .add32 => true
  | _ => false

/-- The second source of a binary operation: the low half of the target's address, when the
instruction is relocated. -/
def relocatedSource (type : BinaryOpType) (ctx : InstructionContext) (src2 : LiveOperand) :
    Option (List LiveInstr × LiveOperand) :=
  if ctx.relocType = .none then some ([], src2)
  else if ctx.relocType = .lo16 ∧ isImm src2 ∧ takesRelocation type then
    some (loadRelocatedAddress ctx tempReg1 ++ [.op1 .s16 (.reg tempReg1) (.reg tempReg1)],
      .reg tempReg1)
  else none

/-- The transforms that the generator accepts on the first and on the second source. -/
def validOperandOperation0 : UnaryOpType → Bool
  | .none | .toU64 | .toS64 | .toU32 => true
  | _ => false

def validOperandOperation1 : UnaryOpType → Bool
  | .none | .toU64 | .toS64 | .mask5 | .mask6 => true
  | _ => false

def processBinaryOp (op : BinaryOp) (ctx : InstructionContext) : Option (List LiveInstr) :=
  if outputsToZero op.output ctx then some []
  else if isFprU32l op.operands.operand0 || isFprU32l op.operands.operand1 then none
  else if isFprU32l op.output && op.type != .lw then none
  else do
    let output ← getOperandValues op.output ctx tempReg2
    let input0 ← getOperandValues op.operands.operand0 ctx tempReg2
    let input1 ← getOperandValues op.operands.operand1 ctx tempReg2
    let source ← relocatedSource op.type ctx input1.2
    if validOperandOperation0 op.operands.operandOperation0 &&
        validOperandOperation1 op.operands.operandOperation1 then
      let cmpUnsigned := op.operands.operandOperation0 != .toS64
      let code ← binaryCode output.2 input0.2 source.2 op.type cmpUnsigned
      return output.1 ++ source.1 ++ code
    else none

/-! ### Unary operations -/

/-- The code of an operation; none for a transform that is only for operands. -/
def unaryCode (op : UnaryOp) (dst src : LiveOperand) : Option (List LiveInstr) :=
  match op.operation with
  | .lui =>
    match src with
    | .imm x => some [.op1 .mov dst (.imm (((x <<< 16).setWidth 32).signExtend 64))]
    | _ => none
  | .none => some [.op1 (if isFprU32l op.output then .mov32 else .mov) dst src]
  | .toS32 | .toInt32 =>
    some [.op1 .s32 (.reg tempReg1) src, .op1 .mov dst (.reg tempReg1)]
  | .toU32 | .toS64 | .toU64 | .mask5 | .mask6 => none
  | operation => some [.float (.unary operation) dst [src]]

def processUnaryOp (op : UnaryOp) (ctx : InstructionContext) : Option (List LiveInstr) :=
  if outputsToZero op.output ctx then some []
  else if isFprU32l op.input && isFprU32l op.output then none
  else do
    let output ← getOperandValues op.output ctx tempReg3
    let input ← getOperandValues op.input ctx tempReg3
    if ctx.relocType ≠ .none then
      if op.operation = .lui ∧ op.input = .immU16 ∧ ctx.relocType = .hi16 then
        -- the address less its sign-extended low half
        return output.1 ++ input.1 ++ loadRelocatedAddress ctx tempReg1 ++
          [.op1 .s16 (.reg tempReg2) (.reg tempReg1),
            .op2 .sub false output.2 (.reg tempReg1) (.reg tempReg2)]
      else none
    else
      let code ← unaryCode op output.2 input.2
      return output.1 ++ input.1 ++ code

/-! ### Stores -/

/-- Merges the source into the word around the address in `temp_reg1`. -/
def emitUnalignedStore (src : LiveOperand) (left doubleword : Bool) : List LiveInstr :=
  let shiftOp : Op2 := if left then .lshr else .shl
  [.op2 .and false (.reg tempReg2) (.reg tempReg1) (.imm (wordSize doubleword - 1)),
    .op2 .and false (.reg tempReg1) (.reg tempReg1) (.imm (~~~(wordSize doubleword - 1))),
    loadAlignedWord doubleword tempReg3] ++
  (if left then []
    else [.op2 .sub false (.reg tempReg2) (.imm (wordSize doubleword - 1)) (.reg tempReg2)]) ++
  [.op2 .shl false (.reg tempReg2) (.reg tempReg2) (.imm 3),
    .op2 shiftOp false (.reg tempReg4) src (.reg tempReg2),
    .op2 shiftOp (!doubleword) (.reg tempReg2) (.imm (wordMask doubleword)) (.reg tempReg2),
    .op2 .and false (.reg tempReg4) (.reg tempReg4) (.reg tempReg2),
    .op2 .xor false (.reg tempReg2) (.reg tempReg2) (.imm (-1)),
    .op2 .and false (.reg tempReg3) (.reg tempReg3) (.reg tempReg2)] ++
  if doubleword then
    [.op2 .or false (.reg tempReg4) (.reg tempReg4) (.reg tempReg3),
      .op2 .rotl false (.mem (.rdram tempReg1)) (.reg tempReg4) (.imm 32)]
  else [.op2 .or true (.mem (.rdram tempReg1)) (.reg tempReg4) (.reg tempReg3)]

/-- The store of the source at the address in `temp_reg1`. -/
def storeCode (type : StoreOpType) (src : LiveOperand) : List LiveInstr :=
  match type with
  | .sd | .sdc1 => [.op2 .rotl false (.mem (.rdram tempReg1)) src (.imm 32)]
  | .sdl => emitUnalignedStore src true true
  | .sdr => emitUnalignedStore src false true
  | .sw | .swc1 => [.op1 .u32 (.mem (.rdram tempReg1)) src]
  | .swl => emitUnalignedStore src true false
  | .swr => emitUnalignedStore src false false
  | .sh => [.op2 .xor false (.reg tempReg1) (.reg tempReg1) (.imm 2),
      .op1 .u16 (.mem (.rdram tempReg1)) src]
  | .sb => [.op2 .xor false (.reg tempReg1) (.reg tempReg1) (.imm 3),
      .op1 .u8 (.mem (.rdram tempReg1)) src]

/-- The address of a store. The base is read from the context also when it is `$zero`. -/
def storeAddress (ctx : InstructionContext) : Option (List LiveInstr) :=
  match ctx.relocType with
  | .none => some [.op2 .add false (.reg tempReg1) (.mem (.gpr ctx.rs))
      (.imm (ctx.imm16.signExtend 64))]
  | .lo16 => some (loadRelocatedAddress ctx tempReg1 ++
      [.op1 .s16 (.reg tempReg1) (.reg tempReg1),
        .op2 .add false (.reg tempReg1) (.reg tempReg1) (.mem (.gpr ctx.rs))])
  | _ => none

def processStoreOp (op : StoreOp) (ctx : InstructionContext) : Option (List LiveInstr) := do
  let value ← getOperandValues op.valueInput ctx tempReg2
  let address ← storeAddress ctx
  return value.1 ++ address ++ storeCode op.type value.2

end LiveGenerator

end N64Recomp
