import N64Recomp.Data.Widths

/-!
# Decode tables

The plain-data records that the code generators emit from, one for each instruction that is
translated by its shape: unary, binary, conditional branch or store.

## Main definitions

* `InstrId`: the instructions the recompiler tells apart
* `UnaryOp`, `BinaryOp`, `ConditionalBranchOp`, `StoreOp`: the records
* `unaryOps`, `binaryOps`, `conditionalBranchOps`, `storeOps`: the tables
-/

namespace N64Recomp

/-- The identity of a decoded CPU instruction; `other` is any that no case of the recompiler
names. -/
inductive InstrId
  | lui | mthi | mtlo | mfhi | mflo | mtc1 | mfc1 | dmtc1 | dmfc1 | movS | movD | negS | negD
  | absS | absD | sqrtS | sqrtD | cvtSW | cvtWS | cvtDW | cvtWD | cvtDS | cvtSD | cvtDL | cvtLD
  | cvtSL | cvtLS | truncWS | truncWD | roundWS | roundWD | ceilWS | ceilWD | floorWS | floorWD
  | addu | add | negu | subu | sub | daddu | dadd | dsubu | dsub | addi | addiu | daddi | daddiu
  | and | or | nor | xor | andi | ori | xori | sllv | dsllv | srlv | dsrlv | srav | dsrav | sll
  | dsll | dsll32 | srl | dsrl | dsrl32 | sra | dsra | dsra32 | slt | sltu | slti | sltiu | addS
  | addD | subS | subD | mulS | mulD | divS | divD | cFS | cEqS | cOltS | cOleS | cSfS | cSeqS
  | cLtS | cLeS | cUnS | cUeqS | cUltS | cUleS | cNgleS | cNglS | cNgeS | cNgtS | cFD | cEqD
  | cOltD | cOleD | cDfD | cDeqD | cLtD | cLeD | cUnD | cUeqD | cUltD | cUleD | cNgleD | cNglD
  | cNgeD | cNgtD | ld | lw | lwu | lh | lhu | lb | lbu | ldl | ldr | lwl | lwr | lwc1 | ldc1
  | beq | beql | bne | bnel | bgez | bgezl | bgtz | bgtzl | blez | blezl | bltz | bltzl | bgezal
  | bgezall | bltzal | bltzall | bc1f | bc1fl | bc1t | bc1tl | sd | sdl | sdr | sw | swl | swr
  | sh | sb | sdc1 | swc1
  | nop | cache | mfc0 | mtc0 | ctc1 | cfc1 | mult | multu | div | divu | dmult | dmultu | ddiv
  | ddivu | j | b | jal | jalr | jr | syscall | break_ | other
  deriving DecidableEq, Repr

/-- The width or variant of a store. -/
inductive StoreOpType
  | sd | sdl | sdr | sw | swl | swr | sh | sb | sdc1 | swc1
  deriving DecidableEq, Repr

/-- A transform of a single value. -/
inductive UnaryOpType
  | none | toS32 | toU32 | toS64 | toU64 | lui | mask5 | mask6 | toInt32 | negateFloat
  | negateDouble | absFloat | absDouble | sqrtFloat | sqrtDouble | convertSFromW | convertWFromS
  | convertDFromW | convertWFromD | convertDFromS | convertSFromD | convertDFromL | convertLFromD
  | convertSFromL | convertLFromS | truncateWFromS | truncateWFromD | truncateLFromS
  | truncateLFromD | roundWFromS | roundWFromD | roundLFromS | roundLFromD | ceilWFromS
  | ceilWFromD | ceilLFromS | ceilLFromD | floorWFromS | floorWFromD | floorLFromS | floorLFromD
  deriving DecidableEq, Repr

/-- A two-input operation. Loads compute their address from the two inputs. -/
inductive BinaryOpType
  | add32 | sub32 | add64 | sub64 | addFloat | addDouble | subFloat | subDouble | mulFloat
  | mulDouble | divFloat | divDouble | and64 | or64 | nor64 | xor64 | sll32 | sll64 | srl32
  | srl64 | sra32 | sra64 | equal | notEqual | less | lessEq | greater | greaterEq | equalFloat
  | lessFloat | lessEqFloat | equalDouble | lessDouble | lessEqDouble | ld | lw | lwu | lh | lhu
  | lb | lbu | ldl | ldr | lwl | lwr | true_ | false_
  deriving DecidableEq, Repr

/-- Where an operand comes from. -/
inductive Operand
  | rd | rs | rt | fd | fs | ft | fdDouble | fsDouble | ftDouble | fdU32L | fsU32L | ftU32L
  | fdU32H | fsU32H | ftU32H | fdU64 | fsU64 | ftU64 | immU16 | immS16 | sa | sa32 | cop1cs | hi
  | lo | zero
  deriving DecidableEq, Repr

/-- The base register of a load or a store. -/
abbrev Operand.base : Operand := .rs

structure StoreOp where
  type : StoreOpType
  valueInput : Operand
  deriving DecidableEq, Repr

structure UnaryOp where
  operation : UnaryOpType
  output : Operand
  input : Operand
  /-- Whether the FR bit is checked for odd float registers. -/
  checkFr : Bool
  /-- Whether the input is checked for being NaN. -/
  checkNan : Bool
  deriving DecidableEq, Repr

/-- The two source operands, each with the transform applied to it first. -/
structure BinaryOperands where
  operandOperation0 : UnaryOpType
  operandOperation1 : UnaryOpType
  operand0 : Operand
  operand1 : Operand
  deriving DecidableEq, Repr

structure BinaryOp where
  type : BinaryOpType
  output : Operand
  operands : BinaryOperands
  checkFr : Bool
  checkNan : Bool
  deriving DecidableEq, Repr

structure ConditionalBranchOp where
  comparison : BinaryOpType
  operands : BinaryOperands
  /-- Whether the branch links. -/
  link : Bool
  /-- Whether the delay slot is skipped when the branch is not taken. -/
  likely : Bool
  deriving DecidableEq, Repr

/-- The record of two operands and their transforms. -/
def ops (lhs rhs : Operand) (lhsPre rhsPre : UnaryOpType) : BinaryOperands :=
  ⟨lhsPre, rhsPre, lhs, rhs⟩

def unaryOps : InstrId → Option UnaryOp
  | .lui => some ⟨.lui, .rt, .immU16, false, false⟩
  | .mthi => some ⟨.none, .hi, .rs, false, false⟩
  | .mtlo => some ⟨.none, .lo, .rs, false, false⟩
  | .mfhi => some ⟨.none, .rd, .hi, false, false⟩
  | .mflo => some ⟨.none, .rd, .lo, false, false⟩
  | .mtc1 => some ⟨.none, .fsU32L, .rt, false, false⟩
  | .mfc1 => some ⟨.toInt32, .rt, .fsU32L, false, false⟩
  | .dmtc1 => some ⟨.none, .fsU64, .rt, false, false⟩
  | .dmfc1 => some ⟨.none, .rt, .fsU64, false, false⟩
  | .movS => some ⟨.none, .fd, .fs, true, false⟩
  | .movD => some ⟨.none, .fdDouble, .fsDouble, true, false⟩
  | .negS => some ⟨.negateFloat, .fd, .fs, true, true⟩
  | .negD => some ⟨.negateDouble, .fdDouble, .fsDouble, true, true⟩
  | .absS => some ⟨.absFloat, .fd, .fs, true, true⟩
  | .absD => some ⟨.absDouble, .fdDouble, .fsDouble, true, true⟩
  | .sqrtS => some ⟨.sqrtFloat, .fd, .fs, true, true⟩
  | .sqrtD => some ⟨.sqrtDouble, .fdDouble, .fsDouble, true, true⟩
  | .cvtSW => some ⟨.convertSFromW, .fd, .fsU32L, true, false⟩
  | .cvtWS => some ⟨.convertWFromS, .fdU32L, .fs, true, false⟩
  | .cvtDW => some ⟨.convertDFromW, .fdDouble, .fsU32L, true, false⟩
  | .cvtWD => some ⟨.convertWFromD, .fdU32L, .fsDouble, true, false⟩
  | .cvtDS => some ⟨.convertDFromS, .fdDouble, .fs, true, true⟩
  | .cvtSD => some ⟨.convertSFromD, .fd, .fsDouble, true, true⟩
  | .cvtDL => some ⟨.convertDFromL, .fdDouble, .fsU64, true, false⟩
  | .cvtLD => some ⟨.convertLFromD, .fdU64, .fsDouble, true, true⟩
  | .cvtSL => some ⟨.convertSFromL, .fd, .fsU64, true, false⟩
  | .cvtLS => some ⟨.convertLFromS, .fdU64, .fs, true, true⟩
  | .truncWS => some ⟨.truncateWFromS, .fdU32L, .fs, true, false⟩
  | .truncWD => some ⟨.truncateWFromD, .fdU32L, .fsDouble, true, false⟩
  | .roundWS => some ⟨.roundWFromS, .fdU32L, .fs, true, false⟩
  | .roundWD => some ⟨.roundWFromD, .fdU32L, .fsDouble, true, false⟩
  | .ceilWS => some ⟨.ceilWFromS, .fdU32L, .fs, true, false⟩
  | .ceilWD => some ⟨.ceilWFromD, .fdU32L, .fsDouble, true, false⟩
  | .floorWS => some ⟨.floorWFromS, .fdU32L, .fs, true, false⟩
  | .floorWD => some ⟨.floorWFromD, .fdU32L, .fsDouble, true, false⟩
  | _ => none

def binaryOps : InstrId → Option BinaryOp
  | .addu | .add => some ⟨.add32, .rd, ops .rs .rt .none .none, false, false⟩
  | .negu | .subu | .sub => some ⟨.sub32, .rd, ops .rs .rt .none .none, false, false⟩
  | .daddu | .dadd => some ⟨.add64, .rd, ops .rs .rt .none .none, false, false⟩
  | .dsubu | .dsub => some ⟨.sub64, .rd, ops .rs .rt .none .none, false, false⟩
  | .addi | .addiu => some ⟨.add32, .rt, ops .rs .immS16 .none .none, false, false⟩
  | .daddi | .daddiu => some ⟨.add64, .rt, ops .rs .immS16 .none .none, false, false⟩
  | .and => some ⟨.and64, .rd, ops .rs .rt .none .none, false, false⟩
  | .or => some ⟨.or64, .rd, ops .rs .rt .none .none, false, false⟩
  | .nor => some ⟨.nor64, .rd, ops .rs .rt .none .none, false, false⟩
  | .xor => some ⟨.xor64, .rd, ops .rs .rt .none .none, false, false⟩
  | .andi => some ⟨.and64, .rt, ops .rs .immU16 .none .none, false, false⟩
  | .ori => some ⟨.or64, .rt, ops .rs .immU16 .none .none, false, false⟩
  | .xori => some ⟨.xor64, .rt, ops .rs .immU16 .none .none, false, false⟩
  | .sllv => some ⟨.sll32, .rd, ops .rt .rs .none .mask5, false, false⟩
  | .dsllv => some ⟨.sll64, .rd, ops .rt .rs .none .mask6, false, false⟩
  | .srlv => some ⟨.srl32, .rd, ops .rt .rs .toU32 .mask5, false, false⟩
  | .dsrlv => some ⟨.srl64, .rd, ops .rt .rs .toU64 .mask6, false, false⟩
  | .srav => some ⟨.sra32, .rd, ops .rt .rs .toS64 .mask5, false, false⟩
  | .dsrav => some ⟨.sra64, .rd, ops .rt .rs .toS64 .mask6, false, false⟩
  | .sll => some ⟨.sll32, .rd, ops .rt .sa .none .none, false, false⟩
  | .dsll => some ⟨.sll64, .rd, ops .rt .sa .none .none, false, false⟩
  | .dsll32 => some ⟨.sll64, .rd, ops .rt .sa32 .none .none, false, false⟩
  | .srl => some ⟨.srl32, .rd, ops .rt .sa .toU32 .none, false, false⟩
  | .dsrl => some ⟨.srl64, .rd, ops .rt .sa .toU64 .none, false, false⟩
  | .dsrl32 => some ⟨.srl64, .rd, ops .rt .sa32 .toU64 .none, false, false⟩
  | .sra => some ⟨.sra32, .rd, ops .rt .sa .toS64 .none, false, false⟩
  | .dsra => some ⟨.sra64, .rd, ops .rt .sa .toS64 .none, false, false⟩
  | .dsra32 => some ⟨.sra64, .rd, ops .rt .sa32 .toS64 .none, false, false⟩
  | .slt => some ⟨.less, .rd, ops .rs .rt .toS64 .toS64, false, false⟩
  | .sltu => some ⟨.less, .rd, ops .rs .rt .toU64 .toU64, false, false⟩
  | .slti => some ⟨.less, .rt, ops .rs .immS16 .toS64 .none, false, false⟩
  | .sltiu => some ⟨.less, .rt, ops .rs .immS16 .toU64 .none, false, false⟩
  | .addS => some ⟨.addFloat, .fd, ops .fs .ft .none .none, true, true⟩
  | .addD => some ⟨.addDouble, .fdDouble, ops .fsDouble .ftDouble .none .none, true, true⟩
  | .subS => some ⟨.subFloat, .fd, ops .fs .ft .none .none, true, true⟩
  | .subD => some ⟨.subDouble, .fdDouble, ops .fsDouble .ftDouble .none .none, true, true⟩
  | .mulS => some ⟨.mulFloat, .fd, ops .fs .ft .none .none, true, true⟩
  | .mulD => some ⟨.mulDouble, .fdDouble, ops .fsDouble .ftDouble .none .none, true, true⟩
  | .divS => some ⟨.divFloat, .fd, ops .fs .ft .none .none, true, true⟩
  | .divD => some ⟨.divDouble, .fdDouble, ops .fsDouble .ftDouble .none .none, true, true⟩
  | .cFS | .cSfS | .cUnS | .cNgleS => some ⟨.false_, .cop1cs, ops .fs .ft .none .none, true, false⟩
  | .cEqS | .cSeqS | .cUeqS | .cNglS =>
    some ⟨.equalFloat, .cop1cs, ops .fs .ft .none .none, true, false⟩
  | .cOltS | .cLtS | .cUltS | .cNgeS =>
    some ⟨.lessFloat, .cop1cs, ops .fs .ft .none .none, true, false⟩
  | .cOleS | .cLeS | .cUleS | .cNgtS =>
    some ⟨.lessEqFloat, .cop1cs, ops .fs .ft .none .none, true, false⟩
  | .cFD | .cDfD | .cUnD | .cNgleD =>
    some ⟨.false_, .cop1cs, ops .fsDouble .ftDouble .none .none, true, false⟩
  | .cEqD | .cDeqD | .cUeqD | .cNglD =>
    some ⟨.equalDouble, .cop1cs, ops .fsDouble .ftDouble .none .none, true, false⟩
  | .cOltD | .cLtD | .cUltD | .cNgeD =>
    some ⟨.lessDouble, .cop1cs, ops .fsDouble .ftDouble .none .none, true, false⟩
  | .cOleD | .cLeD | .cUleD | .cNgtD =>
    some ⟨.lessEqDouble, .cop1cs, ops .fsDouble .ftDouble .none .none, true, false⟩
  | .ld => some ⟨.ld, .rt, ops .base .immS16 .none .none, false, false⟩
  | .lw => some ⟨.lw, .rt, ops .base .immS16 .none .none, false, false⟩
  | .lwu => some ⟨.lwu, .rt, ops .base .immS16 .none .none, false, false⟩
  | .lh => some ⟨.lh, .rt, ops .base .immS16 .none .none, false, false⟩
  | .lhu => some ⟨.lhu, .rt, ops .base .immS16 .none .none, false, false⟩
  | .lb => some ⟨.lb, .rt, ops .base .immS16 .none .none, false, false⟩
  | .lbu => some ⟨.lbu, .rt, ops .base .immS16 .none .none, false, false⟩
  | .ldl => some ⟨.ldl, .rt, ops .base .immS16 .none .none, false, false⟩
  | .ldr => some ⟨.ldr, .rt, ops .base .immS16 .none .none, false, false⟩
  | .lwl => some ⟨.lwl, .rt, ops .base .immS16 .none .none, false, false⟩
  | .lwr => some ⟨.lwr, .rt, ops .base .immS16 .none .none, false, false⟩
  | .lwc1 => some ⟨.lw, .ftU32L, ops .base .immS16 .none .none, false, false⟩
  | .ldc1 => some ⟨.ld, .ftU64, ops .base .immS16 .none .none, true, false⟩
  | _ => none

def conditionalBranchOps : InstrId → Option ConditionalBranchOp
  | .beq => some ⟨.equal, ops .rs .rt .none .none, false, false⟩
  | .beql => some ⟨.equal, ops .rs .rt .none .none, false, true⟩
  | .bne => some ⟨.notEqual, ops .rs .rt .none .none, false, false⟩
  | .bnel => some ⟨.notEqual, ops .rs .rt .none .none, false, true⟩
  | .bgez => some ⟨.greaterEq, ops .rs .zero .toS64 .none, false, false⟩
  | .bgezl => some ⟨.greaterEq, ops .rs .zero .toS64 .none, false, true⟩
  | .bgtz => some ⟨.greater, ops .rs .zero .toS64 .none, false, false⟩
  | .bgtzl => some ⟨.greater, ops .rs .zero .toS64 .none, false, true⟩
  | .blez => some ⟨.lessEq, ops .rs .zero .toS64 .none, false, false⟩
  | .blezl => some ⟨.lessEq, ops .rs .zero .toS64 .none, false, true⟩
  | .bltz => some ⟨.less, ops .rs .zero .toS64 .none, false, false⟩
  | .bltzl => some ⟨.less, ops .rs .zero .toS64 .none, false, true⟩
  | .bgezal => some ⟨.greaterEq, ops .rs .zero .toS64 .none, true, false⟩
  | .bgezall => some ⟨.greaterEq, ops .rs .zero .toS64 .none, true, true⟩
  | .bltzal => some ⟨.less, ops .rs .zero .toS64 .none, true, false⟩
  | .bltzall => some ⟨.less, ops .rs .zero .toS64 .none, true, true⟩
  | .bc1f => some ⟨.equal, ops .cop1cs .zero .none .none, false, false⟩
  | .bc1fl => some ⟨.equal, ops .cop1cs .zero .none .none, false, true⟩
  | .bc1t => some ⟨.notEqual, ops .cop1cs .zero .none .none, false, false⟩
  | .bc1tl => some ⟨.notEqual, ops .cop1cs .zero .none .none, false, true⟩
  | _ => none

def storeOps : InstrId → Option StoreOp
  | .sd => some ⟨.sd, .rt⟩
  | .sdl => some ⟨.sdl, .rt⟩
  | .sdr => some ⟨.sdr, .rt⟩
  | .sw => some ⟨.sw, .rt⟩
  | .swl => some ⟨.swl, .rt⟩
  | .swr => some ⟨.swr, .rt⟩
  | .sh => some ⟨.sh, .rt⟩
  | .sb => some ⟨.sb, .rt⟩
  | .sdc1 => some ⟨.sdc1, .ftU64⟩
  | .swc1 => some ⟨.swc1, .ftU32L⟩
  | _ => none

end N64Recomp
