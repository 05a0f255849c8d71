import N64Recomp.RSPRecomp.Machine

/-!
# The scalar unit

What the instructions of the RSP's scalar unit do to registers and data memory. A branch or jump
decides on the registers before its delay slot.

## Main definitions

* `Instruction.effect`: an instruction's own effect, without its delay slot
* `Instruction.taken`, `Instruction.target`: the decision of a branch or jump, and where it goes
-/

namespace N64Recomp.RSPRecomp

variable {ρ : Type}

/-! ## The instructions of the RSP -/

/-- A register; register 0 is zero. -/
def RspContext.reg (s : RspContext ρ) (n : BitVec 5) : BitVec 32 := if n = 0 then 0 else s.gpr n

/-- The context with a register written; register 0 stays. -/
def RspContext.writeReg (s : RspContext ρ) (n : BitVec 5) (x : BitVec 32) : RspContext ρ :=
  if n = 0 then s else s.setGpr n x

@[simp] theorem RspContext.gpr_setGpr (s : RspContext ρ) (n : BitVec 5) (x : BitVec 32) :
    (s.setGpr n x).gpr n = x := by
  simp [RspContext.setGpr]

namespace Instruction

variable (instr : Instruction) (s : RspContext ρ)

/-- The sign-extended immediate. -/
def signedImmediate : BitVec 32 := instr.immediate.signExtend 32

/-- The zero-extended immediate. -/
def unsignedImmediate : BitVec 32 := instr.immediate.setWidth 32

/-- The address of a load or store. -/
def address : BitVec 32 := s.reg instr.rs + instr.signedImmediate

/-- A comparison's result. -/
def flag (b : Bool) : BitVec 32 := if b then 1 else 0

/-- What an instruction does, but for its transfer of control: a linking instruction writes the
address behind the delay slot, whether or not it transfers control; a jump to a register keeps the
register's value. -/
def effect : RspContext ρ :=
  let rs := s.reg instr.rs
  let rt := s.reg instr.rt
  let imm := instr.signedImmediate
  let immU := instr.unsignedImmediate
  match instr.id with
  | .lui => s.writeReg instr.rt (immU <<< 16)
  | .add | .addu => s.writeReg instr.rd (rs + rt)
  | .negu | .sub | .subu => s.writeReg instr.rd (rs - rt)
  | .addi | .addiu => s.writeReg instr.rt (rs + imm)
  | .and => s.writeReg instr.rd (rs &&& rt)
  | .andi => s.writeReg instr.rt (rs &&& immU)
  | .or => s.writeReg instr.rd (rs ||| rt)
  | .ori => s.writeReg instr.rt (rs ||| immU)
  | .nor => s.writeReg instr.rd (~~~(rs ||| rt))
  | .xor => s.writeReg instr.rd (rs ^^^ rt)
  | .xori => s.writeReg instr.rt (rs ^^^ immU)
  | .sll => s.writeReg instr.rd (rt <<< instr.sa.toNat)
  | .sllv => s.writeReg instr.rd (rt <<< (rs.extractLsb' 0 5).toNat)
  | .sra => s.writeReg instr.rd (rt.sshiftRight instr.sa.toNat)
  | .srav => s.writeReg instr.rd (rt.sshiftRight (rs.extractLsb' 0 5).toNat)
  | .srl => s.writeReg instr.rd (rt >>> instr.sa.toNat)
  | .srlv => s.writeReg instr.rd (rt >>> (rs.extractLsb' 0 5).toNat)
  | .slt => s.writeReg instr.rd (flag (rs.slt rt))
  | .slti => s.writeReg instr.rt (flag (rs.slt imm))
  | .sltu => s.writeReg instr.rd (flag (rs.ult rt))
  | .sltiu => s.writeReg instr.rt (flag (rs.ult imm))
  | .lw => s.writeReg instr.rt (dmemWord s.dmem (instr.address s))
  | .lh => s.writeReg instr.rt ((dmemHalf s.dmem (instr.address s)).signExtend 32)
  | .lhu => s.writeReg instr.rt ((dmemHalf s.dmem (instr.address s)).setWidth 32)
  | .lb => s.writeReg instr.rt ((dmemByte s.dmem (instr.address s) 0).signExtend 32)
  | .lbu => s.writeReg instr.rt ((dmemByte s.dmem (instr.address s) 0).setWidth 32)
  | .sw => { s with dmem := dmemStore s.dmem (instr.address s) .word rt }
  | .sh => { s with dmem := dmemStore s.dmem (instr.address s) .half rt }
  | .sb => { s with dmem := dmemStore s.dmem (instr.address s) .byte rt }
  | .jal | .bgezal | .bltzal => s.writeReg 31 instr.linkAddress
  | .jr => { s with jumpTarget := rs }
  | .jalr => { s with jumpTarget := rs }.writeReg instr.rd instr.linkAddress
  | _ => s

/-- Whether control is transferred behind the delay slot. -/
def taken : Bool :=
  let rs := s.reg instr.rs
  match instr.id with
  | .j | .b | .jal | .jr | .jalr => true
  | .beq => rs = s.reg instr.rt
  | .bne => rs ≠ s.reg instr.rt
  | .bgez | .bgezal => (0 : BitVec 32).sle rs
  | .bgtz => (0 : BitVec 32).slt rs
  | .blez => rs.sle 0
  | .bltz | .bltzal => rs.slt 0
  | _ => false

/-- Where control is transferred: relative to the delay slot, to a word of the instruction memory,
or to the kept value of a register. -/
def target : Label :=
  match instr.id with
  | .jr | .jalr => .doIndirectJump
  | .j | .jal => .code (imemAddress (instr.word <<< 2))
  | _ => .code (imemAddress (instr.vram + 4 + (instr.signedImmediate <<< 2)))

end Instruction

end N64Recomp.RSPRecomp
