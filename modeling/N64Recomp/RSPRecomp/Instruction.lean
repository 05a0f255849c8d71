import N64Recomp.RSPRecomp.Permutations

/-!
# RSP instructions

What the recompiler asks the decoder about an instruction word at an address. The decoder is not
part of the repository: the identifiers that it gives to words are a parameter, and the fields of a
word, the kinds of identifiers and the targets of branches are those of its documentation.

## Main definitions

* `InstrId`, `Instruction`: identifiers, and decoded words
* `decodeText`: the instructions of a text
* `Instruction.branchTarget`: the target that `emit_instruction` gives to a branch or jump
* `cop0ReadValue`, `cop0WriteAction`: the registers of the coprocessor
-/

namespace N64Recomp.RSPRecomp

/-- The identifiers: those of the scalar unit, the ones with operands in `vector_operands`, and the
ones that the recompiler does not handle. -/
inductive InstrId
  | nop | lui | add | addu | negu | sub | subu | addi | addiu | and | andi | or | ori | nor | xor
  | xori | sll | sllv | sra | srav | srl | srlv | slt | slti | sltu | sltiu
  | lw | lh | lb | lhu | lbu | sw | sh | sb
  | j | b | jal | jr | jalr | bne | beq | bgez | bgtz | blez | bltz | bgezal | bltzal
  | break | mfc0 | mtc0 | vector | other
  deriving DecidableEq, Repr

namespace InstrId

def isBranch : InstrId → Bool
  | b | bne | beq | bgez | bgtz | blez | bltz | bgezal | bltzal => true
  | _ => false

def isJumpWithAddress : InstrId → Bool
  | j | jal => true
  | _ => false

def isIndirectJump : InstrId → Bool
  | jr | jalr => true
  | _ => false

def doesLink : InstrId → Bool
  | jal | jalr | bgezal | bltzal => true
  | _ => false

def hasDelaySlot (id : InstrId) : Bool := id.isBranch || id.isJumpWithAddress || id.isIndirectJump

end InstrId

/-- A decoded word at an address. -/
structure Instruction where
  id : InstrId
  word : BitVec 32
  vram : BitVec 32
  deriving DecidableEq, Repr

namespace Instruction

variable (instr : Instruction)

def rs : BitVec 5 := instr.word.extractLsb' 21 5

def rt : BitVec 5 := instr.word.extractLsb' 16 5

def rd : BitVec 5 := instr.word.extractLsb' 11 5

def sa : BitVec 5 := instr.word.extractLsb' 6 5

def immediate : BitVec 16 := instr.word.extractLsb' 0 16

/-- `getBranchVramGeneric`: relative to the delay slot, or in words from the start of a segment. -/
def getBranchVramGeneric : BitVec 32 :=
  if instr.id.isBranch then instr.vram + 4 + (instr.immediate.signExtend 32 <<< 2)
  else if instr.id.isJumpWithAddress then
    (instr.vram &&& 0xF0000000) ||| ((instr.word &&& 0x03FFFFFF) <<< 2)
  else 0

/-- `branch_target`: with the region bit, in the 13 bits of the memories. -/
def branchTarget : BitVec 32 := (instr.getBranchVramGeneric ||| 0x1000) &&& rspMemMask

/-- The address behind the delay slot. -/
def linkAddress : BitVec 32 := instr.vram + 2 * 4

end Instruction

/-- The instructions of a text from an address on. -/
def decodeText (decode : BitVec 32 → InstrId) : BitVec 32 → List (BitVec 32) → List Instruction
  | _, [] => []
  | vram, word :: words => ⟨decode word, word, vram⟩ :: decodeText decode (vram + 4) words

@[simp] theorem length_decodeText (decode : BitVec 32 → InstrId) (vram : BitVec 32)
    (words : List (BitVec 32)) : (decodeText decode vram words).length = words.length := by
  induction words generalizing vram with
  | nil => rfl
  | cons word words ih => rw [decodeText, List.length_cons, List.length_cons, ih]

/-- The instruction at a position has the address of the position. -/
theorem getElem?_decodeText (decode : BitVec 32 → InstrId) (vram : BitVec 32)
    (words : List (BitVec 32)) (k : Nat) :
    (decodeText decode vram words)[k]? =
      (words[k]?).map fun word => ⟨decode word, word, vram + 4 * BitVec.ofNat 32 k⟩ := by
  induction words generalizing vram k with
  | nil => rfl
  | cons word words ih =>
    cases k with
    | zero => simp [decodeText]
    | succ k =>
      have haddr : vram + 4 + 4 * BitVec.ofNat 32 k = vram + 4 * BitVec.ofNat 32 (k + 1) := by
        rw [BitVec.ofNat_add, BitVec.mul_add, BitVec.add_assoc]
        exact congrArg (vram + ·) (BitVec.add_comm _ _)
      rw [decodeText, List.getElem?_cons_succ, List.getElem?_cons_succ, ih, haddr]

/-! ## The coprocessor -/

/-- `SP_RD_LEN`, whose writes start a DMA read. -/
def spRdLen : BitVec 5 := 2

/-- `cop0_read_value`; `none` is the exception. The registers of the DMA's addresses and lengths are
not handled. -/
def cop0ReadValue (reg : BitVec 5) : Option (BitVec 32) :=
  if 4 ≤ reg ∧ reg ≤ 15 then some 0 else none

/-- `cop0_write_action`: the macro of a write, empty when it has no effect; `none` is the
exception. -/
def cop0WriteAction (reg : BitVec 5) : Option Str :=
  match reg.toNat with
  | 0 => some (ascii "SET_DMA_MEM")
  | 1 => some (ascii "SET_DMA_DRAM")
  | 2 => some (ascii "DO_DMA_READ")
  | 3 => some (ascii "DO_DMA_WRITE")
  | 4 => some (ascii "WRITE_SP_STATUS")
  | 7 => some []
  | _ => none

def cop0WriteIsDmaRead (reg : BitVec 5) : Bool := reg = spRdLen

end N64Recomp.RSPRecomp
