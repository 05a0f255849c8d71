import N64Recomp.Operations

/-!
# Decoded instructions

An instruction word at its address. The identity of a word is the answer of the disassembly library;
the fields of a word are those of the MIPS encoding.

## Main definitions

* `Decoder`: what the library says of a word; `Decoder.ofId sampleId` answers for the words of the
  runs on fixed inputs
* `InstructionCpu`: a word and its address, with its fields
-/

namespace N64Recomp

/-- `(vram + 4) + (imm << 2)`. -/
def branchTarget (word vram : BitVec 32) : BitVec 32 :=
  vram + 4 + ((word.setWidth 16).signExtend 32 <<< 2)

/-- `(vram & 0xF0000000) | (index << 2)`. -/
def jumpTarget (word vram : BitVec 32) : BitVec 32 :=
  (vram &&& 0xF0000000) ||| ((word.setWidth 26).setWidth 32 <<< 2)

/-- The disassembly library: what it says of a word, and what it documents of its answers. -/
structure Decoder where
  uniqueId : BitVec 32 → InstrId
  isValid : BitVec 32 → Bool
  isBranch : BitVec 32 → Bool
  isJump : BitVec 32 → Bool
  modifiesRd : BitVec 32 → Bool
  modifiesRt : BitVec 32 → Bool
  branchVramGeneric : BitVec 32 → BitVec 32 → BitVec 32
  isBranch_of_conditional : ∀ w, (conditionalBranchOps (uniqueId w)).isSome → isBranch w = true
  isBranch_of_b : ∀ w, uniqueId w = .b → isBranch w = true
  isJump_of_id : ∀ w, uniqueId w ∈ [InstrId.j, .jal, .jr, .jalr] → isJump w = true
  branchVram_branch : ∀ w v, isBranch w = true → branchVramGeneric w v = branchTarget w v
  branchVram_jump : ∀ w v, uniqueId w ∈ [InstrId.j, .jal] → branchVramGeneric w v = jumpTarget w v

/-- The control transfers that are branches. -/
def InstrId.isBranch (id : InstrId) : Bool := (conditionalBranchOps id).isSome || id = .b

/-- The library that identifies words with `id` and answers the other questions by the identity. -/
def Decoder.ofId (id : BitVec 32 → InstrId) : Decoder where
  uniqueId := id
  isValid w := id w ≠ .other
  isBranch w := (id w).isBranch
  isJump w := id w ∈ [InstrId.j, .jal, .jr, .jalr]
  modifiesRd w := id w ∈ [InstrId.addu, .or, .sll, .jalr]
  modifiesRt w := id w ∈ [InstrId.addiu, .lui, .lw]
  branchVramGeneric w v := if (id w).isBranch then branchTarget w v else jumpTarget w v
  isBranch_of_conditional w h := by simp [InstrId.isBranch, h]
  isBranch_of_b w h := by simp [InstrId.isBranch, h]
  isJump_of_id w h := by simpa using h
  branchVram_branch w v h := by simp [h]
  branchVram_jump w v h := by
    simp only [List.mem_cons, List.not_mem_nil, or_false] at h
    rcases h with h | h <;> rw [h] <;> rfl

/-- The identities of some words, by the opcode fields of the encoding. -/
def sampleId (w : BitVec 32) : InstrId :=
  match (w.extractLsb' 26 6).toNat with
  | 0x00 =>
    match (w.setWidth 6).toNat with
    | 0x00 => if w = 0 then .nop else .sll
    | 0x08 => .jr
    | 0x09 => .jalr
    | 0x21 => .addu
    | 0x25 => .or
    | _ => .other
  | 0x01 =>
    match (w.extractLsb' 16 5).toNat with
    | 0x00 => .bltz
    | 0x01 => .bgez
    | 0x10 => .bltzal
    | 0x11 => .bgezal
    | _ => .other
  | 0x02 => .j
  | 0x03 => .jal
  | 0x04 => if w.extractLsb' 16 10 = 0 then .b else .beq
  | 0x05 => .bne
  | 0x09 => .addiu
  | 0x0F => .lui
  | 0x14 => .beql
  | 0x23 => .lw
  | 0x2B => .sw
  | _ => .other

/-- A word, in the order of its bits, and its address. -/
structure InstructionCpu where
  word : BitVec 32
  vram : BitVec 32
  deriving DecidableEq, Repr

namespace InstructionCpu

variable (instr : InstructionCpu)

/-- The five bits from `low` up. -/
def field (low : Nat) : Fin 32 := (instr.word.extractLsb' low 5).toFin

def rs : Fin 32 := instr.field 21
def rt : Fin 32 := instr.field 16
def rd : Fin 32 := instr.field 11
def sa : Fin 32 := instr.field 6
def fs : Fin 32 := instr.field 11
def ft : Fin 32 := instr.field 16
def fd : Fin 32 := instr.field 6

/-- The floating-point control register. -/
def cop1Cs : Fin 32 := instr.field 11

/-- The register of coprocessor 0. -/
def cop0d : Fin 32 := instr.field 11

def immediate : BitVec 16 := instr.word.setWidth 16

variable (dec : Decoder)

def uniqueId : InstrId := dec.uniqueId instr.word
def isValid : Bool := dec.isValid instr.word
def isBranch : Bool := dec.isBranch instr.word
def isJump : Bool := dec.isJump instr.word
def modifiesRd : Bool := dec.modifiesRd instr.word
def modifiesRt : Bool := dec.modifiesRt instr.word
def getBranchVramGeneric : BitVec 32 := dec.branchVramGeneric instr.word instr.vram

end InstructionCpu

/-- `GPR_O32_gp`, `GPR_O32_sp` and `GPR_O32_ra`. -/
def regGp : Fin 32 := 28
def regSp : Fin 32 := 29
def regRa : Fin 32 := 31

/-- `byteswap`. -/
def byteswap (x : BitVec 32) : BitVec 32 :=
  x.extractLsb' 0 8 ++ x.extractLsb' 8 8 ++ x.extractLsb' 16 8 ++ x.extractLsb' 24 8

/-- The decoded words of a function, from an address on. -/
def decodeFrom (vram : BitVec 32) : List (BitVec 32) → List InstructionCpu
  | [] => []
  | word :: words => ⟨byteswap word, vram⟩ :: decodeFrom (vram + 4) words

theorem length_decodeFrom (vram : BitVec 32) (words : List (BitVec 32)) :
    (decodeFrom vram words).length = words.length := by
  induction words generalizing vram with
  | nil => rfl
  | cons word words ih => simp [decodeFrom, ih]

/-- The instruction at an index, and its address. -/
theorem getElem?_decodeFrom (vram : BitVec 32) (words : List (BitVec 32)) (k : Nat) :
    (decodeFrom vram words)[k]? =
      words[k]?.map fun word => ⟨byteswap word, vram + BitVec.ofNat 32 (4 * k)⟩ := by
  induction words generalizing vram k with
  | nil => rfl
  | cons word words ih =>
    cases k with
    | zero => simp [decodeFrom]
    | succ k =>
      have hvram : vram + 4 + BitVec.ofNat 32 (4 * k) = vram + BitVec.ofNat 32 (4 * (k + 1)) := by
        rw [Nat.mul_succ, Nat.add_comm, BitVec.ofNat_add, BitVec.add_assoc]
        rfl
      simp only [decodeFrom, List.getElem?_cons_succ, ih, hvram]

/-- The last word is decoded last. -/
theorem getLast?_decodeFrom {vram word : BitVec 32} {words : List (BitVec 32)}
    (h : words.getLast? = some word) :
    (decodeFrom vram words).getLast? =
      some ⟨byteswap word, vram + BitVec.ofNat 32 (4 * (words.length - 1))⟩ := by
  rw [List.getLast?_eq_getElem?] at h ⊢
  rw [getElem?_decodeFrom, length_decodeFrom, h, Option.map_some]

/-- The instructions of a function have distinct addresses. -/
theorem eq_of_vram_eq {vram : BitVec 32} {words : List (BitVec 32)} (hlen : words.length < 2 ^ 30)
    {i j : InstructionCpu} (hi : i ∈ decodeFrom vram words) (hj : j ∈ decodeFrom vram words)
    (h : i.vram = j.vram) : i = j := by
  obtain ⟨m, hm, rfl⟩ := List.mem_iff_getElem.mp hi
  obtain ⟨n, hn, rfl⟩ := List.mem_iff_getElem.mp hj
  have hgm := getElem?_decodeFrom vram words m
  have hgn := getElem?_decodeFrom vram words n
  rw [length_decodeFrom] at hm hn
  rw [List.getElem?_eq_getElem (by rwa [length_decodeFrom]), List.getElem?_eq_getElem hm,
    Option.map_some, Option.some.injEq] at hgm
  rw [List.getElem?_eq_getElem (by rwa [length_decodeFrom]), List.getElem?_eq_getElem hn,
    Option.map_some, Option.some.injEq] at hgn
  rw [hgm, hgn] at h
  have hindex := congrArg BitVec.toNat (BitVec.add_right_inj vram |>.mp h)
  rw [BitVec.toNat_ofNat, BitVec.toNat_ofNat, Nat.mod_eq_of_lt (by omega),
    Nat.mod_eq_of_lt (by omega)] at hindex
  obtain rfl : m = n := by omega
  rfl

end N64Recomp
