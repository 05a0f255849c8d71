import N64Recomp.Data.Widths

/-!
# Relocations

The relocation records of a section, and the section indices that name no real section.

## Main definitions

* `RelocType`, `Reloc`
* `sectionAbsolute`, `sectionImport`, `sectionEvent`
-/

namespace N64Recomp

/-- The relocation types, in the order of their ELF numbers. The type is a byte, and the numbers
from 8 on have no name. -/
inductive RelocType
  | none | mips16 | mips32 | rel32 | mips26 | hi16 | lo16 | gprel16
  | other (number : BitVec 8)
  deriving DecidableEq, Repr

namespace RelocType

/-- `static_cast<RelocType>(number)`. -/
def ofByte (number : BitVec 8) : RelocType :=
  match number.toNat with
  | 0 => none
  | 1 => mips16
  | 2 => mips32
  | 3 => rel32
  | 4 => mips26
  | 5 => hi16
  | 6 => lo16
  | 7 => gprel16
  | _ => other number

/-- The number of a type. -/
def toByte : RelocType → BitVec 8
  | none => 0
  | mips16 => 1
  | mips32 => 2
  | rel32 => 3
  | mips26 => 4
  | hi16 => 5
  | lo16 => 6
  | gprel16 => 7
  | other number => number

@[simp] theorem toByte_ofByte (number : BitVec 8) : (ofByte number).toByte = number := by
  have h : number = BitVec.ofNat 8 number.toNat := by simp
  unfold ofByte
  split <;> rename_i hn <;> first | (rw [h, hn]; rfl) | rfl

end RelocType

structure Reloc where
  address : BitVec 32
  targetSectionOffset : BitVec 32
  /-- Only used for reference symbols and special section symbols. -/
  symbolIndex : BitVec 32
  targetSection : BitVec 16
  type : RelocType
  referenceSymbol : Bool
  deriving DecidableEq, Repr

/-- The section index of absolute symbols. -/
def sectionAbsolute : BitVec 16 := 0xFFFE

/-- The section index of the symbols a mod imports. -/
def sectionImport : BitVec 16 := 0xFFFD

/-- The section index of the events a mod provides. -/
def sectionEvent : BitVec 16 := 0xFFFC

end N64Recomp
