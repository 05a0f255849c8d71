import Mathlib.Algebra.Group.Int.Defs
import Mathlib.Algebra.GroupWithZero.Nat

/-!
# Widths

The instances at the widths of the machine, each found under one name: the registers are numbered by
`Fin 32`, and addresses and keys are bit vectors of 32 and 64 bits.
-/

namespace N64Recomp

instance neZero_32 : NeZero (32 : Nat) := ⟨by decide⟩

instance lawfulBEq_32 : LawfulBEq (BitVec 32) := inferInstance

instance lawfulBEq_64 : LawfulBEq (BitVec 64) := inferInstance

instance isLinearOrder_32 : Std.IsLinearOrder (BitVec 32) := inferInstance

instance lawfulOrderLT_32 : Std.LawfulOrderLT (BitVec 32) := inferInstance

end N64Recomp
