import N64Recomp.RSPRecomp.Scalar

/-!
# The expressions of the scalar unit

The values of the expressions that are printed for scalar instructions, by their words of 32 bits.
Register 0 is printed as the literal `0`: it reads as zero, but as an `int`, so that a comparison of
it with another literal is a signed one.

## Main definitions

* `Denotes`, `Denotes32`: an expression has a value with a word

## Main results

* `denotes_add`, `denotes_or`, `denotes_sll`, ...: operators and macros
* `denotes_lw`, `denotes_lh`, ...: loads
* `denotes_slt`, `denotes_sltu`: comparisons
-/

namespace N64Recomp.RSPRecomp

open CLang CVal

/-! ## Operands -/

section Operands

variable {ρ : Type} (s : RspContext ρ) (n : BitVec 5)

/-- The value of a printed register. -/
def refValue : CVal := if n = 0 then ofSigned 0 else ofWord (s.gpr n)

theorem refValue_zero : refValue s 0 = ofSigned 0 := rfl

theorem refValue_of_ne (h : n ≠ 0) : refValue s n = ofWord (s.gpr n) := if_neg h

@[simp] theorem eval_gprRef : (gprRef n).eval s.env = some (refValue s n) := by
  unfold gprRef refValue
  split_ifs
  · rfl
  · rfl

theorem is32_refValue : Is32 (refValue s n) := by
  unfold refValue
  split_ifs
  · exact is32_ofSigned
  · exact is32_ofWord

@[simp] theorem toWord_refValue : toWord (refValue s n) = s.reg n := by
  unfold refValue RspContext.reg
  split_ifs
  · exact toWord_ofSigned 0
  · exact toWord_ofWord _

theorem setWidth_ofInt (k : Int) : (BitVec.ofInt 64 k).setWidth 32 = BitVec.ofInt 32 k := by
  apply BitVec.eq_of_toNat_eq
  rw [BitVec.toNat_setWidth, BitVec.toNat_ofInt, BitVec.toNat_ofInt]
  omega

/-- A literal that fits is an `int`. -/
theorem eval_hexLiteral {k : Int} (h : k < 2 ^ 31) :
    (hexLiteral k).eval s.env = some (ofSigned (BitVec.ofInt 32 k)) := by
  rw [hexLiteral, if_pos h]
  refine congrArg some (CVal.ext_bits rfl ?_)
  rw [ofSigned, CVal.ofBits_bits, CVal.ofBits_bits, CType.wrap, CType.wrap, setWidth_ofInt,
    CType.setWidth_setWidth_64 (by decide)]

end Operands

/-! ## Expressions -/

section Expressions

variable {ρ : Type} {s : RspContext ρ} {a b : RspExpr} {x y : BitVec 32}

/-- An expression has a value of 32 bits with a word. -/
def Denotes (s : RspContext ρ) (e : RspExpr) (x : BitVec 32) : Prop :=
  ∃ v, e.eval s.env = some v ∧ toWord v = x

/-- The same for a value of a type of 32 bits. -/
def Denotes32 (s : RspContext ρ) (e : RspExpr) (x : BitVec 32) : Prop :=
  ∃ v, e.eval s.env = some v ∧ Is32 v ∧ toWord v = x

theorem Denotes32.denotes (h : Denotes32 s a x) : Denotes s a x := by
  obtain ⟨v, hv, -, hword⟩ := h
  exact ⟨v, hv, hword⟩

theorem denotes_gprRef (n : BitVec 5) : Denotes32 s (gprRef n) (s.reg n) :=
  ⟨_, eval_gprRef s n, is32_refValue s n, toWord_refValue s n⟩

theorem denotes_hexLiteral (k : Int) : Denotes32 s (hexLiteral k) (BitVec.ofInt 32 k) := by
  unfold hexLiteral
  split_ifs
  · exact ⟨_, rfl, Or.inl rfl, (toWord_ofBits_int32 _).trans (setWidth_ofInt k)⟩
  · exact ⟨_, rfl, Or.inr rfl, (toWord_ofBits_uint32 _).trans (setWidth_ofInt k)⟩

theorem denotes_signed (instr : Instruction) :
    Denotes32 s (hexLiteral instr.immediate.toInt) instr.signedImmediate :=
  denotes_hexLiteral _

theorem denotes_unsigned (instr : Instruction) :
    Denotes32 s (hexLiteral instr.immediate.toNat) instr.unsignedImmediate := by
  have hword : BitVec.ofInt 32 instr.immediate.toNat = instr.unsignedImmediate := by
    rw [BitVec.ofInt_natCast, BitVec.ofNat_toNat]
    rfl
  exact hword ▸ denotes_hexLiteral _

/-- A macro of two arguments. -/
theorem eval_call₂ {m : Macro} {r : CVal} (ha : Denotes32 s a x) (hb : Denotes32 s b y)
    (hm : ∀ v w, toWord v = x → toWord w = y → m.apply s.dmem [v, w] = some r) :
    (Expr.call₂ m a b).eval s.env = some r := by
  obtain ⟨v, hv, -, hx⟩ := ha
  obtain ⟨w, hw, -, hy⟩ := hb
  rw [Expr.eval_call₂, hv, hw]
  exact hm v w hx hy

theorem denotes_add (ha : Denotes32 s a x) (hb : Denotes32 s b y) :
    Denotes s (.call₂ .RSP_ADD32 a b) (x + y) :=
  ⟨_, eval_call₂ ha hb fun v w hx hy => by rw [← hx, ← hy]; rfl, toWord_ofWord _⟩

theorem denotes_sub (ha : Denotes32 s a x) (hb : Denotes32 s b y) :
    Denotes s (.call₂ .RSP_SUB32 a b) (x - y) :=
  ⟨_, eval_call₂ ha hb fun v w hx hy => by rw [← hx, ← hy]; rfl, toWord_ofWord _⟩

/-! ### Loads -/

section Loads

variable (instr : Instruction)

/-- A load macro is applied to the address. -/
theorem eval_load {m : Macro} (r : BitVec 32 → CVal)
    (hm : ∀ v w, m.apply s.dmem [v, w] = some (r (toWord v + toWord w))) :
    (Expr.call₂ m (hexLiteral instr.immediate.toInt) (gprRef instr.rs)).eval s.env =
      some (r (instr.address s)) := by
  refine eval_call₂ (denotes_signed instr) (denotes_gprRef instr.rs) fun v w hx hy => ?_
  rw [hm, hx, hy, Instruction.address, BitVec.add_comm]

theorem denotes_lw : Denotes s (.call₂ .RSP_MEM_W_LOAD (hexLiteral instr.immediate.toInt)
    (gprRef instr.rs)) (dmemWord s.dmem (instr.address s)) :=
  ⟨_, eval_load instr (fun x => ofWord (dmemWord s.dmem x)) fun _ _ => rfl, toWord_ofWord _⟩

theorem denotes_lh : Denotes s (.call₂ .RSP_MEM_H_LOAD (hexLiteral instr.immediate.toInt)
    (gprRef instr.rs)) ((dmemHalf s.dmem (instr.address s)).signExtend 32) :=
  ⟨_, eval_load instr
    (fun x => CVal.ofBits .int16 ((dmemHalf s.dmem x).setWidth 64)) fun _ _ => rfl,
    toWord_ofBits_signed (by decide) (fun _ => rfl) _⟩

theorem denotes_lhu : Denotes s (.call₂ .RSP_MEM_HU_LOAD (hexLiteral instr.immediate.toInt)
    (gprRef instr.rs)) ((dmemHalf s.dmem (instr.address s)).setWidth 32) :=
  ⟨_, eval_load instr
    (fun x => CVal.ofBits .uint16 ((dmemHalf s.dmem x).setWidth 64)) fun _ _ => rfl,
    toWord_ofBits_unsigned (by decide) (fun _ => rfl) _⟩

theorem denotes_lb : Denotes s (.call₂ .RSP_MEM_B (hexLiteral instr.immediate.toInt)
    (gprRef instr.rs)) ((dmemByte s.dmem (instr.address s) 0).signExtend 32) :=
  ⟨_, eval_load instr
    (fun x => CVal.ofBits .int8 ((dmemByte s.dmem x 0).setWidth 64)) fun _ _ => rfl,
    toWord_ofBits_signed (by decide) (fun _ => rfl) _⟩

theorem denotes_lbu : Denotes s (.call₂ .RSP_MEM_BU (hexLiteral instr.immediate.toInt)
    (gprRef instr.rs)) ((dmemByte s.dmem (instr.address s) 0).setWidth 32) :=
  ⟨_, eval_load instr
    (fun x => CVal.ofBits .uint8 ((dmemByte s.dmem x 0).setWidth 64)) fun _ _ => rfl,
    toWord_ofBits_unsigned (by decide) (fun _ => rfl) _⟩

end Loads

/-! ### Bitwise operators and shifts -/

section Bitwise

theorem denotes_bitwise {op : BinOp} {f : BitVec 32 → BitVec 32 → BitVec 32}
    (hop : ∀ v w, Is32 v → Is32 w →
      ∃ r, op.apply v w = some r ∧ Is32 r ∧ toWord r = f (toWord v) (toWord w))
    (ha : Denotes32 s a x) (hb : Denotes32 s b y) : Denotes32 s (.binary op a b) (f x y) := by
  obtain ⟨v, hv, hv32, rfl⟩ := ha
  obtain ⟨w, hw, hw32, rfl⟩ := hb
  obtain ⟨r, hr, hr32, hword⟩ := hop v w hv32 hw32
  refine ⟨r, ?_, hr32, hword⟩
  rw [Expr.eval_binary, hv, hw]
  exact hr

theorem denotes_and (ha : Denotes32 s a x) (hb : Denotes32 s b y) :
    Denotes32 s (.binary .and a b) (x &&& y) :=
  denotes_bitwise (fun _ _ hv hw => ⟨_, rfl, toWord_and hv hw⟩) ha hb

theorem denotes_or (ha : Denotes32 s a x) (hb : Denotes32 s b y) :
    Denotes32 s (.binary .or a b) (x ||| y) :=
  denotes_bitwise (fun _ _ hv hw => ⟨_, rfl, toWord_or hv hw⟩) ha hb

theorem denotes_xor (ha : Denotes32 s a x) (hb : Denotes32 s b y) :
    Denotes32 s (.binary .xor a b) (x ^^^ y) :=
  denotes_bitwise (fun _ _ hv hw => ⟨_, rfl, toWord_xor hv hw⟩) ha hb

theorem denotes_compl (ha : Denotes32 s a x) : Denotes s (.unary .compl a) (~~~x) := by
  obtain ⟨v, hv, hv32, rfl⟩ := ha
  refine ⟨v.compl, ?_, toWord_compl hv32⟩
  rw [Expr.eval_unary, hv]
  rfl

/-- A shift of a word, by an amount below 32. -/
theorem denotes_shifted {op : BinOp} {value amount : RspExpr} {v : CVal}
    (hvalue : value.eval s.env = some v) (hamount : Denotes32 s amount y)
    (hop : ∀ b, Is32 b → toWord b = y → ∃ r, op.apply v b = some r ∧ toWord r = x) :
    Denotes s (shifted op value amount) x := by
  obtain ⟨b, hb, hb32, hword⟩ := hamount
  obtain ⟨r, hr, rfl⟩ := hop b hb32 hword
  refine ⟨ofSigned (toWord r), ?_, toWord_ofSigned _⟩
  have heval : (Expr.binary op value amount).eval s.env = some r := by
    rw [Expr.eval_binary, hvalue, hb]
    exact hr
  rw [shifted, Expr.eval_call₁, heval]
  rfl

variable {amount : RspExpr} {k : Nat} (hamount : Denotes32 s amount y) (hk : y.toNat = k)
  (hlt : k < 32)

include hamount hk hlt

theorem denotes_sll (ha : Denotes32 s a x) :
    Denotes s (shifted .shl (.call₁ .U32 a) amount) (x <<< k) := by
  obtain ⟨v, hv, -, rfl⟩ := ha
  have hvalue : (Expr.call₁ Macro.U32 a).eval s.env = some (ofWord (toWord v)) := by
    rw [Expr.eval_call₁, hv]
    rfl
  refine denotes_shifted hvalue hamount ?_
  rintro b hb rfl
  subst hk
  exact shl_ofWord _ hb hlt

theorem denotes_srl (ha : Denotes32 s a x) :
    Denotes s (shifted .shr (.call₁ .U32 a) amount) (x >>> k) := by
  obtain ⟨v, hv, -, rfl⟩ := ha
  have hvalue : (Expr.call₁ Macro.U32 a).eval s.env = some (ofWord (toWord v)) := by
    rw [Expr.eval_call₁, hv]
    rfl
  refine denotes_shifted hvalue hamount ?_
  rintro b hb rfl
  subst hk
  exact shr_ofWord _ hb hlt

theorem denotes_sra (ha : Denotes32 s a x) :
    Denotes s (shifted .shr (.call₁ .RSP_SIGNED a) amount) (x.sshiftRight k) := by
  obtain ⟨v, hv, -, rfl⟩ := ha
  have hvalue : (Expr.call₁ Macro.RSP_SIGNED a).eval s.env = some (ofSigned (toWord v)) := by
    rw [Expr.eval_call₁, hv]
    rfl
  refine denotes_shifted hvalue hamount ?_
  rintro b hb rfl
  subst hk
  exact shr_ofSigned _ hb hlt

omit hamount hk hlt

variable (instr : Instruction) (n : BitVec 5)

theorem denotes_sa : Denotes32 s (hexLiteral instr.sa.toNat) (instr.sa.setWidth 32) := by
  have hword : BitVec.ofInt 32 instr.sa.toNat = instr.sa.setWidth 32 := by
    rw [BitVec.ofInt_natCast, BitVec.ofNat_toNat]
  exact hword ▸ denotes_hexLiteral _

theorem toNat_sa : (instr.sa.setWidth 32).toNat = instr.sa.toNat := by
  rw [BitVec.toNat_setWidth]
  omega

theorem denotes_shiftRef : Denotes32 s (shiftRef n) (s.reg n &&& 31) :=
  denotes_and (denotes_gprRef n) (denotes_hexLiteral 31)

theorem toNat_shiftRef (x : BitVec 32) : (x &&& 31).toNat = (x.extractLsb' 0 5).toNat := by
  rw [BitVec.extractLsb'_toNat, Nat.shiftRight_zero]
  exact (BitVec.toNat_and _ _).trans (Nat.and_two_pow_sub_one_eq_mod _ 5)

end Bitwise

/-! ### Comparisons -/

section Comparisons

variable {v w : CVal} {c : Bool}

theorem eval_signedRef (n : BitVec 5) : (signedRef n).eval s.env = some (ofSigned (s.reg n)) := by
  rw [signedRef, Expr.eval_call₁, eval_gprRef, Option.bind_some, ← toWord_refValue]
  rfl

theorem denotes_lessThan (ha : a.eval s.env = some v) (hb : b.eval s.env = some w)
    (hlt : v.lt w = CVal.ofBool c) : Denotes s (lessThan a b) (Instruction.flag c) := by
  have hcond : (Expr.binary .lt a b).eval s.env = some (CVal.ofBool c) := by
    rw [Expr.eval_binary, ha, hb]
    exact congrArg some hlt
  obtain ⟨one, hone, -, hone32⟩ := denotes_hexLiteral (s := s) 1
  obtain ⟨zero, hzero, -, hzero32⟩ := denotes_hexLiteral (s := s) 0
  rw [lessThan]
  refine ⟨if c then one else zero, ?_, ?_⟩
  · rw [Expr.eval_cond, hcond, Option.bind_some, truthy_ofBool, hone, hzero]
    cases c <;> rfl
  · cases c
    · exact hzero32
    · exact hone32

theorem denotes_slt (n m : BitVec 5) : Denotes s (lessThan (signedRef n) (signedRef m))
    (Instruction.flag ((s.reg n).slt (s.reg m))) :=
  denotes_lessThan (eval_signedRef n) (eval_signedRef m) (lt_ofSigned _ _)

variable (instr : Instruction)

theorem eval_signed :
    (hexLiteral instr.immediate.toInt).eval s.env = some (ofSigned instr.signedImmediate) := by
  have hlt : instr.immediate.toInt < 2 ^ 31 := by
    have hlt := BitVec.toInt_lt (x := instr.immediate)
    omega
  exact eval_hexLiteral s hlt

theorem denotes_slti :
    Denotes s (lessThan (signedRef instr.rs) (hexLiteral instr.immediate.toInt))
      (Instruction.flag ((s.reg instr.rs).slt instr.signedImmediate)) :=
  denotes_lessThan (eval_signedRef _) (eval_signed instr) (lt_ofSigned _ _)

/-- Two registers are compared as unsigned numbers, also when both are printed as literals. -/
theorem denotes_sltu (n m : BitVec 5) : Denotes s (lessThan (gprRef n) (gprRef m))
    (Instruction.flag ((s.reg n).ult (s.reg m))) := by
  refine denotes_lessThan (eval_gprRef s n) (eval_gprRef s m) ?_
  by_cases hn : n = 0
  · subst hn
    by_cases hm : m = 0
    · subst hm
      rfl
    · have hcommon : CType.common (refValue s 0).ty (refValue s m).ty = .uint32 := by
        rw [refValue_zero, refValue_of_ne s m hm]
        rfl
      rw [lt_of_uint32 hcommon, toWord_refValue, toWord_refValue]
  · have hcommon : CType.common (refValue s n).ty (refValue s m).ty = .uint32 := by
      rw [refValue_of_ne s n hn]
      rcases is32_refValue s m with hm | hm <;> rw [hm] <;> rfl
    rw [lt_of_uint32 hcommon, toWord_refValue, toWord_refValue]

/-- A register is compared with an immediate as an unsigned number, register 0 as a signed one. -/
theorem denotes_sltiu :
    Denotes s (lessThan (gprRef instr.rs) (hexLiteral instr.immediate.toInt))
      (Instruction.flag (if instr.rs = 0 then (0 : BitVec 32).slt instr.signedImmediate
        else (s.reg instr.rs).ult instr.signedImmediate)) := by
  refine denotes_lessThan (eval_gprRef s _) (eval_signed instr) ?_
  split_ifs with hrs
  · rw [refValue, if_pos hrs, lt_ofSigned]
  · have hcommon : CType.common (refValue s instr.rs).ty (ofSigned instr.signedImmediate).ty =
        .uint32 := by
      rw [refValue_of_ne s _ hrs]
      rfl
    rw [lt_of_uint32 hcommon, toWord_refValue, toWord_ofSigned]

end Comparisons

end Expressions

end N64Recomp.RSPRecomp
