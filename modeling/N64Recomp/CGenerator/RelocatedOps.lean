import N64Recomp.CGenerator.IntegerOps
import N64Recomp.CGenerator.RelocOperands

/-!
# The relocated instructions in C

A relocated instruction prints the half of its target's run-time address in the place of its
immediate. Where that half has a value the text does what the instruction with the half for an
immediate does.

## Main definitions

* `relocatedImmediate`, `resolved`: the instruction that a relocated one stands for
* `SameSummand`: two values that no sum tells apart

## Main results

* `refines_relocated`: the text of a relocated instruction does what the resolved instruction does
-/

namespace N64Recomp

open CLang CLang.CType Mips CGenerator

/-! ### Relocated immediates -/

/-- The run-time address of the target of a relocation. -/
def relocTarget (m : Machine) (ctx : InstructionContext) : BitVec 32 :=
  relocBase m ctx + ctx.relocTargetSectionOffset

/-- The immediate that an instruction has at run time. -/
def relocatedImmediate (m : Machine) (ctx : InstructionContext) : BitVec 16 :=
  match ctx.relocType with
  | .lo16 => (relocTarget m ctx).setWidth 16
  | .hi16 => (highHalf (relocTarget m ctx)).setWidth 16
  | _ => ctx.imm16

/-- The operands of the instruction that is executed at run time. -/
def resolved (m : Machine) (ctx : InstructionContext) : InstructionContext :=
  { ctx with imm16 := relocatedImmediate m ctx, relocType := .none }

theorem resolved_of_none (m : Machine) {ctx : InstructionContext} (h : ctx.relocType = .none) :
    resolved m ctx = ctx := by
  cases ctx
  simp only at h
  subst h
  rfl

/-! ### The rows -/

/-- Whether a row has a 16-bit immediate. -/
def hasImmediate (id : InstrId) : Bool :=
  (binaryOps id).any (fun op => op.operands.operand1 = .immU16 ∨ op.operands.operand1 = .immS16) ||
    (unaryOps id).any (fun op => op.input = .immU16) || (storeOps id).isSome

/-- The operations that add their operands: the sums, and the loads. -/
def addsOperands : BinaryOpType → Bool
  | .add32 | .add64 | .ld | .lw | .lwu | .lh | .lhu | .lb | .lbu | .ldl | .ldr | .lwl | .lwr => true
  | _ => false

/-- Values that have the same image and that no sum tells apart. -/
structure SameSummand (v w : CVal) : Prop where
  bits : v.bits = w.bits
  addLeft : ∀ a : CVal, v.add a = w.add a
  addRight : ∀ a : CVal, a.add v = a.add w

/-- A value of a narrow type adds like the `int` it is promoted to. -/
theorem sameSummand_int16 {v : CVal} (h : v.ty = int16) :
    SameSummand v (CVal.ofBits int32 v.bits) := by
  have himm : (v.bits.setWidth 16).signExtend 64 = v.bits := by
    have hcanon := v.canonical
    rwa [h] at hcanon
  have hbits : (CVal.ofBits int32 v.bits).bits = v.bits := by
    rw [CVal.ofBits_bits, ← himm, wrap_int32_imm]
  have hleft : ∀ t, common int16 t = common int32 t := fun t => by cases t <;> rfl
  have hright : ∀ t, common t int16 = common t int32 := fun t => by cases t <;> rfl
  refine ⟨hbits.symm, fun a => ?_, fun a => ?_⟩
  · rw [CVal.add, CVal.add, h, hbits, CVal.ofBits_ty, hleft]
  · rw [CVal.add, CVal.add, h, hbits, CVal.ofBits_ty, hright]

variable {m : Machine} {ctx : InstructionContext}

/-- The printed low half adds like the immediate that it stands for. -/
theorem sameSummand_relocLow (hr : ctx.relocType = .lo16)
    (hrange : relocInRange (relocBase m ctx) ctx.relocTargetSectionOffset = true) :
    ∃ v w, (relocLowText ctx).eval m.env = some v ∧
      (signedLiteral (relocatedImmediate m ctx).toInt).eval m.env = some w ∧ SameSummand v w := by
  obtain ⟨v, hv, hbits⟩ := yields_relocLow hrange
  obtain ⟨w, hw, -, rfl⟩ := isOperand_immS16 m (relocatedImmediate m ctx)
  have hty : v.ty = int16 := by
    obtain ⟨u, hu, hcast⟩ := Option.map_eq_some_iff.mp hv
    rw [← hcast]
    rfl
  have himm : v.bits = (relocatedImmediate m ctx).signExtend 64 := by
    rw [hbits, relocatedImmediate, hr, signedImmediateOf, ofWord_signExtend]
    rfl
  exact ⟨v, _, hv, hw, himm ▸ sameSummand_int16 hty⟩

section Summand

variable {a b b' out : CExpr} {v w : CVal}

theorem eval_call₂_summand {f : Callee}
    (hf : f ∈ [.add32, .memW, .memWU, .memH, .memHU, .memB, .memBU, .ld])
    (hb : b.eval m.env = some v) (hb' : b'.eval m.env = some w) (h : SameSummand v w) :
    (Expr.call₂ f a b).eval m.env = (Expr.call₂ f a b').eval m.env := by
  have hconvert : v.convert uint64 = w.convert uint64 := by rw [CVal.convert, CVal.convert, h.bits]
  have happly : ∀ x, f.apply₂ m.rdram x v = f.apply₂ m.rdram x w := by
    intro x
    simp only [List.mem_cons, List.not_mem_nil, or_false] at hf
    obtain rfl | rfl | rfl | rfl | rfl | rfl | rfl | rfl := hf <;>
      simp only [Callee.apply₂, memW, memWOffset, memHOffset, memBOffset, loadDoubleword,
        h.addLeft, h.addRight, hconvert]
  simp only [Expr.eval_call₂, hb, hb', Option.bind_some, Machine.env_call, Callee.apply_two, happly]

theorem eval_call₃_summand {f : Callee} (hf : f ∈ [.doLwl, .doLwr, .doLdl, .doLdr])
    (hb : b.eval m.env = some v) (hb' : b'.eval m.env = some w) (h : SameSummand v w) :
    (Expr.call₃ f out a b).eval m.env = (Expr.call₃ f out a b').eval m.env := by
  have hconvert : v.convert uint64 = w.convert uint64 := by rw [CVal.convert, CVal.convert, h.bits]
  have happly : ∀ x y, f.apply₃ m.rdram x y v = f.apply₃ m.rdram x y w := by
    intro x y
    simp only [List.mem_cons, List.not_mem_nil, or_false] at hf
    obtain rfl | rfl | rfl | rfl := hf
    · rw [Callee.apply₃, Callee.apply₃, doLwl, doLwl, hconvert]
    · rw [Callee.apply₃, Callee.apply₃, doLwr, doLwr, hconvert]
    · rw [Callee.apply₃, Callee.apply₃, doLdl, doLdl, hconvert]
    · rw [Callee.apply₃, Callee.apply₃, doLdr, doLdr, hconvert]
  simp only [Expr.eval_call₃, hb, hb', Option.bind_some, Machine.env_call, Callee.apply_three,
    happly]

/-- The second operand of a sum or of a load may be any summand of its value. -/
theorem eval_spellBinary_summand {type : BinaryOpType} (htype : addsOperands type = true)
    (hb : b.eval m.env = some v) (hb' : b'.eval m.env = some w) (h : SameSummand v w) :
    (spellBinary type (ops .rs .immS16 .none .none) out a b).eval m.env =
      (spellBinary type (ops .rs .immS16 .none .none) out a b').eval m.env := by
  cases type <;> cases htype
  case add64 =>
    change (Expr.binary .add a b).eval m.env = (Expr.binary .add a b').eval m.env
    simp only [Expr.eval_binary, hb, hb', Option.bind_some, BinOp.apply, h.addRight]
  case lwl | lwr | ldl | ldr => exact eval_call₃_summand (by decide) hb hb' h
  all_goals exact eval_call₂_summand (by decide) hb hb' h

/-- No value of the second operand, no value of the operation. -/
theorem eval_spellBinary_none {type : BinaryOpType} (htype : addsOperands type = true)
    (hb : b.eval m.env = none) :
    (spellBinary type (ops .rs .immS16 .none .none) out a b).eval m.env = none := by
  cases type <;> cases htype
  case add64 =>
    change (Expr.binary .add a b).eval m.env = none
    cases ha : a.eval m.env <;> simp [hb, ha]
  case lwl | lwr | ldl | ldr =>
    change (Expr.call₃ _ out a b).eval m.env = none
    cases ha : a.eval m.env <;> cases ho : out.eval m.env <;> simp [hb, ha, ho]
  all_goals
    change (Expr.call₂ _ a b).eval m.env = none
    cases ha : a.eval m.env <;> simp [hb, ha]

/-- The statement of a store. -/
def storeStatement (type : StoreOpType) (imm base value : CExpr) : CStatement :=
  match type with
  | .sd | .sdc1 => .sd value imm base
  | .sdl | .sdr | .swl | .swr => .call type imm base value
  | .sw | .sh | .sb | .swc1 => .assignMem type imm base value

/-- The offset of a store may be any summand of its value. -/
theorem exec_storeStatement_summand {type : StoreOpType} {base value : CExpr}
    (hb : b.eval m.env = some v) (hb' : b'.eval m.env = some w) (h : SameSummand v w) :
    (storeStatement type b base value).exec m = (storeStatement type b' base value).exec m := by
  have hconvert : v.convert uint64 = w.convert uint64 := by rw [CVal.convert, CVal.convert, h.bits]
  have hsd : ∀ x y, N64Recomp.sd m.rdram x v y = N64Recomp.sd m.rdram x w y := fun x y => by
    rw [N64Recomp.sd, N64Recomp.sd, h.addRight]
  have hassign : ∀ x y, assignMem m.rdram type v x y = assignMem m.rdram type w x y := fun x y => by
    simp only [assignMem, setMemW, memWOffset, memHOffset, memBOffset, h.addRight]
  have hcall : ∀ x y, callStore m.rdram type v x y = callStore m.rdram type w x y := fun x y => by
    have hswl : doSwl m.rdram v x y = doSwl m.rdram w x y := by rw [doSwl, doSwl, hconvert]
    have hswr : doSwr m.rdram v x y = doSwr m.rdram w x y := by rw [doSwr, doSwr, hconvert]
    have hsdl : doSdl m.rdram v x y = doSdl m.rdram w x y := by rw [doSdl, doSdl, hconvert]
    have hsdr : doSdr m.rdram v x y = doSdr m.rdram w x y := by rw [doSdr, doSdr, hconvert]
    unfold callStore
    rw [hswl, hswr, hsdl, hsdr]
  cases type <;>
    simp only [storeStatement, CStatement.exec, hb, hb', hsd, hassign, hcall, Option.bind_eq_bind,
      Option.bind_some]

theorem exec_storeStatement_none {type : StoreOpType} {base value : CExpr}
    (hb : b.eval m.env = none) : (storeStatement type b base value).exec m = none := by
  cases type <;> cases hv : value.eval m.env <;>
    simp [storeStatement, CStatement.exec, hb, hv]

end Summand

/-! ### The printed text -/

variable {id : InstrId} {o : Outcome 30}

theorem execAll_assignGpr_congr {r : Fin 32} {e e' : CExpr} (h : e.eval m.env = e'.eval m.env) :
    execAll m (assignGpr r e) = execAll m (assignGpr r e') := by
  by_cases hr : r = 0
  · rw [assignGpr, assignGpr, if_pos hr, if_pos hr]
  · simp [assignGpr, hr, execAll, CStatement.exec, h]

theorem execAll_assignGpr_none {r : Fin 32} {e : CExpr} (hr : r ≠ 0) (h : e.eval m.env = none) :
    execAll m (assignGpr r e) = none := by
  simp [assignGpr, hr, execAll, CStatement.exec, h]

/-- The text of an instruction is defined. -/
def Defined (id : InstrId) (ctx : InstructionContext) (m : Machine) : Prop :=
  ∃ e r, emitted id ctx = some (.ok e) ∧ e.run m = some r

theorem Refines.defined (h : Refines id ctx m o) : Defined id ctx m := by
  obtain ⟨e, m', he, hrun, -⟩ := h
  exact ⟨e, _, he, hrun⟩

/-- Texts that do the same have the same outcomes. -/
theorem refines_congr {ctx' : InstructionContext} {e e' : Emitted}
    (he : emitted id ctx = some (.ok e)) (he' : emitted id ctx' = some (.ok e'))
    (h : e.run m = e'.run m) : Refines id ctx m o ↔ Refines id ctx' m o := by
  constructor
  · rintro ⟨f, m', hf, hrun, hstate⟩
    obtain rfl := Except.ok.inj (Option.some.inj (he.symm.trans hf))
    exact ⟨e', m', he', h ▸ hrun, hstate⟩
  · rintro ⟨f, m', hf, hrun, hstate⟩
    obtain rfl := Except.ok.inj (Option.some.inj (he'.symm.trans hf))
    exact ⟨e, m', he, h ▸ hrun, hstate⟩

theorem not_defined {e : Emitted} (he : emitted id ctx = some (.ok e)) (h : e.run m = none) :
    ¬ Defined id ctx m := by
  rintro ⟨f, r, hf, hrun⟩
  obtain rfl := Except.ok.inj (Option.some.inj (he.symm.trans hf))
  rw [h] at hrun
  cases hrun

section Low

variable {type : BinaryOpType}

theorem emitted_sum {e : CExpr} (himm : getOperand .immS16 .none ctx = .ok e)
    (hrow : binaryOps id = some ⟨type, .rt, ops .rs .immS16 .none .none, false, false⟩) :
    emitted id ctx = some (.ok (.statements (assignGpr ctx.rt (spellBinary type
      (ops .rs .immS16 .none .none) (gprToString ctx.rt) (gprToString ctx.rs) e)))) :=
  emitted_binary hrow rfl rfl (getBinaryExpr_of rfl himm)

theorem emitted_store {stype : StoreOpType} {e : CExpr} (hbin : binaryOps id = none)
    (hun : unaryOps id = none) (hbranch : conditionalBranchOps id = none)
    (hrow : storeOps id = some ⟨stype, .rt⟩) (himm : getOperand .immS16 .none ctx = .ok e) :
    emitted id ctx = some (.ok (.statements
      [storeStatement stype e (gprToString ctx.rs) (gprToString ctx.rt)])) := by
  have hbase : getOperand .base .none ctx = .ok (gprToString ctx.rs) := rfl
  have hvalue : getOperand .rt .none ctx = .ok (gprToString ctx.rt) := rfl
  simp only [emitted, hbin, hun, hbranch, hrow, processStoreOp, hbase, himm, hvalue]
  cases stype <;> rfl

variable (hr : ctx.relocType = .lo16)
include hr

/-- A relocated sum or load does what the resolved one does, where its address is in range. -/
theorem refines_relocated_sum (htype : addsOperands type = true)
    (hrow : binaryOps id = some ⟨type, .rt, ops .rs .immS16 .none .none, false, false⟩)
    (hrange : relocInRange (relocBase m ctx) ctx.relocTargetSectionOffset = true) :
    Refines id ctx m o ↔ Refines id (resolved m ctx) m o := by
  obtain ⟨v, w, hv, hw, hsame⟩ := sameSummand_relocLow hr hrange
  have hresolved : getOperand .immS16 .none (resolved m ctx) =
      .ok (signedLiteral (relocatedImmediate m ctx).toInt) := getOperand_immS16 rfl
  refine refines_congr (emitted_sum (getOperand_relocLow hr) hrow) (emitted_sum hresolved hrow) ?_
  rw [Emitted.run, Emitted.run]
  exact congrArg _ (execAll_assignGpr_congr (eval_spellBinary_summand htype hv hw hsame))

theorem not_defined_relocated_sum (htype : addsOperands type = true) (hrt : ctx.rt ≠ 0)
    (hrow : binaryOps id = some ⟨type, .rt, ops .rs .immS16 .none .none, false, false⟩)
    (hrange : relocInRange (relocBase m ctx) ctx.relocTargetSectionOffset = false) :
    ¬ Defined id ctx m := by
  have hlow : (relocLowText ctx).eval m.env = none := by
    simp [relocLowText, eval_relocAddress_none hrange]
  refine not_defined (emitted_sum (getOperand_relocLow hr) hrow) ?_
  rw [Emitted.run, execAll_assignGpr_none hrt (eval_spellBinary_none htype hlow)]
  rfl

/-- The same of a relocated store. -/
theorem refines_relocated_store {stype : StoreOpType} (hbin : binaryOps id = none)
    (hun : unaryOps id = none) (hbranch : conditionalBranchOps id = none)
    (hrow : storeOps id = some ⟨stype, .rt⟩)
    (hrange : relocInRange (relocBase m ctx) ctx.relocTargetSectionOffset = true) :
    Refines id ctx m o ↔ Refines id (resolved m ctx) m o := by
  obtain ⟨v, w, hv, hw, hsame⟩ := sameSummand_relocLow hr hrange
  have hresolved : getOperand .immS16 .none (resolved m ctx) =
      .ok (signedLiteral (relocatedImmediate m ctx).toInt) := getOperand_immS16 rfl
  refine refines_congr (emitted_store hbin hun hbranch hrow (getOperand_relocLow hr))
    (emitted_store hbin hun hbranch hrow hresolved) ?_
  simp only [Emitted.run, execAll, List.foldlM_cons, exec_storeStatement_summand hv hw hsame]
  rfl

theorem not_defined_relocated_store {stype : StoreOpType} (hbin : binaryOps id = none)
    (hun : unaryOps id = none) (hbranch : conditionalBranchOps id = none)
    (hrow : storeOps id = some ⟨stype, .rt⟩)
    (hrange : relocInRange (relocBase m ctx) ctx.relocTargetSectionOffset = false) :
    ¬ Defined id ctx m := by
  have hlow : (relocLowText ctx).eval m.env = none := by
    simp [relocLowText, eval_relocAddress_none hrange]
  refine not_defined (emitted_store hbin hun hbranch hrow (getOperand_relocLow hr)) ?_
  simp [Emitted.run, execAll, exec_storeStatement_none hlow]

end Low

/-! ### `lui` -/

section High

variable (hr : ctx.relocType = .hi16)
include hr

theorem emitted_relocatedLui :
    emitted .lui ctx = some (.ok (.statements (assignGpr ctx.rt (relocLuiText ctx)))) := by
  have hin := getOperand_relocLui hr
  have hout : getOperand .rt .none ctx = .ok (gprToString ctx.rt) := rfl
  have hbin : binaryOps .lui = none := rfl
  have hop : unaryOps .lui = some ⟨.lui, .rt, .immU16, false, false⟩ := rfl
  simp only [emitted, hbin, hop, processUnaryOp, isZeroGprOperand, hout, hin, assignGpr]
  by_cases hrt : ctx.rt = 0 <;> simp [hrt, Except.map, bind, Except.bind, pure, Except.pure]

/-- A relocated `lui` leaves the high half of the address, where the address is in range. -/
theorem refines_relocatedLui
    (hrange : relocInRange (relocBase m ctx) ctx.relocTargetSectionOffset = true) :
    Refines .lui ctx m
      ⟨m.toMips.setReg ctx.rt (ofWord (highHalf (relocTarget m ctx) <<< 16)), false⟩ := by
  obtain ⟨m', hexec, hstate⟩ := exec_assignGpr (r := ctx.rt) fun _ => yields_relocLui hrange
  exact ⟨_, m', emitted_relocatedLui hr, by simp [Emitted.run, hexec], hstate⟩

theorem not_defined_relocatedLui (hrt : ctx.rt ≠ 0)
    (hrange : relocInRange (relocBase m ctx) ctx.relocTargetSectionOffset = false) :
    ¬ Defined .lui ctx m := by
  have hlui : (relocLuiText ctx).eval m.env = none := by
    simp [relocLuiText, unaryAffixes, eval_relocAddress_none hrange]
  refine not_defined (emitted_relocatedLui hr) ?_
  rw [Emitted.run, execAll_assignGpr_none hrt hlui]
  rfl

end High

end N64Recomp
