import N64Recomp.RSPRecomp.Labels
import N64Recomp.RSPRecomp.ScalarExprs

/-!
# The emitted scalar instructions

The lines of an instruction of the scalar unit against its effect on the RSP. Register 0 is printed
as the literal `0`: it reads as zero, but it cannot be assigned, and a comparison of two literals is
a signed one.

## Main definitions

* `EmitsRight`: the lines are valid, and have the effect of the instruction
* `ScalarCondition`: the instructions and operands for which they do

## Main results

* `balanced_emitInstruction`: emitted lines close their blocks
* `emitsRight_iff`: an instruction is emitted right exactly under the condition
-/

namespace N64Recomp.RSPRecomp

open CLang CVal

/-! ## Blocks -/

section Blocks

variable {ctx : EmitContext} {inDelaySlot : Bool} {instr : Instruction}
  {slot : Option (List Line)} {body : List Line}

theorem balanced_goto (l : Label) : Balanced [.goto l] := .line rfl .nil

theorem balanced_printAssign {reg : BitVec 5} {e : RspExpr} (h : printAssign reg e = some body) :
    Balanced body := by
  obtain rfl := Option.some.inj h
  exact .line rfl .nil

theorem balanced_printAssignChecked {reg : BitVec 5} {e : RspExpr}
    (h : printAssignChecked reg e = some body) : Balanced body := by
  unfold printAssignChecked at h
  split at h
  · obtain rfl := Option.some.inj h
    exact .nil
  · exact balanced_printAssign h

theorem balanced_printCop0Write (h : printCop0Write ctx inDelaySlot instr = some body) :
    Balanced body := by
  obtain ⟨action, _, h⟩ := Option.bind_eq_some_iff.mp h
  obtain rfl := Option.some.inj h
  refine Balanced.append ?_ ?_
  · split
    · exact .block (.line rfl (.line rfl .nil)) .nil
    · exact .nil
  · split
    · exact .nil
    · exact .line rfl .nil

theorem balanced_printUnconditionalBranch {before : List Line} {target : Label}
    (hbefore : Balanced before) (hslot : ∀ s, slot = some s → Balanced s)
    (h : printUnconditionalBranch before slot target = some body) : Balanced body := by
  obtain ⟨s, hs, rfl⟩ := printUnconditionalBranch_some h
  exact (hbefore.append (hslot s hs)).append (balanced_goto target)

theorem balanced_printBranch {condition : RspExpr} {before : List Line} {target : Label}
    (hbefore : Balanced before) (hslot : ∀ s, slot = some s → Balanced s)
    (h : printBranch condition before slot target = some body) : Balanced body := by
  obtain ⟨s, hs, rfl⟩ := Option.map_eq_some_iff.mp h
  have hblock : Balanced (.openIf condition :: (before ++ s ++ [.goto target]) ++ [.close]) :=
    .block ((hbefore.append (hslot s hs)).append (balanced_goto target)) .nil
  simpa only [List.cons_append, List.append_assoc, List.nil_append] using hblock

/-- A body closes its blocks when its delay slot does. -/
theorem balanced_emitBody (hslot : ∀ s, slot = some s → Balanced s)
    (h : emitBody ctx inDelaySlot instr slot = some body) : Balanced body := by
  unfold emitBody at h
  dsimp only at h
  split at h
  any_goals exact balanced_printAssign h
  any_goals exact balanced_printAssignChecked h
  any_goals exact balanced_printCop0Write h
  any_goals exact balanced_printUnconditionalBranch .nil hslot h
  any_goals exact balanced_printUnconditionalBranch (.line rfl .nil) hslot h
  any_goals exact balanced_printUnconditionalBranch (.line rfl (.line rfl .nil)) hslot h
  any_goals exact balanced_printBranch .nil hslot h
  any_goals exact balanced_printBranch (.line rfl .nil) hslot h
  any_goals (obtain rfl := Option.some.inj h; exact .nil)
  any_goals (obtain rfl := Option.some.inj h; exact .line rfl .nil)
  obtain ⟨value, _, h⟩ := Option.bind_eq_some_iff.mp h
  exact balanced_printAssign h

/-- **Emitted lines close their blocks.** -/
theorem balanced_emitInstruction {instrs : List Instruction} {lines : List Line}
    (h : emitInstruction ctx inDelaySlot instrs = some lines) : Balanced lines := by
  induction instrs generalizing inDelaySlot lines with
  | nil =>
    obtain rfl := Option.some.inj h
    exact .nil
  | cons instr rest ih =>
    obtain ⟨body, hbody, rfl⟩ := emitInstruction_cons h
    refine ((Balanced.of_lines ?_).append (balanced_emitBody (fun s hs => ih hs) hbody)).append
      (Balanced.of_lines ?_)
    · intro l hl
      unfold entryLines at hl
      split_ifs at hl <;> simp at hl
      · rcases hl with rfl | rfl | rfl <;> rfl
      · rcases hl with rfl | rfl <;> rfl
      · subst hl
        rfl
    · intro l hl
      split_ifs at hl
      · cases hl
      · rcases mem_resumeLines hl with rfl | rfl <;> rfl

end Blocks

/-! ## Emitting an instruction right -/

/-- Lines whose statements are valid. -/
def Line.isValid : Line → Bool
  | stmt s => s.isValid
  | _ => true

/-- The lines of an instruction are right in front of any rest of a text: they are valid if those of
the delay slot are, and do what the instruction does. A branch or jump that is taken goes on behind
its delay slot, another instruction at the next line. -/
def EmitsRight (ctx : EmitContext) (instr : Instruction) : Prop :=
  ∀ inDelaySlot rest slot, emitInstruction ctx true rest = some slot →
    ∃ body, emitBody ctx inDelaySlot instr (some slot) = some body ∧
      ((∀ l ∈ slot, l.isValid) → ∀ l ∈ body, l.isValid) ∧
      ∀ (ρ : Type) (rt : Runtime ρ) (s : RspContext ρ), exec rt 0 body s =
        if instr.taken s then
          (exec rt 0 slot (instr.effect s)).bind
            (Outcome.andThen fun s' => some (.goto instr.target s'))
        else some (.next (instr.effect s))

/-- A runtime whose operations do nothing. -/
def idleRuntime {ρ : Type} : Runtime ρ where
  cop0Write := fun _ _ s => s
  vectorOp := fun _ s => s

section Families

variable {ctx : EmitContext} {instr : Instruction} {reg : BitVec 5} {e : RspExpr}

theorem exec_assign {ρ : Type} {rt : Runtime ρ} {s : RspContext ρ} {x : BitVec 32}
    (hreg : reg ≠ 0) (h : Denotes s e x) (rest : List Line) :
    exec rt 0 (.stmt (.assign reg e) :: rest) s = exec rt 0 rest (s.writeReg reg x) := by
  obtain ⟨v, hv, rfl⟩ := h
  rw [exec, Stmt.run, if_neg hreg, hv, RspContext.writeReg, if_neg hreg]
  rfl

section Assignments

variable {x : ∀ {ρ : Type}, RspContext ρ → BitVec 32}
  (heffect : ∀ {ρ : Type} (s : RspContext ρ), instr.effect s = s.writeReg reg (x s))
  (htaken : ∀ {ρ : Type} (s : RspContext ρ), instr.taken s = false)

include heffect htaken

/-- An assignment that is right does not assign register 0, and assigns the right value. -/
theorem assign_of_emitsRight (h : EmitsRight ctx instr)
    (hbody : ∀ d slot, emitBody ctx d instr slot = printAssign reg e) :
    reg ≠ 0 ∧ ∀ {ρ : Type} (s : RspContext ρ) (y : BitVec 32), Denotes s e y → y = x s := by
  obtain ⟨body, hsome, hvalid, hexec⟩ := h false [] [] rfl
  obtain rfl := Option.some.inj ((hbody false (some [])).symm.trans hsome)
  have hstmt := hvalid (fun l hl => by cases hl) _ (List.mem_singleton_self _)
  rw [Line.isValid, Stmt.isValid, Bool.and_eq_true, decide_eq_true_eq] at hstmt
  refine ⟨hstmt.1, fun {ρ} s y hy => ?_⟩
  have hrun := hexec ρ idleRuntime s
  rw [exec_assign hstmt.1 hy, htaken, heffect] at hrun
  have hnext : s.writeReg reg y = s.writeReg reg (x s) :=
    Outcome.next.inj (Option.some.inj hrun)
  rw [RspContext.writeReg, RspContext.writeReg, if_neg hstmt.1, if_neg hstmt.1] at hnext
  have hgpr := congrFun (congrArg RspContext.gpr hnext) reg
  rwa [RspContext.gpr_setGpr, RspContext.gpr_setGpr] at hgpr

/-- An assignment that is printed for every register is right for those but register 0. -/
theorem emitsRight_assign (hbody : ∀ d slot, emitBody ctx d instr slot = printAssign reg e)
    (hliteral : e ≠ .var .notALiteral)
    (hx : ∀ {ρ : Type} (s : RspContext ρ), Denotes s e (x s)) :
    EmitsRight ctx instr ↔ reg ≠ 0 := by
  refine ⟨fun h => (assign_of_emitsRight heffect htaken h hbody).1, fun hreg d rest slot _ => ?_⟩
  refine ⟨_, hbody d (some slot), ?_, ?_⟩
  · intro _ l hl
    rw [List.mem_singleton.mp hl, Line.isValid, Stmt.isValid, Bool.and_eq_true,
      decide_eq_true_eq, decide_eq_true_eq]
    exact ⟨hreg, hliteral⟩
  · intro ρ rt s
    rw [htaken, exec_assign hreg (hx s), heffect]
    rfl

/-- An assignment that is left out for register 0 is right. -/
theorem emitsRight_assignChecked
    (hbody : ∀ d slot, emitBody ctx d instr slot = printAssignChecked reg e)
    (hliteral : e ≠ .var .notALiteral)
    (hx : ∀ {ρ : Type} (s : RspContext ρ), Denotes s e (x s)) :
    EmitsRight ctx instr := by
  by_cases hreg : reg = 0
  · intro d rest slot _
    refine ⟨[], ?_, ?_, ?_⟩
    · rw [hbody, printAssignChecked, if_pos hreg]
    · intro _ l hl
      cases hl
    · intro ρ rt s
      rw [htaken, heffect, RspContext.writeReg, if_pos hreg]
      rfl
  · refine (emitsRight_assign heffect htaken ?_ hliteral hx).mpr hreg
    intro d slot
    rw [hbody, printAssignChecked, if_neg hreg]

end Assignments

/-- A store is right. -/
theorem emitsRight_store {size : StoreSize}
    (hbody : ∀ d slot, emitBody ctx d instr slot = some [.stmt (.store size
      (hexLiteral instr.immediate.toInt) (gprRef instr.rs) (gprRef instr.rt))])
    (heffect : ∀ {ρ : Type} (s : RspContext ρ), instr.effect s =
      { s with dmem := dmemStore s.dmem (instr.address s) size (s.reg instr.rt) })
    (htaken : ∀ {ρ : Type} (s : RspContext ρ), instr.taken s = false) :
    EmitsRight ctx instr := by
  intro d rest slot _
  refine ⟨_, hbody d (some slot), ?_, ?_⟩
  · intro _ l hl
    rw [List.mem_singleton.mp hl]
    rfl
  · intro ρ rt s
    obtain ⟨o, ho, -, hoffset⟩ := denotes_signed (s := s) instr
    rw [htaken, heffect, exec, Stmt.run, ho, eval_gprRef, eval_gprRef]
    dsimp only [Option.bind_some, Option.map_some]
    rw [hoffset, toWord_refValue, toWord_refValue, BitVec.add_comm]
    rfl

/-! ### Branches and jumps -/

section Slot

variable {ρ : Type} {rt : Runtime ρ} {s : RspContext ρ} {slot : List Line} {c : RspExpr}
  {v : CVal} {before : List Line}

/-- The lines of a delay slot, and a jump behind them. -/
theorem exec_slot (hslot : Balanced slot) (target : Label) (tail : List Line) :
    exec rt 0 (slot ++ .goto target :: tail) s =
      (exec rt 0 slot s).bind (Outcome.andThen fun s' => some (.goto target s')) := by
  rw [hslot.exec_append]
  rfl

/-- A block of a branch is run when its condition holds, and left out with its delay slot else. -/
theorem exec_printBranch (hbefore : Balanced before) (hslot : Balanced slot)
    (hc : c.eval s.env = some v) (target : Label) :
    exec rt 0 (.openIf c :: before ++ slot ++ [.goto target, .close]) s =
      if v.truthy then exec rt 0 (before ++ (slot ++ [.goto target, .close])) s
      else some (.next s) := by
  rw [List.cons_append, List.cons_append, exec, hc, Option.bind_some, List.append_assoc]
  split
  · rfl
  · rw [hbefore.skip, hslot.skip]
    rfl

end Slot

/-- A branch that writes no register is right when its condition and its target are. -/
theorem emitsRight_branch {c : RspExpr}
    (hbody : ∀ d slot, emitBody ctx d instr slot = printBranch c [] slot instr.target)
    (heffect : ∀ {ρ : Type} (s : RspContext ρ), instr.effect s = s)
    (hc : ∀ {ρ : Type} (s : RspContext ρ), ∃ v, c.eval s.env = some v ∧ v.truthy = instr.taken s) :
    EmitsRight ctx instr := by
  intro d rest slot hslot
  refine ⟨_, hbody d (some slot), ?_, ?_⟩
  · intro hvalid l hl
    simp only [List.mem_append, List.mem_cons, List.not_mem_nil, or_false] at hl
    rcases hl with (rfl | hl) | rfl | rfl
    · rfl
    · exact hvalid l hl
    · rfl
    · rfl
  · intro ρ rt s
    obtain ⟨v, hv, htruthy⟩ := hc s
    rw [exec_printBranch .nil (balanced_emitInstruction hslot) hv, List.nil_append,
      exec_slot (balanced_emitInstruction hslot), htruthy, heffect]

/-- A jump is right when its first lines have the instruction's effect. -/
theorem emitsRight_jump (before : List Line) (hbefore : ∀ l ∈ before, l.isValid)
    (hbody : ∀ d slot, emitBody ctx d instr slot =
      printUnconditionalBranch before slot instr.target)
    (htaken : ∀ {ρ : Type} (s : RspContext ρ), instr.taken s = true)
    (hexec : ∀ {ρ : Type} (rt : Runtime ρ) (s : RspContext ρ) (tail : List Line),
      exec rt 0 (before ++ tail) s = exec rt 0 tail (instr.effect s)) :
    EmitsRight ctx instr := by
  intro d rest slot hslot
  refine ⟨_, hbody d (some slot), ?_, ?_⟩
  · intro hvalid l hl
    rcases List.mem_append.mp hl with hl | hl
    · rcases List.mem_append.mp hl with hl | hl
      · exact hbefore l hl
      · exact hvalid l hl
    · rw [List.mem_singleton.mp hl]
      rfl
  · intro ρ rt s
    rw [htaken, if_pos rfl, ← exec_slot (balanced_emitInstruction hslot) instr.target [],
      ← hexec, ← List.append_assoc]

/-! ### Links -/

theorem denotes_link {ρ : Type} {s : RspContext ρ} :
    Denotes s (hexLiteral instr.linkAddress.toNat) instr.linkAddress := by
  obtain ⟨v, hv, -, hword⟩ := denotes_hexLiteral (s := s) instr.linkAddress.toNat
  refine ⟨v, hv, ?_⟩
  rw [hword, BitVec.ofInt_natCast, BitVec.ofNat_toNat, BitVec.setWidth_eq]

theorem exec_printLink {ρ : Type} {rt : Runtime ρ} {s : RspContext ρ} (tail : List Line) :
    exec rt 0 (printLink instr :: tail) s = exec rt 0 tail (s.writeReg 31 instr.linkAddress) :=
  exec_assign (by decide) denotes_link tail

/-- A jump to a register keeps the register's value. -/
theorem exec_setJumpTarget {ρ : Type} {rt : Runtime ρ} {s : RspContext ρ} (tail : List Line) :
    exec rt 0 (.stmt (.setJumpTarget (gprRef instr.rs)) :: tail) s =
      exec rt 0 tail { s with jumpTarget := s.reg instr.rs } := by
  rw [exec, Stmt.run, eval_gprRef, Option.map_some, toWord_refValue]
  rfl

/-- The return address of a jump to a register is a literal of eight digits only. -/
theorem emitsRight_jalr
    (hbody : ∀ d slot, emitBody ctx d instr slot = printUnconditionalBranch
      [.stmt (.setJumpTarget (gprRef instr.rs)),
        .stmt (.assign instr.rd (paddedHexLiteral instr.linkAddress))] slot instr.target)
    (heffect : ∀ {ρ : Type} (s : RspContext ρ), instr.effect s =
      { s with jumpTarget := s.reg instr.rs }.writeReg instr.rd instr.linkAddress)
    (htaken : ∀ {ρ : Type} (s : RspContext ρ), instr.taken s = true) :
    EmitsRight ctx instr ↔ instr.rd ≠ 0 ∧ 0x10000000 ≤ instr.linkAddress := by
  constructor
  · intro h
    obtain ⟨body, hsome, hvalid, -⟩ := h false [] [] rfl
    obtain rfl := Option.some.inj ((hbody false (some [])).symm.trans hsome)
    have hstmt := hvalid (fun l hl => by cases hl)
      (.stmt (.assign instr.rd (paddedHexLiteral instr.linkAddress))) (by simp)
    rw [Line.isValid, Stmt.isValid, Bool.and_eq_true, decide_eq_true_eq,
      decide_eq_true_eq] at hstmt
    refine ⟨hstmt.1, BitVec.not_lt.mp fun hlt => hstmt.2 ?_⟩
    rw [paddedHexLiteral, if_pos hlt]
  · rintro ⟨hrd, hlink⟩
    -- the number is printed without blanks
    have hliteral : paddedHexLiteral instr.linkAddress = .lit .uint32 instr.linkAddress.toNat :=
      if_neg (BitVec.not_lt.mpr hlink)
    refine emitsRight_jump _ ?_ hbody htaken ?_
    · intro l hl
      rcases List.mem_cons.mp hl with rfl | hl
      · rfl
      · rw [List.mem_singleton.mp hl, Line.isValid, Stmt.isValid, hliteral, Bool.and_eq_true,
          decide_eq_true_eq, decide_eq_true_eq]
        exact ⟨hrd, by nofun⟩
    · intro ρ rt s tail
      have hdenotes : Denotes { s with jumpTarget := s.reg instr.rs }
          (paddedHexLiteral instr.linkAddress) instr.linkAddress := by
        rw [hliteral]
        refine ⟨_, rfl, (toWord_ofBits_uint32 _).trans ?_⟩
        rw [setWidth_ofInt, BitVec.ofInt_natCast, BitVec.ofNat_toNat, BitVec.setWidth_eq]
      rw [List.cons_append, exec_setJumpTarget, List.singleton_append, exec_assign hrd hdenotes,
        heffect]

section Linking

variable {c : RspExpr}
  (hbody : ∀ d slot, emitBody ctx d instr slot =
    printBranch c [printLink instr] slot instr.target)
  (heffect : ∀ {ρ : Type} (s : RspContext ρ), instr.effect s = s.writeReg 31 instr.linkAddress)
  (hc : ∀ {ρ : Type} (s : RspContext ρ), ∃ v, c.eval s.env = some v ∧ v.truthy = instr.taken s)

include hbody heffect hc

/-- A linking branch is right when it is always taken. -/
theorem emitsRight_link (htaken : ∀ {ρ : Type} (s : RspContext ρ), instr.taken s = true) :
    EmitsRight ctx instr := by
  intro d rest slot hslot
  refine ⟨_, hbody d (some slot), ?_, ?_⟩
  · intro hvalid l hl
    simp only [List.mem_append, List.mem_cons, List.not_mem_nil, or_false] at hl
    rcases hl with ((rfl | rfl) | hl) | rfl | rfl
    · rfl
    · rfl
    · exact hvalid l hl
    · rfl
    · rfl
  · intro ρ rt s
    obtain ⟨v, hv, htruthy⟩ := hc s
    have hlink : Balanced [printLink instr] := .line rfl .nil
    rw [exec_printBranch hlink (balanced_emitInstruction hslot) hv, htruthy, htaken, if_pos rfl,
      if_pos rfl, heffect, List.singleton_append, exec_printLink,
      exec_slot (balanced_emitInstruction hslot)]

/-- A linking branch that is not taken leaves register 31 as it is. -/
theorem gpr_of_emitsRight (h : EmitsRight ctx instr) {ρ : Type} (s : RspContext ρ)
    (htaken : instr.taken s = false) : s.gpr 31 = instr.linkAddress := by
  obtain ⟨body, hsome, -, hexec⟩ := h false [] [] rfl
  obtain rfl := Option.some.inj ((hbody false (some [])).symm.trans hsome)
  obtain ⟨v, hv, htruthy⟩ := hc s
  have hlink : Balanced [printLink instr] := .line rfl .nil
  have hrun := hexec ρ idleRuntime s
  rw [exec_printBranch hlink .nil hv, htruthy, htaken, heffect] at hrun
  have hnext : s = s.writeReg 31 instr.linkAddress := Outcome.next.inj (Option.some.inj hrun)
  have hgpr : (s.writeReg 31 instr.linkAddress).gpr 31 = instr.linkAddress :=
    s.gpr_setGpr 31 _
  rwa [← hnext] at hgpr

end Linking

end Families

/-! ## Targets and decisions -/

section Targets

/-- The bits of an index behind its shift that the memories' mask keeps. -/
theorem shiftLeft_and_mask (word : BitVec 32) :
    ((word &&& 0x03FFFFFF) <<< 2) &&& rspMemMask = (word <<< 2) &&& rspMemMask := by
  have hmask : ∀ x : BitVec 32, (x &&& rspMemMask).toNat = x.toNat % 2 ^ 13 := fun x =>
    (BitVec.toNat_and _ _).trans (Nat.and_two_pow_sub_one_eq_mod _ 13)
  have hindex : (word &&& 0x03FFFFFF).toNat = word.toNat % 2 ^ 26 :=
    (BitVec.toNat_and _ _).trans (Nat.and_two_pow_sub_one_eq_mod _ 26)
  apply BitVec.eq_of_toNat_eq
  rw [hmask, hmask, BitVec.toNat_shiftLeft, BitVec.toNat_shiftLeft, hindex, Nat.shiftLeft_eq,
    Nat.shiftLeft_eq]
  omega

/-- The segment and the upper bits of the index of a jump do not matter. -/
theorem imemAddress_jump (vram word : BitVec 32) :
    imemAddress ((vram &&& (0xF0000000 : BitVec 32)) ||| (word &&& (0x03FFFFFF : BitVec 32)) <<< 2) =
      imemAddress (word <<< 2) := by
  have hsegment : (vram &&& (0xF0000000 : BitVec 32)) &&& rspMemMask = 0 := by
    rw [BitVec.and_assoc]
    exact BitVec.and_zero
  rw [imemAddress, imemAddress, BitVec.and_or_distrib_right, BitVec.and_or_distrib_right,
    BitVec.and_or_distrib_right, hsegment, shiftLeft_and_mask]
  exact congrArg (· ||| (0x1000 &&& rspMemMask)) BitVec.zero_or

theorem branchTarget_j (word vram : BitVec 32) :
    Label.code (Instruction.branchTarget ⟨.j, word, vram⟩) = Instruction.target ⟨.j, word, vram⟩ :=
  congrArg Label.code (imemAddress_jump vram word)

theorem branchTarget_jal (word vram : BitVec 32) :
    Label.code (Instruction.branchTarget ⟨.jal, word, vram⟩) =
      Instruction.target ⟨.jal, word, vram⟩ :=
  congrArg Label.code (imemAddress_jump vram word)

end Targets

section Decisions

variable {ρ : Type} (s : RspContext ρ) (n m : BitVec 5)

theorem eval_eq : ∃ v, (Expr.binary .eq (gprRef n) (gprRef m)).eval s.env = some v ∧
    v.truthy = decide (s.reg n = s.reg m) := by
  refine ⟨(refValue s n).eq (refValue s m), ?_, ?_⟩
  · rw [Expr.eval_binary, eval_gprRef, eval_gprRef]
    rfl
  · rw [eq_of_is32 (is32_refValue s n) (is32_refValue s m), truthy_ofBool, toWord_refValue,
      toWord_refValue]
    rfl

theorem eval_ne : ∃ v, (Expr.binary .ne (gprRef n) (gprRef m)).eval s.env = some v ∧
    v.truthy = decide (s.reg n ≠ s.reg m) := by
  obtain ⟨v, hv, htruthy⟩ := eval_eq s n m
  refine ⟨v.lnot, ?_, ?_⟩
  · rw [Expr.eval_binary, eval_gprRef, eval_gprRef] at hv ⊢
    exact congrArg (Option.map CVal.lnot) hv
  · rw [CVal.lnot, truthy_ofBool, htruthy, decide_not]

/-- A comparison of a register with zero. -/
theorem eval_zero {op : BinOp} {c : Bool}
    (hop : op.apply (ofSigned (s.reg n)) (ofSigned 0) = some (CVal.ofBool c)) :
    ∃ v, (Expr.binary op (signedRef n) (hexLiteral 0)).eval s.env = some v ∧ v.truthy = c := by
  have hzero : (hexLiteral 0).eval s.env = some (ofSigned 0) := eval_hexLiteral s (by decide)
  refine ⟨CVal.ofBool c, ?_, truthy_ofBool c⟩
  rw [Expr.eval_binary, eval_signedRef, hzero]
  exact hop

theorem eval_bgez : ∃ v, (Expr.binary .ge (signedRef n) (hexLiteral 0)).eval s.env = some v ∧
    v.truthy = (0 : BitVec 32).sle (s.reg n) :=
  eval_zero s n (congrArg some (le_ofSigned _ _))

theorem eval_bgtz : ∃ v, (Expr.binary .gt (signedRef n) (hexLiteral 0)).eval s.env = some v ∧
    v.truthy = (0 : BitVec 32).slt (s.reg n) :=
  eval_zero s n (congrArg some (lt_ofSigned _ _))

theorem eval_blez : ∃ v, (Expr.binary .le (signedRef n) (hexLiteral 0)).eval s.env = some v ∧
    v.truthy = (s.reg n).sle 0 :=
  eval_zero s n (congrArg some (le_ofSigned _ _))

theorem eval_bltz : ∃ v, (Expr.binary .lt (signedRef n) (hexLiteral 0)).eval s.env = some v ∧
    v.truthy = (s.reg n).slt 0 :=
  eval_zero s n (congrArg some (lt_ofSigned _ _))

end Decisions

/-! ## The scalar unit -/

/-- The instructions of the scalar unit, but for those of the coprocessor and `break`. -/
def InstrId.isScalar : InstrId → Bool
  | .break | .mfc0 | .mtc0 | .vector | .other => false
  | _ => true

/-- Which instructions of the scalar unit are emitted right: an assignment needs a register other
than 0, except where it is left out for it; an immediate that is compared with the literal of
register 0 must not be negative; a linking branch must be taken; the return address of `jalr` must
have eight digits. -/
def ScalarCondition (instr : Instruction) : Prop :=
  match instr.id with
  | .lui | .addi | .addiu | .andi | .ori | .xori | .slti | .lw | .lh | .lb | .lhu | .lbu =>
    instr.rt ≠ 0
  | .sltiu => instr.rt ≠ 0 ∧ ¬(instr.rs = 0 ∧ instr.immediate.toInt < 0)
  | .negu | .sub | .subu | .or | .nor | .xor | .sll | .sllv | .sra | .srav | .srl | .srlv
  | .slt | .sltu => instr.rd ≠ 0
  | .jalr => instr.rd ≠ 0 ∧ 0x10000000 ≤ instr.linkAddress
  | .bgezal => instr.rs = 0
  | .bltzal => False
  | _ => True

section Main

variable {ctx : EmitContext} (word vram : BitVec 32)

/-- A context whose registers all hold one value. -/
def flatContext (x : BitVec 32) : RspContext Unit where
  gpr := fun _ => x
  jumpTarget := 0
  dmaMemAddress := 0
  resumeAddress := 0
  resumeDelay := false
  watchdogCount := 0
  dmem := fun _ => 0
  rsp := ()

theorem toInt_signedImmediate (instr : Instruction) :
    instr.signedImmediate.toInt = instr.immediate.toInt :=
  BitVec.toInt_signExtend_of_le (by decide)

/-- Signed and unsigned comparisons with zero agree but for negative numbers. -/
theorem zero_slt_eq_ult (x : BitVec 32) :
    (0 : BitVec 32).slt x = (0 : BitVec 32).ult x ↔ ¬ x.toInt < 0 := by
  have hlt := x.isLt
  have hint := BitVec.toInt_eq_toNat_cond x
  have hslt : (0 : BitVec 32).slt x = decide (0 < x.toInt) := BitVec.slt_eq_decide
  have hult : (0 : BitVec 32).ult x = decide (0 < x.toNat) := BitVec.ult_eq_decide
  rw [hslt, hult, decide_eq_decide]
  split_ifs at hint <;> omega

theorem flag_injective {b c : Bool} (h : Instruction.flag b = Instruction.flag c) : b = c := by
  revert h
  cases b <;> cases c <;> decide

theorem emitsRight_sltiu : EmitsRight ctx ⟨.sltiu, word, vram⟩ ↔
    ScalarCondition ⟨.sltiu, word, vram⟩ := by
  set instr : Instruction := ⟨.sltiu, word, vram⟩
  by_cases h : instr.rs = 0 ∧ instr.immediate.toInt < 0
  · refine iff_of_false (fun hright => ?_) fun hcondition => hcondition.2 h
    -- zero is below the immediate as an unsigned number only
    obtain ⟨-, hvalue⟩ := assign_of_emitsRight (x := fun s => Instruction.flag
      ((s.reg instr.rs).ult instr.signedImmediate)) (fun _ => rfl) (fun _ => rfl) hright
      fun _ _ => rfl
    have hflag := hvalue (flatContext 0) _ (denotes_sltiu instr)
    rw [if_pos h.1, RspContext.reg, if_pos h.1] at hflag
    refine (zero_slt_eq_ult _).mp (flag_injective hflag) ?_
    rw [toInt_signedImmediate]
    exact h.2
  · refine Iff.trans ?_ (and_iff_left h).symm
    refine emitsRight_assign (fun _ => rfl) (fun _ => rfl) (fun _ _ => rfl) (by nofun) fun s => ?_
    have hflag : (if instr.rs = 0 then (0 : BitVec 32).slt instr.signedImmediate
        else (s.reg instr.rs).ult instr.signedImmediate) =
        (s.reg instr.rs).ult instr.signedImmediate := by
      split_ifs with hrs
      · rw [RspContext.reg, if_pos hrs, zero_slt_eq_ult, toInt_signedImmediate]
        exact fun hneg => h ⟨hrs, hneg⟩
      · rfl
    have hdenotes := denotes_sltiu (s := s) instr
    rwa [hflag] at hdenotes

theorem emitsRight_bgezal : EmitsRight ctx ⟨.bgezal, word, vram⟩ ↔
    ScalarCondition ⟨.bgezal, word, vram⟩ := by
  set instr : Instruction := ⟨.bgezal, word, vram⟩
  constructor
  · intro hright
    by_contra hrs
    -- a negative value that is not the return address
    obtain ⟨x, hx, hlink⟩ : ∃ x : BitVec 32, (0 : BitVec 32).sle x = false ∧
        x ≠ instr.linkAddress := by
      by_cases hlink : instr.linkAddress = -1
      · exact ⟨-2, by decide, by rw [hlink]; decide⟩
      · exact ⟨-1, by decide, fun h => hlink h.symm⟩
    refine hlink (gpr_of_emitsRight (fun _ _ => rfl) (fun _ => rfl) (fun s => eval_bgez s _) hright
      (flatContext x) ?_)
    have hreg : (flatContext x).reg instr.rs = x := if_neg hrs
    exact (congrArg (BitVec.sle 0) hreg).trans hx
  · intro hrs
    refine emitsRight_link (fun _ _ => rfl) (fun _ => rfl) (fun s => eval_bgez s _) fun s => ?_
    have hreg : s.reg instr.rs = 0 := if_pos hrs
    exact (congrArg (BitVec.sle 0) hreg).trans (by decide)

theorem emitsRight_bltzal : EmitsRight ctx ⟨.bltzal, word, vram⟩ ↔
    ScalarCondition ⟨.bltzal, word, vram⟩ := by
  set instr : Instruction := ⟨.bltzal, word, vram⟩
  refine iff_of_false (fun hright => ?_) id
  -- a value that is not negative, and is not the return address
  obtain ⟨x, hx, hlink⟩ : ∃ x : BitVec 32, x.slt 0 = false ∧ x ≠ instr.linkAddress := by
    by_cases hlink : instr.linkAddress = 0
    · exact ⟨1, by decide, by rw [hlink]; decide⟩
    · exact ⟨0, by decide, fun h => hlink h.symm⟩
  refine hlink (gpr_of_emitsRight (fun _ _ => rfl) (fun _ => rfl) (fun s => eval_bltz s _) hright
    (flatContext x) ?_)
  change ((flatContext x).reg instr.rs).slt 0 = false
  rw [RspContext.reg]
  split_ifs
  · decide
  · exact hx

/-- **An instruction of the scalar unit is emitted right exactly under the condition.** -/
theorem emitsRight_iff {instr : Instruction} (hid : instr.id.isScalar = true) :
    EmitsRight ctx instr ↔ ScalarCondition instr := by
  obtain ⟨id, word, vram⟩ := instr
  cases id with
  | «break» | mfc0 | mtc0 | vector | other => cases hid
  | nop =>
    refine iff_true_intro fun d rest slot _ => ⟨[], rfl, ?_, fun _ _ _ => rfl⟩
    intro _ l hl
    cases hl
  | lui =>
    exact emitsRight_assign (fun _ => rfl) (fun _ => rfl) (fun _ _ => rfl) (by nofun)
      fun _ => denotes_sll (denotes_hexLiteral 16) rfl (by decide) (denotes_unsigned _)
  | add | addu =>
    exact iff_true_intro (emitsRight_assignChecked (fun _ => rfl) (fun _ => rfl) (fun _ _ => rfl)
      (by nofun) fun _ => denotes_add (denotes_gprRef _) (denotes_gprRef _))
  | negu | sub | subu =>
    exact emitsRight_assign (fun _ => rfl) (fun _ => rfl) (fun _ _ => rfl) (by nofun)
      fun _ => denotes_sub (denotes_gprRef _) (denotes_gprRef _)
  | addi | addiu =>
    exact emitsRight_assign (fun _ => rfl) (fun _ => rfl) (fun _ _ => rfl) (by nofun)
      fun _ => denotes_add (denotes_gprRef _) (denotes_signed _)
  | and =>
    exact iff_true_intro (emitsRight_assignChecked (fun _ => rfl) (fun _ => rfl) (fun _ _ => rfl)
      (by nofun) fun _ => (denotes_and (denotes_gprRef _) (denotes_gprRef _)).denotes)
  | andi =>
    exact emitsRight_assign (fun _ => rfl) (fun _ => rfl) (fun _ _ => rfl) (by nofun)
      fun _ => (denotes_and (denotes_gprRef _) (denotes_unsigned _)).denotes
  | or =>
    exact emitsRight_assign (fun _ => rfl) (fun _ => rfl) (fun _ _ => rfl) (by nofun)
      fun _ => (denotes_or (denotes_gprRef _) (denotes_gprRef _)).denotes
  | ori =>
    exact emitsRight_assign (fun _ => rfl) (fun _ => rfl) (fun _ _ => rfl) (by nofun)
      fun _ => (denotes_or (denotes_gprRef _) (denotes_unsigned _)).denotes
  | nor =>
    exact emitsRight_assign (fun _ => rfl) (fun _ => rfl) (fun _ _ => rfl) (by nofun)
      fun _ => denotes_compl (denotes_or (denotes_gprRef _) (denotes_gprRef _))
  | xor =>
    exact emitsRight_assign (fun _ => rfl) (fun _ => rfl) (fun _ _ => rfl) (by nofun)
      fun _ => (denotes_xor (denotes_gprRef _) (denotes_gprRef _)).denotes
  | xori =>
    exact emitsRight_assign (fun _ => rfl) (fun _ => rfl) (fun _ _ => rfl) (by nofun)
      fun _ => (denotes_xor (denotes_gprRef _) (denotes_unsigned _)).denotes
  | sll =>
    exact emitsRight_assign (fun _ => rfl) (fun _ => rfl) (fun _ _ => rfl) (by nofun)
      fun _ => denotes_sll (denotes_sa _) (toNat_sa _) (BitVec.isLt _) (denotes_gprRef _)
  | sllv =>
    exact emitsRight_assign (fun _ => rfl) (fun _ => rfl) (fun _ _ => rfl) (by nofun)
      fun _ => denotes_sll (denotes_shiftRef _) (toNat_shiftRef _) (BitVec.isLt _)
        (denotes_gprRef _)
  | sra =>
    exact emitsRight_assign (fun _ => rfl) (fun _ => rfl) (fun _ _ => rfl) (by nofun)
      fun _ => denotes_sra (denotes_sa _) (toNat_sa _) (BitVec.isLt _) (denotes_gprRef _)
  | srav =>
    exact emitsRight_assign (fun _ => rfl) (fun _ => rfl) (fun _ _ => rfl) (by nofun)
      fun _ => denotes_sra (denotes_shiftRef _) (toNat_shiftRef _) (BitVec.isLt _)
        (denotes_gprRef _)
  | srl =>
    exact emitsRight_assign (fun _ => rfl) (fun _ => rfl) (fun _ _ => rfl) (by nofun)
      fun _ => denotes_srl (denotes_sa _) (toNat_sa _) (BitVec.isLt _) (denotes_gprRef _)
  | srlv =>
    exact emitsRight_assign (fun _ => rfl) (fun _ => rfl) (fun _ _ => rfl) (by nofun)
      fun _ => denotes_srl (denotes_shiftRef _) (toNat_shiftRef _) (BitVec.isLt _)
        (denotes_gprRef _)
  | slt =>
    exact emitsRight_assign (fun _ => rfl) (fun _ => rfl) (fun _ _ => rfl) (by nofun)
      fun _ => denotes_slt _ _
  | slti =>
    exact emitsRight_assign (fun _ => rfl) (fun _ => rfl) (fun _ _ => rfl) (by nofun)
      fun _ => denotes_slti _
  | sltu =>
    exact emitsRight_assign (fun _ => rfl) (fun _ => rfl) (fun _ _ => rfl) (by nofun)
      fun _ => denotes_sltu _ _
  | sltiu => exact emitsRight_sltiu word vram
  | lw =>
    exact emitsRight_assign (fun _ => rfl) (fun _ => rfl) (fun _ _ => rfl) (by nofun)
      fun _ => denotes_lw _
  | lh =>
    exact emitsRight_assign (fun _ => rfl) (fun _ => rfl) (fun _ _ => rfl) (by nofun)
      fun _ => denotes_lh _
  | lb =>
    exact emitsRight_assign (fun _ => rfl) (fun _ => rfl) (fun _ _ => rfl) (by nofun)
      fun _ => denotes_lb _
  | lhu =>
    exact emitsRight_assign (fun _ => rfl) (fun _ => rfl) (fun _ _ => rfl) (by nofun)
      fun _ => denotes_lhu _
  | lbu =>
    exact emitsRight_assign (fun _ => rfl) (fun _ => rfl) (fun _ _ => rfl) (by nofun)
      fun _ => denotes_lbu _
  | sw | sh | sb =>
    exact iff_true_intro (emitsRight_store (fun _ _ => rfl) (fun _ => rfl) fun _ => rfl)
  | j =>
    refine iff_true_intro (emitsRight_jump [] (by nofun) ?_ (fun _ => rfl) fun _ _ _ => rfl)
    intro d slot
    rw [← branchTarget_j]
    rfl
  | b =>
    exact iff_true_intro (emitsRight_jump [] (by nofun) (fun _ _ => rfl) (fun _ => rfl)
      fun _ _ _ => rfl)
  | jal =>
    refine iff_true_intro (emitsRight_jump [printLink _] ?_ ?_ (fun _ => rfl)
      fun _ _ tail => exec_printLink tail)
    · intro l hl
      rw [List.mem_singleton.mp hl]
      rfl
    · intro d slot
      rw [← branchTarget_jal]
      rfl
  | jr =>
    refine iff_true_intro (emitsRight_jump _ ?_ (fun _ _ => rfl) (fun _ => rfl)
      fun _ _ tail => exec_setJumpTarget tail)
    intro l hl
    rw [List.mem_singleton.mp hl]
    rfl
  | jalr => exact emitsRight_jalr (fun _ _ => rfl) (fun _ => rfl) fun _ => rfl
  | beq =>
    exact iff_true_intro (emitsRight_branch (fun _ _ => rfl) (fun _ => rfl)
      fun s => eval_eq s _ _)
  | bne =>
    exact iff_true_intro (emitsRight_branch (fun _ _ => rfl) (fun _ => rfl)
      fun s => eval_ne s _ _)
  | bgez =>
    exact iff_true_intro (emitsRight_branch (fun _ _ => rfl) (fun _ => rfl)
      fun s => eval_bgez s _)
  | bgtz =>
    exact iff_true_intro (emitsRight_branch (fun _ _ => rfl) (fun _ => rfl)
      fun s => eval_bgtz s _)
  | blez =>
    exact iff_true_intro (emitsRight_branch (fun _ _ => rfl) (fun _ => rfl)
      fun s => eval_blez s _)
  | bltz =>
    exact iff_true_intro (emitsRight_branch (fun _ _ => rfl) (fun _ => rfl)
      fun s => eval_bltz s _)
  | bgezal => exact emitsRight_bgezal word vram
  | bltzal => exact emitsRight_bltzal word vram

end Main

/-- A context without labels. -/
def plainContext : EmitContext where
  branchTargets := ⟨[], []⟩
  unsupportedInstructions := []
  resumeTargets := ⟨[], []⟩
  hasOverlays := false

/-- `addu $3, $1, $2`. -/
theorem addu_emitsRight : EmitsRight plainContext ⟨.addu, 0x00221821, 0x1080⟩ :=
  (emitsRight_iff rfl).mpr trivial

/-- `bltzal $1`: a branch that is not taken does not write the return address. -/
theorem bltzal_not_emitsRight :
    InstrId.bltzal.isScalar = true ∧ ¬ EmitsRight plainContext ⟨.bltzal, 0x04300001, 0x1080⟩ :=
  ⟨rfl, (emitsRight_bltzal 0x04300001 0x1080).mp⟩

end N64Recomp.RSPRecomp
