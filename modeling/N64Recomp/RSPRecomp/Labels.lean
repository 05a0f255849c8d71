import N64Recomp.Data.Except
import N64Recomp.RSPRecomp.Emit

/-!
# Labels

Which labels and jumps the emitted functions have. The body of an instruction has neither, but for
its own jump and the copy of its delay slot; the label of an address is printed once, in front of
the instruction at the address.

## Main definitions

* `EmittedFunction.LabelClosed`: jumps and cases name labels that are defined once, in front of
  the instruction at their address
* `TargetsInText`: every target is the address of one instruction

## Main results

* `emitBody_plain`, `emitBody_slot`: the lines of an instruction without and with a delay slot
* `count_code_emitInstructions`: the labels of a text
* `labelClosed_iff`: the functions are closed exactly when all targets are in their texts
-/

namespace N64Recomp.RSPRecomp

/-- A line that is no label, no jump to an address and no switch over addresses. -/
def Line.isInner : Line → Bool
  | label _ => false
  | goto (.code _) => false
  | jumpSwitch _ => false
  | _ => true

/-- Where an instruction with a delay slot jumps. -/
def Instruction.jumpLabel (instr : Instruction) : Label :=
  if instr.id.isIndirectJump then .doIndirectJump else .code instr.branchTarget

/-- The lines behind the copy of the delay slot: the jump, in a block when it is conditional. -/
def Instruction.afterSlot (instr : Instruction) : List Line :=
  .goto instr.jumpLabel :: if instr.id.isBranch && instr.id ≠ .b then [.close] else []

section Bodies

variable {ctx : EmitContext} {inDelaySlot : Bool} {instr : Instruction}
  {slot : Option (List Line)} {body : List Line}

theorem printCop0Write_inner (h : printCop0Write ctx inDelaySlot instr = some body) :
    ∀ l ∈ body, l.isInner := by
  obtain ⟨action, _, h⟩ := Option.bind_eq_some_iff.mp h
  obtain rfl := Option.some.inj h
  intro l hl
  rcases List.mem_append.mp hl with hl | hl
  · split at hl
    · simp only [List.mem_cons, List.not_mem_nil, or_false] at hl
      rcases hl with rfl | rfl | rfl | rfl <;> rfl
    · cases hl
  · split at hl
    · cases hl
    · rw [List.mem_singleton.mp hl]
      rfl

theorem printAssign_inner {reg : BitVec 5} {e : RspExpr} (h : printAssign reg e = some body) :
    ∀ l ∈ body, l.isInner := by
  obtain rfl := Option.some.inj h
  intro l hl
  rw [List.mem_singleton.mp hl]
  rfl

theorem printAssignChecked_inner {reg : BitVec 5} {e : RspExpr}
    (h : printAssignChecked reg e = some body) : ∀ l ∈ body, l.isInner := by
  unfold printAssignChecked at h
  split at h
  · obtain rfl := Option.some.inj h
    intro l hl
    cases hl
  · exact printAssign_inner h

/-- An instruction without a delay slot has inner lines only. -/
theorem emitBody_plain (hid : instr.id.hasDelaySlot = false)
    (h : emitBody ctx inDelaySlot instr slot = some body) : ∀ l ∈ body, l.isInner := by
  unfold emitBody at h
  dsimp only at h
  split at h
  any_goals exact printAssign_inner h
  any_goals exact printAssignChecked_inner h
  any_goals exact printCop0Write_inner h
  any_goals
    rename_i heq
    simp [heq, InstrId.hasDelaySlot, InstrId.isBranch, InstrId.isJumpWithAddress,
      InstrId.isIndirectJump] at hid
    done
  any_goals (obtain rfl := Option.some.inj h; intro l hl)
  any_goals (cases hl; done)
  any_goals (rw [List.mem_singleton.mp hl]; rfl)
  obtain ⟨value, _, h⟩ := Option.bind_eq_some_iff.mp h
  exact printAssign_inner h

theorem printUnconditionalBranch_some {before : List Line} {target : Label}
    (h : printUnconditionalBranch before slot target = some body) :
    ∃ s, slot = some s ∧ body = before ++ s ++ [.goto target] := by
  obtain ⟨s, hs, rfl⟩ := Option.map_eq_some_iff.mp h
  exact ⟨s, hs, rfl⟩

theorem printBranch_some {condition : RspExpr} {before : List Line} {target : Label}
    (h : printBranch condition before slot target = some body) :
    ∃ s, slot = some s ∧ body = (.openIf condition :: before) ++ s ++ [.goto target, .close] := by
  obtain ⟨s, hs, rfl⟩ := Option.map_eq_some_iff.mp h
  exact ⟨s, hs, rfl⟩

/-- An instruction with a delay slot has inner lines, the lines of the slot, and its jump. -/
theorem emitBody_slot (hid : instr.id.hasDelaySlot = true)
    (h : emitBody ctx inDelaySlot instr slot = some body) :
    ∃ before s, slot = some s ∧ body = before ++ s ++ instr.afterSlot ∧
      ∀ l ∈ before, l.isInner := by
  unfold emitBody at h
  dsimp only at h
  split at h
  any_goals
    rename_i heq
    simp [heq, InstrId.hasDelaySlot, InstrId.isBranch, InstrId.isJumpWithAddress,
      InstrId.isIndirectJump] at hid
    done
  all_goals
    rename_i heq
    simp only [Instruction.afterSlot, Instruction.jumpLabel, heq]
  any_goals
    obtain ⟨s, hs, rfl⟩ := printUnconditionalBranch_some h
    refine ⟨_, s, hs, rfl, ?_⟩
    intro l hl
    simp only [List.mem_cons, List.not_mem_nil, or_false] at hl
  any_goals
    obtain ⟨s, hs, rfl⟩ := printBranch_some h
    refine ⟨_, s, hs, rfl, ?_⟩
    intro l hl
    simp only [List.mem_cons, List.not_mem_nil, or_false] at hl
  any_goals
    subst hl
    rfl
  all_goals
    rcases hl with rfl | rfl <;> rfl

/-- Where the lines of a body come from: itself, its jump, or its delay slot. -/
theorem mem_emitBody {l : Line} (h : emitBody ctx inDelaySlot instr slot = some body)
    (hl : l ∈ body) :
    l.isInner = true ∨ (instr.id.hasDelaySlot = true ∧ l = .goto instr.jumpLabel) ∨
      ∃ s, slot = some s ∧ l ∈ s := by
  cases hid : instr.id.hasDelaySlot with
  | false => exact Or.inl (emitBody_plain hid h l hl)
  | true =>
    obtain ⟨before, s, hs, rfl, hbefore⟩ := emitBody_slot hid h
    rcases List.mem_append.mp hl with hl | hl
    · rcases List.mem_append.mp hl with hl | hl
      · exact Or.inl (hbefore l hl)
      · exact Or.inr (Or.inr ⟨s, hs, hl⟩)
    · rcases List.mem_cons.mp hl with rfl | hl
      · exact Or.inr (Or.inl ⟨rfl, rfl⟩)
      · split_ifs at hl
        · rw [List.mem_singleton.mp hl]
          exact Or.inl rfl
        · cases hl

theorem entryLines_eq_delay : entryLines ctx true instr =
    if instr.vram ∈ ctx.unsupportedInstructions then [.ret .unsupported] else [] := rfl

theorem mem_entryLines {l : Line} (hl : l ∈ entryLines ctx inDelaySlot instr) :
    l.isInner = true ∨ (inDelaySlot = false ∧ instr.vram ∈ ctx.branchTargets.all ∧
      l = .label (.code instr.vram)) := by
  rcases List.mem_append.mp hl with hl | hl
  · split_ifs at hl with hlabel
    · rw [Bool.and_eq_true, decide_eq_true_eq, Bool.not_eq_true'] at hlabel
      rcases List.mem_cons.mp hl with rfl | hl
      · exact Or.inr ⟨hlabel.1, hlabel.2, rfl⟩
      · rw [List.mem_singleton.mp hl]
        exact Or.inl rfl
    · cases hl
  · split_ifs at hl
    · rw [List.mem_singleton.mp hl]
      exact Or.inl rfl
    · cases hl

theorem mem_resumeLines {l : Line} (hl : l ∈ resumeLines ctx inDelaySlot instr) :
    l = .label (.resume instr.vram) ∨ l = .label (.resumeDelay instr.vram) := by
  unfold resumeLines at hl
  split_ifs at hl
  · exact Or.inr (List.mem_singleton.mp hl)
  · cases hl
  · exact Or.inl (List.mem_singleton.mp hl)
  · cases hl

end Bodies

/-! ## The lines of an instruction -/

section Instructions

variable {ctx : EmitContext} {inDelaySlot : Bool} {instrs : List Instruction}
  {lines : List Line} {T : BitVec 32}

theorem emitInstruction_cons {instr : Instruction} {rest : List Instruction}
    (h : emitInstruction ctx inDelaySlot (instr :: rest) = some lines) :
    ∃ body, emitBody ctx inDelaySlot instr (emitInstruction ctx true rest) = some body ∧
      lines = entryLines ctx inDelaySlot instr ++ body ++
        if instr.id = .other then [] else resumeLines ctx inDelaySlot instr := by
  obtain ⟨body, hbody, hlines⟩ := Option.map_eq_some_iff.mp h
  exact ⟨body, hbody, hlines.symm⟩

/-- Where the lines of an instruction come from. -/
theorem mem_emitInstruction {instr : Instruction} {rest : List Instruction} {l : Line}
    (h : emitInstruction ctx inDelaySlot (instr :: rest) = some lines) (hl : l ∈ lines) :
    l.isInner = true ∨
      (inDelaySlot = false ∧ instr.vram ∈ ctx.branchTargets.all ∧ l = .label (.code instr.vram)) ∨
      (l = .label (.resume instr.vram) ∨ l = .label (.resumeDelay instr.vram)) ∨
      (instr.id.hasDelaySlot = true ∧ l = .goto instr.jumpLabel) ∨
      ∃ s, emitInstruction ctx true rest = some s ∧ l ∈ s := by
  obtain ⟨body, hbody, rfl⟩ := emitInstruction_cons h
  rcases List.mem_append.mp hl with hl | hl
  · rcases List.mem_append.mp hl with hl | hl
    · rcases mem_entryLines hl with hl | hl
      · exact Or.inl hl
      · exact Or.inr (Or.inl hl)
    · rcases mem_emitBody hbody hl with hl | hl | hl
      · exact Or.inl hl
      · exact Or.inr (Or.inr (Or.inr (Or.inl hl)))
      · exact Or.inr (Or.inr (Or.inr (Or.inr hl)))
  · split_ifs at hl
    · cases hl
    · exact Or.inr (Or.inr (Or.inl (mem_resumeLines hl)))

/-- A direct target is a jump's own, or one behind it. -/
theorem mem_directTargets_cons {instr : Instruction} {rest : List Instruction} :
    T ∈ directTargets (instr :: rest) ↔
      (instr.id.isJumpWithAddress || instr.id.isBranch) = true ∧ T = instr.branchTarget ∨
        T ∈ directTargets rest := by
  unfold directTargets
  rw [List.filter_cons]
  split_ifs with hjump
  · rw [List.map_cons, List.mem_cons]
    simp only [hjump, true_and]
  · rw [Bool.not_eq_true] at hjump
    simp only [hjump, Bool.false_eq_true, false_and, false_or]

/-- The jumps of an instruction, and of its delay slot, go to targets of the text. -/
theorem mem_directTargets_of_goto (h : emitInstruction ctx inDelaySlot instrs = some lines)
    (hl : .goto (.code T) ∈ lines) : T ∈ directTargets instrs := by
  induction instrs generalizing inDelaySlot lines with
  | nil =>
    obtain rfl := Option.some.inj h
    cases hl
  | cons instr rest ih =>
    rw [mem_directTargets_cons]
    rcases mem_emitInstruction h hl with hl | ⟨_, _, hl⟩ | (hl | hl) | ⟨hid, hl⟩ | ⟨s, hs, hl⟩
    · cases hl
    · cases hl
    · cases hl
    · cases hl
    · have hjump := Line.goto.inj hl
      unfold Instruction.jumpLabel at hjump
      split at hjump
      · cases hjump
      · rename_i hindirect
        rw [InstrId.hasDelaySlot, Bool.or_eq_true] at hid
        rw [Bool.or_comm]
        exact Or.inl ⟨hid.resolve_right hindirect, Label.code.inj hjump⟩
    · exact Or.inr (ih hs hl)

/-- A copy in a delay slot has no label of an address. -/
theorem label_code_notMem_delay (h : emitInstruction ctx true instrs = some lines) :
    .label (.code T) ∉ lines := by
  induction instrs generalizing lines with
  | nil =>
    obtain rfl := Option.some.inj h
    exact List.not_mem_nil
  | cons instr rest ih =>
    intro hl
    rcases mem_emitInstruction h hl with hl | ⟨hd, _⟩ | (hl | hl) | ⟨_, hl⟩ | ⟨s, hs, hl⟩
    · cases hl
    · cases hd
    · cases hl
    · cases hl
    · cases hl
    · exact ih hs hl

/-- In the text, the lines of an instruction at a target start with its label. -/
theorem emitInstruction_label {instr : Instruction} {rest : List Instruction}
    (h : emitInstruction ctx false (instr :: rest) = some lines)
    (htarget : instr.vram ∈ ctx.branchTargets.all) :
    ∃ tail, lines = .label (.code instr.vram) :: tail := by
  obtain ⟨body, _, rfl⟩ := emitInstruction_cons h
  unfold entryLines
  rw [if_pos (by simp [htarget])]
  exact ⟨_, rfl⟩

/-- In the text, an instruction has the label of its own address, when that is a target. -/
theorem count_code_emitInstruction {instr : Instruction} {rest : List Instruction}
    (h : emitInstruction ctx false (instr :: rest) = some lines) :
    lines.count (.label (.code T)) =
      if T ∈ ctx.branchTargets.all ∧ instr.vram = T then 1 else 0 := by
  obtain ⟨body, hbody, rfl⟩ := emitInstruction_cons h
  have hbodyCount : body.count (.label (.code T)) = 0 := by
    refine List.count_eq_zero.mpr fun hl => ?_
    rcases mem_emitBody hbody hl with hl | ⟨_, hl⟩ | ⟨s, hs, hl⟩
    · cases hl
    · cases hl
    · exact label_code_notMem_delay hs hl
  have hresume : (if instr.id = .other then [] else resumeLines ctx false instr).count
      (.label (.code T)) = 0 := by
    refine List.count_eq_zero.mpr fun hl => ?_
    split_ifs at hl
    · cases hl
    · rcases mem_resumeLines hl with hl | hl <;> cases hl
  have hentry : (entryLines ctx false instr).count (.label (.code T)) =
      if T ∈ ctx.branchTargets.all ∧ instr.vram = T then 1 else 0 := by
    unfold entryLines
    rw [List.count_append]
    have hret : (if instr.vram ∈ ctx.unsupportedInstructions then [Line.ret .unsupported]
        else []).count (.label (.code T)) = 0 := by
      split_ifs <;> rfl
    rw [hret, Nat.add_zero]
    by_cases hmem : instr.vram ∈ ctx.branchTargets.all
    · by_cases hv : instr.vram = T
      · subst hv
        simp [hmem]
      · simp [hmem, hv]
    · have hne : ¬ (T ∈ ctx.branchTargets.all ∧ instr.vram = T) := by
        rintro ⟨hT, rfl⟩
        exact hmem hT
      simp [hmem, hne]
  rw [List.count_append, List.count_append, hbodyCount, hresume, hentry, Nat.add_zero]

/-- The labels of a text: one for each instruction at a target. -/
theorem count_code_emitInstructions {chunks : List (List Line)}
    (h : emitInstructions ctx instrs = some chunks) :
    chunks.flatten.count (.label (.code T)) =
      if T ∈ ctx.branchTargets.all then (instrs.map (·.vram)).count T else 0 := by
  induction instrs generalizing chunks with
  | nil =>
    obtain rfl := Option.some.inj h
    simp
  | cons instr rest ih =>
    obtain ⟨chunk, hchunk, h⟩ := Option.bind_eq_some_iff.mp h
    obtain ⟨chunks, hchunks, h⟩ := Option.bind_eq_some_iff.mp h
    obtain rfl := Option.some.inj h
    rw [List.flatten_cons, List.count_append, count_code_emitInstruction hchunk, ih hchunks,
      List.map_cons, List.count_cons]
    by_cases hmem : T ∈ ctx.branchTargets.all
    · simp only [hmem, true_and, if_true, beq_iff_eq]
      omega
    · simp only [hmem, false_and, if_false]

end Instructions

/-! ## Functions -/

/-- The label of an address is defined once, in front of the lines of the instruction there. -/
structure EmittedFunction.Defines (f : EmittedFunction) (T : BitVec 32) : Prop where
  once : f.lines.count (.label (.code T)) = 1
  precedes : ∃ (k : Nat) (instr : Instruction) (chunk : List Line), f.instrs[k]? = some instr ∧ instr.vram = T ∧
    f.chunks[k]? = some (.label (.code T) :: chunk)

/-- Every jump to an address, and every case of the switch on the jump target, goes to a label that
is defined at the instruction of its address. -/
structure EmittedFunction.LabelClosed (f : EmittedFunction) : Prop where
  gotos : ∀ T, .goto (.code T) ∈ f.lines → f.Defines T
  cases : ∀ targets, .jumpSwitch targets ∈ f.lines → targets.Nodup ∧ ∀ T ∈ targets, f.Defines T

/-- Every target is the address of one instruction of the text. -/
def TargetsInText (extraIndirectBranchTargets : List (BitVec 32)) (instrs : List Instruction) :
    Prop :=
  ∀ T ∈ (collectBranchTargets extraIndirectBranchTargets instrs).all,
    (instrs.map (·.vram)).count T = 1

instance (extra : List (BitVec 32)) (instrs : List Instruction) :
    Decidable (TargetsInText extra instrs) :=
  List.decidableBAll (fun T => (instrs.map (·.vram)).count T = 1) _

section Functions

variable {addresses : AddressConfig} {name : Str} {instrs : List Instruction}
  {resumeTargets : ResumeTargets} {isPermutation isInitial : Bool} {f : EmittedFunction}
  {T : BitVec 32}

theorem mem_jumpTargets {targets : BranchTargets} : T ∈ jumpTargets targets ↔ T ∈ targets.all := by
  unfold jumpTargets BranchTargets.all
  rw [List.mem_insertionSort, List.mem_append, List.mem_append, List.mem_filter, List.mem_dedup,
    List.mem_dedup, decide_eq_true_eq]
  by_cases h : T ∈ targets.direct
  · simp only [h, true_or]
  · simp only [h, not_false_eq_true, and_true]

theorem nodup_jumpTargets (targets : BranchTargets) : (jumpTargets targets).Nodup := by
  refine (List.perm_insertionSort _ _).nodup_iff.mpr (List.Nodup.append (List.nodup_dedup _)
    ((List.nodup_dedup _).filter _) ?_)
  intro a ha hfilter
  rw [List.mem_dedup] at ha
  exact of_decide_eq_true (List.mem_filter.mp hfilter).2 ha

theorem emitRecompiledFunction_some (h : emitRecompiledFunction addresses name instrs resumeTargets
    isPermutation isInitial = some f) :
    ∃ chunks, emitInstructions (emitContext addresses instrs resumeTargets isPermutation) instrs =
        some chunks ∧
      f = { name := if isPermutation then name else name ++ ascii "_impl"
            instrs
            entry := entryOf resumeTargets isPermutation isInitial
            chunks
            exits := exitsOf (collectBranchTargets addresses.extraIndirectBranchTargets instrs)
              isPermutation } := by
  obtain ⟨chunks, hchunks, rfl⟩ := Option.map_eq_some_iff.mp h
  exact ⟨chunks, hchunks, rfl⟩

/-- Nothing in front of the instructions is a label or a jump to an address. -/
theorem entryOf_inner :
    ∀ l ∈ entryOf resumeTargets isPermutation isInitial, l.isInner = true := by
  intro l hl
  unfold entryOf at hl
  split_ifs at hl
  · simp only [List.cons_append, List.nil_append, List.mem_cons, List.not_mem_nil, or_false] at hl
    rcases hl with rfl | rfl | rfl | rfl <;> rfl
  · simp only [List.nil_append, List.mem_cons, List.not_mem_nil, or_false] at hl
    rcases hl with rfl | rfl <;> rfl

theorem exitsOf_code {targets : BranchTargets} :
    (exitsOf targets isPermutation).count (.label (.code T)) = 0 ∧
      .goto (.code T) ∉ exitsOf targets isPermutation ∧
      ∀ cases, .jumpSwitch cases ∈ exitsOf targets isPermutation ↔ cases = jumpTargets targets := by
  unfold exitsOf emitIndirectJumpTable emitOverlaySwapReturn
  cases isPermutation <;> simp

/-- The lines of the instructions of a text are those of its suffixes. -/
theorem exists_of_mem_chunks {ctx : EmitContext} {chunks : List (List Line)} {l : Line}
    (h : emitInstructions ctx instrs = some chunks) (hl : l ∈ chunks.flatten) :
    ∃ before rest lines, instrs = before ++ rest ∧
      emitInstruction ctx false rest = some lines ∧ l ∈ lines := by
  induction instrs generalizing chunks with
  | nil =>
    obtain rfl := Option.some.inj h
    cases hl
  | cons instr rest ih =>
    obtain ⟨chunk, hchunk, h⟩ := Option.bind_eq_some_iff.mp h
    obtain ⟨chunks, hchunks, h⟩ := Option.bind_eq_some_iff.mp h
    obtain rfl := Option.some.inj h
    rcases List.mem_append.mp (List.flatten_cons ▸ hl) with hl | hl
    · exact ⟨[], instr :: rest, chunk, rfl, hchunk, hl⟩
    · obtain ⟨before, suffix, lines, rfl, hlines, hmem⟩ := ih hchunks hl
      exact ⟨instr :: before, suffix, lines, rfl, hlines, hmem⟩

/-- No instruction prints the switch. -/
theorem jumpSwitch_notMem {ctx : EmitContext} {inDelaySlot : Bool} {lines : List Line}
    {cases : List (BitVec 32)} (h : emitInstruction ctx inDelaySlot instrs = some lines) :
    .jumpSwitch cases ∉ lines := by
  induction instrs generalizing inDelaySlot lines with
  | nil =>
    obtain rfl := Option.some.inj h
    exact List.not_mem_nil
  | cons instr rest ih =>
    intro hl
    rcases mem_emitInstruction h hl with hl | ⟨_, _, hl⟩ | (hl | hl) | ⟨_, hl⟩ | ⟨s, hs, hl⟩
    · cases hl
    · cases hl
    · cases hl
    · cases hl
    · cases hl
    · exact ih hs hl

theorem mem_directTargets_append {before rest : List Instruction} (h : T ∈ directTargets rest) :
    T ∈ directTargets (before ++ rest) := by
  unfold directTargets at h ⊢
  rw [List.filter_append, List.map_append]
  exact List.mem_append_right _ h

/-- The chunk of an instruction at a target starts with its label. -/
theorem exists_chunk {ctx : EmitContext} {chunks : List (List Line)}
    (h : emitInstructions ctx instrs = some chunks) (htarget : T ∈ ctx.branchTargets.all)
    (hmem : T ∈ instrs.map (·.vram)) :
    ∃ (k : Nat) (instr : Instruction) (chunk : List Line), instrs[k]? = some instr ∧
      instr.vram = T ∧ chunks[k]? = some (.label (.code T) :: chunk) := by
  induction instrs generalizing chunks with
  | nil => cases hmem
  | cons instr rest ih =>
    obtain ⟨chunk, hchunk, h⟩ := Option.bind_eq_some_iff.mp h
    obtain ⟨chunks, hchunks, h⟩ := Option.bind_eq_some_iff.mp h
    obtain rfl := Option.some.inj h
    by_cases hv : instr.vram = T
    · subst hv
      obtain ⟨tail, rfl⟩ := emitInstruction_label hchunk htarget
      exact ⟨0, instr, tail, rfl, rfl, rfl⟩
    · rcases List.mem_cons.mp hmem with hmem | hmem
      · exact absurd hmem.symm hv
      · obtain ⟨k, instr', chunk', hk⟩ := ih hchunks hmem
        exact ⟨k + 1, instr', chunk', hk⟩

variable (h : emitRecompiledFunction addresses name instrs resumeTargets isPermutation isInitial =
  some f)

include h

theorem count_code_lines : f.lines.count (.label (.code T)) =
    if T ∈ (collectBranchTargets addresses.extraIndirectBranchTargets instrs).all then
      (instrs.map (·.vram)).count T
    else 0 := by
  obtain ⟨chunks, hchunks, rfl⟩ := emitRecompiledFunction_some h
  have hentry : (entryOf resumeTargets isPermutation isInitial).count (.label (.code T)) = 0 :=
    List.count_eq_zero.mpr fun hl => Bool.false_ne_true (entryOf_inner _ hl)
  rw [EmittedFunction.lines, List.count_append, List.count_append, hentry, exitsOf_code.1,
    count_code_emitInstructions hchunks, Nat.add_zero, Nat.zero_add]
  rfl

/-- The switch has a case for every target. -/
theorem jumpSwitch_mem_lines {targets : List (BitVec 32)} : .jumpSwitch targets ∈ f.lines ↔
    targets = jumpTargets (collectBranchTargets addresses.extraIndirectBranchTargets instrs) := by
  obtain ⟨chunks, hchunks, rfl⟩ := emitRecompiledFunction_some h
  rw [EmittedFunction.lines, List.mem_append, List.mem_append, (exitsOf_code (T := 0)).2.2]
  constructor
  · rintro ((hl | hl) | hl)
    · cases entryOf_inner _ hl
    · obtain ⟨_, _, _, _, hlines, hmem⟩ := exists_of_mem_chunks hchunks hl
      exact absurd hmem (jumpSwitch_notMem hlines)
    · exact hl
  · exact Or.inr

theorem mem_targets_of_goto (hl : .goto (.code T) ∈ f.lines) :
    T ∈ (collectBranchTargets addresses.extraIndirectBranchTargets instrs).all := by
  obtain ⟨chunks, hchunks, rfl⟩ := emitRecompiledFunction_some h
  rw [EmittedFunction.lines, List.mem_append, List.mem_append] at hl
  rcases hl with (hl | hl) | hl
  · cases entryOf_inner _ hl
  · obtain ⟨before, rest, lines, rfl, hlines, hmem⟩ := exists_of_mem_chunks hchunks hl
    exact List.mem_append_left _
      (mem_directTargets_append (mem_directTargets_of_goto hlines hmem))
  · exact absurd hl exitsOf_code.2.1

/-- A function is closed exactly when its targets are in its text. -/
theorem labelClosed_function :
    f.LabelClosed ↔ TargetsInText addresses.extraIndirectBranchTargets instrs := by
  constructor
  · intro hclosed T hT
    have hcase := (hclosed.cases _ ((jumpSwitch_mem_lines h).mpr rfl)).2 T (mem_jumpTargets.mpr hT)
    have honce := hcase.once
    rwa [count_code_lines h, if_pos hT] at honce
  · intro htext
    have hdefines : ∀ T,
        T ∈ (collectBranchTargets addresses.extraIndirectBranchTargets instrs).all →
          f.Defines T := by
      intro T hT
      refine ⟨by rw [count_code_lines h, if_pos hT, htext T hT], ?_⟩
      obtain ⟨chunks, hchunks, rfl⟩ := emitRecompiledFunction_some h
      exact exists_chunk hchunks hT (List.count_pos_iff.mp (by rw [htext T hT]; decide))
    refine ⟨fun T hT => hdefines T (mem_targets_of_goto h hT), ?_⟩
    intro targets htargets
    obtain rfl := (jumpSwitch_mem_lines h).mp htargets
    exact ⟨nodup_jumpTargets _, fun T hT => hdefines T (mem_jumpTargets.mp hT)⟩

end Functions

/-! ## The generated file -/

/-- The texts that functions are emitted for. -/
def Config.texts (cfg : Config) (permutations : List Permutation) : List (List (BitVec 32)) :=
  cfg.instrWords :: if cfg.overlaySlots = [] then [] else permutations.map (·.instrWords)

section Microcode

variable {addresses : AddressConfig} {decode : BitVec 32 → InstrId} {cfg : Config}
  {permutations : List Permutation} {functions : List EmittedFunction}

/-- The functions are emitted for the texts, in their order. -/
theorem forall₂_emitMicrocode
    (h : cfg.emitMicrocode addresses decode permutations = some functions) :
    List.Forall₂ (fun words f => ∃ name resumeTargets isPermutation isInitial,
      emitRecompiledFunction addresses name (cfg.instrsOf decode words) resumeTargets isPermutation
        isInitial = some f) (cfg.texts permutations) functions := by
  unfold Config.emitMicrocode at h
  unfold Config.texts
  split_ifs at h ⊢
  · obtain ⟨f, hf, rfl⟩ := Option.map_eq_some_iff.mp h
    exact List.Forall₂.cons ⟨_, _, _, _, hf⟩ List.Forall₂.nil
  · obtain ⟨initial, hinitial, h⟩ := Option.bind_eq_some_iff.mp h
    obtain ⟨rest, hrest, h⟩ := Option.bind_eq_some_iff.mp h
    obtain rfl := Option.some.inj h
    refine List.Forall₂.cons ⟨_, _, _, _, hinitial⟩ (List.forall₂_map_left_iff.mpr ?_)
    exact (Option.forall₂_mapM hrest).imp fun p f hf => ⟨_, _, _, _, hf⟩

theorem forall_iff_of_forall₂ {α β : Type} {R : α → β → Prop} {P : α → Prop} {Q : β → Prop}
    {l : List α} {l' : List β} (h : List.Forall₂ R l l') (hR : ∀ a b, R a b → (Q b ↔ P a)) :
    (∀ b ∈ l', Q b) ↔ ∀ a ∈ l, P a := by
  induction h with
  | nil => simp
  | cons hab _ ih => rw [List.forall_mem_cons, List.forall_mem_cons, hR _ _ hab, ih]

theorem forall_labelClosed
    (h : cfg.emitMicrocode addresses decode permutations = some functions) :
    (∀ f ∈ functions, f.LabelClosed) ↔ ∀ words ∈ cfg.texts permutations,
      TargetsInText addresses.extraIndirectBranchTargets (cfg.instrsOf decode words) :=
  forall_iff_of_forall₂ (forall₂_emitMicrocode h) fun _ _ ⟨_, _, _, _, hf⟩ => labelClosed_function hf

/-- **The emitted functions are closed under their labels exactly when** every branch, jump, return
address, address constant and configured target is the address of one instruction of its text. -/
theorem labelClosed_iff (h : cfg.emitMicrocode addresses decode permutations = some functions) :
    (∀ f ∈ functions, f.LabelClosed) ↔ ∀ words ∈ cfg.texts permutations,
      TargetsInText addresses.extraIndirectBranchTargets (cfg.instrsOf decode words) :=
  forall_labelClosed h

end Microcode

/-- The identifiers of a few words. -/
def fewIds (word : BitVec 32) : InstrId :=
  if word = 0 then .nop
  else match (word.extractLsb' 26 6).toNat with
    | 0 => if word &&& 0x3F = 8 then .jr else .other
    | 3 => .jal
    | 16 => if word.extractLsb' 21 5 = 4 then .mtc0 else .other
    | 4 => .beq
    | 9 => .addiu
    | _ => .other

/-- A text at the start of the microcode's usual place, without overlays. -/
def plainText (words : List (BitVec 32)) : Config where
  textAddress := 0x04001080#32
  outputFunctionName := ascii "microcode"
  instrWords := words
  overlaySlots := []

/-- `beq $1, $2, 0x1088` over a delay slot. -/
theorem plainText_labelClosed :
    ∃ functions, (plainText [0x10220001, 0, 0x24010001]).emitMicrocode ⟨[0x1080], []⟩ fewIds [] =
        some functions ∧ ∀ f ∈ functions, f.LabelClosed := by
  obtain ⟨functions, h⟩ : ∃ functions, (plainText [0x10220001, 0, 0x24010001]).emitMicrocode
      ⟨[0x1080], []⟩ fewIds [] = some functions :=
    Option.isSome_iff_exists.mp (by decide +kernel)
  exact ⟨functions, h, (labelClosed_iff h).mpr (by decide +kernel)⟩

/-- `jal 0x1080` at the end of the text: its return address is behind the text. -/
theorem plainText_not_labelClosed :
    ∃ functions, (plainText [0, 0x0C000420, 0]).emitMicrocode ⟨[], []⟩ fewIds [] =
        some functions ∧ ¬ ∀ f ∈ functions, f.LabelClosed := by
  obtain ⟨functions, h⟩ : ∃ functions, (plainText [0, 0x0C000420, 0]).emitMicrocode
      ⟨[], []⟩ fewIds [] = some functions :=
    Option.isSome_iff_exists.mp (by decide +kernel)
  refine ⟨functions, h, ?_⟩
  intro hclosed
  exact absurd ((forall_labelClosed h).mp hclosed) (by decide +kernel)

end N64Recomp.RSPRecomp
