import N64Recomp.RSPRecomp.Labels
import N64Recomp.RSPRecomp.Machine

/-!
# Resuming after an overlay swap

A write that starts a DMA read into the instruction memory leaves the function, and the next
permutation is entered at a label behind that write. The labels are collected from all
permutations, and printed in each of them: behind the instruction at an address, and behind the
copies of it in delay slots.

## Main definitions

* `EmittedFunction.ResumesBehind`, `EmittedFunction.ResumesAtJump`: where a resumed function goes on
* `ResumesRight`: the resume switches name labels that are defined once, and go on behind the write
* `delayCopies`, `ResumeCondition`: how often each permutation prints a label

## Main results

* `count_resume_emitInstructions`, `count_resumeDelay_emitInstructions`: the labels of a text
* `resumesRight_iff`: resuming is right exactly under the condition
-/

namespace N64Recomp.RSPRecomp

/-! ## Counting labels -/

/-- An instruction that is printed with its resume label: one at the address, that is known. -/
def Instruction.resumesAt (X : BitVec 32) (instr : Instruction) : Bool :=
  instr.vram = X && instr.id ≠ .other

/-- The copies of an address's instruction in the delay slot of the instruction in front. -/
def slotCopies (X : BitVec 32) : List Instruction → Nat
  | [] => 0
  | instr :: rest =>
    (if instr.resumesAt X then 1 else 0) + if instr.id.hasDelaySlot then slotCopies X rest else 0

/-- The copies of an address's instruction in delay slots. -/
def delayCopies (X : BitVec 32) : List Instruction → Nat
  | [] => 0
  | instr :: rest => (if instr.id.hasDelaySlot then slotCopies X rest else 0) + delayCopies X rest

section Counts

variable {ctx : EmitContext} {inDelaySlot : Bool} {instrs : List Instruction}
  {lines : List Line} {l : Label} {X : BitVec 32}

/-- The labels of a body are those of the delay slot. -/
theorem count_label_emitBody {instr : Instruction} {slot : Option (List Line)} {body : List Line}
    (h : emitBody ctx inDelaySlot instr slot = some body) :
    body.count (.label l) =
      if instr.id.hasDelaySlot then (slot.getD []).count (.label l) else 0 := by
  cases hid : instr.id.hasDelaySlot with
  | false =>
    refine List.count_eq_zero.mpr fun hl => ?_
    cases emitBody_plain hid h _ hl
  | true =>
    obtain ⟨before, s, rfl, rfl, hbefore⟩ := emitBody_slot hid h
    have hzero : before.count (.label l) = 0 :=
      List.count_eq_zero.mpr fun hl => Bool.false_ne_true (hbefore _ hl)
    have hafter : instr.afterSlot.count (.label l) = 0 := by
      unfold Instruction.afterSlot
      split_ifs <;> simp
    rw [List.count_append, List.count_append, hzero, hafter, Nat.zero_add, Nat.add_zero]
    rfl

theorem count_resume_entryLines {instr : Instruction} :
    (entryLines ctx inDelaySlot instr).count (.label (.resume X)) = 0 ∧
      (entryLines ctx inDelaySlot instr).count (.label (.resumeDelay X)) = 0 := by
  constructor
  all_goals
    refine List.count_eq_zero.mpr fun hl => ?_
    rcases mem_entryLines hl with hl | ⟨_, _, hl⟩ <;> cases hl

theorem resumeLines_delay {instr : Instruction} : resumeLines ctx true instr =
    if instr.vram ∈ ctx.resumeTargets.delay then [.label (.resumeDelay instr.vram)] else [] := rfl

theorem resumeLines_nonDelay {instr : Instruction} : resumeLines ctx false instr =
    if instr.vram ∈ ctx.resumeTargets.nonDelay then [.label (.resume instr.vram)] else [] := rfl

/-- The number of resume labels of an instruction itself. -/
theorem ite_count_eq {instr : Instruction} {lines : List Line}
    (hlines : instr.vram = X → lines.count (.label l) = 1)
    (hne : instr.vram ≠ X → lines.count (.label l) = 0) :
    (if instr.id = .other then 0 else lines.count (.label l)) =
      if instr.resumesAt X then 1 else 0 := by
  unfold Instruction.resumesAt
  by_cases hid : instr.id = .other
  · simp [hid]
  · by_cases hv : instr.vram = X
    · simp [hid, hv, hlines hv]
    · simp [hid, hv, hne hv]

/-- The labels of an instruction: behind its body, and in its delay slot. -/
theorem count_label_emitInstruction {instr : Instruction} {rest : List Instruction}
    (h : emitInstruction ctx inDelaySlot (instr :: rest) = some lines)
    (hentry : (entryLines ctx inDelaySlot instr).count (.label l) = 0) :
    lines.count (.label l) =
      (if instr.id.hasDelaySlot then ((emitInstruction ctx true rest).getD []).count (.label l)
        else 0) +
      if instr.id = .other then 0 else (resumeLines ctx inDelaySlot instr).count (.label l) := by
  obtain ⟨body, hbody, rfl⟩ := emitInstruction_cons h
  rw [List.count_append, List.count_append, hentry, Nat.zero_add, count_label_emitBody hbody]
  congr 1
  split_ifs <;> rfl

/-- A copy in a delay slot has the labels of its instruction and of the delay slot in it. -/
theorem count_resumeDelay_slot (hX : X ∈ ctx.resumeTargets.delay)
    (h : emitInstruction ctx true instrs = some lines) :
    lines.count (.label (.resumeDelay X)) = slotCopies X instrs := by
  induction instrs generalizing lines with
  | nil =>
    obtain rfl := Option.some.inj h
    rfl
  | cons instr rest ih =>
    rw [count_label_emitInstruction h count_resume_entryLines.2, slotCopies, Nat.add_comm]
    congr 1
    · rw [resumeLines_delay]
      refine ite_count_eq ?_ ?_
      · rintro rfl
        simp [hX]
      · intro hne
        split_ifs
        · simp [hne]
        · rfl
    · cases hid : instr.id.hasDelaySlot with
      | false => rfl
      | true =>
        obtain ⟨body, hbody, _⟩ := emitInstruction_cons h
        obtain ⟨_, s, hs, _⟩ := emitBody_slot hid hbody
        rw [if_pos rfl, if_pos rfl, hs, Option.getD_some, ih hs]

/-- In the text, an instruction has the labels of the copy in its delay slot. -/
theorem count_resumeDelay_emitInstruction {instr : Instruction} {rest : List Instruction}
    (hX : X ∈ ctx.resumeTargets.delay)
    (h : emitInstruction ctx false (instr :: rest) = some lines) :
    lines.count (.label (.resumeDelay X)) =
      if instr.id.hasDelaySlot then slotCopies X rest else 0 := by
  have hresume : (resumeLines ctx false instr).count (.label (.resumeDelay X)) = 0 := by
    refine List.count_eq_zero.mpr fun hl => ?_
    rw [resumeLines_nonDelay] at hl
    split_ifs at hl <;> simp at hl
  rw [count_label_emitInstruction h count_resume_entryLines.2, hresume, ite_self, Nat.add_zero]
  cases hid : instr.id.hasDelaySlot with
  | false => rfl
  | true =>
    obtain ⟨body, hbody, _⟩ := emitInstruction_cons h
    obtain ⟨_, s, hs, _⟩ := emitBody_slot hid hbody
    rw [if_pos rfl, if_pos rfl, hs, Option.getD_some, count_resumeDelay_slot hX hs]

theorem count_resumeDelay_emitInstructions {chunks : List (List Line)}
    (hX : X ∈ ctx.resumeTargets.delay) (h : emitInstructions ctx instrs = some chunks) :
    chunks.flatten.count (.label (.resumeDelay X)) = delayCopies X instrs := by
  induction instrs generalizing chunks with
  | nil =>
    obtain rfl := Option.some.inj h
    rfl
  | cons instr rest ih =>
    obtain ⟨chunk, hchunk, h⟩ := Option.bind_eq_some_iff.mp h
    obtain ⟨chunks, hchunks, h⟩ := Option.bind_eq_some_iff.mp h
    obtain rfl := Option.some.inj h
    rw [List.flatten_cons, List.count_append, count_resumeDelay_emitInstruction hX hchunk,
      ih hchunks, delayCopies]

/-- A copy in a delay slot has no other resume label. -/
theorem count_resume_slot (h : emitInstruction ctx true instrs = some lines) :
    lines.count (.label (.resume X)) = 0 := by
  induction instrs generalizing lines with
  | nil =>
    obtain rfl := Option.some.inj h
    rfl
  | cons instr rest ih =>
    have hresume : (resumeLines ctx true instr).count (.label (.resume X)) = 0 := by
      refine List.count_eq_zero.mpr fun hl => ?_
      rw [resumeLines_delay] at hl
      split_ifs at hl <;> simp at hl
    rw [count_label_emitInstruction h count_resume_entryLines.1, hresume, ite_self, Nat.add_zero]
    split_ifs with hid
    · obtain ⟨body, hbody, _⟩ := emitInstruction_cons h
      obtain ⟨_, s, hs, _⟩ := emitBody_slot hid hbody
      rw [hs, Option.getD_some, ih hs]
    · rfl

theorem count_resume_emitInstruction {instr : Instruction} {rest : List Instruction}
    (hX : X ∈ ctx.resumeTargets.nonDelay)
    (h : emitInstruction ctx false (instr :: rest) = some lines) :
    lines.count (.label (.resume X)) = if instr.resumesAt X then 1 else 0 := by
  have hslot : (if instr.id.hasDelaySlot then
      ((emitInstruction ctx true rest).getD []).count (.label (.resume X)) else 0) = 0 := by
    split_ifs with hid
    · obtain ⟨body, hbody, _⟩ := emitInstruction_cons h
      obtain ⟨_, s, hs, _⟩ := emitBody_slot hid hbody
      rw [hs, Option.getD_some, count_resume_slot hs]
    · rfl
  rw [count_label_emitInstruction h count_resume_entryLines.1, hslot, Nat.zero_add]
  rw [resumeLines_nonDelay]
  refine ite_count_eq ?_ ?_
  · rintro rfl
    simp [hX]
  · intro hne
    split_ifs
    · simp [hne]
    · rfl

theorem count_resume_emitInstructions {chunks : List (List Line)}
    (hX : X ∈ ctx.resumeTargets.nonDelay) (h : emitInstructions ctx instrs = some chunks) :
    chunks.flatten.count (.label (.resume X)) = instrs.countP (·.resumesAt X) := by
  induction instrs generalizing chunks with
  | nil =>
    obtain rfl := Option.some.inj h
    rfl
  | cons instr rest ih =>
    obtain ⟨chunk, hchunk, h⟩ := Option.bind_eq_some_iff.mp h
    obtain ⟨chunks, hchunks, h⟩ := Option.bind_eq_some_iff.mp h
    obtain rfl := Option.some.inj h
    rw [List.flatten_cons, List.count_append, count_resume_emitInstruction hX hchunk,
      ih hchunks, List.countP_cons, Nat.add_comm]

end Counts

/-! ## Where a resumed function goes on -/

/-- The lines behind those of an instruction. -/
def EmittedFunction.behind (f : EmittedFunction) (k : Nat) : List Line :=
  (f.chunks.drop (k + 1)).flatten ++ f.exits

/-- Resuming at an address goes on behind the instruction at a position. -/
def EmittedFunction.ResumesBehind (f : EmittedFunction) (k : Nat) (X : BitVec 32) : Prop :=
  ∀ (ρ : Type) (rt : Runtime ρ) (s : RspContext ρ) (jumps : Nat), s.resumeAddress = X →
    s.resumeDelay = false →
      runFrom rt f.lines (jumps + 1) f.lines s = runFrom rt f.lines jumps (f.behind k) s

/-- Resuming at an address in a delay slot goes on with a jump. -/
def EmittedFunction.ResumesAtJump (f : EmittedFunction) (jump : Label) (X : BitVec 32) : Prop :=
  ∀ (ρ : Type) (rt : Runtime ρ) (s : RspContext ρ) (jumps : Nat), s.resumeAddress = X →
    s.resumeDelay = true →
      runFrom rt f.lines (jumps + 1) f.lines s = runFrom rt f.lines jumps [.goto jump] s

section Texts

variable {ctx : EmitContext} {instrs : List Instruction} {chunks : List (List Line)} {k : Nat}

theorem getElem?_emitInstructions (h : emitInstructions ctx instrs = some chunks)
    (hk : k < instrs.length) :
    ∃ chunk, chunks[k]? = some chunk ∧ emitInstruction ctx false (instrs.drop k) = some chunk := by
  induction instrs generalizing chunks k with
  | nil => cases hk
  | cons instr rest ih =>
    obtain ⟨chunk, hchunk, h⟩ := Option.bind_eq_some_iff.mp h
    obtain ⟨chunks, hchunks, h⟩ := Option.bind_eq_some_iff.mp h
    obtain rfl := Option.some.inj h
    cases k with
    | zero => exact ⟨chunk, rfl, hchunk⟩
    | succ k => exact ih hchunks (Nat.lt_of_succ_lt_succ hk)

theorem flatten_eq_of_getElem? {l : List (List Line)} {chunk : List Line}
    (hk : l[k]? = some chunk) :
    l.flatten = (l.take k).flatten ++ chunk ++ (l.drop (k + 1)).flatten := by
  obtain ⟨hlt, rfl⟩ := List.getElem?_eq_some_iff.mp hk
  conv_lhs => rw [← List.take_append_drop k l, List.drop_eq_getElem_cons hlt]
  rw [List.flatten_append, List.flatten_cons, List.append_assoc]

theorem isSwapSite_known {instr : Instruction} (h : instr.isSwapSite = true) :
    instr.id ≠ .other := by
  rw [Instruction.isSwapSite, Bool.and_eq_true, decide_eq_true_eq] at h
  rw [h.1]
  decide

/-- Every site is a target, and one behind a delay slot is one of a delay slot. -/
theorem mem_collectResumeTargets {instr : Instruction} {d : Bool} (hk : instrs[k]? = some instr)
    (hsite : instr.isSwapSite = true) : instr.vram ∈ (collectResumeTargets d instrs).nonDelay := by
  induction instrs generalizing k d with
  | nil => cases hk
  | cons head rest ih =>
    rw [collectResumeTargets]
    cases k with
    | zero =>
      obtain rfl := Option.some.inj hk
      rw [if_pos hsite]
      exact List.mem_cons_self
    | succ k =>
      have hmem := ih (d := head.id.hasDelaySlot) hk
      split_ifs
      · exact List.mem_cons_of_mem _ hmem
      · exact List.mem_cons_of_mem _ hmem
      · exact hmem

theorem mem_collectResumeTargets_delay {instr branch : Instruction} {d : Bool}
    (hbranch : instrs[k]? = some branch) (hk : instrs[k + 1]? = some instr)
    (hid : branch.id.hasDelaySlot = true) (hsite : instr.isSwapSite = true) :
    instr.vram ∈ (collectResumeTargets d instrs).delay := by
  induction instrs generalizing k d with
  | nil => cases hk
  | cons head rest ih =>
    have hrest : instr.vram ∈ (collectResumeTargets head.id.hasDelaySlot rest).delay := by
      cases k with
      | zero =>
        obtain rfl := Option.some.inj hbranch
        obtain ⟨tail, rfl⟩ : ∃ tail, rest = instr :: tail := by
          cases rest with
          | nil => cases hk
          | cons x tail => exact ⟨tail, by rw [Option.some.inj hk]⟩
        rw [hid, collectResumeTargets, if_pos hsite, if_pos rfl]
        exact List.mem_cons_self
      | succ k => exact ih hbranch hk
    rw [collectResumeTargets]
    split_ifs
    · exact List.mem_cons_of_mem _ hrest
    · exact hrest
    · exact hrest

end Texts

section Functions

variable {addresses : AddressConfig} {name : Str} {instrs : List Instruction}
  {resumeTargets : ResumeTargets} {f : EmittedFunction} {X : BitVec 32} {k : Nat}
  (h : emitRecompiledFunction addresses name instrs resumeTargets true false = some f)

include h

/-- The resume labels of a permutation are those of its instructions. -/
theorem count_resume_lines (hX : X ∈ resumeTargets.nonDelay) :
    f.lines.count (.label (.resume X)) = instrs.countP (·.resumesAt X) := by
  obtain ⟨chunks, hchunks, rfl⟩ := emitRecompiledFunction_some h
  have hentry : (entryOf resumeTargets true false).count (.label (.resume X)) = 0 :=
    List.count_eq_zero.mpr fun hl => Bool.false_ne_true (entryOf_inner _ hl)
  rw [EmittedFunction.lines, List.count_append, List.count_append, hentry,
    count_resume_emitInstructions hX hchunks, Nat.zero_add]
  rfl

theorem count_resumeDelay_lines (hX : X ∈ resumeTargets.delay) :
    f.lines.count (.label (.resumeDelay X)) = delayCopies X instrs := by
  obtain ⟨chunks, hchunks, rfl⟩ := emitRecompiledFunction_some h
  have hentry : (entryOf resumeTargets true false).count (.label (.resumeDelay X)) = 0 :=
    List.count_eq_zero.mpr fun hl => Bool.false_ne_true (entryOf_inner _ hl)
  rw [EmittedFunction.lines, List.count_append, List.count_append, hentry,
    count_resumeDelay_emitInstructions hX hchunks, Nat.zero_add]
  rfl

/-- The switch jumps to the label of the address. -/
theorem runFrom_resume {ρ : Type} (rt : Runtime ρ) (s : RspContext ρ) (jumps : Nat)
    {l : Label} {after : List Line} (hlabel : afterLabel f.lines l = some after)
    (hl : (s.resumeDelay = true ∧ s.resumeAddress ∈ resumeTargets.delay ∧
        l = .resumeDelay s.resumeAddress) ∨
      (s.resumeDelay = false ∧ s.resumeAddress ∈ resumeTargets.nonDelay ∧
        l = .resume s.resumeAddress)) :
    runFrom rt f.lines (jumps + 1) f.lines s = runFrom rt f.lines jumps after s := by
  obtain ⟨chunks, _, hf⟩ := emitRecompiledFunction_some h
  obtain ⟨rest, hlines⟩ : ∃ rest, f.lines =
      .resumeSwitch resumeTargets.delay.dedup resumeTargets.nonDelay.dedup :: rest := by
    rw [hf]
    exact ⟨_, rfl⟩
  have hexec : exec rt 0 f.lines s = some (.goto l s) := by
    rw [hlines, exec]
    rcases hl with ⟨hd, hmem, rfl⟩ | ⟨hd, hmem, rfl⟩
    · rw [if_pos hd, if_pos (List.mem_dedup.mpr hmem)]
    · rw [if_neg (by rw [hd]; exact Bool.false_ne_true), if_pos (List.mem_dedup.mpr hmem)]
  rw [runFrom, hexec]
  dsimp only
  rw [hlabel]
  rfl

/-- A label that is printed once is behind the instruction at its address. -/
theorem resumesBehind_of_count {instr : Instruction} (hX : instr.vram ∈ resumeTargets.nonDelay)
    (hk : instrs[k]? = some instr) (hid : instr.id ≠ .other)
    (honce : instrs.countP (·.resumesAt instr.vram) = 1) : f.ResumesBehind k instr.vram := by
  intro ρ rt s jumps hs hd
  have hcount := count_resume_lines h hX
  rw [honce] at hcount
  obtain ⟨chunks, hchunks, hf⟩ := emitRecompiledFunction_some h
  obtain ⟨hlt, hget⟩ := List.getElem?_eq_some_iff.mp hk
  obtain ⟨chunk, hchunk, hemit⟩ := getElem?_emitInstructions hchunks hlt
  rw [List.drop_eq_getElem_cons hlt, hget] at hemit
  obtain ⟨body, _, rfl⟩ := emitInstruction_cons hemit
  rw [if_neg hid, resumeLines_nonDelay, if_pos (by exact hX)] at hchunk
  have hlines : f.lines = f.entry ++ (chunks.take k).flatten ++
      (entryLines (emitContext addresses instrs resumeTargets true) false instr ++ body) ++
      .label (.resume instr.vram) :: f.behind k := by
    rw [EmittedFunction.lines, EmittedFunction.behind, hf]
    dsimp only
    rw [flatten_eq_of_getElem? hchunk]
    simp only [List.append_assoc, List.cons_append, List.nil_append]
  exact runFrom_resume h rt s jumps (afterLabel_eq hlines hcount)
    (Or.inr ⟨hd, by rw [hs]; exact hX, by rw [hs]⟩)

/-- A label in a delay slot that is printed once is in front of the jump of the branch. -/
theorem resumesAtJump_of_count {branch instr : Instruction}
    (hX : instr.vram ∈ resumeTargets.delay) (hbranch : instrs[k]? = some branch)
    (hslot : branch.id.hasDelaySlot = true) (hk : instrs[k + 1]? = some instr)
    (hid : instr.id ≠ .other) (honce : delayCopies instr.vram instrs = 1) :
    f.ResumesAtJump branch.jumpLabel instr.vram := by
  intro ρ rt s jumps hs hd
  have hcount := count_resumeDelay_lines h hX
  rw [honce] at hcount
  obtain ⟨chunks, hchunks, hf⟩ := emitRecompiledFunction_some h
  obtain ⟨hlt, hget⟩ := List.getElem?_eq_some_iff.mp hbranch
  obtain ⟨hlt', hget'⟩ := List.getElem?_eq_some_iff.mp hk
  obtain ⟨chunk, hchunk, hemit⟩ := getElem?_emitInstructions hchunks hlt
  rw [List.drop_eq_getElem_cons hlt, hget, List.drop_eq_getElem_cons hlt', hget'] at hemit
  obtain ⟨body, hbody, rfl⟩ := emitInstruction_cons hemit
  obtain ⟨before, slot, hcopy, rfl, _⟩ := emitBody_slot hslot hbody
  obtain ⟨copy, _, rfl⟩ := emitInstruction_cons hcopy
  rw [if_neg hid, resumeLines_delay, if_pos (by exact hX)] at hchunk
  -- the lines behind the label start with the jump
  obtain ⟨rest, hafter⟩ : ∃ rest, branch.afterSlot = .goto branch.jumpLabel :: rest := ⟨_, rfl⟩
  rw [hafter] at hchunk
  have hlines : f.lines = f.entry ++ (chunks.take k).flatten ++
      (entryLines (emitContext addresses instrs resumeTargets true) false branch ++ (before ++
        (entryLines (emitContext addresses instrs resumeTargets true) true instr ++ copy))) ++
      .label (.resumeDelay instr.vram) :: .goto branch.jumpLabel ::
      (rest ++ ((if branch.id = .other then [] else
        resumeLines (emitContext addresses instrs resumeTargets true) false branch) ++
          f.behind k)) := by
    rw [EmittedFunction.lines, EmittedFunction.behind, hf]
    dsimp only
    rw [flatten_eq_of_getElem? hchunk]
    simp only [List.append_assoc, List.cons_append, List.nil_append]
  rw [runFrom_resume h rt s jumps (afterLabel_eq hlines hcount)
    (Or.inl ⟨hd, by rw [hs]; exact hX, by rw [hs]⟩)]
  cases jumps <;> rfl

end Functions

/-! ## The permutations -/

/-- A position that no overlay is copied over. -/
def Config.Outside (cfg : Config) (k : Nat) : Prop :=
  ∀ slot ∈ cfg.overlaySlots, ∀ overlay ∈ slot.overlays,
    k < cfg.wordOffset slot ∨ cfg.wordOffset slot + overlay.instrWords.length ≤ k

section Outside

variable {cfg : Config} {k : Nat}

theorem copyWords_getElem?_outside {text overlay : List (BitVec 32)} {offset : Nat}
    (hk : k < offset ∨ offset + overlay.length ≤ k) :
    (copyWords text offset overlay)[k]? = text[k]? := by
  rw [copyWords, List.getElem?_mapIdx]
  cases htext : text[k]? with
  | none => rfl
  | some w =>
    rw [Option.map_some]
    split_ifs with hle
    · rw [List.getD_eq_getElem?_getD, List.getElem?_eq_none (by omega), Option.getD_none]
    · rfl

/-- Outside of the overlays an image is the base text. -/
theorem image_getElem?_outside {current text : List (BitVec 32)} (hk : cfg.Outside k)
    (h : cfg.image current = some text) : text[k]? = cfg.instrWords[k]? := by
  have hrun : ∀ (choices : List (OverlaySlot × BitVec 32)) (start : List (BitVec 32)),
      (∀ c ∈ choices, c.1 ∈ cfg.overlaySlots) → choices.foldlM cfg.copyOverlay start = some text →
        text[k]? = start[k]? := by
    intro choices
    induction choices with
    | nil =>
      intro start _ h
      obtain rfl := Option.some.inj h
      rfl
    | cons choice choices ih =>
      intro start hmem h
      rw [List.foldlM_cons] at h
      obtain ⟨next, hnext, h⟩ := Option.bind_eq_some_iff.mp h
      obtain ⟨overlay, hoverlay, rfl⟩ := Option.map_eq_some_iff.mp hnext
      rw [ih _ (fun c hc => hmem c (List.mem_cons_of_mem choice hc)) h]
      exact copyWords_getElem?_outside
        (hk _ (hmem choice List.mem_cons_self) overlay (List.mem_of_getElem? hoverlay))
  exact hrun _ _ (fun c hc => (List.of_mem_zip hc).1) h

theorem instrsOf_getElem?_outside {decode : BitVec 32 → InstrId} {current text : List (BitVec 32)}
    (hk : cfg.Outside k) (h : cfg.image current = some text) :
    (cfg.instrsOf decode text)[k]? = (cfg.instrsOf decode cfg.instrWords)[k]? := by
  rw [Config.instrsOf, Config.instrsOf, getElem?_decodeText, getElem?_decodeText,
    image_getElem?_outside hk h]

end Outside

section Permutations

variable (decode : BitVec 32 → InstrId) (cfg : Config) (permutations : List Permutation)

/-- Resume switches name labels that are defined once; and every permutation goes on behind the
sites that no overlay changes, in the text and in the delay slots of branches that no overlay
changes. -/
structure ResumesRight (functions : List EmittedFunction) : Prop where
  switches : ∀ f ∈ functions, ∀ delay nonDelay, .resumeSwitch delay nonDelay ∈ f.entry →
    (delay.Nodup ∧ ∀ X ∈ delay, f.lines.count (.label (.resumeDelay X)) = 1) ∧
      nonDelay.Nodup ∧ ∀ X ∈ nonDelay, f.lines.count (.label (.resume X)) = 1
  behind : ∀ f ∈ functions.tail, ∀ k instr, cfg.Outside k →
    (cfg.instrsOf decode cfg.instrWords)[k]? = some instr → instr.isSwapSite = true →
      f.ResumesBehind k instr.vram
  at_jump : ∀ f ∈ functions.tail, ∀ k branch instr, cfg.Outside k → cfg.Outside (k + 1) →
    (cfg.instrsOf decode cfg.instrWords)[k]? = some branch → branch.id.hasDelaySlot = true →
    (cfg.instrsOf decode cfg.instrWords)[k + 1]? = some instr → instr.isSwapSite = true →
      f.ResumesAtJump branch.jumpLabel instr.vram

/-- In every permutation, a site of any permutation is the address of one instruction that the
recompiler knows; and a site in a delay slot is in one delay slot. -/
structure ResumeCondition : Prop where
  text : ∀ p ∈ permutations, ∀ X ∈ (cfg.unionResumeTargets decode permutations).nonDelay,
    (cfg.instrsOf decode p.instrWords).countP (·.resumesAt X) = 1
  delay : ∀ p ∈ permutations, ∀ X ∈ (cfg.unionResumeTargets decode permutations).delay,
    delayCopies X (cfg.instrsOf decode p.instrWords) = 1

instance : Decidable (ResumeCondition decode cfg permutations) :=
  let targets := cfg.unionResumeTargets decode permutations
  decidable_of_iff (permutations.all fun p =>
    (targets.nonDelay.all fun X => (cfg.instrsOf decode p.instrWords).countP (·.resumesAt X) = 1) &&
      targets.delay.all fun X => delayCopies X (cfg.instrsOf decode p.instrWords) = 1) (by
    simp only [List.all_eq_true, Bool.and_eq_true, decide_eq_true_eq]
    exact ⟨fun h => ⟨fun p hp => (h p hp).1, fun p hp => (h p hp).2⟩,
      fun h p hp => ⟨h.text p hp, h.delay p hp⟩⟩)

variable {decode cfg permutations} {addresses : AddressConfig} {functions : List EmittedFunction}

theorem exists_left_of_forall₂ {α β : Type} {R : α → β → Prop} {l : List α} {l' : List β}
    (h : List.Forall₂ R l l') : ∀ b ∈ l', ∃ a ∈ l, R a b := by
  induction h with
  | nil => simp
  | cons hab _ ih =>
    intro b hb
    rcases List.mem_cons.mp hb with rfl | hb
    · exact ⟨_, List.mem_cons_self, hab⟩
    · obtain ⟨a, ha, hR⟩ := ih b hb
      exact ⟨a, List.mem_cons_of_mem _ ha, hR⟩

/-- With overlays, the functions are the initial one and one for each permutation. -/
theorem emitMicrocode_overlays (hslots : cfg.overlaySlots ≠ [])
    (h : cfg.emitMicrocode addresses decode permutations = some functions) :
    ∃ initial rest, functions = initial :: rest ∧
      (∃ name instrs, emitRecompiledFunction addresses name instrs ⟨[], []⟩ true true =
        some initial) ∧
      List.Forall₂ (fun (p : Permutation) f => ∃ name, emitRecompiledFunction addresses name
        (cfg.instrsOf decode p.instrWords) (cfg.unionResumeTargets decode permutations) true false =
          some f) permutations rest := by
  unfold Config.emitMicrocode at h
  rw [if_neg hslots] at h
  obtain ⟨initial, hinitial, h⟩ := Option.bind_eq_some_iff.mp h
  obtain ⟨rest, hrest, h⟩ := Option.bind_eq_some_iff.mp h
  obtain rfl := Option.some.inj h
  exact ⟨initial, rest, rfl, ⟨_, _, hinitial⟩, (Option.forall₂_mapM hrest).imp fun p f hf => ⟨_, hf⟩⟩

theorem resumeSwitch_mem_entryOf {resumeTargets : ResumeTargets} {isInitial : Bool}
    {delay nonDelay : List (BitVec 32)} :
    .resumeSwitch delay nonDelay ∈ entryOf resumeTargets true isInitial ↔
      isInitial = false ∧ delay = resumeTargets.delay.dedup ∧
        nonDelay = resumeTargets.nonDelay.dedup := by
  unfold entryOf
  cases isInitial <;> simp

theorem resumesRight_of_condition (hslots : cfg.overlaySlots ≠ [])
    (himage : ∀ p ∈ permutations, cfg.image p.permutation = some p.instrWords)
    (h : cfg.emitMicrocode addresses decode permutations = some functions) :
    ResumesRight decode cfg functions ↔ ResumeCondition decode cfg permutations := by
  obtain ⟨initial, rest, rfl, ⟨name, instrs, hinitial⟩, hrest⟩ := emitMicrocode_overlays hslots h
  constructor
  · intro hright
    have hswitch : ∀ p ∈ permutations, ∃ f,
        (∃ name, emitRecompiledFunction addresses name (cfg.instrsOf decode p.instrWords)
          (cfg.unionResumeTargets decode permutations) true false = some f) ∧
        (∀ X ∈ (cfg.unionResumeTargets decode permutations).delay,
          f.lines.count (.label (.resumeDelay X)) = 1) ∧
        ∀ X ∈ (cfg.unionResumeTargets decode permutations).nonDelay,
          f.lines.count (.label (.resume X)) = 1 := by
      intro p hp
      obtain ⟨f, hf, name, hemit⟩ := exists_left_of_forall₂ hrest.flip p hp
      obtain ⟨chunks, _, hfields⟩ := emitRecompiledFunction_some hemit
      have hentry : f.entry = entryOf (cfg.unionResumeTargets decode permutations) true false := by
        rw [hfields]
      obtain ⟨hdelay, hnonDelay⟩ := hright.switches f (List.mem_cons_of_mem _ hf) _ _
        (by rw [hentry]; exact resumeSwitch_mem_entryOf.mpr ⟨rfl, rfl, rfl⟩)
      exact ⟨f, ⟨name, hemit⟩, fun X hX => hdelay.2 X (List.mem_dedup.mpr hX),
        fun X hX => hnonDelay.2 X (List.mem_dedup.mpr hX)⟩
    refine ⟨?_, ?_⟩
    · intro p hp X hX
      obtain ⟨f, ⟨name, hemit⟩, _, hcount⟩ := hswitch p hp
      rw [← count_resume_lines hemit hX, hcount X hX]
    · intro p hp X hX
      obtain ⟨f, ⟨name, hemit⟩, hcount, _⟩ := hswitch p hp
      rw [← count_resumeDelay_lines hemit hX, hcount X hX]
  · intro hcond
    refine ⟨?_, ?_, ?_⟩
    · intro f hf delay nonDelay hmem
      rcases List.mem_cons.mp hf with rfl | hf
      · -- the initial function has no switch
        obtain ⟨chunks, _, rfl⟩ := emitRecompiledFunction_some hinitial
        cases (resumeSwitch_mem_entryOf.mp hmem).1
      · obtain ⟨p, hp, name, hemit⟩ := exists_left_of_forall₂ hrest f hf
        obtain ⟨chunks, _, hfields⟩ := emitRecompiledFunction_some hemit
        rw [hfields] at hmem
        obtain ⟨_, rfl, rfl⟩ := resumeSwitch_mem_entryOf.mp hmem
        refine ⟨⟨List.nodup_dedup _, ?_⟩, List.nodup_dedup _, ?_⟩
        · intro X hX
          rw [count_resumeDelay_lines hemit (List.mem_dedup.mp hX),
            hcond.delay p hp X (List.mem_dedup.mp hX)]
        · intro X hX
          rw [count_resume_lines hemit (List.mem_dedup.mp hX),
            hcond.text p hp X (List.mem_dedup.mp hX)]
    · intro f hf k instr hk hinstr hsite
      obtain ⟨p, hp, name, hemit⟩ := exists_left_of_forall₂ hrest f hf
      rw [← instrsOf_getElem?_outside hk (himage p hp)] at hinstr
      have hX : instr.vram ∈ (cfg.unionResumeTargets decode permutations).nonDelay :=
        List.mem_flatMap.mpr ⟨p, hp, mem_collectResumeTargets hinstr hsite⟩
      exact resumesBehind_of_count hemit hX hinstr (isSwapSite_known hsite)
        (hcond.text p hp _ hX)
    · intro f hf k branch instr hk hk' hbranch hslot hinstr hsite
      obtain ⟨p, hp, name, hemit⟩ := exists_left_of_forall₂ hrest f hf
      rw [← instrsOf_getElem?_outside hk (himage p hp)] at hbranch
      rw [← instrsOf_getElem?_outside hk' (himage p hp)] at hinstr
      have hX : instr.vram ∈ (cfg.unionResumeTargets decode permutations).delay :=
        List.mem_flatMap.mpr
          ⟨p, hp, mem_collectResumeTargets_delay hbranch hinstr hslot hsite⟩
      exact resumesAtJump_of_count hemit hX hbranch hslot hinstr (isSwapSite_known hsite)
        (hcond.delay p hp _ hX)

/-- **Resuming is right exactly when** every site is printed with its label once in the text of
every permutation, and every site of a delay slot once in a delay slot of every permutation. -/
theorem resumesRight_iff {fuel : Nat} (hslots : cfg.overlaySlots ≠ [])
    (hexpand : cfg.expandPermutations fuel = some permutations)
    (h : cfg.emitMicrocode addresses decode permutations = some functions) :
    ResumesRight decode cfg functions ↔ ResumeCondition decode cfg permutations :=
  resumesRight_of_condition hslots (Config.image_of_mem_expandFrom hexpand) h

end Permutations

/-- A text with two overlays of one word at a position. -/
def oneSlot (words : List (BitVec 32)) (slot first second : BitVec 32) : Config where
  textAddress := 0x04001080#32
  outputFunctionName := ascii "microcode"
  instrWords := words
  overlaySlots := [⟨0x04001080 + 4 * slot, [⟨0x100#32, [first]⟩, ⟨0x200#32, [second]⟩]⟩]

/-- A DMA read in the text, another one in the delay slot of `jr $ra`, and an overlay behind. -/
theorem oneSlot_resumesRight :
    ∃ permutations functions,
      (oneSlot [0x40811000, 0x03E00008, 0x40811000, 0] 3 0 0x24010001).expandPermutations 3 =
        some permutations ∧
      (oneSlot [0x40811000, 0x03E00008, 0x40811000, 0] 3 0 0x24010001).emitMicrocode ⟨[], []⟩
        fewIds permutations = some functions ∧
      ResumesRight fewIds (oneSlot [0x40811000, 0x03E00008, 0x40811000, 0] 3 0 0x24010001)
        functions := by
  obtain ⟨functions, h⟩ : ∃ functions, (oneSlot [0x40811000, 0x03E00008, 0x40811000, 0] 3 0
      0x24010001).emitMicrocode ⟨[], []⟩ fewIds
        [⟨[0x40811000, 0x03E00008, 0x40811000, 0], [0]⟩,
          ⟨[0x40811000, 0x03E00008, 0x40811000, 0x24010001], [1]⟩] = some functions :=
    Option.isSome_iff_exists.mp (by decide +kernel)
  have hexpand : (oneSlot [0x40811000, 0x03E00008, 0x40811000, 0] 3 0
      0x24010001).expandPermutations 3 = some
        [⟨[0x40811000, 0x03E00008, 0x40811000, 0], [0]⟩,
          ⟨[0x40811000, 0x03E00008, 0x40811000, 0x24010001], [1]⟩] := by decide +kernel
  exact ⟨_, functions, hexpand, h,
    (resumesRight_iff (by decide) hexpand h).mpr (by decide +kernel)⟩

/-- A DMA read behind an overlay that ends with `jr $ra` in one permutation only. -/
theorem oneSlot_not_resumesRight :
    ∃ permutations functions,
      (oneSlot [0, 0, 0x40811000, 0] 1 0x03E00008 0).expandPermutations 3 = some permutations ∧
      (oneSlot [0, 0, 0x40811000, 0] 1 0x03E00008 0).emitMicrocode ⟨[], []⟩ fewIds permutations =
        some functions ∧
      ¬ ResumesRight fewIds (oneSlot [0, 0, 0x40811000, 0] 1 0x03E00008 0) functions := by
  obtain ⟨functions, h⟩ : ∃ functions, (oneSlot [0, 0, 0x40811000, 0] 1
      0x03E00008 0).emitMicrocode ⟨[], []⟩ fewIds
        [⟨[0, 0x03E00008, 0x40811000, 0], [0]⟩, ⟨[0, 0, 0x40811000, 0], [1]⟩] = some functions :=
    Option.isSome_iff_exists.mp (by decide +kernel)
  have hexpand : (oneSlot [0, 0, 0x40811000, 0] 1 0x03E00008 0).expandPermutations 3 =
      some [⟨[0, 0x03E00008, 0x40811000, 0], [0]⟩, ⟨[0, 0, 0x40811000, 0], [1]⟩] := by
    decide +kernel
  refine ⟨_, functions, hexpand, h, ?_⟩
  intro hright
  have hcond := (resumesRight_of_condition (by decide)
    (Config.image_of_mem_expandFrom hexpand) h).mp hright
  exact absurd hcond (by decide +kernel)

end N64Recomp.RSPRecomp
