import N64Recomp.Data.FlatCode
import N64Recomp.Recompilation.LabelTargets

/-!
# The layout of the emitted instructions

The loop over the instructions writes one block for each: the jump over a duplicated delay slot, the
label of its address, its code, and the labels behind it. In a function whose labels are addresses of
its instructions, and whose delay slots hold no transfers, every label is defined once, in front of
the code of its instruction, and the code goes to labels that are defined.

## Main definitions

* `Translation.Turn`, `Translation.Layout`: the turns of the loop
* `Translation.Regular`: the functions whose bodies are laid out as intended
* `Layout.codeAt`: the code from an instruction on, behind its label

## Main results

* `Layout.cursor_eq`: the labels that are still to be written at an instruction
* `Layout.nodup_labels`: every label is defined once
* `Layout.behind_at`, `Layout.behind_after`, `Layout.behind_skip`: what is behind the labels
-/

namespace N64Recomp

open Emit FlatCode

namespace Translation

variable (t : Translation)

/-- The address of the instruction at an index. -/
def vramAt (j : Nat) : BitVec 32 := t.func.vram + BitVec.ofNat 32 (4 * j)

/-- **The functions whose bodies are laid out as intended**: the labels are addresses of
instructions, every transfer has a slot in the function, and none is in a slot. -/
structure Regular : Prop where
  decoded : t.instructions = decodeFrom t.func.vram t.func.words
  small : t.func.vram.toNat + 4 * t.instructions.length < 2 ^ 32
  aligned : ∀ v ∈ t.branchLabels, ∃ k, 0 < k ∧ k < t.instructions.length ∧ v = t.vramAt k
  slots : ∀ k instr, t.instructions[k]? = some instr → isTransfer (t.translatedId instr) = true →
    ∃ next, t.instructions[k + 1]? = some next ∧ isTransfer (t.translatedId next) = false
  reaches : t.ReachesLabels

/-! ### A turn of the loop -/

/-- The jump over the duplicate of a likely branch's delay slot. -/
def skipJump (s : LoopState) : List Item :=
  if s.inLikelyDelaySlot then [.call (.goto (.skip s.numLikelyBranches))] else []

/-- The label behind that duplicate. -/
def skipLabel (s : LoopState) : List Item :=
  if s.inLikelyDelaySlot then [.call (.label (.skip s.numLikelyBranches))] else []

/-- The label in front of an instruction, and the labels that are left. -/
def pendingLabel (vram : BitVec 32) : List (BitVec 32) → List Item × List (BitVec 32)
  | [] => ([], [])
  | label :: labels =>
    if label ≤ vram then ([.call (.label (.at_ label))], labels) else ([], label :: labels)

/-- What a turn writes, around the items of the instruction. -/
def turnItems (vram : BitVec 32) (s : LoopState) (core : List Item) : List Item :=
  skipJump s ++ (pendingLabel vram s.cursor).1 ++ core ++ skipLabel s

/-- A turn of the loop, from an instruction on: the items of the instruction, and the state behind. -/
structure Turn (instrs : List InstructionCpu) (vram : BitVec 32) (index : Nat) (s s' : LoopState)
    (core : List Item) (statics statics' : Statics) : Prop where
  done : ∃ relocIndex, Done (t.processInstruction instrs index s.needsLinkBranch s.numLinkBranches
    relocIndex) statics (s'.needsLinkBranch, s'.inLikelyDelaySlot) core statics'
  cursor : s'.cursor = (pendingLabel vram s.cursor).2
  numLinkBranches : s'.numLinkBranches = s.numLinkBranches + if s.needsLinkBranch then 1 else 0
  numLikelyBranches :
    s'.numLikelyBranches = s.numLikelyBranches + if s.inLikelyDelaySlot then 1 else 0

section Turn

variable {t} {vram : BitVec 32} {statics statics' : Statics} {items : List Item} {u : Unit}

theorem done_call {c : Call} (h : Done (t.call c) statics u items statics') :
    items = [.call c] ∧ statics' = statics := by
  unfold call at h
  split at h
  · exact done_write.mp h
  · exact absurd h not_done_abort

theorem done_when_call {b : Bool} {c : Call}
    (h : Done (Emit.when (b = true) (t.call c)) statics u items statics') :
    items = (if b then [.call c] else []) ∧ statics' = statics := by
  rw [done_when] at h
  cases b with
  | true => exact done_call h
  | false => exact h

theorem done_emitPendingLabel {cursor cursor' : List (BitVec 32)}
    (h : Done (t.emitPendingLabel vram cursor) statics cursor' items statics') :
    (items, cursor') = pendingLabel vram cursor ∧ statics' = statics := by
  cases cursor with
  | nil =>
    obtain ⟨rfl, rfl, rfl⟩ := done_pure.mp h
    exact ⟨rfl, rfl⟩
  | cons label labels =>
    unfold emitPendingLabel at h
    unfold pendingLabel
    dsimp only at h ⊢
    by_cases hle : label ≤ vram
    · rw [if_pos hle] at h
      obtain ⟨_, l₁, s₁, l₂, hcall, hrest, rfl⟩ := done_bind.mp h
      obtain ⟨rfl, rfl⟩ := done_call hcall
      obtain ⟨rfl, rfl, rfl⟩ := done_pure.mp hrest
      rw [if_pos hle]
      exact ⟨rfl, rfl⟩
    · rw [if_neg hle] at h
      obtain ⟨rfl, rfl, rfl⟩ := done_pure.mp h
      rw [if_neg hle]
      exact ⟨rfl, rfl⟩

theorem exists_turn {instrs : List InstructionCpu} {index : Nat} {s s' : LoopState}
    (h : Done (t.emitInstruction instrs vram index s) statics s' items statics') :
    ∃ core, items = turnItems vram s core ∧
      t.Turn instrs vram index s s' core statics statics' := by
  unfold emitInstruction at h
  obtain ⟨_, l₁, s₁, _, hjump, hlabels, rfl⟩ := done_bind.mp h
  obtain ⟨rfl, rfl⟩ := done_when_call hjump
  obtain ⟨cursor, l₂, s₂, _, hlabel, hprocess, rfl⟩ := done_bind.mp hlabels
  obtain ⟨hcursor, rfl⟩ := done_emitPendingLabel hlabel
  obtain ⟨r, core, s₃, _, hcore, hskips, rfl⟩ := done_bind.mp hprocess
  obtain ⟨_, l₄, s₄, _, hskip, hreturn, rfl⟩ := done_bind.mp hskips
  obtain ⟨rfl, rfl⟩ := done_when_call hskip
  obtain ⟨rfl, rfl, rfl⟩ := done_pure.mp hreturn
  obtain ⟨rfl, rfl⟩ := Prod.mk.inj hcursor
  refine ⟨core, ?_, ⟨_, hcore⟩, rfl, rfl, rfl⟩
  simp only [List.append_nil, turnItems, List.append_assoc]
  rfl

end Turn

/-! ### The loop -/

/-- The turns of the loop over the instructions. -/
structure Layout where
  /-- The state in front of an instruction. -/
  state : Nat → LoopState
  statics : Nat → Statics
  /-- The items of an instruction. -/
  core : Nat → List Item
  start : state 0 = LoopState.start t.branchLabels
  turns : ∀ j < t.instructions.length, t.Turn (t.instructions.drop j) (t.vramAt j) j (state j)
    (state (j + 1)) (core j) (statics j) (statics (j + 1))

namespace Layout

variable {t} (lay : t.Layout)

/-- What the turn of an instruction writes. -/
def block (j : Nat) : List Item := turnItems (t.vramAt j) (lay.state j) (lay.core j)

/-- The blocks from an instruction on. -/
def blocksFrom (j : Nat) : List Item :=
  (List.range' j (t.instructions.length - j)).flatMap lay.block

theorem blocksFrom_length : lay.blocksFrom t.instructions.length = [] := by
  rw [blocksFrom, Nat.sub_self]
  rfl

theorem blocksFrom_succ {j : Nat} (hj : j < t.instructions.length) :
    lay.blocksFrom j = lay.block j ++ lay.blocksFrom (j + 1) := by
  unfold blocksFrom
  rw [show t.instructions.length - j = t.instructions.length - (j + 1) + 1 by omega,
    List.range'_succ, List.flatMap_cons]

/-- The blocks in front of an instruction, and those from it on. -/
theorem blocksFrom_eq_append {i j : Nat} (hij : i ≤ j) (hj : j ≤ t.instructions.length) :
    lay.blocksFrom i = (List.range' i (j - i)).flatMap lay.block ++ lay.blocksFrom j := by
  unfold blocksFrom
  rw [← List.flatMap_append, show t.instructions.length - i =
    (j - i) + (t.instructions.length - j) by omega, ← List.range'_append]
  congr 2
  rw [show i + 1 * (j - i) = j by omega]

/-- The code from an instruction on, behind its label. -/
def codeAt (back : List Item) (j : Nat) : List Item :=
  if j < t.instructions.length then
    lay.core j ++ (skipLabel (lay.state j) ++ (lay.blocksFrom (j + 1) ++ back))
  else back

end Layout

variable {t}

theorem vramAt_zero : t.vramAt 0 = t.func.vram := BitVec.add_zero _

theorem vramAt_succ (j : Nat) : t.vramAt (j + 1) = t.vramAt j + 4 := by
  unfold vramAt
  rw [Nat.mul_succ, BitVec.ofNat_add, ← BitVec.add_assoc]
  rfl

/-- The loop, from an instruction on, as turns. -/
theorem exists_turns (hdecoded : t.instructions = decodeFrom t.func.vram t.func.words) (n j : Nat)
    (hn : j + n = t.instructions.length) (s : LoopState) {statics statics' : Statics}
    {items : List Item}
    (h : Done (t.emitInstructions (t.instructions.drop j) j s) statics () items statics') :
    ∃ (state : Nat → LoopState) (mid : Nat → Statics) (core : Nat → List Item),
      state j = s ∧ mid j = statics ∧
      items = (List.range' j n).flatMap (fun k => turnItems (t.vramAt k) (state k) (core k)) ∧
      ∀ k, j ≤ k → k < t.instructions.length → t.Turn (t.instructions.drop k) (t.vramAt k) k
        (state k) (state (k + 1)) (core k) (mid k) (mid (k + 1)) := by
  induction n generalizing j s statics items with
  | zero =>
    rw [List.drop_eq_nil_of_le (by omega)] at h
    exact ⟨fun _ => s, fun _ => statics, fun _ => [], rfl, rfl, (done_pure.mp h).2.1, by omega⟩
  | succ n ih =>
    have hj : j < t.instructions.length := by omega
    rw [List.drop_eq_getElem_cons hj] at h
    have hvram : (t.instructions[j]).vram = t.vramAt j := by
      have hget := getElem?_decodeFrom t.func.vram t.func.words j
      rw [← hdecoded, List.getElem?_eq_getElem hj] at hget
      obtain ⟨word, -, heq⟩ := Option.map_eq_some_iff.mp hget.symm
      rw [← heq]
      rfl
    obtain ⟨s', l₁, mid₁, l₂, hturn, hrest, rfl⟩ := done_bind.mp h
    rw [← List.drop_eq_getElem_cons hj, hvram] at hturn
    obtain ⟨core₁, rfl, hfirst⟩ := exists_turn hturn
    obtain ⟨state, mid, core, hstate, hmid, hitems, hturns⟩ := ih (j + 1) (by omega) s' hrest
    refine ⟨fun k => if k = j then s else state k, fun k => if k = j then statics else mid k,
      fun k => if k = j then core₁ else core k, if_pos rfl, if_pos rfl, ?_, fun k hle hk => ?_⟩
    · have hblocks : (List.range' (j + 1) n).flatMap (fun k => turnItems (t.vramAt k)
            (if k = j then s else state k) (if k = j then core₁ else core k)) =
          (List.range' (j + 1) n).flatMap (fun k => turnItems (t.vramAt k) (state k) (core k)) :=
        List.flatMap_congr fun k hk => by
          have hne : k ≠ j := by
            have hlow := (List.mem_range'_1.mp hk).1
            omega
          rw [if_neg hne, if_neg hne]
      rw [List.range'_succ, List.flatMap_cons, hblocks, hitems]
      dsimp only
      rw [if_pos rfl, if_pos rfl]
    · rcases Nat.eq_or_lt_of_le hle with rfl | hlt
      · simp only [if_pos, if_neg (show j + 1 ≠ j by omega)]
        rw [hstate, hmid]
        exact hfirst
      · simp only [if_neg (show k ≠ j by omega), if_neg (show k + 1 ≠ j by omega)]
        exact hturns k hlt hk

/-- **The turns of a loop that is done**, and what it writes. -/
theorem exists_layout (hdecoded : t.instructions = decodeFrom t.func.vram t.func.words)
    {statics statics' : Statics} {items : List Item}
    (h : Done (t.emitInstructions t.instructions 0 (LoopState.start t.branchLabels)) statics ()
      items statics') :
    ∃ lay : t.Layout, lay.statics 0 = statics ∧ items = lay.blocksFrom 0 := by
  obtain ⟨state, mid, core, hstate, hmid, hitems, hturns⟩ :=
    exists_turns hdecoded t.instructions.length 0 (Nat.zero_add _) _ h
  exact ⟨⟨state, mid, core, hstate, fun j hj => hturns j (Nat.zero_le j) hj⟩, hmid, hitems⟩

/-! ### The labels of the blocks -/

/-- The pending label of an address that the labels have not passed. -/
theorem pendingLabel_eq {vram : BitVec 32} {labels : List (BitVec 32)}
    (hsorted : labels.Pairwise (· < ·)) (hle : ∀ v ∈ labels, vram ≤ v) :
    pendingLabel vram labels =
      (if vram ∈ labels then [.call (.label (.at_ vram))] else [], labels.filter (· ≠ vram)) := by
  cases labels with
  | nil => rfl
  | cons label labels =>
    obtain ⟨hhead, -⟩ := List.pairwise_cons.mp hsorted
    unfold pendingLabel
    dsimp only
    by_cases hlabel : label ≤ vram
    · obtain rfl : label = vram := BitVec.le_antisymm hlabel (hle label List.mem_cons_self)
      have hrest : ∀ v ∈ labels, v ≠ label := fun v hv heq =>
        BitVec.lt_irrefl label (heq ▸ hhead v hv)
      rw [if_pos hlabel, if_pos List.mem_cons_self, List.filter_cons_of_neg (by simp),
        List.filter_eq_self.mpr fun v hv => decide_eq_true (hrest v hv)]
    · have hne : ∀ v ∈ label :: labels, v ≠ vram := by
        intro v hv heq
        rcases List.mem_cons.mp hv with rfl | hv
        · exact hlabel (heq ▸ BitVec.le_refl v)
        · exact hlabel (BitVec.le_of_lt (heq ▸ hhead v hv))
      rw [if_neg hlabel, if_neg fun hmem => hne vram hmem rfl,
        List.filter_eq_self.mpr fun v hv => decide_eq_true (hne v hv)]

section Regular

variable (h : t.Regular) (lay : t.Layout) {j : Nat}

include h

theorem Regular.toNat_vramAt (hj : j ≤ t.instructions.length) :
    (t.vramAt j).toNat = t.func.vram.toNat + 4 * j := by
  have hsmall := h.small
  unfold vramAt
  rw [BitVec.toNat_add, BitVec.toNat_ofNat]
  omega

theorem Regular.vramAt_inj {i : Nat} (hi : i ≤ t.instructions.length)
    (hj : j ≤ t.instructions.length) (heq : t.vramAt i = t.vramAt j) : i = j := by
  have hnat := congrArg BitVec.toNat heq
  rw [h.toNat_vramAt hi, h.toNat_vramAt hj] at hnat
  omega

theorem Regular.vramAt_le {i : Nat} (hi : i ≤ t.instructions.length)
    (hj : j ≤ t.instructions.length) : t.vramAt i ≤ t.vramAt j ↔ i ≤ j := by
  change (t.vramAt i).toNat ≤ (t.vramAt j).toNat ↔ _
  rw [h.toNat_vramAt hi, h.toNat_vramAt hj]
  omega

/-- The function's own address is no label that the loop writes. -/
theorem Regular.vramAt_zero_not_mem : t.vramAt 0 ∉ t.branchLabels := by
  intro hmem
  obtain ⟨k, hpos, hk, heq⟩ := h.aligned _ hmem
  have hzero := h.vramAt_inj (Nat.zero_le _) (Nat.le_of_lt hk) heq
  omega

namespace Layout

/-- **The labels that are still to be written at an instruction** are those from its address on. -/
theorem cursor_eq (hj : j ≤ t.instructions.length) :
    (lay.state j).cursor = t.branchLabels.elems.filter (t.vramAt j ≤ ·) := by
  induction j with
  | zero =>
    rw [lay.start]
    refine (List.filter_eq_self.mpr fun v hv => decide_eq_true ?_).symm
    obtain ⟨k, -, hk, rfl⟩ := h.aligned v hv
    exact (h.vramAt_le (Nat.zero_le _) (Nat.le_of_lt hk)).mpr (Nat.zero_le k)
  | succ j ih =>
    have hle : ∀ v ∈ t.branchLabels.elems.filter (t.vramAt j ≤ ·), t.vramAt j ≤ v :=
      fun v hv => of_decide_eq_true (List.mem_filter.mp hv).2
    rw [(lay.turns j hj).cursor, ih (Nat.le_of_lt hj),
      pendingLabel_eq (t.branchLabels.sorted.sublist List.filter_sublist) hle]
    dsimp only
    rw [List.filter_filter]
    refine List.filter_congr fun v hv => ?_
    obtain ⟨k, -, hk, rfl⟩ := h.aligned v hv
    rw [Bool.eq_iff_iff, Bool.and_eq_true, decide_eq_true_iff, decide_eq_true_iff,
      decide_eq_true_iff, h.vramAt_le (Nat.le_of_lt hj) (Nat.le_of_lt hk),
      h.vramAt_le hj (Nat.le_of_lt hk)]
    constructor
    · rintro ⟨hne, hjk⟩
      have hkj : k ≠ j := fun heq => hne (heq ▸ rfl)
      omega
    · intro hjk
      refine ⟨fun heq => ?_, by omega⟩
      have hkj := h.vramAt_inj (Nat.le_of_lt hk) (Nat.le_of_lt hj) heq
      omega

/-- The label in front of an instruction. -/
theorem pendingLabel_cursor (hj : j < t.instructions.length) :
    (pendingLabel (t.vramAt j) (lay.state j).cursor).1 =
      if t.vramAt j ∈ t.branchLabels then [.call (.label (.at_ (t.vramAt j)))] else [] := by
  have hle : ∀ v ∈ t.branchLabels.elems.filter (t.vramAt j ≤ ·), t.vramAt j ≤ v :=
    fun v hv => of_decide_eq_true (List.mem_filter.mp hv).2
  have hmem : t.vramAt j ∈ t.branchLabels.elems.filter (t.vramAt j ≤ ·) ↔
      t.vramAt j ∈ t.branchLabels :=
    List.mem_filter.trans (and_iff_left (decide_eq_true (BitVec.le_refl _)))
  rw [lay.cursor_eq h (Nat.le_of_lt hj),
    pendingLabel_eq (t.branchLabels.sorted.sublist List.filter_sublist) hle]
  by_cases hlabel : t.vramAt j ∈ t.branchLabels
  · rw [if_pos hlabel, if_pos (hmem.mpr hlabel)]
  · rw [if_neg hlabel, if_neg (mt hmem.mp hlabel)]

/-- The items of an instruction, and what its turn says of the next one. -/
theorem items (hj : j < t.instructions.length) :
    t.InstructionItems t.instructions[j] (lay.state j).numLinkBranches (lay.state j).needsLinkBranch
      ((lay.state (j + 1)).needsLinkBranch, (lay.state (j + 1)).inLikelyDelaySlot)
      (lay.core j) := by
  obtain ⟨relocIndex, hdone⟩ := (lay.turns j hj).done
  rw [List.drop_eq_getElem_cons hj] at hdone
  refine items_processInstruction h.reaches (List.getElem_mem hj) (fun htransfer next hnext => ?_)
    hdone
  obtain ⟨next', hnext', hplain⟩ := h.slots j _ (List.getElem?_eq_getElem hj) htransfer
  rw [List.head?_drop, hnext'] at hnext
  obtain rfl := Option.some.inj hnext
  exact hplain

/-- The instruction behind one that asks for a label, or behind a likely branch, is in its slot. -/
theorem slot_of_state (hj : j < t.instructions.length)
    (hstate : (lay.state (j + 1)).needsLinkBranch = true ∨
      (lay.state (j + 1)).inLikelyDelaySlot = true) :
    ∃ hnext : j + 1 < t.instructions.length,
      isTransfer (t.translatedId t.instructions[j + 1]) = false := by
  have hitems := lay.items h hj
  have htransfer : isTransfer (t.translatedId t.instructions[j]) = true := by
    rcases hstate with hstate | hstate
    · exact hitems.needs hstate
    · have hlikely : (lay.state (j + 1)).inLikelyDelaySlot = _ := hitems.likely
      rw [hlikely] at hstate
      unfold isTransfer
      cases hop : conditionalBranchOps (t.translatedId t.instructions[j]) with
      | none =>
        rw [hop] at hstate
        cases hstate
      | some op => simp
  obtain ⟨next, hnext, hplain⟩ := h.slots j _ (List.getElem?_eq_getElem hj) htransfer
  obtain ⟨hlt, rfl⟩ := List.getElem?_eq_some_iff.mp hnext
  exact ⟨hlt, hplain⟩

/-- Behind a slot, nothing is left to be written. -/
theorem state_of_plain (hj : j < t.instructions.length)
    (hplain : isTransfer (t.translatedId t.instructions[j]) = false) :
    (lay.state (j + 1)).needsLinkBranch = false ∧
      (lay.state (j + 1)).inLikelyDelaySlot = false := by
  have hitems := lay.items h hj
  constructor
  · by_contra hneeds
    rw [hitems.needs (Bool.not_eq_false _ ▸ hneeds)] at hplain
    cases hplain
  · have hlikely : (lay.state (j + 1)).inLikelyDelaySlot = _ := hitems.likely
    rw [hlikely, (not_mem_of_not_isTransfer hplain).2]
    rfl

/-- The labels that the turn of an instruction defines. -/
theorem labelsOf_block (hj : j < t.instructions.length) : labelsOf (lay.block j) =
    (if t.vramAt j ∈ t.branchLabels then [.at_ (t.vramAt j)] else []) ++
      ((if (lay.state j).needsLinkBranch then [.after (lay.state j).numLinkBranches] else []) ++
        if (lay.state j).inLikelyDelaySlot then [.skip (lay.state j).numLikelyBranches] else []) := by
  obtain ⟨body, hcore, hlabels⟩ := (lay.items h hj).labels
  unfold block turnItems
  rw [lay.pendingLabel_cursor h hj, hcore]
  simp only [labelsOf_append, labelsOf_eq_nil hlabels.none, List.nil_append, List.append_assoc]
  unfold skipJump skipLabel afterLabel
  split_ifs <;> rfl

/-! ### The labels of the body -/

omit h in
/-- The counters do not go back. -/
theorem counters_mono {i : Nat} (hij : i ≤ j) (hj : j ≤ t.instructions.length) :
    (lay.state i).numLinkBranches ≤ (lay.state j).numLinkBranches ∧
      (lay.state i).numLikelyBranches ≤ (lay.state j).numLikelyBranches := by
  induction j, hij using Nat.le_induction with
  | base => exact ⟨Nat.le_refl _, Nat.le_refl _⟩
  | succ j hij ih =>
    obtain ⟨hlink, hlikely⟩ := ih (Nat.le_of_lt hj)
    have hturn := lay.turns j hj
    rw [hturn.numLinkBranches, hturn.numLikelyBranches]
    omega

/-- What a label that a turn defines says of the turn. -/
theorem mem_labelsOf_block (hj : j < t.instructions.length) {l : Label}
    (hl : l ∈ labelsOf (lay.block j)) :
    l = .at_ (t.vramAt j) ∧ t.vramAt j ∈ t.branchLabels ∨
      l = .after (lay.state j).numLinkBranches ∧ (lay.state j).needsLinkBranch = true ∨
      l = .skip (lay.state j).numLikelyBranches ∧ (lay.state j).inLikelyDelaySlot = true := by
  rw [lay.labelsOf_block h hj] at hl
  simp only [List.mem_append] at hl
  rcases hl with hl | hl | hl
  · split_ifs at hl with hmem
    · exact .inl ⟨List.mem_singleton.mp hl, hmem⟩
    · cases hl
  · split_ifs at hl with hneeds
    · exact .inr (.inl ⟨List.mem_singleton.mp hl, hneeds⟩)
    · cases hl
  · split_ifs at hl with hlikely
    · exact .inr (.inr ⟨List.mem_singleton.mp hl, hlikely⟩)
    · cases hl

/-- No label is defined in two turns. -/
theorem disjoint_labelsOf_block {i : Nat} (hij : i < j) (hj : j < t.instructions.length) :
    List.Disjoint (labelsOf (lay.block i)) (labelsOf (lay.block j)) := by
  have hi : i < t.instructions.length := Nat.lt_trans hij hj
  obtain ⟨hlink, hlikely⟩ := lay.counters_mono (i := i + 1) hij (Nat.le_of_lt hj)
  have hturn := lay.turns i hi
  rw [hturn.numLinkBranches] at hlink
  rw [hturn.numLikelyBranches] at hlikely
  intro l hli hlj
  rcases lay.mem_labelsOf_block h hi hli with ⟨rfl, -⟩ | ⟨rfl, hneeds⟩ | ⟨rfl, hneeds⟩
  · rcases lay.mem_labelsOf_block h hj hlj with ⟨heq, -⟩ | ⟨⟨⟩, -⟩ | ⟨⟨⟩, -⟩
    have heq := h.vramAt_inj (Nat.le_of_lt hi) (Nat.le_of_lt hj) (Label.at_.inj heq)
    omega
  · rcases lay.mem_labelsOf_block h hj hlj with ⟨⟨⟩, -⟩ | ⟨heq, -⟩ | ⟨⟨⟩, -⟩
    have heq := Label.after.inj heq
    rw [if_pos hneeds] at hlink
    omega
  · rcases lay.mem_labelsOf_block h hj hlj with ⟨⟨⟩, -⟩ | ⟨⟨⟩, -⟩ | ⟨heq, -⟩
    have heq := Label.skip.inj heq
    rw [if_pos hneeds] at hlikely
    omega

/-- **Every label of the blocks is defined once.** -/
theorem nodup_labels : (labelsOf (lay.blocksFrom 0)).Nodup := by
  have hflat : labelsOf (lay.blocksFrom 0) =
      (List.range' 0 t.instructions.length).flatMap fun j => labelsOf (lay.block j) := by
    unfold labelsOf blocksFrom
    rw [List.filterMap_flatMap]
    rfl
  rw [hflat, List.nodup_flatMap]
  refine ⟨fun j hj => ?_, ?_⟩
  · have hlt : j < t.instructions.length := by
      have hlast := (List.mem_range'_1.mp hj).2
      omega
    rw [lay.labelsOf_block h hlt]
    split_ifs <;> simp
  · refine List.Pairwise.imp_of_mem (fun {i j} hi hj hij => ?_) List.pairwise_lt_range'
    have hlast := (List.mem_range'_1.mp hj).2
    exact lay.disjoint_labelsOf_block h hij (by omega)

/-! ### Where the labels lead -/

variable {front back : List Item}

omit h in
/-- The blocks around the turn of an instruction. -/
theorem program_eq (hj : j < t.instructions.length) :
    front ++ (lay.blocksFrom 0 ++ back) =
      (front ++ (List.range' 0 j).flatMap lay.block) ++
        (lay.block j ++ (lay.blocksFrom (j + 1) ++ back)) := by
  rw [lay.blocksFrom_eq_append (Nat.zero_le j) (Nat.le_of_lt hj), lay.blocksFrom_succ hj,
    Nat.sub_zero]
  simp only [List.append_assoc]

variable (hfront : ∃ pre, front = pre ++ [.call (.label (.at_ t.func.vram))] ∧ labelsOf pre = [])
  (hback : labelsOf back = [])

include hfront hback

/-- **Every label of the body is defined once.** -/
theorem nodup_program : (labelsOf (front ++ (lay.blocksFrom 0 ++ back))).Nodup := by
  obtain ⟨pre, rfl, hpre⟩ := hfront
  have hlabels : labelsOf (pre ++ [.call (.label (.at_ t.func.vram))] ++
      (lay.blocksFrom 0 ++ back)) = .at_ t.func.vram :: labelsOf (lay.blocksFrom 0) := by
    simp only [labelsOf_append, hpre, hback, List.append_nil, List.nil_append]
    rfl
  rw [hlabels, List.nodup_cons]
  refine ⟨fun hmem => ?_, lay.nodup_labels h⟩
  obtain ⟨i, hi, hl⟩ := mem_labelsOf.mp hmem
  obtain ⟨j, hj, hi⟩ := List.mem_flatMap.mp hi
  have hlt : j < t.instructions.length := by
    have hlast := (List.mem_range'_1.mp hj).2
    omega
  rcases lay.mem_labelsOf_block h hlt (mem_labelsOf.mpr ⟨i, hi, hl⟩) with
    ⟨heq, hmem⟩ | ⟨⟨⟩, -⟩ | ⟨⟨⟩, -⟩
  rw [← Label.at_.inj heq, ← vramAt_zero] at hmem
  exact h.vramAt_zero_not_mem hmem

/-- **The label of an address leads to the code of its instruction.** -/
theorem behind_at (hj : j < t.instructions.length) (hlocal : t.IsLocal (t.vramAt j)) :
    behind Item.label (.at_ (t.vramAt j)) (front ++ (lay.blocksFrom 0 ++ back)) =
      some (lay.codeAt back j) := by
  have hnodup := lay.nodup_program h hfront hback
  have hcode : lay.codeAt back j =
      lay.core j ++ (skipLabel (lay.state j) ++ (lay.blocksFrom (j + 1) ++ back)) := if_pos hj
  by_cases hmem : t.vramAt j ∈ t.branchLabels
  · have hblock : lay.block j = skipJump (lay.state j) ++
        .call (.label (.at_ (t.vramAt j))) :: (lay.core j ++ skipLabel (lay.state j)) := by
      unfold block turnItems
      rw [lay.pendingLabel_cursor h hj, if_pos hmem]
      simp only [List.append_assoc, List.cons_append, List.nil_append]
    have hprogram : front ++ (lay.blocksFrom 0 ++ back) =
        (front ++ (List.range' 0 j).flatMap lay.block ++ skipJump (lay.state j)) ++
          .call (.label (.at_ (t.vramAt j))) :: lay.codeAt back j := by
      rw [lay.program_eq hj, hblock, hcode]
      simp only [List.append_assoc, List.cons_append]
    rw [hprogram] at hnodup ⊢
    exact behind_of_nodup hnodup rfl
  · -- the address of the function: its label is the last one in front of the loop
    have hzero : t.vramAt j = t.vramAt 0 := (hlocal.resolve_right hmem).trans vramAt_zero.symm
    obtain rfl := h.vramAt_inj (Nat.le_of_lt hj) (Nat.zero_le _) hzero
    obtain ⟨pre, rfl, hpre⟩ := hfront
    have hstart : skipJump (lay.state 0) = [] := by
      rw [lay.start]
      rfl
    have hblock : lay.block 0 = lay.core 0 ++ skipLabel (lay.state 0) := by
      unfold block turnItems
      rw [lay.pendingLabel_cursor h hj, if_neg hmem, hstart]
      rfl
    have hprogram : pre ++ [.call (.label (.at_ t.func.vram))] ++ (lay.blocksFrom 0 ++ back) =
        pre ++ .call (.label (.at_ t.func.vram)) :: lay.codeAt back 0 := by
      rw [lay.blocksFrom_succ hj, hblock, hcode]
      simp only [List.append_assoc, List.singleton_append]
    rw [hprogram] at hnodup
    rw [hprogram, vramAt_zero]
    exact behind_of_nodup hnodup rfl

/-- The label behind a slot leads behind the code of the slot. -/
theorem behind_after (hj : j < t.instructions.length)
    (hneeds : (lay.state j).needsLinkBranch = true) :
    behind Item.label (.after (lay.state j).numLinkBranches)
        (front ++ (lay.blocksFrom 0 ++ back)) =
      some (skipLabel (lay.state j) ++ (lay.blocksFrom (j + 1) ++ back)) := by
  have hnodup := lay.nodup_program h hfront hback
  obtain ⟨body, hcore, -⟩ := (lay.items h hj).labels
  rw [hneeds] at hcore
  have hprogram : front ++ (lay.blocksFrom 0 ++ back) =
      (front ++ (List.range' 0 j).flatMap lay.block ++ skipJump (lay.state j) ++
        (pendingLabel (t.vramAt j) (lay.state j).cursor).1 ++ body) ++
        .call (.label (.after (lay.state j).numLinkBranches)) ::
          (skipLabel (lay.state j) ++ (lay.blocksFrom (j + 1) ++ back)) := by
    rw [lay.program_eq hj, block, turnItems, hcore]
    simp only [List.append_assoc, afterLabel, if_true, List.cons_append, List.nil_append]
  rw [hprogram] at hnodup ⊢
  exact behind_of_nodup hnodup rfl

/-- The label behind a duplicated slot leads to the next turn. -/
theorem behind_skip (hj : j < t.instructions.length)
    (hlikely : (lay.state j).inLikelyDelaySlot = true) :
    behind Item.label (.skip (lay.state j).numLikelyBranches)
        (front ++ (lay.blocksFrom 0 ++ back)) = some (lay.blocksFrom (j + 1) ++ back) := by
  have hnodup := lay.nodup_program h hfront hback
  have hlabel : skipLabel (lay.state j) =
      [.call (.label (.skip (lay.state j).numLikelyBranches))] := if_pos hlikely
  have hprogram : front ++ (lay.blocksFrom 0 ++ back) =
      (front ++ (List.range' 0 j).flatMap lay.block ++ skipJump (lay.state j) ++
        (pendingLabel (t.vramAt j) (lay.state j).cursor).1 ++ lay.core j) ++
        .call (.label (.skip (lay.state j).numLikelyBranches)) ::
          (lay.blocksFrom (j + 1) ++ back) := by
    rw [lay.program_eq hj, block, turnItems, hlabel]
    simp only [List.append_assoc, List.singleton_append]
  rw [hprogram] at hnodup ⊢
  exact behind_of_nodup hnodup rfl

end Layout

end Regular

end Translation

end N64Recomp
