import N64Recomp.Recompilation.Layout

/-!
# The labels of an emitted body

When the labels that a function collects are addresses of its instructions, the body that is emitted
defines every label once, goes only to labels that it defines, and has the code of an instruction
behind the label of its address.

## Main definitions

* `Translation.LabelsFit`: the functions whose labels are addresses of instructions
* `Translation.LabelsExact`: the bodies whose labels are as intended

## Main results

* `Translation.regular_translation`: a function whose labels fit has a regular translation
* `recompiled_labels_exact`: the labels of an emitted body
-/

namespace N64Recomp

open Emit FlatCode

/-! ### Addresses of words -/

theorem dvd_toNat_add {x y : BitVec 32} (hx : 4 ∣ x.toNat) (hy : 4 ∣ y.toNat) :
    4 ∣ (x + y).toNat := by
  rw [BitVec.toNat_add]
  omega

theorem dvd_toNat_shiftLeft (x : BitVec 32) : 4 ∣ (x <<< 2).toNat := by
  rw [BitVec.toNat_shiftLeft, Nat.shiftLeft_eq]
  omega

theorem dvd_branchTarget {word vram : BitVec 32} (h : 4 ∣ vram.toNat) :
    4 ∣ (branchTarget word vram).toNat :=
  dvd_toNat_add (dvd_toNat_add h (by decide)) (dvd_toNat_shiftLeft _)

theorem dvd_jumpTarget (word vram : BitVec 32) : 4 ∣ (jumpTarget word vram).toNat := by
  unfold jumpTarget
  apply Nat.dvd_of_mod_eq_zero
  rw [BitVec.toNat_or, show (4 : Nat) = 2 ^ 2 from rfl, Nat.or_mod_two_pow, BitVec.toNat_and,
    Nat.and_mod_two_pow, Nat.mod_eq_zero_of_dvd (dvd_toNat_shiftLeft _), Nat.or_zero]
  exact Nat.and_zero _

/-- The direct transfers go to addresses of words. -/
theorem dvd_getBranchVram {dec : Decoder} {instr : InstructionCpu} (h : 4 ∣ instr.vram.toNat)
    (hid : instr.isBranch dec = true ∨ instr.uniqueId dec ∈ [InstrId.j, .jal]) :
    4 ∣ (instr.getBranchVramGeneric dec).toNat := by
  unfold InstructionCpu.getBranchVramGeneric
  rcases hid with hid | hid
  · rw [dec.branchVram_branch _ _ hid]
    exact dvd_branchTarget h
  · rw [dec.branchVram_jump _ _ hid]
    exact dvd_jumpTarget _ _

namespace Translation

/-! ### The functions whose labels fit -/

/-- **The functions whose labels are addresses of instructions**: the function and the labels that
are handed to it are aligned, an interior entry is in the function, and every transfer has a slot in
the function that holds none. -/
structure LabelsFit (t : Translation) (statics : Statics) : Prop where
  func : 4 ∣ t.func.vram.toNat
  small : t.func.vram.toNat + t.func.byteSize < 2 ^ 32
  dispatch : ∀ v ∈ dispatchLabels t.func, 4 ∣ v.toNat
  entry : ∀ v ∈ entryLabel t.func, 4 ∣ v.toNat ∧ t.func.contains v = true
  tables : ∀ jtbl ∈ t.jumpTables, ∀ v ∈ jtbl.entries, 4 ∣ v.toNat
  statics : ∀ v ∈ staticLocalTailcallLabels t.func statics, 4 ∣ v.toNat
  slots : ∀ k instr, t.instructions[k]? = some instr → isTransfer (t.translatedId instr) = true →
    ∃ next, t.instructions[k + 1]? = some next ∧ isTransfer (t.translatedId next) = false

section Fit

variable {r : Recompiler} {funcIndex : Nat} {func : Function} {tagReferenceRelocs : Bool}
  {jumpTables : List JumpTable} {statics : Statics}

theorem contains_iff (hsmall : func.vram.toNat + func.byteSize < 2 ^ 32) {v : BitVec 32} :
    func.contains v = true ↔
      func.vram.toNat ≤ v.toNat ∧ v.toNat < func.vram.toNat + func.byteSize := by
  have hend : func.vramEnd.toNat = func.vram.toNat + func.byteSize := by
    unfold Function.vramEnd
    rw [BitVec.toNat_ofNat, Nat.mod_eq_of_lt hsmall]
  unfold Function.contains
  rw [decide_eq_true_iff, ← hend]
  rfl

theorem dvd_vram_of_mem (hfunc : 4 ∣ func.vram.toNat) {instr : InstructionCpu}
    (hinstr : instr ∈ decodeFrom func.vram func.words) : 4 ∣ instr.vram.toNat := by
  obtain ⟨k, hk⟩ := List.mem_iff_getElem?.mp hinstr
  rw [getElem?_decodeFrom] at hk
  obtain ⟨word, -, rfl⟩ := Option.map_eq_some_iff.mp hk
  refine dvd_toNat_add hfunc ?_
  rw [BitVec.toNat_ofNat]
  omega

/-- The labels that the instructions collect are addresses of words. -/
theorem dvd_of_mem_instructionLabels {dec : Decoder} {instr : InstructionCpu}
    (h : 4 ∣ instr.vram.toNat) {v : BitVec 32} (hv : v ∈ instructionLabels dec func instr) :
    4 ∣ v.toNat := by
  have hreturn : 4 ∣ (instr.vram + 8).toNat := dvd_toNat_add h (by decide)
  unfold instructionLabels at hv
  rcases List.mem_append.mp hv with hv | hv
  · split at hv
    · rename_i hid
      obtain rfl := List.mem_singleton.mp hv
      refine dvd_getBranchVram h ?_
      simpa [or_comm] using (Bool.or_eq_true _ _ ▸ hid).imp_right fun hj => .inl (of_decide_eq_true hj)
    · cases hv
  · split at hv
    · rename_i hid
      rw [Bool.or_eq_true, decide_eq_true_iff] at hid
      rcases List.mem_append.mp hv with hv | hv
      · obtain rfl := List.mem_singleton.mp (List.mem_filter.mp hv).1
        refine dvd_getBranchVram h (hid.imp (fun hlink => ?_) fun hjal => ?_)
        · refine dec.isBranch_of_conditional _ ?_
          unfold isLinkBranch at hlink
          cases hop : conditionalBranchOps (instr.uniqueId dec) with
          | none =>
            rw [hop] at hlink
            cases hlink
          | some op => exact congrArg Option.isSome hop
        · rw [hjal]
          exact List.mem_cons_of_mem _ List.mem_cons_self
      · obtain rfl := List.mem_singleton.mp (List.mem_filter.mp hv).1
        exact hreturn
    · split at hv
      · obtain rfl := List.mem_singleton.mp (List.mem_filter.mp hv).1
        exact hreturn
      · cases hv

/-- Every collected address of the function has a label. -/
theorem isLocal_of_collected {v : BitVec 32} (hin : func.contains v = true)
    (hv : v ∈ collectedLabels r.decoder func (decodeFrom func.vram func.words) jumpTables statics) :
    (r.translation funcIndex func tagReferenceRelocs jumpTables statics).IsLocal v := by
  by_cases heq : v = func.vram
  · exact .inl heq
  · exact .inr (SortedSet.mem_erase.mpr ⟨SortedSet.mem_filter.mpr ⟨hv, hin⟩, heq⟩)

variable (hfit : (r.translation funcIndex func tagReferenceRelocs jumpTables statics).LabelsFit
  statics)

include hfit

/-- Every label of the body is an address of a word. -/
theorem LabelsFit.dvd_of_mem {v : BitVec 32}
    (hv : v ∈ (r.translation funcIndex func tagReferenceRelocs jumpTables statics).branchLabels) :
    4 ∣ v.toNat := by
  have hcollected := (SortedSet.mem_filter.mp (SortedSet.mem_erase.mp hv).1).1
  unfold collectedLabels at hcollected
  simp only [SortedSet.mem_ofList, List.mem_append, List.mem_flatMap, Option.mem_toList]
    at hcollected
  rcases hcollected with (((hv | hv) | ⟨instr, hinstr, hv⟩) | ⟨jtbl, hjtbl, hv⟩) | hv
  · exact hfit.dispatch v hv
  · exact (hfit.entry v hv).1
  · exact dvd_of_mem_instructionLabels (dvd_vram_of_mem hfit.func hinstr) hv
  · exact hfit.tables jtbl hjtbl v hv
  · exact hfit.statics v hv

/-- **A function whose labels fit has a regular translation.** -/
theorem regular_translation
    (hanalysis : analyzeFunction r.decoder r.context func (decodeFrom func.vram func.words) =
      .tables jumpTables) :
    (r.translation funcIndex func tagReferenceRelocs jumpTables statics).Regular where
  decoded := rfl
  small := by
    have hlength : (decodeFrom func.vram func.words).length = func.words.length :=
      length_decodeFrom _ _
    have hsmall := hfit.small
    change func.vram.toNat + 4 * (decodeFrom func.vram func.words).length < 2 ^ 32
    change func.vram.toNat + func.words.length * 4 < 2 ^ 32 at hsmall
    omega
  aligned v hv := by
    have hdvd := hfit.dvd_of_mem hv
    have hfunc : 4 ∣ func.vram.toNat := hfit.func
    have hlength : (decodeFrom func.vram func.words).length = func.words.length :=
      length_decodeFrom _ _
    obtain ⟨hcontained, hne⟩ := SortedSet.mem_erase.mp hv
    have hsmall : func.vram.toNat + func.byteSize < 2 ^ 32 := hfit.small
    obtain ⟨hlow, hhigh⟩ := (contains_iff hsmall).mp (SortedSet.mem_filter.mp hcontained).2
    have hne : v.toNat ≠ func.vram.toNat := fun heq => hne (BitVec.eq_of_toNat_eq heq)
    have hsize : func.byteSize = func.words.length * 4 := rfl
    refine ⟨(v.toNat - func.vram.toNat) / 4, by omega, ?_, BitVec.eq_of_toNat_eq ?_⟩
    · change _ < (decodeFrom func.vram func.words).length
      omega
    · change _ = (func.vram + BitVec.ofNat 32 (4 * ((v.toNat - func.vram.toNat) / 4))).toNat
      rw [BitVec.toNat_add, BitVec.toNat_ofNat]
      omega
  slots := hfit.slots
  reaches := by
    refine ⟨fun instr hinstr hid hin => ?_, fun jtbl hjtbl v hv => ?_, fun v hv => ?_⟩
    · refine isLocal_of_collected hin ?_
      unfold collectedLabels
      simp only [SortedSet.mem_ofList, List.mem_append, List.mem_flatMap]
      refine .inl (.inl (.inr ⟨instr, hinstr, ?_⟩))
      unfold instructionLabels
      dsimp only
      by_cases hbranch : instr.isBranch r.decoder = true ∨ instr.uniqueId r.decoder = .j
      · refine List.mem_append_left _ ?_
        rw [if_pos (by simpa using hbranch)]
        exact List.mem_singleton_self _
      · rw [not_or] at hbranch
        have hjal : instr.uniqueId r.decoder = .jal := by
          rcases hid with hid | hid
          · exact absurd hid hbranch.1
          · simp only [List.mem_cons, List.not_mem_nil, or_false] at hid
            exact hid.resolve_left hbranch.2
        refine List.mem_append_right _ ?_
        rw [if_pos (by rw [hjal, Bool.or_eq_true]; exact .inr rfl)]
        exact List.mem_append_left _ (List.mem_filter.mpr ⟨List.mem_singleton_self _, hin⟩)
    · have hsmall : func.vram.toNat + func.byteSize < 2 ^ 32 := hfit.small
      have hin : func.contains v = true :=
        (contains_iff hsmall).mpr (by
          simpa [Function.containsEntry, BitVec.le_def] using
            analyzeFunction_entries hanalysis jtbl hjtbl v hv)
      refine isLocal_of_collected hin ?_
      unfold collectedLabels
      simp only [SortedSet.mem_ofList, List.mem_append, List.mem_flatMap]
      exact .inl (.inr ⟨jtbl, hjtbl, hv⟩)
    · obtain ⟨hv, hin⟩ := SortedSet.mem_filter.mp hv
      refine isLocal_of_collected hin ?_
      unfold collectedLabels
      rw [SortedSet.mem_ofList]
      exact List.mem_append_right _ (SortedSet.mem_ofList.mp hv)

end Fit

/-! ### Where the items of a body go -/

/-- Items are a translation of the instruction at an index. -/
def Translates (t : Translation) (k : Nat) (core : List Item) : Prop :=
  ∃ needsLinkBranch linkBranchIndex relocIndex statics r statics',
    Done (t.processInstruction (t.instructions.drop k) k needsLinkBranch linkBranchIndex relocIndex)
      statics r core statics'

/-- **The bodies whose labels are as intended**: no label is defined twice, every label that an item
goes to is defined, the labels of addresses are those of the function, and each leads to the code of
the instruction at the address. -/
structure LabelsExact (t : Translation) (items : List Item) : Prop where
  nodup : (labelsOf items).Nodup
  closed : ∀ i ∈ items, ∀ target ∈ i.targets, target ∈ labelsOf items
  labels : ∀ v, .at_ v ∈ labelsOf items ↔ t.IsLocal v
  leads : ∀ k < t.instructions.length, t.IsLocal (t.vramAt k) → ∃ core rest,
    behind Item.label (.at_ (t.vramAt k)) items = some (core ++ rest) ∧ t.Translates k core

namespace Layout

variable {t : Translation} (h : t.Regular) (lay : t.Layout) {j : Nat} {front back : List Item}

theorem translates_core (hj : j < t.instructions.length) : t.Translates j (lay.core j) :=
  have ⟨relocIndex, hdone⟩ := (lay.turns j hj).done
  ⟨_, _, relocIndex, _, _, _, hdone⟩

theorem mem_labelsOf_blocks {l : Label} : l ∈ labelsOf (lay.blocksFrom 0) ↔
    ∃ j < t.instructions.length, l ∈ labelsOf (lay.block j) := by
  simp only [mem_labelsOf, blocksFrom, List.mem_flatMap, List.mem_range'_1, Nat.sub_zero,
    Nat.zero_add, Nat.zero_le, true_and]
  constructor
  · rintro ⟨i, ⟨j, hj, hi⟩, hl⟩
    exact ⟨j, hj, i, hi, hl⟩
  · rintro ⟨j, hj, i, hi, hl⟩
    exact ⟨i, ⟨j, hj, hi⟩, hl⟩

include h

/-- A turn that asks for the label behind the slot is not one of a slot: it does not move the
counter. -/
theorem numLinkBranches_succ (hj : j < t.instructions.length)
    (hneeds : (lay.state (j + 1)).needsLinkBranch = true) :
    (lay.state (j + 1)).numLinkBranches = (lay.state j).numLinkBranches := by
  have htransfer := (lay.items h hj).needs hneeds
  have hplain : (lay.state j).needsLinkBranch = false := by
    cases j with
    | zero =>
      rw [lay.start]
      rfl
    | succ j =>
      by_contra hstate
      obtain ⟨_, hslot⟩ := lay.slot_of_state h (Nat.lt_of_succ_lt hj)
        (.inl (Bool.not_eq_false _ ▸ hstate))
      rw [hslot] at htransfer
      cases htransfer
  rw [(lay.turns j hj).numLinkBranches, hplain]
  rfl

/-- The turn behind it writes the label. -/
theorem after_mem_block (hj : j < t.instructions.length)
    (hneeds : (lay.state (j + 1)).needsLinkBranch = true) :
    .after (lay.state j).numLinkBranches ∈ labelsOf (lay.blocksFrom 0) := by
  obtain ⟨hnext, -⟩ := lay.slot_of_state h hj (.inl hneeds)
  refine lay.mem_labelsOf_blocks.mpr ⟨j + 1, hnext, ?_⟩
  rw [lay.labelsOf_block h hnext, hneeds, lay.numLinkBranches_succ h hj hneeds]
  exact List.mem_append_right _ (List.mem_append_left _ (List.mem_singleton_self _))

/-- The items of the blocks go to labels of the function, and to labels of the blocks. -/
theorem goes_blocks {i : Item} (hi : i ∈ lay.blocksFrom 0) {target : Label}
    (htarget : target ∈ i.targets) :
    (∃ v, target = .at_ v ∧ t.IsLocal v) ∨ target ∈ labelsOf (lay.blocksFrom 0) := by
  obtain ⟨j, hrange, hi⟩ := List.mem_flatMap.mp hi
  have hj : j < t.instructions.length := by
    have hlast := (List.mem_range'_1.mp hrange).2
    omega
  unfold block turnItems at hi
  simp only [List.mem_append] at hi
  rcases hi with ((hi | hi) | hi) | hi
  · unfold skipJump at hi
    split at hi
    · rename_i hlikely
      obtain rfl := List.mem_singleton.mp hi
      obtain rfl := List.mem_singleton.mp htarget
      refine .inr (lay.mem_labelsOf_blocks.mpr ⟨j, hj, ?_⟩)
      rw [lay.labelsOf_block h hj, hlikely]
      exact List.mem_append_right _ (List.mem_append_right _ (List.mem_singleton_self _))
    · cases hi
  · rw [lay.pendingLabel_cursor h hj] at hi
    split at hi
    · obtain rfl := List.mem_singleton.mp hi
      cases htarget
    · cases hi
  · obtain ⟨body, hcore, hlabels⟩ := (lay.items h hj).labels
    rw [hcore] at hi
    rcases List.mem_append.mp hi with hi | hi
    · rcases hlabels.goes i hi target htarget with hlocal | ⟨rfl, hneeds⟩
      · exact .inl hlocal
      · exact .inr (lay.after_mem_block h hj hneeds)
    · unfold afterLabel at hi
      split at hi
      · obtain rfl := List.mem_singleton.mp hi
        cases htarget
      · cases hi
  · unfold skipLabel at hi
    split at hi
    · obtain rfl := List.mem_singleton.mp hi
      cases htarget
    · cases hi

/-- **The labels of the blocks**, between a front that ends with the label of the function and a back
without labels. -/
theorem labelsExact
    (hfront : ∃ pre, front = pre ++ [.call (.label (.at_ t.func.vram))] ∧ ∀ i ∈ pre, t.GoesLocal i)
    (hback : ∀ i ∈ back, Straight i) : t.LabelsExact (front ++ (lay.blocksFrom 0 ++ back)) := by
  obtain ⟨pre, rfl, hpre⟩ := hfront
  have hpre' : labelsOf pre = [] := labelsOf_eq_nil fun i hi => (hpre i hi).1
  have hback' : labelsOf back = [] := labelsOf_eq_nil fun i hi => (hback i hi).label
  have hfront' : ∃ pre', pre ++ [Item.call (.label (.at_ t.func.vram))] =
      pre' ++ [.call (.label (.at_ t.func.vram))] ∧ labelsOf pre' = [] := ⟨pre, rfl, hpre'⟩
  have hlabels : labelsOf (pre ++ [.call (.label (.at_ t.func.vram))] ++
      (lay.blocksFrom 0 ++ back)) = .at_ t.func.vram :: labelsOf (lay.blocksFrom 0) := by
    simp only [labelsOf_append, hpre', hback', List.append_nil, List.nil_append]
    rfl
  have hat : ∀ v, .at_ v ∈ labelsOf (pre ++ [.call (.label (.at_ t.func.vram))] ++
      (lay.blocksFrom 0 ++ back)) ↔ t.IsLocal v := by
    intro v
    rw [hlabels, List.mem_cons]
    refine or_congr ⟨Label.at_.inj, congrArg Label.at_⟩ ?_
    rw [lay.mem_labelsOf_blocks]
    constructor
    · rintro ⟨j, hj, hl⟩
      rcases lay.mem_labelsOf_block h hj hl with ⟨heq, hmem⟩ | ⟨⟨⟩, -⟩ | ⟨⟨⟩, -⟩
      exact Label.at_.inj heq ▸ hmem
    · intro hv
      obtain ⟨j, -, hj, rfl⟩ := h.aligned v hv
      refine ⟨j, hj, ?_⟩
      rw [lay.labelsOf_block h hj, if_pos hv]
      exact List.mem_append_left _ (List.mem_singleton_self _)
  refine ⟨lay.nodup_program h hfront' hback', fun i hi target htarget => ?_, hat,
    fun k hk hlocal => ?_⟩
  · have hlocal : (∃ v, target = .at_ v ∧ t.IsLocal v) ∨
        target ∈ labelsOf (lay.blocksFrom 0) := by
      rcases List.mem_append.mp hi with hi | hi
      · rcases List.mem_append.mp hi with hi | hi
        · exact .inl ((hpre i hi).2 target htarget)
        · obtain rfl := List.mem_singleton.mp hi
          cases htarget
      · rcases List.mem_append.mp hi with hi | hi
        · exact lay.goes_blocks h hi htarget
        · rw [(hback i hi).targets] at htarget
          cases htarget
    rcases hlocal with ⟨v, rfl, hv⟩ | hmem
    · exact (hat v).mpr hv
    · rw [hlabels]
      exact List.mem_cons_of_mem _ hmem
  · refine ⟨lay.core k, skipLabel (lay.state k) ++ (lay.blocksFrom (k + 1) ++ back), ?_,
      lay.translates_core hk⟩
    rw [lay.behind_at h hfront' hback' hk hlocal, codeAt, if_pos hk]

end Layout

end Translation

/-! ### The body of a function -/

/-- The items of the switch over the dispatch entries. -/
def dispatchItems (func : Function) : List Item :=
  if func.dispatchEntryVrams.isEmpty then []
  else .raw .dispatchOpen :: (dispatchLabels func).map (fun v => .raw (.dispatchCase v)) ++
    [.raw .dispatchReject]

/-- What comes before the label of a function. -/
def Recompiler.frontItems (r : Recompiler) (func : Function) : List Item :=
  .call (.functionStart func.name) ::
    ((if r.context.traceMode then [.raw .traceEntry] else []) ++ (dispatchItems func ++
      ((entryLabel func).toList.map (fun entry => .raw (.gotoEntry entry)) ++
        (func.functionHooks (-1)).toList.map fun text => .raw (.hook text))))

section Body

variable {r : Recompiler} {funcIndex : Nat} {func : Function} {tagReferenceRelocs : Bool}
  {jumpTables : List JumpTable} {statics statics' : Statics} {items : List Item}

theorem done_recompiler_call {c : Call} {u : Unit} (h : Done (r.call c) statics u items statics') :
    items = [.call c] ∧ statics' = statics := by
  unfold Recompiler.call at h
  split at h
  · exact done_write.mp h
  · exact absurd h not_done_abort

theorem done_emitDispatch {u : Unit} (h : Done (Recompiler.emitDispatch func) statics u items statics') :
    items = dispatchItems func ∧ statics' = statics := by
  unfold Recompiler.emitDispatch at h
  unfold dispatchItems
  rw [done_when] at h
  cases hempty : func.dispatchEntryVrams.isEmpty with
  | true =>
    rw [hempty] at h
    exact h
  | false =>
    rw [hempty] at h
    exact done_write.mp h

theorem done_emitPrologue {u : Unit} (h : Done (r.emitPrologue func) statics u items statics') :
    items = dispatchItems func ++
        ((entryLabel func).toList.map (fun entry => .raw (.gotoEntry entry)) ++
          (func.functionHooks (-1)).toList.map fun text => .raw (.hook text)) ++
        [.call (.label (.at_ func.vram))] ∧ statics' = statics := by
  obtain ⟨_, dispatch, s₁, _, hdispatch, hentries, rfl⟩ := done_bind.mp h
  obtain ⟨_, entries, s₂, _, hentry, hhooks, rfl⟩ := done_bind.mp hentries
  obtain ⟨_, hooks, s₃, _, hhook, hlabel, rfl⟩ := done_bind.mp hhooks
  obtain ⟨rfl, rfl⟩ := done_recompiler_call hlabel
  obtain ⟨rfl, rfl⟩ := done_write.mp hhook
  obtain ⟨rfl, rfl⟩ := done_write.mp hentry
  obtain ⟨rfl, rfl⟩ := done_emitDispatch hdispatch
  refine ⟨?_, rfl⟩
  simp only [List.append_assoc]

/-- **The body of a function**: what comes before its label, its blocks, and its end. -/
theorem exists_program (hfunc : r.context.functions[funcIndex]? = some func)
    (hstubbed : func.stubbed = false)
    (hanalysis : analyzeFunction r.decoder r.context func (decodeFrom func.vram func.words) =
      .tables jumpTables)
    (h : Done (r.recompileFunctionImpl funcIndex tagReferenceRelocs) statics () items statics') :
    ∃ (lay : (r.translation funcIndex func tagReferenceRelocs jumpTables statics).Layout)
        (fall : List Item) (statics₁ : Statics),
      items = (r.frontItems func ++ [.call (.label (.at_ func.vram))]) ++
        (lay.blocksFrom 0 ++ (fall ++ [.call .functionEnd])) ∧
      lay.statics 0 = statics ∧
      Done (r.translation funcIndex func tagReferenceRelocs jumpTables statics).emitFallthrough
        statics₁ () fall statics' := by
  unfold Recompiler.recompileFunctionImpl at h
  rw [hfunc] at h
  obtain ⟨_, start, s₁, _, hstart, htraced, rfl⟩ := done_bind.mp h
  obtain ⟨_, trace, s₂, _, htrace, hrest, rfl⟩ := done_bind.mp htraced
  obtain ⟨_, whole, s₃, last, hwhole, hend, rfl⟩ := done_bind.mp hrest
  obtain ⟨rfl, rfl⟩ := done_recompiler_call hstart
  obtain ⟨rfl, rfl⟩ := done_recompiler_call hend
  have htrace' : trace = (if r.context.traceMode then [.raw .traceEntry] else []) ∧ s₂ = s₁ := by
    rw [done_when] at htrace
    cases hmode : r.context.traceMode with
    | true =>
      rw [hmode, if_pos rfl] at htrace
      exact done_write.mp htrace
    | false =>
      rw [hmode, if_neg (by decide)] at htrace
      exact htrace
  obtain ⟨rfl, rfl⟩ := htrace'
  rw [done_when, if_pos (by simp [hstubbed])] at hwhole
  unfold Recompiler.emitBody at hwhole
  obtain ⟨_, pro, s₄, _, hprologue, hbody, rfl⟩ := done_bind.mp hwhole
  obtain ⟨rfl, rfl⟩ := done_emitPrologue hprologue
  rw [hanalysis] at hbody
  obtain ⟨read, _, s₅, _, hread, hpass, rfl⟩ := done_bind.mp hbody
  obtain ⟨rfl, rfl, rfl⟩ := done_read.mp hread
  obtain ⟨_, blocks, s₆, fall, hblocks, hfall, rfl⟩ := done_bind.mp hpass
  obtain ⟨lay, hstatics, rfl⟩ := Translation.exists_layout rfl hblocks
  refine ⟨lay, fall, s₆, ?_, hstatics, hfall⟩
  simp only [Recompiler.frontItems, List.append_assoc, List.cons_append, List.nil_append]

/-- What comes before the label goes to labels of the function. -/
theorem goesLocal_frontItems
    (hfit : (r.translation funcIndex func tagReferenceRelocs jumpTables statics).LabelsFit statics) :
    ∀ i ∈ r.frontItems func,
      (r.translation funcIndex func tagReferenceRelocs jumpTables statics).GoesLocal i := by
  have hcollected : ∀ v, v ∈ dispatchLabels func ∨ v ∈ entryLabel func →
      v ∈ collectedLabels r.decoder func (decodeFrom func.vram func.words) jumpTables statics := by
    intro v hv
    unfold collectedLabels
    simp only [SortedSet.mem_ofList, List.mem_append, Option.mem_toList]
    exact .inl (.inl (.inl hv))
  intro i hi
  unfold Recompiler.frontItems dispatchItems at hi
  simp only [List.mem_cons, List.mem_append] at hi
  rcases hi with rfl | hi | hi | hi | hi
  · exact Translation.goesLocal_of_targets rfl rfl
  · split at hi
    · obtain rfl := List.mem_singleton.mp hi
      exact Translation.goesLocal_of_targets rfl rfl
    · cases hi
  · split at hi
    · cases hi
    · simp only [List.cons_append, List.mem_cons, List.mem_append, List.mem_map,
        List.not_mem_nil, or_false] at hi
      rcases hi with rfl | ⟨v, hv, rfl⟩ | rfl
      · exact Translation.goesLocal_of_targets rfl rfl
      · refine ⟨rfl, fun target htarget => ⟨v, List.mem_singleton.mp htarget, ?_⟩⟩
        refine Translation.isLocal_of_collected ?_ (hcollected v (.inl hv))
        have hbounds := of_decide_eq_true (List.mem_filter.mp hv).2
        exact decide_eq_true ⟨BitVec.le_of_lt hbounds.1, hbounds.2⟩
      · exact Translation.goesLocal_of_targets rfl rfl
  · obtain ⟨v, hv, rfl⟩ := List.mem_map.mp hi
    have hv := Option.mem_toList.mp hv
    exact ⟨rfl, fun target htarget => ⟨v, List.mem_singleton.mp htarget,
      Translation.isLocal_of_collected (hfit.entry v hv).2 (hcollected v (.inr hv))⟩⟩
  · obtain ⟨text, -, rfl⟩ := List.mem_map.mp hi
    exact Translation.goesLocal_of_targets rfl rfl

theorem straight_emitFallthrough {t : Translation} :
    Writes Translation.Straight t.emitFallthrough := by
  unfold Translation.emitFallthrough
  split
  · split
    · exact writes_pure _
    · refine Writes.when ?_
      refine (Translation.straight_raw rfl rfl).bind fun _ => Writes.bind ?_ fun _ =>
        Translation.straight_emitTraceReturn.bind fun _ => Translation.straight_raw rfl rfl
      split
      · split <;> exact Translation.straight_raw rfl rfl
      · exact Translation.straight_raw rfl rfl
  · exact writes_pure _

end Body

/-- A count down from two: `addiu $t0, $zero, 2`, `addiu $t0, $t0, -1`, `bne $t0, $zero` to the
second instruction, `nop`, `jr $ra`, `nop`. -/
def countDown : List (BitVec 32) :=
  [0x24080002, 0x2508FFFF, 0x1500FFFE, 0x00000000, 0x03E00008, 0x00000000]

section CountDown

theorem analyze_countDown : analyzeFunction (sampleRecompiler countDown).decoder
    (sampleRecompiler countDown).context (sampleFunction countDown)
    (decodeFrom (sampleFunction countDown).vram (sampleFunction countDown).words) = .tables [] := by
  decide +kernel

theorem slots_countDown {k : Nat} {instr : InstructionCpu}
    (hk : (decodeFrom (sampleFunction countDown).vram (sampleFunction countDown).words)[k]? =
      some instr) (htransfer : isTransfer (sampleId instr.word) = true) :
    ∃ next, (decodeFrom (sampleFunction countDown).vram (sampleFunction countDown).words)[k + 1]? =
      some next ∧ isTransfer (sampleId next.word) = false := by
  have hslots : ∀ k < 6, ∀ instr ∈ (decodeFrom (sampleFunction countDown).vram
      (sampleFunction countDown).words)[k]?, isTransfer (sampleId instr.word) = true →
      ∃ next ∈ (decodeFrom (sampleFunction countDown).vram
        (sampleFunction countDown).words)[k + 1]?, isTransfer (sampleId next.word) = false := by
    decide
  have hlt : k < 6 := (List.getElem?_eq_some_iff.mp hk).1
  exact hslots k hlt instr hk htransfer

theorem labelsFit_countDown : ((sampleRecompiler countDown).translation 0 (sampleFunction countDown)
    false [] []).LabelsFit [] := by
  refine ⟨by decide, by decide, fun v hv => absurd hv List.not_mem_nil, ?_,
    fun jtbl hjtbl => absurd hjtbl List.not_mem_nil, ?_, fun _ _ hk => slots_countDown hk⟩
  · rintro v ⟨⟩
  · have hnone : staticLocalTailcallLabels (sampleFunction countDown) [] = [] := by decide
    rintro v hv
    exact absurd (hnone ▸ hv) List.not_mem_nil

theorem done_countDown : Done ((sampleRecompiler countDown).recompileFunctionImpl 0 false) [] ()
    ((sampleRecompiler countDown).recompileFunctionImpl 0 false []).items
    ((sampleRecompiler countDown).recompileFunctionImpl 0 false []).state := by
  have hending : ((sampleRecompiler countDown).recompileFunctionImpl 0 false []).ending =
      .done () := by decide +kernel
  rw [Done, ← hending]

end CountDown

end N64Recomp
