import N64Recomp.LiveGenerator.Linking
import Mathlib.Data.List.Forall2
import Mathlib.Data.List.Nodup

/-!
# The containers of the live generator

Every container of the generator is about the items of one kind, and says of each of them either what
it is bound to or that it waits to be bound. What waits for the end of a function is in the part of
the code that is being assembled, and is empty when the next function starts.

## Main definitions

* `GotosLinked`, `CallsLinked`, `ErrorsLinked`, `TablesLinked`, `BranchesLinked`: the containers
* `LiveState.Linked`, `LiveState.Settled`: all of them, and those that are empty between functions
* `itemsOf`, `EmittedFunction.items`: what a call and a function emit

## Main results

* `LiveState.Linked.emitCall`, `LiveState.Linked.emitFunction`: what one call and one function keep
* `LiveState.items_emitFunctions`: the code of a batch
-/

namespace N64Recomp

open Sljit

section Containers

variable {code : LiveCode} {i : LiveItem} {p q jump here : Nat}

/-! ### Labels and gotos -/

/-- The labels and the pending jumps of the current function; any other `goto` is bound. -/
structure GotosLinked (code : LiveCode) (labels pending : List (Label × Nat)) : Prop where
  known : ∀ t q, (t, q) ∈ labels → code.items[q]? = some (.label t) ∧
    Current LiveItem.isEntry code.items q
  waiting : ∀ t p, (t, p) ∈ pending → code.items[p]? = some (.goto t) ∧
    Current LiveItem.isEntry code.items p
  bound : ∀ (p : Nat) t, code.items[p]? = some (.goto t) → (t, p) ∈ pending ∨
    ∃ q, code.target p = some q ∧ code.items[q]? = some (.label t) ∧ SameFunction code p q

namespace GotosLinked

variable {labels pending : List (Label × Nat)}

theorem emit_other (h : GotosLinked code labels pending) (hentry : i.isEntry = false)
    (hgoto : ∀ t, i ≠ .goto t) : GotosLinked (code.emit i) labels pending where
  known t q hq := by
    obtain ⟨hitem, hcurrent⟩ := h.known t q hq
    refine ⟨getElem?_append_of_eq_some hitem, hcurrent.append ?_⟩
    simpa using hentry
  waiting t p hp := by
    obtain ⟨hitem, hcurrent⟩ := h.waiting t p hp
    refine ⟨getElem?_append_of_eq_some hitem, hcurrent.append ?_⟩
    simpa using hentry
  bound p t hp := by
    rcases getElem?_concat_cases hp with hp | ⟨-, rfl⟩
    · rcases h.bound p t hp with hp' | ⟨q, htarget, hlabel, hsame⟩
      · exact .inl hp'
      · exact .inr ⟨q, htarget, getElem?_append_of_eq_some hlabel,
          hsame.append (lt_length_of_eq_some hp) (lt_length_of_eq_some hlabel)⟩
    · exact absurd rfl (hgoto t)

/-- A function starts when nothing waits. -/
theorem emit_entry (h : GotosLinked code [] []) (hgoto : ∀ t, i ≠ .goto t) :
    GotosLinked (code.emit i) [] [] := by
  refine ⟨nofun, nofun, fun p t hp => ?_⟩
  rcases getElem?_concat_cases hp with hp | ⟨-, rfl⟩
  · rcases h.bound p t hp with hp' | ⟨q, htarget, hlabel, hsame⟩
    · cases hp'
    · exact .inr ⟨q, htarget, getElem?_append_of_eq_some hlabel,
        hsame.append (lt_length_of_eq_some hp) (lt_length_of_eq_some hlabel)⟩
  · exact absurd rfl (hgoto t)

theorem bind_other (h : GotosLinked code labels pending)
    (hjump : ∀ t, code.items[jump]? ≠ some (.goto t)) :
    GotosLinked (code.bind jump q) labels pending where
  known := h.known
  waiting := h.waiting
  bound p t hp := by
    rcases h.bound p t hp with hp' | ⟨q', htarget, hlabel⟩
    · exact .inl hp'
    · refine .inr ⟨q', ?_, hlabel⟩
      rw [Assembly.target_bind, if_neg, htarget]
      rintro rfl
      exact hjump t hp

/-- A `goto` to a label that the function has. -/
theorem goto_bound (h : GotosLinked code labels pending) {t : Label} (ht : (t, q) ∈ labels) :
    GotosLinked ((code.emit (.goto t)).bind code.here q) labels pending := by
  obtain ⟨hlabel, hcurrent⟩ := h.known t q ht
  have hnew : ∀ i ∈ [LiveItem.goto t], i.isEntry = false := by simp [LiveItem.isEntry]
  refine ⟨fun t q hq => ?_, fun t p hp => ?_, fun p t' hp => ?_⟩
  · obtain ⟨hitem, hcurrent⟩ := h.known t q hq
    exact ⟨getElem?_append_of_eq_some hitem, hcurrent.append hnew⟩
  · obtain ⟨hitem, hcurrent⟩ := h.waiting t p hp
    exact ⟨getElem?_append_of_eq_some hitem, hcurrent.append hnew⟩
  · rw [Assembly.target_bind]
    rcases getElem?_concat_cases hp with hp | ⟨rfl, heq⟩
    · have hlt : p < code.here := lt_length_of_eq_some hp
      rw [if_neg (Nat.ne_of_lt hlt)]
      rcases h.bound p t' hp with hp' | ⟨q', htarget, hlabel', hsame⟩
      · exact .inl hp'
      · exact .inr ⟨q', htarget, getElem?_append_of_eq_some hlabel',
          hsame.append hlt (lt_length_of_eq_some hlabel')⟩
    · cases heq
      refine .inr ⟨q, if_pos rfl, getElem?_append_of_eq_some hlabel, ?_⟩
      exact samePart_of_current (current_of_le hnew (Nat.le_succ _)) (hcurrent.append hnew)

/-- A `goto` that waits for its label. -/
theorem goto_pending (h : GotosLinked code labels pending) (t : Label) :
    GotosLinked (code.emit (.goto t)) labels (pending ++ [(t, code.here)]) := by
  have hnew : ∀ i ∈ [LiveItem.goto t], i.isEntry = false := by simp [LiveItem.isEntry]
  refine ⟨fun t q hq => ?_, fun t' p hp => ?_, fun p t' hp => ?_⟩
  · obtain ⟨hitem, hcurrent⟩ := h.known t q hq
    exact ⟨getElem?_append_of_eq_some hitem, hcurrent.append hnew⟩
  · rcases List.mem_append.mp hp with hp | hp
    · obtain ⟨hitem, hcurrent⟩ := h.waiting t' p hp
      exact ⟨getElem?_append_of_eq_some hitem, hcurrent.append hnew⟩
    · cases List.mem_singleton.mp hp
      exact ⟨getElem?_concat_length _ _, current_of_le hnew (Nat.le_succ _)⟩
  · rcases getElem?_concat_cases hp with hp | ⟨rfl, heq⟩
    · rcases h.bound p t' hp with hp' | ⟨q, htarget, hlabel, hsame⟩
      · exact .inl (List.mem_append_left _ hp')
      · exact .inr ⟨q, htarget, getElem?_append_of_eq_some hlabel,
          hsame.append (lt_length_of_eq_some hp) (lt_length_of_eq_some hlabel)⟩
    · cases heq
      exact .inl (List.mem_append_right _ (List.mem_singleton_self _))

/-- A label binds what waited for it. -/
theorem label (h : GotosLinked code labels pending) (l : Label) :
    GotosLinked ((code.emit (.label l)).bindAll ((pending.filter (·.1 = l)).map (·.2)) code.here)
      (if (labels.lookup l).isSome then labels else labels ++ [(l, code.here)])
      (pending.filter (·.1 ≠ l)) := by
  have hnew : ∀ i ∈ [LiveItem.label l], i.isEntry = false := by simp [LiveItem.isEntry]
  have hlabels : ∀ t q, (t, q) ∈ labels →
      (code.items ++ [.label l])[q]? = some (.label t) ∧
        Current LiveItem.isEntry (code.items ++ [.label l]) q := by
    intro t q hq
    obtain ⟨hitem, hcurrent⟩ := h.known t q hq
    exact ⟨getElem?_append_of_eq_some hitem, hcurrent.append hnew⟩
  have hhere : (code.items ++ [.label l])[code.here]? = some (.label l) ∧
      Current LiveItem.isEntry (code.items ++ [.label l]) code.here :=
    ⟨getElem?_concat_length _ _, current_of_le hnew (Nat.le_succ _)⟩
  constructor
  · rw [Assembly.items_bindAll]
    intro t q hq
    split_ifs at hq
    · exact hlabels t q hq
    · rcases List.mem_append.mp hq with hq | hq
      · exact hlabels t q hq
      · cases List.mem_singleton.mp hq
        exact hhere
  · rw [Assembly.items_bindAll]
    intro t p hp
    obtain ⟨hitem, hcurrent⟩ := h.waiting t p (List.mem_filter.mp hp).1
    exact ⟨getElem?_append_of_eq_some hitem, hcurrent.append hnew⟩
  · unfold SameFunction
    rw [Assembly.items_bindAll]
    intro p t hp
    rw [Assembly.target_bindAll]
    rcases getElem?_concat_cases hp with hp | ⟨-, hp⟩
    · by_cases hwaits : p ∈ (pending.filter (·.1 = l)).map (·.2)
      · -- the jump waited for this label
        obtain ⟨⟨t', p'⟩, hmem, hp'⟩ := List.mem_map.mp hwaits
        obtain ⟨hpending, ht⟩ := List.mem_filter.mp hmem
        have ht : t' = l := of_decide_eq_true ht
        change p' = p at hp'
        subst hp'
        obtain ⟨hitem, hcurrent⟩ := h.waiting t' p' hpending
        rw [hp] at hitem
        cases hitem
        subst ht
        exact .inr ⟨code.here, if_pos hwaits, hhere.1,
          samePart_of_current (hcurrent.append hnew) hhere.2⟩
      · rw [if_neg hwaits]
        rcases h.bound p t hp with hp' | ⟨q, htarget, hlabel, hsame⟩
        · refine .inl (List.mem_filter.mpr ⟨hp', decide_eq_true ?_⟩)
          rintro rfl
          exact hwaits (List.mem_map.mpr ⟨(t, p), List.mem_filter.mpr ⟨hp', decide_eq_true rfl⟩, rfl⟩)
        · exact .inr ⟨q, htarget, getElem?_append_of_eq_some hlabel,
            hsame.append (lt_length_of_eq_some hp) (lt_length_of_eq_some hlabel)⟩
    · cases hp

/-- At the end of a function its labels are dropped. -/
theorem drop_labels (h : GotosLinked code labels pending) : GotosLinked code [] pending :=
  ⟨nofun, h.waiting, h.bound⟩

end GotosLinked

/-! ### Calls and entries -/

/-- Every call waits for the end of the batch; the labels of functions are their entries. -/
structure CallsLinked (items : List LiveItem) (innerCalls : List (Nat × Nat))
    (funcLabels : List (Option Nat)) : Prop where
  waits : ∀ (p : Nat) k, items[p]? = some (.call k) → (k, p) ∈ innerCalls
  isCall : ∀ k p, (k, p) ∈ innerCalls → items[p]? = some (.call k)
  isEntry : ∀ (k q : Nat), funcLabels[k]? = some (some q) → ∃ name, items[q]? = some (.entry k name)

namespace CallsLinked

variable {items : List LiveItem} {innerCalls : List (Nat × Nat)} {funcLabels : List (Option Nat)}

theorem emit_other (h : CallsLinked items innerCalls funcLabels) (hcall : ∀ k, i ≠ .call k) :
    CallsLinked (items ++ [i]) innerCalls funcLabels where
  waits p k hp := by
    rcases getElem?_concat_cases hp with hp | ⟨-, rfl⟩
    · exact h.waits p k hp
    · exact absurd rfl (hcall k)
  isCall k p hp := getElem?_append_of_eq_some (h.isCall k p hp)
  isEntry k q hq := by
    obtain ⟨name, hentry⟩ := h.isEntry k q hq
    exact ⟨name, getElem?_append_of_eq_some hentry⟩

theorem emit_call (h : CallsLinked items innerCalls funcLabels) (k : Nat) :
    CallsLinked (items ++ [.call k]) (innerCalls ++ [(k, items.length)]) funcLabels where
  waits p k' hp := by
    rcases getElem?_concat_cases hp with hp | ⟨rfl, heq⟩
    · exact List.mem_append_left _ (h.waits p k' hp)
    · cases heq
      exact List.mem_append_right _ (List.mem_singleton_self _)
  isCall k' p hp := by
    rcases List.mem_append.mp hp with hp | hp
    · exact getElem?_append_of_eq_some (h.isCall k' p hp)
    · cases List.mem_singleton.mp hp
      exact getElem?_concat_length _ _
  isEntry k' q hq := by
    obtain ⟨name, hentry⟩ := h.isEntry k' q hq
    exact ⟨name, getElem?_append_of_eq_some hentry⟩

theorem emit_entry (h : CallsLinked items innerCalls funcLabels) (k : Nat) (name : Str) :
    CallsLinked (items ++ [.entry k name]) innerCalls (funcLabels.set k (some items.length)) where
  waits p k' hp := by
    rcases getElem?_concat_cases hp with hp | ⟨-, heq⟩
    · exact h.waits p k' hp
    · cases heq
  isCall k' p hp := getElem?_append_of_eq_some (h.isCall k' p hp)
  isEntry k' q hq := by
    rw [List.getElem?_set] at hq
    split_ifs at hq with hk
    · cases hq
      subst hk
      exact ⟨name, getElem?_concat_length _ _⟩
    · obtain ⟨name', hentry⟩ := h.isEntry k' q hq
      exact ⟨name', getElem?_append_of_eq_some hentry⟩

end CallsLinked

/-! ### The errors of switches -/

/-- Every bounds check waits for its landing pad. -/
structure ErrorsLinked (items : List LiveItem) (errors : List SwitchErrorJump) : Prop where
  waits : ∀ (p : Nat) jtbl, items[p]? = some (.bound jtbl) → ∃ e ∈ errors, e.jump = p
  isBound : ∀ e ∈ errors, ∃ jtbl, items[e.jump]? = some (.bound jtbl) ∧
    e.instrVram = jtbl.jrVram ∧ e.jtblVram = jtbl.vram

namespace ErrorsLinked

variable {items : List LiveItem} {errors : List SwitchErrorJump}

theorem emit_other (h : ErrorsLinked items errors) (hbound : ∀ jtbl, i ≠ .bound jtbl) :
    ErrorsLinked (items ++ [i]) errors where
  waits p jtbl hp := by
    rcases getElem?_concat_cases hp with hp | ⟨-, rfl⟩
    · exact h.waits p jtbl hp
    · exact absurd rfl (hbound jtbl)
  isBound e he := by
    obtain ⟨jtbl, hitem, hvrams⟩ := h.isBound e he
    exact ⟨jtbl, getElem?_append_of_eq_some hitem, hvrams⟩

theorem emit_bound (h : ErrorsLinked items errors) (jtbl : JumpTable) :
    ErrorsLinked (items ++ [.bound jtbl])
      (errors ++ [⟨jtbl.jrVram, jtbl.vram, items.length⟩]) where
  waits p jtbl' hp := by
    rcases getElem?_concat_cases hp with hp | ⟨rfl, -⟩
    · obtain ⟨e, he, hjump⟩ := h.waits p jtbl' hp
      exact ⟨e, List.mem_append_left _ he, hjump⟩
    · exact ⟨_, List.mem_append_right _ (List.mem_singleton_self _), rfl⟩
  isBound e he := by
    rcases List.mem_append.mp he with he | he
    · obtain ⟨jtbl', hitem, hvrams⟩ := h.isBound e he
      exact ⟨jtbl', getElem?_append_of_eq_some hitem, hvrams⟩
    · cases List.mem_singleton.mp he
      exact ⟨jtbl, getElem?_concat_length _ _, rfl, rfl⟩

end ErrorsLinked

/-! ### Tables -/

/-- The cases of a table are at their labels, in one function with its jump. -/
def CasesLinked (items : List LiveItem) (p : Nat) (jtbl : JumpTable) (ls : List (Option Nat)) : Prop :=
  ∀ (k : Nat) entry, jtbl.entries[k]? = some entry → ∃ q, ls[k]? = some (some q) ∧
    items[q]? = some (.label (.at_ entry)) ∧ SamePart LiveItem.isEntry items p q

/-- Every table has been given to the output or waits for the end of its function. -/
structure TablesLinked (items : List LiveItem) (switchLabels : List (List Label))
    (pending : List Nat) (unlinked : List (List (Option Nat) × Nat)) : Prop where
  waiting : List.Forall₂ (fun cases p => ∃ jtbl : JumpTable, items[p]? = some (.tableJump jtbl) ∧
    cases = jtbl.entries.map .at_ ∧ Current LiveItem.isEntry items p) switchLabels pending
  given : ∀ (p : Nat) jtbl, items[p]? = some (.tableJump jtbl) →
    p ∈ pending ∨ ∃ ls, (ls, p) ∈ unlinked
  linked : ∀ ls p, (ls, p) ∈ unlinked → ∃ jtbl, items[p]? = some (.tableJump jtbl) ∧
    CasesLinked items p jtbl ls
  nodup : (unlinked.map (·.2) ++ pending).Nodup

namespace TablesLinked

variable {items : List LiveItem} {switchLabels : List (List Label)} {pending : List Nat}
  {unlinked : List (List (Option Nat) × Nat)}

theorem casesLinked_append {l : List LiveItem} {jtbl : JumpTable} {ls : List (Option Nat)}
    (h : CasesLinked items p jtbl ls) (hp : p < items.length) :
    CasesLinked (items ++ l) p jtbl ls := by
  intro k entry hentry
  obtain ⟨q, hq, hlabel, hsame⟩ := h k entry hentry
  exact ⟨q, hq, getElem?_append_of_eq_some hlabel, hsame.append hp (lt_length_of_eq_some hlabel)⟩

theorem linked_append (h : TablesLinked items switchLabels pending unlinked) (l : List LiveItem)
    (ls : List (Option Nat)) (p : Nat) (hp : (ls, p) ∈ unlinked) :
    ∃ jtbl, (items ++ l)[p]? = some (.tableJump jtbl) ∧ CasesLinked (items ++ l) p jtbl ls := by
  obtain ⟨jtbl, hitem, hcases⟩ := h.linked ls p hp
  exact ⟨jtbl, getElem?_append_of_eq_some hitem,
    casesLinked_append hcases (lt_length_of_eq_some hitem)⟩

/-- What is known of a table is known of its place in the code so far. -/
theorem lt_length (h : TablesLinked items switchLabels pending unlinked)
    (hp : p ∈ unlinked.map (·.2) ++ pending) : p < items.length := by
  rcases List.mem_append.mp hp with hp | hp
  · obtain ⟨⟨ls, p⟩, hmem, rfl⟩ := List.mem_map.mp hp
    obtain ⟨jtbl, hitem, -⟩ := h.linked ls p hmem
    exact lt_length_of_eq_some hitem
  · rw [← List.map_snd_zip (Nat.le_of_eq h.waiting.length_eq.symm)] at hp
    obtain ⟨⟨cases, p⟩, hmem, rfl⟩ := List.mem_map.mp hp
    obtain ⟨jtbl, hitem, -⟩ := (List.forall₂_iff_zip.mp h.waiting).2 hmem
    exact lt_length_of_eq_some hitem

theorem emit_other (h : TablesLinked items switchLabels pending unlinked)
    (hentry : i.isEntry = false) (htable : ∀ jtbl, i ≠ .tableJump jtbl) :
    TablesLinked (items ++ [i]) switchLabels pending unlinked where
  waiting := by
    refine h.waiting.imp fun cases p hp => ?_
    obtain ⟨jtbl, hitem, hcases, hcurrent⟩ := hp
    exact ⟨jtbl, getElem?_append_of_eq_some hitem, hcases, hcurrent.append (by simpa using hentry)⟩
  given p jtbl hp := by
    rcases getElem?_concat_cases hp with hp | ⟨-, rfl⟩
    · exact h.given p jtbl hp
    · exact absurd rfl (htable jtbl)
  linked := h.linked_append [i]
  nodup := h.nodup

theorem emit_entry (h : TablesLinked items [] [] unlinked) (htable : ∀ jtbl, i ≠ .tableJump jtbl) :
    TablesLinked (items ++ [i]) [] [] unlinked where
  waiting := .nil
  given p jtbl hp := by
    rcases getElem?_concat_cases hp with hp | ⟨-, rfl⟩
    · exact h.given p jtbl hp
    · exact absurd rfl (htable jtbl)
  linked := h.linked_append [i]
  nodup := h.nodup

theorem emit_table (h : TablesLinked items switchLabels pending unlinked) (jtbl : JumpTable) :
    TablesLinked (items ++ [.tableJump jtbl]) (switchLabels ++ [jtbl.entries.map .at_])
      (pending ++ [items.length]) unlinked where
  waiting := by
    have hnew : ∀ i ∈ [LiveItem.tableJump jtbl], i.isEntry = false := by simp [LiveItem.isEntry]
    refine List.rel_append (h.waiting.imp fun cases p hp => ?_) (.cons ?_ .nil)
    · obtain ⟨jtbl, hitem, hcases, hcurrent⟩ := hp
      exact ⟨jtbl, getElem?_append_of_eq_some hitem, hcases, hcurrent.append hnew⟩
    · exact ⟨jtbl, getElem?_concat_length _ _, rfl, current_of_le hnew (Nat.le_succ _)⟩
  given p jtbl' hp := by
    rcases getElem?_concat_cases hp with hp | ⟨rfl, -⟩
    · exact (h.given p jtbl' hp).imp_left (List.mem_append_left _)
    · exact .inl (List.mem_append_right _ (List.mem_singleton_self _))
  linked := h.linked_append _
  nodup := by
    rw [← List.append_assoc]
    refine h.nodup.append (List.nodup_singleton _) fun p hp hp' => ?_
    rw [List.mem_singleton.mp hp'] at hp
    exact absurd (h.lt_length hp) (Nat.lt_irrefl _)

/-- The labels of the cases, when none is missing. -/
theorem caseLabels_eq {labels : List (Label × Nat)} {cases : List Label}
    (hcases : ∀ l ∈ cases, (labels.lookup l).isSome) :
    LiveState.caseLabels labels cases = cases.map fun l => labels.lookup l := by
  have hall : (cases.map fun l => labels.lookup l).takeWhile Option.isSome =
      cases.map fun l => labels.lookup l := by
    refine List.takeWhile_eq_self_iff.mpr fun x hx => ?_
    obtain ⟨l, hl, rfl⟩ := List.mem_map.mp hx
    exact hcases l hl
  unfold LiveState.caseLabels
  dsimp only
  rw [hall, List.length_map, Nat.sub_self]
  exact List.append_nil _

/-- **At the end of a function its tables are linked**, when it has the labels of their cases. -/
theorem functionEnd {labels : List (Label × Nat)}
    (h : TablesLinked items switchLabels pending unlinked)
    (hlabels : ∀ t q, (t, q) ∈ labels →
      items[q]? = some (.label t) ∧ Current LiveItem.isEntry items q)
    (hfound : ∀ cases ∈ switchLabels, ∀ l ∈ cases, (labels.lookup l).isSome) :
    TablesLinked items [] []
      (unlinked ++ (switchLabels.map (LiveState.caseLabels labels)).zip pending) := by
  have hlength : switchLabels.length = pending.length := h.waiting.length_eq
  have hsnd : ((switchLabels.map (LiveState.caseLabels labels)).zip pending).map (·.2) = pending := by
    rw [List.map_snd_zip]
    rw [List.length_map, hlength]
  refine ⟨.nil, fun p jtbl hp => ?_, fun ls p hp => ?_, ?_⟩
  · rcases h.given p jtbl hp with hp' | ⟨ls, hls⟩
    · rw [← hsnd] at hp'
      obtain ⟨⟨ls, p⟩, hmem, rfl⟩ := List.mem_map.mp hp'
      exact .inr ⟨ls, List.mem_append_right _ hmem⟩
    · exact .inr ⟨ls, List.mem_append_left _ hls⟩
  · rcases List.mem_append.mp hp with hp | hp
    · exact h.linked ls p hp
    · rw [List.zip_map_left] at hp
      obtain ⟨⟨cases, p⟩, hmem, heq⟩ := List.mem_map.mp hp
      cases heq
      obtain ⟨jtbl, hitem, rfl, hcurrent⟩ := (List.forall₂_iff_zip.mp h.waiting).2 hmem
      refine ⟨jtbl, hitem, fun k entry hentry => ?_⟩
      have hcases := hfound _ (List.of_mem_zip hmem).1
      have hlookup := hcases (.at_ entry) (List.mem_map.mpr ⟨entry, List.mem_of_getElem? hentry, rfl⟩)
      obtain ⟨q, hq⟩ := Option.isSome_iff_exists.mp hlookup
      obtain ⟨l₁, l₂, hsplit, -⟩ := List.lookup_eq_some_iff.mp hq
      obtain ⟨hlabel, hcurrent'⟩ := hlabels (.at_ entry) q (by simp [hsplit])
      refine ⟨q, ?_, hlabel, samePart_of_current hcurrent hcurrent'⟩
      simp only [caseLabels_eq hcases, List.getElem?_map, hentry, Option.map_some, hq]
  · rw [List.append_nil, List.map_append, hsnd]
    exact h.nodup

end TablesLinked

/-! ### Branches -/

/-- No branch is opened or closed at a place. -/
def NoBranchAt (items : List LiveItem) (r : Nat) : Prop :=
  items[r]? ≠ some .branch ∧ items[r]? ≠ some .closing

/-- The open branch, and those that have been closed. -/
structure BranchesLinked (code : LiveCode) (cur : Option Nat) : Prop where
  waiting : ∀ p, cur = some p → code.items[p]? = some .branch ∧ code.target p = none ∧
    ∀ r, p < r → NoBranchAt code.items r
  closed : ∀ p q : Nat, code.items[p]? = some .branch → code.target p = some q →
    p < q ∧ code.items[q]? = some .closing ∧ ∀ r, p < r → r < q → NoBranchAt code.items r
  unbound : ∀ p, code.items.length ≤ p → code.target p = none

theorem NoBranchAt.concat {items : List LiveItem} {r : Nat} (h : NoBranchAt items r)
    (hbranch : i ≠ .branch) (hclosing : i ≠ .closing) : NoBranchAt (items ++ [i]) r := by
  constructor
  · intro hr
    rcases getElem?_concat_cases hr with hr | ⟨-, hi⟩
    · exact h.1 hr
    · exact hbranch hi.symm
  · intro hr
    rcases getElem?_concat_cases hr with hr | ⟨-, hi⟩
    · exact h.2 hr
    · exact hclosing hi.symm

theorem noBranchAt_append {items l : List LiveItem} {r : Nat} (hr : r < items.length) :
    NoBranchAt (items ++ l) r ↔ NoBranchAt items r := by
  unfold NoBranchAt
  rw [List.getElem?_append_left hr]

namespace BranchesLinked

variable {cur : Option Nat}

theorem closed_append (h : BranchesLinked code cur) (l : List LiveItem)
    (hp : code.items[p]? = some .branch) (hq : code.target p = some q) :
    p < q ∧ (code.items ++ l)[q]? = some .closing ∧
      ∀ r, p < r → r < q → NoBranchAt (code.items ++ l) r := by
  obtain ⟨hlt, hclosing, hbetween⟩ := h.closed p q hp hq
  refine ⟨hlt, getElem?_append_of_eq_some hclosing, fun r hr hrq => ?_⟩
  rw [noBranchAt_append (Nat.lt_trans hrq (lt_length_of_eq_some hclosing))]
  exact hbetween r hr hrq

theorem emit_other (h : BranchesLinked code cur) (hbranch : i ≠ .branch) (hclosing : i ≠ .closing) :
    BranchesLinked (code.emit i) cur where
  waiting p hp := by
    obtain ⟨hitem, htarget, hbehind⟩ := h.waiting p hp
    exact ⟨getElem?_append_of_eq_some hitem, htarget,
      fun r hr => (hbehind r hr).concat hbranch hclosing⟩
  closed p q hp hq := by
    rcases getElem?_concat_cases hp with hp | ⟨-, hi⟩
    · exact h.closed_append [i] hp hq
    · exact absurd hi.symm hbranch
  unbound p hp := by
    rw [Assembly.items_emit, List.length_append] at hp
    exact h.unbound p (Nat.le_of_succ_le hp)

/-- Every item of a list is emitted. -/
theorem emit_branch (h : BranchesLinked code none) :
    BranchesLinked (code.emit .branch) (some code.here) where
  waiting p hp := by
    cases hp
    refine ⟨getElem?_concat_length _ _, h.unbound _ (Nat.le_refl _), fun r hr => ?_⟩
    have hnone : (code.items ++ [LiveItem.branch])[r]? = none := by
      refine List.getElem?_eq_none ?_
      rw [List.length_append, List.length_singleton]
      exact hr
    unfold NoBranchAt
    rw [Assembly.items_emit, hnone]
    exact ⟨nofun, nofun⟩
  closed p q hp hq := by
    rcases getElem?_concat_cases hp with hp | ⟨rfl, -⟩
    · exact h.closed_append _ hp hq
    · rw [Assembly.target_emit, h.unbound _ (Nat.le_refl _)] at hq
      cases hq
  unbound p hp := by
    rw [Assembly.items_emit, List.length_append] at hp
    exact h.unbound p (Nat.le_of_succ_le hp)

theorem close (h : BranchesLinked code (some jump)) :
    BranchesLinked ((code.emit .closing).bind jump code.here) none where
  waiting p hp := by cases hp
  closed p q hp hq := by
    rw [Assembly.target_bind] at hq
    rcases getElem?_concat_cases hp with hold | ⟨-, hi⟩
    · split_ifs at hq with hjump
      · cases hq
        subst hjump
        refine ⟨lt_length_of_eq_some hold, getElem?_concat_length _ _, fun r hr hrq => ?_⟩
        rw [Assembly.items_bind, Assembly.items_emit, noBranchAt_append hrq]
        exact (h.waiting p rfl).2.2 r hr
      · exact h.closed_append _ hold hq
    · cases hi
  unbound p hp := by
    rw [Assembly.items_bind, Assembly.items_emit, List.length_append] at hp
    have hlt := lt_length_of_eq_some (h.waiting jump rfl).1
    rw [Assembly.target_bind, if_neg (by omega)]
    exact h.unbound p (Nat.le_of_succ_le hp)

theorem bind_other (h : BranchesLinked code cur) (hlt : jump < code.items.length)
    (hjump : code.items[jump]? ≠ some .branch) : BranchesLinked (code.bind jump q) cur where
  waiting p hp := by
    obtain ⟨hitem, htarget, hbehind⟩ := h.waiting p hp
    refine ⟨hitem, ?_, hbehind⟩
    rw [Assembly.target_bind, if_neg, htarget]
    rintro rfl
    exact hjump hitem
  closed p q' hp hq := by
    rw [Assembly.target_bind, if_neg] at hq
    · exact h.closed p q' hp hq
    · rintro rfl
      exact hjump hp
  unbound p hp := by
    rw [Assembly.target_bind, if_neg]
    · exact h.unbound p hp
    · rintro rfl
      exact absurd hlt (Nat.not_lt.mpr hp)

theorem bindAll_other {jumps : List Nat} (h : BranchesLinked code cur)
    (hjumps : ∀ jump ∈ jumps, jump < code.items.length ∧ code.items[jump]? ≠ some .branch) :
    BranchesLinked (code.bindAll jumps q) cur := by
  induction jumps generalizing code with
  | nil => exact h
  | cons jump jumps ih =>
    obtain ⟨hlt, hitem⟩ := hjumps jump List.mem_cons_self
    exact ih (h.bind_other hlt hitem) fun jump' hjump' => hjumps jump' (List.mem_cons_of_mem _ hjump')

end BranchesLinked

end Containers

/-! ### The generator -/

/-- What the containers of the generator say of its code. -/
structure LiveState.Linked (s : LiveState) : Prop where
  gotos : GotosLinked s.code s.labels s.pendingJumps
  calls : CallsLinked s.code.items s.innerCalls s.funcLabels
  errors : ErrorsLinked s.code.items s.switchErrorJumps
  tables : TablesLinked s.code.items s.switchJumpLabels s.pendingJumpTables s.unlinkedJumpTables
  branches : BranchesLinked s.code s.curBranchJump
  /-- The jump through a table follows its bounds check. -/
  adjacent : ∀ (p : Nat) jtbl, s.code.items[p]? = some (.bound jtbl) →
    s.code.items[p + 1]? = some (.tableJump jtbl)

namespace LiveState

variable {s : LiveState}

theorem linked_start (numFuncs : Nat) : (start numFuncs).Linked where
  gotos := ⟨nofun, nofun, nofun⟩
  calls := ⟨nofun, nofun, fun k q hq => by
    have hmem := List.mem_of_getElem? hq
    cases List.eq_of_mem_replicate hmem⟩
  errors := ⟨nofun, nofun⟩
  tables := ⟨.nil, nofun, nofun, .nil⟩
  branches := ⟨nofun, nofun, fun _ _ => rfl⟩
  adjacent := nofun

theorem adjacent_concat {items : List LiveItem} {i : LiveItem}
    (h : ∀ (p : Nat) jtbl, items[p]? = some (.bound jtbl) → items[p + 1]? = some (.tableJump jtbl))
    (hi : ∀ jtbl, i ≠ .bound jtbl) (p : Nat) (jtbl : JumpTable)
    (hp : (items ++ [i])[p]? = some (.bound jtbl)) :
    (items ++ [i])[p + 1]? = some (.tableJump jtbl) := by
  rcases getElem?_concat_cases hp with hp | ⟨-, hp⟩
  · exact getElem?_append_of_eq_some (h p jtbl hp)
  · exact absurd hp.symm (hi jtbl)

theorem Linked.emit_straight (h : s.Linked) (c : Call) : (s.emit (.straight c)).Linked where
  gotos := h.gotos.emit_other rfl nofun
  calls := h.calls.emit_other nofun
  errors := h.errors.emit_other nofun
  tables := h.tables.emit_other rfl nofun
  branches := h.branches.emit_other nofun nofun
  adjacent := adjacent_concat h.adjacent nofun

theorem Linked.goto (h : s.Linked) (target : Label) : (s.goto target).Linked := by
  unfold LiveState.goto
  split
  · rename_i label hlabel
    obtain ⟨l₁, l₂, hsplit, -⟩ := List.lookup_eq_some_iff.mp hlabel
    have hmem : (target, label) ∈ s.labels := by simp [hsplit]
    refine ⟨h.gotos.goto_bound hmem, h.calls.emit_other nofun, h.errors.emit_other nofun,
      h.tables.emit_other rfl nofun, ?_, adjacent_concat h.adjacent nofun⟩
    refine (h.branches.emit_other (i := .goto target) nofun nofun).bind_other ?_ ?_
    · rw [Assembly.items_emit, List.length_append]
      exact Nat.lt_succ_self _
    · rw [Assembly.items_emit, show s.code.here = s.code.items.length from rfl,
        getElem?_concat_length]
      exact nofun
  · exact ⟨h.gotos.goto_pending target, h.calls.emit_other nofun, h.errors.emit_other nofun,
      h.tables.emit_other rfl nofun, h.branches.emit_other nofun nofun,
      adjacent_concat h.adjacent nofun⟩

theorem Linked.label (h : s.Linked) (l : Label) : (s.label l).Linked := by
  have hitems : ∀ jumps : List Nat, ((s.code.emit (.label l)).bindAll jumps s.code.here).items =
      s.code.items ++ [.label l] := fun jumps => Assembly.items_bindAll _ _ _
  refine ⟨h.gotos.label l, ?_, ?_, ?_, ?_, ?_⟩
  · change CallsLinked (Assembly.bindAll _ _ _).items _ _
    rw [hitems]
    exact h.calls.emit_other nofun
  · change ErrorsLinked (Assembly.bindAll _ _ _).items _
    rw [hitems]
    exact h.errors.emit_other nofun
  · change TablesLinked (Assembly.bindAll _ _ _).items _ _ _
    rw [hitems]
    exact h.tables.emit_other rfl nofun
  · refine (h.branches.emit_other (i := .label l) nofun nofun).bindAll_other fun jump hjump => ?_
    -- only gotos wait for labels
    obtain ⟨⟨t, p⟩, hmem, rfl⟩ := List.mem_map.mp hjump
    have hitem := getElem?_append_of_eq_some (l := [LiveItem.label l])
      (h.gotos.waiting t p (List.mem_filter.mp hmem).1).1
    refine ⟨lt_length_of_eq_some hitem, ?_⟩
    rw [Assembly.items_emit, hitem]
    exact nofun
  · intro p jtbl hp
    change (Assembly.bindAll _ _ _).items[p]? = _ at hp
    change (Assembly.bindAll _ _ _).items[p + 1]? = _
    rw [hitems] at hp ⊢
    exact adjacent_concat (i := .label l) h.adjacent nofun p jtbl hp

theorem Linked.branchCondition (h : s.Linked) (op : ConditionalBranchOp) (ctx : InstructionContext)
    (herrored : (s.branchCondition op ctx).errored = false) : (s.branchCondition op ctx).Linked := by
  unfold LiveState.branchCondition at herrored ⊢
  split_ifs at herrored ⊢ with hrefused
  · cases herrored
  · have hnone : s.curBranchJump = none := by
      simp only [Bool.or_eq_true, not_or, Bool.not_eq_true, Option.isSome_eq_false_iff,
        Option.isNone_iff_eq_none] at hrefused
      exact hrefused.1
    have hbranches := h.branches
    rw [hnone] at hbranches
    exact ⟨h.gotos.emit_other rfl nofun, h.calls.emit_other nofun, h.errors.emit_other nofun,
      h.tables.emit_other rfl nofun, hbranches.emit_branch, adjacent_concat h.adjacent nofun⟩

theorem Linked.branchClose (h : s.Linked) (herrored : s.branchClose.errored = false) :
    s.branchClose.Linked := by
  cases hjump : s.curBranchJump with
  | none =>
    unfold LiveState.branchClose at herrored
    rw [hjump] at herrored
    cases herrored
  | some jump =>
    have hclose : s.branchClose = { s with
        code := (s.code.emit .closing).bind jump s.code.here, curBranchJump := none } := by
      unfold LiveState.branchClose
      rw [hjump]
    rw [hclose]
    have hbranches := h.branches
    rw [hjump] at hbranches
    refine ⟨(h.gotos.emit_other (i := .closing) rfl nofun).bind_other fun t ht => ?_, h.calls.emit_other nofun,
      h.errors.emit_other nofun, h.tables.emit_other rfl nofun, hbranches.close,
      adjacent_concat h.adjacent nofun⟩
    have hitem := getElem?_append_of_eq_some (l := [LiveItem.closing]) (hbranches.waiting jump rfl).1
    rw [Assembly.items_emit, hitem] at ht
    cases ht

theorem Linked.switch (h : s.Linked) (jtbl : JumpTable) (reg : Fin 32) :
    (s.switch jtbl reg).Linked := by
  have hstraight := h.emit_straight (.switch jtbl reg)
  refine ⟨(hstraight.gotos.emit_other (i := .bound jtbl) rfl nofun).emit_other rfl nofun,
    (hstraight.calls.emit_other (i := .bound jtbl) nofun).emit_other nofun,
    (hstraight.errors.emit_bound jtbl).emit_other nofun,
    (hstraight.tables.emit_other (i := .bound jtbl) rfl nofun).emit_table jtbl,
    (hstraight.branches.emit_other (i := .bound jtbl) nofun nofun).emit_other nofun nofun,
    fun p jtbl' hp => ?_⟩
  rcases getElem?_concat_cases hp with hbound | ⟨-, heq⟩
  · rcases getElem?_concat_cases hbound with hold | ⟨rfl, heq⟩
    · exact getElem?_append_of_eq_some
        (getElem?_append_of_eq_some (hstraight.adjacent p jtbl' hold))
    · cases heq
      have hlength : (s.code.emit (.straight (.switch jtbl reg))).items.length + 1 =
          ((s.code.emit (.straight (.switch jtbl reg))).emit (.bound jtbl)).items.length := by
        rw [Assembly.items_emit (Assembly.emit _ _), List.length_append, List.length_singleton]
      rw [hlength]
      exact getElem?_concat_length _ _
  · cases heq

theorem Linked.functionCall (h : s.Linked) (index : Nat) : (s.functionCall index).Linked where
  gotos := h.gotos.emit_other rfl nofun
  calls := h.calls.emit_call index
  errors := h.errors.emit_other nofun
  tables := h.tables.emit_other rfl nofun
  branches := h.branches.emit_other nofun nofun
  adjacent := adjacent_concat h.adjacent nofun

theorem Linked.functionCallReferenceSymbol (h : s.Linked) (c : Call) (sectionIndex : BitVec 16)
    (symbolIndex : Nat) (targetSectionOffset : BitVec 32) :
    (s.functionCallReferenceSymbol c sectionIndex symbolIndex targetSectionOffset).Linked := by
  have hstraight := h.emit_straight c
  unfold LiveState.functionCallReferenceSymbol
  split_ifs
  · exact ⟨hstraight.gotos, hstraight.calls, hstraight.errors, hstraight.tables, hstraight.branches,
      hstraight.adjacent⟩
  · exact ⟨hstraight.gotos, hstraight.calls, hstraight.errors, hstraight.tables, hstraight.branches,
      hstraight.adjacent⟩

theorem Linked.operation (h : s.Linked) (c : Call) (code : Option (List LiveInstr))
    (herrored : (s.operation c code).errored = false) : (s.operation c code).Linked := by
  unfold LiveState.operation at herrored ⊢
  split_ifs at herrored ⊢
  · exact h.emit_straight c
  · cases herrored

/-- **One call keeps the containers right**, when it is not refused. -/
theorem Linked.emitCall (h : s.Linked) (c : Call) (herrored : (s.emitCall c).errored = false) :
    (s.emitCall c).Linked := by
  cases c with
  | goto target => exact h.goto target
  | label l => exact h.label l
  | branchCondition op ctx => exact h.branchCondition op ctx herrored
  | branchClose => exact h.branchClose herrored
  | switch jtbl reg => exact h.switch jtbl reg
  | functionCall index _ => exact h.functionCall index
  | functionCallReferenceSymbol => exact h.functionCallReferenceSymbol _ _ _ _
  | namedFunctionCall => cases herrored
  | binaryOp => exact h.operation _ _ herrored
  | unaryOp => exact h.operation _ _ herrored
  | storeOp => exact h.operation _ _ herrored
  | _ => exact h.emit_straight _

/-! ### Functions -/

/-- Nothing waits for the end of a function. -/
structure Settled (s : LiveState) : Prop where
  labels : s.labels = []
  pendingJumps : s.pendingJumps = []
  switchJumpLabels : s.switchJumpLabels = []
  pendingJumpTables : s.pendingJumpTables = []

/-- The flag stays set. -/
theorem errored_of_emitCall {c : Call} (h : (s.emitCall c).errored = false) : s.errored = false := by
  cases c with
  | goto target =>
    change (s.goto target).errored = false at h
    unfold LiveState.goto at h
    split at h
    · exact h
    · exact h
  | branchCondition op ctx =>
    change (s.branchCondition op ctx).errored = false at h
    unfold LiveState.branchCondition at h
    split_ifs at h
    · cases h
    · exact h
  | branchClose =>
    change s.branchClose.errored = false at h
    unfold LiveState.branchClose at h
    split at h
    · cases h
    · exact h
  | functionCallReferenceSymbol sectionIndex symbolIndex targetSectionOffset labels =>
    change (s.functionCallReferenceSymbol _ sectionIndex symbolIndex targetSectionOffset).errored =
      false at h
    unfold LiveState.functionCallReferenceSymbol at h
    split_ifs at h
    · exact h
    · exact h
  | namedFunctionCall => cases h
  | binaryOp op ctx | unaryOp op ctx | storeOp op ctx =>
    change (s.operation _ _).errored = false at h
    unfold LiveState.operation at h
    split_ifs at h
    · exact h
    · cases h
  | _ => exact h

theorem errored_of_emitCalls {calls : List Call} (h : (s.emitCalls calls).errored = false) :
    s.errored = false := by
  induction calls generalizing s with
  | nil => exact h
  | cons c calls ih => exact errored_of_emitCall (ih h)

theorem Linked.emitCalls {calls : List Call} (h : s.Linked)
    (herrored : (s.emitCalls calls).errored = false) : (s.emitCalls calls).Linked := by
  induction calls generalizing s with
  | nil => exact h
  | cons c calls ih => exact ih (h.emitCall c (errored_of_emitCalls herrored)) herrored

theorem Linked.functionStart (h : s.Linked) (hsettled : s.Settled) (name : Str) (index : Nat) :
    (s.functionStart name index).Linked := by
  obtain ⟨hlabels, hpending, hcases, htables⟩ := hsettled
  have hgotos := h.gotos
  have hlinked := h.tables
  rw [hlabels, hpending] at hgotos
  rw [hcases, htables] at hlinked
  refine ⟨?_, (h.calls.emit_entry index name).emit_other nofun,
    (h.errors.emit_other (i := .entry index name) nofun).emit_other nofun, ?_,
    (h.branches.emit_other (i := .entry index name) nofun nofun).emit_other nofun nofun,
    adjacent_concat (adjacent_concat (i := .entry index name) h.adjacent nofun) nofun⟩
  · change GotosLinked _ s.labels s.pendingJumps
    rw [hlabels, hpending]
    exact (hgotos.emit_entry (i := .entry index name) nofun).emit_other rfl nofun
  · change TablesLinked _ s.switchJumpLabels s.pendingJumpTables _
    rw [hcases, htables]
    exact (hlinked.emit_entry (i := .entry index name) nofun).emit_other rfl nofun

/-- What holds when the end of a function does not set the flag. -/
theorem of_functionEnd (herrored : s.functionEnd.errored = false) :
    s.errored = false ∧ s.pendingJumps = [] ∧
      ∀ cases ∈ s.switchJumpLabels, ∀ l ∈ cases, (s.labels.lookup l).isSome := by
  unfold LiveState.functionEnd at herrored
  simp only [Bool.or_eq_false_iff, Bool.not_eq_false', List.isEmpty_iff, List.any_eq_false,
    Bool.not_eq_true, Option.isNone_eq_false_iff] at herrored
  exact ⟨herrored.1.1, herrored.1.2, herrored.2⟩

theorem Linked.functionEnd (h : s.Linked) (herrored : s.functionEnd.errored = false) :
    s.functionEnd.Linked ∧ s.functionEnd.Settled := by
  obtain ⟨-, hpending, hfound⟩ := of_functionEnd herrored
  exact ⟨⟨h.gotos.drop_labels, h.calls, h.errors, h.tables.functionEnd h.gotos.known hfound,
    h.branches, h.adjacent⟩, rfl, hpending, rfl, rfl⟩

theorem errored_of_emitFunction {f : EmittedFunction} (h : (s.emitFunction f).errored = false) :
    s.errored = false :=
  errored_of_emitCalls (s := s.functionStart f.name f.index) (of_functionEnd h).1

theorem errored_of_emitFunctions {functions : List EmittedFunction}
    (h : (s.emitFunctions functions).errored = false) : s.errored = false := by
  induction functions generalizing s with
  | nil => exact h
  | cons f functions ih => exact errored_of_emitFunction (ih h)

/-- **One function keeps the containers right, and leaves nothing that waits for its end.** -/
theorem Linked.emitFunction {f : EmittedFunction} (h : s.Linked) (hsettled : s.Settled)
    (herrored : (s.emitFunction f).errored = false) :
    (s.emitFunction f).Linked ∧ (s.emitFunction f).Settled :=
  ((h.functionStart hsettled f.name f.index).emitCalls (of_functionEnd herrored).1).functionEnd
    herrored

theorem Linked.emitFunctions {functions : List EmittedFunction} (h : s.Linked)
    (hsettled : s.Settled) (herrored : (s.emitFunctions functions).errored = false) :
    (s.emitFunctions functions).Linked ∧ (s.emitFunctions functions).Settled := by
  induction functions generalizing s with
  | nil => exact ⟨h, hsettled⟩
  | cons f functions ih =>
    obtain ⟨hlinked, hsettled'⟩ := h.emitFunction hsettled (errored_of_emitFunctions herrored)
    exact ih hlinked hsettled' herrored

end LiveState

/-! ### The items of a batch -/

/-- What a call emits, when it is not refused. -/
def itemsOf : Call → List LiveItem
  | .goto target => [.goto target]
  | .label l => [.label l]
  | .branchCondition _ _ => [.branch]
  | .branchClose => [.closing]
  | .switch jtbl reg => [.straight (.switch jtbl reg), .bound jtbl, .tableJump jtbl]
  | .functionCall index _ => [.call index]
  | c => [.straight c]

/-- What a function emits behind its entry. -/
def EmittedFunction.body (f : EmittedFunction) : List LiveItem :=
  .straight (.functionStart f.name) :: f.calls.flatMap itemsOf

def EmittedFunction.items (f : EmittedFunction) : List LiveItem := .entry f.index f.name :: f.body

namespace LiveState

variable {s : LiveState}

theorem items_emitCall {c : Call} (h : (s.emitCall c).errored = false) :
    (s.emitCall c).code.items = s.code.items ++ itemsOf c := by
  cases c with
  | goto target =>
    change (s.goto target).code.items = _
    unfold LiveState.goto
    split
    · rfl
    · rfl
  | label l => exact Assembly.items_bindAll _ _ _
  | branchCondition op ctx =>
    change (s.branchCondition op ctx).errored = false at h
    change (s.branchCondition op ctx).code.items = _
    unfold LiveState.branchCondition at h ⊢
    split_ifs at h ⊢
    · cases h
    · rfl
  | branchClose =>
    change s.branchClose.errored = false at h
    change s.branchClose.code.items = _
    unfold LiveState.branchClose at h ⊢
    cases hjump : s.curBranchJump with
    | none =>
      rw [hjump] at h
      cases h
    | some jump => rfl
  | switch jtbl reg =>
    change ((s.code.items ++ [_]) ++ [_]) ++ [_] = _
    rw [List.append_assoc, List.append_assoc]
    rfl
  | functionCallReferenceSymbol sectionIndex symbolIndex targetSectionOffset labels =>
    change (s.functionCallReferenceSymbol _ sectionIndex symbolIndex
      targetSectionOffset).code.items = _
    unfold LiveState.functionCallReferenceSymbol
    split_ifs
    · rfl
    · rfl
  | namedFunctionCall => cases h
  | binaryOp op ctx | unaryOp op ctx | storeOp op ctx =>
    change (s.operation _ _).errored = false at h
    change (s.operation _ _).code.items = _
    unfold LiveState.operation at h ⊢
    split_ifs at h ⊢
    · rfl
    · cases h
  | _ => rfl

theorem items_emitCalls {calls : List Call} (h : (s.emitCalls calls).errored = false) :
    (s.emitCalls calls).code.items = s.code.items ++ calls.flatMap itemsOf := by
  induction calls generalizing s with
  | nil => exact (List.append_nil _).symm
  | cons c calls ih =>
    have hc : (s.emitCall c).errored = false := errored_of_emitCalls h
    rw [List.flatMap_cons, ← List.append_assoc, ← items_emitCall hc]
    exact ih h

theorem items_emitFunction {f : EmittedFunction} (h : (s.emitFunction f).errored = false) :
    (s.emitFunction f).code.items = s.code.items ++ f.items := by
  have hcalls := items_emitCalls (s := s.functionStart f.name f.index) (of_functionEnd h).1
  change ((s.functionStart f.name f.index).emitCalls f.calls).code.items = _
  rw [hcalls]
  change (s.code.items ++ [_]) ++ [_] ++ _ = _
  rw [List.append_assoc, List.append_assoc]
  rfl

/-- **The code of a batch**: that of its functions, one after the other. -/
theorem items_emitFunctions {functions : List EmittedFunction}
    (h : (s.emitFunctions functions).errored = false) :
    (s.emitFunctions functions).code.items = s.code.items ++ functions.flatMap (·.items) := by
  induction functions generalizing s with
  | nil => exact (List.append_nil _).symm
  | cons f functions ih =>
    have hf : (s.emitFunction f).errored = false := errored_of_emitFunctions h
    rw [List.flatMap_cons, ← List.append_assoc, ← items_emitFunction hf]
    exact ih h

end LiveState

end N64Recomp
