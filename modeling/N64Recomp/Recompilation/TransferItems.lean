import N64Recomp.Context.Names
import N64Recomp.Recompilation.InstructionRuns

/-!
# The items of a control transfer

What is written for a branch, a jump or a call around the items of its slot: a jump inside of the
function is a `goto`, one out of it requests a tail call and returns, and a call is followed by a
`goto` behind the slot.

## Main definitions

* `Context.NamesEntry`: the names of the functions that are entered at an address
* `Translation.DirectItems`: the items of a transfer to a known address

## Main results

* `Translation.done_emitBranchTree`, `Translation.done_emitTaken`, `Translation.done_emitJal`: the
  direct transfers
* `Translation.done_emitJrRaReturn`: the return through `$ra`
-/

namespace N64Recomp

open Emit FlatCode Mips

/-! ### Names of functions -/

/-- A C function by the name is entered at the address: one of the context, or a static one. -/
def Context.NamesEntry (context : Context) (name : Str) (vram : BitVec 32) : Prop :=
  (∃ (i : Nat) (func : Function), context.functions[i]? = some func ∧ func.name = name ∧
    func.entry = vram) ∨
    ∃ i, name = staticName i vram

/-- The function is entered at the address. -/
def Called.Enters (context : Context) (vram : BitVec 32) : Called → Prop
  | named name => context.NamesEntry name vram
  | lookup address => address = vram

/-- The tables name a function only at its entry, or the calls are looked up. -/
def Context.EntersTargets (context : Context) : Prop :=
  context.useLookupForAllFunctionCalls = true ∨ context.StartsAreEntries

/-- The selected function is in the table. -/
theorem exists_of_resolveJal {context : Context} {cur i : Nat} {target : BitVec 32}
    (h : resolveJal context cur target = .match_ i) : ∃ func, context.functions[i]? = some func := by
  cases hlookup : context.useLookupForAllFunctionCalls with
  | true =>
    rw [resolveJal, if_pos hlookup] at h
    cases h
  | false =>
    rw [resolveJal_eq hlookup] at h
    split at h
    · rename_i x hfirst
      obtain rfl := JalResolutionResult.match_.inj h
      exact ⟨x.2, functions_of_mem_functionsAt (firstOf_mem hfirst)⟩
    · split at h
      · cases h
      · split at h
        · unfold resolveBySection at h
          split at h
          · cases h
          · split at h
            · rename_i j hstart
              obtain rfl := JalResolutionResult.match_.inj h
              have hlt := (List.findIdx?_eq_some_iff_getElem.mp hstart).1
              exact ⟨_, List.getElem?_eq_getElem hlt⟩
            · cases h
          · cases h
        · rename_i x hfixed
          obtain rfl := JalResolutionResult.match_.inj h
          exact ⟨x.2, functions_of_mem_functionsAt (firstOf_mem (firstOf_of_fixedAt hfixed))⟩
        · cases h

theorem entry_of_resolveJal {context : Context} (hentries : context.EntersTargets) {cur i : Nat}
    {target : BitVec 32} (h : resolveJal context cur target = .match_ i) :
    ∃ func : Function, context.functions[i]? = some func ∧ func.entry = target := by
  obtain ⟨func, hfunc⟩ := exists_of_resolveJal h
  refine ⟨func, hfunc, ?_⟩
  cases hlookup : context.useLookupForAllFunctionCalls with
  | true =>
    rw [resolveJal, if_pos hlookup] at h
    cases h
  | false =>
    have hstarts := hentries.resolve_left (by rw [hlookup]; exact Bool.false_ne_true)
    exact enters_of_startsAreEntries hlookup hstarts h hfunc

/-- An item that does not end the program with a diagnosis. -/
def Item.isHandled : Item → Bool
  | .raw (.unhandledCall ..) | .raw (.unhandledBranch ..) => false
  | _ => true

namespace Translation

variable (t : Translation)

/-- A request of a tail call to an address. -/
inductive Requests (target : BitVec 32) : Raw → Prop
  | address : Requests target (.requestTailcallAddress target)
  | function {name : Str} (h : t.context.NamesEntry name target) :
      Requests target (.requestTailcallFunction name target)

/-- A call that enters an address. -/
inductive CallsAddress (target : BitVec 32) : Call → Prop
  | function {i : Nat} {func : Function} {labels : CallLabels}
      (hfunc : t.context.functions[i]? = some func) (hentry : func.entry = target) :
      CallsAddress target (.functionCall i labels)
  | static {i : Nat} {labels : CallLabels} :
      CallsAddress target (.namedFunctionCall (staticName i target) labels)
  | lookup {labels : CallLabels} : CallsAddress target (.functionCallLookup target labels)

/-- The traced return. -/
def traceItems : List Item := if t.context.traceMode then [.raw .traceReturn] else []

/-- A tail call, behind its slot. -/
def tailcallItems (target : BitVec 32) (request : Raw) : List Item :=
  .raw (.hostReturn target t.context.traceMode) :: .raw request ::
    (t.traceItems ++ [.raw .return_])

/-- **The items of a transfer to a known address**, around those of its slot, and whether they go to
the label behind the slot. -/
inductive DirectItems (n : Nat) (vram target : BitVec 32) (link : Bool) (slotItems : List Item) :
    Bool → List Item → Prop
  | inside (hin : t.func.contains target = true) {checkpoint : List Item}
      (hcheckpoint : checkpoint = [] ∨ checkpoint = [.raw (.loopCheckpoint vram)]) :
      DirectItems n vram target link slotItems false
        (slotItems ++ (checkpoint ++ [.call (.goto (.at_ target))]))
  | tail (hout : t.func.contains target = false) (hlink : link = false) {request : Raw}
      (hrequest : t.Requests target request) :
      DirectItems n vram target link slotItems false (slotItems ++ t.tailcallItems target request)
  | call (hout : t.func.contains target = false) (hlink : link = true) {c : Call}
      (hc : t.CallsAddress target c) :
      DirectItems n vram target link slotItems true
        (slotItems ++ [.call c, .call (.goto (.after n))])

section Shapes

variable {t} {slot : Emission Unit} {vram target : BitVec 32} {n : Nat} {reloc : RelocInfo}
  {statics statics' : Statics} {items : List Item} {u : Unit}

theorem done_raw {r : Raw} (h : Done (raw r) statics u items statics') :
    items = [.raw r] ∧ statics' = statics := done_write.mp h

theorem done_emitTraceReturn (h : Done t.emitTraceReturn statics u items statics') :
    items = t.traceItems := by
  unfold emitTraceReturn at h
  unfold traceItems
  rw [done_when] at h
  split at h
  · rename_i htrace
    rw [if_pos htrace]
    exact (done_raw h).1
  · rename_i htrace
    rw [if_neg htrace]
    exact h.1

theorem done_emitTailcallByAddress
    (h : Done (t.emitTailcallByAddress slot target) statics u items statics') :
    ∃ slotItems s₁, Done slot statics () slotItems s₁ ∧
      items = slotItems ++ t.tailcallItems target (.requestTailcallAddress target) := by
  obtain ⟨_, slotItems, s₁, _, hslot, hhost, rfl⟩ := done_bind.mp h
  obtain ⟨_, l₁, _, _, h₁, hrequest, rfl⟩ := done_bind.mp hhost
  obtain ⟨_, l₂, _, _, h₂, htrace, rfl⟩ := done_bind.mp hrequest
  obtain ⟨_, l₃, _, _, h₃, hreturn, rfl⟩ := done_bind.mp htrace
  refine ⟨slotItems, s₁, hslot, ?_⟩
  rw [(done_raw h₁).1, (done_raw h₂).1, done_emitTraceReturn h₃, (done_raw hreturn).1]
  rfl

theorem done_emitTailcallByFunction {name : Str}
    (h : Done (t.emitTailcallByFunction slot name target) statics u items statics') :
    ∃ slotItems s₁, Done slot statics () slotItems s₁ ∧
      items = slotItems ++ t.tailcallItems target (.requestTailcallFunction name target) := by
  obtain ⟨_, slotItems, s₁, _, hslot, hhost, rfl⟩ := done_bind.mp h
  obtain ⟨_, l₁, _, _, h₁, hrequest, rfl⟩ := done_bind.mp hhost
  obtain ⟨_, l₂, _, _, h₂, htrace, rfl⟩ := done_bind.mp hrequest
  obtain ⟨_, l₃, _, _, h₃, hreturn, rfl⟩ := done_bind.mp htrace
  refine ⟨slotItems, s₁, hslot, ?_⟩
  rw [(done_raw h₁).1, (done_raw h₂).1, done_emitTraceReturn h₃, (done_raw hreturn).1]
  rfl

/-- A branch to an address that no function has is not handled. -/
theorem not_done_emitUnhandledBranch (hhandled : ∀ i ∈ items, i.isHandled = true) :
    ¬Done (t.emitUnhandledBranch slot vram target) statics u items statics' := by
  intro h
  obtain ⟨_, _, _, _, -, hrest, rfl⟩ := done_bind.mp h
  obtain ⟨_, _, _, _, hraw, -, rfl⟩ := done_bind.mp hrest
  rw [(done_raw hraw).1] at hhandled
  exact absurd (hhandled (.raw (.unhandledBranch vram target)) (by simp)) Bool.false_ne_true

/-- A branch out of the function requests a tail call. -/
theorem done_emitTailBranch (hentries : t.context.EntersTargets)
    (hhandled : ∀ i ∈ items, i.isHandled = true)
    (h : Done (t.emitTailBranch slot vram target) statics u items statics') :
    ∃ slotItems s₀ s₁ request, Done slot s₀ () slotItems s₁ ∧
      items = slotItems ++ t.tailcallItems target request ∧ t.Requests target request := by
  unfold emitTailBranch at h
  split at h
  · rename_i i hmatch
    obtain ⟨func, hfunc, hentry⟩ := entry_of_resolveJal hentries hmatch
    rw [hfunc] at h
    obtain ⟨slotItems, s₁, hslot, rfl⟩ := done_emitTailcallByFunction h
    exact ⟨_, _, _, _, hslot, rfl, .function (.inl ⟨i, func, hfunc, rfl, hentry⟩)⟩
  · rename_i i _
    obtain ⟨read, l, _, _, hread, hcreate, rfl⟩ := done_bind.mp h
    obtain ⟨-, rfl, rfl⟩ := done_read.mp hread
    split at hcreate
    · obtain ⟨_, l₁, _, _, hpush, htail, rfl⟩ := done_bind.mp hcreate
      obtain ⟨rfl, rfl⟩ := done_modify.mp hpush
      obtain ⟨slotItems, s₁, hslot, rfl⟩ := done_emitTailcallByFunction htail
      exact ⟨_, _, _, _, hslot, rfl, .function (.inr ⟨i, rfl⟩)⟩
    · exact absurd hcreate (not_done_emitUnhandledBranch hhandled)
  · obtain ⟨slotItems, s₁, hslot, rfl⟩ := done_emitTailcallByAddress h
    exact ⟨_, _, _, _, hslot, rfl, .address⟩
  · exact absurd h (not_done_emitUnhandledBranch hhandled)

/-- **A jump**: inside of the function, or a tail call. -/
theorem done_emitBranchTree {link : Bool} (hentries : t.context.EntersTargets)
    (hlink : t.func.contains target = true ∨ link = false)
    (hhandled : ∀ i ∈ items, i.isHandled = true)
    (h : Done (t.emitBranchTree slot vram target) statics u items statics') :
    ∃ slotItems s₀ s₁, Done slot s₀ () slotItems s₁ ∧
      t.DirectItems n vram target link slotItems false items := by
  unfold emitBranchTree at h
  split at h
  · rename_i hin
    obtain ⟨_, slotItems, s₁, _, hslot, hcheck, rfl⟩ := done_bind.mp h
    obtain ⟨_, l₁, _, _, h₁, hgoto, rfl⟩ := done_bind.mp hcheck
    refine ⟨slotItems, _, s₁, hslot, ?_⟩
    rw [(done_call hgoto).1]
    refine .inside hin ?_
    rw [done_when] at h₁
    split at h₁
    · exact .inr (done_raw h₁).1
    · exact .inl h₁.1
  · rename_i hout
    have hout := Bool.not_eq_true _ ▸ hout
    obtain ⟨slotItems, s₀, s₁, request, hslot, rfl, hrequest⟩ :=
      done_emitTailBranch hentries hhandled h
    refine ⟨slotItems, s₀, s₁, hslot, .tail hout (hlink.resolve_left ?_) hrequest⟩
    rw [hout]
    exact Bool.false_ne_true

theorem done_emitCallWithSlot {c : Call} {b : Bool}
    (h : Done (t.emitCallWithSlot slot n c) statics b items statics') :
    b = true ∧ ∃ slotItems s₁, Done slot statics () slotItems s₁ ∧
      items = slotItems ++ [.call c, .call (.goto (.after n))] := by
  obtain ⟨_, slotItems, s₁, _, hslot, hcall, rfl⟩ := done_bind.mp h
  obtain ⟨_, l₁, _, _, h₁, hlink, rfl⟩ := done_bind.mp hcall
  obtain ⟨_, l₂, _, _, h₂, hreturn, rfl⟩ := done_bind.mp hlink
  obtain ⟨rfl, rfl, -⟩ := done_pure.mp hreturn
  refine ⟨rfl, slotItems, s₁, hslot, ?_⟩
  rw [(done_call h₁).1, (done_call h₂).1]
  rfl

/-- **A call** of a function, when no relocation names it. -/
theorem done_emitCallByAddress {b : Bool} (hentries : t.context.EntersTargets)
    (hevent : reloc.sectionIndex ≠ sectionEvent.setWidth 32) (hsymbol : reloc.referenceSymbol = none)
    (hout : t.func.contains target = false) (hhandled : ∀ i ∈ items, i.isHandled = true)
    (h : Done (t.emitCallByAddress slot vram n reloc target) statics b items statics') :
    ∃ slotItems s₀ s₁, Done slot s₀ () slotItems s₁ ∧
      t.DirectItems n vram target true slotItems b items := by
  unfold emitCallByAddress at h
  rw [if_neg hevent, hsymbol] at h
  dsimp only at h
  split at h
  · obtain ⟨_, _, _, _, hraw, -, rfl⟩ := done_bind.mp h
    rw [(done_raw hraw).1] at hhandled
    exact absurd (hhandled (.raw (.unhandledCall vram target)) (by simp)) Bool.false_ne_true
  · rename_i i hmatch
    obtain ⟨func, hfunc, hentry⟩ := entry_of_resolveJal hentries hmatch
    obtain ⟨rfl, slotItems, s₁, hslot, rfl⟩ := done_emitCallWithSlot h
    exact ⟨_, _, _, hslot, .call hout rfl (.function hfunc hentry)⟩
  · obtain ⟨_, l₁, _, _, hpush, hcall, rfl⟩ := done_bind.mp h
    obtain ⟨rfl, rfl⟩ := done_modify.mp hpush
    obtain ⟨rfl, slotItems, s₁, hslot, rfl⟩ := done_emitCallWithSlot hcall
    exact ⟨_, _, _, hslot, .call hout rfl .static⟩
  · obtain ⟨rfl, slotItems, s₁, hslot, rfl⟩ := done_emitCallWithSlot h
    exact ⟨_, _, _, hslot, .call hout rfl .lookup⟩

/-- The write of a link register. -/
theorem done_emitLink {reg : Fin 32} (h : Done (t.emitLink reg vram) statics u items statics') :
    items = [.raw (.link reg (vram + 8))] := by
  obtain ⟨_, l₁, _, _, h₁, hrequest, rfl⟩ := done_bind.mp h
  unfold requestLinkTarget at hrequest
  rw [(done_raw h₁).1]
  rw [done_when] at hrequest
  split at hrequest
  · rw [(done_modify.mp hrequest).1]
    rfl
  · rw [hrequest.1]
    rfl

/-! ### The instructions -/

variable {instr : InstructionCpu} {b : Bool}

/-- The items of a link register's write. -/
def linkItems (vram : BitVec 32) : Option Reg → List Item
  | none => []
  | some r => [.raw (.link r (vram + 8))]

/-- The taken side of a branch. -/
theorem done_emitTaken {link : Bool} (hentries : t.context.EntersTargets)
    (hevent : reloc.sectionIndex ≠ sectionEvent.setWidth 32) (hsymbol : reloc.referenceSymbol = none)
    (hhandled : ∀ i ∈ items, i.isHandled = true)
    (h : Done (t.emitTaken instr link slot n reloc) statics b items statics') :
    ∃ slotItems s₀ s₁, Done slot s₀ () slotItems s₁ ∧
      t.DirectItems n instr.vram (instr.getBranchVramGeneric t.decoder) link slotItems b items := by
  unfold emitTaken at h
  dsimp only at h
  split at h
  · rename_i hcall
    simp only [Bool.and_eq_true, Bool.not_eq_true'] at hcall
    obtain ⟨rfl, hout⟩ := hcall
    exact done_emitCallByAddress hentries hevent hsymbol hout hhandled h
  · rename_i hjump
    simp only [Bool.and_eq_true, Bool.not_eq_true', not_and, Bool.not_eq_false] at hjump
    obtain ⟨rfl, hm⟩ := done_withoutLink h
    refine done_emitBranchTree hentries ?_ hhandled hm
    cases link with
    | true => exact .inl (hjump rfl)
    | false => exact .inr rfl

/-- **A conditional branch**: the link, and the taken side in an `if`. -/
theorem done_processConditionalBranch {op : ConditionalBranchOp} {ctx : InstructionContext}
    (hentries : t.context.EntersTargets)
    (hevent : reloc.sectionIndex ≠ sectionEvent.setWidth 32) (hsymbol : reloc.referenceSymbol = none)
    (hhandled : ∀ i ∈ items, i.isHandled = true)
    (h : Done (t.processConditionalBranch instr op ctx slot n reloc) statics b items statics') :
    ∃ slotItems s₀ s₁ taken, Done slot s₀ () slotItems s₁ ∧
      t.DirectItems n instr.vram (instr.getBranchVramGeneric t.decoder) op.link slotItems b taken ∧
      items = linkItems instr.vram (if op.link then some ra else none) ++
        (.call (.branchCondition op ctx) :: (taken ++ [.call .branchClose])) := by
  obtain ⟨_, link, _, _, hlink, hcondition, rfl⟩ := done_bind.mp h
  obtain ⟨_, condition, _, _, hcall, htaken, rfl⟩ := done_bind.mp hcondition
  obtain ⟨b', taken, _, _, hitems, hclose, rfl⟩ := done_bind.mp htaken
  obtain ⟨_, close, _, _, hend, hreturn, rfl⟩ := done_bind.mp hclose
  obtain ⟨rfl, rfl, -⟩ := done_pure.mp hreturn
  have hhandled' : ∀ i ∈ taken, i.isHandled = true := fun i hi =>
    hhandled i (by simp only [List.mem_append]; exact .inr (.inr (.inl hi)))
  obtain ⟨slotItems, s₀, s₁, hslot, hdirect⟩ :=
    done_emitTaken hentries hevent hsymbol hhandled' hitems
  refine ⟨slotItems, s₀, s₁, taken, hslot, hdirect, ?_⟩
  rw [(done_call hcall).1, (done_call hend).1]
  have hlink' : link = linkItems instr.vram (if op.link then some ra else none) := by
    rw [done_when] at hlink
    split at hlink
    · rename_i hop
      rw [done_emitLink hlink, hop]
      rfl
    · rename_i hop
      rw [hlink.1, if_neg hop]
      rfl
  rw [hlink']
  rfl

/-- A `j` or a `b` that does not wait in place. -/
theorem done_emitJump (hentries : t.context.EntersTargets)
    (hmoves : instr.getBranchVramGeneric t.decoder ≠ instr.vram)
    (hhandled : ∀ i ∈ items, i.isHandled = true)
    (h : Done (t.emitJump instr slot) statics u items statics') :
    ∃ slotItems s₀ s₁, Done slot s₀ () slotItems s₁ ∧
      t.DirectItems n instr.vram (instr.getBranchVramGeneric t.decoder) false slotItems false
        items := by
  unfold emitJump at h
  dsimp only at h
  rw [if_neg hmoves] at h
  exact done_emitBranchTree hentries (.inr rfl) hhandled h

/-- A `jal`. -/
theorem done_emitJal (hentries : t.context.EntersTargets)
    (hevent : reloc.sectionIndex ≠ sectionEvent.setWidth 32) (hsymbol : reloc.referenceSymbol = none)
    (hhandled : ∀ i ∈ items, i.isHandled = true)
    (h : Done (t.emitJal instr slot n reloc) statics b items statics') :
    ∃ slotItems s₀ s₁ rest, Done slot s₀ () slotItems s₁ ∧
      t.DirectItems n instr.vram (instr.getBranchVramGeneric t.decoder) true slotItems b rest ∧
      items = linkItems instr.vram (some ra) ++ rest := by
  obtain ⟨_, link, _, rest, hlink, hrest, rfl⟩ := done_bind.mp h
  obtain rfl := done_emitLink hlink
  have hhandled' : ∀ i ∈ rest, i.isHandled = true := fun i hi =>
    hhandled i (List.mem_append_right _ hi)
  dsimp only at hrest
  split at hrest
  · rename_i hin
    obtain ⟨rfl, hm⟩ := done_withoutLink hrest
    obtain ⟨_, slotItems, s₁, _, hslot, hgoto, rfl⟩ := done_bind.mp hm
    rw [(done_call hgoto).1]
    exact ⟨slotItems, _, s₁, _, hslot, .inside hin (.inl rfl), rfl⟩
  · rename_i hout
    obtain ⟨slotItems, s₀, s₁, hslot, hdirect⟩ := done_emitCallByAddress hentries hevent hsymbol
      (Bool.not_eq_true _ ▸ hout) hhandled' hrest
    exact ⟨slotItems, s₀, s₁, rest, hslot, hdirect, rfl⟩

/-- A tail call through a register, behind its slot. -/
def tailcallRegisterItems (t : Translation) (reg : Reg) : List Item :=
  .raw (.requestTailcallRegister reg) :: (t.traceItems ++ [.raw .return_])

theorem done_emitTailcallByRegister {reg : Reg}
    (h : Done (t.emitTailcallByRegister slot reg) statics u items statics') :
    ∃ slotItems s₁, Done slot statics () slotItems s₁ ∧
      items = slotItems ++ t.tailcallRegisterItems reg := by
  obtain ⟨_, slotItems, s₁, _, hslot, hrequest, rfl⟩ := done_bind.mp h
  obtain ⟨_, l₁, _, _, h₁, htrace, rfl⟩ := done_bind.mp hrequest
  obtain ⟨_, l₂, _, _, h₂, hreturn, rfl⟩ := done_bind.mp htrace
  refine ⟨slotItems, s₁, hslot, ?_⟩
  rw [(done_raw h₁).1, done_emitTraceReturn h₂, (done_raw hreturn).1]
  rfl

/-- A `jalr`: a call when it links `$ra`, and else a tail call. -/
theorem done_emitJalr (h : Done (t.emitJalr instr slot n) statics b items statics') :
    ∃ slotItems s₀ s₁, Done slot s₀ () slotItems s₁ ∧
      (if instr.rd = regRa then b = true ∧ ∃ labels, items = linkItems instr.vram (some ra) ++
          (slotItems ++ [.call (.functionCallByRegister instr.rs labels), .call (.goto (.after n))])
        else b = false ∧ items =
          linkItems instr.vram (if instr.rd = 0 then none else some instr.rd) ++
            (slotItems ++ t.tailcallRegisterItems instr.rs)) := by
  unfold emitJalr at h
  by_cases hrd : instr.rd = regRa
  · rw [if_neg (not_not_intro hrd)] at h
    obtain ⟨_, link, _, _, hlink, hcall, rfl⟩ := done_bind.mp h
    obtain ⟨_, call, _, _, hitems, hreturn, rfl⟩ := done_bind.mp hcall
    obtain ⟨rfl, rfl, -⟩ := done_pure.mp hreturn
    obtain ⟨_, slotItems, s₁, _, hslot, hregister, rfl⟩ := done_bind.mp hitems
    obtain ⟨_, l₁, _, _, h₁, h₂, rfl⟩ := done_bind.mp hregister
    refine ⟨slotItems, _, s₁, hslot, ?_⟩
    rw [if_pos hrd, done_emitLink hlink, (done_call h₁).1, (done_call h₂).1]
    exact ⟨rfl, _, by simp only [List.append_nil]; rfl⟩
  · rw [if_pos hrd] at h
    obtain ⟨_, link, _, _, hlink, htail, rfl⟩ := done_bind.mp h
    obtain ⟨_, tail, _, _, hitems, hreturn, rfl⟩ := done_bind.mp htail
    obtain ⟨rfl, rfl, -⟩ := done_pure.mp hreturn
    obtain ⟨slotItems, s₁, hslot, rfl⟩ := done_emitTailcallByRegister hitems
    refine ⟨slotItems, _, s₁, hslot, ?_⟩
    have hlink' : link = linkItems instr.vram (if instr.rd = 0 then none else some instr.rd) := by
      rw [done_when] at hlink
      split at hlink
      · rename_i hzero
        rw [done_emitLink hlink, if_neg hzero]
        rfl
      · rename_i hzero
        rw [hlink.1, if_pos (not_not.mp hzero)]
        rfl
    rw [if_neg hrd, hlink', List.append_nil]
    exact ⟨rfl, rfl⟩

/-- The cases of the labels, in a return through `$ra`. -/
def jrCaseItems (t : Translation) (vram : BitVec 32) : List Item :=
  match t.branchLabels.elems.filter t.func.contains with
  | [] => []
  | labels => .raw (.jrSwitch vram) :: (labels.map (fun v => .raw (.jrCase v)) ++
      [.raw .jrSwitchClose])

theorem done_emitJrCases (h : Done (t.emitJrCases vram) statics u items statics') :
    items = t.jrCaseItems vram := by
  unfold emitJrCases at h
  unfold jrCaseItems
  generalize t.branchLabels.elems.filter t.func.contains = labels at h ⊢
  cases labels with
  | nil => exact (done_pure.mp h).2.1
  | cons v labels =>
    obtain ⟨_, l₁, _, _, h₁, hcases, rfl⟩ := done_bind.mp h
    obtain ⟨_, l₂, _, _, h₂, hclose, rfl⟩ := done_bind.mp hcases
    rw [(done_raw h₁).1, (done_write.mp h₂).1, (done_raw hclose).1]
    rfl

/-- **A return through `$ra`.** -/
theorem done_emitJrRaReturn (h : Done (t.emitJrRaReturn slot vram) statics u items statics') :
    ∃ slotItems s₁, Done slot statics () slotItems s₁ ∧
      items = .raw (.jrOpen vram) :: (slotItems ++ (.raw (.jrTargetVram vram t.func.sectionIndex
        t.funcSection.ramAddr t.funcSection.size) :: (t.jrCaseItems vram ++
          [.raw (.jrHostReturn vram t.context.traceMode), .call (.return_ t.funcIndex),
            .raw .jrClose]))) := by
  obtain ⟨_, l₁, _, _, h₁, hslot, rfl⟩ := done_bind.mp h
  obtain ⟨_, slotItems, s₁, _, hdone, htarget, rfl⟩ := done_bind.mp hslot
  obtain ⟨_, l₂, _, _, h₂, hcases, rfl⟩ := done_bind.mp htarget
  obtain ⟨_, l₃, _, _, h₃, hhost, rfl⟩ := done_bind.mp hcases
  obtain ⟨_, l₄, _, _, h₄, hreturn, rfl⟩ := done_bind.mp hhost
  obtain ⟨_, l₅, _, _, h₅, hclose, rfl⟩ := done_bind.mp hreturn
  obtain ⟨rfl, rfl⟩ := done_raw h₁
  refine ⟨slotItems, s₁, hdone, ?_⟩
  rw [(done_raw h₂).1, done_emitJrCases h₃, (done_raw h₄).1, (done_call h₅).1, (done_raw hclose).1]
  rfl

/-- A `jr` through another register, when there are no jump tables, is a tail call. -/
theorem done_emitJrRegister {reg : Reg} (hd : t.Described) (hslot : Accepts slot)
    (h : Done (t.emitJrRegister slot vram reg) statics u items statics') :
    ∃ slotItems s₀ s₁, Done slot s₀ () slotItems s₁ ∧
      items = slotItems ++ t.tailcallRegisterItems reg := by
  unfold emitJrRegister at h
  rw [hd.noTables] at h
  dsimp only [List.find?_nil] at h
  obtain ⟨_, l₁, s₀, _, h₁, hdrop, rfl⟩ := done_bind.mp h
  have hnone : l₁ = [] := by
    unfold requestFallthrough at h₁
    rw [done_when] at h₁
    split at h₁
    · exact (done_modify.mp h₁).1
    · exact h₁.1
  have haccepts : Accepts (t.emitTailcallByRegister slot reg) :=
    hslot.bind fun _ => (accepts_write _).bind fun _ => (accepts_write _).when.bind fun _ =>
      accepts_write _
  obtain ⟨slotItems, s₁, hdone, rfl⟩ :=
    done_emitTailcallByRegister (haccepts.done_of_dropRefusal hdrop)
  rw [hnone]
  exact ⟨slotItems, s₀, s₁, hdone, rfl⟩

end Shapes

end Translation

end N64Recomp
