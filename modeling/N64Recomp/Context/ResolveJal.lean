import N64Recomp.Context.Types

/-!
# Direct calls and the functions they name

The search for the function at the target of a direct call or a tail call, and the address at which
the function that it selects is entered.

## Main definitions

* `inferRecompSectionEncodedVramBase`, `resolveJal`: the search
* `Function.entry`: where the code emitted for a function begins
* `StartsAreEntries`: the tables name a function only at its entry

## Main results

* `resolveJal_enters_target_iff`: the selected function is entered at the target for every caller
  and target if and only if the tables name a function only at its entry
-/

namespace N64Recomp

/-! ### The search -/

namespace Context

variable (context : Context)

/-- The section at an index that the program has checked. -/
def sectionAt (i : Nat) : Section := context.sections.getD i Section.empty

/-- The functions that are registered at an address, in the order of their registration. -/
def functionsAt (vram : BitVec 32) : List (Nat × Function) :=
  (context.functionsByVram vram).filterMap fun i => context.functions[i]?.map fun f => (i, f)

/-- The functions of a section. -/
def functionsOf (i : Nat) : List Function :=
  (context.sectionFunctions.getD i []).filterMap fun j => context.functions[j]?

end Context

/-- `address >= start && address < end`, where the end wraps. -/
def inWindow (start size address : BitVec 32) : Bool := start ≤ address ∧ address < start + size

/-- Whether the base of a section is inferred from the function. -/
def Section.measures (sect : Section) (func : Function) : Bool :=
  (!func.words.isEmpty || func.reimplemented) &&
    decide (sect.romAddr.toNat ≤ func.rom.toNat ∧
      func.rom.toNat < sect.romAddr.toNat + sect.size.toNat)

/-- The link base at which the functions of a section are encoded, when they agree on one. -/
def inferRecompSectionEncodedVramBase (context : Context) (i : Nat) : BitVec 32 :=
  if context.sections.length ≤ i ∨ context.sectionFunctions.length ≤ i then 0
  else
    let sect := context.sectionAt i
    let bases := ((context.functionsOf i).filter sect.measures).map fun func =>
      func.vram - (func.rom - sect.romAddr)
    match bases with
    | [] => sect.ramAddr
    | base :: rest => if rest.all (· = base) then base else sect.ramAddr

/-- Whether the address is in one of the two windows of the section: the encoded and the link
base. -/
def inSection (context : Context) (i : Nat) (address : BitVec 32) : Bool :=
  let sect := context.sectionAt i
  inWindow (inferRecompSectionEncodedVramBase context i) sect.size address ||
    inWindow sect.ramAddr sect.size address

inductive JalResolutionResult
  | noMatch
  | match_ (functionIndex : Nat)
  | createStatic (staticSectionIndex : Nat)
  | ambiguous
  deriving DecidableEq, Repr

/-- A symbol without words is only a target when it is a manual patch. -/
def Function.isTarget (func : Function) : Bool :=
  !func.words.isEmpty || isManualPatchSymbol func.vram

/-- Whether the fallback over all functions may name the function. -/
def Function.hasBody (func : Function) : Bool :=
  !func.words.isEmpty || func.reimplemented || isManualPatchSymbol func.vram

/-- The walk over the symbols at the target. A symbol of the caller's section ends it. -/
def matchedFuncs (context : Context) (cur : Nat) :
    List (Nat × Function) → List Nat → Bool × List Nat
  | [], found => (false, found)
  | (i, func) :: rest, found =>
    if !func.isTarget then matchedFuncs context cur rest found
    else if func.sectionIndex.toNat = cur then (true, [i])
    else if (context.sectionAt func.sectionIndex.toNat).relocatable then
      matchedFuncs context cur rest found
    else matchedFuncs context cur rest (found ++ [i])

/-- The fallback: the first function that starts at the target in the section. -/
def findStart (context : Context) (target : BitVec 32) (i : Nat) : Option Nat :=
  context.functions.findIdx? fun func =>
    func.vram = target ∧ func.sectionIndex.toNat = i ∧ func.hasBody

/-- The resolution of a target that no symbol names, outside of the caller's section. -/
def resolveBySection (context : Context) (target : BitVec 32) : JalResolutionResult :=
  match (List.range context.sections.length).filter (inSection context · target) with
  | [] => .noMatch
  | [i] =>
    match findStart context target i with
    | some j => .match_ j
    | none => .createStatic i
  | _ => .ambiguous

def resolveJal (context : Context) (cur : Nat) (target : BitVec 32) : JalResolutionResult :=
  if context.useLookupForAllFunctionCalls then .ambiguous
  else
    let (exactMatchFound, found) := matchedFuncs context cur (context.functionsAt target) []
    if inSection context cur target then
      match exactMatchFound, found with
      | true, i :: _ => .match_ i
      | _, _ => .createStatic cur
    else
      match found with
      | [] => resolveBySection context target
      | [i] => .match_ i
      | _ => .ambiguous

/-! ### The entry of the selected function -/

/-- Where the code emitted for a function begins: its preamble jumps to an interior entry. -/
def Function.entry (func : Function) : BitVec 32 :=
  if func.entryVram ≠ 0 ∧ func.entryVram ≠ func.vram then func.entryVram else func.vram

namespace Context

variable (context : Context)

/-- The first symbol that a caller in the section finds at the address. -/
def firstOf (cur : Nat) (target : BitVec 32) : Option (Nat × Function) :=
  (context.functionsAt target).find? fun x => x.2.isTarget && x.2.sectionIndex.toNat = cur

/-- The symbols at the address that every caller may name: those of sections that do not move. -/
def fixedAt (target : BitVec 32) : List (Nat × Function) :=
  (context.functionsAt target).filter fun x =>
    x.2.isTarget && !(context.sectionAt x.2.sectionIndex.toNat).relocatable

/-- The tables name a function only at its entry: the first symbol that a section has at an address
is entered there, and so is the first function that starts there, where a caller of another section
falls back on it. -/
structure StartsAreEntries : Prop where
  registered : ∀ cur target i func, context.firstOf cur target = some (i, func) →
    func.entry = target
  fallback : ∀ cur target i j func, inSection context cur target = false →
    context.firstOf cur target = none → context.fixedAt target = [] →
    (List.range context.sections.length).filter (inSection context · target) = [i] →
    findStart context target i = some j → context.functions[j]? = some func →
    func.entry = target

end Context

section Search

variable {context : Context} {cur : Nat} {target : BitVec 32}

/-- What the walk finds: the first symbol of the caller's section, or else every symbol of a section
that does not move. -/
theorem matchedFuncs_eq (l : List (Nat × Function)) (found : List Nat) :
    matchedFuncs context cur l found =
      match l.find? fun x => x.2.isTarget && x.2.sectionIndex.toNat = cur with
      | some x => (true, [x.1])
      | none => (false, found ++ (l.filter fun x =>
          x.2.isTarget && !(context.sectionAt x.2.sectionIndex.toNat).relocatable).map (·.1)) := by
  induction l generalizing found with
  | nil => simp [matchedFuncs]
  | cons x rest ih =>
    obtain ⟨i, func⟩ := x
    unfold matchedFuncs
    cases htarget : func.isTarget with
    | false => simp [htarget, ih]
    | true =>
      by_cases hcur : func.sectionIndex.toNat = cur
      · simp [htarget, hcur]
      · by_cases hreloc : (context.sectionAt func.sectionIndex.toNat).relocatable
        · simp [htarget, hcur, hreloc, ih]
        · simp [htarget, hcur, hreloc, ih]

theorem functions_of_mem_functionsAt {i : Nat} {func : Function}
    (h : (i, func) ∈ context.functionsAt target) : context.functions[i]? = some func := by
  obtain ⟨j, -, hj⟩ := List.mem_filterMap.mp h
  cases hf : context.functions[j]? with
  | none => simp [hf] at hj
  | some f =>
    simp only [hf, Option.map_some, Option.some.injEq, Prod.mk.injEq] at hj
    obtain ⟨rfl, rfl⟩ := hj
    exact hf

theorem firstOf_mem {x : Nat × Function} (h : context.firstOf cur target = some x) :
    x ∈ context.functionsAt target := List.mem_of_find?_eq_some h

/-- The search, in terms of the tables. -/
theorem resolveJal_eq (hlookup : context.useLookupForAllFunctionCalls = false) :
    resolveJal context cur target =
      match context.firstOf cur target with
      | some x => .match_ x.1
      | none =>
        if inSection context cur target then .createStatic cur
        else
          match context.fixedAt target with
          | [] => resolveBySection context target
          | [x] => .match_ x.1
          | _ => .ambiguous := by
  unfold resolveJal
  rw [if_neg (by simp [hlookup]), matchedFuncs_eq]
  unfold Context.firstOf Context.fixedAt
  cases hfirst : (context.functionsAt target).find? fun x =>
      x.2.isTarget && x.2.sectionIndex.toNat = cur with
  | some x =>
    simp only
    split <;> rfl
  | none =>
    simp only [List.nil_append]
    cases (context.functionsAt target).filter fun x =>
        x.2.isTarget && !(context.sectionAt x.2.sectionIndex.toNat).relocatable with
    | nil => simp
    | cons x rest =>
      cases rest with
      | nil => simp
      | cons y rest => simp

/-- A lone symbol of a section that does not move is the first of its section. -/
theorem firstOf_of_fixedAt {i : Nat} {func : Function}
    (h : context.fixedAt target = [(i, func)]) :
    context.firstOf func.sectionIndex.toNat target = some (i, func) := by
  have hmem : (i, func) ∈ context.fixedAt target := by
    rw [h]
    exact List.mem_singleton_self _
  obtain ⟨hat, hfixed⟩ := List.mem_filter.mp hmem
  simp only [Bool.and_eq_true, Bool.not_eq_true'] at hfixed
  obtain ⟨htarget, hreloc⟩ := hfixed
  cases hfirst : context.firstOf func.sectionIndex.toNat target with
  | none =>
    have hnone := List.find?_eq_none.mp hfirst (i, func) hat
    simp [htarget] at hnone
  | some x =>
    have hx := List.find?_some hfirst
    simp only [Bool.and_eq_true, decide_eq_true_eq] at hx
    have hxmem : x ∈ context.fixedAt target := by
      refine List.mem_filter.mpr ⟨firstOf_mem hfirst, ?_⟩
      rw [hx.1, hx.2, hreloc]
      rfl
    rw [h, List.mem_singleton] at hxmem
    rw [hxmem]

end Search

/-- Callers in the section of a symbol, and callers that fall back, reach every function that the
tables misname. -/
theorem startsAreEntries_of_enters {context : Context}
    (hlookup : context.useLookupForAllFunctionCalls = false)
    (h : ∀ cur target i func, resolveJal context cur target = .match_ i →
      context.functions[i]? = some func → func.entry = target) : context.StartsAreEntries := by
  refine ⟨?_, ?_⟩
  · intro cur target i func hfirst
    refine h cur target i func ?_ (functions_of_mem_functionsAt (firstOf_mem hfirst))
    rw [resolveJal_eq hlookup, hfirst]
  · intro cur target i j func hout hfirst hfixed hsections hstart hfunc
    refine h cur target j func ?_ hfunc
    rw [resolveJal_eq hlookup, hfirst]
    simp only [hout, hfixed, Bool.false_eq_true, if_false, resolveBySection, hsections, hstart]

theorem enters_of_startsAreEntries {context : Context} {cur i : Nat} {target : BitVec 32}
    {func : Function} (hlookup : context.useLookupForAllFunctionCalls = false)
    (h : context.StartsAreEntries) (hmatch : resolveJal context cur target = .match_ i)
    (hfunc : context.functions[i]? = some func) : func.entry = target := by
  rw [resolveJal_eq hlookup] at hmatch
  cases hfirst : context.firstOf cur target with
  | some x =>
    obtain ⟨j, g⟩ := x
    rw [hfirst] at hmatch
    obtain rfl : j = i := by simpa using hmatch
    have hg := functions_of_mem_functionsAt (firstOf_mem hfirst)
    obtain rfl := Option.some.inj (hg.symm.trans hfunc)
    exact h.registered cur target j g hfirst
  | none =>
    rw [hfirst] at hmatch
    simp only at hmatch
    split at hmatch
    · cases hmatch
    · rename_i hout
      split at hmatch
      · -- no symbol: the fallback over the functions of the only section
        rename_i hfixed
        unfold resolveBySection at hmatch
        split at hmatch
        · cases hmatch
        · rename_i k hsections
          split at hmatch
          · rename_i j hstart
            obtain rfl : j = i := by simpa using hmatch
            exact h.fallback cur target k j func (by simpa using hout) hfirst hfixed hsections
              hstart hfunc
          · cases hmatch
        · cases hmatch
      · rename_i x hfixed
        obtain ⟨j, g⟩ := x
        obtain rfl : j = i := by simpa using hmatch
        have hg := functions_of_mem_functionsAt (firstOf_mem (firstOf_of_fixedAt hfixed))
        obtain rfl := Option.some.inj (hg.symm.trans hfunc)
        exact h.registered _ target j g (firstOf_of_fixedAt hfixed)
      · cases hmatch

/-- **The selected function is entered at the target.** For every caller and every target, if and
only if every call is looked up at run time or the tables name a function only at its entry. -/
theorem resolveJal_enters_target_iff (context : Context) :
    (∀ cur target i func, resolveJal context cur target = .match_ i →
        context.functions[i]? = some func → func.entry = target) ↔
      context.useLookupForAllFunctionCalls = true ∨ context.StartsAreEntries := by
  cases hlookup : context.useLookupForAllFunctionCalls with
  | true =>
    refine ⟨fun _ => .inl rfl, ?_⟩
    intro _ cur target i func hmatch
    simp [resolveJal, hlookup] at hmatch
  | false =>
    simp only [Bool.false_eq_true, false_or]
    exact ⟨startsAreEntries_of_enters hlookup, fun h _ _ _ _ => enters_of_startsAreEntries hlookup h⟩

end N64Recomp
