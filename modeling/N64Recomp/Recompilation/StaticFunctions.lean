import N64Recomp.Overlays.SectionTable
import N64Recomp.Recompilation.FunctionBounds
import N64Recomp.Recompilation.RecompileFunction

/-!
# Static functions

The pass that makes a function of every address that the code refers to and that no function starts
at. Inside of a function the new one starts where that function does and is entered in its middle;
elsewhere the bounds are discovered, or taken from the next function. Words that carry an absolute
relocation are data, and end the function.

## Main definitions

* `StaticTarget.staticFunc`: the function that is made for an address
* `StaticPass.run`: the turns of the pass
* `StaticRight`: the function is entered at one of its own words, and is in its section
* `StaticTarget.Fits`: what the section has to be like for that

## Main results

* `functions_run`: what the pass appends to the context
* `staticsRight_iff`: when every function that is appended is right
-/

namespace N64Recomp

/-! ### The function at an address -/

/-- `find_containing_function_in_section`. -/
def Context.findContainingFunctionInSection (context : Context) (vram : BitVec 32) (s : Nat) :
    Option Function :=
  (context.functionsOf s).find? fun func =>
    func.words ≠ [] ∧ func.vram < vram ∧ vram < func.vramEnd

/-- `std::min` of two addresses. -/
def minVram (x y : BitVec 32) : BitVec 32 := if y < x then y else x

/-- The words of the ROM from an address on, as they are stored. Outside of the ROM there are
zeros. -/
def storedWords (rom : List (BitVec 8)) (romAddr : BitVec 32) (n : Nat) : List (BitVec 32) :=
  (List.range n).map fun k => byteswap ((romWord rom (romAddr.toNat + 4 * k)).getD 0)

/-- Where the words of the code end: at the first word that carries an absolute relocation. -/
def mips32Cut (relocs : List Reloc) (codeFuncStart curFuncEnd : BitVec 32) : BitVec 32 :=
  relocs.foldl (fun cut rel =>
    if rel.type = .mips32 ∧ codeFuncStart ≤ rel.address ∧ rel.address < curFuncEnd then
      minVram cut rel.address
    else cut) curFuncEnd

/-- An address of a static function and what the pass knows when its turn comes. -/
structure StaticTarget where
  context : Context
  sectionIndex : Nat
  sect : Section
  sectionEncodedVram : BitVec 32
  /-- The static functions of the section that are known. -/
  staticsSet : SortedSet (BitVec 32)
  addr : BitVec 32

/-- The words of a function that is made. -/
structure CodeSpan where
  start : BitVec 32
  rom : BitVec 32
  stop : BitVec 32
  deriving DecidableEq, Repr

namespace StaticTarget

variable (dec : Decoder) (hasBranchLabel : BitVec 32 → Bool) (t : StaticTarget)

/-- `section_base_for_vram`. -/
def sectionBaseForVram (vram : BitVec 32) : BitVec 32 :=
  if t.sectionEncodedVram ≤ vram ∧ vram ≤ t.sectionEncodedVram + t.sect.size then
    t.sectionEncodedVram
  else t.sect.ramAddr

/-- `static_decode_base`. -/
def decodeBase : BitVec 32 := t.sectionBaseForVram t.addr

def sectionEnd : BitVec 32 := t.decodeBase + t.sect.size

/-- The bytes of the section. -/
def body : List (BitVec 8) :=
  (List.range t.sect.size.toNat).map fun i => t.context.rom.getD (t.sect.romAddr.toNat + i) 0

/-- `span_ends_after_conditional_branch_delay`. The sum with the size of two words is one of 64
bits. -/
def spanEndsAfterConditionalBranchDelay (spanEnd : BitVec 32) : Bool :=
  let spanBase := t.sectionBaseForVram spanEnd
  if spanEnd.toNat < spanBase.toNat + 8 ∨ spanBase + t.sect.size < spanEnd then false
  else
    let branchVram := spanEnd - 8
    let branchWord := (romWord t.context.rom
      (t.sect.romAddr.toNat + (branchVram - spanBase).toNat)).getD 0
    dec.isValid branchWord && (conditionalBranchOps (dec.uniqueId branchWord)).isSome

/-- The functions that end one without known bounds. -/
def boundaryFuncs : List Function :=
  (t.context.functionsOf t.sectionIndex).filter fun func =>
    func.words ≠ [] ∧ ¬isStaticName func.name

/-- The next function of the section, or the end of the section. -/
def boundaryEnd : BitVec 32 :=
  t.boundaryFuncs.foldl (fun curFuncEnd func =>
    if t.addr < func.vram ∧ func.vram < curFuncEnd then func.vram else curFuncEnd) t.sectionEnd

/-- The bounds that are discovered from an address on. -/
def discover (vram : BitVec 32) : Bounds :=
  discoverFunctionBounds dec hasBranchLabel t.body t.decodeBase (vram - t.decodeBase)

/-- A range that ends behind the slot of a branch, where another static function is, goes on with
that. -/
def extendEnd (curFuncEnd : BitVec 32) : BitVec 32 :=
  if curFuncEnd ∈ t.staticsSet ∧ t.spanEndsAfterConditionalBranchDelay dec curFuncEnd then
    match t.discover dec hasBranchLabel curFuncEnd with
    | .found fallthroughSize =>
      let extendedEnd := minVram (curFuncEnd + BitVec.ofNat 32 fallthroughSize) t.sectionEnd
      if fallthroughSize ≠ 0 ∧ curFuncEnd < extendedEnd then extendEnd extendedEnd
      else curFuncEnd
    | _ => curFuncEnd
  else curFuncEnd
termination_by 2 ^ 32 - curFuncEnd.toNat
decreasing_by
  rename_i h
  exact Nat.sub_lt_sub_left (Nat.lt_trans h.2 (BitVec.isLt _)) h.2

/-- The end of a static function that is in no other function. -/
def neighbourEnd : BitVec 32 :=
  match t.discover dec hasBranchLabel t.addr with
  | .found discoveredSize =>
    t.extendEnd dec hasBranchLabel
      (minVram (t.addr + BitVec.ofNat 32 discoveredSize) t.sectionEnd)
  | _ => t.boundaryEnd

/-- Where the words are, before the relocations are looked at. -/
def codeSpan : CodeSpan :=
  match t.context.findContainingFunctionInSection t.addr t.sectionIndex with
  | some func => ⟨func.vram, func.rom, func.vramEnd⟩
  | none => ⟨t.addr, t.addr - t.decodeBase + t.sect.romAddr, t.neighbourEnd dec hasBranchLabel⟩

/-- The function of a number of words, entered at the address. -/
def madeFunc (span : CodeSpan) (n : Nat) : Function :=
  Function.mk' span.start span.rom (storedWords t.context.rom span.rom n)
    (staticName t.sectionIndex t.addr) (BitVec.ofNat 16 t.sectionIndex) false false false t.addr

/-- The function that is made: none where one starts already, which gets an alias, and none where no
code is left. -/
def staticFunc : Option Function :=
  if (t.context.findExactFunctionInSection t.addr t.sectionIndex).isSome then none
  else
    let span := t.codeSpan dec hasBranchLabel
    let curFuncEnd := mips32Cut t.sect.relocs span.start span.stop
    if curFuncEnd ≤ span.start then none
    else some (t.madeFunc span ((curFuncEnd - span.start).toNat / 4))

end StaticTarget

/-! ### The pass -/

/-- What the pass starts from. `recompile` is the translation of the function at an index, as far as
the static functions that it requests are concerned. -/
structure StaticPass where
  decoder : Decoder
  hasBranchLabel : BitVec 32 → Bool
  recompile : Context → Nat → Statics → Statics
  context : Context
  /-- `static_funcs_by_section`. -/
  statics : Statics

/-- What the loops over the sections and their static functions keep. -/
structure PassState where
  context : Context
  statics : Statics
  sectionIndex : Nat
  sectionEncodedVram : BitVec 32
  staticsSet : SortedSet (BitVec 32)
  /-- The static functions of the section whose turn is still to come. -/
  sectionStatics : List (BitVec 32)
  /-- The addresses that had their turn. -/
  visits : List StaticTarget

/-- `context.functions.emplace_back`, and the tables of the functions. -/
def Context.appendStatic (context : Context) (sectionIndex : Nat) (addr : BitVec 32)
    (func : Function) : Context :=
  let newFuncIndex := context.functions.length
  { context with
    functions := context.functions ++ [func]
    sectionFunctions := context.sectionFunctions.modify sectionIndex (· ++ [newFuncIndex])
    functionsByVram := fun vram =>
      if vram = addr then context.functionsByVram vram ++ [newFuncIndex]
      else context.functionsByVram vram }

/-- The static functions of a section that are not known yet go to the end of its list. -/
def PassState.enqueue (st : PassState) (newStaticVram : BitVec 32) : PassState :=
  if newStaticVram ∈ st.staticsSet then st
  else { st with
    staticsSet := st.staticsSet.insert newStaticVram
    sectionStatics := st.sectionStatics ++ [newStaticVram] }

namespace StaticPass

variable (pass : StaticPass)

/-- The head of the loop over the sections. -/
def enterSection (context : Context) (statics : Statics) (sectionIndex : Nat)
    (visits : List StaticTarget) : PassState :=
  let staticsSet := SortedSet.ofList (statics.getD sectionIndex [])
  { context
    statics
    sectionIndex
    sectionEncodedVram := inferRecompSectionEncodedVramBase context sectionIndex
    staticsSet
    sectionStatics := staticsSet.elems
    visits }

/-- The turn of an address. -/
def visit (st : PassState) (addr : BitVec 32) : PassState :=
  let t : StaticTarget := {
    context := st.context
    sectionIndex := st.sectionIndex
    sect := st.context.sectionAt st.sectionIndex
    sectionEncodedVram := st.sectionEncodedVram
    staticsSet := st.staticsSet
    addr }
  let st := { st with visits := st.visits ++ [t] }
  match t.staticFunc pass.decoder pass.hasBranchLabel with
  | none => st
  | some func =>
    let context := st.context.appendStatic st.sectionIndex addr func
    let statics := pass.recompile context st.context.functions.length st.statics
    -- what the translation requested of the section in the new function's 16-bit index
    let i := func.sectionIndex.toNat
    let newStatics := (statics.getD i []).drop (st.statics.getD i []).length
    newStatics.foldl PassState.enqueue { st with context, statics }

/-- One turn of the loops. -/
def turn (st : PassState) : PassState :=
  if st.context.sections.length ≤ st.sectionIndex then st
  else
    match st.sectionStatics with
    | addr :: rest => pass.visit { st with sectionStatics := rest } addr
    | [] => enterSection st.context st.statics (st.sectionIndex + 1) st.visits

/-- The pass after a number of turns. -/
def run : Nat → PassState
  | 0 => enterSection pass.context pass.statics 0 []
  | n + 1 => pass.turn (run n)

end StaticPass

/-! ### What is right, and what it takes -/

/-- Whether a word that starts in a range of addresses carries an absolute relocation. -/
def Section.HasMips32 (sect : Section) (lo hi : Nat) : Prop :=
  ∃ rel ∈ sect.relocs, rel.type = .mips32 ∧ lo ≤ rel.address.toNat ∧ rel.address.toNat < hi

/-- **A static function is right**: its entry is a word-aligned address in its range, and that of
one of its own words; and its words are in the section, at the base that it is decoded at and in
the ROM. -/
structure StaticRight (t : StaticTarget) (func : Function) : Prop where
  entered : func.vram.toNat ≤ func.entryVram.toNat ∧
    func.entryVram.toNat < func.vram.toNat + func.byteSize
  aligned : func.entryVram.toNat % 4 = 0
  target : ∃ instr ∈ decodeFrom func.vram func.words, instr.vram = func.entryVram
  ram : t.decodeBase.toNat ≤ func.vram.toNat ∧
    func.vram.toNat + func.byteSize ≤ t.decodeBase.toNat + t.sect.size.toNat
  rom : t.sect.romAddr.toNat ≤ func.rom.toNat ∧
    func.rom.toNat + func.byteSize ≤ t.sect.romAddr.toNat + t.sect.size.toNat

/-- The pass is right so far: what it appended to the context are the functions of the addresses
that had their turn in their sections, and each of them is right. -/
structure StaticsRight (pass : StaticPass) (n : Nat) : Prop where
  sections : ∀ t ∈ (pass.run n).visits, pass.context.sections[t.sectionIndex]? = some t.sect
  appended : (pass.run n).context.functions = pass.context.functions ++
    (pass.run n).visits.filterMap (·.staticFunc pass.decoder pass.hasBranchLabel)
  right : ∀ t ∈ (pass.run n).visits, ∀ func,
    t.staticFunc pass.decoder pass.hasBranchLabel = some func → StaticRight t func

/-- An address fits into the function around it: both are aligned, no word up to the one at the
address carries an absolute relocation, and the words up to the first that does are in the
section. -/
structure FitsInside (t : StaticTarget) (func : Function) : Prop where
  aligned : t.addr.toNat % 4 = 0 ∧ func.vram.toNat % 4 = 0
  code : ¬t.sect.HasMips32 func.vram.toNat (t.addr.toNat + 4)
  starts : t.decodeBase.toNat ≤ func.vram.toNat ∧ t.sect.romAddr.toNat ≤ func.rom.toNat
  ends : ∀ k, func.vram.toNat + 4 * k ≤ func.vramEnd.toNat →
    ¬t.sect.HasMips32 func.vram.toNat (func.vram.toNat + 4 * k) →
    func.vram.toNat + 4 * k ≤ t.decodeBase.toNat + t.sect.size.toNat ∧
      func.rom.toNat + 4 * k ≤ t.sect.romAddr.toNat + t.sect.size.toNat

/-- An address fits outside of all functions: it is aligned and in the section, its word carries no
absolute relocation, and when no bounds are discovered no function starts within its word. -/
structure FitsOutside (dec : Decoder) (hasBranchLabel : BitVec 32 → Bool) (t : StaticTarget) :
    Prop where
  aligned : t.addr.toNat % 4 = 0
  inside : t.decodeBase.toNat ≤ t.addr.toNat ∧ t.addr.toNat + 4 ≤ t.sectionEnd.toNat
  inRom : t.sect.romAddr.toNat + (t.addr.toNat - t.decodeBase.toNat) < 2 ^ 32
  code : ¬t.sect.HasMips32 t.addr.toNat (t.addr.toNat + 4)
  bounded : (∃ size, t.discover dec hasBranchLabel t.addr = .found size) ∨
    ∀ func ∈ t.boundaryFuncs, t.addr < func.vram → t.addr.toNat + 4 ≤ func.vram.toNat

/-- An address fits, or nothing is made of it: a function starts there, or its code would begin with
a word that carries an absolute relocation, or behind the section. -/
def StaticTarget.Fits (dec : Decoder) (hasBranchLabel : BitVec 32 → Bool) (t : StaticTarget) :
    Prop :=
  (t.context.findExactFunctionInSection t.addr t.sectionIndex).isSome ∨
    match t.context.findContainingFunctionInSection t.addr t.sectionIndex with
    | some func =>
      t.sect.HasMips32 func.vram.toNat (func.vram.toNat + 1) ∨ FitsInside t func
    | none =>
      t.sectionEnd ≤ t.addr ∨ t.sect.HasMips32 t.addr.toNat (t.addr.toNat + 1) ∨
        FitsOutside dec hasBranchLabel t

/-! ### Where a function ends -/

section Ends

variable {sect : Section} {start stop : BitVec 32} {x : Nat}

theorem toNat_minVram (a b : BitVec 32) : (minVram a b).toNat = min a.toNat b.toNat := by
  unfold minVram
  split_ifs with h
  · exact (Nat.min_eq_right (Nat.le_of_lt h)).symm
  · exact (Nat.min_eq_left (Nat.not_lt.mp h)).symm

/-- A bound of a value that every turn of a loop lowers at most to its own. -/
theorem le_foldl_iff {α : Type} {step : BitVec 32 → α → BitVec 32} (bound : α → Prop)
    (hstep : ∀ cut a, x ≤ (step cut a).toNat ↔ x ≤ cut.toNat ∧ bound a) (l : List α)
    (cut : BitVec 32) : x ≤ (l.foldl step cut).toNat ↔ x ≤ cut.toNat ∧ ∀ a ∈ l, bound a := by
  induction l generalizing cut with
  | nil => simp
  | cons a l ih =>
    rw [List.foldl_cons, ih, hstep, List.forall_mem_cons, and_assoc]

/-- The code goes on up to the first word that carries an absolute relocation. -/
theorem le_mips32Cut_iff : x ≤ (mips32Cut sect.relocs start stop).toNat ↔
    x ≤ stop.toNat ∧ ¬sect.HasMips32 start.toNat x := by
  unfold mips32Cut
  rw [le_foldl_iff fun rel => rel.type = .mips32 → start ≤ rel.address → rel.address < stop →
    x ≤ rel.address.toNat]
  · refine and_congr_right fun hstop => ⟨?_, ?_⟩
    · rintro hall ⟨rel, hrel, htype, hlo, hhi⟩
      have := hall rel hrel htype hlo (Nat.lt_of_lt_of_le hhi hstop)
      omega
    · intro hnone rel hrel htype hlo _
      by_contra hlt
      exact hnone ⟨rel, hrel, htype, hlo, Nat.not_le.mp hlt⟩
  · intro cut rel
    split_ifs with h
    · rw [toNat_minVram, Nat.le_min]
      exact and_congr_right fun _ => ⟨fun hle _ _ _ => hle, fun hle => hle h.1 h.2.1 h.2.2⟩
    · exact ⟨fun hle => ⟨hle, fun htype hlo hhi => absurd ⟨htype, hlo, hhi⟩ h⟩, And.left⟩

theorem mips32Cut_le : (mips32Cut sect.relocs start stop).toNat ≤ stop.toNat :=
  (le_mips32Cut_iff.mp (Nat.le_refl _)).1

/-- No code is left when the first word carries an absolute relocation, or when there is no word. -/
theorem mips32Cut_le_start_iff : (mips32Cut sect.relocs start stop).toNat ≤ start.toNat ↔
    stop.toNat ≤ start.toNat ∨ sect.HasMips32 start.toNat (start.toNat + 1) := by
  rw [← not_iff_not, Nat.not_le, ← Nat.succ_le_iff, le_mips32Cut_iff, not_or, Nat.not_le,
    Nat.succ_le_iff]

end Ends

namespace StaticTarget

variable {dec : Decoder} {hasBranchLabel : BitVec 32 → Bool} {t : StaticTarget} {x : Nat}

theorem le_boundaryEnd_iff : x ≤ t.boundaryEnd.toNat ↔ x ≤ t.sectionEnd.toNat ∧
    ∀ func ∈ t.boundaryFuncs, t.addr < func.vram → x ≤ func.vram.toNat := by
  refine le_foldl_iff _ (fun cut func => ?_) _ _
  split_ifs with h
  · have hlt : func.vram.toNat < cut.toNat := h.2
    exact ⟨fun hle => ⟨by omega, fun _ => hle⟩, fun hle => hle.2 h.1⟩
  · refine ⟨fun hle => ⟨hle, fun haddr => ?_⟩, And.left⟩
    have hge : ¬func.vram.toNat < cut.toNat := fun hlt => h ⟨haddr, hlt⟩
    omega

@[simp] theorem length_body : t.body.length = t.sect.size.toNat := by
  simp [body]

/-- The extensions stay in the section, and only lengthen a range. -/
theorem extendEnd_within (curFuncEnd : BitVec 32) (h : curFuncEnd.toNat ≤ t.sectionEnd.toNat) :
    curFuncEnd.toNat ≤ (t.extendEnd dec hasBranchLabel curFuncEnd).toNat ∧
      (t.extendEnd dec hasBranchLabel curFuncEnd).toNat ≤ t.sectionEnd.toNat := by
  induction curFuncEnd using extendEnd.induct dec hasBranchLabel t with
  | case1 curFuncEnd hmore size hfound extendedEnd hlt ih =>
    have hend : extendedEnd.toNat ≤ t.sectionEnd.toNat := by
      rw [toNat_minVram]
      exact Nat.min_le_right _ _
    obtain ⟨hle, hwithin⟩ := ih hend
    have hstep : curFuncEnd.toNat < extendedEnd.toNat := hlt.2
    rw [extendEnd, if_pos hmore, hfound]
    dsimp only
    rw [if_pos hlt]
    exact ⟨(Nat.le_of_lt hstep).trans hle, hwithin⟩
  | case2 curFuncEnd hmore size hfound extendedEnd hstop =>
    rw [extendEnd, if_pos hmore, hfound]
    dsimp only
    rw [if_neg hstop]
    exact ⟨Nat.le_refl _, h⟩
  | case3 curFuncEnd hmore hnone =>
    rw [extendEnd, if_pos hmore]
    split
    · rename_i size hfound
      exact absurd hfound (hnone size)
    · exact ⟨Nat.le_refl _, h⟩
  | case4 curFuncEnd hmore =>
    rw [extendEnd, if_neg hmore]
    exact ⟨Nat.le_refl _, h⟩

theorem toNat_sectionEnd :
    t.sectionEnd.toNat = (t.decodeBase.toNat + t.sect.size.toNat) % 2 ^ 32 :=
  BitVec.toNat_add _ _

theorem toNat_offset : (t.addr - t.decodeBase).toNat =
    (2 ^ 32 - t.decodeBase.toNat + t.addr.toNat) % 2 ^ 32 := BitVec.toNat_sub _ _

/-- Bounds that are discovered are in the section, and not empty. -/
theorem discover_within {vram : BitVec 32} {size : Nat}
    (h : t.discover dec hasBranchLabel vram = .found size) :
    0 < size ∧ (vram - t.decodeBase).toNat + size ≤ t.sect.size.toNat := by
  have hwithin := discoverFunctionBounds_within h
  rwa [length_body] at hwithin

/-- They hold the word at the address. -/
theorem four_le_of_discover {vram : BitVec 32} {size : Nat}
    (h : t.discover dec hasBranchLabel vram = .found size)
    (hword : (vram - t.decodeBase).toNat + 4 ≤ t.sect.size.toNat) : 4 ≤ size := by
  obtain ⟨visited, taken, -, -, hsize⟩ := of_found h
  have hmax := (le_foldl_max visited (vram - t.decodeBase).toNat).1
  rw [length_body] at hsize
  omega

/-- Nothing ends behind the section. -/
theorem neighbourEnd_le : (t.neighbourEnd dec hasBranchLabel).toNat ≤ t.sectionEnd.toNat := by
  unfold neighbourEnd
  split
  · refine (extendEnd_within _ ?_).2
    rw [toNat_minVram]
    exact Nat.min_le_right _ _
  · exact (le_boundaryEnd_iff.mp (Nat.le_refl _)).1

/-- Bounds that are discovered are in the range, which does not reach past the last address. -/
theorem le_neighbourEnd_of_discover {size : Nat}
    (h : t.discover dec hasBranchLabel t.addr = .found size)
    (hinside : t.addr.toNat < t.sectionEnd.toNat) :
    t.addr.toNat + size ≤ (t.neighbourEnd dec hasBranchLabel).toNat := by
  obtain ⟨-, hwithin⟩ := discover_within h
  have hrange : t.addr.toNat + size < 2 ^ 32 ∧ t.addr.toNat + size ≤ t.sectionEnd.toNat := by
    have hbase := t.decodeBase.isLt
    have hsize := t.sect.size.isLt
    have haddr := t.addr.isLt
    rw [toNat_offset] at hwithin
    rw [toNat_sectionEnd] at hinside ⊢
    omega
  have hend : (t.addr + BitVec.ofNat 32 size).toNat = t.addr.toNat + size := by
    rw [BitVec.toNat_add, BitVec.toNat_ofNat, Nat.mod_eq_of_lt (a := size) (by omega),
      Nat.mod_eq_of_lt hrange.1]
  unfold neighbourEnd
  rw [h]
  dsimp only
  refine le_trans ?_ (extendEnd_within _ ?_).1
  · rw [toNat_minVram, hend]
    exact Nat.le_min.mpr ⟨Nat.le_refl _, hrange.2⟩
  · rw [toNat_minVram]
    exact Nat.min_le_right _ _

theorem neighbourEnd_of_not_found
    (h : ∀ size, t.discover dec hasBranchLabel t.addr ≠ .found size) :
    t.neighbourEnd dec hasBranchLabel = t.boundaryEnd := by
  unfold neighbourEnd
  split
  · rename_i size hfound
    exact absurd hfound (h size)
  · rfl

/-- Something is left of every address in front of the section's end. -/
theorem neighbourEnd_le_addr_iff : (t.neighbourEnd dec hasBranchLabel).toNat ≤ t.addr.toNat ↔
    t.sectionEnd.toNat ≤ t.addr.toNat := by
  refine ⟨fun hle => ?_, fun hle => neighbourEnd_le.trans hle⟩
  by_contra hlt
  have hlt := Nat.not_le.mp hlt
  by_cases hfound : ∃ size, t.discover dec hasBranchLabel t.addr = .found size
  · obtain ⟨size, hfound⟩ := hfound
    have hpos := (discover_within hfound).1
    have := le_neighbourEnd_of_discover hfound hlt
    omega
  · rw [neighbourEnd_of_not_found (not_exists.mp hfound)] at hle
    have hboundary : t.addr.toNat + 1 ≤ t.boundaryEnd.toNat :=
      le_boundaryEnd_iff.mpr ⟨hlt, fun func _ hfunc => hfunc⟩
    omega

/-- The range holds the word at its start, unless another function starts within the word. -/
theorem word_le_neighbourEnd_iff (hbase : t.decodeBase.toNat ≤ t.addr.toNat)
    (hend : t.addr.toNat + 4 ≤ t.sectionEnd.toNat) :
    t.addr.toNat + 4 ≤ (t.neighbourEnd dec hasBranchLabel).toNat ↔
      (∃ size, t.discover dec hasBranchLabel t.addr = .found size) ∨
        ∀ func ∈ t.boundaryFuncs, t.addr < func.vram → t.addr.toNat + 4 ≤ func.vram.toNat := by
  by_cases hfound : ∃ size, t.discover dec hasBranchLabel t.addr = .found size
  · refine iff_of_true ?_ (.inl hfound)
    obtain ⟨size, hfound⟩ := hfound
    have hle := le_neighbourEnd_of_discover hfound (by omega)
    have hsize := four_le_of_discover hfound (by
      have := t.sect.size.isLt
      have := t.decodeBase.isLt
      have := t.addr.isLt
      rw [toNat_sectionEnd] at hend
      rw [toNat_offset]
      omega)
    omega
  · rw [neighbourEnd_of_not_found (not_exists.mp hfound), le_boundaryEnd_iff]
    exact ⟨fun h => .inr h.2, fun h => ⟨hend, h.resolve_left hfound⟩⟩

/-! ### The function that is made -/

@[simp] theorem byteSize_madeFunc (span : CodeSpan) (n : Nat) :
    (t.madeFunc span n).byteSize = n * 4 := by
  simp [madeFunc, Function.mk', Function.byteSize, storedWords]

/-- The address `0` stands for the start, which is the entry then. -/
theorem entryVram_madeFunc {span : CodeSpan} (hstart : span.start.toNat ≤ t.addr.toNat) (n : Nat) :
    (t.madeFunc span n).entryVram = t.addr := by
  change (if t.addr ≠ 0 then t.addr else span.start) = t.addr
  split_ifs with h
  · rfl
  · rw [not_not.mp h] at hstart ⊢
    exact BitVec.eq_of_toNat_eq (Nat.le_zero.mp hstart)

/-- The entry is the address of a word of the range. -/
theorem entry_mem_madeFunc_iff {span : CodeSpan} {n : Nat}
    (hstart : span.start.toNat ≤ t.addr.toNat) (hend : span.start.toNat + 4 * n < 2 ^ 32) :
    (∃ instr ∈ decodeFrom (t.madeFunc span n).vram (t.madeFunc span n).words,
        instr.vram = (t.madeFunc span n).entryVram) ↔
      (t.addr.toNat - span.start.toNat) % 4 = 0 ∧ t.addr.toNat + 4 ≤ span.start.toNat + 4 * n := by
  rw [entryVram_madeFunc hstart]
  have hwords : ∀ k, (decodeFrom span.start (storedWords t.context.rom span.rom n))[k]?.map
      (·.vram) = if k < n then some (span.start + BitVec.ofNat 32 (4 * k)) else none := by
    intro k
    rw [getElem?_decodeFrom, Option.map_map]
    split_ifs with hk
    · rw [List.getElem?_eq_getElem (by simpa [storedWords] using hk)]
      rfl
    · rw [List.getElem?_eq_none (by simpa [storedWords] using hk)]
      rfl
  have haddress : ∀ k, k < n →
      (span.start + BitVec.ofNat 32 (4 * k)).toNat = span.start.toNat + 4 * k := by
    intro k hk
    rw [BitVec.toNat_add, BitVec.toNat_ofNat, Nat.mod_eq_of_lt (a := 4 * k) (by omega),
      Nat.mod_eq_of_lt (by omega)]
  constructor
  · rintro ⟨instr, hmem, hvram⟩
    obtain ⟨k, hk⟩ := List.mem_iff_getElem?.mp hmem
    have hword := hwords k
    change (decodeFrom span.start (storedWords t.context.rom span.rom n))[k]? = some instr at hk
    rw [hk, Option.map_some, hvram] at hword
    split_ifs at hword with hlt
    have heq := congrArg BitVec.toNat (Option.some.inj hword)
    rw [haddress k hlt] at heq
    omega
  · rintro ⟨hmod, hle⟩
    have hlt : (t.addr.toNat - span.start.toNat) / 4 < n := by omega
    have hword := hwords ((t.addr.toNat - span.start.toNat) / 4)
    rw [if_pos hlt] at hword
    obtain ⟨instr, hinstr, hvram⟩ := Option.map_eq_some_iff.mp hword
    refine ⟨instr, List.mem_iff_getElem?.mpr ⟨_, hinstr⟩, hvram.trans (BitVec.eq_of_toNat_eq ?_)⟩
    rw [haddress _ hlt]
    omega

/-- **What is right of a range of words.** -/
theorem staticRight_madeFunc_iff {span : CodeSpan} {n : Nat}
    (hstart : span.start.toNat ≤ t.addr.toNat) (hend : span.start.toNat + 4 * n < 2 ^ 32) :
    StaticRight t (t.madeFunc span n) ↔
      (t.addr.toNat % 4 = 0 ∧ span.start.toNat % 4 = 0) ∧
        t.addr.toNat + 4 ≤ span.start.toNat + 4 * n ∧
        (t.decodeBase.toNat ≤ span.start.toNat ∧
          span.start.toNat + 4 * n ≤ t.decodeBase.toNat + t.sect.size.toNat) ∧
        (t.sect.romAddr.toNat ≤ span.rom.toNat ∧
          span.rom.toNat + 4 * n ≤ t.sect.romAddr.toNat + t.sect.size.toNat) := by
  constructor
  · intro h
    obtain ⟨hmod, hle⟩ := (entry_mem_madeFunc_iff hstart hend).mp h.target
    have haligned := h.aligned
    have hram := h.ram
    have hrom := h.rom
    rw [entryVram_madeFunc hstart] at haligned
    rw [byteSize_madeFunc, Nat.mul_comm n 4] at hram hrom
    exact ⟨⟨haligned, by omega⟩, hle, hram, hrom⟩
  · rintro ⟨⟨haddr, hspan⟩, hle, hram, hrom⟩
    refine {
      entered := ?_
      aligned := ?_
      target := (entry_mem_madeFunc_iff hstart hend).mpr ⟨by omega, hle⟩
      ram := ?_
      rom := ?_ }
    · rw [entryVram_madeFunc hstart, byteSize_madeFunc]
      exact ⟨hstart, show t.addr.toNat < span.start.toNat + n * 4 by omega⟩
    · rw [entryVram_madeFunc hstart]
      exact haddr
    · rw [byteSize_madeFunc, Nat.mul_comm n 4]
      exact hram
    · rw [byteSize_madeFunc, Nat.mul_comm n 4]
      exact hrom

/-- The code of a range of words ends behind the word at the address, and what it has of whole words
is in the section. -/
def SpanFits (t : StaticTarget) (span : CodeSpan) : Prop :=
  ∃ n, span.start.toNat + 4 * n ≤ (mips32Cut t.sect.relocs span.start span.stop).toNat ∧
    (mips32Cut t.sect.relocs span.start span.stop).toNat < span.start.toNat + 4 * n + 4 ∧
    (t.addr.toNat % 4 = 0 ∧ span.start.toNat % 4 = 0) ∧
    t.addr.toNat + 4 ≤ (mips32Cut t.sect.relocs span.start span.stop).toNat ∧
    (t.decodeBase.toNat ≤ span.start.toNat ∧
      span.start.toNat + 4 * n ≤ t.decodeBase.toNat + t.sect.size.toNat) ∧
    (t.sect.romAddr.toNat ≤ span.rom.toNat ∧
      span.rom.toNat + 4 * n ≤ t.sect.romAddr.toNat + t.sect.size.toNat)

/-- What is made of a range of words is right when the range fits, or when nothing is left of it. -/
theorem right_of_span_iff (span : CodeSpan) (hstart : span.start.toNat ≤ t.addr.toNat) :
    (∀ func, (if mips32Cut t.sect.relocs span.start span.stop ≤ span.start then none
        else some (t.madeFunc span
          ((mips32Cut t.sect.relocs span.start span.stop - span.start).toNat / 4))) = some func →
      StaticRight t func) ↔
      (span.stop.toNat ≤ span.start.toNat ∨
        t.sect.HasMips32 span.start.toNat (span.start.toNat + 1)) ∨ t.SpanFits span := by
  unfold SpanFits
  rw [← mips32Cut_le_start_iff]
  generalize mips32Cut t.sect.relocs span.start span.stop = cut
  by_cases hcut : cut.toNat ≤ span.start.toNat
  · rw [if_pos (show cut ≤ span.start from hcut)]
    exact iff_of_true nofun (.inl hcut)
  · rw [if_neg (show ¬cut ≤ span.start from hcut), or_iff_right hcut]
    have hlt := cut.isLt
    have hsub : (cut - span.start).toNat = cut.toNat - span.start.toNat :=
      BitVec.toNat_sub_of_le (Nat.le_of_lt (Nat.not_le.mp hcut))
    have hright := staticRight_madeFunc_iff (n := (cut - span.start).toNat / 4) hstart
      (by rw [hsub]; omega)
    constructor
    · intro h
      obtain ⟨halign, hle, hram, hrom⟩ := hright.mp (h _ rfl)
      rw [hsub] at hle hram hrom
      exact ⟨_, by omega, by omega, halign, by omega, hram, hrom⟩
    · rintro ⟨n, hn, hn', halign, hle, hram, hrom⟩ func hfunc
      cases hfunc
      have hwords : (cut - span.start).toNat / 4 = n := by
        rw [hsub]
        omega
      rw [hwords] at hright ⊢
      exact hright.mpr ⟨halign, by omega, hram, hrom⟩

/-- Inside of another function. -/
theorem spanFits_inside_iff {func : Function}
    (hwords : func.vram < t.addr ∧ t.addr < func.vramEnd) :
    t.SpanFits ⟨func.vram, func.rom, func.vramEnd⟩ ↔ FitsInside t func := by
  unfold SpanFits
  dsimp only
  have hstart : func.vram.toNat < t.addr.toNat := hwords.1
  have hstop : t.addr.toNat < func.vramEnd.toNat := hwords.2
  constructor
  · rintro ⟨n, hn, hn', halign, hle, hram, hrom⟩
    refine {
      aligned := halign
      code := (le_mips32Cut_iff.mp hle).2
      starts := ⟨hram.1, hrom.1⟩
      ends := ?_ }
    intro k hk hcode
    have hcut := le_mips32Cut_iff.mpr ⟨hk, hcode⟩
    omega
  · intro h
    have hend : func.vramEnd.toNat % 4 = func.vram.toNat % 4 := by
      rw [Function.vramEnd, Function.byteSize, BitVec.toNat_ofNat]
      omega
    have hle : t.addr.toNat + 4 ≤ (mips32Cut t.sect.relocs func.vram func.vramEnd).toNat := by
      have := h.aligned
      exact le_mips32Cut_iff.mpr ⟨by omega, h.code⟩
    obtain ⟨n, hn, hn'⟩ : ∃ n, func.vram.toNat + 4 * n ≤
        (mips32Cut t.sect.relocs func.vram func.vramEnd).toNat ∧
        (mips32Cut t.sect.relocs func.vram func.vramEnd).toNat < func.vram.toNat + 4 * n + 4 :=
      ⟨((mips32Cut t.sect.relocs func.vram func.vramEnd).toNat - func.vram.toNat) / 4, by omega,
        by omega⟩
    obtain ⟨hstops, hcode⟩ := le_mips32Cut_iff.mp hn
    obtain ⟨hram, hrom⟩ := h.ends n hstops hcode
    exact ⟨n, hn, hn', h.aligned, hle, ⟨h.starts.1, hram⟩, h.starts.2, hrom⟩

/-- Outside of all functions. -/
theorem spanFits_outside_iff :
    t.SpanFits ⟨t.addr, t.addr - t.decodeBase + t.sect.romAddr,
      t.neighbourEnd dec hasBranchLabel⟩ ↔ FitsOutside dec hasBranchLabel t := by
  unfold SpanFits
  dsimp only
  have hbase := t.decodeBase.isLt
  have hsize := t.sect.size.isLt
  have haddr := t.addr.isLt
  have hromAddr := t.sect.romAddr.isLt
  have hrom : t.decodeBase.toNat ≤ t.addr.toNat →
      (t.addr - t.decodeBase + t.sect.romAddr).toNat =
        (t.addr.toNat - t.decodeBase.toNat + t.sect.romAddr.toNat) % 2 ^ 32 := fun hle => by
    rw [BitVec.toNat_add, BitVec.toNat_sub_of_le hle]
  have hsection := t.toNat_sectionEnd
  constructor
  · rintro ⟨n, hn, hn', halign, hle, hram, hrange⟩
    obtain ⟨hword, hcode⟩ := le_mips32Cut_iff.mp hle
    have hinside := hword.trans neighbourEnd_le
    rw [hrom hram.1] at hrange
    exact {
      aligned := halign.1
      inside := ⟨hram.1, hinside⟩
      inRom := by omega
      code := hcode
      bounded := (word_le_neighbourEnd_iff hram.1 hinside).mp hword }
  · intro h
    obtain ⟨hle, hinside⟩ := h.inside
    have hword := le_mips32Cut_iff.mpr
      ⟨(word_le_neighbourEnd_iff hle hinside).mpr h.bounded, h.code⟩
    have hwithin : (mips32Cut t.sect.relocs t.addr (t.neighbourEnd dec hasBranchLabel)).toNat ≤
        t.sectionEnd.toNat := mips32Cut_le.trans neighbourEnd_le
    have halign := h.aligned
    have hinRom := h.inRom
    rw [hrom hle]
    generalize (mips32Cut t.sect.relocs t.addr (t.neighbourEnd dec hasBranchLabel)).toNat = cut
      at hword hwithin
    exact ⟨(cut - t.addr.toNat) / 4, by omega, by omega, ⟨halign, halign⟩, hword,
      ⟨hle, by omega⟩, by omega, by omega⟩

/-- **The function that is made for an address is right, if and only if the address fits.** -/
theorem staticFunc_right_iff :
    (∀ func, t.staticFunc dec hasBranchLabel = some func → StaticRight t func) ↔
      t.Fits dec hasBranchLabel := by
  unfold staticFunc Fits
  by_cases hexact : (t.context.findExactFunctionInSection t.addr t.sectionIndex).isSome
  · rw [if_pos hexact]
    exact iff_of_true nofun (.inl hexact)
  · rw [if_neg hexact, or_iff_right hexact]
    unfold codeSpan
    cases hcontaining : t.context.findContainingFunctionInSection t.addr t.sectionIndex with
    | some func =>
      have hfound := List.find?_some hcontaining
      simp only [decide_eq_true_eq] at hfound
      have hstart : func.vram.toNat < t.addr.toNat := hfound.2.1
      have hstop : t.addr.toNat < func.vramEnd.toNat := hfound.2.2
      refine (right_of_span_iff ⟨func.vram, func.rom, func.vramEnd⟩ (Nat.le_of_lt hstart)).trans ?_
      rw [spanFits_inside_iff hfound.2,
        or_iff_right (a := func.vramEnd.toNat ≤ func.vram.toNat) (by omega)]
    | none =>
      refine (right_of_span_iff ⟨t.addr, _, _⟩ (Nat.le_refl _)).trans ?_
      rw [spanFits_outside_iff, neighbourEnd_le_addr_iff, or_assoc]
      rfl

end StaticTarget

/-! ### The run of the pass -/

namespace StaticPass

variable (pass : StaticPass)

/-- What the pass did so far. -/
structure Visited (st : PassState) : Prop where
  context : st.context.sections = pass.context.sections
  sections : ∀ t ∈ st.visits, pass.context.sections[t.sectionIndex]? = some t.sect
  appended : st.context.functions = pass.context.functions ++
    st.visits.filterMap (·.staticFunc pass.decoder pass.hasBranchLabel)

variable {pass} {st : PassState}

/-- Only the lists of static functions change. -/
theorem foldl_enqueue_frame (l : List (BitVec 32)) (st : PassState) :
    (l.foldl PassState.enqueue st).context = st.context ∧
      (l.foldl PassState.enqueue st).visits = st.visits := by
  induction l generalizing st with
  | nil => exact ⟨rfl, rfl⟩
  | cons vram l ih =>
    obtain ⟨hcontext, hvisits⟩ := ih (st.enqueue vram)
    have hframe : (st.enqueue vram).context = st.context ∧
        (st.enqueue vram).visits = st.visits := by
      unfold PassState.enqueue
      split_ifs
      · exact ⟨rfl, rfl⟩
      · exact ⟨rfl, rfl⟩
    exact ⟨hcontext.trans hframe.1, hvisits.trans hframe.2⟩

/-- **The turn of an address**: it is recorded, and the function that is made for it, if any, is put
behind the others. -/
theorem Visited.visit (h : pass.Visited st) (haddr : st.sectionIndex < st.context.sections.length)
    (addr : BitVec 32) : pass.Visited (pass.visit st addr) := by
  have hsect : pass.context.sections[st.sectionIndex]? =
      some (st.context.sectionAt st.sectionIndex) := by
    rw [← h.context, Context.sectionAt, List.getD_eq_getElem?_getD,
      List.getElem?_eq_getElem haddr, Option.getD_some]
  unfold StaticPass.visit
  dsimp only
  split
  · rename_i hnone
    refine ⟨h.context, ?_, ?_⟩
    · intro t ht
      rcases List.mem_append.mp ht with ht | ht
      · exact h.sections t ht
      · rw [List.mem_singleton.mp ht]
        exact hsect
    · rw [List.filterMap_append, List.filterMap_cons_none hnone, List.filterMap_nil,
        List.append_nil]
      exact h.appended
  · rename_i func hsome
    obtain ⟨hcontext, hvisits⟩ := foldl_enqueue_frame _ _
    refine ⟨?_, ?_, ?_⟩
    · rw [hcontext]
      exact h.context
    · rw [hvisits]
      intro t ht
      rcases List.mem_append.mp ht with ht | ht
      · exact h.sections t ht
      · rw [List.mem_singleton.mp ht]
        exact hsect
    · rw [hcontext, hvisits, List.filterMap_append, List.filterMap_cons_some hsome,
        List.filterMap_nil, ← List.append_assoc, ← h.appended]
      rfl

/-- What a turn preserves. -/
theorem Visited.turn (h : pass.Visited st) : pass.Visited (pass.turn st) := by
  unfold StaticPass.turn
  split_ifs with hend
  · exact h
  · split
    · rename_i addr rest _
      have hrest : pass.Visited { st with sectionStatics := rest } :=
        ⟨h.context, h.sections, h.appended⟩
      exact hrest.visit (Nat.not_le.mp hend) addr
    · exact ⟨h.context, h.sections, h.appended⟩

/-- **What the pass appends to the context**: the functions of the addresses that had their turn, in
that order. -/
theorem functions_run (n : Nat) : pass.Visited (pass.run n) := by
  induction n with
  | zero => exact ⟨rfl, fun t ht => absurd ht List.not_mem_nil, (List.append_nil _).symm⟩
  | succ n ih => exact ih.turn

end StaticPass

/-- **Every function that the pass appends is right, if and only if every address that had its turn
fits.** -/
theorem staticsRight_iff (pass : StaticPass) (n : Nat) :
    StaticsRight pass n ↔
      ∀ t ∈ (pass.run n).visits, t.Fits pass.decoder pass.hasBranchLabel := by
  have hvisited := pass.functions_run n
  constructor
  · intro h t ht
    exact t.staticFunc_right_iff.mp (h.right t ht)
  · intro h
    exact {
      sections := hvisited.sections
      appended := hvisited.appended
      right := fun t ht => t.staticFunc_right_iff.mpr (h t ht) }

/-- A function with a word of data behind its first one, and a static function behind that. -/
def dataWordPass : StaticPass where
  decoder := .ofId sampleId
  hasBranchLabel _ := true
  recompile _ _ statics := statics
  context := { Context.empty with
    sections := [{ Section.empty with
      ramAddr := 0x80000000
      size := 0x10
      relocs := [{
        address := 0x80000004
        targetSectionOffset := 0
        symbolIndex := 0
        targetSection := 0
        type := .mips32
        referenceSymbol := false }] }]
    functions := [Function.mk' 0x80000000 0 [0, 0, 0, 0] (ascii "func_80000000") 0 false false
      false 0]
    sectionFunctions := [[0]]
    functionsByVram := fun vram => if vram = 0x80000000 then [0] else []
    rom := List.replicate 0x10 0 }
  statics := [[0x80000008]]

/-- The range ends in front of the entry. -/
theorem dataWordPass_not_right : ¬∀ n, StaticsRight dataWordPass n := by
  intro h
  have hvisit : ∃ t ∈ (dataWordPass.run 1).visits, ∃ func,
      t.staticFunc dataWordPass.decoder dataWordPass.hasBranchLabel = some func ∧
        func.vram = 0x80000000 ∧ func.entryVram = 0x80000008 ∧ func.byteSize = 4 :=
    ⟨_, List.mem_singleton_self _, _, rfl, rfl, rfl, rfl⟩
  obtain ⟨t, ht, func, hfunc, hvram, hentry, hsize⟩ := hvisit
  have hentered := ((h 1).right t ht func hfunc).entered.2
  rw [hvram, hentry, hsize] at hentered
  exact absurd hentered (by decide)

end N64Recomp
