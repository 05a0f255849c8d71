import Mathlib.Data.List.Basic
import N64Recomp.Context.Names
import N64Recomp.Context.ResolveJal

/-!
# The functions of a decompressed section

How the pass over a decompressed section adds the functions that it finds, and under which addresses
they are registered.

## Main definitions

* `BlobSection`: what the pass over one section keeps
* `addFunction`, `addKnownSizeFunction`: the two ways to add a function

## Main results

* `BlobSection.addFunction_misnames`: a function with an interior entry is named at its start
-/

namespace N64Recomp

/-- The state of the pass over a section whose body is `blob`. -/
structure BlobSection where
  context : Context
  sectionIndex : BitVec 16
  vram : BitVec 32
  syntheticRom : BitVec 32
  blob : List (BitVec 8)
  relocOffset : BitVec 32
  functionIndexByOffset : BitVec 32 → Option Nat
  emittedOffsets : List (BitVec 32)
  emittedRanges : List (BitVec 32 × BitVec 32)

/-- The word that `memcpy` reads at an offset, on a little-endian host. -/
def hostWord (blob : List (BitVec 8)) (offset : Nat) : BitVec 32 :=
  blob.getD (offset + 3) 0 ++ blob.getD (offset + 2) 0 ++ blob.getD (offset + 1) 0 ++
    blob.getD offset 0

/-- Adds an index to the functions registered at an address. -/
def Context.registerAt (context : Context) (vram : BitVec 32) (i : Nat) : Context :=
  { context with functionsByVram := fun a =>
      if a = vram then context.functionsByVram a ++ [i] else context.functionsByVram a }

namespace BlobSection

/-- `add_function`: a function with an interior entry is registered at its start and at its entry. -/
def addFunction (pass : BlobSection) (fVram fRom : BitVec 32) (words : List (BitVec 32))
    (name : Str) (entryVram : BitVec 32) : BlobSection :=
  let context := pass.context
  let fi := context.functions.length
  let func := Function.mk' fVram fRom words name pass.sectionIndex false false false entryVram
  let context := { context with
    functions := context.functions ++ [func]
    sectionFunctions := context.sectionFunctions.modify pass.sectionIndex.toNat (· ++ [fi])
    sections := context.sections.modify pass.sectionIndex.toNat fun sect =>
      { sect with functionAddrs := sect.functionAddrs ++ [fVram] } }
  let context := context.registerAt fVram fi
  let context :=
    if entryVram ≠ 0 ∧ entryVram ≠ fVram then context.registerAt entryVram fi else context
  let offset := fVram - pass.vram
  { pass with
    context
    functionIndexByOffset :=
      if pass.vram ≤ fVram ∧ fVram < pass.vram + pass.relocOffset ∧ offset &&& 3 = 0 then
        fun o => if o = offset then some fi else pass.functionIndexByOffset o
      else pass.functionIndexByOffset }

/-- `add_known_size_function`, with the entry at `dispatchEntryOffset` when that is not `0`. -/
def addKnownSizeFunction (pass : BlobSection) (entryOffset : BitVec 32) (funcSize : Nat)
    (maxEndOffset dispatchEntryOffset : BitVec 32) : BlobSection × Bool :=
  let effectiveEntryOffset := if dispatchEntryOffset ≠ 0 then dispatchEntryOffset else entryOffset
  if entryOffset ∈ pass.emittedOffsets ∨ effectiveEntryOffset ∈ pass.emittedOffsets then
    (pass, false)
  else
    let funcEnd := entryOffset.toNat + funcSize
    if funcSize = 0 ∨ pass.relocOffset.toNat < funcEnd ∨ funcSize % 4 ≠ 0 ∨
        effectiveEntryOffset < entryOffset ∨ funcEnd ≤ effectiveEntryOffset.toNat ∨
        (maxEndOffset ≠ 0 ∧ maxEndOffset.toNat < funcEnd) then
      (pass, false)
    else
      let words := (List.range (funcSize / 4)).map fun i =>
        hostWord pass.blob (entryOffset.toNat + 4 * i)
      let name := ascii "func_" ++ hex8 (pass.vram + effectiveEntryOffset)
      let pass := pass.addFunction (pass.vram + entryOffset) (pass.syntheticRom + entryOffset) words
        name (pass.vram + effectiveEntryOffset)
      ({ pass with
        emittedOffsets := effectiveEntryOffset :: entryOffset :: pass.emittedOffsets
        emittedRanges := pass.emittedRanges ++ [(entryOffset, BitVec.ofNat 32 funcEnd)] }, true)

section AddFunction

variable (pass : BlobSection) (fVram fRom entryVram : BitVec 32) (words : List (BitVec 32))
  (name : Str)

/-- The function that is added is found at its start, after what was registered there before. -/
theorem functionsAt_addFunction (hindex : ∀ a, ∀ i ∈ pass.context.functionsByVram a,
      i < pass.context.functions.length) (hentry : entryVram ≠ fVram) :
    (pass.addFunction fVram fRom words name entryVram).context.functionsAt fVram =
      pass.context.functionsAt fVram ++ [(pass.context.functions.length,
        Function.mk' fVram fRom words name pass.sectionIndex false false false entryVram)] := by
  have hvram : (pass.addFunction fVram fRom words name entryVram).context.functionsByVram fVram =
      pass.context.functionsByVram fVram ++ [pass.context.functions.length] := by
    unfold addFunction
    simp only
    split <;> simp [Context.registerAt, hentry.symm]
  have hfunctions : (pass.addFunction fVram fRom words name entryVram).context.functions =
      pass.context.functions ++
        [Function.mk' fVram fRom words name pass.sectionIndex false false false entryVram] := by
    unfold addFunction
    simp only
    split <;> rfl
  unfold Context.functionsAt
  rw [hvram, hfunctions, List.filterMap_append]
  congr 1
  · refine List.filterMap_congr fun i hi => ?_
    rw [List.getElem?_append_left (hindex fVram i hi)]
  · simp

/-- A function with an interior entry is found at its start by the callers of its section, unless an
earlier symbol of the section is there. -/
theorem addFunction_misnames (hindex : ∀ a, ∀ i ∈ pass.context.functionsByVram a,
      i < pass.context.functions.length) (hentry : entryVram ≠ 0) (hne : entryVram ≠ fVram)
    (hwords : words ≠ [])
    (hfirst : pass.context.firstOf pass.sectionIndex.toNat fVram = none) :
    ¬(pass.addFunction fVram fRom words name entryVram).context.StartsAreEntries := by
  intro h
  have hfound : (pass.addFunction fVram fRom words name entryVram).context.firstOf
      pass.sectionIndex.toNat fVram = some (pass.context.functions.length,
        Function.mk' fVram fRom words name pass.sectionIndex false false false entryVram) := by
    unfold Context.firstOf at hfirst ⊢
    rw [functionsAt_addFunction pass fVram fRom entryVram words name hindex hne,
      List.find?_append, hfirst]
    simp [Function.isTarget, Function.mk', hwords]
  have hstart := h.registered _ _ _ _ hfound
  simp only [Function.entry, Function.mk', hentry, hne, ne_eq, not_false_eq_true, if_true,
    and_self] at hstart

end AddFunction

end BlobSection

/-- A section of four words, and no function yet. -/
def blankPass : BlobSection where
  context := { Context.empty with
    sections := [{ Section.empty with ramAddr := 0x8D000000, size := 0x10 }]
    sectionFunctions := [[]] }
  sectionIndex := 0
  vram := 0x8D000000
  syntheticRom := 0
  blob := []
  relocOffset := 0x10
  functionIndexByOffset := fun _ => none
  emittedOffsets := []
  emittedRanges := []

/-- A call to the start of a function that is entered at its third word. -/
theorem resolveJal_misses_target :
    ¬∀ (context : Context) (cur : Nat) (target : BitVec 32) (i : Nat) (func : Function),
      resolveJal context cur target = .match_ i → context.functions[i]? = some func →
        func.entry = target := by
  intro h
  have hmiss := h (blankPass.addKnownSizeFunction 0 0x10 0 8).1.context 0 0x8D000000 0 _
    (by decide) rfl
  revert hmiss
  decide

end N64Recomp
