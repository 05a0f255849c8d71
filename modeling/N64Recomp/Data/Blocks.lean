import Mathlib.Data.List.Induction
import N64Recomp.Data.Widths

/-!
# Blocks in a growing list

Blocks are written into a list at given positions; the list grows, with a filler, to hold a block
that ends past it. Blocks whose ranges do not meet are all read back after any sequence of writes.

## Main definitions

* `writeBlock`, `writeBlocks`, `readBlock`
* `Apart`: two ranges without a common position

## Main results

* `readBlock_writeBlock`, `readBlock_writeBlock_of_apart`: what one write leaves to be read
* `readBlock_writeBlocks`: every block of a sequence of blocks apart from each other is read back
-/

namespace Blocks

variable {α : Type}

/-- The list with a filler up to a length. -/
def growTo (filler : α) (n : Nat) (l : List α) : List α :=
  l ++ List.replicate (n - l.length) filler

/-- The list with a block at a position. -/
def writeBlock (filler : α) (l : List α) (start : Nat) (block : List α) : List α :=
  let grown := growTo filler (start + block.length) l
  grown.take start ++ block ++ grown.drop (start + block.length)

def writeBlocks (filler : α) (l : List α) (blocks : List (Nat × List α)) : List α :=
  blocks.foldl (fun l b => writeBlock filler l b.1 b.2) l

def readBlock (l : List α) (start size : Nat) : List α := (l.drop start).take size

/-- Two ranges, given by their starts and sizes, have no common position. -/
def Apart (a b : Nat × Nat) : Prop := a.2 = 0 ∨ b.2 = 0 ∨ a.1 + a.2 ≤ b.1 ∨ b.1 + b.2 ≤ a.1

instance (a b : Nat × Nat) : Decidable (Apart a b) := by
  unfold Apart
  infer_instance

section Ranges

variable {a b : Nat × Nat}

theorem Apart.symm (h : Apart a b) : Apart b a := by
  unfold Apart at *
  omega

theorem apart_iff : Apart a b ↔ ∀ x, ¬ ((a.1 ≤ x ∧ x < a.1 + a.2) ∧ b.1 ≤ x ∧ x < b.1 + b.2) := by
  constructor
  · unfold Apart
    omega
  · intro h
    have hmax := h (max a.1 b.1)
    unfold Apart
    omega

end Ranges

section Writes

variable {filler : α} {l block : List α} {start start' size' : Nat}

@[simp] theorem length_growTo (n : Nat) : (growTo filler n l).length = max l.length n := by
  rw [growTo, List.length_append, List.length_replicate]
  omega

@[simp] theorem length_writeBlock :
    (writeBlock filler l start block).length = max l.length (start + block.length) := by
  simp only [writeBlock, List.length_append, List.length_take, List.length_drop, length_growTo]
  omega

theorem getElem?_growTo_of_lt {i n : Nat} (h : i < l.length) :
    (growTo filler n l)[i]? = l[i]? := List.getElem?_append_left h

/-- A position of the block. -/
theorem getElem?_writeBlock {i : Nat} (h : i < block.length) :
    (writeBlock filler l start block)[start + i]? = block[i]? := by
  have htake : ((growTo filler (start + block.length) l).take start).length = start := by
    rw [List.length_take, length_growTo]
    omega
  unfold writeBlock
  dsimp only
  rw [List.append_assoc, List.getElem?_append_right (by omega), htake, Nat.add_sub_cancel_left,
    List.getElem?_append_left h]

/-- A position outside of the block. -/
theorem getElem?_writeBlock_of_outside {i : Nat} (hi : i < l.length)
    (h : i < start ∨ start + block.length ≤ i) :
    (writeBlock filler l start block)[i]? = l[i]? := by
  have htake : ((growTo filler (start + block.length) l).take start).length = start := by
    rw [List.length_take, length_growTo]
    omega
  unfold writeBlock
  dsimp only
  rcases h with h | h
  · rw [List.append_assoc, List.getElem?_append_left (by omega), List.getElem?_take_of_lt h,
      getElem?_growTo_of_lt hi]
  · rw [List.getElem?_append_right (by rw [List.length_append]; omega), List.getElem?_drop,
      List.length_append, htake]
    rw [show start + block.length + (i - (start + block.length)) = i by omega,
      getElem?_growTo_of_lt hi]

theorem readBlock_eq_iff :
    readBlock l start block.length = block ↔ ∀ i, i < block.length → l[start + i]? = block[i]? := by
  unfold readBlock
  constructor
  · intro heq i hi
    rw [← List.getElem?_drop, ← List.getElem?_take_of_lt hi, heq]
  · intro hget
    apply List.ext_getElem?
    intro i
    rcases Nat.lt_or_ge i block.length with hi | hi
    · rw [List.getElem?_take_of_lt hi, List.getElem?_drop, hget i hi]
    · rw [List.getElem?_eq_none (by rw [List.length_take]; omega), List.getElem?_eq_none hi]

/-- A written block is read back. -/
theorem readBlock_writeBlock :
    readBlock (writeBlock filler l start block) start block.length = block :=
  readBlock_eq_iff.mpr fun _ hi => getElem?_writeBlock hi

/-- A write leaves the ranges apart from it. -/
theorem readBlock_writeBlock_of_apart (hsize : start' + size' ≤ l.length)
    (h : Apart (start', size') (start, block.length)) :
    readBlock (writeBlock filler l start block) start' size' = readBlock l start' size' := by
  apply List.ext_getElem?
  intro i
  unfold readBlock
  rcases Nat.lt_or_ge i size' with hi | hi
  · rw [List.getElem?_take_of_lt hi, List.getElem?_take_of_lt hi, List.getElem?_drop,
      List.getElem?_drop]
    rcases h with h | h | h | h
    · dsimp only at h
      omega
    · dsimp only at h
      exact getElem?_writeBlock_of_outside (by omega) (by omega)
    · dsimp only at h
      exact getElem?_writeBlock_of_outside (by omega) (by omega)
    · dsimp only at h
      exact getElem?_writeBlock_of_outside (by omega) (by omega)
  · rw [List.getElem?_eq_none (by rw [List.length_take]; omega),
      List.getElem?_eq_none (by rw [List.length_take]; omega)]

/-- **Every block is read back** when the blocks are apart from each other. -/
theorem readBlock_writeBlocks {blocks : List (Nat × List α)}
    (h : blocks.Pairwise fun a b => Apart (a.1, a.2.length) (b.1, b.2.length)) :
    ∀ b ∈ blocks, b.1 + b.2.length ≤ (writeBlocks filler l blocks).length ∧
      readBlock (writeBlocks filler l blocks) b.1 b.2.length = b.2 := by
  induction blocks using List.reverseRecOn with
  | nil => simp
  | append_singleton blocks last ih =>
    have hlast : writeBlocks filler l (blocks ++ [last]) =
        writeBlock filler (writeBlocks filler l blocks) last.1 last.2 := by
      rw [writeBlocks, List.foldl_append]
      rfl
    obtain ⟨hbefore, _, hcross⟩ := List.pairwise_append.mp h
    intro b hb
    rw [hlast, length_writeBlock]
    rcases List.mem_append.mp hb with hb | hb
    · obtain ⟨hsize, hread⟩ := ih hbefore b hb
      refine ⟨by omega, ?_⟩
      rw [readBlock_writeBlock_of_apart hsize (hcross b hb last List.mem_cons_self), hread]
    · rw [List.mem_singleton.mp hb]
      exact ⟨by omega, readBlock_writeBlock⟩

end Writes

end Blocks
