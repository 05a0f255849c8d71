import N64Recomp.Data.Widths

/-!
# Words of the ROM

The big-endian words of the target ROM, at any byte index.

## Main definitions

* `romWord`, `setRomWord`: reading and writing a word

## Main results

* `romWord_setRomWord`, `romWord_setRomWord_of_disjoint`: what a write leaves to be read
-/

namespace N64Recomp

/-- The big-endian word at an index of the ROM, when the ROM has one there. -/
def romWord (rom : List (BitVec 8)) (i : Nat) : Option (BitVec 32) := do
  return (← rom[i]?) ++ (← rom[i + 1]?) ++ (← rom[i + 2]?) ++ (← rom[i + 3]?)

/-- The byte of a big-endian word at an offset. -/
def wordByte (word : BitVec 32) (k : Nat) : BitVec 8 := word.extractLsb' (24 - 8 * k) 8

/-- The ROM with a word at an index; nothing is written past its end. -/
def setRomWord (rom : List (BitVec 8)) (i : Nat) (word : BitVec 32) : List (BitVec 8) :=
  (((rom.set i (wordByte word 0)).set (i + 1) (wordByte word 1)).set (i + 2) (wordByte word 2)).set
    (i + 3) (wordByte word 3)

variable {rom : List (BitVec 8)} {i j : Nat} {word : BitVec 32}

/-- A word is read when its last byte is in the ROM. -/
theorem romWord_isSome_iff : (romWord rom i).isSome ↔ i + 4 ≤ rom.length := by
  unfold romWord
  by_cases h : i + 4 ≤ rom.length
  · rw [List.getElem?_eq_getElem (by omega), List.getElem?_eq_getElem (by omega),
      List.getElem?_eq_getElem (by omega), List.getElem?_eq_getElem (by omega)]
    simp [h]
  · have hlast : rom[i + 3]? = none := List.getElem?_eq_none (by omega)
    rw [hlast]
    cases rom[i]? <;> cases rom[i + 1]? <;> cases rom[i + 2]? <;> simp [h]

theorem wordByte_append (word : BitVec 32) :
    wordByte word 0 ++ wordByte word 1 ++ wordByte word 2 ++ wordByte word 3 = word := by
  unfold wordByte
  ext k hk
  simp only [BitVec.getElem_append, BitVec.getElem_extractLsb']
  split
  · simp [BitVec.getLsbD_eq_getElem hk]
  · split
    · simp only [show 24 - 8 * 2 + (k - 8) = k by omega, BitVec.getLsbD_eq_getElem hk]
    · split
      · simp only [show 24 - 8 * 1 + (k - 8 - 8) = k by omega, BitVec.getLsbD_eq_getElem hk]
      · simp only [show 24 - 8 * 0 + (k - 8 - 8 - 8) = k by omega, BitVec.getLsbD_eq_getElem hk]

@[simp] theorem length_setRomWord : (setRomWord rom i word).length = rom.length := by
  simp [setRomWord]

/-- A written word is read back. -/
theorem romWord_setRomWord (h : i + 4 ≤ rom.length) :
    romWord (setRomWord rom i word) i = some word := by
  have h0 : i < rom.length := by omega
  have h1 : i + 1 < rom.length := by omega
  have h2 : i + 2 < rom.length := by omega
  have h3 : i + 3 < rom.length := by omega
  simp [romWord, setRomWord, h0, h1, h2, h3, wordByte_append]

/-- The bytes of the other words stay. -/
theorem romWord_setRomWord_of_disjoint (h : i + 4 ≤ j ∨ j + 4 ≤ i) :
    romWord (setRomWord rom i word) j = romWord rom j := by
  have hget : ∀ k, k < 4 → (setRomWord rom i word)[j + k]? = rom[j + k]? := by
    intro k hk
    unfold setRomWord
    rw [List.getElem?_set_ne (by omega), List.getElem?_set_ne (by omega),
      List.getElem?_set_ne (by omega), List.getElem?_set_ne (by omega)]
  unfold romWord
  rw [hget 1 (by decide), hget 2 (by decide), hget 3 (by decide)]
  have h0 := hget 0 (by decide)
  rw [Nat.add_zero] at h0
  rw [h0]

end N64Recomp
