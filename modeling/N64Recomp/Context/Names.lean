import Mathlib.Data.List.Basic
import Mathlib.Data.List.TakeWhile
import N64Recomp.Context.Types

/-!
# Names that the program makes up

The formatted names that the program gives to the functions it creates, and to those whose names
collide.

## Main definitions

* `hex8`, `hex`, `decimal`: the formats `{:08X}`, `{:X}` and `{}`
* `staticName`: the name of the static function at an address of a section
* `suffixedName`: a name that is told apart from others by the function's address in the ROM

## Main results

* `staticName_inj`: distinct static functions have distinct names
* `suffixedName_inj`: a suffixed name determines the name and the address
-/

namespace N64Recomp

/-- An upper-case hexadecimal digit. -/
def hexDigit (n : BitVec 4) : BitVec 8 :=
  if n.toNat < 10 then BitVec.ofNat 8 (48 + n.toNat) else BitVec.ofNat 8 (55 + n.toNat)

/-- `{:08X}`. -/
def hex8 (x : BitVec 32) : Str :=
  [x.extractLsb' 28 4, x.extractLsb' 24 4, x.extractLsb' 20 4, x.extractLsb' 16 4,
    x.extractLsb' 12 4, x.extractLsb' 8 4, x.extractLsb' 4 4, x.extractLsb' 0 4].map hexDigit

/-- `{:X}`. -/
def hex (x : BitVec 32) : Str :=
  let digits := (hex8 x).dropWhile (· = 48)
  if digits = [] then [48] else digits

/-- `{}`. -/
def decimal (n : Nat) : Str := (Nat.toDigits 10 n).map fun c => BitVec.ofNat 8 c.toNat

/-- `static_{}_{:08X}`. -/
def staticName (sectionIndex : Nat) (vram : BitVec 32) : Str :=
  ascii "static_" ++ decimal sectionIndex ++ ascii "_" ++ hex8 vram

/-- `{}__rom_{:X}`. -/
def suffixedName (name : Str) (rom : BitVec 32) : Str := name ++ ascii "__rom_" ++ hex rom

theorem hexDigit_injective : Function.Injective hexDigit := by
  intro m n h
  revert m n
  decide

theorem hex8_injective : Function.Injective hex8 := by
  intro x y h
  have hnibbles := List.map_injective_iff.mpr hexDigit_injective h
  simp only [List.cons.injEq, and_true] at hnibbles
  obtain ⟨h7, h6, h5, h4, h3, h2, h1, h0⟩ := hnibbles
  have hsplit : ∀ z : BitVec 32, z = z.extractLsb' 28 4 ++ z.extractLsb' 24 4 ++
      z.extractLsb' 20 4 ++ z.extractLsb' 16 4 ++ z.extractLsb' 12 4 ++ z.extractLsb' 8 4 ++
      z.extractLsb' 4 4 ++ z.extractLsb' 0 4 := by
    intro z
    apply BitVec.eq_of_getLsbD_eq
    intro i hi
    simp only [BitVec.getLsbD_append, BitVec.getLsbD_extractLsb']
    repeat' split
    all_goals
      rw [decide_eq_true (by omega), Bool.true_and]
      congr 1
      omega
  rw [hsplit x, hsplit y, h7, h6, h5, h4, h3, h2, h1, h0]

theorem hex8_length (x : BitVec 32) : (hex8 x).length = 8 := rfl

/-- A decimal digit as a byte. -/
theorem isDigit_byte {c : Char} (h : c.isDigit = true) : c.toNat < 58 := by
  simp only [Char.isDigit, Bool.and_eq_true, decide_eq_true_eq] at h
  exact Nat.lt_succ_of_le h.2

theorem decimal_injective : Function.Injective decimal := by
  intro m n h
  have hchars : Nat.toDigits 10 m = Nat.toDigits 10 n := by
    have hinj : ∀ c ∈ Nat.toDigits 10 m, ∀ d ∈ Nat.toDigits 10 n,
        BitVec.ofNat 8 c.toNat = BitVec.ofNat 8 d.toNat → c = d := by
      intro c hc d hd hcd
      have hc58 := isDigit_byte (Nat.isDigit_of_mem_toDigits (by decide) (by decide) hc)
      have hd58 := isDigit_byte (Nat.isDigit_of_mem_toDigits (by decide) (by decide) hd)
      have htoNat := congrArg BitVec.toNat hcd
      rw [BitVec.toNat_ofNat, BitVec.toNat_ofNat, Nat.mod_eq_of_lt (by omega),
        Nat.mod_eq_of_lt (by omega)] at htoNat
      exact Char.toNat_inj.mp htoNat
    revert hinj h
    unfold decimal
    generalize Nat.toDigits 10 m = l
    generalize Nat.toDigits 10 n = k
    intro h hinj
    induction l generalizing k with
    | nil => simpa using h
    | cons c l ih =>
      cases k with
      | nil => simp at h
      | cons d k =>
        simp only [List.map_cons, List.cons.injEq] at h
        rw [hinj c (by simp) d (by simp) h.1, ih k h.2 fun c hc d hd => hinj c (by simp [hc]) d
          (by simp [hd])]
  have hvalue := congrArg (fun l => Nat.ofDigitChars 10 l 0) hchars
  simpa only [Nat.ofDigitChars_toDigits (by decide : 1 < 10) (by decide : 10 ≤ 10)] using hvalue

/-- Distinct static functions have distinct names. -/
theorem staticName_inj {i j : Nat} {x y : BitVec 32} (h : staticName i x = staticName j y) :
    i = j ∧ x = y := by
  unfold staticName at h
  obtain ⟨hfront, hback⟩ := List.append_inj' h (by rw [hex8_length, hex8_length])
  refine ⟨?_, hex8_injective hback⟩
  have hmiddle := List.append_cancel_right hfront
  exact decimal_injective (List.append_cancel_left hmiddle)

/-- The digits behind the leading zeros determine the number, which has eight of them in all. -/
theorem hex_injective : Function.Injective hex := by
  have hsplit : ∀ x, hex8 x = List.replicate (8 - ((hex8 x).dropWhile (· = 48)).length) 48 ++
      (hex8 x).dropWhile (· = 48) := by
    intro x
    have hzeros : (hex8 x).takeWhile (· = 48) =
        List.replicate ((hex8 x).takeWhile (· = 48)).length 48 :=
      List.eq_replicate_iff.mpr ⟨rfl, fun d hd => by simpa using List.mem_takeWhile_imp hd⟩
    have hlength := congrArg List.length
      (List.takeWhile_append_dropWhile (p := (· = 48)) (l := hex8 x))
    rw [List.length_append, hex8_length] at hlength
    rw [show 8 - ((hex8 x).dropWhile (· = 48)).length = ((hex8 x).takeWhile (· = 48)).length by
      omega, ← hzeros, List.takeWhile_append_dropWhile]
  have hhead : ∀ x, (hex8 x).dropWhile (· = 48) ≠ [48] := by
    intro x h
    have := List.head?_dropWhile_not (· = 48) (hex8 x)
    rw [h] at this
    simp at this
  intro x y h
  have hdigits : (hex8 x).dropWhile (· = 48) = (hex8 y).dropWhile (· = 48) := by
    unfold hex at h
    dsimp only at h
    split_ifs at h with hx hy hy
    · rw [hx, hy]
    · exact absurd h.symm (hhead y)
    · exact absurd h (hhead x)
    · exact h
  exact hex8_injective (by rw [hsplit x, hsplit y, hdigits])

/-- No digit is an underscore. -/
theorem mem_hex_ne {x : BitVec 32} {d : BitVec 8} (h : d ∈ hex x) : d ≠ 95 := by
  have hdigit : ∀ n, hexDigit n ≠ 95 := by decide
  unfold hex at h
  dsimp only at h
  split_ifs at h
  · rw [List.mem_singleton.mp h]
    decide
  · obtain ⟨n, -, rfl⟩ := List.mem_map.mp ((List.dropWhile_sublist _).subset h)
    exact hdigit n

/-- The address is what follows the last underscore. -/
theorem suffixedName_inj {name name' : Str} {rom rom' : BitVec 32}
    (h : suffixedName name rom = suffixedName name' rom') : name = name' ∧ rom = rom' := by
  have hlast : ∀ (name : Str) (rom : BitVec 32),
      (suffixedName name rom).reverse.takeWhile (· ≠ 95) = (hex rom).reverse := by
    intro name rom
    rw [suffixedName, List.reverse_append, List.reverse_append, List.takeWhile_append_of_pos
      fun d hd => by simpa using mem_hex_ne (List.mem_reverse.mp hd)]
    simp [ascii]
  have hhex : hex rom = hex rom' := by
    rw [← List.reverse_inj, ← hlast name, ← hlast name', h]
  rw [suffixedName, suffixedName, hhex] at h
  exact ⟨List.append_cancel_right (List.append_cancel_right h), hex_injective hhex⟩

theorem length_lt_suffixedName (name : Str) (rom : BitVec 32) :
    name.length < (suffixedName name rom).length := by
  simp only [suffixedName, List.length_append, show (ascii "__rom_").length = 6 from rfl]
  omega

end N64Recomp
