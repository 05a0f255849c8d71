import N64Recomp.Data.NumeralTexts
import N64Recomp.RSPRecomp.Dispatcher
import N64Recomp.RSPRecomp.Images

/-!
# The names of the permutations

A permutation is named by the numbers of its overlays in decimal, with nothing between them. The
number of a slot with more than ten overlays may have more than one digit, and then the digits of
two permutations can be the same: `1` and `10` are written like `11` and `0`.

## Main definitions

* `Config.permutationCounts`: for each slot how many numbers a permutation can have there
* `Config.NamesRight`: the functions of the generated file have different names, and the table of
  the dispatcher lists them

## Main results

* `permutationSuffix_eq`: the suffix is the text of the numbers in base ten
* `suffixesDiffer_iff`: the condition on the dispatcher, in terms of the numbers of overlays
* `namesRight_iff`
-/

namespace N64Recomp.RSPRecomp

open MixedRadix NumeralText

/-! ## Suffixes as texts -/

/-- A digit as a character. -/
def digitByte (d : Nat) : BitVec 8 := BitVec.ofNat 8 (48 + d)

theorem digitByte_toNat {d : Nat} (h : d < 10) : (digitByte d).toNat - 48 = d := by
  rw [digitByte, BitVec.toNat_ofNat, Nat.mod_eq_of_lt (by omega)]
  omega

theorem digitChar_toNat {d : Nat} (h : d < 10) : (Nat.digitChar d).toNat = 48 + d := by
  interval_cases d <;> rfl

theorem numeral_of_lt {n : Nat} (h : n < 10) : numeral 10 n = [n] := by
  by_cases hn : n = 0
  · rw [hn, numeral_zero]
  · rw [numeral_of_ne_zero hn, Nat.digits_of_lt 10 n hn h, List.reverse_singleton]

theorem numeral_of_le {n : Nat} (h : 10 ≤ n) : numeral 10 n = numeral 10 (n / 10) ++ [n % 10] := by
  have hdiv : n / 10 ≠ 0 := by omega
  rw [numeral_of_ne_zero (by omega), numeral_of_ne_zero hdiv,
    Nat.digits_eq_cons_digits_div (by decide) (by omega), List.reverse_cons]

/-- The format `{}` writes the numeral of a number. -/
theorem decimal_eq (n : Nat) : decimal n = (numeral 10 n).map digitByte := by
  induction n using Nat.strongRecOn with
  | ind n ih =>
    by_cases hn : n < 10
    · rw [decimal, Nat.toDigits_of_lt_base hn, numeral_of_lt hn, List.map_singleton,
        digitChar_toNat hn]
      rfl
    · have hdigit : n % 10 < 10 := Nat.mod_lt n (by decide)
      rw [decimal, Nat.toDigits_of_base_le (by decide) (by omega), List.map_append,
        numeral_of_le (by omega), List.map_append, ← ih (n / 10) (by omega), List.map_singleton,
        digitChar_toNat hdigit]
      rfl

theorem permutationSuffix_eq (permutation : List (BitVec 32)) :
    permutationSuffix permutation = (text 10 (permutation.map BitVec.toNat)).map digitByte := by
  rw [permutationSuffix, text, List.map_flatMap, List.flatMap_map]
  exact List.flatMap_congr fun opt _ => decimal_eq opt.toNat

/-- Two suffixes are the same exactly when the digits are. -/
theorem permutationSuffix_eq_iff {v w : List (BitVec 32)} :
    permutationSuffix v = permutationSuffix w ↔
      text 10 (v.map BitVec.toNat) = text 10 (w.map BitVec.toNat) := by
  have hdigits : ∀ p, ((text 10 p).map digitByte).map (fun c => c.toNat - 48) = text 10 p := by
    intro p
    rw [List.map_map]
    refine (List.map_congr_left fun d hd => ?_).trans (List.map_id _)
    obtain ⟨n, _, hn⟩ := List.mem_flatMap.mp hd
    exact digitByte_toNat (lt_of_mem_numeral (by decide) hn)
  rw [permutationSuffix_eq, permutationSuffix_eq]
  refine ⟨fun h => ?_, fun h => by rw [h]⟩
  have hmap := congrArg (List.map fun c : BitVec 8 => c.toNat - 48) h
  rwa [hdigits, hdigits] at hmap

namespace Config

variable {cfg : Config}

/-- How many numbers a permutation can have in each slot: the numbers have 32 bits. -/
def permutationCounts (cfg : Config) : List Nat := cfg.optionCounts.map fun c => min c (2 ^ 32)

theorem isPermutation_iff {v : List (BitVec 32)} :
    cfg.IsPermutation v ↔ IsNumeral cfg.permutationCounts (v.map BitVec.toNat) := by
  rw [IsPermutation, Options, IsNumeral, IsNumeral, permutationCounts, List.forall₂_map_left_iff,
    List.forall₂_map_right_iff, List.forall₂_map_left_iff]
  exact ⟨fun h => h.imp fun o c ho => Nat.lt_min.mpr ⟨ho, o.isLt⟩, fun h =>
    h.imp fun o c ho => (Nat.lt_min.mp ho).1⟩

theorem isPermutation_words {digits : List Nat} (h : IsNumeral cfg.permutationCounts digits) :
    cfg.IsPermutation (words digits) ∧ (words digits).map BitVec.toNat = digits := by
  have hdigits : (words digits).map BitVec.toNat = digits :=
    map_toNat_words (fun c hc => by
      obtain ⟨n, _, rfl⟩ := List.mem_map.mp hc
      exact Nat.min_le_right _ _) h
  exact ⟨isPermutation_iff.mpr (hdigits.symm ▸ h), hdigits⟩

/-- The functions of the generated file are told apart by their names, and the dispatcher calls
them by these. -/
structure NamesRight (cfg : Config) : Prop where
  /-- A permutation of the configuration has a suffix of its own. -/
  suffixes : ∀ v w, cfg.IsPermutation v → cfg.IsPermutation w →
    permutationSuffix v = permutationSuffix w → v = w
  /-- The functions of different permutations, and the initial one, have different names. -/
  functions : ∀ permutations : List Permutation,
    (∀ p ∈ permutations, cfg.IsPermutation p.permutation) →
    (permutations.map (·.permutation)).Nodup →
    ((cfg.emittedFunctions permutations).map Prod.fst).Nodup
  /-- The table of the dispatcher has the names of the functions behind the initial one. -/
  table : ∀ permutations : List Permutation,
    (cfg.emitOverlayDispatcher permutations).permutations =
      ((cfg.emittedFunctions permutations).drop 1).map Prod.fst

/-- Suffixes that differ make names that differ. -/
theorem nodup_emittedFunctions {permutations : List Permutation}
    (hinj : ∀ p ∈ permutations, ∀ q ∈ permutations,
      permutationSuffix p.permutation = permutationSuffix q.permutation →
        p.permutation = q.permutation)
    (hnodup : (permutations.map (·.permutation)).Nodup) :
    ((cfg.emittedFunctions permutations).map Prod.fst).Nodup := by
  rw [emittedFunctions, List.map_cons, List.nodup_cons, List.map_map]
  constructor
  · intro hinitial
    obtain ⟨p, _, hp⟩ := List.mem_map.mp hinitial
    exact permutationSuffix_ne_initial p.permutation (List.append_cancel_left hp)
  · refine hnodup.of_map.map_on fun p hp q hq hpq => ?_
    exact List.inj_on_of_nodup_map hnodup hp hq (hinj p hp q hq (List.append_cancel_left hpq))

/-! ## The condition -/

/-- Suffixes differ exactly when no slot is without overlays, or when they do as texts. -/
theorem suffixes_iff :
    (∀ v w, cfg.IsPermutation v → cfg.IsPermutation w →
      permutationSuffix v = permutationSuffix w → v = w) ↔
    (∃ slot ∈ cfg.overlaySlots, slot.overlays = []) ∨ Separable 10 cfg.permutationCounts := by
  constructor
  · intro hsuffixes
    by_contra hnot
    obtain ⟨hslots, hsep⟩ := not_or.mp hnot
    have hpos : ∀ c ∈ cfg.permutationCounts, 0 < c := by
      intro c hc
      obtain ⟨n, hn, rfl⟩ := List.mem_map.mp hc
      obtain ⟨slot, hslot, rfl⟩ := List.mem_map.mp hn
      have hne : slot.overlays ≠ [] := fun hnil => hslots ⟨slot, hslot, hnil⟩
      exact Nat.lt_min.mpr ⟨List.length_pos_iff.mpr hne, by decide⟩
    obtain ⟨p, q, hp, hq, hne, htext⟩ := exists_text_eq (by decide) hpos hsep
    obtain ⟨hv, hvp⟩ := isPermutation_words hp
    obtain ⟨hw, hwq⟩ := isPermutation_words hq
    have hequal := hsuffixes _ _ hv hw (permutationSuffix_eq_iff.mpr (by rw [hvp, hwq, htext]))
    exact hne (by rw [← hvp, ← hwq, hequal])
  · rintro (⟨slot, hslot, hnil⟩ | hsep) v w hv hw hsuffix
    · -- a slot without overlays leaves no permutation
      obtain ⟨i, hi⟩ := List.getElem?_of_mem hslot
      have hlen : (v.map BitVec.toNat).length = cfg.optionCounts.length := hv.length_eq
      have hilt := (List.getElem?_eq_some_iff.mp hi).1
      obtain ⟨c, hc, hlt⟩ := IsNumeral.exists_radix hv
        (List.getElem?_eq_getElem (by rw [hlen, optionCounts, List.length_map]; exact hilt))
      rw [optionCounts, List.getElem?_map, hi, Option.map_some, Option.some.injEq] at hc
      rw [← hc, hnil] at hlt
      exact absurd hlt (Nat.not_lt_zero _)
    · have hdigits := text_injOn (by decide) hsep (isPermutation_iff.mp hv)
        (isPermutation_iff.mp hw) (permutationSuffix_eq_iff.mp hsuffix)
      exact List.map_injective_iff.mpr toNat_injective hdigits

/-- **The names are right exactly under the condition on the numbers of overlays**: a slot has
none, so that there is no permutation at all, or the numerals of the permutations cannot be told
apart in two ways. -/
theorem namesRight_iff (cfg : Config) :
    cfg.NamesRight ↔
      (∃ slot ∈ cfg.overlaySlots, slot.overlays = []) ∨ Separable 10 cfg.permutationCounts := by
  refine ⟨fun h => suffixes_iff.mp h.suffixes, fun hcond => ?_⟩
  have hsuffixes := suffixes_iff.mpr hcond
  refine ⟨hsuffixes, fun permutations hperms hnodup => nodup_emittedFunctions
    (fun p hp q hq => hsuffixes _ _ (hperms p hp) (hperms q hq)) hnodup, fun permutations => ?_⟩
  simp [emitOverlayDispatcher, emittedFunctions]

/-- The condition on the suffixes that the dispatcher needs, from the numbers of overlays. -/
theorem suffixesDiffer_iff (hcounts : cfg.CountsFit) :
    cfg.SuffixesDiffer ↔
      (∃ slot ∈ cfg.overlaySlots, slot.overlays = []) ∨ Separable 10 cfg.permutationCounts := by
  have hpermutation : ∀ {options}, cfg.Options options →
      cfg.IsPermutation (words options) ∧ (words options).map BitVec.toNat = options := by
    intro options h
    have hdigits := map_toNat_words hcounts h
    exact ⟨by rwa [IsPermutation, hdigits], hdigits⟩
  rw [← suffixes_iff, SuffixesDiffer]
  constructor
  · intro h v w hv hw hsuffix
    rw [← words_map_toNat v, ← words_map_toNat w] at hsuffix
    exact List.map_injective_iff.mpr toNat_injective (h _ _ hv hw hsuffix)
  · intro h options options' hopt hopt' hsuffix
    obtain ⟨hv, hvo⟩ := hpermutation hopt
    obtain ⟨hw, hwo⟩ := hpermutation hopt'
    rw [← hvo, ← hwo, h _ _ hv hw hsuffix]

/-- A slot at an address with overlays of no words. -/
def manyOverlays (textAddress : BitVec 32) (n : Nat) : OverlaySlot :=
  ⟨textAddress, List.replicate n ⟨0, []⟩⟩

/-- Two slots, of which the first has twelve overlays and the second eleven. -/
def twelveAndEleven : Config where
  textAddress := 0x04001000
  outputFunctionName := ascii "ucode"
  instrWords := []
  overlaySlots := [manyOverlays 0x04001000 12, manyOverlays 0x04001100 11]

/-- The overlays `1` and `10` and the overlays `11` and `0` have the suffix `110`. -/
theorem twelveAndEleven_ambiguous :
    twelveAndEleven.IsPermutation [1, 10] ∧ twelveAndEleven.IsPermutation [11, 0] ∧
      permutationSuffix [1, 10] = ascii "110" ∧ permutationSuffix [11, 0] = ascii "110" ∧
      ¬ twelveAndEleven.NamesRight := by
  have hfirst : twelveAndEleven.IsPermutation [1, 10] :=
    isNumeral_cons.mpr ⟨by decide, isNumeral_cons.mpr ⟨by decide, isNumeral_nil⟩⟩
  have hsecond : twelveAndEleven.IsPermutation [11, 0] :=
    isNumeral_cons.mpr ⟨by decide, isNumeral_cons.mpr ⟨by decide, isNumeral_nil⟩⟩
  refine ⟨hfirst, hsecond, by decide, by decide, fun h => ?_⟩
  exact absurd (h.suffixes _ _ hfirst hsecond (by decide)) (by decide)

end Config

end N64Recomp.RSPRecomp
