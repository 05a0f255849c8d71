import Mathlib.Data.List.Perm.Lattice
import Mathlib.Data.List.Basic
import N64Recomp.Data.Widths

/-!
# Indices by a key

Items are kept in a growing list, and an index lists their positions by a key. Appending an item,
replacing one by another with the same key, and moving one to another key each need one update of
the index. A list of the items' keys, kept besides the index, is a permutation of what the index
leads to.

## Main definitions

* `IsIndex`: every position is listed under its item's key, once, and under no other key
* `IsInverse`: a map to the positions, at most one for a key
* `insertAt`, `removeAt`: the updates of an index
* `moveAll`: positions that move from their keys to others, in an order
* `values`: a field of the items at some positions

## Main results

* `IsIndex.append`, `IsIndex.set`, `IsIndex.move`: the three updates
* `IsInverse.append_iff`: appending an item to an inverse map
* `moveAll_new_iff`: when a new key leads to its position after all moves
* `values_set_perm`: replacing one value in a list of values
-/

namespace KeyIndex

variable {α β κ : Type}

/-! ## Indices -/

/-- An index lists the position of every item under its key, once, and under no other key. -/
structure IsIndex (key : α → κ) (items : List α) (index : κ → List Nat) : Prop where
  nodup : ∀ k, (index k).Nodup
  mem_iff : ∀ k i, i ∈ index k ↔ ∃ x, items[i]? = some x ∧ key x = k

section Updates

variable [DecidableEq κ]

/-- The index with a position behind those of a key. -/
def insertAt (index : κ → List Nat) (k : κ) (i : Nat) : κ → List Nat := fun a =>
  if a = k then index a ++ [i] else index a

/-- The index without a position under a key. -/
def removeAt (index : κ → List Nat) (k : κ) (i : Nat) : κ → List Nat := fun a =>
  if a = k then (index a).filter (· ≠ i) else index a

end Updates

section Indexed

variable {key : α → κ} {items : List α} {index : κ → List Nat} {k : κ} {i : Nat} {x y : α}

theorem IsIndex.nil (key : α → κ) : IsIndex key [] fun _ => [] where
  nodup _ := List.nodup_nil
  mem_iff _ _ := by simp

theorem IsIndex.lt_length (h : IsIndex key items index) (hi : i ∈ index k) : i < items.length := by
  obtain ⟨x, hx, -⟩ := (h.mem_iff k i).mp hi
  exact (List.getElem?_eq_some_iff.mp hx).1

/-- An item's position is under its key. -/
theorem IsIndex.mem (h : IsIndex key items index) (hx : items[i]? = some x) :
    i ∈ index (key x) := (h.mem_iff _ i).mpr ⟨x, hx, rfl⟩

/-- An item is replaced by one with the same key. -/
theorem IsIndex.set (h : IsIndex key items index) (hx : items[i]? = some x) (hkey : key y = key x) :
    IsIndex key (items.set i y) index where
  nodup := h.nodup
  mem_iff k j := by
    rw [h.mem_iff]
    by_cases hj : j = i
    · subst hj
      have hlt := (List.getElem?_eq_some_iff.mp hx).1
      rw [List.getElem?_set_self hlt, hx]
      simp [hkey]
    · rw [List.getElem?_set_ne (Ne.symm hj)]

variable [DecidableEq κ]

/-- A new item is listed under its key. -/
theorem IsIndex.append (h : IsIndex key items index) (x : α) :
    IsIndex key (items ++ [x]) (insertAt index (key x) items.length) where
  nodup k := by
    unfold insertAt
    split
    · refine List.nodup_append.mpr ⟨h.nodup k, List.nodup_singleton _, ?_⟩
      rintro i hi j hj rfl
      exact absurd (h.lt_length hi) (by simp [List.mem_singleton.mp hj])
    · exact h.nodup k
  mem_iff k i := by
    have hold := h.mem_iff k i
    by_cases hi : i = items.length
    · subst hi
      have hnot : items.length ∉ index k := fun hmem => Nat.lt_irrefl _ (h.lt_length hmem)
      unfold insertAt
      by_cases hk : k = key x
      · simp [hk]
      · simp [hk, hnot, Ne.symm hk]
    · rw [List.getElem?_append]
      unfold insertAt
      split_ifs with hk hlt hlt
      · simp [hold, hi]
      · have hnone : items[i]? = none := List.getElem?_eq_none (by omega)
        simp [hold, hi, hnone, List.getElem?_singleton]
        omega
      · exact hold
      · have hnone : items[i]? = none := List.getElem?_eq_none (by omega)
        simp [hold, hnone, List.getElem?_singleton]
        omega

/-- An item is moved to another key. -/
theorem IsIndex.move (h : IsIndex key items index) (hx : items[i]? = some x)
    (hkey : key y ≠ key x) :
    IsIndex key (items.set i y) (insertAt (removeAt index (key x) i) (key y) i) where
  nodup k := by
    have hremoved : (removeAt index (key x) i k).Nodup := by
      unfold removeAt
      split
      · exact (h.nodup k).filter _
      · exact h.nodup k
    unfold insertAt
    split
    · rename_i hk
      refine List.nodup_append.mpr ⟨hremoved, List.nodup_singleton _, ?_⟩
      rintro j hj _ hi rfl
      obtain rfl := List.mem_singleton.mp hi
      have hne : k ≠ key x := fun heq => hkey (hk.symm.trans heq)
      rw [removeAt, if_neg hne, h.mem_iff] at hj
      obtain ⟨x', hx', hkx⟩ := hj
      rw [hx] at hx'
      obtain rfl := Option.some.inj hx'
      exact hne hkx.symm
    · exact hremoved
  mem_iff k j := by
    have hold := h.mem_iff k j
    have hlt := (List.getElem?_eq_some_iff.mp hx).1
    by_cases hj : j = i
    · subst hj
      rw [List.getElem?_set_self hlt]
      unfold insertAt removeAt
      by_cases hk : k = key y
      · simp [hk]
      · by_cases hkx : k = key x
        · simp [hkx, Ne.symm hkey, hkey]
        · simp [hkx, hk, hold, hx, Ne.symm hkx, Ne.symm hk]
    · rw [List.getElem?_set_ne (Ne.symm hj), ← hold]
      unfold insertAt removeAt
      split_ifs <;> simp [hj]

end Indexed

/-! ## Inverse maps -/

/-- A map from keys to indices and a list are inverse to each other. -/
def IsInverse (lookup : κ → Option Nat) (items : List α) (key : α → κ) : Prop :=
  ∀ k i, lookup k = some i ↔ ∃ x, items[i]? = some x ∧ key x = k

section Inverse

variable {lookup lookup' : κ → Option Nat} {items : List α} {key : α → κ} {x : α}

theorem IsInverse.nil (h : ∀ k, lookup k = none) : IsInverse lookup ([] : List α) key := by
  intro k i
  simp [h k]

theorem IsInverse.congr (h : IsInverse lookup items key) (heq : ∀ k, lookup' k = lookup k) :
    IsInverse lookup' items key := by
  intro k i
  rw [heq, h]

/-- An inverse map is an index with at most one position under a key. -/
theorem isInverse_iff_isIndex :
    IsInverse lookup items key ↔ IsIndex key items fun k => (lookup k).toList := by
  constructor
  · intro h
    exact ⟨fun k => by cases lookup k <;> simp, fun k i => by rw [Option.mem_toList, h]⟩
  · intro h k i
    rw [← h.mem_iff, Option.mem_toList]

theorem IsInverse.lookup_key (h : IsInverse lookup items key) {i : Nat} (hx : items[i]? = some x) :
    lookup (key x) = some i := (h _ _).mpr ⟨x, hx, rfl⟩

/-- No two items have one key. -/
theorem IsInverse.nodup (h : IsInverse lookup items key) : (items.map key).Nodup := by
  rw [List.nodup_iff_injective_get]
  rintro ⟨i, hi⟩ ⟨j, hj⟩ hij
  rw [List.length_map] at hi hj
  have hget : key items[i] = key items[j] := by simpa using hij
  have hlookup := h.lookup_key (List.getElem?_eq_getElem hi)
  rw [hget, h.lookup_key (List.getElem?_eq_getElem hj)] at hlookup
  exact Fin.ext (Option.some.inj hlookup).symm

variable [DecidableEq κ]

/-- **An item is appended, and its key leads to it**: this stays an inverse exactly when the key is
new. -/
theorem IsInverse.append_iff (h : IsInverse lookup items key)
    (hlookup : ∀ k, lookup' k = if k = key x then some items.length else lookup k) :
    IsInverse lookup' (items ++ [x]) key ↔ lookup (key x) = none := by
  constructor
  · intro h'
    cases hold : lookup (key x) with
    | none => rfl
    | some i =>
      obtain ⟨y, hy, hkey⟩ := (h _ _).mp hold
      have hlt := (List.getElem?_eq_some_iff.mp hy).1
      have hnew : lookup' (key x) = some i :=
        (h' _ _).mpr ⟨y, by rw [List.getElem?_append_left hlt, hy], hkey⟩
      rw [hlookup, if_pos rfl] at hnew
      exact absurd (Option.some.inj hnew) (by omega)
  · intro hnone
    refine isInverse_iff_isIndex.mpr ?_
    have hindex := (isInverse_iff_isIndex.mp h).append x
    have heq : (fun k => (lookup' k).toList) =
        insertAt (fun k => (lookup k).toList) (key x) items.length := by
      funext k
      unfold insertAt
      rw [hlookup]
      split
      · rename_i hk
        dsimp only
        rw [hk, hnone]
        rfl
      · rfl
    rwa [heq]

end Inverse

/-! ## Moves -/

section Moves

variable [DecidableEq κ] {old new : Nat → κ} {lookup : κ → Option Nat} {l : List Nat} {k : κ}
  {i : Nat}

/-- Positions move from their old key to a new one, one after the other. -/
def moveAll (old new : Nat → κ) : (κ → Option Nat) → List Nat → κ → Option Nat
  | lookup, [] => lookup
  | lookup, i :: l =>
    moveAll old new (fun k => if k = new i then some i else if k = old i then none else lookup k) l

theorem moveAll_append (l l' : List Nat) :
    moveAll old new lookup (l ++ l') = moveAll old new (moveAll old new lookup l) l' := by
  induction l generalizing lookup with
  | nil => rfl
  | cons i l ih => exact ih

/-- A key leads to a position that does not move exactly when it did and no move concerns the
key. -/
theorem moveAll_eq_some_iff (hi : i ∉ l) :
    moveAll old new lookup l k = some i ↔
      lookup k = some i ∧ ∀ j ∈ l, new j ≠ k ∧ old j ≠ k := by
  induction l generalizing lookup with
  | nil => simp [moveAll]
  | cons j l ih =>
    rw [List.mem_cons, not_or] at hi
    rw [moveAll, ih hi.2]
    simp only [List.mem_cons, forall_eq_or_imp]
    rcases eq_or_ne k (new j) with hnew | hnew
    · have hne : ¬some j = some i := fun h => hi.1 (Option.some.inj h).symm
      simp [hnew, hne]
    · rcases eq_or_ne k (old j) with hold | hold
      · simp [if_neg hnew, ← hold]
      · simp [if_neg hnew, if_neg hold, hnew.symm, hold.symm]

/-- **Every new key leads to its position** exactly when no later move concerns that key. -/
theorem moveAll_new_iff (lookup : κ → Option Nat) (hnodup : l.Nodup) :
    (∀ i ∈ l, moveAll old new lookup l (new i) = some i) ↔
      l.Pairwise fun i j => new j ≠ new i ∧ old j ≠ new i := by
  induction l generalizing lookup with
  | nil => simp
  | cons i l ih =>
    obtain ⟨hi, hnodup⟩ := List.nodup_cons.mp hnodup
    rw [List.forall_mem_cons, List.pairwise_cons]
    refine and_congr ?_ (ih _ hnodup)
    rw [moveAll, moveAll_eq_some_iff hi, if_pos rfl]
    simp

end Moves

/-! ## Values -/

/-- A field of the items at some positions. -/
def values (items : List α) (f : α → β) (positions : List Nat) : List β :=
  positions.filterMap fun i => (items[i]?).map f

section Values

variable {items : List α} {f : α → β} {positions : List Nat} {i : Nat} {x y : α}

theorem values_congr {items' : List α}
    (h : ∀ i ∈ positions, (items'[i]?).map f = (items[i]?).map f) :
    values items' f positions = values items f positions := List.filterMap_congr h

/-- A new item behind the others. -/
theorem values_append (h : ∀ i ∈ positions, i < items.length) (x : α) :
    values (items ++ [x]) f (positions ++ [items.length]) = values items f positions ++ [f x] := by
  have hold : values (items ++ [x]) f positions = values items f positions :=
    values_congr fun i hi => by rw [List.getElem?_append_left (h i hi)]
  have hnew : values (items ++ [x]) f [items.length] = [f x] := by simp [values]
  rw [← hold, ← hnew, values, values, values, List.filterMap_append]

/-- The first occurrence of a value that is replaced. -/
theorem replace_perm [BEq β] [LawfulBEq β] {l : List β} {a b : β} (h : a ∈ l) :
    (l.replace a b).Perm (b :: l.erase a) := by
  induction l with
  | nil => cases h
  | cons c l ih =>
    by_cases hc : c = a
    · subst hc
      simp
    · have hmem : a ∈ l := (List.mem_cons.mp h).resolve_left fun heq => hc heq.symm
      have hbeq : (c == a) = false := beq_false_of_ne hc
      have hbeq' : (a == c) = false := beq_false_of_ne (Ne.symm hc)
      rw [List.replace_cons, hbeq', List.erase_cons_tail (by simp [hbeq])]
      exact ((ih hmem).cons c).trans (List.Perm.swap b c _)

/-- In a list of the values, that of an item is replaced with the item. -/
theorem values_set_perm [BEq β] [LawfulBEq β] {l : List β} (h : l.Perm (values items f positions))
    (hnodup : positions.Nodup) (hi : i ∈ positions) (hx : items[i]? = some x) :
    (l.replace (f x) (f y)).Perm (values (items.set i y) f positions) := by
  have hlt := (List.getElem?_eq_some_iff.mp hx).1
  have hsplit := List.perm_cons_erase hi
  have hold : (values items f positions).Perm (f x :: values items f (positions.erase i)) := by
    refine (hsplit.filterMap _).trans ?_
    rw [List.filterMap_cons, hx]
    exact List.Perm.refl _
  have hrest : values (items.set i y) f (positions.erase i) =
      values items f (positions.erase i) := by
    refine values_congr fun j hj => ?_
    have hne : j ≠ i := (hnodup.mem_erase_iff.mp hj).1
    rw [List.getElem?_set_ne (Ne.symm hne)]
  have hnew : (values (items.set i y) f positions).Perm
      (f y :: values items f (positions.erase i)) := by
    refine (hsplit.filterMap _).trans ?_
    rw [List.filterMap_cons, List.getElem?_set_self hlt, ← hrest]
    exact List.Perm.refl _
  have hl := h.trans hold
  have hmem : f x ∈ l := hl.symm.subset List.mem_cons_self
  have herase : (l.erase (f x)).Perm (values items f (positions.erase i)) := by
    have := hl.erase (f x)
    rwa [List.erase_cons_head] at this
  exact (replace_perm hmem).trans ((herase.cons (f y)).trans hnew.symm)

end Values

end KeyIndex
