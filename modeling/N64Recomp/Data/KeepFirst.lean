import Mathlib.Data.List.Nodup
import N64Recomp.Data.Widths

/-!
# The first items of their keys

A list without the items whose key was seen before. Items without a key are dropped.

## Main definitions

* `keepFirst`: the items that are kept

## Main results

* `exists_keepFirst`, `nodup_map_keepFirst`: every key has exactly one item
* `covers_iff`: for a relation that implies equal keys, every item is related to one that is kept
  exactly when items of equal keys are related
-/

namespace KeepFirst

variable {α κ : Type} [DecidableEq κ] (key : α → Option κ)

/-- The items that are the first of their keys, and whose keys are not seen before. -/
def keepFirst : List κ → List α → List α
  | _, [] => []
  | seen, a :: l =>
    match key a with
    | none => keepFirst seen l
    | some k => if k ∈ seen then keepFirst seen l else a :: keepFirst (k :: seen) l

variable {key} {seen : List κ} {l : List α} {a b : α} {k : κ}

/-- What is kept is an item of the list with a key that is not seen. -/
theorem of_mem_keepFirst (h : a ∈ keepFirst key seen l) :
    a ∈ l ∧ ∃ k, key a = some k ∧ k ∉ seen := by
  induction l generalizing seen with
  | nil => cases h
  | cons first l ih =>
    rw [keepFirst] at h
    cases hkey : key first with
    | none =>
      rw [hkey] at h
      exact ⟨List.mem_cons_of_mem _ (ih h).1, (ih h).2⟩
    | some k =>
      rw [hkey] at h
      dsimp only at h
      split_ifs at h with hseen
      · exact ⟨List.mem_cons_of_mem _ (ih h).1, (ih h).2⟩
      · rcases List.mem_cons.mp h with rfl | h
        · exact ⟨List.mem_cons_self, k, hkey, hseen⟩
        · obtain ⟨hmem, k', hk', hnot⟩ := ih h
          exact ⟨List.mem_cons_of_mem _ hmem, k', hk',
            fun hin => hnot (List.mem_cons_of_mem _ hin)⟩

/-- Every new key has an item. -/
theorem exists_keepFirst (ha : a ∈ l) (hkey : key a = some k) (hseen : k ∉ seen) :
    ∃ b ∈ keepFirst key seen l, key b = some k := by
  induction l generalizing seen with
  | nil => cases ha
  | cons first l ih =>
    rw [keepFirst]
    rcases List.mem_cons.mp ha with rfl | hl
    · rw [hkey]
      dsimp only
      rw [if_neg hseen]
      exact ⟨a, List.mem_cons_self, hkey⟩
    · cases hfirst : key first with
      | none => exact ih hl hseen
      | some k' =>
        dsimp only
        split_ifs with hin
        · exact ih hl hseen
        · by_cases hk : k' = k
          · exact ⟨first, List.mem_cons_self, hfirst.trans (congrArg some hk)⟩
          · have hnew : k ∉ k' :: seen := by
              rw [List.mem_cons]
              rintro (rfl | h)
              · exact hk rfl
              · exact hseen h
            obtain ⟨b, hb, hkb⟩ := ih hl hnew
            exact ⟨b, List.mem_cons_of_mem _ hb, hkb⟩

/-- No two items have one key. -/
theorem nodup_map_keepFirst : ((keepFirst key seen l).map key).Nodup := by
  induction l generalizing seen with
  | nil => exact List.nodup_nil
  | cons first l ih =>
    rw [keepFirst]
    cases hfirst : key first with
    | none => exact ih
    | some k =>
      dsimp only
      split_ifs with hin
      · exact ih
      · refine List.nodup_cons.mpr ⟨fun hmem => ?_, ih⟩
        obtain ⟨b, hb, hkey⟩ := List.mem_map.mp hmem
        obtain ⟨-, k', hk', hnot⟩ := of_mem_keepFirst hb
        rw [hk', hfirst] at hkey
        exact hnot (Option.some.inj hkey ▸ List.mem_cons_self)

/-- Items of one key are one item. -/
theorem eq_of_mem_keepFirst (ha : a ∈ keepFirst key seen l) (hb : b ∈ keepFirst key seen l)
    (h : key a = key b) : a = b :=
  List.inj_on_of_nodup_map nodup_map_keepFirst ha hb h

/-- **What is kept stands for the list** exactly when items of one key are equivalent. -/
theorem covers_iff {r : α → α → Prop} (hr : Equivalence r) (hkey : ∀ a b, r a b → key a = key b) :
    (∀ a ∈ l, (key a).isSome → ∃ b ∈ keepFirst key [] l, r b a) ↔
      ∀ a ∈ l, ∀ b ∈ l, (key a).isSome → key a = key b → r a b := by
  constructor
  · intro h a ha b hb hsome hab
    obtain ⟨a', ha', hra⟩ := h a ha hsome
    obtain ⟨b', hb', hrb⟩ := h b hb (hab ▸ hsome)
    have heq : a' = b' :=
      eq_of_mem_keepFirst ha' hb' ((hkey _ _ hra).trans (hab.trans (hkey _ _ hrb).symm))
    subst heq
    exact hr.trans (hr.symm hra) hrb
  · intro h a ha hsome
    obtain ⟨k, hk⟩ := Option.isSome_iff_exists.mp hsome
    obtain ⟨b, hb, hkb⟩ := exists_keepFirst ha hk List.not_mem_nil
    exact ⟨b, hb, h b (of_mem_keepFirst hb).1 a ha (hkb ▸ rfl) (hkb.trans hk.symm)⟩

end KeepFirst
