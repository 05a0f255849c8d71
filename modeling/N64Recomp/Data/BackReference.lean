import Mathlib.Data.List.Basic
import N64Recomp.Data.Widths

/-!
# Expansion of back-references

The output of a dictionary coder: a sequence of literals and of copies from earlier in the output.
A copy may be longer than its distance, and then repeats what it has just written.

## Main definitions

* `Token`: a literal, or a copy of a length from a distance back
* `copyBack`, `expandFrom`: the output of a copy, and of a list of tokens
* `ValidFrom`: every copy stays inside the output so far

## Main results

* `length_copyBack`: a copy adds its length
* `expandFrom_append`, `validFrom_append`: tokens are expanded one after the other
-/

namespace BackReference

variable {α : Type}

/-- A token of the coder. -/
inductive Token (α : Type)
  | literal (a : α)
  | copy (distance length : Nat)
  deriving DecidableEq, Repr

/-- Appends elements one by one, each from the distance back at its time. -/
def copyBack (distance : Nat) : Nat → List α → List α
  | 0, out => out
  | n + 1, out => copyBack distance n (out ++ (out[out.length - distance]?).toList)

namespace Token

def expand (out : List α) : Token α → List α
  | literal a => out ++ [a]
  | copy distance length => copyBack distance length out

/-- A copy refers to a place in the output so far. -/
def Valid (out : List α) : Token α → Prop
  | literal _ => True
  | copy distance _ => 0 < distance ∧ distance ≤ out.length

/-- The number of elements a token stands for. -/
def size : Token α → Nat
  | literal _ => 1
  | copy _ length => length

end Token

/-- The output after a list of tokens. -/
def expandFrom (out : List α) (tokens : List (Token α)) : List α := tokens.foldl Token.expand out

/-- Every token is valid where it is expanded. -/
def ValidFrom : List α → List (Token α) → Prop
  | _, [] => True
  | out, t :: tokens => t.Valid out ∧ ValidFrom (t.expand out) tokens

section Lemmas

variable {out : List α} {t : Token α} {tokens tokens' : List (Token α)}

theorem length_copyBack {distance : Nat} (n : Nat) (hpos : 0 < distance)
    (hle : distance ≤ out.length) : (copyBack distance n out).length = out.length + n := by
  induction n generalizing out with
  | zero => rfl
  | succ n ih =>
    have hget : out[out.length - distance]? = some out[out.length - distance] :=
      List.getElem?_eq_getElem (by omega)
    rw [copyBack, hget, Option.toList_some, ih (by rw [List.length_append]; omega),
      List.length_append, List.length_singleton]
    omega

/-- A valid token adds its size. -/
theorem length_expand (h : t.Valid out) : (t.expand out).length = out.length + t.size := by
  cases t with
  | literal a => simp [Token.expand, Token.size]
  | copy distance n => exact length_copyBack n h.1 h.2

@[simp] theorem expandFrom_nil : expandFrom out [] = out := rfl

theorem expandFrom_cons : expandFrom out (t :: tokens) = expandFrom (t.expand out) tokens := rfl

theorem expandFrom_append :
    expandFrom out (tokens ++ tokens') = expandFrom (expandFrom out tokens) tokens' :=
  List.foldl_append

theorem validFrom_append :
    ValidFrom out (tokens ++ tokens') ↔
      ValidFrom out tokens ∧ ValidFrom (expandFrom out tokens) tokens' := by
  induction tokens generalizing out with
  | nil => simp [ValidFrom]
  | cons t tokens ih =>
    rw [List.cons_append, ValidFrom, ValidFrom, ih, expandFrom_cons, and_assoc]

theorem validFrom_singleton : ValidFrom out [t] ↔ t.Valid out := by
  simp [ValidFrom]

/-- Expansion does not shorten the output. -/
theorem length_le_expandFrom (h : ValidFrom out tokens) :
    out.length ≤ (expandFrom out tokens).length := by
  induction tokens generalizing out with
  | nil => exact Nat.le_refl _
  | cons t tokens ih =>
    have hlen := length_expand h.1
    have hrest := ih h.2
    rw [expandFrom_cons]
    omega

end Lemmas

end BackReference
