import N64Recomp.Context.Rom
import N64Recomp.Context.Types
import N64Recomp.Data.BackReference
import N64Recomp.Data.Except
import Mathlib.Data.List.Induction

/-!
# The Yay0 decoder

A Yay0 stream is a header of four words, a mask of whole words at offset 16 whose bits tell
literals from copies, a table of half-words with the copies, and a stream of bytes with the
literals and the lengths that do not fit a half-word.

A read of the data that the data does not have, and a write past the output vector, stop the
model with `outOfBounds`; the checks of the code stop it with `returnFalse`.

## Main definitions

* `yay0Decompress`: the decoder
* `Encodable`, `IsPacking`: the tokens a stream can hold, and the streams that hold a list of them

## Main results

* `yay0Decompress_of_packing`: a packing is decoded to its expansion
* `exists_packing`: what is decoded is the expansion of a packing
* `yay0Decompress_inBounds`: no read and no write is out of bounds
-/

namespace N64Recomp.Compression

open BackReference

/-- Why the decoder stops before the end. -/
inductive Stop
  | outOfBounds
  | returnFalse
  deriving DecidableEq, Repr

/-- A read: out of bounds when there is nothing to read. -/
def get {α : Type} : Option α → Except Stop α
  | some a => .ok a
  | none => .error .outOfBounds

/-- A check of the code: `return false` unless it holds. -/
def require (c : Prop) [Decidable c] : Except Stop Unit :=
  if c then .ok () else .error .returnFalse

/-- The computation does not stop on a read or a write out of bounds. -/
def InBounds {α : Type} (x : Except Stop α) : Prop := x ≠ .error .outOfBounds

section Bounds

variable {α β : Type}

theorem InBounds.bind {x : Except Stop α} {f : α → Except Stop β} (hx : InBounds x)
    (hf : ∀ a, x = .ok a → InBounds (f a)) : InBounds (x >>= f) := by
  cases x with
  | error e => exact fun h => hx (by cases h; rfl)
  | ok a => exact hf a rfl

theorem inBounds_ok (a : α) : InBounds (.ok a) := fun h => nomatch h

theorem inBounds_require (c : Prop) [Decidable c] : InBounds (require c) := by
  unfold require
  split <;> exact fun h => nomatch h

theorem inBounds_get {x : Option α} (h : x.isSome) : InBounds (get x) := by
  obtain ⟨a, rfl⟩ := Option.isSome_iff_exists.mp h
  exact inBounds_ok a

end Bounds

/-- `read_be_u16`. -/
def romHalf (data : List (BitVec 8)) (i : Nat) : Option (BitVec 16) := do
  return (← data[i]?) ++ (← data[i + 1]?)

/-- The variables of the decoder's loop. `out` holds the bytes before `out_pos`; those from there
on are the zeros of `assign`. -/
structure State where
  out : List (BitVec 8)
  cmdPos : Nat
  linkPos : Nat
  dataPos : Nat
  cmd : BitVec 32
  cmdBits : Nat
  deriving DecidableEq, Repr

/-- `out[out_pos++] = b`. -/
def push (size : Nat) (out : List (BitVec 8)) (b : BitVec 8) : Except Stop (List (BitVec 8)) :=
  if out.length < size then .ok (out ++ [b]) else .error .outOfBounds

/-- `out[i]`. -/
def readOut (size : Nat) (out : List (BitVec 8)) (i : Nat) : Option (BitVec 8) :=
  if i < out.length then out[i]? else if i < size then some 0 else none

/-- The copy loop. -/
def copyRun (size : Nat) : Nat → Nat → List (BitVec 8) → Except Stop (List (BitVec 8))
  | 0, _, out => .ok out
  | count + 1, refPos, out => do
    require (out.length < size)
    let b ← get (readOut size out refPos)
    let out ← push size out b
    copyRun size count (refPos + 1) out

section Loop

variable (data : List (BitVec 8)) (size : Nat)

/-- Reads a word of the mask when the bits of the last one are used up. -/
def refill (s : State) : Except Stop State :=
  if s.cmdBits = 0 then do
    require (s.cmdPos + 4 ≤ data.length)
    let cmd ← get (romWord data s.cmdPos)
    return { s with cmd, cmdPos := s.cmdPos + 4, cmdBits := 32 }
  else .ok s

/-- Literal byte from the data stream. -/
def readLiteral (s : State) : Except Stop State := do
  require (s.dataPos < data.length)
  let b ← get data[s.dataPos]?
  let out ← push size s.out b
  return { s with out, dataPos := s.dataPos + 1 }

/-- The length of a copy, from the top of its link word or from a byte of its own. -/
def readCount (link : BitVec 16) (dataPos : Nat) : Except Stop (Nat × Nat) :=
  let count := (link >>> 12).toNat
  if count = 0 then do
    require (dataPos < data.length)
    let b ← get data[dataPos]?
    return (b.toNat + 0x12, dataPos + 1)
  else .ok (count + 2, dataPos)

/-- Back-reference: 16-bit link word and an optional 8-bit count. -/
def readCopy (s : State) : Except Stop State := do
  require (s.linkPos + 2 ≤ data.length)
  let link ← get (romHalf data s.linkPos)
  let offset := (link &&& 0x0FFF#16).toNat
  let (count, dataPos) ← readCount data link s.dataPos
  require (offset + 1 ≤ s.out.length)
  let out ← copyRun size count (s.out.length - offset - 1) s.out
  return { s with out, linkPos := s.linkPos + 2, dataPos }

def readToken (s : State) : Except Stop State :=
  if s.cmd.msb then readLiteral data size s else readCopy data size s

/-- A round of the loop. -/
def step (s : State) : Except Stop State := do
  let s ← refill data s
  let s ← readToken data size s
  return { s with cmd := s.cmd <<< 1, cmdBits := s.cmdBits - 1 }

end Loop

/-! ## Progress -/

section Progress

variable {data : List (BitVec 8)} {size : Nat} {s s' : State}

theorem get_eq_ok_iff {α : Type} {x : Option α} {a : α} : get x = .ok a ↔ x = some a := by
  cases x <;> simp [get]

theorem require_eq_ok_iff {c : Prop} [Decidable c] {u : Unit} : require c = .ok u ↔ c := by
  unfold require
  split <;> simp_all

theorem require_of {c : Prop} [Decidable c] (h : c) : require c = .ok () := if_pos h

@[simp] theorem get_some {α : Type} (a : α) : get (some a) = .ok a := rfl

theorem push_of_lt {out : List (BitVec 8)} {b : BitVec 8} (h : out.length < size) :
    push size out b = .ok (out ++ [b]) := if_pos h

/-- **The copy loop** writes the copy, and stops at the end of the output. -/
theorem copyRun_eq {count offset : Nat} {out : List (BitVec 8)} (hoffset : offset + 1 ≤ out.length)
    (hsize : out.length ≤ size) :
    copyRun size count (out.length - offset - 1) out =
      if out.length + count ≤ size then .ok (copyBack (offset + 1) count out)
      else .error .returnFalse := by
  induction count generalizing out with
  | zero => rw [if_pos (by omega)]; rfl
  | succ count ih =>
    rw [copyRun]
    by_cases hlt : out.length < size
    · have href : out.length - offset - 1 < out.length := by omega
      have hread : readOut size out (out.length - offset - 1) =
          some out[out.length - offset - 1] := by
        rw [readOut, if_pos href, List.getElem?_eq_getElem href]
      have hlen : (out ++ [out[out.length - offset - 1]]).length = out.length + 1 := by simp
      have hnext : out.length - offset - 1 + 1 =
          (out ++ [out[out.length - offset - 1]]).length - offset - 1 := by omega
      have hback : out.length - (offset + 1) = out.length - offset - 1 := by omega
      rw [require_of hlt, hread, get_some, Except.ok_bind, Except.ok_bind, push_of_lt hlt,
        Except.ok_bind, hnext, ih (by omega) (by omega), hlen, copyBack, hback,
        List.getElem?_eq_getElem href, Option.toList_some]
      simp only [Nat.add_assoc, Nat.add_comm 1 count]
    · rw [if_neg (by omega), require, if_neg hlt]
      rfl

theorem length_of_push {out out' : List (BitVec 8)} {b : BitVec 8}
    (h : push size out b = .ok out') : out'.length = out.length + 1 := by
  unfold push at h
  split at h
  · cases h
    simp
  · cases h

theorem length_of_copyRun {count refPos : Nat} {out out' : List (BitVec 8)}
    (h : copyRun size count refPos out = .ok out') : out'.length = out.length + count := by
  induction count generalizing refPos out with
  | zero =>
    cases h
    rfl
  | succ count ih =>
    obtain ⟨_, _, h⟩ := Except.bind_eq_ok_iff.mp h
    obtain ⟨b, _, h⟩ := Except.bind_eq_ok_iff.mp h
    obtain ⟨next, hpush, h⟩ := Except.bind_eq_ok_iff.mp h
    have hlen := length_of_push hpush
    have hrest := ih h
    omega

theorem refill_out (h : refill data s = .ok s') : s'.out = s.out := by
  unfold refill at h
  split at h
  · obtain ⟨_, _, h⟩ := Except.bind_eq_ok_iff.mp h
    obtain ⟨_, _, h⟩ := Except.bind_eq_ok_iff.mp h
    cases h
    rfl
  · cases h
    rfl

theorem readCount_pos {link : BitVec 16} {dataPos : Nat} {r : Nat × Nat}
    (h : readCount data link dataPos = .ok r) : 0 < r.1 := by
  unfold readCount at h
  dsimp only at h
  split at h
  · obtain ⟨_, _, h⟩ := Except.bind_eq_ok_iff.mp h
    obtain ⟨_, _, h⟩ := Except.bind_eq_ok_iff.mp h
    cases h
    exact Nat.succ_pos _
  · cases h
    exact Nat.succ_pos _

theorem readLiteral_lt (h : readLiteral data size s = .ok s') : s.out.length < s'.out.length := by
  obtain ⟨_, _, h⟩ := Except.bind_eq_ok_iff.mp h
  obtain ⟨_, _, h⟩ := Except.bind_eq_ok_iff.mp h
  obtain ⟨out, hpush, h⟩ := Except.bind_eq_ok_iff.mp h
  cases h
  have hlen := length_of_push hpush
  dsimp only
  omega

theorem readCopy_lt (h : readCopy data size s = .ok s') : s.out.length < s'.out.length := by
  obtain ⟨_, _, h⟩ := Except.bind_eq_ok_iff.mp h
  obtain ⟨_, _, h⟩ := Except.bind_eq_ok_iff.mp h
  obtain ⟨r, hcount, h⟩ := Except.bind_eq_ok_iff.mp h
  obtain ⟨_, _, h⟩ := Except.bind_eq_ok_iff.mp h
  obtain ⟨out, hcopy, h⟩ := Except.bind_eq_ok_iff.mp h
  cases h
  have hpos := readCount_pos hcount
  have hlen := length_of_copyRun hcopy
  dsimp only
  omega

/-- **Every round writes at least a byte**, so that the loop ends. -/
theorem step_lt (h : step data size s = .ok s') : s.out.length < s'.out.length := by
  obtain ⟨s₁, hrefill, h⟩ := Except.bind_eq_ok_iff.mp h
  obtain ⟨s₂, htoken, h⟩ := Except.bind_eq_ok_iff.mp h
  cases h
  rw [← refill_out hrefill]
  have hlt : s₁.out.length < s₂.out.length := by
    unfold readToken at htoken
    split at htoken
    · exact readLiteral_lt htoken
    · exact readCopy_lt htoken
  exact hlt

end Progress

/-- The loop of the decoder. -/
def loop (data : List (BitVec 8)) (size : Nat) (s : State) : Except Stop State :=
  if s.out.length < size then
    match _h : step data size s with
    | .ok s' => loop data size s'
    | .error e => .error e
  else .ok s
termination_by size - s.out.length
decreasing_by
  have hlt := step_lt _h
  omega

def yay0Decompress (data : List (BitVec 8)) : Except Stop (List (BitVec 8)) := do
  require (16 ≤ data.length)
  require (data.take 4 = ascii "Yay0")
  let decompSize ← get (romWord data 4)
  let linkTableOff ← get (romWord data 8)
  let dataOff ← get (romWord data 12)
  require (linkTableOff.toNat < data.length ∧ dataOff.toNat < data.length)
  let s ← loop data decompSize.toNat
    { out := [], cmdPos := 16, linkPos := linkTableOff.toNat, dataPos := dataOff.toNat,
      cmd := 0, cmdBits := 0 }
  require (s.out.length = decompSize.toNat)
  return s.out

/-! ## Tokens of a stream -/

/-- Whether the mask has a set bit for the token. -/
def isLiteral : Token (BitVec 8) → Bool
  | .literal _ => true
  | .copy _ _ => false

/-- The link word of a token. -/
def linkOf : Token (BitVec 8) → Option (BitVec 16)
  | .literal _ => none
  | .copy distance length =>
    some (BitVec.ofNat 16 ((if length < 18 then length - 2 else 0) * 4096 + (distance - 1)))

/-- The byte of a token in the chunk stream: a literal, or the length of a long copy. -/
def chunkOf : Token (BitVec 8) → Option (BitVec 8)
  | .literal b => some b
  | .copy _ length => if length < 18 then none else some (BitVec.ofNat 8 (length - 18))

/-- The tokens that a stream can hold. -/
def Encodable : Token (BitVec 8) → Prop
  | .literal _ => True
  | .copy distance length => 1 ≤ distance ∧ distance ≤ 4096 ∧ 3 ≤ length ∧ length ≤ 273

/-- The token at the cursors, with the cursors after it. -/
def tokenAt (data : List (BitVec 8)) (linkPos dataPos : Nat) :
    Bool → Option (Token (BitVec 8) × Nat × Nat)
  | true => data[dataPos]?.map fun b => (.literal b, linkPos, dataPos + 1)
  | false =>
    (romHalf data linkPos).bind fun link =>
      let distance := (link &&& 0x0FFF#16).toNat + 1
      if (link >>> 12).toNat = 0 then
        data[dataPos]?.map fun b => (.copy distance (b.toNat + 18), linkPos + 2, dataPos + 1)
      else some (.copy distance ((link >>> 12).toNat + 2), linkPos + 2, dataPos)

section Tokens

variable {data : List (BitVec 8)} {size : Nat} {s : State} {t : Token (BitVec 8)}

instance (out : List (BitVec 8)) : Decidable (t.Valid out) := by
  cases t <;> unfold Token.Valid <;> infer_instance

theorem romHalf_isSome_iff {i : Nat} : (romHalf data i).isSome ↔ i + 2 ≤ data.length := by
  unfold romHalf
  by_cases h : i + 2 ≤ data.length
  · rw [List.getElem?_eq_getElem (by omega), List.getElem?_eq_getElem (by omega)]
    simp [h]
  · rw [List.getElem?_eq_none (show data.length ≤ i + 1 by omega)]
    cases data[i]? <;> simp [h]

/-- What the decoder does with the token at its cursors. -/
def accept (size : Nat) (s : State) : Option (Token (BitVec 8) × Nat × Nat) → Except Stop State
  | none => .error .returnFalse
  | some (t, linkPos, dataPos) =>
    if t.Valid s.out ∧ s.out.length + t.size ≤ size then
      .ok { s with out := t.expand s.out, linkPos, dataPos }
    else .error .returnFalse

theorem readLiteral_eq (hs : s.out.length < size) :
    readLiteral data size s = accept size s (tokenAt data s.linkPos s.dataPos true) := by
  unfold readLiteral tokenAt
  by_cases h : s.dataPos < data.length
  · rw [require_of h, List.getElem?_eq_getElem h, Option.map_some, accept,
      if_pos ⟨trivial, hs⟩, get_some, Except.ok_bind, Except.ok_bind, push_of_lt hs]
    rfl
  · rw [List.getElem?_eq_none (by omega), require, if_neg h]
    rfl

theorem readCopy_eq (hs : s.out.length ≤ size) :
    readCopy data size s = accept size s (tokenAt data s.linkPos s.dataPos false) := by
  have hcopy : ∀ offset count linkPos dataPos,
      ((require (offset + 1 ≤ s.out.length)).bind fun _ =>
        (copyRun size count (s.out.length - offset - 1) s.out).bind fun out =>
          (Except.ok { s with out, linkPos, dataPos } : Except Stop State)) =
        accept size s (some (.copy (offset + 1) count, linkPos, dataPos)) := by
    intro offset count linkPos dataPos
    by_cases hoffset : offset + 1 ≤ s.out.length
    · rw [require_of hoffset, copyRun_eq hoffset hs, accept]
      by_cases hfit : s.out.length + count ≤ size
      · rw [if_pos hfit, if_pos ⟨⟨Nat.succ_pos offset, hoffset⟩, hfit⟩]
        rfl
      · rw [if_neg hfit, if_neg fun h => hfit h.2]
        rfl
    · rw [require, if_neg hoffset, accept, if_neg fun h => hoffset h.1.2]
      rfl
  unfold readCopy tokenAt
  cases hlink : romHalf data s.linkPos with
  | none =>
    have h : ¬ s.linkPos + 2 ≤ data.length := by
      rw [← romHalf_isSome_iff, hlink]
      simp
    rw [require, if_neg h]
    rfl
  | some link =>
    have h : s.linkPos + 2 ≤ data.length := by
      rw [← romHalf_isSome_iff, hlink]
      rfl
    rw [require_of h, Except.ok_bind, get_some, Except.ok_bind, Option.bind_some]
    dsimp only
    unfold readCount
    by_cases hzero : (link >>> 12).toNat = 0
    · rw [if_pos hzero, if_pos hzero]
      by_cases hbyte : s.dataPos < data.length
      · rw [require_of hbyte, List.getElem?_eq_getElem hbyte, Option.map_some]
        exact hcopy _ _ _ _
      · rw [require, if_neg hbyte, List.getElem?_eq_none (by omega)]
        rfl
    · rw [if_neg hzero, if_neg hzero]
      exact hcopy _ _ _ _

theorem link_distance (link : BitVec 16) : (link &&& 0x0FFF#16).toNat = link.toNat % 4096 := by
  rw [BitVec.toNat_and]
  exact Nat.and_two_pow_sub_one_eq_mod link.toNat 12

theorem link_count (link : BitVec 16) : (link >>> 12).toNat = link.toNat / 4096 := by
  rw [BitVec.toNat_ushiftRight, Nat.shiftRight_eq_div_pow]

/-- An encodable token stands for at least one byte. -/
theorem size_pos (h : Encodable t) : 0 < t.size := by
  cases t with
  | literal b => exact Nat.one_pos
  | copy distance length => exact Nat.lt_of_lt_of_le (by decide) h.2.2.1

/-- A link word is that of the token it is read as. -/
theorem linkOf_copy (link : BitVec 16) {length : Nat}
    (h : (if length < 18 then length - 2 else 0) = (link >>> 12).toNat) :
    linkOf (.copy ((link &&& 0x0FFF#16).toNat + 1) length) = some link := by
  have hsplit : link.toNat / 4096 * 4096 + link.toNat % 4096 = link.toNat :=
    Nat.div_add_mod' link.toNat 4096
  rw [linkOf, h, link_count, link_distance, Nat.add_sub_cancel, hsplit, BitVec.ofNat_toNat,
    BitVec.setWidth_eq]

/-- The fields of the link word of a copy. -/
theorem linkOf_fields {distance length : Nat} {link : BitVec 16}
    (h : Encodable (.copy distance length)) (hlink : linkOf (.copy distance length) = some link) :
    (link &&& 0x0FFF#16).toNat + 1 = distance ∧
      (link >>> 12).toNat = if length < 18 then length - 2 else 0 := by
  obtain ⟨hd, hd', hl, hl'⟩ := h
  have hvalue := congrArg BitVec.toNat (Option.some.inj hlink)
  have hfield : (if length < 18 then length - 2 else 0) < 16 := by split <;> omega
  rw [BitVec.toNat_ofNat] at hvalue
  rw [link_distance, link_count]
  generalize (if length < 18 then length - 2 else 0) = count at *
  omega

/-- **The token at the cursors** is the one whose mask bit, link word and byte are there. -/
theorem tokenAt_eq_some_iff {linkPos dataPos linkPos' dataPos' : Nat} {lit : Bool} :
    tokenAt data linkPos dataPos lit = some (t, linkPos', dataPos') ↔
      Encodable t ∧ isLiteral t = lit ∧
        (∀ w, linkOf t = some w → romHalf data linkPos = some w) ∧
        (∀ b, chunkOf t = some b → data[dataPos]? = some b) ∧
        linkPos' = linkPos + 2 * (linkOf t).toList.length ∧
        dataPos' = dataPos + (chunkOf t).toList.length := by
  constructor
  · intro h
    cases lit with
    | true =>
      obtain ⟨b, hb, heq⟩ := Option.map_eq_some_iff.mp h
      cases heq
      refine ⟨trivial, rfl, ?_, ?_, rfl, rfl⟩
      · rintro w ⟨⟩
      · rintro c ⟨⟩
        exact hb
    | false =>
      obtain ⟨link, hlink, h⟩ := Option.bind_eq_some_iff.mp h
      have hlt := link_count link
      have hmod := link_distance link
      have hlinkLt := link.isLt
      dsimp only at h
      split at h
      · rename_i hzero
        obtain ⟨b, hb, heq⟩ := Option.map_eq_some_iff.mp h
        cases heq
        have hbLt := b.isLt
        have hword := linkOf_copy link (show (if b.toNat + 18 < 18 then b.toNat + 18 - 2 else 0) =
          (link >>> 12).toNat by rw [if_neg (by omega), hzero])
        have hchunk : chunkOf (.copy ((link &&& 0x0FFF#16).toNat + 1) (b.toNat + 18)) = some b := by
          rw [chunkOf, if_neg (by omega), Nat.add_sub_cancel, BitVec.ofNat_toNat,
            BitVec.setWidth_eq]
        refine ⟨⟨by omega, by omega, by omega, by omega⟩, rfl, fun w hw => ?_, fun c hc => ?_, ?_,
          ?_⟩
        · rw [hword] at hw
          cases hw
          exact hlink
        · rw [hchunk] at hc
          cases hc
          exact hb
        · rw [hword]
          rfl
        · rw [hchunk]
          rfl
      · rename_i hcount
        cases h
        have hword := linkOf_copy link
          (show (if (link >>> 12).toNat + 2 < 18 then (link >>> 12).toNat + 2 - 2 else 0) =
            (link >>> 12).toNat by rw [if_pos (by omega), Nat.add_sub_cancel])
        have hchunk : chunkOf (.copy ((link &&& 0x0FFF#16).toNat + 1) ((link >>> 12).toNat + 2)) =
            none := by
          rw [chunkOf, if_pos (by omega)]
        refine ⟨⟨by omega, by omega, by omega, by omega⟩, rfl, fun w hw => ?_, fun c hc => ?_, ?_,
          ?_⟩
        · rw [hword] at hw
          cases hw
          exact hlink
        · rw [hchunk] at hc
          cases hc
        · rw [hword]
          rfl
        · rw [hchunk]
          rfl
  · rintro ⟨hencodable, rfl, hlink, hchunk, rfl, rfl⟩
    cases t with
    | literal b =>
      rw [isLiteral, tokenAt, hchunk b rfl]
      rfl
    | copy distance length =>
      obtain ⟨hdistance, hcount⟩ := linkOf_fields hencodable rfl
      rw [isLiteral, tokenAt, hlink _ rfl, Option.bind_some]
      dsimp only
      rw [hdistance, hcount]
      obtain ⟨_, _, hl, hl'⟩ := hencodable
      by_cases hshort : length < 18
      · rw [if_pos hshort, if_neg (by omega), chunkOf, if_pos hshort, Nat.sub_add_cancel (by omega)]
        rfl
      · have hbyte : chunkOf (.copy distance length) = some (BitVec.ofNat 8 (length - 18)) := by
          rw [chunkOf, if_neg hshort]
        rw [if_neg hshort, if_pos rfl, hchunk _ hbyte, hbyte, Option.map_some, BitVec.toNat_ofNat,
          Nat.mod_eq_of_lt (by omega), Nat.sub_add_cancel (by omega)]
        rfl

end Tokens

/-! ## Packings -/

/-- The bit of the mask for a token, most significant bit of the first word first. -/
def maskBit (data : List (BitVec 8)) (i : Nat) : Option Bool :=
  (romWord data (16 + 4 * (i / 32))).map fun w => w.getMsbD (i % 32)

/-- The data hold a list of tokens: the mask bits at offset 16, and the link words and the bytes
in order from the offsets of their streams. -/
structure Streams (data : List (BitVec 8)) (linkTable chunks : Nat)
    (tokens : List (Token (BitVec 8))) : Prop where
  mask : ∀ i t, tokens[i]? = some t → maskBit data i = some (isLiteral t)
  links : ∀ j w, (tokens.filterMap linkOf)[j]? = some w → romHalf data (linkTable + 2 * j) = some w
  bytes : ∀ j b, (tokens.filterMap chunkOf)[j]? = some b → data[chunks + j]? = some b

/-- The data are a packing of a list of tokens, with an output size in the header. -/
structure IsPacking (data : List (BitVec 8)) (tokens : List (Token (BitVec 8))) (size : Nat) :
    Prop where
  header : 16 ≤ data.length
  magic : data.take 4 = ascii "Yay0"
  sizeWord : (romWord data 4).map BitVec.toNat = some size
  streams : ∃ linkTable chunks, romWord data 8 = some linkTable ∧ romWord data 12 = some chunks ∧
    linkTable.toNat < data.length ∧ chunks.toNat < data.length ∧
    Streams data linkTable.toNat chunks.toNat tokens

section Packings

variable {data : List (BitVec 8)} {linkTable chunks size : Nat} {s s' : State}
  {t : Token (BitVec 8)} {tokens tokens' : List (Token (BitVec 8))}

/-- The entries of a list with at most one entry more. -/
theorem forall_append_toList {α : Type} {l : List α} {o : Option α} {P : Nat → α → Prop} :
    (∀ j x, (l ++ o.toList)[j]? = some x → P j x) ↔
      (∀ j x, l[j]? = some x → P j x) ∧ ∀ x, o = some x → P l.length x := by
  constructor
  · intro h
    refine ⟨fun j x hx => h j x ?_, ?_⟩
    · rw [List.getElem?_append_left (List.getElem?_eq_some_iff.mp hx).1, hx]
    · rintro x rfl
      exact h l.length x (by simp)
  · rintro ⟨hl, ho⟩ j x hx
    rcases Nat.lt_or_ge j l.length with hj | hj
    · rw [List.getElem?_append_left hj] at hx
      exact hl j x hx
    · rw [List.getElem?_append_right hj] at hx
      cases o with
      | none => simp at hx
      | some y =>
        obtain ⟨hlt, rfl⟩ := List.getElem?_eq_some_iff.mp hx
        have hlast : j = l.length := by
          rw [Option.toList_some, List.length_singleton] at hlt
          omega
        subst hlast
        simpa using ho _ rfl

theorem filterMap_append_singleton {α β : Type} (f : α → Option β) (l : List α) (x : α) :
    (l ++ [x]).filterMap f = l.filterMap f ++ (f x).toList := by
  rw [List.filterMap_append, List.filterMap_cons]
  cases f x <;> rfl

/-- The streams of one token more. -/
theorem streams_append_singleton :
    Streams data linkTable chunks (tokens ++ [t]) ↔
      Streams data linkTable chunks tokens ∧ maskBit data tokens.length = some (isLiteral t) ∧
        (∀ w, linkOf t = some w →
          romHalf data (linkTable + 2 * (tokens.filterMap linkOf).length) = some w) ∧
        (∀ b, chunkOf t = some b →
          data[chunks + (tokens.filterMap chunkOf).length]? = some b) := by
  have hmask := forall_append_toList (l := tokens) (o := some t)
    (P := fun i t => maskBit data i = some (isLiteral t))
  have hlinks := forall_append_toList (l := tokens.filterMap linkOf) (o := linkOf t)
    (P := fun j w => romHalf data (linkTable + 2 * j) = some w)
  have hbytes := forall_append_toList (l := tokens.filterMap chunkOf) (o := chunkOf t)
    (P := fun j b => data[chunks + j]? = some b)
  rw [← filterMap_append_singleton] at hlinks hbytes
  constructor
  · rintro ⟨h1, h2, h3⟩
    obtain ⟨m, hm⟩ := hmask.mp h1
    obtain ⟨l, hl⟩ := hlinks.mp h2
    obtain ⟨b, hb⟩ := hbytes.mp h3
    exact ⟨⟨m, l, b⟩, hm t rfl, hl, hb⟩
  · rintro ⟨⟨m, l, b⟩, hm, hl, hb⟩
    refine ⟨hmask.mpr ⟨m, ?_⟩, hlinks.mpr ⟨l, hl⟩, hbytes.mpr ⟨b, hb⟩⟩
    rintro x ⟨⟩
    exact hm

theorem streams_of_append (h : Streams data linkTable chunks (tokens ++ tokens')) :
    Streams data linkTable chunks tokens := by
  induction tokens' using List.reverseRecOn with
  | nil => rwa [List.append_nil] at h
  | append_singleton tokens' t ih =>
    rw [← List.append_assoc] at h
    exact ih (streams_append_singleton.mp h).1

/-! ## The state after some tokens -/

/-- The state of the loop after the tokens of a list. -/
structure StateAfter (data : List (BitVec 8)) (linkTable chunks : Nat)
    (tokens : List (Token (BitVec 8))) (s : State) : Prop where
  out : s.out = expandFrom [] tokens
  linkPos : s.linkPos = linkTable + 2 * (tokens.filterMap linkOf).length
  dataPos : s.dataPos = chunks + (tokens.filterMap chunkOf).length
  cmdBits : s.cmdBits = (32 - tokens.length % 32) % 32
  cmdPos : s.cmdPos = 16 + 4 * ((tokens.length + 31) / 32)
  cmd : tokens.length % 32 ≠ 0 →
    ∃ w, romWord data (16 + 4 * (tokens.length / 32)) = some w ∧
      s.cmd = w <<< (tokens.length % 32)

/-- The state with the mask word of the next token at hand. -/
def State.refilled (s : State) (tokens : List (Token (BitVec 8))) (w : BitVec 32) : State :=
  { s with
    cmd := w <<< (tokens.length % 32)
    cmdPos := 16 + 4 * (tokens.length / 32 + 1)
    cmdBits := 32 - tokens.length % 32 }

/-- **Refilling** has the mask word of the next token at hand, or the data end before it. -/
theorem refill_eq (h : StateAfter data linkTable chunks tokens s) :
    refill data s =
      match romWord data (16 + 4 * (tokens.length / 32)) with
      | some w => .ok (s.refilled tokens w)
      | none => .error .returnFalse := by
  have hbits := h.cmdBits
  have hpos := h.cmdPos
  unfold refill
  by_cases hzero : tokens.length % 32 = 0
  · -- the bits of the last word are used up
    have hpos' : s.cmdPos = 16 + 4 * (tokens.length / 32) := by omega
    rw [if_pos (by omega)]
    cases hw : romWord data (16 + 4 * (tokens.length / 32)) with
    | none =>
      have hend : ¬ s.cmdPos + 4 ≤ data.length := by
        rw [← romWord_isSome_iff, hpos', hw]
        simp
      rw [require, if_neg hend]
      rfl
    | some w =>
      have hend : s.cmdPos + 4 ≤ data.length := by
        rw [← romWord_isSome_iff, hpos', hw]
        rfl
      rw [require_of hend, Except.ok_bind, hpos', hw, get_some, Except.ok_bind]
      dsimp only [State.refilled]
      rw [hzero, BitVec.shiftLeft_zero]
      rfl
  · obtain ⟨w, hw, hshift⟩ := h.cmd hzero
    rw [if_neg (by omega), hw]
    dsimp only [State.refilled]
    have hbits' : s.cmdBits = 32 - tokens.length % 32 := by omega
    have hpos' : s.cmdPos = 16 + 4 * (tokens.length / 32 + 1) := by omega
    rw [← hbits', ← hpos', ← hshift]

/-- The next state, once a token was accepted. -/
def State.shifted (s : State) : State := { s with cmd := s.cmd <<< 1, cmdBits := s.cmdBits - 1 }

/-- A round of the loop, by the mask word of the next token and the token at the cursors. -/
theorem step_eq (h : StateAfter data linkTable chunks tokens s) (hs : s.out.length < size) :
    step data size s =
      match romWord data (16 + 4 * (tokens.length / 32)) with
      | some w =>
        (accept size (s.refilled tokens w)
          (tokenAt data s.linkPos s.dataPos (w.getMsbD (tokens.length % 32)))).map State.shifted
      | none => .error .returnFalse := by
  rw [step, refill_eq h]
  cases romWord data (16 + 4 * (tokens.length / 32)) with
  | none => rfl
  | some w =>
    have hbit : (s.refilled tokens w).cmd.msb = w.getMsbD (tokens.length % 32) := by
      dsimp only [State.refilled]
      rw [BitVec.msb_shiftLeft]
    dsimp only
    rw [Except.ok_bind, readToken, hbit]
    cases w.getMsbD (tokens.length % 32) with
    | true =>
      rw [if_pos rfl, readLiteral_eq (s := s.refilled tokens w) hs]
      exact (bind_pure_comp _ _).trans rfl
    | false =>
      rw [if_neg Bool.false_ne_true, readCopy_eq (s := s.refilled tokens w) (Nat.le_of_lt hs)]
      exact (bind_pure_comp _ _).trans rfl

/-- The state that an accepted token leaves. -/
theorem stateAfter_append {w : BitVec 32} {linkPos dataPos : Nat}
    (h : StateAfter data linkTable chunks tokens s)
    (hw : romWord data (16 + 4 * (tokens.length / 32)) = some w)
    (hlink : linkPos = s.linkPos + 2 * (linkOf t).toList.length)
    (hdata : dataPos = s.dataPos + (chunkOf t).toList.length) :
    StateAfter data linkTable chunks (tokens ++ [t])
      (State.shifted
        { s.refilled tokens w with out := t.expand s.out, linkPos := linkPos, dataPos := dataPos })
    where
  out := by
    rw [expandFrom_append, ← h.out]
    rfl
  linkPos := by
    dsimp only [State.shifted]
    rw [hlink, h.linkPos, filterMap_append_singleton, List.length_append]
    omega
  dataPos := by
    dsimp only [State.shifted]
    rw [hdata, h.dataPos, filterMap_append_singleton, List.length_append]
    omega
  cmdBits := by
    dsimp only [State.shifted, State.refilled]
    rw [List.length_append, List.length_singleton]
    omega
  cmdPos := by
    dsimp only [State.shifted, State.refilled]
    rw [List.length_append, List.length_singleton]
    omega
  cmd := by
    rw [List.length_append, List.length_singleton]
    intro hne
    have hmod : (tokens.length + 1) % 32 = tokens.length % 32 + 1 := by omega
    have hdiv : (tokens.length + 1) / 32 = tokens.length / 32 := by omega
    refine ⟨w, by rw [hdiv, hw], ?_⟩
    dsimp only [State.shifted, State.refilled]
    rw [hmod, BitVec.shiftLeft_add]

/-- No round reads or writes out of bounds. -/
theorem step_inBounds (h : StateAfter data linkTable chunks tokens s) (hs : s.out.length < size) :
    InBounds (step data size s) := by
  unfold InBounds
  rw [step_eq h hs]
  cases romWord data (16 + 4 * (tokens.length / 32)) with
  | none => simp
  | some w =>
    dsimp only
    cases tokenAt data s.linkPos s.dataPos (w.getMsbD (tokens.length % 32)) with
    | none => simp [accept, Except.map]
    | some r =>
      rw [accept]
      split <;> simp [Except.map]

/-- **A round of the loop** that ends well has read a token that the data hold. -/
theorem step_sound (h : StateAfter data linkTable chunks tokens s) (hs : s.out.length < size)
    (hstreams : Streams data linkTable chunks tokens) (hstep : step data size s = .ok s') :
    ∃ t, Encodable t ∧ t.Valid s.out ∧ s.out.length + t.size ≤ size ∧
      Streams data linkTable chunks (tokens ++ [t]) ∧
      StateAfter data linkTable chunks (tokens ++ [t]) s' := by
  rw [step_eq h hs] at hstep
  cases hw : romWord data (16 + 4 * (tokens.length / 32)) with
  | none =>
    rw [hw] at hstep
    cases hstep
  | some w =>
    rw [hw] at hstep
    obtain ⟨s₁, haccept, rfl⟩ := Except.map_eq_ok_iff.mp hstep
    cases ht : tokenAt data s.linkPos s.dataPos (w.getMsbD (tokens.length % 32)) with
    | none =>
      rw [ht] at haccept
      cases haccept
    | some r =>
      obtain ⟨t, linkPos, dataPos⟩ := r
      rw [ht, accept] at haccept
      split at haccept
      · rename_i hvalid
        cases haccept
        obtain ⟨hencodable, hlit, hlink, hchunk, hlinkPos, hdataPos⟩ := tokenAt_eq_some_iff.mp ht
        refine ⟨t, hencodable, hvalid.1, hvalid.2, streams_append_singleton.mpr
          ⟨hstreams, ?_, h.linkPos ▸ hlink, h.dataPos ▸ hchunk⟩,
          stateAfter_append (s := s) h hw hlinkPos hdataPos⟩
        rw [maskBit, hw, Option.map_some, hlit]
      · cases haccept

/-- A token that the data hold, that is valid and fits the output, is read. -/
theorem step_complete (h : StateAfter data linkTable chunks tokens s)
    (hstreams : Streams data linkTable chunks (tokens ++ [t])) (hencodable : Encodable t)
    (hvalid : t.Valid s.out) (hsize : s.out.length + t.size ≤ size) :
    ∃ s', step data size s = .ok s' ∧ StateAfter data linkTable chunks (tokens ++ [t]) s' := by
  obtain ⟨_, hmask, hlink, hchunk⟩ := streams_append_singleton.mp hstreams
  obtain ⟨w, hw, hbit⟩ := Option.map_eq_some_iff.mp hmask
  rw [← h.linkPos] at hlink
  rw [← h.dataPos] at hchunk
  have hpos := size_pos hencodable
  have htoken := tokenAt_eq_some_iff.mpr ⟨hencodable, hbit.symm, hlink, hchunk, rfl, rfl⟩
  rw [step_eq h (by omega), hw]
  dsimp only
  rw [htoken, accept, if_pos ⟨hvalid, hsize⟩]
  exact ⟨_, rfl, stateAfter_append (s := s) h hw rfl rfl⟩

/-! ## The loop -/

theorem loop_of_lt (hs : s.out.length < size) (hstep : step data size s = .ok s') :
    loop data size s = loop data size s' := by
  rw [loop, if_pos hs]
  split
  · rename_i s₁ h
    rw [hstep] at h
    cases h
    rfl
  · rename_i e h
    rw [hstep] at h
    cases h

theorem loop_of_ge (hs : ¬ s.out.length < size) : loop data size s = .ok s := by
  rw [loop, if_neg hs]

/-- The loop never leaves the bounds. -/
theorem loop_inBounds (h : StateAfter data linkTable chunks tokens s)
    (hstreams : Streams data linkTable chunks tokens) :
    InBounds (loop data size s) := by
  induction hn : size - s.out.length using Nat.strongRecOn generalizing tokens s with
  | ind n ih =>
    by_cases hs : s.out.length < size
    · cases hstep : step data size s with
      | error e =>
        rw [loop, if_pos hs]
        split
        · rename_i s' h'
          rw [hstep] at h'
          cases h'
        · rename_i e' h'
          intro heq
          cases heq
          exact step_inBounds h hs h'
      | ok s' =>
        obtain ⟨t, _, _, _, hstreams', h'⟩ := step_sound h hs hstreams hstep
        have hlt := step_lt hstep
        rw [loop_of_lt hs hstep]
        exact ih _ (by omega) h' hstreams' rfl
    · rw [loop_of_ge hs]
      exact inBounds_ok s

/-- **What the loop decodes** is the expansion of tokens that the data hold. -/
theorem loop_sound (h : StateAfter data linkTable chunks tokens s)
    (hstreams : Streams data linkTable chunks tokens) (hencodable : ∀ t ∈ tokens, Encodable t)
    (hvalid : ValidFrom [] tokens) (hloop : loop data size s = .ok s') :
    ∃ tokens', Streams data linkTable chunks tokens' ∧ (∀ t ∈ tokens', Encodable t) ∧
      ValidFrom [] tokens' ∧ s'.out = expandFrom [] tokens' := by
  induction hn : size - s.out.length using Nat.strongRecOn generalizing tokens s with
  | ind n ih =>
    by_cases hs : s.out.length < size
    · cases hstep : step data size s with
      | error e =>
        rw [loop, if_pos hs] at hloop
        split at hloop <;> simp_all
      | ok s₁ =>
        rw [loop_of_lt hs hstep] at hloop
        obtain ⟨t, ht, htvalid, _, hstreams', h'⟩ := step_sound h hs hstreams hstep
        have hlt := step_lt hstep
        refine ih _ (by omega) h' hstreams' ?_ ?_ hloop rfl
        · intro u hu
          rcases List.mem_append.mp hu with hu | hu
          · exact hencodable u hu
          · rw [List.mem_singleton.mp hu]
            exact ht
        · rw [h.out] at htvalid
          exact validFrom_append.mpr ⟨hvalid, validFrom_singleton.mpr htvalid⟩
    · rw [loop_of_ge hs] at hloop
      cases hloop
      exact ⟨tokens, hstreams, hencodable, hvalid, h.out⟩

/-- **Tokens that the data hold are decoded**, when they fill the output. -/
theorem loop_complete (h : StateAfter data linkTable chunks tokens s)
    (hstreams : Streams data linkTable chunks (tokens ++ tokens'))
    (hencodable : ∀ t ∈ tokens', Encodable t) (hvalid : ValidFrom s.out tokens')
    (hsize : (expandFrom s.out tokens').length = size) :
    ∃ s', loop data size s = .ok s' ∧ s'.out = expandFrom s.out tokens' := by
  induction tokens' generalizing tokens s with
  | nil =>
    exact ⟨s, loop_of_ge (by rw [← hsize]; exact Nat.lt_irrefl _), rfl⟩
  | cons t tokens' ih =>
    rw [List.append_cons] at hstreams
    have ht := hencodable t List.mem_cons_self
    have hlen := length_expand hvalid.1
    have hmono := length_le_expandFrom hvalid.2
    have hpos := size_pos ht
    rw [expandFrom_cons] at hsize
    -- the streams of a prefix of the tokens are those of the tokens
    have hprefix : Streams data linkTable chunks (tokens ++ [t]) := streams_of_append hstreams
    have hfit : s.out.length + t.size ≤ size := by omega
    obtain ⟨s₁, hstep, h₁⟩ := step_complete h hprefix ht hvalid.1 hfit
    have hout : s₁.out = t.expand s.out := by
      rw [h₁.out, expandFrom_append, ← h.out]
      rfl
    obtain ⟨s', hloop, hs'⟩ := ih h₁ hstreams (fun u hu => hencodable u (List.mem_cons_of_mem t hu))
      (hout ▸ hvalid.2) (hout ▸ hsize)
    exact ⟨s', by rw [loop_of_lt (by omega) hstep, hloop], by rw [hs', hout, expandFrom_cons]⟩

/-! ## The decoder -/

/-- The state before the loop holds no token. -/
theorem stateAfter_nil : StateAfter data linkTable chunks []
    { out := [], cmdPos := 16, linkPos := linkTable, dataPos := chunks, cmd := 0, cmdBits := 0 } where
  out := rfl
  linkPos := rfl
  dataPos := rfl
  cmdBits := rfl
  cmdPos := rfl
  cmd := fun h => absurd rfl h

theorem streams_nil : Streams data linkTable chunks [] :=
  ⟨fun _ _ h => by simp at h, fun _ _ h => by simp at h, fun _ _ h => by simp at h⟩

/-- **A packing is decoded to its expansion.** -/
theorem yay0Decompress_of_packing (hencodable : ∀ t ∈ tokens, Encodable t)
    (hvalid : ValidFrom [] tokens) (h : IsPacking data tokens (expandFrom [] tokens).length) :
    yay0Decompress data = .ok (expandFrom [] tokens) := by
  obtain ⟨linkTable, chunks, hlinkTable, hchunks, hlink, hchunk, hstreams⟩ := h.streams
  obtain ⟨size, hsize, hlen⟩ := Option.map_eq_some_iff.mp h.sizeWord
  obtain ⟨s', hloop, hout⟩ :=
    loop_complete stateAfter_nil hstreams hencodable hvalid hlen.symm
  rw [yay0Decompress, require_of h.header, require_of h.magic, hsize, hlinkTable, hchunks]
  simp only [get_some, Except.ok_bind, require_of (And.intro hlink hchunk), hloop]
  rw [hout, require_of hlen.symm]
  rfl

/-- **What is decoded** is the expansion of a packing. -/
theorem exists_packing {out : List (BitVec 8)} (h : yay0Decompress data = .ok out) :
    ∃ tokens, (∀ t ∈ tokens, Encodable t) ∧ ValidFrom [] tokens ∧
      IsPacking data tokens out.length ∧ out = expandFrom [] tokens := by
  obtain ⟨_, hheader, h⟩ := Except.bind_eq_ok_iff.mp h
  obtain ⟨_, hmagic, h⟩ := Except.bind_eq_ok_iff.mp h
  obtain ⟨size, hsize, h⟩ := Except.bind_eq_ok_iff.mp h
  obtain ⟨linkTable, hlinkTable, h⟩ := Except.bind_eq_ok_iff.mp h
  obtain ⟨chunks, hchunks, h⟩ := Except.bind_eq_ok_iff.mp h
  obtain ⟨_, hoffsets, h⟩ := Except.bind_eq_ok_iff.mp h
  obtain ⟨s', hloop, h⟩ := Except.bind_eq_ok_iff.mp h
  obtain ⟨_, hend, h⟩ := Except.bind_eq_ok_iff.mp h
  cases h
  have hlen := require_eq_ok_iff.mp hend
  obtain ⟨hlink, hchunk⟩ := require_eq_ok_iff.mp hoffsets
  obtain ⟨tokens, hstreams, hencodable, hvalid, hout⟩ :=
    loop_sound stateAfter_nil streams_nil (by simp) trivial hloop
  refine ⟨tokens, hencodable, hvalid, ?_, hout⟩
  exact
    { header := require_eq_ok_iff.mp hheader
      magic := require_eq_ok_iff.mp hmagic
      sizeWord := by rw [get_eq_ok_iff.mp hsize, hlen]; rfl
      streams := ⟨linkTable, chunks, get_eq_ok_iff.mp hlinkTable, get_eq_ok_iff.mp hchunks,
        hlink, hchunk, hstreams⟩ }

/-- **No read and no write is out of bounds**, for any data. -/
theorem yay0Decompress_inBounds : InBounds (yay0Decompress data) := by
  refine (inBounds_require _).bind fun _ hheader => (inBounds_require _).bind fun _ _ => ?_
  have hlen := require_eq_ok_iff.mp hheader
  refine (inBounds_get (romWord_isSome_iff.mpr (by omega))).bind fun size _ => ?_
  refine (inBounds_get (romWord_isSome_iff.mpr (by omega))).bind fun linkTable _ => ?_
  refine (inBounds_get (romWord_isSome_iff.mpr (by omega))).bind fun chunks _ => ?_
  refine (inBounds_require _).bind fun _ _ =>
    (loop_inBounds stateAfter_nil streams_nil).bind fun s' _ => ?_
  exact (inBounds_require _).bind fun _ _ => inBounds_ok _

end Packings

end N64Recomp.Compression
