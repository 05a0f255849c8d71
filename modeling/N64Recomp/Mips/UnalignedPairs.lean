import N64Recomp.Mips.Integer

/-!
# The pairs of unaligned accesses

A left access at an address and a right one at the last byte of the word there access the word as a
whole, in either order.

## Main results

* `eval_lwl_lwr`, `eval_ldl_ldr`: the loads
* `eval_swl_swr`, `eval_sdl_sdr`: the stores
-/

namespace Mips

open Memory

variable {w : Nat} (mem : Memory w) (p : BitVec w) (k : Nat) (x : BitVec 64)

theorem add_sub_ofNat {n i : Nat} (hi : i ≤ n) :
    p + BitVec.ofNat w n - BitVec.ofNat w (n - i) = p + BitVec.ofNat w i := by
  have hn : BitVec.ofNat w n = BitVec.ofNat w i + BitVec.ofNat w (n - i) := by
    rw [← BitVec.ofNat_add, Nat.add_sub_cancel' hi]
  rw [hn, ← BitVec.add_assoc, BitVec.add_sub_cancel]

/-! ### Loads -/

section Loads

/-- The bytes of two loads that are together all of a word. -/
theorem ofBytes_pair {n : Nat} {left right : Nat → Prop} [DecidablePred left] [DecidablePred right]
    (hall : ∀ i < n, left i ∨ right i) (f : Nat → BitVec 8) (y : BitVec (8 * n)) :
    (ofBytes n fun i => if right i then f i
      else byte n (ofBytes n fun j => if left j then f j else byte n y j) i) = ofBytes n f := by
  refine ofBytes_congr fun i hi => ?_
  rw [byte_ofBytes hi]
  rcases hall i hi with h | h
  · rw [if_pos h, ite_self]
  · rw [if_pos h]

/-- The two loads, the first of them given by the bytes that it leaves. -/
theorem ofBytes_pair_of_eq {n : Nat} {left right : Nat → Prop} [DecidablePred left]
    [DecidablePred right] (hall : ∀ i < n, left i ∨ right i) {f : Nat → BitVec 8}
    {y z : BitVec (8 * n)} (hz : z = ofBytes n fun j => if left j then f j else byte n y j) :
    (ofBytes n fun i => if right i then f i else byte n z i) = ofBytes n f := by
  rw [hz]
  exact ofBytes_pair hall f y

/-- The bytes that a right load at the last byte of a word loads. -/
theorem ofBytes_right_pair {n j : Nat} (y : BitVec (8 * n)) :
    (ofBytes n fun i => if n - 1 - j ≤ i
      then mem (p + BitVec.ofNat w (n - 1) - BitVec.ofNat w (n - 1 - i)) else byte n y i) =
      ofBytes n fun i => if n - 1 - j ≤ i then mem (p + BitVec.ofNat w i) else byte n y i := by
  refine ofBytes_congr fun i hi => ?_
  rw [add_sub_ofNat p (by omega : i ≤ n - 1)]

theorem eval_lwl_lwr :
    LoadOp.eval mem (p + BitVec.ofNat w 3) ((k + 3) % 8) (LoadOp.eval mem p k x .lwl) .lwr =
      ofWord (mem.read p 4) := by
  have hall : ∀ i < 4, i < 4 - k % 4 ∨ 4 - 1 - (k + 3) % 8 % 4 ≤ i := by omega
  simp only [LoadOp.eval, word_ofWord]
  congr 1
  exact (ofBytes_right_pair mem p _).trans (ofBytes_pair hall _ _)

theorem eval_lwr_lwl :
    LoadOp.eval mem p k (LoadOp.eval mem (p + BitVec.ofNat w 3) ((k + 3) % 8) x .lwr) .lwl =
      ofWord (mem.read p 4) := by
  have hall : ∀ i < 4, 4 - 1 - (k + 3) % 8 % 4 ≤ i ∨ i < 4 - k % 4 := by omega
  simp only [LoadOp.eval, word_ofWord]
  congr 1
  exact ofBytes_pair_of_eq hall (ofBytes_right_pair mem p _)

theorem eval_ldl_ldr (hk : k < 8) :
    LoadOp.eval mem (p + BitVec.ofNat w 7) ((k + 7) % 8) (LoadOp.eval mem p k x .ldl) .ldr =
      mem.read p 8 := by
  have hall : ∀ i < 8, i < 8 - k ∨ 8 - 1 - (k + 7) % 8 ≤ i := by omega
  simp only [LoadOp.eval]
  exact (ofBytes_right_pair mem p _).trans (ofBytes_pair hall _ _)

theorem eval_ldr_ldl (hk : k < 8) :
    LoadOp.eval mem p k (LoadOp.eval mem (p + BitVec.ofNat w 7) ((k + 7) % 8) x .ldr) .ldl =
      mem.read p 8 := by
  have hall : ∀ i < 8, 8 - 1 - (k + 7) % 8 ≤ i ∨ i < 8 - k := by omega
  simp only [LoadOp.eval]
  exact ofBytes_pair_of_eq hall (ofBytes_right_pair mem p _)

end Loads

/-! ### Stores -/

section Stores

/-- A right store at the last byte of a word writes its last bytes. -/
theorem writeBytes_right {n j : Nat} (hj : j < n) (hn : n ≤ 2 ^ w) (f : Nat → BitVec 8)
    (q : BitVec w) :
    mem.writeBytes (p + BitVec.ofNat w (n - 1) - BitVec.ofNat w j) (j + 1)
        (fun i => f (n - 1 - j + i)) q =
      if n - 1 - j ≤ (q - p).toNat ∧ (q - p).toNat < n then f (q - p).toNat else mem q := by
  have hbase : p + BitVec.ofNat w (n - 1) - BitVec.ofNat w j = p + BitVec.ofNat w (n - 1 - j) := by
    have hadd := add_sub_ofNat p (n := n - 1) (i := n - 1 - j) (by omega)
    rwa [show n - 1 - (n - 1 - j) = j by omega] at hadd
  have hoff := sub_toNat_of_base (k := n - 1 - j) (by omega) hn hbase q
  have hq := (q - p).isLt
  rw [writeBytes, hoff]
  by_cases hle : n - 1 - j ≤ (q - p).toNat
  · rw [if_pos hle]
    by_cases hlt : (q - p).toNat < n
    · rw [if_pos (by omega), if_pos ⟨hle, hlt⟩, Nat.add_sub_cancel' hle]
    · rw [if_neg (by omega), if_neg (by omega)]
  · rw [if_neg hle, if_neg (by omega), if_neg (by omega)]

/-- The two stores write all bytes of the word and no other byte, in either order. -/
theorem writeBytes_pair {n m j : Nat} (hn : n ≤ 2 ^ w) (hm : m ≤ n) (hj : j < n)
    (hall : n - 1 - j ≤ m) (f : Nat → BitVec 8) :
    let right (mem : Memory w) := mem.writeBytes (p + BitVec.ofNat w (n - 1) - BitVec.ofNat w j)
      (j + 1) fun i => f (n - 1 - j + i)
    right (mem.writeBytes p m f) = mem.writeBytes p n f ∧
      (right mem).writeBytes p m f = mem.writeBytes p n f := by
  intro right
  have hright : ∀ mem q, right mem q = _ := fun mem q => writeBytes_right mem p hj hn f q
  constructor <;> funext q
  · rw [hright, writeBytes, writeBytes]
    by_cases hq : (q - p).toNat < n
    · by_cases hr : n - 1 - j ≤ (q - p).toNat
      · rw [if_pos ⟨hr, hq⟩, if_pos hq]
      · rw [if_neg (by omega), if_pos (by omega), if_pos hq]
    · rw [if_neg (by omega), if_neg (by omega), if_neg hq]
  · rw [writeBytes, hright, writeBytes]
    by_cases hq : (q - p).toNat < n
    · by_cases hl : (q - p).toNat < m
      · rw [if_pos hl, if_pos hq]
      · rw [if_neg hl, if_pos (by omega), if_pos hq]
    · rw [if_neg (by omega), if_neg (by omega), if_neg hq]

theorem eval_swl_swr (hw : 8 ≤ 2 ^ w) :
    StoreOp.eval (StoreOp.eval mem p k x .swl) (p + BitVec.ofNat w 3) ((k + 3) % 8) x .swr =
        mem.write p 4 (word x) ∧
      StoreOp.eval (StoreOp.eval mem (p + BitVec.ofNat w 3) ((k + 3) % 8) x .swr) p k x .swl =
        mem.write p 4 (word x) :=
  writeBytes_pair mem p (n := 4) (m := 4 - k % 4) (j := (k + 3) % 8 % 4) (by omega)
    (by omega) (by omega) (by omega) (byte 4 (word x))

theorem eval_sdl_sdr (hw : 8 ≤ 2 ^ w) (hk : k < 8) :
    StoreOp.eval (StoreOp.eval mem p k x .sdl) (p + BitVec.ofNat w 7) ((k + 7) % 8) x .sdr =
        mem.write p 8 x ∧
      StoreOp.eval (StoreOp.eval mem (p + BitVec.ofNat w 7) ((k + 7) % 8) x .sdr) p k x .sdl =
        mem.write p 8 x :=
  writeBytes_pair mem p (n := 8) (m := 8 - k) (j := (k + 7) % 8) hw (by omega) (by omega)
    (by omega) (byte 8 x)

end Stores

end Mips
