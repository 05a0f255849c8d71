import N64Recomp.Data.Widths

/-!
# Byte-addressed big-endian memory

A memory is a function from the addresses of a bus to bytes. A word of `n` bytes is read and
written most significant byte first. The merges `mergeLeft` and `mergeRight` are the words that
the unaligned accesses assemble from part of a register and part of a memory word; each of them
has a bytewise reading and a reading by shifts and masks, and the two agree.

## Main definitions

* `ofBytes`, `byte`: the word with given bytes, and the bytes of a word
* `Memory`, `Memory.read`, `Memory.write`, `Memory.writeLeft`, `Memory.writeRight`

## Main results

* `ofBytes_left`, `ofBytes_right`, ...: the bytewise merges as shifts and masks
* `Memory.read_append`, `Memory.write_append`: a word in two halves
* `Memory.write_reversed`: a word stored least significant byte first behind a permutation of
  the addresses that reverses the bytes of the word
-/

namespace Mips

/-- The word whose bytes are `f 0, ..., f (n - 1)`, most significant byte first. -/
def ofBytes : (n : Nat) → (Nat → BitVec 8) → BitVec (8 * n)
  | 0, _ => 0
  | n + 1, f => (ofBytes n f ++ f n : BitVec (8 * n + 8))

/-- Byte `i` of a word, counted from the most significant byte. -/
def byte (n : Nat) (x : BitVec (8 * n)) (i : Nat) : BitVec 8 :=
  (x >>> (8 * (n - 1 - i))).setWidth 8

theorem getLsbD_ofBytes (n : Nat) (f : Nat → BitVec 8) (j : Nat) :
    (ofBytes n f).getLsbD j =
      (decide (j < 8 * n) && (f (n - 1 - j / 8)).getLsbD (j % 8)) := by
  induction n generalizing j with
  | zero => simp [ofBytes]
  | succ n ih =>
    have hcat : (ofBytes (n + 1) f).getLsbD j
        = (ofBytes n f ++ f n : BitVec (8 * n + 8)).getLsbD j := rfl
    rw [hcat, BitVec.getLsbD_append]
    by_cases hj : j < 8
    · have hdiv : j / 8 = 0 := by omega
      have hmod : j % 8 = j := by omega
      have hlt : j < 8 * (n + 1) := by omega
      simp [hj, hdiv, hmod, hlt]
    · have hmod : (j - 8) % 8 = j % 8 := by omega
      have hdiv : n - 1 - (j - 8) / 8 = n + 1 - 1 - j / 8 := by omega
      have hlt : (j - 8 < 8 * n) ↔ j < 8 * (n + 1) := by omega
      simp only [hj, if_false, ih, hmod, hdiv, hlt]

theorem getLsbD_byte (n : Nat) (x : BitVec (8 * n)) (i j : Nat) :
    (byte n x i).getLsbD j = (decide (j < 8) && x.getLsbD (8 * (n - 1 - i) + j)) := by
  simp [byte]

theorem ofBytes_congr {n : Nat} {f g : Nat → BitVec 8} (h : ∀ i < n, f i = g i) :
    ofBytes n f = ofBytes n g := by
  apply BitVec.eq_of_getLsbD_eq
  intro j hj
  rw [getLsbD_ofBytes, getLsbD_ofBytes, h _ (by omega)]

/-- A word is rebuilt from its bytes. -/
theorem ofBytes_byte (n : Nat) (x : BitVec (8 * n)) : ofBytes n (byte n x) = x := by
  apply BitVec.eq_of_getLsbD_eq
  intro j hj
  have hidx : 8 * (n - 1 - (n - 1 - j / 8)) + j % 8 = j := by omega
  have hmod : j % 8 < 8 := Nat.mod_lt j (by decide)
  simp [-BitVec.getLsbD_eq_getElem, getLsbD_ofBytes, getLsbD_byte, hj, hidx, hmod]

theorem byte_ofBytes {n i : Nat} (hi : i < n) (f : Nat → BitVec 8) :
    byte n (ofBytes n f) i = f i := by
  apply BitVec.eq_of_getLsbD_eq
  intro j hj
  have hlt : 8 * (n - 1 - i) + j < 8 * n := by omega
  have hdiv : n - 1 - (8 * (n - 1 - i) + j) / 8 = i := by omega
  have hmod : (8 * (n - 1 - i) + j) % 8 = j := by omega
  simp only [getLsbD_byte, getLsbD_ofBytes, hj, hlt, hdiv, hmod, decide_true, Bool.true_and]

/-! ### Merges of a register and a memory word -/

/-- The register's low bytes below the memory word's bytes from the `k`th on. -/
theorem ofBytes_left {n k : Nat} (hk : k < n) (f : Nat → BitVec 8) (x : BitVec (8 * n)) :
    ofBytes n (fun i => if i < n - k then f (k + i) else byte n x i) =
      (ofBytes n f <<< (8 * k)) ||| (x &&& ~~~(BitVec.allOnes (8 * n) <<< (8 * k))) := by
  apply BitVec.eq_of_getLsbD_eq
  intro j hj
  by_cases hjk : j < 8 * k
  · have hi : ¬ n - 1 - j / 8 < n - k := by omega
    have hidx : 8 * (n - 1 - (n - 1 - j / 8)) + j % 8 = j := by omega
    have hmod : j % 8 < 8 := Nat.mod_lt j (by decide)
    simp [-BitVec.getLsbD_eq_getElem, getLsbD_ofBytes, getLsbD_byte, hj, hjk, hi, hidx, hmod]
  · have hi : n - 1 - j / 8 < n - k := by omega
    have hidx : k + (n - 1 - j / 8) = n - 1 - (j - 8 * k) / 8 := by omega
    have hmod : (j - 8 * k) % 8 = j % 8 := by omega
    have hlt : j - 8 * k < 8 * n := by omega
    simp [-BitVec.getLsbD_eq_getElem, getLsbD_ofBytes, hj, hjk, hi, hidx, hmod, hlt]

/-- The register's high bytes above the memory word's bytes up to the `k`th. -/
theorem ofBytes_right {n k : Nat} (f : Nat → BitVec 8) (x : BitVec (8 * n)) :
    ofBytes n (fun i => if n - 1 - k ≤ i then f (i - (n - 1 - k)) else byte n x i) =
      (ofBytes n f >>> (8 * (n - 1 - k))) |||
        (x &&& ~~~(BitVec.allOnes (8 * n) >>> (8 * (n - 1 - k)))) := by
  apply BitVec.eq_of_getLsbD_eq
  intro j hj
  simp only [getLsbD_ofBytes, BitVec.getLsbD_or, BitVec.getLsbD_and, BitVec.getLsbD_not,
    BitVec.getLsbD_ushiftRight, BitVec.getLsbD_allOnes, hj]
  by_cases hjk : 8 * (n - 1 - k) + j < 8 * n
  · have hi : n - 1 - k ≤ n - 1 - j / 8 := by omega
    have hidx : n - 1 - j / 8 - (n - 1 - k) = n - 1 - (8 * (n - 1 - k) + j) / 8 := by omega
    have hmod : (8 * (n - 1 - k) + j) % 8 = j % 8 := by omega
    rw [if_pos hi, hidx, hmod]
    simp [hjk]
  · have hi : ¬ n - 1 - k ≤ n - 1 - j / 8 := by omega
    have hidx : 8 * (n - 1 - (n - 1 - j / 8)) + j % 8 = j := by omega
    have hmod : j % 8 < 8 := Nat.mod_lt j (by decide)
    rw [if_neg hi, getLsbD_byte, hidx]
    simp [hjk, hmod]

/-- The memory word with its bytes from the `k`th on replaced by the register's high bytes. -/
theorem byte_storeLeft {n k i : Nat} (hi : i < n) (m x : BitVec (8 * n)) :
    byte n ((m &&& ~~~(BitVec.allOnes (8 * n) >>> (8 * k))) ||| (x >>> (8 * k))) i =
      if i < k then byte n m i else byte n x (i - k) := by
  apply BitVec.eq_of_getLsbD_eq
  intro j hj
  by_cases hik : i < k
  · have hge : ¬ 8 * k + (8 * (n - 1 - i) + j) < 8 * n := by omega
    have hlt : 8 * (n - 1 - i) + j < 8 * n := by omega
    have hx : x.getLsbD (8 * k + (8 * (n - 1 - i) + j)) = false :=
      BitVec.getLsbD_of_ge x _ (by omega)
    simp [-BitVec.getLsbD_eq_getElem, getLsbD_byte, hj, hik, hge, hlt, hx]
  · have hlt : 8 * k + (8 * (n - 1 - i) + j) < 8 * n := by omega
    have hidx : 8 * k + (8 * (n - 1 - i) + j) = 8 * (n - 1 - (i - k)) + j := by omega
    have hlt' : 8 * (n - 1 - (i - k)) + j < 8 * n := by omega
    simp [-BitVec.getLsbD_eq_getElem, getLsbD_byte, hj, hik, hidx, hlt']

/-- The memory word with its bytes up to the `k`th replaced by the register's low bytes. -/
theorem byte_storeRight {n k i : Nat} (hk : k < n) (hi : i < n) (m x : BitVec (8 * n)) :
    byte n ((m &&& ~~~(BitVec.allOnes (8 * n) <<< (8 * (n - 1 - k)))) |||
        (x <<< (8 * (n - 1 - k)))) i =
      if i ≤ k then byte n x (n - 1 - k + i) else byte n m i := by
  apply BitVec.eq_of_getLsbD_eq
  intro j hj
  have hlt : 8 * (n - 1 - i) + j < 8 * n := by omega
  by_cases hik : i ≤ k
  · have hge : ¬ 8 * (n - 1 - i) + j < 8 * (n - 1 - k) := by omega
    have hidx : 8 * (n - 1 - i) + j - 8 * (n - 1 - k) = 8 * (n - 1 - (n - 1 - k + i)) + j := by
      omega
    have hlt' : 8 * (n - 1 - i) + j - 8 * (n - 1 - k) < 8 * n := by omega
    rw [if_pos hik, getLsbD_byte, getLsbD_byte, ← hidx]
    simp [-BitVec.getLsbD_eq_getElem, hj, hge, hlt, hlt']
  · have hge : 8 * (n - 1 - i) + j < 8 * (n - 1 - k) := by omega
    simp [-BitVec.getLsbD_eq_getElem, getLsbD_byte, hj, hik, hge, hlt]

/-! ### Memories -/

/-- A memory on a bus with `w` address lines. Addresses wrap. -/
abbrev Memory (w : Nat) := BitVec w → BitVec 8

namespace Memory

variable {w : Nat}

/-- The `n`-byte word at an address. -/
def read (mem : Memory w) (p : BitVec w) (n : Nat) : BitVec (8 * n) :=
  ofBytes n fun i => mem (p + BitVec.ofNat w i)

/-- Stores the first `count` bytes of `f` at an address. -/
def writeBytes (mem : Memory w) (p : BitVec w) (count : Nat) (f : Nat → BitVec 8) : Memory w :=
  fun q => if (q - p).toNat < count then f (q - p).toNat else mem q

/-- Stores an `n`-byte word. -/
def write (mem : Memory w) (p : BitVec w) (n : Nat) (x : BitVec (8 * n)) : Memory w :=
  mem.writeBytes p n (byte n x)

/-- An offset from an address, and the address it comes from. -/
theorem eq_add_of_sub_toNat {p q : BitVec w} {i : Nat} (h : (q - p).toNat = i) :
    q = p + BitVec.ofNat w i := by
  have hi : BitVec.ofNat w i = q - p := by rw [← h, BitVec.ofNat_toNat, BitVec.setWidth_eq]
  rw [hi, BitVec.add_comm, BitVec.sub_add_cancel]

theorem add_ofNat_sub_toNat {p : BitVec w} {i : Nat} (hi : i < 2 ^ w) :
    (p + BitVec.ofNat w i - p).toNat = i := by
  rw [BitVec.add_comm, BitVec.add_sub_cancel, BitVec.toNat_ofNat, Nat.mod_eq_of_lt hi]

/-- A word that was stored is read back. -/
theorem read_write {n : Nat} (hn : n ≤ 2 ^ w) (mem : Memory w) (p : BitVec w) (x : BitVec (8 * n)) :
    (mem.write p n x).read p n = x := by
  refine (ofBytes_congr fun i hi => ?_).trans (ofBytes_byte n x)
  unfold write writeBytes
  rw [add_ofNat_sub_toNat (Nat.lt_of_lt_of_le hi hn), if_pos hi]

/-- A word is the concatenation of the words at its two halves. -/
theorem read_append (mem : Memory w) (p : BitVec w) :
    mem.read p 8 =
      (mem.read p 4 ++ mem.read (p + 4#w) 4 : BitVec (8 * 4 + 8 * 4)) := by
  apply BitVec.eq_of_getLsbD_eq
  intro j hj
  rw [BitVec.getLsbD_append]
  simp only [read, getLsbD_ofBytes]
  by_cases hlow : j < 8 * 4
  · have hidx : p + BitVec.ofNat w (8 - 1 - j / 8)
        = p + 4#w + BitVec.ofNat w (4 - 1 - j / 8) := by
      rw [BitVec.add_assoc, ← BitVec.ofNat_add]
      congr 2
      omega
    simp only [hlow, hidx, show j < 8 * 8 by omega, if_true, decide_true]
  · have hidx : 8 - 1 - j / 8 = 4 - 1 - (j - 8 * 4) / 8 := by omega
    have hmod : (j - 8 * 4) % 8 = j % 8 := by omega
    simp only [hlow, hidx, hmod, show j < 8 * 8 by omega, show j - 8 * 4 < 8 * 4 by omega,
      decide_true, if_false]

/-- A word is stored as its two halves, the low half first. -/
theorem write_append (hw : 8 ≤ 2 ^ w) (mem : Memory w) (p : BitVec w) (x : BitVec (8 * 8)) :
    mem.write p 8 x =
      (mem.write (p + 4#w) 4 (x.setWidth (8 * 4))).write p 4 ((x >>> 32).setWidth (8 * 4)) := by
  funext q
  obtain ⟨d, hd⟩ : ∃ d, (q - p).toNat = d := ⟨_, rfl⟩
  have hdw : d < 2 ^ w := hd ▸ (q - p).isLt
  have hshift : (q - (p + 4#w)).toNat = if 4 ≤ d then d - 4 else 2 ^ w + d - 4 := by
    have h4 : (4#w).toNat = 4 := by
      rw [BitVec.toNat_ofNat, Nat.mod_eq_of_lt (by omega)]
    rw [← BitVec.sub_sub, BitVec.toNat_sub, hd, h4]
    split
    · rw [show 2 ^ w - 4 + d = (d - 4) + 2 ^ w by omega, Nat.add_mod_right,
        Nat.mod_eq_of_lt (by omega)]
    · rw [Nat.mod_eq_of_lt (by omega)]
      omega
  simp only [write, writeBytes, hd, hshift]
  by_cases h4 : d < 4
  · rw [if_pos (by omega), if_pos h4]
    apply BitVec.eq_of_getLsbD_eq
    intro j hj
    have hidx : 32 + (8 * (4 - 1 - d) + j) = 8 * (8 - 1 - d) + j := by omega
    have hlt : 8 * (4 - 1 - d) + j < 32 := by omega
    simp [-BitVec.getLsbD_eq_getElem, getLsbD_byte, hj, hidx, hlt]
  · rw [if_neg h4, if_pos (show 4 ≤ d by omega)]
    by_cases h8 : d < 8
    · rw [if_pos h8, if_pos (by omega)]
      apply BitVec.eq_of_getLsbD_eq
      intro j hj
      have hidx : 8 * (4 - 1 - (d - 4)) + j = 8 * (8 - 1 - d) + j := by omega
      have hlt : 8 * (8 - 1 - d) + j < 32 := by omega
      simp [-BitVec.getLsbD_eq_getElem, getLsbD_byte, hj, hidx, hlt]
    · rw [if_neg h8, if_neg (by omega)]

/-! ### Unaligned stores -/

section Unaligned

variable (mem : Memory w) {b p : BitVec w} {n k : Nat} (x : BitVec (8 * n))

theorem sub_toNat_of_base (hk : k < n) (hn : n ≤ 2 ^ w) (hp : p = b + BitVec.ofNat w k)
    (q : BitVec w) :
    (q - p).toNat =
      if k ≤ (q - b).toNat then (q - b).toNat - k else 2 ^ w + (q - b).toNat - k := by
  have hkw : (BitVec.ofNat w k).toNat = k := by
    rw [BitVec.toNat_ofNat, Nat.mod_eq_of_lt (by omega)]
  have hq := (q - b).isLt
  rw [hp, ← BitVec.sub_sub, BitVec.toNat_sub, hkw]
  split
  · rw [show 2 ^ w - k + (q - b).toNat = ((q - b).toNat - k) + 2 ^ w by omega,
      Nat.add_mod_right, Nat.mod_eq_of_lt (by omega)]
  · rw [Nat.mod_eq_of_lt (by omega)]
    omega

/-- Storing the register's high bytes at an address inside a word stores the merged word. -/
theorem write_storeLeft (hk : k < n) (hn : n ≤ 2 ^ w) (hp : p = b + BitVec.ofNat w k) :
    mem.write b n
        ((mem.read b n &&& ~~~(BitVec.allOnes (8 * n) >>> (8 * k))) ||| (x >>> (8 * k))) =
      mem.writeBytes p (n - k) (byte n x) := by
  funext q
  have hoff := sub_toNat_of_base hk hn hp q
  have hqw := (q - b).isLt
  simp only [write, writeBytes]
  by_cases hq : (q - b).toNat < n
  · rw [if_pos hq, byte_storeLeft hq]
    by_cases hqk : (q - b).toNat < k
    · rw [if_pos hqk, read, byte_ofBytes hq, ← eq_add_of_sub_toNat rfl, if_neg]
      rw [hoff, if_neg (by omega)]
      omega
    · rw [if_neg hqk, hoff, if_pos (show k ≤ (q - b).toNat by omega), if_pos (by omega)]
  · rw [if_neg hq, if_neg]
    rw [hoff]
    split <;> omega

/-- Storing the register's low bytes up to an address inside a word stores the merged word. -/
theorem write_storeRight (hk : k < n) :
    mem.write b n
        ((mem.read b n &&& ~~~(BitVec.allOnes (8 * n) <<< (8 * (n - 1 - k)))) |||
          (x <<< (8 * (n - 1 - k)))) =
      mem.writeBytes b (k + 1) (fun i => byte n x (n - 1 - k + i)) := by
  funext q
  simp only [write, writeBytes]
  by_cases hq : (q - b).toNat < n
  · rw [if_pos hq, byte_storeRight hk hq]
    by_cases hqk : (q - b).toNat ≤ k
    · rw [if_pos hqk, if_pos (by omega)]
    · rw [if_neg hqk, if_neg (by omega), read, byte_ofBytes hq, ← eq_add_of_sub_toNat rfl]
  · rw [if_neg hq, if_neg (by omega)]

end Unaligned

/-! ### Words behind a permutation of the addresses -/

section Reversed

variable {φ : BitVec w → BitVec w} {p o : BitVec w} {n : Nat}

/-- The permutation takes the `n` bytes from `p` to the `n` bytes from `o`, last byte first. -/
def Reverses (φ : BitVec w → BitVec w) (p o : BitVec w) (n : Nat) : Prop :=
  ∀ i < n, φ (p + BitVec.ofNat w i) = o + BitVec.ofNat w (n - 1 - i)

/-- A word read least significant byte first behind the permutation. -/
theorem read_reversed (h : Reverses φ p o n) (host : Memory w) :
    ofBytes n (fun i => host (o + BitVec.ofNat w (n - 1 - i))) =
      Memory.read (fun q => host (φ q)) p n :=
  ofBytes_congr fun i hi => congrArg host (h i hi).symm

/-- A word stored least significant byte first behind the permutation. -/
theorem write_reversed (h : Reverses φ p o n) (hinj : Function.Injective φ) (hn : n ≤ 2 ^ w)
    (host : Memory w) (f : Nat → BitVec 8) :
    (fun q => host.writeBytes o n (fun i => f (n - 1 - i)) (φ q)) =
      Memory.writeBytes (fun q => host (φ q)) p n f := by
  funext q
  simp only [writeBytes]
  by_cases hq : (q - p).toNat < n
  · have hφ : φ q = o + BitVec.ofNat w (n - 1 - (q - p).toNat) := by
      rw [← h _ hq, ← eq_add_of_sub_toNat rfl]
    have hoff : (φ q - o).toNat = n - 1 - (q - p).toNat := by
      rw [hφ, add_ofNat_sub_toNat (by omega)]
    have hback : n - 1 - (n - 1 - (q - p).toNat) = (q - p).toNat := by omega
    rw [hoff, if_pos (by omega), if_pos hq, hback]
  · rw [if_neg hq, if_neg]
    intro hlt
    -- the byte of the host word comes from a byte of the guest word, which is `q`
    have hpre : φ q = φ (p + BitVec.ofNat w (n - 1 - (φ q - o).toNat)) := by
      rw [h _ (by omega), show n - 1 - (n - 1 - (φ q - o).toNat) = (φ q - o).toNat by omega,
        ← eq_add_of_sub_toNat rfl]
    apply hq
    rw [hinj hpre, add_ofNat_sub_toNat (by omega)]
    omega

end Reversed

end Memory

end Mips
