import N64Recomp.Runtime.Memory

/-!
# The unaligned helpers

The helpers of `recomp.h` for `lwl`, `lwr`, `ldl`, `ldr` and their stores shift and mask a whole
word or doubleword. They do what the instructions do byte by byte, with every shift count below
the width of its operand.

## Main results

* `doLwl_eq`, `doLwr_eq`, `doLdl_eq`, `doLdr_eq`: the loads
* `doSwl_eq`, `doSwr_eq`, `doSdl_eq`, `doSdr_eq`: the stores
* `loadDoubleword_eq`, `storeDoubleword_eq`: a doubleword in two words
-/

namespace N64Recomp

open CLang CLang.CType Mips Mips.Memory

/-! ### Alignment -/

section Align

variable (a : BitVec 64) {n : Nat}

theorem and_mask_toNat (hn : n < 64) :
    (a &&& BitVec.ofNat 64 (2 ^ n - 1)).toNat = a.toNat % 2 ^ n := by
  have hpow : 2 ^ n < 2 ^ 64 := Nat.pow_lt_pow_right (by decide) hn
  rw [BitVec.toNat_and, BitVec.toNat_ofNat, Nat.mod_eq_of_lt (by omega),
    Nat.and_two_pow_sub_one_eq_mod]

/-- The aligned-down address is aligned. -/
theorem alignDown_mod (hn : n < 64) :
    (a &&& ~~~BitVec.ofNat 64 (2 ^ n - 1)).toNat % 2 ^ n = 0 := by
  rw [← and_mask_toNat _ hn, BitVec.and_assoc, BitVec.and_comm (~~~_), BitVec.and_not_self]
  simp

/-- An address is its aligned-down address and its misalignment. -/
theorem window_alignDown (hn : n < 64) :
    window a = window (a &&& ~~~BitVec.ofNat 64 (2 ^ n - 1)) +
      BitVec.ofNat 30 (a.toNat % 2 ^ n) := by
  have hsplit :
      a = (a &&& ~~~BitVec.ofNat 64 (2 ^ n - 1)) + (a &&& BitVec.ofNat 64 (2 ^ n - 1)) := by
    rw [BitVec.add_eq_or_of_and_eq_zero]
    · apply BitVec.eq_of_getLsbD_eq
      intro j hj
      simp only [BitVec.getLsbD_or, BitVec.getLsbD_and, BitVec.getLsbD_not, hj, decide_true,
        Bool.true_and]
      cases a.getLsbD j <;> cases (BitVec.ofNat 64 (2 ^ n - 1)).getLsbD j <;> rfl
    · apply BitVec.eq_of_getLsbD_eq
      intro j hj
      simp only [BitVec.getLsbD_and, BitVec.getLsbD_not, hj, decide_true, Bool.true_and,
        BitVec.getLsbD_zero]
      cases a.getLsbD j <;> cases (BitVec.ofNat 64 (2 ^ n - 1)).getLsbD j <;> rfl
  have hlow : window (a &&& BitVec.ofNat 64 (2 ^ n - 1)) = BitVec.ofNat 30 (a.toNat % 2 ^ n) := by
    apply BitVec.eq_of_toNat_eq
    rw [window, BitVec.toNat_setWidth, and_mask_toNat a hn, BitVec.toNat_ofNat]
  rw [← hlow]
  calc window a
      = window ((a &&& ~~~BitVec.ofNat 64 (2 ^ n - 1)) + (a &&& BitVec.ofNat 64 (2 ^ n - 1))) :=
        congrArg window hsplit
    _ = _ := BitVec.setWidth_add _ _ (by decide)

end Align

/-! ### The unaligned accesses on whole words -/

section Merges

variable (mem : Mips.Memory 30) (a x : BitVec 64)

theorem read_add (b : BitVec 30) (k i : Nat) :
    mem (b + BitVec.ofNat 30 k + BitVec.ofNat 30 i) = mem (b + BitVec.ofNat 30 (k + i)) := by
  rw [BitVec.add_assoc, ← BitVec.ofNat_add]

theorem sub_ofNat (b : BitVec 30) {k m : Nat} (h : m ≤ k) :
    b + BitVec.ofNat 30 k - BitVec.ofNat 30 m = b + BitVec.ofNat 30 (k - m) := by
  have hk : BitVec.ofNat 30 k = BitVec.ofNat 30 (k - m) + BitVec.ofNat 30 m := by
    rw [← BitVec.ofNat_add, Nat.sub_add_cancel h]
  rw [hk, ← BitVec.add_assoc, BitVec.add_sub_cancel]

/-- The bytes from an address inside a word, above those of a register. -/
theorem ofBytes_left_window {n : Nat} (hn : n ∈ [2, 3]) (x : BitVec (8 * 2 ^ n)) :
    (ofBytes (2 ^ n) fun i => if i < 2 ^ n - a.toNat % 2 ^ n then mem (window a + BitVec.ofNat 30 i)
      else byte (2 ^ n) x i) =
    (mem.read (window (a &&& ~~~BitVec.ofNat 64 (2 ^ n - 1))) (2 ^ n) <<< (8 * (a.toNat % 2 ^ n))) |||
      (x &&& ~~~(BitVec.allOnes (8 * 2 ^ n) <<< (8 * (a.toNat % 2 ^ n)))) := by
  have hn64 : n < 64 := by
    simp only [List.mem_cons, List.not_mem_nil, or_false] at hn
    omega
  have hk : a.toNat % 2 ^ n < 2 ^ n := Nat.mod_lt _ (Nat.two_pow_pos n)
  rw [window_alignDown a hn64]
  simp only [read_add]
  exact ofBytes_left hk
    (fun i => mem (window (a &&& ~~~BitVec.ofNat 64 (2 ^ n - 1)) + BitVec.ofNat 30 i)) x

/-- The bytes up to an address inside a word, below those of a register. -/
theorem ofBytes_right_window {n : Nat} (hn : n ∈ [2, 3]) (x : BitVec (8 * 2 ^ n)) :
    (ofBytes (2 ^ n) fun i => if 2 ^ n - 1 - a.toNat % 2 ^ n ≤ i
      then mem (window a - BitVec.ofNat 30 (2 ^ n - 1 - i)) else byte (2 ^ n) x i) =
    (mem.read (window (a &&& ~~~BitVec.ofNat 64 (2 ^ n - 1))) (2 ^ n) >>>
        (8 * (2 ^ n - 1 - a.toNat % 2 ^ n))) |||
      (x &&& ~~~(BitVec.allOnes (8 * 2 ^ n) >>> (8 * (2 ^ n - 1 - a.toNat % 2 ^ n)))) := by
  have hn64 : n < 64 := by
    simp only [List.mem_cons, List.not_mem_nil, or_false] at hn
    omega
  have hmerge := ofBytes_right (k := a.toNat % 2 ^ n)
    (fun i => mem (window (a &&& ~~~BitVec.ofNat 64 (2 ^ n - 1)) + BitVec.ofNat 30 i)) x
  refine (ofBytes_congr fun i hi => ?_).trans hmerge
  split
  · rw [window_alignDown a hn64, sub_ofNat _ (by omega : 2 ^ n - 1 - i ≤ a.toNat % 2 ^ n)]
    congr 3
    omega
  · rfl

theorem mod_eight_mod_four : a.toNat % 8 % 4 = a.toNat % 4 := Nat.mod_mod_of_dvd _ (by decide)

theorem eval_lwl : LoadOp.eval mem (window a) (a.toNat % 8) x .lwl =
    ofWord ((mem.read (window (a &&& ~~~3#64)) 4 <<< (8 * (a.toNat % 4))) |||
      (word x &&& ~~~(BitVec.allOnes 32 <<< (8 * (a.toNat % 4))))) := by
  rw [LoadOp.eval, mod_eight_mod_four]
  exact congrArg ofWord (ofBytes_left_window mem a (n := 2) (by decide) (word x))

theorem eval_lwr : LoadOp.eval mem (window a) (a.toNat % 8) x .lwr =
    ofWord ((mem.read (window (a &&& ~~~3#64)) 4 >>> (8 * (4 - 1 - a.toNat % 4))) |||
      (word x &&& ~~~(BitVec.allOnes 32 >>> (8 * (4 - 1 - a.toNat % 4))))) := by
  rw [LoadOp.eval, mod_eight_mod_four]
  exact congrArg ofWord (ofBytes_right_window mem a (n := 2) (by decide) (word x))

theorem eval_ldl : LoadOp.eval mem (window a) (a.toNat % 8) x .ldl =
    (mem.read (window (a &&& ~~~7#64)) 8 <<< (8 * (a.toNat % 8))) |||
      (x &&& ~~~(BitVec.allOnes 64 <<< (8 * (a.toNat % 8)))) :=
  ofBytes_left_window mem a (n := 3) (by decide) x

theorem eval_ldr : LoadOp.eval mem (window a) (a.toNat % 8) x .ldr =
    (mem.read (window (a &&& ~~~7#64)) 8 >>> (8 * (8 - 1 - a.toNat % 8))) |||
      (x &&& ~~~(BitVec.allOnes 64 >>> (8 * (8 - 1 - a.toNat % 8)))) :=
  ofBytes_right_window mem a (n := 3) (by decide) x

theorem eval_swl : StoreOp.eval mem (window a) (a.toNat % 8) x .swl =
    mem.write (window (a &&& ~~~3#64)) 4
      ((mem.read (window (a &&& ~~~3#64)) 4 &&& ~~~(BitVec.allOnes 32 >>> (8 * (a.toNat % 4)))) |||
        (word x >>> (8 * (a.toNat % 4)))) := by
  rw [StoreOp.eval, mod_eight_mod_four]
  exact (write_storeLeft (n := 4) mem (word x) (Nat.mod_lt _ (by decide)) (by decide)
    (window_alignDown a (n := 2) (by decide))).symm

theorem eval_swr : StoreOp.eval mem (window a) (a.toNat % 8) x .swr =
    mem.write (window (a &&& ~~~3#64)) 4
      ((mem.read (window (a &&& ~~~3#64)) 4 &&&
          ~~~(BitVec.allOnes 32 <<< (8 * (4 - 1 - a.toNat % 4)))) |||
        (word x <<< (8 * (4 - 1 - a.toNat % 4)))) := by
  have hbase : window a - BitVec.ofNat 30 (a.toNat % 4) = window (a &&& ~~~3#64) := by
    rw [window_alignDown a (n := 2) (by decide)]
    exact BitVec.add_sub_cancel _ _
  rw [StoreOp.eval, mod_eight_mod_four, hbase]
  exact (write_storeRight (n := 4) mem (word x) (Nat.mod_lt _ (by decide))).symm

theorem eval_sdl : StoreOp.eval mem (window a) (a.toNat % 8) x .sdl =
    mem.write (window (a &&& ~~~7#64)) 8
      ((mem.read (window (a &&& ~~~7#64)) 8 &&& ~~~(BitVec.allOnes 64 >>> (8 * (a.toNat % 8)))) |||
        (x >>> (8 * (a.toNat % 8)))) :=
  (write_storeLeft (n := 8) mem x (Nat.mod_lt _ (by decide)) (by decide)
    (window_alignDown a (n := 3) (by decide))).symm

theorem eval_sdr : StoreOp.eval mem (window a) (a.toNat % 8) x .sdr =
    mem.write (window (a &&& ~~~7#64)) 8
      ((mem.read (window (a &&& ~~~7#64)) 8 &&&
          ~~~(BitVec.allOnes 64 <<< (8 * (8 - 1 - a.toNat % 8)))) |||
        (x <<< (8 * (8 - 1 - a.toNat % 8)))) := by
  have hbase : window a - BitVec.ofNat 30 (a.toNat % 8) = window (a &&& ~~~7#64) := by
    rw [window_alignDown a (n := 3) (by decide)]
    exact BitVec.add_sub_cancel _ _
  rw [StoreOp.eval, hbase]
  exact (write_storeRight (n := 8) mem x (Nat.mod_lt _ (by decide))).symm

end Merges

/-! ### The low words of images -/

@[simp] theorem word_wrap_uint32 (x : BitVec 64) : word (uint32.wrap x) = word x :=
  setWidth_setWidth_64 (by decide) (x.setWidth 32)

@[simp] theorem word_wrap_int32 (x : BitVec 64) : word (int32.wrap x) = word x :=
  setWidth_signExtend_64 (by decide) (x.setWidth 32)

theorem wrap_int32_eq (x : BitVec 64) : int32.wrap x = ofWord (word x) := rfl

theorem word_setWidth_64 (y : BitVec 32) : word (y.setWidth 64) = y :=
  setWidth_setWidth_64 (by decide) y

theorem word_shiftLeft (x : BitVec 64) (n : Nat) : word (x <<< n) = word x <<< n := by
  apply BitVec.eq_of_getLsbD_eq
  intro j hj
  simp only [BitVec.getLsbD_setWidth, BitVec.getLsbD_shiftLeft, hj, show j < 64 by omega,
    show j - n < 32 by omega, decide_true, Bool.true_and]

theorem word_not (x : BitVec 64) : word (~~~x) = ~~~word x := BitVec.setWidth_not (by decide)

theorem word_wrap_ushiftRight (x : BitVec 64) (n : Nat) :
    word (uint32.wrap x >>> n) = word x >>> n := by
  apply BitVec.eq_of_getLsbD_eq
  intro j hj
  simp only [wrap, BitVec.getLsbD_setWidth, BitVec.getLsbD_ushiftRight, hj, decide_true,
    Bool.true_and]
  by_cases h : n + j < 32
  · simp [h, show n + j < 64 by omega]
  · simp [h]

theorem word_ones : word 0xFFFFFFFF#64 = BitVec.allOnes 32 := by decide

/-! ### Unaligned words -/

section UnalignedWord

variable (rdram : Rdram)

theorem memW_zero {b : BitVec 64} (hb : b.toNat % 4 = 0) :
    memW rdram (intLit 0) (gpr b) =
      some (CVal.ofBits int32 ((rdram.guest.read (window b) 4).setWidth 64)) := by
  have hs : (gpr b).add (intLit 0) = some (gpr b) := by
    have h0 : (intLit 0).bits = 0#64 := by decide
    rw [CVal.add_uint64_left, h0, BitVec.add_zero]
  have h := memW_eq rdram hs hb
  rwa [CVal.ofBits_bits, wrap_uint64] at h

theorem setMemW_zero {b : BitVec 64} (hb : b.toNat % 4 = 0) (value : CVal) :
    ∃ rdram' : Rdram, setMemW rdram (intLit 0) (gpr b) value = some rdram' ∧
      rdram'.guest = rdram.guest.write (window b) 4 (word value.bits) := by
  have hs : (gpr b).add (intLit 0) = some (gpr b) := by
    have h0 : (intLit 0).bits = 0#64 := by decide
    rw [CVal.add_uint64_left, h0, BitVec.add_zero]
  have h := setMemW_eq rdram hs hb value
  rwa [CVal.ofBits_bits, wrap_uint64] at h

theorem and_intLit (a : BitVec 64) (n : Nat)
    (hn : int32.wrap (BitVec.ofNat 64 n) = BitVec.ofNat 64 n) :
    (gpr a).and (intLit n) = gpr (a &&& BitVec.ofNat 64 n) := by
  simp [CVal.and, hn]

theorem and_intLit_compl (a : BitVec 64) :
    (gpr a).and (intLit 3).compl = gpr (a &&& ~~~3#64) ∧
      (gpr a).and (intLit 7).compl = gpr (a &&& ~~~7#64) := by
  have h3 : (intLit 3).compl.bits = ~~~3#64 := by decide
  have h7 : (intLit 7).compl.bits = ~~~7#64 := by decide
  simp only [CVal.and, CVal.bitwise_uint64_left, h3, h7, and_self]

theorem shl_uint32 (x y : BitVec 64) (h : y.toNat < 32) :
    (CVal.ofBits uint32 x).shl (CVal.ofBits uint64 y) =
      some (CVal.ofBits uint32 (uint32.wrap x <<< y.toNat)) := by
  rw [CVal.shl_eq rfl h]
  rfl

theorem shr_uint32 (x y : BitVec 64) (h : y.toNat < 32) :
    (CVal.ofBits uint32 x).shr (CVal.ofBits uint64 y) =
      some (CVal.ofBits uint32 (uint32.wrap x >>> y.toNat)) := by
  rw [CVal.shr_eq_of_unsigned rfl rfl h]
  simp

theorem shl_uint64 (x y : BitVec 64) (h : y.toNat < 64) :
    (CVal.ofBits uint64 x).shl (CVal.ofBits uint64 y) =
      some (CVal.ofBits uint64 (x <<< y.toNat)) := by
  rw [CVal.shl_eq rfl h]
  rfl

theorem shr_uint64 (x y : BitVec 64) (h : y.toNat < 64) :
    (CVal.ofBits uint64 x).shr (CVal.ofBits uint64 y) =
      some (CVal.ofBits uint64 (x >>> y.toNat)) := by
  rw [CVal.shr_eq_of_unsigned rfl rfl h]
  simp

/-- The shift count of the helpers: eight times the misalignment. -/
theorem misalignment_mul (a : BitVec 64) {n : Nat} (hn : n ≤ 3) :
    ((a &&& BitVec.ofNat 64 (2 ^ n - 1)) * 8#64).toNat = 8 * (a.toNat % 2 ^ n) := by
  have hpow : 2 ^ n ≤ 2 ^ 3 := Nat.pow_le_pow_right (by decide) hn
  have hlt : a.toNat % 2 ^ n < 2 ^ n := Nat.mod_lt _ (Nat.two_pow_pos n)
  rw [BitVec.toNat_mul, and_mask_toNat a (by omega), BitVec.toNat_ofNat]
  omega

/-- The complementary shift count. -/
theorem sub_misalignment (a : BitVec 64) {n : Nat} (hn : n ≤ 3) :
    (BitVec.ofNat 64 (8 * (2 ^ n - 1)) - (a &&& BitVec.ofNat 64 (2 ^ n - 1)) * 8#64).toNat =
      8 * (2 ^ n - 1 - a.toNat % 2 ^ n) := by
  have hpow : 2 ^ n ≤ 2 ^ 3 := Nat.pow_le_pow_right (by decide) hn
  have hlt : a.toNat % 2 ^ n < 2 ^ n := Nat.mod_lt _ (Nat.two_pow_pos n)
  rw [BitVec.toNat_sub, misalignment_mul a hn, BitVec.toNat_ofNat]
  omega

variable (initialValue val : CVal) {offset reg : CVal} {a : BitVec 64}

theorem doLwl_eq (ha : offset.bits + reg.bits = a) :
    ∃ v, doLwl rdram initialValue offset reg = some v ∧
      v.bits = LoadOp.eval rdram.guest (window a) (a.toNat % 8) initialValue.bits .lwl := by
  have hb : (a &&& ~~~3#64).toNat % 4 = 0 := alignDown_mod a (n := 2) (by decide)
  have hcount : ((a &&& 3#64) * 8#64).toNat = 8 * (a.toNat % 4) :=
    misalignment_mul a (n := 2) (by decide)
  have hk : a.toNat % 4 < 4 := Nat.mod_lt _ (by decide)
  have hint8 : int32.wrap 8#64 = 8#64 := by decide
  have hones : ones32 = CVal.ofBits uint32 0xFFFFFFFF#64 := rfl
  simp only [doLwl, CVal.convert, CVal.add_uint64_left, CVal.ofBits_bits, wrap_uint64, ha,
    (and_intLit_compl a).1, and_intLit a 3 (by decide), Option.bind_eq_bind, Option.bind_some,
    memW_zero rdram hb, CVal.mul_uint64_left, hones, hint8,
    shl_uint32 _ _ (show ((a &&& 3#64) * 8#64).toNat < 32 by omega), hcount]
  refine ⟨_, rfl, ?_⟩
  simp only [CVal.compl, CVal.and, CVal.or, CVal.bitwise_uint64_left, CVal.ofBits_bits,
    wrap_uint64, CVal.ofBits_ty, promote_uint32, wrap_int32_eq, BitVec.setWidth_or,
    BitVec.setWidth_and, word_wrap_uint32, word_not, word_shiftLeft, word_setWidth_64, word_ones,
    word_ofWord]
  rw [eval_lwl, BitVec.or_comm]

theorem doLwr_eq (ha : offset.bits + reg.bits = a) :
    ∃ v, doLwr rdram initialValue offset reg = some v ∧
      v.bits = LoadOp.eval rdram.guest (window a) (a.toNat % 8) initialValue.bits .lwr := by
  have hb : (a &&& ~~~3#64).toNat % 4 = 0 := alignDown_mod a (n := 2) (by decide)
  have hcount : (24#64 - (a &&& 3#64) * 8#64).toNat = 8 * (4 - 1 - a.toNat % 4) :=
    sub_misalignment a (n := 2) (by decide)
  have hk : a.toNat % 4 < 4 := Nat.mod_lt _ (by decide)
  have hint8 : int32.wrap 8#64 = 8#64 := by decide
  have hint24 : int32.wrap 24#64 = 24#64 := by decide
  have hones : ones32 = CVal.ofBits uint32 0xFFFFFFFF#64 := rfl
  simp only [doLwr, CVal.convert, CVal.add_uint64_left, CVal.ofBits_bits, wrap_uint64, ha,
    (and_intLit_compl a).1, and_intLit a 3 (by decide), Option.bind_eq_bind, Option.bind_some,
    memW_zero rdram hb, CVal.mul_uint64_left, CVal.sub_uint64_right, hones, hint8, hint24,
    shr_uint32 _ _ (show (24#64 - (a &&& 3#64) * 8#64).toNat < 32 by omega), hcount]
  refine ⟨_, rfl, ?_⟩
  simp only [CVal.compl, CVal.and, CVal.or, CVal.bitwise_uint64_left, CVal.ofBits_bits,
    wrap_uint64, CVal.ofBits_ty, promote_uint32, wrap_int32_eq, BitVec.setWidth_or,
    BitVec.setWidth_and, word_wrap_uint32, word_not, word_wrap_ushiftRight, word_setWidth_64,
    word_ones, word_ofWord]
  rw [eval_lwr, BitVec.or_comm]

theorem doSwl_eq (ha : offset.bits + reg.bits = a) :
    ∃ rdram' : Rdram, doSwl rdram offset reg val = some rdram' ∧
      rdram'.guest = StoreOp.eval rdram.guest (window a) (a.toNat % 8) val.bits .swl := by
  have hb : (a &&& ~~~3#64).toNat % 4 = 0 := alignDown_mod a (n := 2) (by decide)
  have hcount : ((a &&& 3#64) * 8#64).toNat = 8 * (a.toNat % 4) :=
    misalignment_mul a (n := 2) (by decide)
  have hk : a.toNat % 4 < 4 := Nat.mod_lt _ (by decide)
  have hint8 : int32.wrap 8#64 = 8#64 := by decide
  have hones : ones32 = CVal.ofBits uint32 0xFFFFFFFF#64 := rfl
  simp only [doSwl, CVal.convert, CVal.add_uint64_left, CVal.ofBits_bits, wrap_uint64, ha,
    (and_intLit_compl a).1, and_intLit a 3 (by decide), Option.bind_eq_bind, Option.bind_some,
    memW_zero rdram hb, CVal.mul_uint64_left, hones, hint8,
    shr_uint32 _ _ (show ((a &&& 3#64) * 8#64).toNat < 32 by omega), hcount]
  obtain ⟨rdram', hstore, hguest⟩ := setMemW_zero rdram hb _
  refine ⟨rdram', hstore, ?_⟩
  rw [hguest, eval_swl]
  simp only [CVal.compl, CVal.and, CVal.or, CVal.bitwise_same _ _ common_uint32_uint32,
    CVal.ofBits_bits, CVal.ofBits_ty, promote_uint32, BitVec.setWidth_or, BitVec.setWidth_and,
    word_wrap_uint32, word_wrap_int32, word_not, word_wrap_ushiftRight, word_setWidth_64,
    word_ones]

theorem doSwr_eq (ha : offset.bits + reg.bits = a) :
    ∃ rdram' : Rdram, doSwr rdram offset reg val = some rdram' ∧
      rdram'.guest = StoreOp.eval rdram.guest (window a) (a.toNat % 8) val.bits .swr := by
  have hb : (a &&& ~~~3#64).toNat % 4 = 0 := alignDown_mod a (n := 2) (by decide)
  have hcount : (24#64 - (a &&& 3#64) * 8#64).toNat = 8 * (4 - 1 - a.toNat % 4) :=
    sub_misalignment a (n := 2) (by decide)
  have hk : a.toNat % 4 < 4 := Nat.mod_lt _ (by decide)
  have hint8 : int32.wrap 8#64 = 8#64 := by decide
  have hint24 : int32.wrap 24#64 = 24#64 := by decide
  have hones : ones32 = CVal.ofBits uint32 0xFFFFFFFF#64 := rfl
  simp only [doSwr, CVal.convert, CVal.add_uint64_left, CVal.ofBits_bits, wrap_uint64, ha,
    (and_intLit_compl a).1, and_intLit a 3 (by decide), Option.bind_eq_bind, Option.bind_some,
    memW_zero rdram hb, CVal.mul_uint64_left, CVal.sub_uint64_right, hones, hint8, hint24,
    shl_uint32 _ _ (show (24#64 - (a &&& 3#64) * 8#64).toNat < 32 by omega), hcount]
  obtain ⟨rdram', hstore, hguest⟩ := setMemW_zero rdram hb _
  refine ⟨rdram', hstore, ?_⟩
  rw [hguest, eval_swr]
  simp only [CVal.compl, CVal.and, CVal.or, CVal.bitwise_same _ _ common_uint32_uint32,
    CVal.ofBits_bits, CVal.ofBits_ty, promote_uint32, BitVec.setWidth_or, BitVec.setWidth_and,
    word_wrap_uint32, word_wrap_int32, word_not, word_shiftLeft, word_setWidth_64,
    word_ones]

end UnalignedWord

section UnalignedDoubleword

variable (rdram : Rdram) {a : BitVec 64}

theorem window_add (a b : BitVec 64) : window (a + b) = window a + window b :=
  BitVec.setWidth_add _ _ (by decide)

theorem add_four_mod (ha : a.toNat % 8 = 0) : (a + 4#64).toNat % 4 = 0 := by
  rw [BitVec.toNat_add, BitVec.toNat_ofNat]
  omega

theorem shl_uint64_intLit (x : BitVec 64) {n : Nat} (hn : n < 64) :
    (gpr x).shl (intLit n) = some (gpr (x <<< n)) := by
  have hwrap : int32.wrap (BitVec.ofNat 64 n) = BitVec.ofNat 64 n := by
    revert n
    decide
  have hnat : (intLit n).bits.toNat = n := by
    rw [CVal.ofBits_bits, hwrap, BitVec.toNat_ofNat, Nat.mod_eq_of_lt (by omega)]
  rw [CVal.shl_eq (a := gpr x) (b := intLit n) (wrap_wrap int32 _) (by rw [hnat]; exact hn), hnat]
  rfl

theorem shr_uint64_intLit (x : BitVec 64) {n : Nat} (hn : n < 64) :
    (gpr x).shr (intLit n) = some (gpr (x >>> n)) := by
  have hwrap : int32.wrap (BitVec.ofNat 64 n) = BitVec.ofNat 64 n := by
    revert n
    decide
  have hnat : (intLit n).bits.toNat = n := by
    rw [CVal.ofBits_bits, hwrap, BitVec.toNat_ofNat, Nat.mod_eq_of_lt (by omega)]
  rw [CVal.shr_eq_of_unsigned (a := gpr x) (b := intLit n) rfl (wrap_wrap int32 _)
    (by rw [hnat]; exact hn), hnat]
  simp

/-- Two words side by side in a doubleword. -/
theorem or_shiftLeft_eq_append (hi lo : BitVec 32) :
    lo.setWidth 64 ||| (hi.setWidth 64 <<< 32) = (hi ++ lo : BitVec (32 + 32)) := by
  apply BitVec.eq_of_getLsbD_eq
  intro j hj
  simp only [BitVec.getLsbD_or, BitVec.getLsbD_setWidth, BitVec.getLsbD_shiftLeft,
    BitVec.getLsbD_append, hj, decide_true, Bool.true_and]
  by_cases h : j < 32
  · simp [h]
  · have hlo : lo.getLsbD j = false := BitVec.getLsbD_of_ge lo _ (by omega)
    simp [h, show j - 32 < 64 by omega, hlo]

theorem wrap_uint32_int32 (y : BitVec 32) :
    uint32.wrap (int32.wrap (y.setWidth 64)) = y.setWidth 64 := by
  rw [wrap_int32_eq, word_setWidth_64]
  exact congrArg (BitVec.setWidth 64) (word_ofWord y)

theorem loadDoubleword_eq {reg offset : CVal} (ha : reg.bits + offset.bits = a)
    (h8 : a.toNat % 8 = 0) :
    loadDoubleword rdram reg offset = some (gpr (rdram.guest.read (window a) 8)) := by
  have h4 : int32.wrap 4#64 = 4#64 := by decide
  have h0 : int32.wrap 0#64 = 0#64 := by decide
  have hlo : offset.bits + 4#64 + reg.bits = a + 4#64 := by
    rw [← ha, BitVec.add_comm (offset.bits + 4#64), BitVec.add_assoc]
  have hhi : offset.bits + 0#64 + reg.bits = a := by
    rw [BitVec.add_zero, BitVec.add_comm, ha]
  have hwin : window (a + 4#64) = window a + 4#30 := window_add a 4#64
  have hloadLo : memW rdram (gpr reg.bits) (gpr (offset.bits + 4#64)) = some _ :=
    memW_eq rdram (CVal.add_uint64_left _ _) (by
      rw [CVal.ofBits_bits, CVal.ofBits_bits, wrap_uint64, wrap_uint64, hlo]
      exact add_four_mod h8)
  have hloadHi : memW rdram (gpr reg.bits) (gpr (offset.bits + 0#64)) = some _ :=
    memW_eq rdram (CVal.add_uint64_left _ _) (by
      rw [CVal.ofBits_bits, CVal.ofBits_bits, wrap_uint64, wrap_uint64, hhi]
      omega)
  simp only [loadDoubleword, CVal.convert, CVal.add_uint64_left, CVal.ofBits_bits, wrap_uint64,
    h4, h0, Option.bind_eq_bind, Option.bind_some, hloadLo, hloadHi,
    shl_uint64_intLit _ (show 0 < 64 by decide), shl_uint64_intLit _ (show 32 < 64 by decide),
    CVal.or, CVal.bitwise_uint64_left, hlo, hhi, hwin, read_append, BitVec.shiftLeft_zero,
    wrap_uint32_int32, or_shiftLeft_eq_append]
  rfl

/-- The doubleword at an aligned base. -/
theorem loadDoubleword_zero {b : BitVec 64} (hb : b.toNat % 8 = 0) :
    loadDoubleword rdram (intLit 0) (gpr b) = some (gpr (rdram.guest.read (window b) 8)) := by
  have hsum : (intLit 0).bits + (gpr b).bits = b := by
    have h0 : (intLit 0).bits = 0#64 := by decide
    rw [h0, BitVec.zero_add, CVal.ofBits_bits, wrap_uint64]
  exact loadDoubleword_eq rdram hsum hb

/-- The two word stores of a doubleword write it whole. -/
theorem storeDoubleword_eq (ret : BitVec 64) (h8 : a.toNat % 8 = 0) :
    ∃ rdram' : Rdram, storeDoubleword rdram (gpr a) (gpr ret) = some rdram' ∧
      rdram'.guest = rdram.guest.write (window a) 8 ret := by
  have h4 : int32.wrap 4#64 = 4#64 := by decide
  have h0 : int32.wrap 0#64 = 0#64 := by decide
  have hwin : window (a + 4#64) = window a + 4#30 := window_add a 4#64
  obtain ⟨rdram₁, hstore₁, hguest₁⟩ :=
    setMemW_zero rdram (add_four_mod h8) (CVal.ofBits uint32 ret)
  obtain ⟨rdram₂, hstore₂, hguest₂⟩ :=
    setMemW_zero rdram₁ (b := a) (by omega) (CVal.ofBits uint32 (ret >>> 32))
  refine ⟨rdram₂, ?_, ?_⟩
  · simp only [storeDoubleword, CVal.convert, shr_uint64_intLit _ (show 32 < 64 by decide),
      CVal.add_uint64_left, CVal.ofBits_bits, wrap_uint64, h4, h0, Option.bind_eq_bind,
      Option.bind_some, hstore₁, BitVec.add_zero, hstore₂]
  · rw [hguest₂, hguest₁, hwin, CVal.ofBits_bits, CVal.ofBits_bits, word_wrap_uint32,
      word_wrap_uint32, write_append (by decide)]

theorem doLdl_eq (initialValue : CVal) {offset reg : CVal} (ha : offset.bits + reg.bits = a) :
    ∃ v, doLdl rdram initialValue offset reg = some v ∧
      v.bits = LoadOp.eval rdram.guest (window a) (a.toNat % 8) initialValue.bits .ldl := by
  have hb : (a &&& ~~~7#64).toNat % 8 = 0 := alignDown_mod a (n := 3) (by decide)
  have hcount : ((a &&& 7#64) * 8#64).toNat = 8 * (a.toNat % 8) :=
    misalignment_mul a (n := 3) (by decide)
  have hk : a.toNat % 8 < 8 := Nat.mod_lt _ (by decide)
  have hint8 : int32.wrap 8#64 = 8#64 := by decide
  have hones : ones64 = CVal.ofBits uint64 (BitVec.allOnes 64) := rfl
  have hload := loadDoubleword_zero rdram hb
  simp only [doLdl, CVal.convert, CVal.add_uint64_left, CVal.ofBits_bits, wrap_uint64, ha,
    (and_intLit_compl a).2, and_intLit a 7 (by decide), Option.bind_eq_bind, Option.bind_some,
    hload, CVal.mul_uint64_left, hones, hint8,
    shl_uint64 _ _ (show ((a &&& 7#64) * 8#64).toNat < 64 by omega), hcount]
  refine ⟨_, rfl, ?_⟩
  simp only [CVal.compl, CVal.and, CVal.or, CVal.bitwise_uint64_left, CVal.ofBits_bits,
    wrap_uint64, CVal.ofBits_ty, promote_uint64]
  rw [eval_ldl, BitVec.or_comm]

theorem doLdr_eq (initialValue : CVal) {offset reg : CVal} (ha : offset.bits + reg.bits = a) :
    ∃ v, doLdr rdram initialValue offset reg = some v ∧
      v.bits = LoadOp.eval rdram.guest (window a) (a.toNat % 8) initialValue.bits .ldr := by
  have hb : (a &&& ~~~7#64).toNat % 8 = 0 := alignDown_mod a (n := 3) (by decide)
  have hcount : (56#64 - (a &&& 7#64) * 8#64).toNat = 8 * (8 - 1 - a.toNat % 8) :=
    sub_misalignment a (n := 3) (by decide)
  have hk : a.toNat % 8 < 8 := Nat.mod_lt _ (by decide)
  have hint8 : int32.wrap 8#64 = 8#64 := by decide
  have hint56 : int32.wrap 56#64 = 56#64 := by decide
  have hones : ones64 = CVal.ofBits uint64 (BitVec.allOnes 64) := rfl
  have hload := loadDoubleword_zero rdram hb
  simp only [doLdr, CVal.convert, CVal.add_uint64_left, CVal.ofBits_bits, wrap_uint64, ha,
    (and_intLit_compl a).2, and_intLit a 7 (by decide), Option.bind_eq_bind, Option.bind_some,
    hload, CVal.mul_uint64_left, CVal.sub_uint64_right, hones, hint8, hint56,
    shr_uint64 _ _ (show (56#64 - (a &&& 7#64) * 8#64).toNat < 64 by omega), hcount]
  refine ⟨_, rfl, ?_⟩
  simp only [CVal.compl, CVal.and, CVal.or, CVal.bitwise_uint64_left, CVal.ofBits_bits,
    wrap_uint64, CVal.ofBits_ty, promote_uint64]
  rw [eval_ldr, BitVec.or_comm]

theorem doSdl_eq (val : CVal) {offset reg : CVal} (ha : offset.bits + reg.bits = a) :
    ∃ rdram' : Rdram, doSdl rdram offset reg val = some rdram' ∧
      rdram'.guest = StoreOp.eval rdram.guest (window a) (a.toNat % 8) val.bits .sdl := by
  have hb : (a &&& ~~~7#64).toNat % 8 = 0 := alignDown_mod a (n := 3) (by decide)
  have hcount : ((a &&& 7#64) * 8#64).toNat = 8 * (a.toNat % 8) :=
    misalignment_mul a (n := 3) (by decide)
  have hk : a.toNat % 8 < 8 := Nat.mod_lt _ (by decide)
  have hint8 : int32.wrap 8#64 = 8#64 := by decide
  have hones : ones64 = CVal.ofBits uint64 (BitVec.allOnes 64) := rfl
  have hload := loadDoubleword_zero rdram hb
  simp -implicitDefEqProofs only [doSdl, CVal.convert, CVal.add_uint64_left, CVal.ofBits_bits, wrap_uint64, ha,
    (and_intLit_compl a).2, and_intLit a 7 (by decide), Option.bind_eq_bind, Option.bind_some,
    hload, CVal.mul_uint64_left, hones, hint8,
    shr_uint64 _ _ (show ((a &&& 7#64) * 8#64).toNat < 64 by omega), hcount]
  simp only [CVal.compl_uint64, CVal.and_uint64, CVal.or_uint64]
  obtain ⟨rdram', hstore, hguest⟩ := storeDoubleword_eq rdram _ hb
  refine ⟨rdram', hstore, ?_⟩
  rw [hguest, eval_sdl]

theorem doSdr_eq (val : CVal) {offset reg : CVal} (ha : offset.bits + reg.bits = a) :
    ∃ rdram' : Rdram, doSdr rdram offset reg val = some rdram' ∧
      rdram'.guest = StoreOp.eval rdram.guest (window a) (a.toNat % 8) val.bits .sdr := by
  have hb : (a &&& ~~~7#64).toNat % 8 = 0 := alignDown_mod a (n := 3) (by decide)
  have hcount : (56#64 - (a &&& 7#64) * 8#64).toNat = 8 * (8 - 1 - a.toNat % 8) :=
    sub_misalignment a (n := 3) (by decide)
  have hk : a.toNat % 8 < 8 := Nat.mod_lt _ (by decide)
  have hint8 : int32.wrap 8#64 = 8#64 := by decide
  have hint56 : int32.wrap 56#64 = 56#64 := by decide
  have hones : ones64 = CVal.ofBits uint64 (BitVec.allOnes 64) := rfl
  have hload := loadDoubleword_zero rdram hb
  simp -implicitDefEqProofs only [doSdr, CVal.convert, CVal.add_uint64_left, CVal.ofBits_bits, wrap_uint64, ha,
    (and_intLit_compl a).2, and_intLit a 7 (by decide), Option.bind_eq_bind, Option.bind_some,
    hload, CVal.mul_uint64_left, CVal.sub_uint64_right, hones, hint8, hint56,
    shl_uint64 _ _ (show (56#64 - (a &&& 7#64) * 8#64).toNat < 64 by omega), hcount]
  simp only [CVal.compl_uint64, CVal.and_uint64, CVal.or_uint64]
  obtain ⟨rdram', hstore, hguest⟩ := storeDoubleword_eq rdram _ hb
  refine ⟨rdram', hstore, ?_⟩
  rw [hguest, eval_sdr]

end UnalignedDoubleword

end N64Recomp
