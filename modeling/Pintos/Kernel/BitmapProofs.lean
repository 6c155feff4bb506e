import Pintos.Kernel.Bitmap

/-! A bitmap as the set of its true bits.

`test` of the packed elements behaves as an array of bits under `put`, the scan finds
the lowest free bit, and the image of a bitmap reads back as that bitmap. -/
namespace Pintos.Kernel.Bitmap

variable {b b' : Bitmap}

/-! ### Single bits -/

theorem getLsbD_bitMask (k i : Nat) : (bitMask k).getLsbD i = decide (k % 32 = i) := by
  rw [bitMask, elemBits, ← BitVec.twoPow_eq, BitVec.getLsbD_twoPow]
  simp [Nat.mod_lt k]

theorem test_eq (b : Bitmap) (k : Nat) :
    b.test k = (b.bits.getD (k / 32) 0).getLsbD (k % 32) := by
  have hmask : ∀ e : BitVec 32, (e &&& bitMask k) = if e.getLsbD (k % 32) then bitMask k else 0 := by
    intro e
    apply BitVec.eq_of_getLsbD_eq
    intro i hi
    rw [BitVec.getLsbD_and, getLsbD_bitMask]
    by_cases h : k % 32 = i
    · subst h
      cases he : e.getLsbD (k % 32) <;> simp [getLsbD_bitMask]
    · cases he : e.getLsbD (k % 32) <;> simp [h, getLsbD_bitMask]
  have hne : bitMask k ≠ 0#32 := by
    intro h
    have := getLsbD_bitMask k (k % 32)
    simp [h] at this
  unfold test
  rw [hmask]
  show (_ != _) = (b.bits.getD (elemIdx k) 0).getLsbD (k % 32)
  cases (b.bits.getD (elemIdx k) 0).getLsbD (k % 32) <;> simp [hne]

theorem bitmap_ext (hcnt : b.bitCnt = b'.bitCnt) (h : ∀ k, b.test k = b'.test k) : b = b' := by
  obtain ⟨cnt, bits, hlen⟩ := b
  obtain ⟨cnt', bits', hlen'⟩ := b'
  obtain rfl : cnt = cnt' := hcnt
  suffices bits = bits' by subst this; rfl
  apply List.ext_getElem (hlen.trans hlen'.symm)
  intro j hj hj'
  apply BitVec.eq_of_getLsbD_eq
  intro i hi
  have := h (32 * j + i)
  have hd : (32 * j + i) / 32 = j := by omega
  have hm : (32 * j + i) % 32 = i := by omega
  simpa [test_eq, hd, hm, hj, hj'] using this

theorem test_setElem (b : Bitmap) {j : Nat} (hj : j < b.bits.length) (e : BitVec 32) (k : Nat) :
    (b.setElem j e).test k = if k / 32 = j then e.getLsbD (k % 32) else b.test k := by
  rw [test_eq, test_eq]
  show ((b.bits.set j e).getD (k / 32) 0).getLsbD (k % 32) = _
  by_cases h : k / 32 = j
  · simp [List.getD, h, hj]
  · simp [List.getD, h, List.getElem?_set_ne (Ne.symm h)]

/-- The bits that `put` is meant for. -/
theorem elem_lt {k : Nat} (h : k < b.bitCnt) : k / 32 < b.bits.length := by
  rw [b.length_bits]
  unfold elemCnt elemBits
  omega

theorem test_put {idx : Nat} (h : idx < b.bitCnt) (v : Bool) (k : Nat) :
    (b.put idx v).test k = if k = idx then v else b.test k := by
  have hk : k % 32 < 32 := Nat.mod_lt _ (by decide)
  have hself : ∀ e, (b.setElem (elemIdx idx) e).test k =
      if k / 32 = idx / 32 then e.getLsbD (k % 32) else b.test k :=
    fun e => test_setElem b (elem_lt h) e k
  by_cases hw : k / 32 = idx / 32
  · have hkey : idx % 32 = k % 32 ↔ k = idx := by omega
    have hidx : elemIdx idx = k / 32 := hw.symm
    cases v
    · rw [put, if_neg (by decide), reset, hself, if_pos hw, BitVec.getLsbD_and, BitVec.getLsbD_not,
        getLsbD_bitMask, test_eq, hidx]
      by_cases he : k = idx <;> simp [hkey, he, hk]
    · rw [put, if_pos rfl, mark, hself, if_pos hw, BitVec.getLsbD_or, getLsbD_bitMask,
        test_eq, hidx]
      by_cases he : k = idx <;> simp [hkey, he]
  · have hne : k ≠ idx := fun he => hw (congrArg (· / 32) he)
    cases v
    · rw [put, if_neg (by decide), reset, hself, if_neg hw, if_neg hne]
    · rw [put, if_pos rfl, mark, hself, if_neg hw, if_neg hne]

@[simp] theorem bitCnt_put (b : Bitmap) (idx : Nat) (v : Bool) : (b.put idx v).bitCnt = b.bitCnt := by
  cases v <;> rfl

theorem setMultiple_one (b : Bitmap) (idx : Nat) (v : Bool) :
    b.setMultiple idx 1 v = b.put idx v := rfl

theorem setMultiple_succ (b : Bitmap) (start cnt : Nat) (v : Bool) :
    b.setMultiple start (cnt + 1) v = (b.setMultiple start cnt v).put (start + cnt) v := by
  simp only [setMultiple, List.range_succ, List.foldl_append, List.foldl_cons, List.foldl_nil]

@[simp] theorem bitCnt_setMultiple (b : Bitmap) (start cnt : Nat) (v : Bool) :
    (b.setMultiple start cnt v).bitCnt = b.bitCnt := by
  induction cnt with
  | zero => rfl
  | succ cnt ih => rw [setMultiple_succ, bitCnt_put, ih]

theorem test_setMultiple {start cnt : Nat} (h : start + cnt ≤ b.bitCnt) (v : Bool) (k : Nat) :
    (b.setMultiple start cnt v).test k = if start ≤ k ∧ k < start + cnt then v else b.test k := by
  induction cnt with
  | zero => rw [if_neg (by omega)]; rfl
  | succ cnt ih =>
    rw [setMultiple_succ, test_put (by rw [bitCnt_setMultiple]; omega), ih (by omega)]
    grind

theorem test_create (cnt k : Nat) : (create cnt).test k = false := by
  rw [test_eq]
  simp only [create, List.getD, List.getElem?_replicate]
  split <;> simp

/-! ### The scan -/

theorem contains_one (b : Bitmap) (i : Nat) (v : Bool) : b.contains i 1 v = (b.test i == v) := by
  simp [contains]

theorem contains_eq_false {start cnt : Nat} {v : Bool} :
    b.contains start cnt v = false ↔ ∀ j < cnt, b.test (start + j) = !v := by
  simp [contains, Bool.eq_not]

/-- The first start position in a range whose `cnt` bits are all `v`, if there is one. -/
theorem scanFrom_first (b : Bitmap) (cnt : Nat) (v : Bool) (left : Nat) : ∀ i,
    match b.scanFrom cnt v i left with
    | some k => i ≤ k ∧ k < i + left ∧ b.contains k cnt (!v) = false ∧
        ∀ j, i ≤ j → j < k → b.contains j cnt (!v) = true
    | none => ∀ j, i ≤ j → j < i + left → b.contains j cnt (!v) = true := by
  induction left with
  | zero => intro i; exact fun j h1 h2 => by omega
  | succ left ih =>
    intro i
    unfold scanFrom
    cases hi : b.contains i cnt (!v) with
    | false => exact ⟨Nat.le_refl i, by omega, hi, fun j h1 h2 => by omega⟩
    | true =>
      have ih := ih (i + 1)
      simp only [if_true]
      split
      · grind
      · grind

/-- The lowest run of free bits, or none if there is no such run. -/
theorem scanAndFlip_run (b : Bitmap) (cnt : Nat) :
    match b.scanAndFlip 0 cnt false with
    | some (k, b') => k + cnt ≤ b.bitCnt ∧ b.contains k cnt true = false ∧ (∀ j < k, b.contains j cnt true = true) ∧
        b' = b.setMultiple k cnt true
    | none => ∀ k, k + cnt ≤ b.bitCnt → b.contains k cnt true = true := by
  unfold scanAndFlip scan
  by_cases h : cnt ≤ b.bitCnt
  · rw [if_pos h]
    have := scanFrom_first b cnt false (b.bitCnt - cnt + 1 - 0) 0
    cases hs : b.scanFrom cnt false 0 (b.bitCnt - cnt + 1 - 0) with
    | none =>
      grind
    | some k =>
      grind
  · grind

/-- One sector: the lowest free one, or none if all are taken. -/
theorem scanAndFlip_one (b : Bitmap) :
    match b.scanAndFlip 0 1 false with
    | some (k, b') => k < b.bitCnt ∧ b.test k = false ∧ (∀ j < k, b.test j = true) ∧ b' = b.put k true
    | none => ∀ j < b.bitCnt, b.test j = true := by
  have h := scanAndFlip_run b 1
  cases hs : b.scanAndFlip 0 1 false with
  | none =>
    rw [hs] at h
    exact fun j hj => by simpa [contains_one] using h j hj
  | some r =>
    rw [hs] at h
    obtain ⟨hk, hfree, hlow, hset⟩ := h
    exact ⟨hk, by simpa [contains_one] using hfree, fun j hj => by simpa [contains_one] using hlow j hj, hset⟩

theorem all_one (b : Bitmap) (k : Nat) : b.all k 1 = b.test k := by
  rw [all, contains_one]
  cases b.test k <;> rfl

/-! ### The image in a file -/

/-- No bit past the end is set. -/
def Trimmed (b : Bitmap) : Prop := ∀ k, b.bitCnt ≤ k → b.test k = false

theorem trimmed_put (h : b.Trimmed) {idx : Nat} (hi : idx < b.bitCnt) (v : Bool) :
    (b.put idx v).Trimmed := by
  intro k hk
  rw [bitCnt_put] at hk
  rw [test_put hi, if_neg (by omega), h k hk]

theorem word_image (b : Bitmap) (j : Nat) : b.image.word j = (b.bits.getD j 0).toNat := by
  have hbyte : ∀ t, t < 4 → b.image (4 * j + t) = UInt8.ofBitVec ((b.bits.getD j 0).extractLsb' (8 * t) 8) := by
    intro t ht
    have h1 : (4 * j + t) / 4 = j := by omega
    have h2 : (4 * j + t) % 4 = t := by omega
    simp only [image, h1, h2]
  have h0 := hbyte 0 (by omega)
  rw [Nat.add_zero] at h0
  unfold Bytes.word
  rw [h0, hbyte 1 (by omega), hbyte 2 (by omega), hbyte 3 (by omega)]
  have hlt := (b.bits.getD j 0).isLt
  simp only [UInt8.toNat_ofBitVec, BitVec.extractLsb'_toNat, Nat.shiftRight_eq_div_pow]
  omega

theorem test_load (cnt : Nat) (bytes : Bytes) (k : Nat) :
    (load cnt bytes).test k =
      (decide (k / 32 < elemCnt cnt) && (BitVec.ofNat 32 (bytes.word (k / 32))).getLsbD (k % 32)) := by
  rw [test_eq]
  by_cases h : k / 32 < elemCnt cnt <;> simp [load, List.getD, h]

theorem getLsbD_lastMask {k : Nat} (hk : k / 32 = elemCnt b.bitCnt - 1) (h0 : 0 < b.bitCnt) :
    b.lastMask.getLsbD (k % 32) = decide (k < b.bitCnt) := by
  have hm : k % 32 < 32 := Nat.mod_lt _ (by decide)
  unfold lastMask elemBits
  unfold elemCnt elemBits at hk
  by_cases hz : b.bitCnt % 32 = 0
  · have hlt : k < b.bitCnt := by omega
    rw [if_pos hz, BitVec.getLsbD_allOnes, decide_eq_true hlt, decide_eq_true hm]
  · have hr : b.bitCnt % 32 < 32 := Nat.mod_lt _ (by decide)
    rw [if_neg hz]
    have hpow : (2 : Nat) ^ (b.bitCnt % 32) < 2 ^ 32 := Nat.pow_lt_pow_right (by decide) hr
    have hval : ((1#32 <<< (b.bitCnt % 32)) - 1#32) = BitVec.ofNat 32 (2 ^ (b.bitCnt % 32) - 1) := by
      apply BitVec.eq_of_toNat_eq
      have hpos : 1 ≤ (2 : Nat) ^ (b.bitCnt % 32) := Nat.one_le_two_pow
      simp only [BitVec.toNat_sub, BitVec.toNat_shiftLeft, BitVec.toNat_ofNat, Nat.shiftLeft_eq]
      omega
    rw [hval, BitVec.getLsbD_ofNat, Nat.testBit_two_pow_sub_one]
    simp only [hm, decide_true, Bool.true_and]
    congr 1
    apply propext
    omega

/-- What was written is read back. -/
theorem ofImage_image (hb : b.Trimmed) (hcnt : b'.bitCnt = b.bitCnt) {bytes : Bytes}
    (h : ∀ j < b.fileSize, bytes j = b.image j) (h0 : 0 < b.bitCnt) : b'.ofImage bytes = b := by
  have hword : ∀ j, j < elemCnt b.bitCnt → BitVec.ofNat 32 (bytes.word j) = b.bits.getD j 0 := by
    intro j hj
    have : bytes.word j = b.image.word j := by
      unfold Bytes.word
      rw [h _ (by unfold fileSize byteCnt; omega), h _ (by unfold fileSize byteCnt; omega),
        h _ (by unfold fileSize byteCnt; omega), h _ (by unfold fileSize byteCnt; omega)]
    rw [this, word_image, BitVec.ofNat_toNat, BitVec.setWidth_eq]
  have hpos : elemCnt b.bitCnt - 1 < elemCnt b.bitCnt := by unfold elemCnt elemBits; omega
  have hload : ∀ k, (load b.bitCnt bytes).test k = b.test k := by
    intro k
    rw [test_load, test_eq]
    by_cases hk : k / 32 < elemCnt b.bitCnt
    · rw [hword _ hk, decide_eq_true hk, Bool.true_and]
    · have : b.bits[k / 32]? = none := List.getElem?_eq_none (by rw [b.length_bits]; omega)
      simp [hk, this]
  unfold ofImage
  rw [hcnt, if_pos h0]
  refine bitmap_ext (show (load b.bitCnt bytes).bitCnt = _ from rfl) fun k => ?_
  show ((load b.bitCnt bytes).setElem _ _).test k = b.test k
  rw [test_setElem _ (by rw [(load b.bitCnt bytes).length_bits]; exact hpos)]
  split
  · rename_i hk
    have hmask : b'.lastMask.getLsbD (k % 32) = decide (k < b.bitCnt) := by
      rw [getLsbD_lastMask (by rw [hcnt]; exact hk) (by omega), hcnt]
    rw [BitVec.getLsbD_and, hmask, ← hk, ← test_eq, hload]
    by_cases hlt : k < b.bitCnt
    · simp [hlt]
    · simp [hlt, hb k (by omega)]
  · exact hload k

end Pintos.Kernel.Bitmap
