import Pintos.Kernel.BitmapProofs
import Pintos.Library.Steps

/-! The bitmap functions as they are called, with their assertions (`lib/kernel/bitmap.c`).

Each function of the source checks its arguments and then loops over bits; `none` is a failed assertion. The sum in the
assertions is a `size_t`. On arguments within the bitmap they are the functions of `Bitmap`, and those are
what one expects of an array of bits, although the bits are packed in words. -/
namespace Pintos.Kernel

open Bitmap

/-- `BITMAP_ERROR`. -/
def bitmapError : Nat := 2 ^ 32 - 1

section
variable (b : Bitmap)

def bitmapTest (idx : Nat) : Option Bool := if idx < b.bitCnt then some (b.test idx) else none

def bitmapSet (idx : Nat) (value : Bool) : Option Bitmap := if idx < b.bitCnt then some (b.put idx value) else none

/-- The assertions on a range. -/
def rangeOk (start cnt : Nat) : Bool := start ≤ b.bitCnt && (start + cnt) % 2 ^ 32 ≤ b.bitCnt

def bitmapSetMultiple (start cnt : Nat) (value : Bool) : Option Bitmap :=
  if rangeOk b start cnt then (List.range cnt).foldlM (fun b i => bitmapSet b (start + i) value) b else none

/-- One round of the loop of `bitmap_count`. -/
def countBit (start : Nat) (value : Bool) (valueCnt i : Nat) : Option Nat := do
  return if (← bitmapTest b (start + i)) == value then valueCnt + 1 else valueCnt

def bitmapCount (start cnt : Nat) (value : Bool) : Option Nat :=
  if rangeOk b start cnt then (List.range cnt).foldlM (countBit b start value) 0 else none

/-- The loop of `bitmap_contains`, with the number of bits left. -/
def containsLoop (value : Bool) : Nat → Nat → Option Bool
  | _, 0 => some false
  | i, left + 1 => do if (← bitmapTest b i) == value then return true else containsLoop value (i + 1) left

def bitmapContains (start cnt : Nat) (value : Bool) : Option Bool :=
  if rangeOk b start cnt then containsLoop b value start cnt else none

def bitmapAny (start cnt : Nat) : Option Bool := bitmapContains b start cnt true
def bitmapNone (start cnt : Nat) : Option Bool := (bitmapContains b start cnt true).map (!·)
def bitmapAll (start cnt : Nat) : Option Bool := (bitmapContains b start cnt false).map (!·)

/-- The loop of `bitmap_scan`, with the number of positions left. -/
def scanLoop (cnt : Nat) (value : Bool) : Nat → Nat → Option Nat
  | _, 0 => some bitmapError
  | i, left + 1 => do
    if ← bitmapContains b i cnt (!value) then scanLoop cnt value (i + 1) left else return i

def bitmapScan (start cnt : Nat) (value : Bool) : Option Nat :=
  if start ≤ b.bitCnt then
    if cnt ≤ b.bitCnt then scanLoop b cnt value start (b.bitCnt - cnt + 1 - start) else some bitmapError
  else none

def bitmapScanAndFlip (start cnt : Nat) (value : Bool) : Option (Nat × Bitmap) := do
  let idx ← bitmapScan b start cnt value
  if idx ≠ bitmapError then return (idx, ← bitmapSetMultiple b idx cnt (!value)) else return (idx, b)

end

/-! ### Calls within the bitmap -/

section
variable {b : Bitmap} {start cnt : Nat}

theorem rangeOk_of_le (hsize : b.bitCnt < 2 ^ 32) (h : start + cnt ≤ b.bitCnt) : rangeOk b start cnt = true := by
  rw [rangeOk, Bool.and_eq_true, decide_eq_true_eq, decide_eq_true_eq]
  omega

theorem bitmapTest_eq {idx : Nat} (h : idx < b.bitCnt) : bitmapTest b idx = some (b.test idx) := if_pos h

theorem setLoop_eq (value : Bool) (n : Nat) (h : start + n ≤ b.bitCnt) :
    (List.range n).foldlM (fun b i => bitmapSet b (start + i) value) b = some (b.setMultiple start n value) := by
  induction n with
  | zero => rfl
  | succ n ih =>
    have hset : bitmapSet (b.setMultiple start n value) (start + n) value =
        some ((b.setMultiple start n value).put (start + n) value) :=
      if_pos (by rw [bitCnt_setMultiple]; omega)
    rw [List.range_succ, List.foldlM_append, ih (by omega), setMultiple_succ]
    simp only [Option.bind_eq_bind, Option.bind_some, List.foldlM_cons, List.foldlM_nil, hset, Option.pure_def]

theorem bitmapSetMultiple_eq (hsize : b.bitCnt < 2 ^ 32) (h : start + cnt ≤ b.bitCnt) (value : Bool) :
    bitmapSetMultiple b start cnt value = some (b.setMultiple start cnt value) := by
  rw [bitmapSetMultiple, if_pos (rangeOk_of_le hsize h), setLoop_eq value cnt h]

theorem countLoop_eq (value : Bool) (n : Nat) (h : start + n ≤ b.bitCnt) :
    (List.range n).foldlM (countBit b start value) 0 = some ((List.range' start n).countP fun k => b.test k == value) := by
  induction n with
  | zero => rfl
  | succ n ih =>
    rw [List.range_succ, List.foldlM_append, ih (by omega), List.range'_concat, List.countP_append]
    simp only [Option.bind_eq_bind, Option.bind_some, List.foldlM_cons, List.foldlM_nil, countBit,
      bitmapTest_eq (show start + n < b.bitCnt by omega), Option.pure_def, Nat.one_mul, List.countP_cons, List.countP_nil]
    split <;> rfl

theorem containsLoop_eq (value : Bool) (left : Nat) {i : Nat} (h : i + left ≤ b.bitCnt) :
    containsLoop b value i left = some (b.contains i left value) := by
  induction left generalizing i with
  | zero => rfl
  | succ left ih =>
    have hcons : b.contains i (left + 1) value = (b.test i == value || b.contains (i + 1) left value) := by
      rw [contains, contains, List.range_succ_eq_map, List.any_cons, List.any_map]
      grind
    rw [containsLoop, bitmapTest_eq (by omega), hcons]
    grind

theorem bitmapContains_eq (hsize : b.bitCnt < 2 ^ 32) (h : start + cnt ≤ b.bitCnt) (value : Bool) :
    bitmapContains b start cnt value = some (b.contains start cnt value) := by
  rw [bitmapContains, if_pos (rangeOk_of_le hsize h), containsLoop_eq value cnt h]

theorem scanLoop_eq (hsize : b.bitCnt < 2 ^ 32) (value : Bool) (left : Nat) {i : Nat} (h : left = 0 ∨ i + left + cnt ≤ b.bitCnt + 1) :
    scanLoop b cnt value i left = some ((b.scanFrom cnt value i left).getD bitmapError) := by
  induction left generalizing i with
  | zero => rfl
  | succ left ih =>
    rw [scanLoop, bitmapContains_eq hsize (by omega), scanFrom]
    grind

theorem bitmapScan_eq (hsize : b.bitCnt < 2 ^ 32) (h : start ≤ b.bitCnt) (cnt : Nat) (value : Bool) :
    bitmapScan b start cnt value = some ((b.scan start cnt value).getD bitmapError) := by
  rw [bitmapScan, if_pos h, scan]
  split
  · exact scanLoop_eq hsize value _ (by omega)
  · rfl

/-- The bits from `i` on are `cnt` bits with the same value. -/
def Run (b : Bitmap) (i cnt : Nat) (value : Bool) : Prop :=
  i + cnt ≤ b.bitCnt ∧ ∀ k, i ≤ k → k < i + cnt → b.test k = value

theorem run_iff {i : Nat} {value : Bool} (h : i + cnt ≤ b.bitCnt) :
    Run b i cnt value ↔ b.contains i cnt (!value) = false := by
  rw [contains_eq_false, Bool.not_not]
  constructor
  · exact fun hr j hj => hr.2 (i + j) (by omega) (by omega)
  · intro hr
    refine ⟨h, fun k hk hk' => ?_⟩
    have := hr (k - i) (by omega)
    rwa [Nat.add_sub_cancel' hk] at this

/-- The scan finds the first run, if there is one. -/
theorem scan_first (b : Bitmap) (start cnt : Nat) (value : Bool) :
    (∃ i, b.scan start cnt value = some i ∧ start ≤ i ∧ Run b i cnt value ∧
      ∀ j, start ≤ j → Run b j cnt value → i ≤ j) ∨
    b.scan start cnt value = none ∧ ∀ j, start ≤ j → ¬ Run b j cnt value := by
  unfold scan
  by_cases hcnt : cnt ≤ b.bitCnt
  · rw [if_pos hcnt]
    have h := scanFrom_first b cnt value (b.bitCnt - cnt + 1 - start) start
    cases hs : b.scanFrom cnt value start (b.bitCnt - cnt + 1 - start) with
    | none =>
      rw [hs] at h
      refine .inr ⟨rfl, fun j hj hr => ?_⟩
      have hin := hr.1
      rw [run_iff hin, h j hj (by omega)] at hr
      cases hr
    | some i =>
      rw [hs] at h
      obtain ⟨h1, h2, h3, h4⟩ := h
      refine .inl ⟨i, rfl, h1, (run_iff (by omega)).mpr h3, fun j hj hr => ?_⟩
      by_contra hlt
      have hin := hr.1
      rw [run_iff hin, h4 j hj (by omega)] at hr
      cases hr
  · rw [if_neg hcnt]
    exact .inr ⟨rfl, fun j _ hr => hcnt (by have := hr.1; omega)⟩

theorem contains_iff {value : Bool} :
    b.contains start cnt value = true ↔ ∃ k, start ≤ k ∧ k < start + cnt ∧ b.test k = value := by
  rw [contains, List.any_eq_true]
  constructor
  · grind
  · intro h
    obtain ⟨k, hk, hk', ht⟩ := h
    exact ⟨k - start, List.mem_range.mpr (by omega), by rw [Nat.add_sub_cancel' hk]; exact beq_iff_eq.mpr ht⟩

theorem none_iff {value : Bool} :
    (!b.contains start cnt value) = true ↔ ∀ k, start ≤ k → k < start + cnt → b.test k = !value := by
  rw [Bool.not_eq_true', contains_eq_false]
  constructor
  · intro h k hk hk'
    have := h (k - start) (by omega)
    rwa [Nat.add_sub_cancel' hk] at this
  · exact fun h j hj => h (start + j) (by omega) (by omega)

/-- The bitmap functions on arguments within the bitmap, as functions of the sequence of its bits. No assertion fails. -/
theorem bitmap_functions (hsize : b.bitCnt < 2 ^ 32) (start cnt : Nat) (value : Bool) (hstart : start ≤ b.bitCnt) :
    (∃ i, bitmapScan b start cnt value = some i ∧
      (start ≤ i ∧ Run b i cnt value ∧ (∀ j, start ≤ j → Run b j cnt value → i ≤ j) ∨
        i = bitmapError ∧ ∀ j, start ≤ j → ¬ Run b j cnt value)) ∧
    (∃ i b', bitmapScanAndFlip b start cnt value = some (i, b') ∧ bitmapScan b start cnt value = some i ∧
      b'.bitCnt = b.bitCnt ∧
      ((∃ j, start ≤ j ∧ Run b j cnt value) →
        ∀ k, b'.test k = if i ≤ k ∧ k < i + cnt then !value else b.test k) ∧
      ((∀ j, start ≤ j → ¬ Run b j cnt value) → b' = b)) ∧
    (start + cnt ≤ b.bitCnt →
      (∃ b', bitmapSetMultiple b start cnt value = some b' ∧ b'.bitCnt = b.bitCnt ∧
        ∀ k, b'.test k = if start ≤ k ∧ k < start + cnt then value else b.test k) ∧
      bitmapCount b start cnt value = some ((List.range' start cnt).countP fun k => b.test k == value) ∧
      (∃ r, bitmapContains b start cnt value = some r ∧
        (r = true ↔ ∃ k, start ≤ k ∧ k < start + cnt ∧ b.test k = value)) ∧
      (∃ r, bitmapAny b start cnt = some r ∧ (r = true ↔ ∃ k, start ≤ k ∧ k < start + cnt ∧ b.test k = true)) ∧
      (∃ r, bitmapNone b start cnt = some r ∧ (r = true ↔ ∀ k, start ≤ k → k < start + cnt → b.test k = false)) ∧
      ∃ r, bitmapAll b start cnt = some r ∧ (r = true ↔ ∀ k, start ≤ k → k < start + cnt → b.test k = true)) := by
  have hscan := bitmapScan_eq hsize hstart cnt value
  refine ⟨?_, ?_, fun h => ⟨?_, ?_, ?_, ?_, ?_, ?_⟩⟩
  · obtain ⟨i, hi, hle, hrun, hleast⟩ | ⟨hnone, hall⟩ := scan_first b start cnt value
    · rw [hi] at hscan
      exact ⟨i, hscan, .inl ⟨hle, hrun, hleast⟩⟩
    · rw [hnone] at hscan
      exact ⟨bitmapError, hscan, .inr ⟨rfl, hall⟩⟩
  · obtain ⟨i, hi, hle, hrun, hleast⟩ | ⟨hnone, hall⟩ := scan_first b start cnt value
    · rw [hi] at hscan
      by_cases herr : i = bitmapError
      · -- Only a scan for no bits at all can end there.
        have hcnt : cnt = 0 := by
          have := hrun.1
          unfold bitmapError at herr
          omega
        refine ⟨i, b, ?_, hscan, rfl, fun _ k => by rw [if_neg (by omega)], fun hno => absurd hrun (hno i hle)⟩
        rw [bitmapScanAndFlip, hscan]
        simp only [Option.bind_eq_bind, Option.bind_some, Option.getD_some, herr, ne_eq, not_true_eq_false, if_false,
          Option.pure_def]
      · refine ⟨i, b.setMultiple i cnt (!value), ?_, hscan, bitCnt_setMultiple .., fun _ k => test_setMultiple hrun.1 _ k,
          fun hno => absurd hrun (hno i hle)⟩
        rw [bitmapScanAndFlip, hscan]
        simp only [Option.bind_eq_bind, Option.bind_some, Option.getD_some, herr, ne_eq, not_false_eq_true, if_true,
          bitmapSetMultiple_eq hsize hrun.1, Option.pure_def]
    · rw [hnone] at hscan
      refine ⟨bitmapError, b, ?_, hscan, rfl, fun hsome => ?_, fun _ => rfl⟩
      · rw [bitmapScanAndFlip, hscan]
        rfl
      · obtain ⟨j, hj, hr⟩ := hsome
        exact absurd hr (hall j hj)
  · exact ⟨_, bitmapSetMultiple_eq hsize h value, bitCnt_setMultiple .., test_setMultiple h value⟩
  · rw [bitmapCount, if_pos (rangeOk_of_le hsize h), countLoop_eq value cnt h]
  · exact ⟨_, bitmapContains_eq hsize h value, contains_iff⟩
  · exact ⟨_, bitmapContains_eq hsize h true, contains_iff⟩
  · refine ⟨_, by rw [bitmapNone, bitmapContains_eq hsize h true, Option.map_some], none_iff⟩
  · refine ⟨_, by rw [bitmapAll, bitmapContains_eq hsize h false, Option.map_some], none_iff⟩

end

/-- Two words, with the run of free bits across their border. -/
theorem bitmap_functions_border :
    ∃ i b', bitmapScanAndFlip ((create 40).setMultiple 0 30 true) 0 4 false = some (i, b') ∧ i = 30 ∧
      b'.test 29 = true ∧ b'.test 33 = true ∧ b'.test 34 = false := by
  obtain ⟨-, ⟨i, b', h, hscan, -, hflip, -⟩, -⟩ :=
    bitmap_functions (b := (create 40).setMultiple 0 30 true) (by decide) 0 4 false (by decide)
  have hi : bitmapScan ((create 40).setMultiple 0 30 true) 0 4 false = some 30 := by decide +kernel
  rw [hi] at hscan
  cases hscan
  have hrun : Run ((create 40).setMultiple 0 30 true) 30 4 false := by
    rw [run_iff (by decide)]
    decide +kernel
  have hbits := hflip ⟨30, by decide, hrun⟩
  exact ⟨30, b', h, rfl, by rw [hbits]; decide +kernel, by rw [hbits]; decide +kernel, by rw [hbits]; decide +kernel⟩

end Pintos.Kernel
