import Pintos.Library.Bytes
import Pintos.Library.Heap
import Pintos.Library.Steps

/-! Sorting and searching (`lib/stdlib.c`).

The functions work on an array of elements of `size` bytes anywhere in memory, with indices from 1 on for the heap. An
index is a `size_t` and wraps around at 2^32. Touching an element that is not among 1 to `cnt` is the fault
`.index`, and a `heapify` that goes on for more rounds than there are elements is the fault `.forever`. The
comparison is a function of the bytes of two elements. -/
namespace Pintos.Stdlib

inductive Fault where
  | assert
  | index
  | forever
deriving Repr, DecidableEq

/-- An element, as its bytes. -/
abbrev Elem (size : Nat) := Fin size → UInt8

section
variable {size : Nat} (compare : Elem size → Elem size → Int) (array : Nat)

/-- The element with the 1-based index `idx`. -/
def element (size array : Nat) (m : Bytes) (idx : Nat) : Elem size := fun k => m (array + (idx - 1) * size + k)

def inside (cnt idx : Nat) : Except Fault Unit := if 1 ≤ idx ∧ idx ≤ cnt then .ok () else .error .index

/-- One round of the loop of `do_swap`. -/
def swapByte (a b : Nat) (m : Bytes) (i : Nat) : Bytes :=
  Function.update (Function.update m (a + i) (m (b + i))) (b + i) (m (a + i))

def doSwap (size array cnt aIdx bIdx : Nat) (m : Bytes) : Except Fault Bytes := do
  inside cnt aIdx
  inside cnt bIdx
  return (List.range size).foldl (swapByte (array + (aIdx - 1) * size) (array + (bIdx - 1) * size)) m

def doCompare (cnt aIdx bIdx : Nat) (m : Bytes) : Except Fault Int := do
  inside cnt aIdx
  inside cnt bIdx
  return compare (element size array m aIdx) (element size array m bIdx)

/-- The larger one of the element `max` and a child, if there is the child. -/
def larger (cnt child max : Nat) (m : Bytes) : Except Fault Nat :=
  if child ≤ cnt then do
    if (← doCompare compare array cnt child max m) > 0 then return child else return max
  else .ok max

def heapifyLoop (cnt : Nat) : Nat → Nat → Bytes → Except Fault Bytes
  | 0, _, _ => .error .forever
  | rounds + 1, i, m => do
    let left := 2 * i % 2 ^ 32
    let right := (2 * i + 1) % 2 ^ 32
    let max ← larger compare array cnt left i m
    let max ← larger compare array cnt right max m
    if max = i then return m
    else do
      let m ← doSwap size array cnt i max m
      heapifyLoop cnt rounds max m

def heapify (i cnt : Nat) (m : Bytes) : Except Fault Bytes := heapifyLoop compare array cnt cnt i m

/-- The loop that builds the heap. -/
def buildHeap (cnt : Nat) : Nat → Bytes → Except Fault Bytes
  | 0, m => .ok m
  | i + 1, m => do
    let m ← heapify compare array (i + 1) cnt m
    buildHeap cnt i m

/-- The loop that sorts the heap. -/
def sortHeap (cnt : Nat) : Nat → Bytes → Except Fault Bytes
  | 0, m => .ok m
  | 1, m => .ok m
  | i + 2, m => do
    let m ← doSwap size array cnt 1 (i + 2) m
    let m ← heapify compare array 1 (i + 1) m
    sortHeap cnt (i + 1) m

def sort (cnt : Nat) (m : Bytes) : Except Fault Bytes :=
  if (array ≠ 0 ∨ cnt = 0) ∧ 0 < size then do
    let m ← buildHeap compare array cnt (cnt / 2) m
    sortHeap compare array cnt cnt m
  else .error .assert

/-- The loop of `binary_search`: the address of an element, or none for a null pointer. -/
def searchLoop (key : Elem size) (m : Bytes) : Nat → Nat → Nat → Except Fault (Option Nat)
  | 0, _, _ => .error .forever
  | rounds + 1, first, last =>
    if first < last then
      let range := (last - first) / size
      let middle := first + range / 2 * size
      let cmp := compare key fun k => m (middle + k)
      if cmp < 0 then searchLoop key m rounds first middle
      else if cmp > 0 then searchLoop key m rounds (middle + size) last
      else .ok (some middle)
    else .ok none

def binarySearch (key : Elem size) (cnt : Nat) (m : Bytes) : Except Fault (Option Nat) :=
  searchLoop compare key m (cnt + 1) array (array + size * cnt)

end

/-! ### Swapping -/

section
variable {size array cnt i j : Nat} {m m' : Bytes}

theorem inside_ok (h1 : 1 ≤ i) (hc : i ≤ cnt) : inside cnt i = .ok () := if_pos ⟨h1, hc⟩

/-- Two different elements do not overlap. -/
theorem elements_apart (size array : Nat) (hi : 1 ≤ i) (hj : 1 ≤ j) (hne : i ≠ j) :
    array + (i - 1) * size + size ≤ array + (j - 1) * size ∨ array + (j - 1) * size + size ≤ array + (i - 1) * size := by
  rcases Nat.lt_or_gt_of_ne hne with hlt | hgt
  · left
    have : (i - 1 + 1) * size ≤ (j - 1) * size := Nat.mul_le_mul_right size (by omega)
    rw [Nat.succ_mul] at this
    omega
  · right
    have : (j - 1 + 1) * size ≤ (i - 1) * size := Nat.mul_le_mul_right size (by omega)
    rw [Nat.succ_mul] at this
    omega

/-- The loop of `do_swap` after `n` rounds, for regions that are apart. -/
theorem swapBytes_spec {a b : Nat} (m : Bytes) (n : Nat) (hapart : a + n ≤ b ∨ b + n ≤ a) :
    ∀ o, (List.range n).foldl (swapByte a b) m o =
      if a ≤ o ∧ o < a + n then m (b + (o - a)) else if b ≤ o ∧ o < b + n then m (a + (o - b)) else m o := by
  induction n with
  | zero =>
    intro o
    rw [if_neg (by omega), if_neg (by omega)]
    rfl
  | succ n ih =>
    intro o
    have ih := ih (by omega)
    rw [List.range_succ, List.foldl_append, List.foldl_cons, List.foldl_nil]
    generalize (List.range n).foldl (swapByte a b) m = m' at ih
    rw [swapByte, Function.update_apply, Function.update_apply]
    split
    next h =>
      rw [ih (a + n), if_neg (by omega), if_neg (by omega), if_neg (by omega), if_pos (by omega)]
      congr 1
      omega
    next h =>
      split
      next h' =>
        rw [ih (b + n), if_neg (by omega), if_neg (by omega), if_pos (by omega)]
        congr 1
        omega
      next h' =>
        rw [ih o]
        grind

/-- The memory of the array. -/
def Outside (size array cnt : Nat) (m m' : Bytes) : Prop :=
  ∀ o, o < array ∨ array + cnt * size ≤ o → m' o = m o

theorem doSwap_spec (size array : Nat) (hi : 1 ≤ i) (hic : i ≤ cnt) (hj : 1 ≤ j) (hjc : j ≤ cnt) (hne : i ≠ j) (m : Bytes) :
    ∃ m', doSwap size array cnt i j m = .ok m' ∧
      Heap.Swapped i j (element size array m) (element size array m') ∧ Outside size array cnt m m' := by
  have hspec := swapBytes_spec (a := array + (i - 1) * size) (b := array + (j - 1) * size) m size (elements_apart size array hi hj hne)
  have hin : ∀ k, 1 ≤ k → k ≤ cnt → array + (k - 1) * size + size ≤ array + cnt * size := by
    intro k h1 hk
    have : (k - 1 + 1) * size ≤ cnt * size := Nat.mul_le_mul_right size (by omega)
    rw [Nat.succ_mul] at this
    omega
  refine ⟨(List.range size).foldl (swapByte (array + (i - 1) * size) (array + (j - 1) * size)) m, ?_,
    ⟨?_, ?_, fun k h1 hki hkj => ?_⟩, fun o ho => ?_⟩
  · rw [doSwap, inside_ok hi hic, inside_ok hj hjc]
    rfl
  · funext k
    have hk := k.isLt
    simp only [element]
    grind
  · funext k
    have hk := k.isLt
    have := elements_apart size array hi hj hne
    simp only [element]
    grind
  · funext o
    have ho := o.isLt
    have := elements_apart size array hi h1 (Ne.symm hki)
    have := elements_apart size array hj h1 (Ne.symm hkj)
    simp only [element]
    rw [hspec, if_neg (by omega), if_neg (by omega)]
  · grind

end

/-! ### The heap -/

/-- A comparison that is a total preorder: `compare a b ≤ 0` is one, and the sign changes with the order of the
arguments. -/
structure TotalPreorder {α : Type} (compare : α → α → Int) : Prop where
  symm : ∀ a b, 0 < compare a b ↔ compare b a < 0
  trans : ∀ a b c, compare a b ≤ 0 → compare b c ≤ 0 → compare a c ≤ 0

section
variable {size : Nat} {compare : Elem size → Elem size → Int} {array cnt i : Nat} {m : Bytes}

/-- The preorder of a comparison. -/
def Le {α : Type} (compare : α → α → Int) (a b : α) : Prop := compare a b ≤ 0

theorem TotalPreorder.refl {α : Type} {compare : α → α → Int} (h : TotalPreorder compare) (a : α) : Le compare a a := by
  have := h.symm a a
  unfold Le
  omega

theorem TotalPreorder.le_of_pos {α : Type} {compare : α → α → Int} (h : TotalPreorder compare) {a b : α}
    (hpos : 0 < compare a b) : Le compare b a :=
  ((h.symm a b).mp hpos).le

theorem doCompare_ok {aIdx bIdx : Nat} (ha : 1 ≤ aIdx) (hac : aIdx ≤ cnt) (hb : 1 ≤ bIdx) (hbc : bIdx ≤ cnt) (m : Bytes) :
    doCompare compare array cnt aIdx bIdx m = .ok (compare (element size array m aIdx) (element size array m bIdx)) := by
  rw [doCompare, inside_ok ha hac, inside_ok hb hbc]
  rfl

theorem larger_spec (array : Nat) (hpre : TotalPreorder compare) {child max : Nat} (hmax : 1 ≤ max) (hmaxc : max ≤ cnt) (hchild : 1 ≤ child)
    (m : Bytes) :
    ∃ r, larger compare array cnt child max m = .ok r ∧ (r = max ∨ r = child ∧ child ≤ cnt) ∧
      Le compare (element size array m max) (element size array m r) ∧
      (child ≤ cnt → Le compare (element size array m child) (element size array m r)) := by
  unfold larger
  split
  next hle =>
    rw [doCompare_ok hchild hle hmax hmaxc, Steps.ok_bind]
    split
    next hgt => exact ⟨child, rfl, .inr ⟨rfl, hle⟩, hpre.le_of_pos hgt, fun _ => hpre.refl _⟩
    next hle' => exact ⟨max, rfl, .inl rfl, hpre.refl _, fun _ => Int.not_lt.mp hle'⟩
  next hgt => exact ⟨max, rfl, .inl rfl, hpre.refl _, fun h => absurd h hgt⟩

/-- `heapify` terminates, stays among its elements, and makes the heap whole. The index of a child does not wrap around
as long as there are less than 2^31 elements. -/
theorem heapifyLoop_spec (hpre : TotalPreorder compare) (hcnt : cnt < 2 ^ 31) {rounds : Nat} (hi : 1 ≤ i) (hic : i ≤ cnt)
    (hrounds : cnt < rounds + i) (m : Bytes) :
    ∃ m', heapifyLoop compare array cnt rounds i m = .ok m' ∧
      Heap.Shuffled cnt (element size array m) (element size array m') ∧ Outside size array cnt m m' ∧
      ∀ lo, 1 ≤ lo → lo ≤ i → Heap.Sifting (Le compare) lo cnt i (element size array m) →
        Heap.HeapFrom (Le compare) lo cnt (element size array m') := by
  induction rounds generalizing i m with
  | zero => omega
  | succ rounds ih =>
    have hleft : 2 * i % 2 ^ 32 = 2 * i := Nat.mod_eq_of_lt (by omega)
    have hright : (2 * i + 1) % 2 ^ 32 = 2 * i + 1 := Nat.mod_eq_of_lt (by omega)
    obtain ⟨max1, hmax1, hone1, hle1, hleft1⟩ := larger_spec array hpre hi hic (show 1 ≤ 2 * i by omega) m
    obtain ⟨max, hmax, hone, hle, hright2⟩ := larger_spec array hpre (show 1 ≤ max1 by omega)
      (show max1 ≤ cnt by omega) (show 1 ≤ 2 * i + 1 by omega) m
    have hbelow : ∀ c, Heap.IsChild i c → c ≤ cnt → Le compare (element size array m c) (element size array m max) := by
      intro c hc hcc
      rcases hc with rfl | rfl
      · exact hpre.trans _ _ _ (hleft1 hcc) hle
      · exact hright2 hcc
    have hle' : Le compare (element size array m i) (element size array m max) := hpre.trans _ _ _ hle1 hle
    rw [heapifyLoop, hleft, hright, hmax1, Steps.ok_bind, hmax, Steps.ok_bind]
    by_cases hdone : max = i
    · rw [if_pos hdone]
      refine ⟨m, rfl, .refl .., fun _ _ => rfl, fun lo _ _ hs => hs.done fun c hc hcc => ?_⟩
      have := hbelow c hc hcc
      rwa [hdone] at this
    · rw [if_neg hdone]
      have hchild : Heap.IsChild i max := by
        unfold Heap.IsChild
        omega
      obtain ⟨m1, hswap, hswapped, hout⟩ := doSwap_spec size array hi hic (show 1 ≤ max by omega)
        (show max ≤ cnt by omega) (Ne.symm hdone) m
      obtain ⟨m', hloop, hsh, hout', hheap⟩ := ih (show 1 ≤ max by omega) (show max ≤ cnt by omega) (by omega) m1
      rw [hswap, Steps.ok_bind]
      refine ⟨m', hloop, (hswapped.shuffled hi hic (by omega) (by omega)).trans hsh,
        fun o ho => (hout' o ho).trans (hout o ho), fun lo hlo hloi hs => ?_⟩
      exact hheap lo hlo (by omega) (hs.step hswapped hloi hlo hchild (by omega) hbelow hle')

theorem Outside.mono {cnt' : Nat} {m' : Bytes} (h : Outside size array cnt m m') (hle : cnt ≤ cnt') :
    Outside size array cnt' m m' := by
  intro o ho
  have : cnt * size ≤ cnt' * size := Nat.mul_le_mul_right size hle
  exact h o (by omega)

theorem heapify_spec (array : Nat) (hpre : TotalPreorder compare) (hcnt : cnt < 2 ^ 31) (hi : 1 ≤ i) (hic : i ≤ cnt) (m : Bytes) :
    ∃ m', heapify compare array i cnt m = .ok m' ∧
      Heap.Shuffled cnt (element size array m) (element size array m') ∧ Outside size array cnt m m' ∧
      ∀ lo, 1 ≤ lo → lo ≤ i → Heap.Sifting (Le compare) lo cnt i (element size array m) →
        Heap.HeapFrom (Le compare) lo cnt (element size array m') :=
  heapifyLoop_spec hpre hcnt hi hic (by omega) m

theorem buildHeap_spec (hpre : TotalPreorder compare) (hcnt : cnt < 2 ^ 31) (hic : i ≤ cnt) (m : Bytes)
    (hheap : Heap.HeapFrom (Le compare) (i + 1) cnt (element size array m)) :
    ∃ m', buildHeap compare array cnt i m = .ok m' ∧
      Heap.Shuffled cnt (element size array m) (element size array m') ∧ Outside size array cnt m m' ∧
      Heap.HeapFrom (Le compare) 1 cnt (element size array m') := by
  induction i generalizing m with
  | zero => exact ⟨m, rfl, .refl .., fun _ _ => rfl, hheap⟩
  | succ i ih =>
    obtain ⟨m1, h1, hsh1, hout1, hheap1⟩ := heapify_spec array hpre hcnt (show 1 ≤ i + 1 by omega) hic m
    obtain ⟨m', h, hsh, hout, hheap'⟩ := ih (by omega) m1
      (hheap1 (i + 1) (by omega) le_rfl (hheap.sifting (by omega)))
    refine ⟨m', ?_, hsh1.trans hsh, fun o ho => (hout o ho).trans (hout1 o ho), hheap'⟩
    rw [buildHeap, h1, Steps.ok_bind, h]

/-- The second loop, from a heap of `i` elements on. -/
theorem sortHeap_spec (hpre : TotalPreorder compare) (hcnt : cnt < 2 ^ 31) (hic : i ≤ cnt) (m : Bytes)
    (hs : Heap.Sorting (Le compare) cnt i (element size array m)) :
    ∃ m', sortHeap compare array cnt i m = .ok m' ∧
      Heap.Shuffled cnt (element size array m) (element size array m') ∧ Outside size array cnt m m' ∧
      ∀ j k, 1 ≤ j → j ≤ k → k ≤ cnt → Le compare (element size array m' j) (element size array m' k) := by
  induction i generalizing m with
  | zero => exact ⟨m, rfl, .refl .., fun _ _ => rfl, fun j k h1 hjk hk => hs.sorted hpre.refl (by omega) h1 hjk hk⟩
  | succ i ih =>
    cases i with
    | zero => exact ⟨m, rfl, .refl .., fun _ _ => rfl, fun j k h1 hjk hk => hs.sorted hpre.refl le_rfl h1 hjk hk⟩
    | succ i =>
      obtain ⟨m1, hswap, hswapped, hout1⟩ := doSwap_spec size array le_rfl (show 1 ≤ cnt by omega)
        (show 1 ≤ i + 2 by omega) hic (by omega) m
      obtain ⟨m2, hheapify, hsh2, hout2, hheap⟩ := heapify_spec array hpre (show i + 1 < 2 ^ 31 by omega) le_rfl
        (show 1 ≤ i + 1 by omega) m1
      have hheap := hheap 1 le_rfl le_rfl (hs.swap hswapped (by omega))
      obtain ⟨m', hsort, hsh, hout, hsorted⟩ := ih (by omega) m2
        (hs.step hpre.refl hpre.trans hswapped hsh2 hheap (by omega))
      refine ⟨m', ?_, ?_, fun o ho => ?_, hsorted⟩
      · rw [sortHeap, hswap, Steps.ok_bind, hheapify, Steps.ok_bind, hsort]
      · exact ((hswapped.shuffled le_rfl (by omega) (by omega) hic).trans (hsh2.mono (by omega))).trans hsh
      · exact ((hout o ho).trans ((hout2.mono (by omega)) o ho)).trans (hout1 o ho)

/-- The elements of the array, in their order. -/
def elements (size array cnt : Nat) (m : Bytes) : List (Elem size) := (List.range' 1 cnt).map (element size array m)

/-- Sorted by a comparison. -/
def Sorted (compare : Elem size → Elem size → Int) (array cnt : Nat) (m : Bytes) : Prop :=
  ∀ j k, 1 ≤ j → j ≤ k → k ≤ cnt → Le compare (element size array m j) (element size array m k)

theorem sort_spec (hpre : TotalPreorder compare) (hcnt : cnt < 2 ^ 31) (hsize : 0 < size) (harray : array ≠ 0) (m : Bytes) :
    ∃ m', sort compare array cnt m = .ok m' ∧ Sorted compare array cnt m' ∧
      (elements size array cnt m').Perm (elements size array cnt m) ∧ Outside size array cnt m m' := by
  obtain ⟨m1, hbuild, hsh1, hout1, hheap⟩ := buildHeap_spec hpre hcnt (show cnt / 2 ≤ cnt by omega) m
    (Heap.heapFrom_leaves (Le compare) (element size array m) (by omega))
  obtain ⟨m', hsort, hsh, hout, hsorted⟩ := sortHeap_spec hpre hcnt le_rfl m1 hheap.sorting
  refine ⟨m', ?_, hsorted, (hsh1.trans hsh).perm, fun o ho => (hout o ho).trans (hout1 o ho)⟩
  rw [sort, if_pos ⟨.inl harray, hsize⟩, hbuild, Steps.ok_bind, hsort]

/-! ### Searching -/

/-- The loop of `binary_search`, with the elements from `first` to `last` left, counted from 0: a match is among them if
there is one at all. -/
theorem searchLoop_spec (key : Elem size) (hpre : TotalPreorder compare) (hsize : 0 < size)
    (hsorted : Sorted compare array cnt m) {rounds first last : Nat} (hle : first ≤ last) (hlast : last ≤ cnt) (hrounds : last - first < rounds)
    (hin : ∀ j, 1 ≤ j → j ≤ cnt → compare key (element size array m j) = 0 → first < j ∧ j ≤ last) :
    ∃ out, searchLoop compare key m rounds (array + first * size) (array + last * size) = .ok out ∧
      (∀ p, out = some p → ∃ j, 1 ≤ j ∧ j ≤ cnt ∧ p = array + (j - 1) * size ∧ compare key (element size array m j) = 0) ∧
      (out = none → ∀ j, 1 ≤ j → j ≤ cnt → compare key (element size array m j) ≠ 0) := by
  induction rounds generalizing first last with
  | zero => omega
  | succ rounds ih =>
    rw [searchLoop]
    rcases Nat.lt_or_ge first last with hlt | hge
    · have hmul : (first + 1) * size ≤ last * size := Nat.mul_le_mul_right size hlt
      rw [Nat.succ_mul] at hmul
      have hrange : (array + last * size - (array + first * size)) / size = last - first := by
        rw [Nat.add_sub_add_left, ← Nat.sub_mul, Nat.mul_div_cancel _ hsize]
      obtain ⟨mid, hmid⟩ : ∃ mid, mid = first + (last - first) / 2 := ⟨_, rfl⟩
      have haddr : array + first * size + (last - first) / 2 * size = array + mid * size := by
        rw [hmid, Nat.add_mul, Nat.add_assoc]
      have hnext : array + mid * size + size = array + (mid + 1) * size := by rw [Nat.succ_mul, Nat.add_assoc]
      rw [if_pos (by omega)]
      simp only [hrange, haddr, hnext]
      have helem : (fun k : Fin size => m (array + mid * size + k)) = element size array m (mid + 1) := rfl
      rw [helem]
      split
      next hneg =>
        -- The key is before the middle element, and so before all that follow.
        refine ih (by omega) (by omega) (by omega) fun j h1 hj hmatch => ⟨(hin j h1 hj hmatch).1, ?_⟩
        by_contra hgt
        have h2 := hsorted (mid + 1) j (by omega) (by omega) hj
        have h3 : compare (element size array m j) key ≤ 0 := by
          have := hpre.symm (element size array m j) key
          omega
        have h4 := hpre.trans _ _ _ h2 h3
        have h5 := hpre.symm (element size array m (mid + 1)) key
        omega
      next hpos =>
        split
        next hgt =>
          refine ih (by omega) (by omega) (by omega) fun j h1 hj hmatch => ⟨?_, (hin j h1 hj hmatch).2⟩
          by_contra hle'
          have h2 := hsorted j (mid + 1) h1 (by omega) (by omega)
          have h4 := hpre.trans _ _ _ (show compare key (element size array m j) ≤ 0 by omega) h2
          omega
        next hnot =>
          refine ⟨_, rfl, fun p hp => ?_, fun h => (by cases h)⟩
          grind
    · rw [if_neg (by have := Nat.mul_le_mul_right size hge; omega)]
      refine ⟨none, rfl, fun p hp => (by cases hp), fun _ j h1 hj hmatch => ?_⟩
      have := hin j h1 hj hmatch
      omega

/-- For every array of less than 2^31 elements of any size and every comparison that is a total preorder: `sort` sorts
the elements, which stay the same ones, and touches nothing else; `heapify` terminates and stays among the
elements 1 to `cnt`; and `binary_search` finds an element that matches if there is one. -/
theorem sort_and_search (array cnt : Nat) (hpre : TotalPreorder compare) (hsize : 0 < size) (harray : array ≠ 0) :
    (cnt < 2 ^ 31 → ∀ m, ∃ m', sort compare array cnt m = .ok m' ∧ Sorted compare array cnt m' ∧
      (elements size array cnt m').Perm (elements size array cnt m) ∧ Outside size array cnt m m') ∧
    (cnt < 2 ^ 31 → ∀ i m, 1 ≤ i → i ≤ cnt → ∃ m', heapify compare array i cnt m = .ok m' ∧ Outside size array cnt m m') ∧
    ∀ m key, Sorted compare array cnt m →
      ∃ out, binarySearch compare array key cnt m = .ok out ∧
        (∀ p, out = some p →
          ∃ j, 1 ≤ j ∧ j ≤ cnt ∧ p = array + (j - 1) * size ∧ compare key (element size array m j) = 0) ∧
        (out = none → ∀ j, 1 ≤ j → j ≤ cnt → compare key (element size array m j) ≠ 0) := by
  refine ⟨fun hcnt m => sort_spec hpre hcnt hsize harray m, fun hcnt i m hi hic => ?_, fun m key hsorted => ?_⟩
  · obtain ⟨m', h, -, hout, -⟩ := heapify_spec array hpre hcnt hi hic m
    exact ⟨m', h, hout⟩
  · have h := searchLoop_spec key hpre hsize hsorted (Nat.zero_le cnt) le_rfl (Nat.lt_succ_self (cnt - 0))
      fun j h1 hj _ => ⟨h1, hj⟩
    rwa [Nat.zero_mul, Nat.add_zero, Nat.mul_comm cnt] at h

end

/-- Bytes, compared as numbers. -/
def compareBytes (a b : Elem 1) : Int := (a 0).toNat - (b 0).toNat

theorem compareBytes_preorder : TotalPreorder compareBytes := by
  constructor
  · intro a b
    unfold compareBytes
    omega
  · intro a b c
    unfold compareBytes
    omega

/-- Three bytes. -/
theorem sort_and_search_bytes :
    ∃ m', sort compareBytes 4096 3 (fun o => if o = 4097 then 5 else if o = 4098 then 1 else 3) = .ok m' ∧
      Sorted compareBytes 4096 3 m' := by
  obtain ⟨hsort, -, -⟩ := sort_and_search 4096 3 compareBytes_preorder (by decide) (by decide)
  obtain ⟨m', h, hsorted, -⟩ := hsort (by decide) fun o => if o = 4097 then 5 else if o = 4098 then 1 else 3
  exact ⟨m', h, hsorted⟩

/-! ### Two billion elements -/

/-- 2^31 bytes from the address 4096 on, all zero but the last one. -/
def lastOne : Bytes := fun o => if o = 4095 + 2 ^ 31 then 1 else 0

/-- The last element changes places with its parent; the index of its left child wraps around to 0. -/
theorem heapifyLoop_wraps {rounds : Nat} (h : 2 ≤ rounds) :
    heapifyLoop compareBytes 4096 (2 ^ 31) rounds (2 ^ 30) lastOne = .error .index := by
  obtain ⟨rounds, rfl⟩ := Nat.exists_eq_add_of_le' h
  have hlarge : larger compareBytes 4096 (2 ^ 31) (2 * 2 ^ 30 % 2 ^ 32) (2 ^ 30) lastOne = .ok (2 ^ 31) := by
    have hcmp : compareBytes (element 1 4096 lastOne (2 ^ 31)) (element 1 4096 lastOne (2 ^ 30)) = 1 := by
      norm_num [compareBytes, element, lastOne]
      rfl
    rw [show 2 * 2 ^ 30 % 2 ^ 32 = 2 ^ 31 by norm_num, larger, if_pos le_rfl,
      doCompare_ok (by norm_num) le_rfl (by norm_num) (by norm_num), Steps.ok_bind, hcmp]
    rfl
  have hsame : larger compareBytes 4096 (2 ^ 31) ((2 * 2 ^ 30 + 1) % 2 ^ 32) (2 ^ 31) lastOne = .ok (2 ^ 31) :=
    if_neg (by norm_num)
  obtain ⟨m1, hswap, -⟩ := doSwap_spec 1 4096 (show 1 ≤ 2 ^ 30 by norm_num)
    (show 2 ^ 30 ≤ 2 ^ 31 by norm_num) (show 1 ≤ 2 ^ 31 by norm_num) le_rfl (by norm_num) lastOne
  have hzero : larger compareBytes 4096 (2 ^ 31) (2 * 2 ^ 31 % 2 ^ 32) (2 ^ 31) m1 = .error .index := by
    rw [show 2 * 2 ^ 31 % 2 ^ 32 = 0 by norm_num, larger, if_pos (Nat.zero_le _)]
    rfl
  rw [heapifyLoop, hlarge, Steps.ok_bind, hsame, Steps.ok_bind, if_neg (by norm_num), hswap, Steps.ok_bind, heapifyLoop, hzero]
  rfl

/-- With 2^31 elements, the first `heapify` that `sort` calls looks at an element before the array. -/
theorem sort_looks_before_array : sort compareBytes 4096 (2 ^ 31) lastOne = .error .index := by
  have hheapify : heapify compareBytes 4096 (2 ^ 30) (2 ^ 31) lastOne = .error .index := heapifyLoop_wraps (by norm_num)
  have hbuild : buildHeap compareBytes 4096 (2 ^ 31) (2 ^ 30 - 1 + 1) lastOne = .error .index := by
    rw [buildHeap, show 2 ^ 30 - 1 + 1 = 2 ^ 30 by norm_num, hheapify]
    rfl
  rw [sort, if_pos ⟨.inl (by decide), by decide⟩, show 2 ^ 31 / 2 = 2 ^ 30 - 1 + 1 by norm_num, hbuild]
  rfl

end Pintos.Stdlib
