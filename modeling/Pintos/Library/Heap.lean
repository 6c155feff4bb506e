import Mathlib

/-! Binary heaps in arrays, and what heap sort does with them.

An array is a function from indices to elements, and the root of a heap is at index 1. `Sifting` is a heap from an index
on except at one node, which is on its way down; a step moves the exception to a child. `Sorting` is the state
of the second half of heap sort: a heap, followed by sorted elements that are no smaller. Both are about any
reflexive and transitive relation. -/
namespace Pintos.Heap

variable {α : Type}

/-! ### Shuffled arrays -/

/-- The elements `i` and `j` have changed places. -/
structure Swapped (i j : Nat) (a a' : Nat → α) : Prop where
  left : a' i = a j
  right : a' j = a i
  other : ∀ k, 1 ≤ k → k ≠ i → k ≠ j → a' k = a k

/-- The elements 1 to `cnt` are the same ones, in some order, and the others are where they were. -/
def Shuffled (cnt : Nat) (a a' : Nat → α) : Prop :=
  ∃ σ : Equiv.Perm Nat, (∀ j, j < 1 ∨ cnt < j → σ j = j) ∧ ∀ j, 1 ≤ j → a' j = a (σ j)

section
variable {cnt cnt' i j : Nat} {a a' a'' : Nat → α}

theorem Shuffled.refl (cnt : Nat) (a : Nat → α) : Shuffled cnt a a := ⟨Equiv.refl Nat, fun _ _ => rfl, fun _ _ => rfl⟩

/-- A shuffle stays within its range. -/
theorem range_of_fixes {σ : Equiv.Perm Nat} (h : ∀ j, j < 1 ∨ cnt < j → σ j = j) (h1 : 1 ≤ j) (hc : j ≤ cnt) :
    1 ≤ σ j ∧ σ j ≤ cnt := by
  by_contra hout
  have hfix : σ (σ j) = σ j := h (σ j) (by omega)
  have := σ.injective hfix
  omega

theorem pos_of_fixes {σ : Equiv.Perm Nat} (h : ∀ j, j < 1 ∨ cnt < j → σ j = j) (h1 : 1 ≤ j) : 1 ≤ σ j := by
  rcases Nat.lt_or_ge cnt j with hj | hj
  · rw [h j (.inr hj)]
    exact h1
  · exact (range_of_fixes h h1 hj).1

theorem Shuffled.trans (h : Shuffled cnt a a') (h' : Shuffled cnt a' a'') : Shuffled cnt a a'' := by
  obtain ⟨σ, hσ, ha⟩ := h
  obtain ⟨τ, hτ, ha'⟩ := h'
  refine ⟨τ.trans σ, fun j hj => ?_, fun j hj => ?_⟩
  · rw [Equiv.trans_apply, hτ j hj, hσ j hj]
  · rw [ha' j hj, ha (τ j) (pos_of_fixes hτ hj), Equiv.trans_apply]

theorem Shuffled.mono (h : Shuffled cnt a a') (hle : cnt ≤ cnt') : Shuffled cnt' a a' := by
  obtain ⟨σ, hσ, ha⟩ := h
  exact ⟨σ, fun j hj => hσ j (by omega), ha⟩

theorem Swapped.shuffled (h : Swapped i j a a') (hi : 1 ≤ i) (hic : i ≤ cnt) (hj : 1 ≤ j) (hjc : j ≤ cnt) :
    Shuffled cnt a a' := by
  refine ⟨Equiv.swap i j, fun k hk => Equiv.swap_apply_of_ne_of_ne (by omega) (by omega), fun k hk => ?_⟩
  rcases eq_or_ne k i with rfl | hki
  · rw [Equiv.swap_apply_left, h.left]
  · rcases eq_or_ne k j with rfl | hkj
    · rw [Equiv.swap_apply_right, h.right]
    · rw [Equiv.swap_apply_of_ne_of_ne hki hkj, h.other k hk hki hkj]

theorem Shuffled.other (h : Shuffled cnt a a') (hj : cnt < j) : a' j = a j := by
  obtain ⟨σ, hσ, ha⟩ := h
  grind

/-- What holds of the elements holds of them in any order. -/
theorem Shuffled.all (h : Shuffled cnt a a') {P : α → Prop} (hP : ∀ j, 1 ≤ j → j ≤ cnt → P (a j)) (h1 : 1 ≤ j)
    (hc : j ≤ cnt) : P (a' j) := by
  obtain ⟨σ, hσ, ha⟩ := h
  obtain ⟨hlo, hhi⟩ := range_of_fixes hσ h1 hc
  rw [ha j h1]
  exact hP (σ j) hlo hhi

theorem Shuffled.perm (h : Shuffled cnt a a') : ((List.range' 1 cnt).map a').Perm ((List.range' 1 cnt).map a) := by
  obtain ⟨σ, hσ, ha⟩ := h
  have hmap : (List.range' 1 cnt).map a' = ((List.range' 1 cnt).map σ).map a := by
    rw [List.map_map]
    refine List.map_congr_left fun j hj => ?_
    exact ha j (List.mem_range'_1.mp hj).1
  have hperm : ((List.range' 1 cnt).map σ).Perm (List.range' 1 cnt) := by
    have hrange : (List.range' 1 cnt).Nodup := List.nodup_range'
    have hnodup : ((List.range' 1 cnt).map σ).Nodup := hrange.map σ.injective
    refine (List.subperm_of_subset hnodup fun k hk => ?_).perm_of_length_le (by simp)
    obtain ⟨j, hj, rfl⟩ := List.mem_map.mp hk
    obtain ⟨hlo, hhi⟩ := List.mem_range'_1.mp hj
    have := range_of_fixes hσ hlo (show j ≤ cnt by omega)
    exact List.mem_range'_1.mpr ⟨this.1, by omega⟩
  rw [hmap]
  exact hperm.map a

end

/-! ### Heaps -/

/-- `c` is a child of `p`. -/
def IsChild (p c : Nat) : Prop := c = 2 * p ∨ c = 2 * p + 1

section
variable (le : α → α → Prop)

/-- A node that is no smaller than its children. -/
def Above (cnt : Nat) (a : Nat → α) (p : Nat) : Prop := ∀ c, IsChild p c → c ≤ cnt → le (a c) (a p)

/-- A heap, as far as the nodes from `lo` on are concerned. -/
def HeapFrom (lo cnt : Nat) (a : Nat → α) : Prop := ∀ p, lo ≤ p → Above le cnt a p

/-- A heap from `lo` on, except that the node `i` may be too small. -/
structure Sifting (lo cnt i : Nat) (a : Nat → α) : Prop where
  rest : ∀ p, lo ≤ p → p ≠ i → Above le cnt a p
  grand : ∀ p, lo ≤ p → IsChild p i → ∀ c, IsChild i c → c ≤ cnt → le (a c) (a p)

/-- A heap of `i` elements, and the largest ones behind it in their order. -/
structure Sorting (cnt i : Nat) (a : Nat → α) : Prop where
  heap : HeapFrom le 1 i a
  tail : ∀ j k, i < j → j ≤ k → k ≤ cnt → le (a j) (a k)
  split : ∀ j k, 1 ≤ j → j ≤ i → i < k → k ≤ cnt → le (a j) (a k)

end

section
variable {le : α → α → Prop} {lo cnt i m : Nat} {a a' a'' : Nat → α}

theorem Sifting.done (h : Sifting le lo cnt i a) (hi : Above le cnt a i) : HeapFrom le lo cnt a := by
  intro p hp
  rcases eq_or_ne p i with rfl | hne
  · exact hi
  · exact h.rest p hp hne

/-- The node changes places with its larger child. -/
theorem Sifting.step (h : Sifting le lo cnt i a) (hs : Swapped i m a a') (hlo : lo ≤ i) (hpos : 1 ≤ lo) (hc : IsChild i m)
    (hm : m ≤ cnt) (hmax : ∀ c, IsChild i c → c ≤ cnt → le (a c) (a m)) (hi : le (a i) (a m)) :
    Sifting le lo cnt m a' := by
  have him : i < m := by
    unfold IsChild at hc
    omega
  refine ⟨fun p hp hpm c hpc hcc => ?_, fun p hp hpm c hmc hcc => ?_⟩
  · have hpc' : p < c := by
      unfold IsChild at hpc
      omega
    rcases eq_or_ne p i with rfl | hpi
    · -- The node itself: it has the larger child's element now.
      rw [hs.left]
      rcases eq_or_ne c m with rfl | hcm
      · rw [hs.right]
        exact hi
      · rw [hs.other c (by omega) (by omega) hcm]
        exact hmax c hpc hcc
    · rw [hs.other p (by omega) hpi hpm]
      rcases eq_or_ne c i with rfl | hci
      · -- The parent of the node: what came up was below the parent already.
        rw [hs.left]
        exact h.grand p hp hpc m hc hm
      · have hcm : c ≠ m := by
          unfold IsChild at hpc hc
          omega
        rw [hs.other c (by omega) hci hcm]
        exact h.rest p hp hpi c hpc hcc
  · have hpi : p = i := by
      unfold IsChild at hpm hc
      omega
    subst hpi
    have hmc' : m < c := by
      unfold IsChild at hmc
      omega
    rw [hs.left, hs.other c (by omega) (by omega) (by omega)]
    exact h.rest m (by omega) (by omega) c hmc hcc

/-- A heap from `i + 1` on is one from `i` on, up to the node `i`. -/
theorem HeapFrom.sifting (h : HeapFrom le (i + 1) cnt a) (hi : 1 ≤ i) : Sifting le i cnt i a := by
  refine ⟨fun p hp hne => h p (by omega), fun p hp hpi => ?_⟩
  unfold IsChild at hpi
  omega

/-- The leaves are a heap. -/
theorem heapFrom_leaves (le : α → α → Prop) (a : Nat → α) (hi : cnt < 2 * lo) : HeapFrom le lo cnt a := by
  intro p hp c hc hcc
  unfold IsChild at hc
  omega

/-- The root of a heap is the largest element. -/
theorem HeapFrom.le_root (h : HeapFrom le 1 cnt a) (hrefl : ∀ x, le x x) (htrans : ∀ x y z, le x y → le y z → le x z) {j : Nat}
    (h1 : 1 ≤ j) (hc : j ≤ cnt) : le (a j) (a 1) := by
  induction j using Nat.strong_induction_on with
  | _ j ih =>
    rcases Nat.lt_or_ge j 2 with hlt | hge
    · grind
    · have hchild : IsChild (j / 2) j := by
        unfold IsChild
        omega
      exact htrans _ _ _ (h (j / 2) (by omega) j hchild hc) (ih (j / 2) (by omega) (by omega) (by omega))

/-- The first element is swapped with the last one of the heap: the rest is a heap up to its root. -/
theorem Sorting.swap (h : Sorting le cnt i a) (hs : Swapped 1 i a a') (hi : 2 ≤ i) : Sifting le 1 (i - 1) 1 a' := by
  refine ⟨fun p hp hne c hc hcc => ?_, fun p hp hp1 => ?_⟩
  · unfold IsChild at hc
    rw [hs.other p (by omega) (by omega) (by omega), hs.other c (by omega) (by omega) (by omega)]
    exact h.heap p hp c hc (by omega)
  · unfold IsChild at hp1
    omega

/-- And when it is a heap again, one more element is in its place. -/
theorem Sorting.step (h : Sorting le cnt i a) (hrefl : ∀ x, le x x) (htrans : ∀ x y z, le x y → le y z → le x z)
    (hs : Swapped 1 i a a') (hsh : Shuffled (i - 1) a' a'') (hheap : HeapFrom le 1 (i - 1) a'') (hi : 2 ≤ i) :
    Sorting le cnt (i - 1) a'' := by
  have hsame : ∀ k, i < k → a'' k = a k := by
    intro k hk
    rw [hsh.other (by omega), hs.other k (by omega) (by omega) (by omega)]
  have hlast : a'' i = a 1 := by rw [hsh.other (by omega), hs.right]
  -- All of the first elements come from the heap, whose root is the one that went behind them.
  have hroot : ∀ j, 1 ≤ j → j ≤ i - 1 → le (a'' j) (a 1) := by
    intro j h1 hj
    refine hsh.all (P := fun x => le x (a 1)) (fun j' h1' hj' => ?_) h1 hj
    rcases eq_or_ne j' 1 with rfl | hne
    · rw [hs.left]
      exact h.heap.le_root hrefl htrans (by omega) le_rfl
    · rw [hs.other j' h1' hne (by omega)]
      exact h.heap.le_root hrefl htrans h1' (by omega)
  refine ⟨hheap, fun j k hj hjk hk => ?_, fun j k h1 hj hik hk => ?_⟩
  · rcases eq_or_ne j i with rfl | hne
    · rw [hlast]
      rcases eq_or_ne k j with rfl | hkne
      · rw [hlast]
        exact hrefl _
      · rw [hsame k (by omega)]
        exact h.split 1 k le_rfl (by omega) (by omega) hk
    · rw [hsame j (by omega), hsame k (by omega)]
      exact h.tail j k (by omega) hjk hk
  · rcases eq_or_ne k i with rfl | hne
    · rw [hlast]
      exact hroot j h1 hj
    · rw [hsame k (by omega)]
      refine hsh.all (P := fun x => le x (a k)) (fun j' h1' hj' => ?_) h1 hj
      rcases eq_or_ne j' 1 with rfl | hne'
      · rw [hs.left]
        exact h.split i k (by omega) le_rfl (by omega) hk
      · rw [hs.other j' h1' hne' (by omega)]
        exact h.split j' k h1' (by omega) (by omega) hk

theorem HeapFrom.sorting (h : HeapFrom le 1 cnt a) : Sorting le cnt cnt a :=
  ⟨h, fun j k hj hjk hk => (by omega), fun j k _ _ hik hk => (by omega)⟩

/-- With one element left in the heap, all are in order. -/
theorem Sorting.sorted (h : Sorting le cnt i a) (hrefl : ∀ x, le x x) (hi : i ≤ 1) {j k : Nat} (h1 : 1 ≤ j) (hjk : j ≤ k)
    (hk : k ≤ cnt) : le (a j) (a k) := by
  rcases eq_or_ne j k with rfl | hne
  · exact hrefl _
  · rcases Nat.lt_or_ge i j with hlt | hge
    · exact h.tail j k hlt hjk hk
    · exact h.split j k h1 hge (by omega) hk

end

end Pintos.Heap
