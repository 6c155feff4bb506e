import Mathlib

/-! Queues in a ring of cells.

The cells from `tail` on, around the ring, hold the elements in order, and `head` is the cell after the last one.
One cell is always left free, so that the two positions are equal only when the queue is empty. -/
namespace Pintos.Ring

variable {α : Type} {n head tail : Nat} {buf : Nat → α} {xs : List α} {x : α}

/-- The position after `pos`. -/
def next (n pos : Nat) : Nat := (pos + 1) % n

/-- The ring of `n` cells holds `xs`. -/
structure Holds (n : Nat) (buf : Nat → α) (head tail : Nat) (xs : List α) : Prop where
  tail_lt : tail < n
  length_lt : xs.length < n
  head_eq : head = (tail + xs.length) % n
  cell : ∀ i x, xs[i]? = some x → buf ((tail + i) % n) = x

namespace Holds

theorem empty (h : tail < n) : Holds n buf tail tail [] where
  tail_lt := h
  length_lt := by simp; omega
  head_eq := by rw [List.length_nil, Nat.add_zero, Nat.mod_eq_of_lt h]
  cell i x hx := by simp at hx

theorem head_lt (h : Holds n buf head tail xs) : head < n := by
  rw [h.head_eq]
  exact Nat.mod_lt _ (by have := h.tail_lt; omega)

/-- Distances below the size of the ring lead to different cells. -/
theorem add_mod_inj {i j : Nat} (hi : i < n) (hj : j < n) (h : (tail + i) % n = (tail + j) % n) : i = j := by
  have h' : i ≡ j [MOD n] := Nat.ModEq.add_left_cancel' tail h
  rwa [Nat.ModEq, Nat.mod_eq_of_lt hi, Nat.mod_eq_of_lt hj] at h'

theorem head_eq_tail_iff (h : Holds n buf head tail xs) : head = tail ↔ xs = [] := by
  constructor
  · intro he
    have heq : (tail + xs.length) % n = (tail + 0) % n := by
      rw [← h.head_eq, he, Nat.add_zero, Nat.mod_eq_of_lt h.tail_lt]
    exact List.length_eq_zero_iff.mp (add_mod_inj h.length_lt (by have := h.tail_lt; omega) heq)
  · intro hnil
    rw [h.head_eq, hnil, List.length_nil, Nat.add_zero, Nat.mod_eq_of_lt h.tail_lt]

theorem next_head (h : Holds n buf head tail xs) : next n head = (tail + (xs.length + 1)) % n := by
  rw [next, h.head_eq, Nat.mod_add_mod, Nat.add_assoc]

theorem full_iff (h : Holds n buf head tail xs) : next n head = tail ↔ xs.length + 1 = n := by
  rw [h.next_head]
  constructor
  · intro he
    by_contra hne
    have hlt : xs.length + 1 < n := by
      have := h.length_lt
      omega
    have heq : (tail + (xs.length + 1)) % n = (tail + 0) % n := by
      rw [he, Nat.add_zero, Nat.mod_eq_of_lt h.tail_lt]
    have := add_mod_inj hlt (by omega) heq
    omega
  · intro hn
    rw [hn, Nat.add_mod_right, Nat.mod_eq_of_lt h.tail_lt]

theorem push (h : Holds n buf head tail xs) (hroom : next n head ≠ tail) (x : α) :
    Holds n (Function.update buf head x) (next n head) tail (xs ++ [x]) where
  tail_lt := h.tail_lt
  length_lt := by
    have hne := mt h.full_iff.mpr hroom
    have := h.length_lt
    grind
  head_eq := by rw [h.next_head, List.length_append, List.length_singleton]
  cell i y hy := by
    rcases Nat.lt_trichotomy i xs.length with hi | hi | hi
    · have hcell : (tail + i) % n ≠ head := by
        intro he
        have := add_mod_inj (hi.trans h.length_lt) h.length_lt (he.trans h.head_eq)
        omega
      rw [List.getElem?_append_left hi] at hy
      rw [Function.update_of_ne hcell]
      exact h.cell i y hy
    · rw [hi, List.getElem?_concat_length] at hy
      rw [hi, ← h.head_eq, Function.update_self]
      exact Option.some.inj hy
    · grind

theorem pop (h : Holds n buf head tail (x :: xs)) : buf tail = x ∧ Holds n buf head (next n tail) xs where
  left := by
    have hcell := h.cell 0 x rfl
    rwa [Nat.add_zero, Nat.mod_eq_of_lt h.tail_lt] at hcell
  right := by
    have hlen := h.length_lt
    rw [List.length_cons] at hlen
    refine ⟨Nat.mod_lt _ (by omega), by omega, ?_, ?_⟩
    · rw [h.head_eq, next, Nat.mod_add_mod, List.length_cons, Nat.add_assoc, Nat.add_comm 1]
    · intro i y hy
      have hcell := h.cell (i + 1) y hy
      rwa [next, Nat.mod_add_mod, Nat.add_assoc, Nat.add_comm 1]

end Holds

end Pintos.Ring
