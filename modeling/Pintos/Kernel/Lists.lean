import Mathlib

/-! The kernel's lists (`lib/kernel/list.c`), as the sequence of their elements.

Only the functions that order elements are here. Both take the comparison as an argument, as
the source does, and the schedulers' comparisons all compare an integer of the element. -/
namespace Pintos.Kernel

variable {α : Type}

/-- `list_max`: the first element that no later one exceeds. -/
def listMax (less : α → α → Bool) : List α → Option α
  | [] => none
  | x :: xs => some (xs.foldl (fun max e => if less max e then e else max) x)

/-- `list_insert_ordered`: just before the first element that `x` is less than. -/
def listInsertOrdered (less : α → α → Bool) (x : α) : List α → List α
  | [] => [x]
  | e :: rest => if less x e then x :: e :: rest else e :: listInsertOrdered less x rest

/-- Comparison by an integer. -/
def byKey (key : α → Int) (a b : α) : Bool := key a < key b

section
variable {less : α → α → Bool} {l : List α} {m x : α} {key : α → Int}

theorem listMax_eq_none : listMax less l = none ↔ l = [] := by
  cases l <;> simp [listMax]

theorem foldl_max_mem (xs : List α) (x : α) :
    xs.foldl (fun max e => if less max e then e else max) x ∈ x :: xs := by
  induction xs generalizing x with
  | nil => simp
  | cons y xs ih =>
    grind

theorem mem_of_listMax (h : listMax less l = some m) : m ∈ l := by
  cases l with
  | nil => cases h
  | cons x xs =>
    cases h
    exact foldl_max_mem xs x

theorem le_foldl_max (xs : List α) (x : α) :
    ∀ e ∈ x :: xs, key e ≤ key (xs.foldl (fun max e => if byKey key max e then e else max) x) := by
  induction xs generalizing x with
  | nil => simp
  | cons y xs ih =>
    rw [List.foldl_cons]
    have hmax := ih (if byKey key x y then y else x)
    have hstep : key x ≤ key (if byKey key x y then y else x) ∧ key y ≤ key (if byKey key x y then y else x) := by
      unfold byKey
      grind
    grind

theorem le_listMax (h : listMax (byKey key) l = some m) : ∀ e ∈ l, key e ≤ key m := by
  cases l with
  | nil => cases h
  | cons x xs =>
    cases h
    exact le_foldl_max xs x

theorem perm_listInsertOrdered (x : α) (l : List α) : (listInsertOrdered less x l).Perm (x :: l) := by
  induction l with
  | nil => exact .refl _
  | cons e rest ih =>
    unfold listInsertOrdered
    split
    · exact .refl _
    · exact (ih.cons e).trans (.swap x e rest)

theorem mem_listInsertOrdered {e : α} : e ∈ listInsertOrdered less x l ↔ e = x ∨ e ∈ l := by
  rw [(perm_listInsertOrdered x l).mem_iff, List.mem_cons]

theorem sorted_listInsertOrdered (h : l.Pairwise (fun a b => key a ≤ key b)) :
    (listInsertOrdered (byKey key) x l).Pairwise (fun a b => key a ≤ key b) := by
  induction l with
  | nil => exact List.pairwise_singleton _ x
  | cons e rest ih =>
    obtain ⟨he, hrest⟩ := List.pairwise_cons.mp h
    unfold listInsertOrdered
    split
    · rename_i hx
      have hx : key x < key e := by simpa [byKey] using hx
      apply List.pairwise_cons.mpr
      grind
    · rename_i hx
      have hx : key e ≤ key x := by simpa [byKey] using hx
      apply List.pairwise_cons.mpr
      refine ⟨?_, ih hrest⟩
      intro y hy
      rcases mem_listInsertOrdered.mp hy with rfl | hy
      · exact hx
      · exact he y hy

/-- In a sorted list the elements up to a bound are those at its head. -/
theorem mem_takeWhile_of_sorted {b : Int} (h : l.Pairwise (fun a b => key a ≤ key b)) :
    x ∈ l.takeWhile (fun a => key a ≤ b) ↔ x ∈ l ∧ key x ≤ b := by
  induction l with
  | nil => simp
  | cons e rest ih =>
    obtain ⟨he, hrest⟩ := List.pairwise_cons.mp h
    by_cases hb : key e ≤ b
    · rw [List.takeWhile_cons_of_pos (by simpa using hb), List.mem_cons, List.mem_cons, ih hrest]
      grind
    · rw [List.takeWhile_cons_of_neg (by simpa using hb)]
      grind

end

end Pintos.Kernel
