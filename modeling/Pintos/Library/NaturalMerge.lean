import Mathlib

/-! Natural merge sort on sequences.

A run is a stretch whose neighbours are in order. A pass merges the first run with the second, the third with the
fourth and so on, so it leaves half as many runs as it found; the sequence is sorted when a pass leaves only one.
Merging takes from the first run wherever it may, so elements that the order does not tell apart stay as
they were. -/
namespace Pintos.NaturalMerge

open List

variable {α : Type}

/-- `a` may stand before `b`. -/
def ordered (less : α → α → Bool) (a b : α) : Bool := !less b a

variable {less : α → α → Bool}

@[simp] theorem ordered_iff {a b : α} : ordered less a b = true ↔ less b a = false := by
  simp [ordered]

section
variable (hless : IsStrictWeakOrder α fun a b => less a b = true)
include hless

theorem not_less_of_less {a b : α} (h : less a b = true) : less b a = false := by
  rw [Bool.eq_false_iff]
  intro hba
  exact hless.irrefl a (hless.trans a b a h hba)

theorem ordered_total (a b : α) : (ordered less a b || ordered less b a) = true := by
  cases h : less b a with
  | false => simp [ordered, h]
  | true => simp [ordered, h, not_less_of_less hless h]

theorem ordered_trans (a b c : α) (hab : ordered less a b = true) (hbc : ordered less b c = true) :
    ordered less a c = true := by
  rw [ordered_iff] at hab hbc ⊢
  rw [Bool.eq_false_iff]
  intro hca
  -- `b` would be told apart neither from `a` nor from `c`, unless it is less than one of them
  have hnab : ¬less a b = true := by
    intro h
    exact Bool.eq_false_iff.mp hbc (hless.trans c a b hca h)
  have hnbc : ¬less b c = true := by
    intro h
    exact Bool.eq_false_iff.mp hab (hless.trans b c a h hca)
  have hinc := hless.incomp_trans a b c ⟨hnab, Bool.eq_false_iff.mp hab⟩ ⟨hnbc, Bool.eq_false_iff.mp hbc⟩
  exact hinc.2 hca

theorem less_of_less_of_ordered {a b c : α} (hab : less a b = true) (hbc : ordered less b c = true) :
    less a c = true := by
  by_contra hac
  rw [Bool.not_eq_true, ← ordered_iff] at hac
  have hba := ordered_trans hless b c a hbc hac
  rw [ordered_iff, hab] at hba
  cases hba

theorem less_of_ordered_of_less {a b c : α} (hab : ordered less a b = true) (hbc : less b c = true) :
    less a c = true := by
  by_contra hac
  rw [Bool.not_eq_true, ← ordered_iff] at hac
  have hcb := ordered_trans hless c a b hac hab
  rw [ordered_iff, hbc] at hcb
  cases hcb

end

variable (less)

/-- Neighbours are in order. -/
def IsRun (xs : List α) : Prop := xs.IsChain fun a b => ordered less a b = true

def Sorted (xs : List α) : Prop := xs.Pairwise fun a b => ordered less a b = true

/-- `ys` has the elements of `xs`, and those already in order have not changed places. -/
structure Rearranged (xs ys : List α) : Prop where
  perm : ys.Perm xs
  stable : ∀ a b, [a, b] <+ xs → ordered less a b = true → [a, b] <+ ys

/-- The number of runs. -/
def runs : List α → Nat
  | [] => 0
  | [_] => 1
  | a :: b :: xs => runs (b :: xs) + if less b a then 1 else 0

/-- Nothing of `q` could be added to a run that ends with `p`. -/
def Border (p q : List α) : Prop := ∀ a ∈ p.getLast?, ∀ b ∈ q.head?, less b a = true

/-- A pass over a sequence, the number of runs it puts out, and what it leaves. -/
inductive Pass : List α → Nat → List α → Prop
  | none : Pass [] 0 []
  | single {p} (run : IsRun less p) (nonempty : p ≠ []) : Pass p 1 p
  | pair {p q rest n rest'} (run₁ : IsRun less p) (run₂ : IsRun less q) (nonempty₁ : p ≠ []) (nonempty₂ : q ≠ [])
      (border₁ : Border less p (q ++ rest)) (border₂ : Border less q rest) (tail : Pass rest n rest') :
      Pass (p ++ (q ++ rest)) (n + 1) (p.merge q (ordered less) ++ rest')

variable {less} {xs ys zs p q : List α}

theorem sorted_of_isRun (hless : IsStrictWeakOrder α fun a b => less a b = true) (h : IsRun less xs) :
    Sorted less xs := by
  have : Trans (fun a b => ordered less a b = true) (fun a b => ordered less a b = true)
      fun a b => ordered less a b = true := ⟨fun hab hbc => ordered_trans hless _ _ _ hab hbc⟩
  exact isChain_iff_pairwise.mp h

theorem Sorted.isRun (h : Sorted less xs) : IsRun less xs := h.isChain

/-! ### Rearranging -/

theorem pair_sublist_append {a b : α} (h : [a, b] <+ xs ++ ys) :
    [a, b] <+ xs ∨ (a ∈ xs ∧ b ∈ ys) ∨ [a, b] <+ ys := by
  obtain ⟨l₁, l₂, hl, h₁, h₂⟩ := sublist_append_iff.mp h
  rcases append_eq_cons_iff.mp hl.symm with ⟨rfl, rfl⟩ | ⟨l, rfl, hl'⟩
  · exact .inr (.inr h₂)
  rcases append_eq_cons_iff.mp hl'.symm with ⟨rfl, rfl⟩ | ⟨l', rfl, hl''⟩
  · exact .inr (.inl ⟨singleton_sublist.mp h₁, singleton_sublist.mp h₂⟩)
  · grind

namespace Rearranged

theorem refl (xs : List α) : Rearranged less xs xs := ⟨.refl _, fun _ _ h _ => h⟩

theorem trans (h : Rearranged less xs ys) (h' : Rearranged less ys zs) : Rearranged less xs zs where
  perm := h'.perm.trans h.perm
  stable a b hab ho := h'.stable a b (h.stable a b hab ho) ho

theorem append (h : Rearranged less xs ys) {xs' ys' : List α} (h' : Rearranged less xs' ys') :
    Rearranged less (xs ++ xs') (ys ++ ys') where
  perm := h.perm.append h'.perm
  stable a b hab ho := by
    rcases pair_sublist_append hab with hab | ⟨ha, hb⟩ | hab
    · exact (h.stable a b hab ho).trans (sublist_append_left ys ys')
    · have ha' : a ∈ ys := h.perm.mem_iff.mpr ha
      have hb' : b ∈ ys' := h'.perm.mem_iff.mpr hb
      exact (singleton_sublist.mpr ha').append (singleton_sublist.mpr hb')
    · exact (h'.stable a b hab ho).trans (sublist_append_right ys ys')

end Rearranged

/-! ### Merging -/

theorem merge_sorted (hless : IsStrictWeakOrder α fun a b => less a b = true) (hp : Sorted less p)
    (hq : Sorted less q) : Sorted less (p.merge q (ordered less)) :=
  pairwise_merge (ordered_trans hless) (ordered_total hless) p q hp hq

theorem sublist_merge_left (p q : List α) : p <+ p.merge q (ordered less) := by
  induction p generalizing q with
  | nil => exact nil_sublist _
  | cons x p ihp =>
    induction q with
    | nil => rw [merge_right]
    | cons y q ihq =>
      rw [cons_merge_cons]
      grind

theorem sublist_merge_right (p q : List α) : q <+ p.merge q (ordered less) := by
  induction p generalizing q with
  | nil => rw [nil_merge]
  | cons x p ihp =>
    induction q with
    | nil => exact nil_sublist _
    | cons y q ihq =>
      rw [cons_merge_cons]
      grind

/-- An element of the first list stays before one of the second that it may stand before. -/
theorem merge_keeps (hless : IsStrictWeakOrder α fun a b => less a b = true) (hp : Sorted less p) {a b : α}
    (ha : a ∈ p) (hb : b ∈ q) (hab : ordered less a b = true) : [a, b] <+ p.merge q (ordered less) := by
  induction p generalizing q with
  | nil => cases ha
  | cons x p ihp =>
    obtain ⟨hx, hp'⟩ := pairwise_cons.mp hp
    induction q with
    | nil => cases hb
    | cons y q ihq =>
      rw [cons_merge_cons]
      split
      · rcases mem_cons.mp ha with rfl | ha
        · exact (singleton_sublist.mpr (mem_merge.mpr (.inr hb))).cons_cons a
        · exact (ihp hp' ha hb).cons x
      · rename_i hxy
        rcases mem_cons.mp hb with rfl | hb
        · -- what comes out first cannot be `b`: the head of the first list may stand before `a`
          exfalso
          rcases mem_cons.mp ha with rfl | ha
          · exact hxy hab
          · exact hxy (ordered_trans hless _ _ _ (hx a ha) hab)
        · exact (ihq hb).cons y

theorem merge_rearranged (hless : IsStrictWeakOrder α fun a b => less a b = true) (hp : Sorted less p)
    (q : List α) : Rearranged less (p ++ q) (p.merge q (ordered less)) where
  perm := merge_perm_append _
  stable a b hab ho := by
    rcases pair_sublist_append hab with hab | ⟨ha, hb⟩ | hab
    · exact hab.trans (sublist_merge_left p q)
    · exact merge_keeps hless hp ha hb ho
    · exact hab.trans (sublist_merge_right p q)

/-! ### Runs -/

theorem runs_cons_cons (less : α → α → Bool) (a b : α) (xs : List α) :
    runs less (a :: b :: xs) = runs less (b :: xs) + if less b a then 1 else 0 := rfl

theorem runs_le_length (xs : List α) : runs less xs ≤ xs.length := by
  induction xs with
  | nil => exact Nat.le_refl 0
  | cons a xs ih =>
    cases xs with
    | nil => exact Nat.le_refl 1
    | cons b xs =>
      rw [runs_cons_cons, length_cons]
      split <;> omega

theorem runs_of_isRun (h : IsRun less p) (hne : p ≠ []) : runs less p = 1 := by
  induction p with
  | nil => exact absurd rfl hne
  | cons a p ih =>
    cases p with
    | nil => rfl
    | cons b p =>
      obtain ⟨hab, hp⟩ := isChain_cons_cons.mp h
      rw [runs_cons_cons, ih hp (by simp), ordered_iff.mp hab]
      rfl

theorem runs_append_le (less : α → α → Bool) (xs ys : List α) :
    runs less (xs ++ ys) ≤ runs less xs + runs less ys := by
  induction xs with
  | nil => exact (Nat.zero_add _).ge
  | cons a xs ih =>
    cases xs with
    | nil =>
      cases ys with
      | nil => exact Nat.le_refl 1
      | cons b ys =>
        rw [cons_append, nil_append, runs_cons_cons]
        show _ ≤ 1 + _
        split <;> omega
    | cons b xs =>
      rw [cons_append] at ih
      rw [cons_append, cons_append, runs_cons_cons, runs_cons_cons]
      omega

theorem runs_border (h : IsRun less p) (hne : p ≠ []) (hb : Border less p q) :
    runs less (p ++ q) = runs less q + 1 := by
  induction p with
  | nil => exact absurd rfl hne
  | cons a p ih =>
    cases p with
    | nil =>
      cases q with
      | nil => rfl
      | cons b q =>
        have hlt : less b a = true := hb a (by simp) b (by simp)
        rw [cons_append, nil_append, runs_cons_cons, hlt, if_pos rfl]
    | cons b p =>
      obtain ⟨hab, hp⟩ := isChain_cons_cons.mp h
      have hrest := ih hp (by simp) (by simpa [Border] using hb)
      rw [cons_append] at hrest
      rw [cons_append, cons_append, runs_cons_cons, hrest, ordered_iff.mp hab]
      rfl

theorem runs_pos (less : α → α → Bool) (a : α) (xs : List α) : 1 ≤ runs less (a :: xs) := by
  induction xs generalizing a with
  | nil => exact Nat.le_refl 1
  | cons b xs ih =>
    rw [runs_cons_cons]
    exact (ih b).trans (Nat.le_add_right _ _)

theorem isRun_of_runs (h : runs less xs ≤ 1) : IsRun less xs := by
  induction xs with
  | nil => exact .nil
  | cons a xs ih =>
    cases xs with
    | nil => exact .singleton a
    | cons b xs =>
      have hpos := runs_pos less b xs
      rw [runs_cons_cons] at h
      have hab : less b a = false := by
        grind
      exact isChain_cons_cons.mpr ⟨ordered_iff.mpr hab, ih (by omega)⟩

/-! ### A pass -/

section
variable {n : Nat} (h : Pass less xs n ys)
include h

theorem Pass.rearranged (hless : IsStrictWeakOrder α fun a b => less a b = true) : Rearranged less xs ys := by
  induction h with
  | none => exact .refl []
  | single => exact .refl _
  | @pair p q rest _ _ run₁ _ _ _ _ _ _ ih =>
    rw [← append_assoc]
    exact (merge_rearranged hless (sorted_of_isRun hless run₁) q).append ih

/-- A pass puts out half as many runs as it takes in. -/
theorem Pass.halves : 2 * n ≤ runs less xs + 1 := by
  induction h with
  | none => exact Nat.zero_le _
  | single run nonempty => rw [runs_of_isRun run nonempty]
  | pair run₁ run₂ nonempty₁ nonempty₂ border₁ border₂ _ ih =>
    rw [runs_border run₁ nonempty₁ border₁, runs_border run₂ nonempty₂ border₂]
    omega

theorem Pass.runs_le (hless : IsStrictWeakOrder α fun a b => less a b = true) : runs less ys ≤ n := by
  induction h with
  | none => exact Nat.le_refl 0
  | single run nonempty => exact (runs_of_isRun run nonempty).le
  | @pair p q _ _ rest' run₁ run₂ nonempty₁ _ _ _ _ ih =>
    have hmerged : IsRun less (p.merge q (ordered less)) :=
      (merge_sorted hless (sorted_of_isRun hless run₁) (sorted_of_isRun hless run₂)).isRun
    have hne : p.merge q (ordered less) ≠ [] := by
      intro hnil
      have hperm : (p.merge q (ordered less)).Perm (p ++ q) := merge_perm_append (ordered less)
      have hlen := hperm.length_eq
      rw [hnil, length_append, length_nil] at hlen
      exact nonempty₁ (eq_nil_of_length_eq_zero (by omega))
    have happ := runs_append_le less (p.merge q (ordered less)) rest'
    rw [runs_of_isRun hmerged hne] at happ
    omega

end

end Pintos.NaturalMerge
