import Pintos.Kernel.LinkedLists

/-! `list_sort`: natural merge sort by moving nodes within one list.

Cursors are nodes at which a part of the list begins. Each function is read as one on the sequence of
elements, for every way to cut it at the cursors; moving one element in a merge is its removal and insertion. -/
namespace Pintos.Lists

open Intrusive Steps NaturalMerge

variable {ν : Type} [DecidableEq ν] {L : Links ν} {l : Ends ν} {less : ν → ν → Bool} {fuel : Nat}
variable {front seg rest p q : List ν} {a x y : ν}

/-! ### Moving one element -/

/-- Splicing one element is removing it and inserting it elsewhere. -/
theorem spliceRange_one {L₁ L₂ : Links ν} {before : ν} (hrem : L.remove y = some L₁)
    (hins : L₁.insert before y = some L₂) : spliceRange L before y y = .ok L₂ := by
  unfold Links.remove at hrem
  split at hrem
  · rename_i hp hq
    cases hrem
    unfold Links.insert at hins
    rw [Option.map_eq_some_iff] at hins
    obtain ⟨b, hb, hins⟩ := hins
    subst hins
    simp only at hb
    simp only [spliceRange, hp, hq, deref, ok_bind, hb]
    rfl
  · cases hrem

/-- The element `y` moves to the place before the part that begins with `x`. -/
theorem listSplice_one (h : IsList L l (front ++ x :: (seg ++ y :: rest))) :
    ∃ L', listSplice L x y (l.start rest) = .ok L' ∧ IsList L' l (front ++ y :: x :: (seg ++ rest)) := by
  have hy : IsList L l ((front ++ x :: seg) ++ y :: rest) := by simpa using h
  obtain ⟨L₁, hrem, -, hL₁, hnew⟩ := hy.remove
  have hL₁' : IsList L₁ l (front ++ (x :: (seg ++ rest))) := by simpa using hL₁
  have hnew' : y ∉ l.head :: (front ++ x :: (seg ++ rest) ++ [l.tail]) := by simpa using hnew
  obtain ⟨L₂, hins, -, hL₂⟩ := hL₁'.insert hnew'
  refine ⟨L₂, ?_, hL₂⟩
  have hrest : IsList L l ((front ++ x :: seg ++ [y]) ++ rest) := by simpa using h
  have hy' : IsList L l ((front ++ x :: seg) ++ y :: ([] ++ rest)) := hy
  have hne : y ≠ l.start rest := hy'.start_ne
  rw [listSplice, h.interior, if_neg hne, hrest.prev, List.getLastD_concat]
  show check (isInterior L y) >>= _ = _
  rw [hy.interior]
  exact spliceRange_one hrem hins

/-! ### Runs -/

theorem sortedLoop_run (h : IsList L l (front ++ a :: (seg ++ rest))) (hrun : IsRun less (a :: seg))
    (hfuel : seg.length < fuel) : sortedLoop L less (l.start rest) fuel a = .ok true := by
  induction fuel generalizing front a seg with
  | zero => omega
  | succ fuel ih =>
    rw [sortedLoop, h.next, ok_bind]
    cases seg with
    | nil => exact if_pos rfl
    | cons b seg =>
      obtain ⟨hab, hrun⟩ := List.isChain_cons_cons.mp hrun
      have hb : IsList L l ((front ++ [a]) ++ b :: (seg ++ rest)) := by simpa using h
      have hprev := hb.prev
      rw [start_cons, List.getLastD_concat] at hprev
      rw [List.cons_append, start_cons, if_neg hb.start_ne, hprev, ok_bind, ordered_iff.mp hab]
      exact ih hb hrun (by simpa using hfuel)

theorem isSorted_run (h : IsList L l (front ++ (seg ++ rest))) (hrun : IsRun less seg)
    (hfuel : seg.length < fuel) : isSorted L less (l.start (seg ++ rest)) (l.start rest) fuel = .ok true := by
  cases seg with
  | nil => exact if_pos rfl
  | cons a seg =>
    rw [List.cons_append, isSorted, start_cons, if_neg (IsList.start_ne h)]
    exact sortedLoop_run h hrun (by simp at hfuel; omega)

variable (less) in
theorem runLoop_run (h : IsList L l (front ++ a :: rest)) (hfuel : rest.length < fuel) :
    ∃ p q, rest = p ++ q ∧ IsRun less (a :: p) ∧ Border less (a :: p) q ∧
      runLoop L less l.tail fuel a = .ok (l.start q) := by
  induction fuel generalizing front a rest with
  | zero => omega
  | succ fuel ih =>
    rw [runLoop, h.next, ok_bind]
    cases rest with
    | nil => exact ⟨[], [], rfl, .singleton a, by simp [Border], if_pos rfl⟩
    | cons b rest =>
      have hb : IsList L l ((front ++ [a]) ++ b :: rest) := by simpa using h
      have hprev := hb.prev
      rw [start_cons, List.getLastD_concat] at hprev
      rw [start_cons, if_neg hb.ne_tail, hprev, ok_bind]
      cases hba : less b a with
      | true => exact ⟨[], b :: rest, rfl, .singleton a, by simp [Border, hba], if_pos rfl⟩
      | false =>
        obtain ⟨p, q, hrest, hrun, hborder, hloop⟩ := ih hb (by simpa using hfuel)
        refine ⟨b :: p, q, by rw [hrest, List.cons_append], ?_, ?_, ?_⟩
        · exact List.isChain_cons_cons.mpr ⟨ordered_iff.mpr hba, hrun⟩
        · simpa [Border] using hborder
        · rw [if_neg Bool.false_ne_true, hloop]

variable (less) in
theorem findEndOfRun_run (h : IsList L l (front ++ a :: rest)) (hfuel : rest.length < fuel) :
    ∃ p q, rest = p ++ q ∧ IsRun less (a :: p) ∧ Border less (a :: p) q ∧
      findEndOfRun L less a (listEnd l) fuel = .ok (l.start q) := by
  obtain ⟨p, q, hrest, hrun, hborder, hloop⟩ := runLoop_run less h hfuel
  refine ⟨p, q, hrest, hrun, hborder, ?_⟩
  rw [findEndOfRun, listEnd, decide_eq_true h.ne_tail]
  exact hloop

/-! ### Merging -/

variable (less) in
theorem mergeLoop_merge (h : IsList L l (front ++ (p ++ (q ++ rest)))) (hfuel : p.length + q.length < fuel) :
    ∃ L', mergeLoop less (l.start rest) fuel (l.start (p ++ (q ++ rest))) (l.start (q ++ rest)) L = .ok L' ∧
      IsList L' l (front ++ (p.merge q (ordered less) ++ rest)) := by
  induction fuel generalizing front p q L with
  | zero => omega
  | succ fuel ih =>
    cases p with
    | nil => exact ⟨L, if_pos (.inl rfl), by simpa using h⟩
    | cons x p =>
      cases q with
      | nil => exact ⟨L, if_pos (.inr rfl), by simpa using h⟩
      | cons y q =>
        have hx : IsList L l (front ++ x :: (p ++ y :: (q ++ rest))) := h
        have hxy : x ≠ l.start (y :: (q ++ rest)) := hx.start_ne
        have hy : IsList L l ((front ++ x :: p) ++ y :: (q ++ rest)) := by simpa using h
        have hneither : ¬(x = y ∨ y = l.start rest) := by
          intro hor
          rcases hor with hor | hor
          · exact hxy hor
          · exact hy.start_ne hor
        rw [List.cons_append, List.cons_append, start_cons, start_cons, mergeLoop, if_neg hneither,
          List.cons_merge_cons]
        cases hlt : less y x with
        | true =>
          -- `y` moves to the place before `x`
          have hafter : IsList L l ((front ++ x :: p ++ [y]) ++ (q ++ rest)) := by simpa using h
          have hprev := hafter.prev
          rw [List.getLastD_concat] at hprev
          obtain ⟨L', hsplice, hL'⟩ := listSplice_one hx
          have hL'' : IsList L' l ((front ++ [y]) ++ (x :: p ++ (q ++ rest))) := by simpa using hL'
          obtain ⟨L₁, hloop, hL₁⟩ := ih hL'' (by simp at hfuel ⊢; omega)
          refine ⟨L₁, ?_, by simpa [ordered, hlt] using hL₁⟩
          rw [if_pos rfl, hy.next, ok_bind, hprev, ok_bind, hsplice, ok_bind]
          exact hloop
        | false =>
          have hnext : IsList L l ((front ++ [x]) ++ (p ++ (y :: q ++ rest))) := by simpa using h
          obtain ⟨L₁, hloop, hL₁⟩ := ih hnext (by simp at hfuel ⊢; omega)
          refine ⟨L₁, ?_, by simpa [ordered, hlt] using hL₁⟩
          rw [if_neg Bool.false_ne_true, hx.next, ok_bind]
          exact hloop

theorem inplaceMerge_merge (h : IsList L l (front ++ (p ++ (q ++ rest)))) (hp : IsRun less p) (hq : IsRun less q)
    (hfuel : p.length + q.length < fuel) :
    ∃ L', inplaceMerge less L (l.start (p ++ (q ++ rest))) (l.start (q ++ rest)) (l.start rest) fuel = .ok L' ∧
      IsList L' l (front ++ (p.merge q (ordered less) ++ rest)) := by
  have hq' : IsList L l ((front ++ p) ++ (q ++ rest)) := by simpa using h
  obtain ⟨L', hloop, hL'⟩ := mergeLoop_merge less h hfuel
  refine ⟨L', ?_, hL'⟩
  rw [inplaceMerge, isSorted_run h hp (by omega), ok_bind]
  show (isSorted L less (l.start (q ++ rest)) (l.start rest) fuel >>= _) = _
  rw [isSorted_run hq' hq (by omega), ok_bind]
  exact hloop

/-! ### Passes -/

/-- A pass over the rest of the list, from the cursor on. -/
theorem passLoop_pass {rounds cnt : Nat} (h : IsList L l (front ++ rest)) (hrounds : rest.length < rounds)
    (hfuel : rest.length < fuel) : ∃ n rest' L',
      passLoop less l fuel rounds cnt (l.start rest) L = .ok (cnt + n, L') ∧
      IsList L' l (front ++ rest') ∧ Pass less rest n rest' := by
  induction rounds generalizing front rest cnt L with
  | zero => omega
  | succ rounds ih =>
    cases rest with
    | nil => exact ⟨0, [], L, if_pos rfl, h, .none⟩
    | cons a tl =>
      rw [List.length_cons] at hrounds hfuel
      obtain ⟨p, q, htl, hp, hborder, hend⟩ : ∃ p q, tl = p ++ q ∧ IsRun less (a :: p) ∧ Border less (a :: p) q ∧
        findEndOfRun L less a (listEnd l) fuel = .ok (l.start q) := findEndOfRun_run less h (by omega)
      subst htl
      have hne : a ≠ listEnd l := h.ne_tail
      rw [passLoop, start_cons, if_neg hne, hend, ok_bind]
      cases q with
      | nil => exact ⟨1, a :: p, L, if_pos rfl, by simpa using h, by simpa using Pass.single hp (by simp)⟩
      | cons b tl =>
        have hb : IsList L l ((front ++ a :: p) ++ b :: tl) := by simpa using h
        have hne' : b ≠ listEnd l := hb.ne_tail
        rw [List.length_append, List.length_cons] at hrounds hfuel
        obtain ⟨q, rest, htl, hq, hborder', hend'⟩ : ∃ q rest, tl = q ++ rest ∧ IsRun less (b :: q) ∧
          Border less (b :: q) rest ∧ findEndOfRun L less b (listEnd l) fuel = .ok (l.start rest) :=
            findEndOfRun_run less hb (by omega)
        subst htl
        rw [List.length_append] at hrounds hfuel
        obtain ⟨L₁, hmerge, hL₁⟩ : ∃ L₁, inplaceMerge less L a b (l.start rest) fuel = .ok L₁ ∧
            IsList L₁ l (front ++ ((a :: p).merge (b :: q) (ordered less) ++ rest)) :=
          inplaceMerge_merge h hp hq (by simp; omega)
        rw [← List.append_assoc] at hL₁
        obtain ⟨n, rest', L', hloop, hL', hpass⟩ : ∃ n rest' L',
          passLoop less l fuel rounds (cnt + 1) (l.start rest) L₁ = .ok (cnt + 1 + n, L') ∧
            IsList L' l (front ++ (a :: p).merge (b :: q) (ordered less) ++ rest') ∧ Pass less rest n rest' :=
          ih hL₁ (by omega) (by omega)
        refine ⟨n + 1, _, L', ?_, ?_, .pair hp hq (by simp) (by simp) hborder hborder' hpass⟩
        · rw [start_cons, if_neg hne', hend', ok_bind, hmerge, ok_bind, hloop, Nat.add_assoc, Nat.add_comm 1 n]
        · rwa [← List.append_assoc]

/-- The passes of `list_sort`; each leaves fewer runs than the one before it. -/
theorem sortLoop_sorts (hless : IsStrictWeakOrder ν fun a b => less a b = true) {rounds : Nat} {xs : List ν}
    (h : IsList L l xs) (hfuel : xs.length < fuel) (hrounds : runs less xs ≤ rounds) (hpos : 0 < rounds) :
    ∃ ys L', sortLoop less l fuel rounds L = .ok L' ∧ IsList L' l ys ∧ Rearranged less xs ys ∧ Sorted less ys := by
  induction rounds generalizing xs L with
  | zero => omega
  | succ rounds ih =>
    have h' : IsList L l ([] ++ xs) := h
    obtain ⟨n, ys, L', hloop, hL', hpass⟩ : ∃ n ys L',
      passLoop less l fuel fuel 0 (l.start xs) L = .ok (0 + n, L') ∧ IsList L' l ys ∧ Pass less xs n ys :=
      passLoop_pass h' hfuel hfuel
    have hmoved := hpass.rearranged hless
    have hruns := hpass.runs_le hless
    have hhalves := hpass.halves
    rw [sortLoop, h.begin, ok_bind, hloop, ok_bind, Nat.zero_add]
    by_cases hn : n > 1
    · have hlen := hmoved.perm.length_eq
      obtain ⟨zs, L₁, hrest, hL₁, hmoved', hsorted⟩ := ih hL' (by rw [hlen]; exact hfuel) (by omega) (by omega)
      exact ⟨zs, L₁, (if_pos hn).trans hrest, hL₁, hmoved.trans hmoved', hsorted⟩
    · exact ⟨ys, L', if_neg hn, hL', hmoved, sorted_of_isRun hless (isRun_of_runs (by omega))⟩

/-- `list_sort` returns without a failed assertion, and leaves the elements in a well-formed list, sorted; elements
that the order does not tell apart stand as they did. -/
theorem listSort_sorts (hless : IsStrictWeakOrder ν fun a b => less a b = true) {xs : List ν} (h : IsList L l xs)
    (hfuel : xs.length < fuel) : ∃ ys L', listSort less l fuel L = .ok L' ∧ IsList L' l ys ∧ ys.Perm xs ∧
      Sorted less ys ∧ ∀ a b, [a, b].Sublist xs → less a b = false → less b a = false → [a, b].Sublist ys := by
  have hruns : runs less xs ≤ fuel := (runs_le_length xs).trans (by omega)
  obtain ⟨ys, L', hloop, hL', hmoved, hsorted⟩ := sortLoop_sorts hless h hfuel hruns (by omega)
  have hys : IsList L' l ([] ++ (ys ++ [])) := by simpa using hL'
  have hlen := hmoved.perm.length_eq
  have hcheck := isSorted_run hys hsorted.isRun (by rw [hlen]; exact hfuel)
  rw [List.append_nil, start_nil] at hcheck
  refine ⟨ys, L', ?_, hL', hmoved.perm, hsorted, ?_⟩
  · rw [listSort, hloop, ok_bind, hL'.begin, ok_bind, listEnd, hcheck]
    rfl
  · intro a b hab _ hba
    exact hmoved.stable a b hab (ordered_iff.mpr hba)

/-- The priorities of two threads that stand in the wrong order. -/
def falling (n : Nat) : Int := 31 - n

theorem listSort_sorts_short : ∃ ys L', listSort (threadPriorityLess falling) ⟨0, 3⟩ 3 shortList = .ok L' ∧
    IsList L' ⟨0, 3⟩ ys ∧ ys.Perm [1, 2] ∧ Sorted (threadPriorityLess falling) ys ∧
    ∀ a b, [a, b].Sublist [1, 2] → threadPriorityLess falling a b = false →
      threadPriorityLess falling b a = false → [a, b].Sublist ys :=
  listSort_sorts (threadPriorityLess_order falling) shortList_isList (by decide)

end Pintos.Lists
