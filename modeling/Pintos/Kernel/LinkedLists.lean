import Pintos.Kernel.Lists
import Pintos.Library.Links
import Pintos.Library.NaturalMerge
import Pintos.Library.Steps

/-! The kernel's lists (`lib/kernel/list.c`), as nodes with links.

A list has two nodes of its own, before its first and after its last element. The functions follow links and check
them with assertions; what a function would do with a null pointer is the fault `.null`, and a loop that has not
come to its end after `fuel` rounds is the fault `.forever`. On a list that is well formed they are functions
of the sequence of its elements. -/
namespace Pintos.Lists

open Intrusive Steps NaturalMerge

inductive Fault where
  | assert
  | null
  | forever
deriving Repr, DecidableEq

/-- `struct list`: the nodes `head` and `tail`. -/
structure Ends (ν : Type) where
  head : ν
  tail : ν

variable {ν : Type} [DecidableEq ν]

section
omit [DecidableEq ν]

/-- A pointer that is followed. -/
def deref : Option ν → Except Fault ν
  | some e => .ok e
  | none => .error .null

def check (cond : Bool) : Except Fault Unit := if cond then .ok () else .error .assert

variable (L : Links ν)

def isHead (e : ν) : Bool := (L.prev e).isNone && (L.next e).isSome
def isInterior (e : ν) : Bool := (L.prev e).isSome && (L.next e).isSome
def isTail (e : ν) : Bool := (L.prev e).isSome && (L.next e).isNone

def listBegin (l : Ends ν) : Except Fault ν := deref (L.next l.head)

def listEnd (l : Ends ν) : ν := l.tail

def listNext (e : ν) : Except Fault ν := do
  check (isHead L e || isInterior L e)
  deref (L.next e)

def listPrev (e : ν) : Except Fault ν := do
  check (isInterior L e || isTail L e)
  deref (L.prev e)

end

section
variable (L : Links ν) (less : ν → ν → Bool)

/-- The links after a function of `Links`, which fails where it would follow a null pointer. -/
def stored : Option (Links ν) → Except Fault (Links ν)
  | some L => .ok L
  | none => .error .null

def listInsert (before elem : ν) : Except Fault (Links ν) := do
  check (isInterior L before || isTail L before)
  stored (L.insert before elem)

/-- The element that followed, and the links. -/
def listRemove (elem : ν) : Except Fault (ν × Links ν) := do
  check (isInterior L elem)
  let L' ← stored (L.remove elem)
  return (← deref (L'.next elem), L')

/-! ### Ordered lists -/

/-- The loop of `list_insert_ordered`. -/
def orderedLoop (l : Ends ν) (elem : ν) : Nat → ν → Except Fault ν
  | 0, _ => .error .forever
  | fuel + 1, e =>
    if e = listEnd l then .ok e
    else if less elem e then .ok e
    else do orderedLoop l elem fuel (← listNext L e)

def listInsertOrdered (l : Ends ν) (elem : ν) (fuel : Nat) : Except Fault (Links ν) := do
  let e ← orderedLoop L less l elem fuel (← listBegin L l)
  listInsert L e elem

/-- The loop of `list_max`. -/
def maxLoop (l : Ends ν) : Nat → ν → ν → Except Fault ν
  | 0, _, _ => .error .forever
  | fuel + 1, max, e =>
    if e = listEnd l then .ok max
    else do maxLoop l fuel (if less max e then e else max) (← listNext L e)

def listMax (l : Ends ν) (fuel : Nat) : Except Fault ν := do
  let max ← listBegin L l
  if max ≠ listEnd l then maxLoop L less l fuel max (← listNext L max) else return max

/-! ### Sorting -/

/-- `list_splice` of the elements from `first` to `last`, both in the list; `q` is the one after `last`. -/
def spliceRange (before first last : ν) : Except Fault (Links ν) := do
  let p ← deref (L.prev first)
  let q ← deref (L.next last)
  let L : Links ν := ⟨Function.update L.next p (some q), L.prev⟩
  let L : Links ν := ⟨L.next, Function.update L.prev q (some p)⟩
  let b ← deref (L.prev before)
  let L : Links ν := ⟨L.next, Function.update L.prev first (some b)⟩
  let L : Links ν := ⟨Function.update L.next last (some before), L.prev⟩
  let L : Links ν := ⟨Function.update L.next b (some first), L.prev⟩
  return ⟨L.next, Function.update L.prev before (some last)⟩

def listSplice (before first last : ν) : Except Fault (Links ν) := do
  check (isInterior L before || isTail L before)
  if first = last then return L
  else do
    let last ← listPrev L last
    check (isInterior L first)
    check (isInterior L last)
    spliceRange L before first last

/-- The loop of `is_sorted`, from the element `a` on. -/
def sortedLoop (b : ν) : Nat → ν → Except Fault Bool
  | 0, _ => .error .forever
  | fuel + 1, a => do
    let a ← listNext L a
    if a = b then return true
    else if less a (← listPrev L a) then return false
    else sortedLoop b fuel a

def isSorted (a b : ν) (fuel : Nat) : Except Fault Bool := if a = b then .ok true else sortedLoop L less b fuel a

/-- The loop of `find_end_of_run`. -/
def runLoop (b : ν) : Nat → ν → Except Fault ν
  | 0, _ => .error .forever
  | fuel + 1, a => do
    let a ← listNext L a
    if a = b then return a
    else if less a (← listPrev L a) then return a
    else runLoop b fuel a

def findEndOfRun (a b : ν) (fuel : Nat) : Except Fault ν := do
  check (a ≠ b)
  runLoop L less b fuel a

end

section
variable (less : ν → ν → Bool)

/-- The loop of `inplace_merge`. -/
def mergeLoop (b1 : ν) : Nat → ν → ν → Links ν → Except Fault (Links ν)
  | 0, _, _, _ => .error .forever
  | fuel + 1, a0, a1b0, L =>
    if a0 = a1b0 ∨ a1b0 = b1 then .ok L
    else if less a1b0 a0 then do
      let a1b0 ← listNext L a1b0
      let L ← listSplice L a0 (← listPrev L a1b0) a1b0
      mergeLoop b1 fuel a0 a1b0 L
    else do mergeLoop b1 fuel (← listNext L a0) a1b0 L

def inplaceMerge (L : Links ν) (a0 a1b0 b1 : ν) (fuel : Nat) : Except Fault (Links ν) := do
  check (← isSorted L less a0 a1b0 fuel)
  check (← isSorted L less a1b0 b1 fuel)
  mergeLoop less b1 fuel a0 a1b0 L

/-- One pass over the list: the number of runs it leaves, and the links. `fuel` bounds the rounds here and in the
functions that it calls. -/
def passLoop (l : Ends ν) (fuel : Nat) : Nat → Nat → ν → Links ν → Except Fault (Nat × Links ν)
  | 0, _, _, _ => .error .forever
  | rounds + 1, outputRunCnt, a0, L =>
    if a0 = listEnd l then .ok (outputRunCnt, L)
    else do
      let a1b0 ← findEndOfRun L less a0 (listEnd l) fuel
      if a1b0 = listEnd l then return (outputRunCnt + 1, L)
      else do
        let b1 ← findEndOfRun L less a1b0 (listEnd l) fuel
        let L ← inplaceMerge less L a0 a1b0 b1 fuel
        passLoop l fuel rounds (outputRunCnt + 1) b1 L

/-- The passes of `list_sort`. -/
def sortLoop (l : Ends ν) (fuel : Nat) : Nat → Links ν → Except Fault (Links ν)
  | 0, _ => .error .forever
  | rounds + 1, L => do
    let (outputRunCnt, L) ← passLoop less l fuel fuel 0 (← listBegin L l) L
    if outputRunCnt > 1 then sortLoop l fuel rounds L else return L

def listSort (l : Ends ν) (fuel : Nat) (L : Links ν) : Except Fault (Links ν) := do
  let L ← sortLoop less l fuel fuel L
  check (← isSorted L less (← listBegin L l) (listEnd l) fuel)
  return L

end

/-! ### Threads -/

/-- `thread_priority_less_function`. -/
def threadPriorityLess (effectivePriority : ν → Int) (a b : ν) : Bool :=
  effectivePriority a < effectivePriority b

def getAndRemoveNextThread (effectivePriority : ν → Int) (L : Links ν) (l : Ends ν) (fuel : Nat) :
    Except Fault (ν × Links ν) := do
  let e ← listMax L (threadPriorityLess effectivePriority) l fuel
  let (_, L) ← listRemove L e
  return (e, L)

/-! ### Well-formed lists -/

/-- The list of `l` has the elements `xs`. -/
structure IsList (L : Links ν) (l : Ends ν) (xs : List ν) : Prop where
  linked : L.Linked (l.head :: (xs ++ [l.tail]))
  nodup : (l.head :: (xs ++ [l.tail])).Nodup
  first : L.prev l.head = none
  last : L.next l.tail = none

/-- Where the elements `back` begin, if they are the last ones of the list. -/
def Ends.start (l : Ends ν) (back : List ν) : ν := back.headD l.tail

section
omit [DecidableEq ν]
variable {L : Links ν} {l : Ends ν} {xs front back seg : List ν} {e : ν}

@[simp] theorem start_nil : l.start [] = l.tail := rfl

@[simp] theorem start_cons : l.start (e :: back) = e := rfl

theorem rest_eq (l : Ends ν) (back : List ν) : back ++ [l.tail] = l.start back :: (back ++ [l.tail]).tail := by
  cases back <;> rfl

/-- The nodes of a list, cut between two elements. -/
theorem nodes_split (l : Ends ν) (front back : List ν) :
    l.head :: (front ++ back ++ [l.tail]) =
      (l.head :: front).dropLast ++ front.getLastD l.head :: l.start back :: (back ++ [l.tail]).tail := by
  have hfront : l.head :: front = (l.head :: front).dropLast ++ [front.getLastD l.head] := by
    rw [← List.getLast_eq_getLastD (List.cons_ne_nil _ _), List.dropLast_append_getLast (List.cons_ne_nil _ _)]
  calc l.head :: (front ++ back ++ [l.tail])
      = (l.head :: front) ++ (back ++ [l.tail]) := by simp
    _ = ((l.head :: front).dropLast ++ [front.getLastD l.head]) ++ (l.start back :: (back ++ [l.tail]).tail) := by
      rw [← hfront, ← rest_eq]
    _ = _ := by simp

namespace IsList

theorem joins (h : IsList L l (front ++ back)) : L.Joins (front.getLastD l.head) (l.start back) := by
  have hlinked := h.linked
  rw [nodes_split] at hlinked
  exact (linked_cons.mp (linked_append.mp hlinked).2).1

theorem next_eq (h : IsList L l (front ++ e :: back)) : L.next e = some (l.start back) := by
  rw [List.append_cons] at h
  have hjoins := h.joins.1
  rwa [List.getLastD_concat] at hjoins

theorem prev_eq (h : IsList L l (front ++ back)) : L.prev (l.start back) = some (front.getLastD l.head) :=
  h.joins.2

theorem interior (h : IsList L l (front ++ e :: back)) : isInterior L e = true := by
  have hprev := h.prev_eq
  rw [start_cons] at hprev
  rw [isInterior, hprev, h.next_eq]
  rfl

theorem start_interior_or_tail (h : IsList L l (front ++ back)) :
    (isInterior L (l.start back) || isTail L (l.start back)) = true := by
  cases back with
  | nil =>
    rw [isTail, h.prev_eq, start_nil, h.last]
    exact Bool.or_true _
  | cons e back => rw [start_cons, h.interior, Bool.true_or]

theorem begin (h : IsList L l xs) : listBegin L l = .ok (l.start xs) := by
  have h' : IsList L l ([] ++ xs) := h
  have hjoins : L.next l.head = some (l.start xs) := h'.joins.1
  rw [listBegin, hjoins]
  rfl

theorem next (h : IsList L l (front ++ e :: back)) : listNext L e = .ok (l.start back) := by
  rw [listNext, h.interior, Bool.or_true, h.next_eq]
  rfl

theorem prev (h : IsList L l (front ++ back)) : listPrev L (l.start back) = .ok (front.getLastD l.head) := by
  rw [listPrev, h.start_interior_or_tail, h.prev_eq]
  rfl

/-- The cursor has come to `back` exactly when nothing lies in between. -/
theorem start_ne (h : IsList L l (front ++ e :: (seg ++ back))) : e ≠ l.start back := by
  have hnodup := (List.nodup_cons.mp h.nodup).2
  rw [List.append_assoc, List.nodup_append', List.cons_append, List.nodup_cons] at hnodup
  intro he
  apply hnodup.2.1.1
  rw [he]
  cases back <;> simp

theorem ne_tail (h : IsList L l (front ++ e :: back)) : e ≠ l.tail := by
  have h' : IsList L l (front ++ e :: (back ++ [])) := by rwa [List.append_nil]
  exact h'.start_ne

theorem head_ne_start (h : IsList L l (front ++ back)) : l.head ≠ l.start back := by
  have hnot := (List.nodup_cons.mp h.nodup).1
  intro he
  apply hnot
  rw [List.append_assoc, rest_eq, ← he]
  simp

theorem last_ne_tail (h : IsList L l (front ++ back)) : front.getLastD l.head ≠ l.tail := by
  intro he
  have hjoins := h.joins.1
  rw [he, h.last] at hjoins
  cases hjoins

end IsList

end

section
variable {L : Links ν} {l : Ends ν} {xs front back : List ν} {e elem : ν}

/-- Insertion of a new element, at any place. -/
theorem IsList.insert (h : IsList L l (front ++ back)) (hnew : elem ∉ l.head :: (front ++ back ++ [l.tail])) :
    ∃ L', L.insert (l.start back) elem = some L' ∧ listInsert L (l.start back) elem = .ok L' ∧
      IsList L' l (front ++ elem :: back) := by
  have hlinked := h.linked
  have hnodup := h.nodup
  have hnew' := hnew
  rw [nodes_split] at hlinked hnodup hnew'
  obtain ⟨L', hins, hL'⟩ := insert_linked hlinked hnodup hnew'
  have hnodes : (l.head :: (front ++ elem :: back ++ [l.tail])).Perm
      (elem :: l.head :: (front ++ back ++ [l.tail])) := by
    rw [List.append_assoc, List.append_assoc, List.cons_append]
    exact (List.perm_middle.cons l.head).trans (.swap elem l.head _)
  have hother := insert_other hins h.prev_eq (y := l.head) (fun he => hnew (by simp [← he]))
  have hother' := insert_other hins h.prev_eq (y := l.tail) (fun he => hnew (by simp [← he]))
  refine ⟨L', hins, ?_, ?_, ?_, ?_, ?_⟩
  · rw [listInsert, h.start_interior_or_tail, hins]
    rfl
  · rw [nodes_split, start_cons, List.cons_append, List.tail_cons, rest_eq]
    exact hL'
  · exact hnodes.nodup_iff.mpr (List.nodup_cons.mpr ⟨hnew, h.nodup⟩)
  · rw [hother.2 h.head_ne_start, h.first]
  · rw [hother'.1 h.last_ne_tail.symm, h.last]

/-- Removal of an element, which is then new to the list. -/
theorem IsList.remove (h : IsList L l (front ++ e :: back)) :
    ∃ L', L.remove e = some L' ∧ listRemove L e = .ok (l.start back, L') ∧ IsList L' l (front ++ back) ∧
      e ∉ l.head :: (front ++ back ++ [l.tail]) := by
  have hlinked := h.linked
  have hnodup := h.nodup
  rw [nodes_split, start_cons, List.cons_append, List.tail_cons, rest_eq] at hlinked hnodup
  obtain ⟨L', hrem, hL'⟩ := remove_linked hlinked hnodup
  have hprev := h.prev_eq
  rw [start_cons] at hprev
  have hnodes : (l.head :: (front ++ e :: back ++ [l.tail])).Perm
      (e :: l.head :: (front ++ back ++ [l.tail])) := by
    rw [List.append_assoc, List.append_assoc, List.cons_append]
    exact (List.perm_middle.cons l.head).trans (.swap e l.head _)
  have hparts := List.nodup_cons.mp (hnodes.nodup_iff.mp h.nodup)
  have hnext : L'.next e = some (l.start back) := by
    have hne : e ≠ front.getLastD l.head := by
      intro he
      apply hparts.1
      rw [nodes_split, ← he]
      simp
    rw [(remove_other hrem hprev h.next_eq).1 hne, h.next_eq]
  have h' : IsList L l ((front ++ [e]) ++ back) := by rwa [← List.append_cons]
  refine ⟨L', hrem, ?_, ⟨?_, hparts.2, ?_, ?_⟩, hparts.1⟩
  · rw [listRemove, h.interior, hrem]
    show (deref (L'.next e) >>= fun q => pure (q, L')) = _
    rw [hnext]
    rfl
  · rw [nodes_split]
    exact hL'
  · rw [(remove_other hrem hprev h.next_eq).2 h'.head_ne_start, h.first]
  · rw [(remove_other hrem hprev h.next_eq).1 h.last_ne_tail.symm, h.last]

end

/-! ### Ordered lists, as sequences -/

section
variable {L : Links ν} {l : Ends ν} {xs front back : List ν} {elem max : ν} {less : ν → ν → Bool} {fuel : Nat}

theorem orderedLoop_eq (h : IsList L l (front ++ back)) (hfuel : back.length < fuel) :
    orderedLoop L less l elem fuel (l.start back) = .ok (l.start (back.dropWhile fun e => !less elem e)) := by
  induction fuel generalizing front back with
  | zero => omega
  | succ fuel ih =>
    cases back with
    | nil => rw [orderedLoop, listEnd, start_nil, if_pos rfl, List.dropWhile_nil, start_nil]
    | cons e back =>
      rw [orderedLoop, listEnd, start_cons, if_neg h.ne_tail, List.dropWhile_cons]
      split
      · rename_i hless
        rw [hless]
        rfl
      · rename_i hless
        rw [h.next, ok_bind, Bool.not_eq_true _ |>.mp hless]
        rw [List.append_cons] at h
        exact ih h (by simpa using hfuel)

theorem maxLoop_eq (h : IsList L l (front ++ back)) (hfuel : back.length < fuel) :
    maxLoop L less l fuel max (l.start back) =
      .ok (back.foldl (fun max e => if less max e then e else max) max) := by
  induction fuel generalizing front back max with
  | zero => omega
  | succ fuel ih =>
    cases back with
    | nil => rw [maxLoop, listEnd, start_nil, if_pos rfl, List.foldl_nil]
    | cons e back =>
      rw [maxLoop, listEnd, start_cons, if_neg h.ne_tail, h.next, ok_bind, List.foldl_cons]
      rw [List.append_cons] at h
      exact ih h (by simpa using hfuel)

theorem listMax_nil (h : IsList L l []) : listMax L less l fuel = .ok l.tail := by
  rw [listMax, h.begin, ok_bind, start_nil]
  exact if_neg (not_not_intro rfl)

/-- `list_max` gives what it gives on the sequence of the elements. -/
theorem listMax_eq (h : IsList L l xs) (hfuel : xs.length < fuel) {m : ν} (hm : Kernel.listMax less xs = some m) :
    listMax L less l fuel = .ok m := by
  cases xs with
  | nil => cases hm
  | cons x xs =>
    have hx : IsList L l ([] ++ x :: xs) := h
    rw [listMax, listEnd, h.begin, ok_bind, start_cons, if_pos hx.ne_tail, hx.next, ok_bind]
    have hx' : IsList L l ([x] ++ xs) := h
    rw [maxLoop_eq hx' (by rw [List.length_cons] at hfuel; omega)]
    exact congrArg _ (Option.some.inj hm)

variable (hless : IsStrictWeakOrder ν fun a b => less a b = true)
include hless

omit [DecidableEq ν] in
theorem foldl_max_first (xs : List ν) (x : ν) : ∃ m front back,
    xs.foldl (fun max e => if less max e then e else max) x = m ∧ x :: xs = front ++ m :: back ∧
      (∀ a ∈ x :: xs, less m a = false) ∧ ∀ a ∈ front, less a m = true := by
  induction xs generalizing x with
  | nil =>
    refine ⟨x, [], [], rfl, rfl, ?_, by simp⟩
    intro a ha
    rw [List.mem_singleton.mp ha]
    exact Bool.eq_false_iff.mpr (hless.irrefl x)
  | cons y xs ih =>
    rw [List.foldl_cons]
    by_cases hxy : less x y = true
    · rw [if_pos hxy]
      obtain ⟨m, front, back, hm, hsplit, hmax, hfirst⟩ := ih y
      -- `y` exceeds `x`, so what is at least `y` does too
      have hym : ordered less y m = true := ordered_iff.mpr (hmax y List.mem_cons_self)
      have hxm : less x m = true := less_of_less_of_ordered hless hxy hym
      refine ⟨m, x :: front, back, hm, by rw [hsplit, List.cons_append], ?_, ?_⟩
      · intro a ha
        rcases List.mem_cons.mp ha with rfl | ha
        · exact not_less_of_less hless hxm
        · exact hmax a ha
      · grind
    · rw [if_neg hxy]
      obtain ⟨m, front, back, hm, hsplit, hmax, hfirst⟩ := ih x
      have hyx : ordered less y x = true := ordered_iff.mpr (Bool.eq_false_iff.mpr hxy)
      have hym : ordered less y m = true :=
        ordered_trans hless y x m hyx (ordered_iff.mpr (hmax x List.mem_cons_self))
      have hmax' : ∀ a ∈ x :: y :: xs, less m a = false := by
        intro a ha
        rcases List.mem_cons.mp ha with rfl | ha
        · exact hmax a List.mem_cons_self
        rcases List.mem_cons.mp ha with rfl | ha
        · exact ordered_iff.mp hym
        · exact hmax a (List.mem_cons_of_mem x ha)
      cases front with
      | nil =>
        obtain ⟨rfl, -⟩ := List.cons.inj hsplit
        exact ⟨x, [], y :: xs, hm, rfl, hmax', by simp⟩
      | cons z front =>
        rw [List.cons_append] at hsplit
        obtain ⟨rfl, rfl⟩ := List.cons.inj hsplit
        refine ⟨m, x :: y :: front, back, hm, rfl, hmax', ?_⟩
        intro a ha
        rcases List.mem_cons.mp ha with rfl | ha
        · exact hfirst a List.mem_cons_self
        rcases List.mem_cons.mp ha with rfl | ha
        · exact less_of_ordered_of_less hless hyx (hfirst x List.mem_cons_self)
        · exact hfirst a (List.mem_cons_of_mem x ha)

omit [DecidableEq ν] in
/-- The maximum of a list is the first element that no other exceeds. -/
theorem listMax_first (hne : xs ≠ []) : ∃ m front back, Kernel.listMax less xs = some m ∧ xs = front ++ m :: back ∧
    (∀ a ∈ xs, less m a = false) ∧ ∀ a ∈ front, less a m = true := by
  cases xs with
  | nil => exact absurd rfl hne
  | cons x xs =>
    obtain ⟨m, front, back, hm, hrest⟩ := foldl_max_first hless xs x
    exact ⟨m, front, back, congrArg some hm, hrest⟩

omit [DecidableEq ν] in
/-- In a sorted list, the elements that `elem` is not less than are those before the first that it is less than. -/
theorem mem_takeWhile_iff (hs : Sorted less xs) {a : ν} (ha : a ∈ xs) :
    a ∈ xs.takeWhile (fun e => !less elem e) ↔ less elem a = false := by
  induction xs with
  | nil => cases ha
  | cons e xs ih =>
    obtain ⟨he, hs⟩ := List.pairwise_cons.mp hs
    cases hless' : less elem e with
    | true =>
      rw [List.takeWhile_cons_of_neg (by simp [hless'])]
      have hgreater : less elem a = true := by
        rcases List.mem_cons.mp ha with rfl | ha
        · exact hless'
        · exact less_of_less_of_ordered hless hless' (he a ha)
      simp [hgreater]
    | false =>
      rw [List.takeWhile_cons_of_pos (by simp [hless']), List.mem_cons]
      rcases List.mem_cons.mp ha with rfl | ha
      · simp [hless']
      · rw [ih hs ha]
        grind

omit [DecidableEq ν] in
theorem sorted_insert (hs : Sorted less (front ++ back)) (hfront : ∀ a ∈ front, less elem a = false)
    (hback : ∀ a ∈ back, less elem a = true) : Sorted less (front ++ elem :: back) := by
  obtain ⟨hf, hb, hfb⟩ := List.pairwise_append.mp hs
  refine List.pairwise_append.mpr ⟨hf, List.pairwise_cons.mpr ⟨?_, hb⟩, ?_⟩
  · intro a ha
    exact ordered_iff.mpr (not_less_of_less hless (hback a ha))
  · intro a ha b hb
    rcases List.mem_cons.mp hb with rfl | hb
    · exact ordered_iff.mpr (hfront a ha)
    · exact hfb a ha b hb

/-- Insertion into a sorted list. -/
theorem listInsertOrdered_spec (h : IsList L l xs) (hnew : elem ∉ l.head :: (xs ++ [l.tail])) (hs : Sorted less xs)
    (hfuel : xs.length < fuel) : ∃ L' front back,
      listInsertOrdered L less l elem fuel = .ok L' ∧ xs = front ++ back ∧ IsList L' l (front ++ elem :: back) ∧
      Sorted less (front ++ elem :: back) ∧
      ∀ a ∈ xs, a ∈ front ↔ less elem a = false := by
  have h' : IsList L l ([] ++ xs) := h
  have hloop : orderedLoop L less l elem fuel (l.start xs) = .ok (l.start (xs.dropWhile fun e => !less elem e)) :=
    orderedLoop_eq h' hfuel
  have hplace : ∀ a ∈ xs, a ∈ xs.takeWhile (fun e => !less elem e) ↔ less elem a = false :=
    fun a ha => mem_takeWhile_iff hless hs ha
  obtain ⟨front, back, hfront, hback, rfl⟩ : ∃ front back, front = xs.takeWhile (fun e => !less elem e) ∧
      back = xs.dropWhile (fun e => !less elem e) ∧ xs = front ++ back :=
    ⟨_, _, rfl, rfl, (List.takeWhile_append_dropWhile).symm⟩
  rw [← hback] at hloop
  rw [← hfront] at hplace
  obtain ⟨L', -, hins, hL'⟩ := h.insert hnew
  refine ⟨L', front, back, ?_, rfl, hL', ?_, hplace⟩
  · rw [listInsertOrdered, h.begin, ok_bind, hloop, ok_bind, hins]
  · apply sorted_insert hless hs
    · grind
    · intro a ha
      by_contra hnot
      rw [Bool.not_eq_true] at hnot
      have hdup := (List.nodup_append.mp (List.nodup_cons.mp h.nodup).2).1
      exact List.disjoint_of_nodup_append hdup ((hplace a (List.mem_append_right front ha)).mpr hnot) ha

end

section
variable {L : Links ν} {l : Ends ν} {xs : List ν} {fuel : Nat}

omit [DecidableEq ν] in
theorem threadPriorityLess_order (effectivePriority : ν → Int) :
    IsStrictWeakOrder ν fun a b => threadPriorityLess effectivePriority a b = true where
  irrefl a := by simp [threadPriorityLess]
  trans a b c := by
    simp only [threadPriorityLess, decide_eq_true_eq]
    exact lt_trans
  incomp_trans a b c := by
    simp only [threadPriorityLess, decide_eq_true_eq]
    omega

/-- `get_and_remove_next_thread` takes out the first thread of the highest priority. -/
theorem getAndRemoveNextThread_spec (effectivePriority : ν → Int) (h : IsList L l xs) (hne : xs ≠ [])
    (hfuel : xs.length < fuel) : ∃ t L' front back,
      getAndRemoveNextThread effectivePriority L l fuel = .ok (t, L') ∧ xs = front ++ t :: back ∧
      IsList L' l (front ++ back) ∧ (∀ a ∈ xs, effectivePriority a ≤ effectivePriority t) ∧
      ∀ a ∈ front, effectivePriority a < effectivePriority t := by
  obtain ⟨t, front, back, ht, hsplit, hmax, hfirst⟩ :=
    listMax_first (threadPriorityLess_order effectivePriority) hne
  have hfound := listMax_eq h hfuel ht
  subst hsplit
  obtain ⟨L', -, hremove, hL', -⟩ := h.remove
  refine ⟨t, L', front, back, ?_, rfl, hL', ?_, ?_⟩
  · rw [getAndRemoveNextThread, hfound, ok_bind, hremove]
    rfl
  · intro a ha
    simpa [threadPriorityLess] using hmax a ha
  · intro a ha
    simpa [threadPriorityLess] using hfirst a ha

/-- The functions that order elements, on every well-formed list: insertion keeps a sorted list sorted and puts the
new element after those that it is not less than, the maximum is the first element that no other exceeds, and
the next thread is the first one of the highest priority. -/
theorem ordering_functions (less : ν → ν → Bool) (hless : IsStrictWeakOrder ν fun a b => less a b = true)
    (h : IsList L l xs) (hfuel : xs.length < fuel) :
    (∀ elem ∉ l.head :: (xs ++ [l.tail]), Sorted less xs → ∃ L' front back,
      listInsertOrdered L less l elem fuel = .ok L' ∧ xs = front ++ back ∧ IsList L' l (front ++ elem :: back) ∧
        Sorted less (front ++ elem :: back) ∧ ∀ a ∈ xs, a ∈ front ↔ less elem a = false) ∧
    (xs = [] → listMax L less l fuel = .ok l.tail) ∧
    (xs ≠ [] → ∃ m front back, listMax L less l fuel = .ok m ∧ xs = front ++ m :: back ∧
      (∀ a ∈ xs, less m a = false) ∧ ∀ a ∈ front, less a m = true) ∧
    ∀ effectivePriority, xs ≠ [] → ∃ t L' front back,
      getAndRemoveNextThread effectivePriority L l fuel = .ok (t, L') ∧ xs = front ++ t :: back ∧
        IsList L' l (front ++ back) ∧ (∀ a ∈ xs, effectivePriority a ≤ effectivePriority t) ∧
        ∀ a ∈ front, effectivePriority a < effectivePriority t := by
  refine ⟨?_, ?_, ?_, ?_⟩
  · intro elem hnew hs
    exact listInsertOrdered_spec hless h hnew hs hfuel
  · intro hnil
    subst hnil
    exact listMax_nil h
  · intro hne
    obtain ⟨m, front, back, hm, hrest⟩ := listMax_first hless hne
    exact ⟨m, front, back, listMax_eq h hfuel hm, hrest⟩
  · intro effectivePriority hne
    exact getAndRemoveNextThread_spec effectivePriority h hne hfuel

/-- The nodes 1 and 2 between the ends 0 and 3. -/
def shortList : Links Nat where
  next n := if n < 3 then some (n + 1) else none
  prev n := if n = 0 then none else some (n - 1)

theorem shortList_isList : IsList shortList ⟨0, 3⟩ [1, 2] where
  linked := by simp [Links.Linked, Links.Joins, shortList]
  nodup := by decide
  first := rfl
  last := rfl

/-- Both threads have the priority 31, so the first one goes. -/
theorem ordering_functions_tie : ∃ t L' front back,
    getAndRemoveNextThread (fun _ => 31) shortList ⟨0, 3⟩ 3 = .ok (t, L') ∧ [1, 2] = front ++ t :: back ∧
      IsList L' ⟨0, 3⟩ (front ++ back) ∧ (∀ a ∈ [1, 2], (31 : Int) ≤ 31) ∧ ∀ a ∈ front, (31 : Int) < 31 :=
  (ordering_functions (threadPriorityLess fun _ => 31) (threadPriorityLess_order fun _ => 31) shortList_isList
    (by decide)).2.2.2 (fun _ => 31) (by simp)

end

end Pintos.Lists
