import Mathlib

/-! Doubly linked lists whose links lie in the elements.

An element belongs to a list by its own two links, so inserting an element that is still
linked elsewhere, or removing one that is not linked, changes lists the caller never named.
`Linked` says that the links join the nodes of a list in both directions; inserting and
removing then do what they should as long as the element's links are its own to change, and
every list that shares no node with them is left as it was. -/
namespace Pintos.Intrusive

/-- The two links of every node. -/
structure Links (ν : Type) where
  next : ν → Option ν
  prev : ν → Option ν

variable {ν : Type} [DecidableEq ν]

/-- An empty list between its two ends. -/
def Links.init (L : Links ν) (head tail : ν) : Links ν where
  next := Function.update (Function.update L.next head (some tail)) tail none
  prev := Function.update (Function.update L.prev tail (some head)) head none

/-- Puts `x` just before `before`, which must have a predecessor. -/
def Links.insert (L : Links ν) (before x : ν) : Option (Links ν) :=
  (L.prev before).map fun p =>
    { next := Function.update (Function.update L.next x (some before)) p (some x)
      prev := Function.update (Function.update L.prev x (some p)) before (some x) }

/-- The stores of `insert`, one after the other: the links of `x` itself, -/
def Links.insertOwn (L : Links ν) (before x : ν) : Links ν :=
  ⟨Function.update L.next x (some before), Function.update L.prev x (L.prev before)⟩

/-- then that of the predecessor of `before`, -/
def Links.insertNext (L : Links ν) (before x : ν) : Option (Links ν) :=
  (L.prev before).map fun p => {L with next := Function.update L.next p (some x)}

/-- and that of `before`. -/
def Links.insertPrev (L : Links ν) (before x : ν) : Links ν :=
  {L with prev := Function.update L.prev before (some x)}

/-- Joins the neighbours of `x`, which must have both. -/
def Links.remove (L : Links ν) (x : ν) : Option (Links ν) :=
  match L.prev x, L.next x with
  | some p, some q => some
    { next := Function.update L.next p (some q)
      prev := Function.update L.prev q (some p) }
  | _, _ => none

/-- The nodes from `e` on up to `stop`, if the links lead there in `fuel` steps. -/
def Links.walk (L : Links ν) (stop : ν) : Nat → ν → Option (List ν)
  | 0, e => if e = stop then some [] else none
  | fuel + 1, e =>
    if e = stop then some []
    else (L.next e).bind fun e' => (L.walk stop fuel e').map (e :: ·)

section
omit [DecidableEq ν]

def Links.Joins (L : Links ν) (x y : ν) : Prop := L.next x = some y ∧ L.prev y = some x

/-- The links lead through `ns` and back. -/
def Links.Linked (L : Links ν) (ns : List ν) : Prop := ns.IsChain L.Joins

variable {L L' : Links ν}

theorem linked_cons {x y : ν} {ns : List ν} : L.Linked (x :: y :: ns) ↔ L.Joins x y ∧ L.Linked (y :: ns) :=
  List.isChain_cons_cons

/-- Only the links inside the list matter: the last node's `next` and the first one's
`prev` lead out of it. -/
theorem linked_congr : ∀ {ns : List ν}, L.Linked ns → (∀ x ∈ ns.dropLast, L'.next x = L.next x) →
    (∀ x ∈ ns.tail, L'.prev x = L.prev x) → L'.Linked ns
  | [], _, _, _ => .nil
  | [x], _, _, _ => .singleton x
  | x :: y :: ns, h, hn, hp => by
    rw [linked_cons] at h ⊢
    have hy : L'.Joins x y := ⟨(hn x (by simp)).trans h.1.1, (hp y (by simp)).trans h.1.2⟩
    have hrest : L'.Linked (y :: ns) := by
      apply linked_congr h.2
      · grind
      · grind
    exact ⟨hy, hrest⟩

theorem linked_frame {ns : List ν} (h : L.Linked ns) (hn : ∀ x ∈ ns, L'.next x = L.next x)
    (hp : ∀ x ∈ ns, L'.prev x = L.prev x) : L'.Linked ns :=
  linked_congr h (fun x hx => hn x (List.mem_of_mem_dropLast hx)) fun x hx => hp x (List.mem_of_mem_tail hx)

theorem linked_append {xs ys : List ν} {x : ν} :
    L.Linked (xs ++ x :: ys) ↔ L.Linked (xs ++ [x]) ∧ L.Linked (x :: ys) := by
  induction xs with
  | nil => simp [Links.Linked]
  | cons z xs ih =>
    cases xs with
    | nil => simp [Links.Linked]
    | cons w xs =>
      simp only [List.cons_append, linked_cons] at ih ⊢
      rw [ih, and_assoc]

theorem linked_before {front : List ν} {p : ν} (h : L.Linked (front ++ [p])) (hn : ∀ y ∈ front, L'.next y = L.next y)
    (hp : ∀ y ∈ front ++ [p], L'.prev y = L.prev y) : L'.Linked (front ++ [p]) :=
  linked_congr h (by rwa [List.dropLast_concat]) fun y hy => hp y (List.mem_of_mem_tail hy)

theorem linked_behind {back : List ν} {b : ν} (h : L.Linked (b :: back)) (hn : ∀ y ∈ b :: back, L'.next y = L.next y)
    (hp : ∀ y ∈ back, L'.prev y = L.prev y) : L'.Linked (b :: back) :=
  linked_congr h (fun y hy => hn y (List.mem_of_mem_dropLast hy)) hp

end

variable {L : Links ν} {ns front back : List ν} {p q x b : ν}

theorem linked_init (L : Links ν) {head tail : ν} (h : head ≠ tail) : (L.init head tail).Linked [head, tail] := by
  simp [Links.Linked, Links.Joins, Links.init, Function.update_of_ne h, Function.update_of_ne h.symm]

theorem init_frame (h : L.Linked ns) {head tail : ν} (hd : ∀ y ∈ ns, y ≠ head ∧ y ≠ tail) :
    (L.init head tail).Linked ns := by
  apply linked_frame h
  · intro y hy
    simp [Links.init, Function.update_of_ne, hd y hy]
  · intro y hy
    simp [Links.init, Function.update_of_ne, hd y hy]

/-- Inserting between two neighbours. -/
theorem insert_linked (h : L.Linked (front ++ p :: b :: back)) (hd : (front ++ p :: b :: back).Nodup)
    (hx : x ∉ front ++ p :: b :: back) :
    ∃ L', L.insert b x = some L' ∧ L'.Linked (front ++ p :: x :: b :: back) := by
  obtain ⟨hfront, hpb⟩ := linked_append.mp h
  obtain ⟨hjoin, hback⟩ := linked_cons.mp hpb
  have hpx : p ≠ x := fun e => hx (by simp [e])
  have hxb : x ≠ b := fun e => hx (by simp [e])
  refine ⟨_, by rw [Links.insert, hjoin.2, Option.map_some],
    linked_append.mpr ⟨linked_before hfront ?_ ?_, linked_cons.mpr ⟨?_, linked_cons.mpr ⟨?_, linked_behind hback ?_ ?_⟩⟩⟩⟩
  · grind
  · grind
  · simp [Links.Joins, Function.update_of_ne hxb]
  · simp [Links.Joins, Function.update_of_ne hpx.symm]
  · grind
  · grind

/-- Removing a node from the list it is in. -/
theorem remove_linked (h : L.Linked (front ++ p :: x :: q :: back)) (hd : (front ++ p :: x :: q :: back).Nodup) :
    ∃ L', L.remove x = some L' ∧ L'.Linked (front ++ p :: q :: back) := by
  obtain ⟨hfront, hrest⟩ := linked_append.mp h
  obtain ⟨hpx, hrest⟩ := linked_cons.mp hrest
  obtain ⟨hxq, hback⟩ := linked_cons.mp hrest
  refine ⟨_, by rw [Links.remove, hpx.2, hxq.1],
    linked_append.mpr ⟨linked_before hfront ?_ ?_, linked_cons.mpr ⟨?_, linked_behind hback ?_ ?_⟩⟩⟩
  · grind
  · grind
  · simp [Links.Joins]
  · grind
  · grind

section
variable {L' : Links ν} {y : ν}

/-- Inserting changes the links of the new node, and one link of each neighbour. -/
theorem insert_other (h : L.insert b x = some L') (hp : L.prev b = some p) (hx : y ≠ x) :
    (y ≠ p → L'.next y = L.next y) ∧ (y ≠ b → L'.prev y = L.prev y) := by
  rw [Links.insert, hp, Option.map_some, Option.some.injEq] at h
  subst h
  grind

/-- The last two stores are an insertion once the links of the new node are there. -/
theorem insert_eq (hn : L.next x = some b) (hp : L.prev x = L.prev b) :
    L.insert b x = (L.insertNext b x).map fun L' => L'.insertPrev b x := by
  rw [Links.insert, Links.insertNext, Option.map_map]
  cases hb : L.prev b with
  | none => rfl
  | some p =>
    rw [hb] at hp
    rw [Option.map_some, Option.map_some, ← hn, ← hp, Function.update_eq_self, Function.update_eq_self]
    rfl

/-- Removing changes one link of each neighbour. -/
theorem remove_other (h : L.remove x = some L') (hp : L.prev x = some p) (hq : L.next x = some q) :
    (y ≠ p → L'.next y = L.next y) ∧ (y ≠ q → L'.prev y = L.prev y) := by
  rw [Links.remove, hp, hq, Option.some.injEq] at h
  subst h
  grind

end

/-! ### Lists between two ends -/

section
variable {head tail : ν} {l : List ν}

/-- A node is put at the end of the list. -/
theorem insert_last (h : L.Linked (head :: l ++ [tail])) (hd : (head :: l ++ [tail]).Nodup)
    (hx : x ∉ head :: l ++ [tail]) :
    ∃ L', L.insert tail x = some L' ∧ L'.Linked (head :: (l ++ [x]) ++ [tail]) ∧
      ∀ y ∉ head :: l ++ [tail], y ≠ x → L'.next y = L.next y ∧ L'.prev y = L.prev y := by
  obtain ⟨front, p, hp⟩ : ∃ front p, head :: l = front ++ [p] :=
    ⟨_, _, (List.dropLast_append_getLast (List.cons_ne_nil _ _)).symm⟩
  have hform : head :: l ++ [tail] = front ++ [p, tail] := by rw [hp, List.append_assoc, List.singleton_append]
  have hform' : head :: (l ++ [x]) ++ [tail] = front ++ [p, x, tail] := by
    rw [← List.cons_append, hp]
    simp
  rw [hform] at h hd hx ⊢
  rw [hform']
  obtain ⟨L', hL', hlinked⟩ := insert_linked h hd hx
  refine ⟨L', hL', hlinked, fun y hy hyx => ?_⟩
  have hother := insert_other hL' (linked_cons.mp (linked_append.mp h).2).1.2 hyx
  exact ⟨hother.1 fun e => hy (by simp [e]), hother.2 fun e => hy (by simp [e])⟩

/-- A node is taken out of the list. -/
theorem remove_mem (h : L.Linked (head :: l ++ [tail])) (hd : (head :: l ++ [tail]).Nodup) (hx : x ∈ l) :
    ∃ L', L.remove x = some L' ∧ L'.Linked (head :: l.erase x ++ [tail]) ∧
      ∀ y ∉ head :: l ++ [tail], L'.next y = L.next y ∧ L'.prev y = L.prev y := by
  obtain ⟨before, after, rfl⟩ := List.append_of_mem hx
  obtain ⟨front, p, hp⟩ : ∃ front p, head :: before = front ++ [p] :=
    ⟨_, _, (List.dropLast_append_getLast (List.cons_ne_nil _ _)).symm⟩
  obtain ⟨q, back, hq⟩ : ∃ q back, after ++ [tail] = q :: back := List.exists_cons_of_ne_nil (by simp)
  have hxb : x ∉ before := by grind
  have hform : head :: (before ++ x :: after) ++ [tail] = front ++ p :: x :: q :: back := by
    rw [← List.cons_append, hp, ← hq]
    simp
  have hform' : head :: (before ++ x :: after).erase x ++ [tail] = front ++ p :: q :: back := by
    rw [List.erase_append_right _ hxb, List.erase_cons_head, ← List.cons_append, hp, ← hq]
    simp
  rw [hform] at h hd ⊢
  rw [hform']
  obtain ⟨L', hL', hlinked⟩ := remove_linked h hd
  refine ⟨L', hL', hlinked, fun y hy => ?_⟩
  obtain ⟨hpx, hrest⟩ := linked_cons.mp (linked_append.mp h).2
  have hother := remove_other hL' hpx.2 (linked_cons.mp hrest).1.1 (y := y)
  exact ⟨hother.1 fun e => hy (by simp [e]), hother.2 fun e => hy (by simp [e])⟩

end

/-- A walk along a list meets its nodes and no others. -/
theorem walk_linked {stop : ν} : ∀ {ns : List ν} {fuel : Nat} {e : ν} {found : List ν},
    L.Linked (e :: ns) → (e :: ns).getLast? = some stop → stop ∉ (e :: ns).dropLast →
    L.walk stop fuel e = some found → found = (e :: ns).dropLast
  | ns, 0, e, found, _, hlast, hstop, hw => by
    unfold Links.walk at hw
    split at hw
    · rename_i he
      subst he
      cases ns with
      | nil => simpa using hw.symm
      | cons y ns => simp at hstop
    · cases hw
  | [], fuel + 1, e, found, _, hlast, _, hw => by
    simp only [List.getLast?_singleton, Option.some.injEq] at hlast
    simpa [Links.walk, hlast] using hw.symm
  | y :: ns, fuel + 1, e, found, h, hlast, hstop, hw => by
    have he : e ≠ stop := fun hs => hstop (by simp [hs])
    obtain ⟨hj, hrest⟩ := linked_cons.mp h
    simp only [Links.walk, he, if_false, hj.1, Option.bind_some, Option.map_eq_some_iff] at hw
    obtain ⟨rest, hrw, rfl⟩ := hw
    have hs : stop ∉ (y :: ns).dropLast := fun hm => hstop (by simp [hm])
    rw [walk_linked hrest (by simpa using hlast) hs hrw]
    simp

end Pintos.Intrusive
