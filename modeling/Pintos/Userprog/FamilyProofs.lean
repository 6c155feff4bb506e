import Pintos.Userprog.Transitions

/-! Parents and children.

As long as a thread that goes has no children left, and its parent is in user code, every list
of children is well formed: it joins the children of a thread that is there, but for the one that
is still being put on it, and a parent that walks along its list stands on one of them or at the end. -/
namespace Pintos.Userprog
open Intrusive Steps

/-! ### A list of children -/

/-- The nodes of the list of the thread at `p`, after its head. -/
def rear (p : Nat) (l : List Nat) : List Node := l.map .elem ++ [.tail p]

def nodes (p : Nat) (l : List Nat) : List Node := .head p :: rear p l

/-- Where a walk along the list stands, with `rest` still to come. -/
def entry (p : Nat) : List Nat → Node
  | [] => .tail p
  | q :: _ => .elem q

section
variable {L L' : Links Node} {p q c page : Nat} {l m rest : List Nat}

theorem nodes_nodup (h : l.Nodup) : (nodes p l).Nodup := by
  have helems : (l.map Node.elem).Nodup := h.map fun a b hab => by injection hab
  simp [nodes, rear, List.nodup_append, helems]

theorem mem_nodes {n : Node} : n ∈ nodes p l ↔ n = .head p ∨ n = .tail p ∨ ∃ c ∈ l, n = .elem c := by
  simp only [nodes, rear, List.mem_cons, List.mem_append, List.mem_map, List.not_mem_nil, or_false]
  constructor
  · grind
  · grind

theorem nodes_disjoint {y : Node} (hne : q ≠ p) (hd : ∀ x ∈ l, x ∉ m) (hy : y ∈ nodes q m) : y ∉ nodes p l := by
  rw [mem_nodes] at hy ⊢
  grind

theorem rear_eq (p : Nat) (l : List Nat) : rear p l = entry p l :: (rear p l).tail := by
  cases l <;> rfl

/-- A list of children up to a place in it, and from there on. -/
theorem nodes_append (p : Nat) (l m : List Nat) : nodes p (l ++ m) = (.head p :: l.map .elem) ++ rear p m := by
  simp [nodes, rear]

theorem next_head (h : L.Linked (nodes p l)) : L.next (.head p) = some (entry p l) := by
  unfold nodes at h
  rw [rear_eq] at h
  exact (linked_cons.mp h).1.1

theorem next_elem (h : L.Linked (nodes p l)) (hr : q :: rest <:+ l) : L.next (.elem q) = some (entry p rest) := by
  obtain ⟨front, rfl⟩ := hr
  rw [nodes_append] at h
  have hq : L.Linked (.elem q :: rear p rest) := (linked_append.mp h).2
  rw [rear_eq] at hq
  exact (linked_cons.mp hq).1.1

theorem prev_tail (h : L.Linked (nodes p l)) : ∃ y ∈ nodes p l, L.prev (.tail p) = some y := by
  obtain ⟨front, last, hlast⟩ : ∃ front last, Node.head p :: l.map .elem = front ++ [last] :=
    ⟨_, _, (List.dropLast_append_getLast (List.cons_ne_nil _ _)).symm⟩
  have hform : nodes p l = front ++ last :: [.tail p] := by
    rw [nodes, rear, ← List.cons_append, hlast, List.append_assoc, List.singleton_append]
  rw [hform] at h
  exact ⟨last, by simp [hform], (linked_cons.mp (linked_append.mp h).2).1.2⟩

/-- Putting a child at the end of the list. -/
theorem insert_child (h : L.Linked (nodes p l)) (hd : l.Nodup) (hc : c ∉ l) :
    ∃ L', L.insert (.tail p) (.elem c) = some L' ∧ L'.Linked (nodes p (l ++ [c])) := by
  have hfresh : Node.elem c ∉ nodes p l := by
    rw [mem_nodes]
    simpa using hc
  obtain ⟨L', hL', hlinked, -⟩ := insert_last h (nodes_nodup hd) hfresh
  exact ⟨L', hL', by simpa [nodes, rear] using hlinked⟩

/-- The same links at these nodes. -/
def Agrees (L L' : Links Node) (ns : List Node) : Prop := ∀ y ∈ ns, L'.next y = L.next y ∧ L'.prev y = L.prev y

theorem Agrees.linked {ns : List Node} (ha : Agrees L L' ns) (h : L.Linked ns) : L'.Linked ns :=
  linked_frame h (fun y hy => (ha y hy).1) fun y hy => (ha y hy).2

/-- Taking a child out of the list it is on. -/
theorem remove_child (h : L.Linked (nodes p l)) (hd : l.Nodup) (hc : c ∈ l) :
    ∃ L', L.remove (.elem c) = some L' ∧ L'.Linked (nodes p (l.erase c)) ∧
      ∀ y ∉ nodes p l, L'.next y = L.next y ∧ L'.prev y = L.prev y := by
  obtain ⟨L', hL', hlinked, hother⟩ := remove_mem h (nodes_nodup hd) (List.mem_map_of_mem hc)
  rw [← List.map_erase fun _ _ => Node.elem.inj] at hlinked
  exact ⟨L', hL', hlinked, hother⟩

theorem clearPage_agrees (hp : page ≠ p) (hl : page ∉ l) : Agrees L (clearPage L page) (nodes p l) := by
  intro y hy
  have hne : y ≠ .head page ∧ y ≠ .tail page ∧ y ≠ .elem page := by
    rw [mem_nodes] at hy
    grind
  obtain ⟨h1, h2, h3⟩ := hne
  simp [clearPage, Function.update_of_ne h1, Function.update_of_ne h2, Function.update_of_ne h3]

theorem initPage_agrees (hp : page ≠ p) : Agrees L (L.init (.head page) (.tail page)) (nodes p l) := by
  intro y hy
  have hne : y ≠ .head page ∧ y ≠ .tail page := by
    rw [mem_nodes] at hy
    grind
  simp [Links.init, Function.update_of_ne hne.1, Function.update_of_ne hne.2]

/-- The list of the thread at `p` joins `l`; while a child is put on it, the child is the last of `l`, and the
links are those that `list_insert` has stored by then. -/
def Listed (L : Links Node) (p : Nat) (l : List Nat) : Option (Push × Nat) → Prop
  | none => L.Linked (nodes p l)
  | some (.elem, q) => ∃ l', l = l' ++ [q] ∧ L.Linked (nodes p l')
  | some (.last, q) => ∃ l', l = l' ++ [q] ∧ L.Linked (nodes p l') ∧ L.next (.elem q) = some (.tail p) ∧
      L.prev (.elem q) = L.prev (.tail p)
  | some (.tail, q) => ∃ l', l = l' ++ [q] ∧ (L.insertPrev (.tail p) (.elem q)).Linked (nodes p l)

theorem nodes_sub : ∀ y ∈ nodes p l, y ∈ nodes p (l ++ m) := by
  intro y hy
  rw [mem_nodes] at hy ⊢
  grind

theorem Listed.frame {o : Option (Push × Nat)} (h : Listed L p l o) (ha : Agrees L L' (nodes p l)) : Listed L' p l o := by
  have htail := ha (.tail p) (mem_nodes.mpr (.inr (.inl rfl)))
  cases o with
  | none => exact ha.linked h
  | some o =>
    obtain ⟨stage, q⟩ := o
    cases stage with
    | elem =>
      obtain ⟨l', rfl, hl⟩ := h
      exact ⟨l', rfl, Agrees.linked (fun y hy => ha y (nodes_sub y hy)) hl⟩
    | last =>
      obtain ⟨l', rfl, hl, hn, hp⟩ := h
      obtain ⟨hn', hp'⟩ := ha (.elem q) (mem_nodes.mpr (.inr (.inr ⟨q, by simp, rfl⟩)))
      exact ⟨l', rfl, Agrees.linked (fun y hy => ha y (nodes_sub y hy)) hl, hn'.trans hn,
        hp'.trans (hp.trans htail.2.symm)⟩
    | tail =>
      obtain ⟨l', hl', hl⟩ := h
      refine ⟨l', hl', Agrees.linked ?_ hl⟩
      intro y hy
      refine ⟨(ha y hy).1, ?_⟩
      by_cases hy' : y = .tail p
      · simp [Links.insertPrev, hy']
      · simp [Links.insertPrev, Function.update_of_ne hy', (ha y hy).2]

end

/-! ### Steps that leave the family as it is -/

/-- The same thread, at another time. -/
structure Kin (t t' : Proc) : Prop where
  tid : t'.tid = t.tid
  parentTid : t'.parentTid = t.parentTid
  parent : t'.parent = t.parent

/-- A step of the thread at `p` that makes no thread and unlinks none. -/
structure Calm (p : Nat) (s s' : Kernel) : Prop where
  allList : s'.allList = s.allList
  nextTid : s'.nextTid = s.nextTid
  live : ∀ {r : Nat} {t : Proc}, s.procs r = some t →
    ∃ t', s'.procs r = some t' ∧ Kin t t' ∧ (r ≠ p → t'.pc = t.pc)
  dead : ∀ {r : Nat}, s.procs r = none → s'.procs r = none

section
variable {s s' s'' : Kernel} {p q r : Nat} {t t' : Proc}

theorem Calm.trans (h : Calm p s s') (h' : Calm p s' s'') : Calm p s s'' where
  allList := h'.allList.trans h.allList
  nextTid := h'.nextTid.trans h.nextTid
  live := by
    intro r t ht
    obtain ⟨t1, ht1, hk1, hpc1⟩ := h.live ht
    obtain ⟨t2, ht2, hk2, hpc2⟩ := h'.live ht1
    exact ⟨t2, ht2, ⟨hk2.tid.trans hk1.tid, hk2.parentTid.trans hk1.parentTid, hk2.parent.trans hk1.parent⟩,
      fun hr => (hpc2 hr).trans (hpc1 hr)⟩
  dead := fun hr => h'.dead (h.dead hr)

/-- Nothing but the links, the log and the references changes. -/
theorem calm_rest (hprocs : s'.procs = s.procs) (hall : s'.allList = s.allList) (hnext : s'.nextTid = s.nextTid) :
    Calm p s s' where
  allList := hall
  nextTid := hnext
  live := fun ht => ⟨_, hprocs ▸ ht, ⟨rfl, rfl, rfl⟩, fun _ => rfl⟩
  dead := fun hr => hprocs ▸ hr

theorem calm_links (links : Links Node) : Calm p s {s with links := links} := calm_rest rfl rfl rfl

theorem calm_note (e : Event) : Calm p s (s.note e) := calm_rest rfl rfl rfl

theorem calm_addRef (tid : Nat) (dir : Option Nat) : Calm p s (s.addRef tid dir) := by
  cases dir <;> exact calm_rest rfl rfl rfl

theorem calm_dropRef (tid : Nat) (dir : Option Nat) : Calm p s (s.dropRef tid dir) := by
  cases dir <;> exact calm_rest rfl rfl rfl

@[simp] theorem addRef_procs (tid : Nat) (dir : Option Nat) : (s.addRef tid dir).procs = s.procs := by
  cases dir <;> rfl

@[simp] theorem addRef_log (tid : Nat) (dir : Option Nat) : (s.addRef tid dir).log = s.log := by
  cases dir <;> rfl

@[simp] theorem addRef_links (tid : Nat) (dir : Option Nat) : (s.addRef tid dir).links = s.links := by
  cases dir <;> rfl

@[simp] theorem dropRef_links (tid : Nat) (dir : Option Nat) : (s.dropRef tid dir).links = s.links := by
  cases dir <;> rfl

@[simp] theorem dropRef_procs (tid : Nat) (dir : Option Nat) : (s.dropRef tid dir).procs = s.procs := by
  cases dir <;> rfl

@[simp] theorem dropRef_log (tid : Nat) (dir : Option Nat) : (s.dropRef tid dir).log = s.log := by
  cases dir <;> rfl

theorem modify_self {f : Proc → Proc} (ht : s.procs q = some t) : (s.modify q f).procs q = some (f t) := by
  simp [Kernel.modify, ht]

theorem modify_other {f : Proc → Proc} (hr : r ≠ q) : (s.modify q f).procs r = s.procs r := by
  simp [Kernel.modify, Function.update_of_ne hr]

theorem calm_modify {f : Proc → Proc} (hk : ∀ t, Kin t (f t)) (hpc : q ≠ p → ∀ t, (f t).pc = t.pc) :
    Calm p s (s.modify q f) where
  allList := rfl
  nextTid := rfl
  live := by
    intro r t ht
    by_cases hr : r = q
    · subst hr
      exact ⟨f t, modify_self ht, hk t, fun hr => hpc hr t⟩
    · exact ⟨t, (modify_other hr).trans ht, ⟨rfl, rfl, rfl⟩, fun _ => rfl⟩
  dead := by
    intro r hr
    by_cases hq : r = q
    · subst hq
      simp [Kernel.modify, hr]
    · exact (modify_other hq).trans hr

theorem calm_goto (pc : Pc) : Calm p s (s.goto p pc) :=
  calm_modify (fun _ => ⟨rfl, rfl, rfl⟩) fun h => absurd rfl h

theorem calm_field {f : Proc → Proc} (hk : ∀ t, Kin t (f t)) (hpc : ∀ t, (f t).pc = t.pc) : Calm p s (s.modify q f) :=
  calm_modify hk fun _ => hpc

theorem goto_self (pc : Pc) (ht : (s.goto p pc).procs p = some t) : t.pc = pc := by
  simp only [Kernel.goto, Kernel.modify, Function.update_self, Option.map_eq_some_iff] at ht
  obtain ⟨t0, -, rfl⟩ := ht
  rfl

end

/-! ### The family -/

/-- A walk along the list of the thread at `p` stands at a place of it, and a thread waits for a child on it. -/
def Walks (kids : Nat → List Nat) (p : Nat) : Pc → Prop
  | .waitFind _ e | .exitLoop e => ∃ rest, rest <:+ kids p ∧ e = entry p rest
  | .exitNext e => ∃ q rest, q :: rest <:+ kids p ∧ e = .elem q
  | .waitDown _ q | .waitUp _ q _ => q ∈ kids p
  | _ => True

/-- User code and the system calls that come back to it. -/
def Pc.calls : Pc → Bool
  | .user | .push _ _ _ | .execWd _ | .execReopen _ _ | .execStoreWd _ _ _ | .execFind _ _ | .execDown _ _ | .execStatus _ _
  | .waitFind _ _ | .waitDown _ _ | .waitUp _ _ _ => true
  | _ => false

/-- The child that a thread is putting on its list, and how far it is. -/
def Pc.pushing : Pc → Option (Push × Nat)
  | .push stage _ page => some (stage, page)
  | _ => none

/-- The lists of children are those of the threads that are there. -/
structure Family (s : Kernel) (kids : Nat → List Nat) : Prop where
  listed : ∀ {p : Nat} {t : Proc}, s.procs p = some t → Listed s.links p (kids p) t.pc.pushing
  nodup : ∀ p, (kids p).Nodup
  mem : ∀ {p c : Nat}, c ∈ kids p ↔ ∃ t, s.procs c = some t ∧ t.tid ≠ initialTid ∧ t.parent = p
  parent : ∀ {c : Nat} {t : Proc}, s.procs c = some t → t.tid ≠ initialTid →
    ∃ tp, s.procs t.parent = some tp ∧ tp.tid = t.parentTid
  walks : ∀ {p : Nat} {t : Proc}, s.procs p = some t → Walks kids p t.pc
  /-- The initial thread stays. -/
  stays : ∀ {p : Nat} {t : Proc}, s.procs p = some t → t.tid = initialTid → t.pc.calls = true
  fresh : initialTid < s.nextTid

section
variable {s s' : Kernel} {p q page : Nat} {t t' : Proc} {kids : Nat → List Nat}

theorem goto_walks {pc : Pc} (ht : (s.goto p pc).procs p = some t) (h : Walks kids p pc) : Walks kids p t.pc :=
  goto_self pc ht ▸ h

theorem modify_some {f : Proc → Proc} (ht : (s.modify p f).procs p = some t') : ∃ t, s.procs p = some t ∧ t' = f t := by
  simp only [Kernel.modify, Function.update_self, Option.map_eq_some_iff] at ht
  grind

theorem Family.linked (h : Family s kids) (ht : s.procs p = some t) (hpc : t.pc.pushing = none) :
    s.links.Linked (nodes p (kids p)) := by
  have hl := h.listed ht
  rwa [hpc] at hl

/-- Wherever a step takes a thread, it stands at a place of its list. -/
theorem Family.walks_step (h : Family s kids) (ht : s.procs p = some t) (hx : Trans s p t s')
    (ht' : s'.procs p = some t') : Walks kids p t'.pc := by
  have hw := h.walks ht
  cases hx with
  | wait hpc he | exitBegin hpc he =>
    rw [next_head (h.linked ht (by rw [hpc]; rfl))] at he
    cases he
    exact goto_walks ht' ⟨kids p, List.suffix_rfl, rfl⟩
  | waitNext hpc hq htid he =>
    rw [hpc] at hw
    obtain ⟨rest, hrest, heq⟩ := hw
    cases rest with
    | nil => cases heq
    | cons q' rest =>
      cases heq
      rw [next_elem (h.linked ht (by rw [hpc]; rfl)) hrest] at he
      cases he
      exact goto_walks ht' ⟨rest, (List.suffix_cons _ _).trans hrest, rfl⟩
  | exitLoop hpc hq =>
    rw [hpc] at hw
    obtain ⟨rest, hrest, heq⟩ := hw
    cases rest with
    | nil => cases heq
    | cons q' rest =>
      cases heq
      exact goto_walks ht' ⟨_, rest, hrest, rfl⟩
  | exitNext hpc he =>
    rw [hpc] at hw
    obtain ⟨q, rest, hrest, rfl⟩ := hw
    rw [next_elem (h.linked ht (by rw [hpc]; rfl)) hrest] at he
    cases he
    exact goto_walks ht' ⟨rest, (List.suffix_cons _ _).trans hrest, rfl⟩
  | exitGone hpc hg =>
    unfold threadGone at hg
    split at hg
    · cases hg
    · cases hg
      simp at ht'
  | waitFound hpc hq htid =>
    rw [hpc] at hw
    obtain ⟨rest, hrest, heq⟩ := hw
    cases rest with
    | nil => cases heq
    | cons q' rest =>
      cases heq
      exact goto_walks ht' (hrest.mem List.mem_cons_self)
  | waitDown hpc =>
    rw [hpc] at hw
    exact goto_walks ht' hw
  | chdir hpc =>
    rw [modify_self (t := t) (by simpa using ht)] at ht'
    cases ht'
    exact hw
  | exit | storeRoot | loaded | loadUp | loadFail | exitUp | processExit | exitDown =>
    obtain ⟨_, -, rfl⟩ := modify_some ht'
    trivial
  | _ => exact goto_walks ht' trivial

theorem goto_stays {pc : Pc} (ht : (s.goto p pc).procs p = some t) (h : pc.calls = true) : t.pc.calls = true :=
  goto_self pc ht ▸ h

/-- A thread leaves its system calls by `exit`, which the initial thread does not call. -/
theorem Trans.calls (hx : Trans s p t s') (ht : s.procs p = some t) (hs : t.pc.calls = true)
    (ht' : s'.procs p = some t') : t'.pc.calls = true ∨ t.pc = .user ∧ t.tid ≠ initialTid := by
  cases hx with
  | exit hpc hne => exact .inr ⟨hpc, hne⟩
  | chdir hpc =>
    rw [modify_self (t := t) (by simpa using ht)] at ht'
    cases ht'
    exact .inl hs
  | exec | pushElem | pushLast | pushTail | wait | execNoWd | execWd | execReopen | execNoMemory | execSeekWd | execStoreWd | execSeek | execFind | execDown
  | execSeekStatus | execLost | execReturn | waitEnd | waitNext | waitAgain | waitFound | waitDown | waitUp =>
    exact .inl (goto_stays ht' rfl)
  | startAbsolute hpc | startRelative hpc | startNull hpc | openRoot hpc | openNoMemory hpc | storeRoot hpc | resolve hpc
  | resolveNoMemory hpc | opened hpc | loaded hpc | loadUp hpc | loadFail hpc | exitClose hpc | exitUp hpc | exitBegin hpc | exitEnd hpc | exitLoop hpc
  | exitNext hpc | processExit hpc | exitDown hpc | exitGone hpc =>
    rw [hpc] at hs
    cases hs

theorem threadCreate_ok {relative : Bool} (h : threadCreate s p t page relative = .ok s') :
    s.procs page = none ∧ s' = {s with
      procs := Function.update s.procs page (some (newProc s.nextTid t.tid p relative))
      allList := s.allList ++ [page]
      links := s.links.init (.head page) (.tail page)
      nextTid := s.nextTid + 1
      log := .created t.tid s.nextTid t.workingDirectory :: s.log} := by
  unfold threadCreate at h
  cases hfree : s.procs page with
  | some t => simp [hfree, throw, throwThe, MonadExceptOf.throw, bind, Except.bind] at h
  | none =>
    simp only [hfree, Option.isSome_none, Bool.false_eq_true, if_false] at h
    cases h
    exact ⟨rfl, rfl⟩

theorem threadGone_ok (h : threadGone s p = .ok s') : ∃ L, s.links.remove (.elem p) = some L ∧
    s' = {s with procs := Function.update s.procs p none, allList := s.allList.erase p, links := clearPage L p} := by
  unfold threadGone at h
  grind

/-- A step is calm, or it makes a thread, or the thread goes. -/
theorem Trans.calm (hx : Trans s p t s') : Calm p s s' ∨
    (∃ page relative s1, t.pc = .user ∧ threadCreate s p t page relative = .ok s1 ∧
      s' = s1.goto p (.push .elem s.nextTid page)) ∨
    t.pc = .exitGone ∧ threadGone s p = .ok s' := by
  cases hx with
  | exec hpc h => exact .inr (.inl ⟨_, _, _, hpc, h, rfl⟩)
  | exitGone hpc h => exact .inr (.inr ⟨hpc, h⟩)
  | pushElem | pushLast => exact .inl ((calm_links _).trans (calm_goto _))
  | @pushTail _ page =>
    have hl : Calm p s {s with links := s.links.insertPrev (.tail p) (.elem page)} := calm_links _
    refine .inl (Calm.trans (hl.trans ?_) (calm_goto _))
    exact calm_field (fun _ => ⟨rfl, rfl, rfl⟩) fun _ => rfl
  | exit | loaded | loadUp =>
    exact .inl ((calm_note _).trans (calm_modify (fun _ => ⟨rfl, rfl, rfl⟩) fun h => absurd rfl h))
  | chdir =>
    exact .inl (((calm_dropRef _ _).trans (calm_addRef _ _)).trans
      (calm_modify (fun _ => ⟨rfl, rfl, rfl⟩) fun h => absurd rfl h))
  | storeRoot | loadFail | exitUp | processExit | exitDown =>
    exact .inl (calm_modify (fun _ => ⟨rfl, rfl, rfl⟩) fun h => absurd rfl h)
  | execReopen | openRoot => exact .inl ((calm_addRef _ _).trans (calm_goto _))
  | execStoreWd | execDown | waitFound | waitDown | exitLoop =>
    refine .inl (Calm.trans ?_ (calm_goto _))
    exact calm_field (fun _ => ⟨rfl, rfl, rfl⟩) fun _ => rfl
  | waitUp =>
    refine .inl ((Calm.trans ?_ (calm_note _)).trans (calm_goto _))
    exact calm_field (fun _ => ⟨rfl, rfl, rfl⟩) fun _ => rfl
  | execLost | execReturn | waitEnd | waitAgain | resolve => exact .inl ((calm_note _).trans (calm_goto _))
  | exitClose => exact .inl ((calm_dropRef _ _).trans (calm_goto _))
  | _ => exact .inl (calm_goto _)

/-- A thread of the later state was there before. -/
theorem Calm.before (hc : Calm p s s') (ht' : s'.procs q = some t') :
    ∃ t, s.procs q = some t ∧ Kin t t' ∧ (q ≠ p → t'.pc = t.pc) := by
  cases ht : s.procs q with
  | none => simp [hc.dead ht] at ht'
  | some t =>
    obtain ⟨t1, ht1, hk, hpc⟩ := hc.live ht
    grind

/-- What a calm step of the thread at `p` does to the links. -/
inductive Linking (s s' : Kernel) (p : Nat) (t : Proc) : Prop where
  | same : s'.links = s.links → t.pc.pushing = none → (∀ t', s'.procs p = some t' → t'.pc.pushing = none) →
      Linking s s' p t
  | elem {q : Nat} : s'.links = s.links.insertOwn (.tail p) (.elem q) → t.pc.pushing = some (.elem, q) →
      (∀ t', s'.procs p = some t' → t'.pc.pushing = some (.last, q)) → Linking s s' p t
  | last {q : Nat} : s.links.insertNext (.tail p) (.elem q) = some s'.links → t.pc.pushing = some (.last, q) →
      (∀ t', s'.procs p = some t' → t'.pc.pushing = some (.tail, q)) → Linking s s' p t
  | tail {q : Nat} : s'.links = s.links.insertPrev (.tail p) (.elem q) → t.pc.pushing = some (.tail, q) →
      (∀ t', s'.procs p = some t' → t'.pc.pushing = none) → Linking s s' p t

theorem goto_pushing {pc : Pc} : ∀ t', (s.goto p pc).procs p = some t' → t'.pc.pushing = pc.pushing := by
  intro t' ht'
  rw [goto_self pc ht']

theorem Trans.linking (hx : Trans s p t s') (ht : s.procs p = some t) (hc : Calm p s s') : Linking s s' p t := by
  cases hx with
  | exec hpc h =>
    have hnext := hc.nextTid
    rw [(threadCreate_ok h).2] at hnext
    exact absurd hnext (Nat.succ_ne_self _)
  | exitGone hpc hg =>
    obtain ⟨t', ht', -⟩ := hc.live ht
    obtain ⟨L, -, rfl⟩ := threadGone_ok hg
    simp at ht'
  | pushElem hpc => exact .elem rfl (by rw [hpc]; rfl) goto_pushing
  | pushLast hpc h => exact .last h (by rw [hpc]; rfl) goto_pushing
  | pushTail hpc => exact .tail rfl (by rw [hpc]; rfl) goto_pushing
  | chdir hpc =>
    refine .same ?_ (by rw [hpc]; rfl) ?_
    · simp [Kernel.modify]
    · intro t' ht'
      rw [modify_self (t := t) (by simpa using ht)] at ht'
      cases ht'
      show t.pc.pushing = none
      rw [hpc]
      rfl
  | exit hpc | storeRoot hpc | loaded hpc | loadUp hpc | loadFail hpc | exitUp hpc | processExit hpc | exitDown hpc =>
    refine .same rfl (by rw [hpc]; rfl) ?_
    intro t' ht'
    obtain ⟨_, -, rfl⟩ := modify_some ht'
    rfl
  | exitClose hpc => exact .same (by simp [Kernel.goto, Kernel.modify]) (by rw [hpc]; rfl) goto_pushing
  | _ hpc => exact .same rfl (by rw [hpc]; rfl) goto_pushing

/-- The links of other threads' lists are left alone. -/
theorem Linking.other {y : Node} (hl : Linking s s' p t) (h : Family s kids) (ht : s.procs p = some t)
    (hy : y ∉ nodes p (kids p)) : s'.links.next y = s.links.next y ∧ s'.links.prev y = s.links.prev y := by
  have hlist := h.listed ht
  cases hl with
  | same hs => rw [hs]; exact ⟨rfl, rfl⟩
  | @elem q hs hpc =>
    rw [hpc] at hlist
    obtain ⟨l, hl, -⟩ := hlist
    have hne : y ≠ .elem q := fun he => hy (by simp [he, hl, mem_nodes])
    rw [hs]
    simp [Links.insertOwn, hne]
  | @last q hs hpc =>
    rw [hpc] at hlist
    obtain ⟨l, hl, hlinked, -⟩ := hlist
    obtain ⟨z, hz, hprev⟩ := prev_tail hlinked
    have hne : y ≠ z := by
      intro he
      subst he
      exact hy (hl ▸ nodes_sub y hz)
    rw [Links.insertNext, hprev, Option.map_some, Option.some.injEq] at hs
    rw [← hs]
    simp [hne]
  | tail hs hpc =>
    have hne : y ≠ .tail p := fun he => hy (by simp [he, mem_nodes])
    rw [hs]
    simp [Links.insertPrev, hne]

/-- The list of the thread that takes the step. -/
theorem Linking.own (hl : Linking s s' p t) (h : Family s kids) (ht : s.procs p = some t) (ht' : s'.procs p = some t') :
    Listed s'.links p (kids p) t'.pc.pushing := by
  have hlist := h.listed ht
  have hnodup := h.nodup p
  cases hl with
  | same hs hpc hpc' =>
    rw [hpc] at hlist
    rwa [hpc' t' ht', hs]
  | @elem q hs hpc hpc' =>
    rw [hpc] at hlist
    rw [hpc' t' ht', hs]
    obtain ⟨l, hl, hlinked⟩ := hlist
    rw [hl] at hnodup ⊢
    have hq : Node.elem q ∉ nodes p l := by
      rw [mem_nodes]
      grind
    refine ⟨l, rfl, Agrees.linked ?_ hlinked, ?_, ?_⟩
    · intro y hy
      have hne : y ≠ .elem q := fun he => hq (he ▸ hy)
      simp [Links.insertOwn, hne]
    · simp [Links.insertOwn]
    · simp [Links.insertOwn]
  | @last q hs hpc hpc' =>
    rw [hpc] at hlist
    rw [hpc' t' ht']
    obtain ⟨l, hl, hlinked, hn, hp⟩ := hlist
    rw [hl] at hnodup ⊢
    obtain ⟨L, hL, hjoined⟩ := insert_child (c := q) hlinked (by grind) (by grind)
    rw [insert_eq hn hp, hs, Option.map_some, Option.some.injEq] at hL
    exact ⟨l, rfl, hL ▸ hjoined⟩
  | tail hs hpc hpc' =>
    rw [hpc] at hlist
    obtain ⟨-, -, hlinked⟩ := hlist
    rwa [hpc' t' ht', hs]

/-- A page without a thread has no children. -/
theorem Family.kids_nil (h : Family s kids) (hp : s.procs p = none) : kids p = [] := by
  rw [List.eq_nil_iff_forall_not_mem]
  intro c hc
  obtain ⟨t, ht, htid, rfl⟩ := h.mem.mp hc
  obtain ⟨tp, htp, -⟩ := h.parent ht htid
  simp [hp] at htp

/-- A thread is on one list. -/
theorem Family.disjoint (h : Family s kids) (hne : p ≠ q) : ∀ x ∈ kids p, x ∉ kids q := by
  intro x hp hq
  obtain ⟨t, ht, -, rfl⟩ := h.mem.mp hp
  obtain ⟨t', ht', -, rfl⟩ := h.mem.mp hq
  rw [ht] at ht'
  cases ht'
  exact hne rfl

theorem Family.not_mem (h : Family s kids) (hq : s.procs q = none) : q ∉ kids p := by
  intro hm
  obtain ⟨t, ht, -, -⟩ := h.mem.mp hm
  simp [hq] at ht

theorem Family.calm (h : Family s kids) (ht : s.procs p = some t) (hc : Calm p s s') (hl : Linking s s' p t)
    (hw : ∀ t', s'.procs p = some t' → Walks kids p t'.pc)
    (hs : ∀ t', s'.procs p = some t' → t'.tid = initialTid → t'.pc.calls = true) : Family s' kids where
  listed := by
    intro q tq' hq'
    by_cases hq : q = p
    · subst hq
      exact hl.own h ht hq'
    · obtain ⟨tq, htq, -, hpc⟩ := hc.before hq'
      rw [hpc hq]
      refine (h.listed htq).frame fun y hy => hl.other h ht ?_
      exact nodes_disjoint hq (h.disjoint (Ne.symm hq)) hy
  nodup := h.nodup
  mem := by
    intro q c
    rw [h.mem]
    constructor
    · intro hm
      obtain ⟨t, ht, htid, hp⟩ := hm
      obtain ⟨t', ht', hk, -⟩ := hc.live ht
      exact ⟨t', ht', hk.tid ▸ htid, hk.parent ▸ hp⟩
    · intro hm
      obtain ⟨t', ht', htid, hp⟩ := hm
      obtain ⟨t, ht, hk, -⟩ := hc.before ht'
      exact ⟨t, ht, hk.tid ▸ htid, hk.parent ▸ hp⟩
  parent := by
    intro c t' ht' htid
    obtain ⟨t, ht, hk, -⟩ := hc.before ht'
    obtain ⟨tp, htp, hp⟩ := h.parent ht (hk.tid ▸ htid)
    obtain ⟨tp', htp', hkp, -⟩ := hc.live htp
    exact ⟨tp', hk.parent ▸ htp', by rw [hkp.tid, hp, hk.parentTid]⟩
  walks := by
    intro q t' ht'
    by_cases hq : q = p
    · subst hq
      exact hw t' ht'
    · obtain ⟨t, ht, -, hpc⟩ := hc.before ht'
      rw [hpc hq]
      exact h.walks ht
  stays := by
    intro q t' ht' htid
    by_cases hq : q = p
    · subst hq
      exact hs t' ht' htid
    · obtain ⟨t, ht, hk, hpc⟩ := hc.before ht'
      rw [hpc hq]
      exact h.stays ht (hk.tid ▸ htid)
  fresh := by
    rw [hc.nextTid]
    exact h.fresh

/-- The threads once the thread at `p` has created one. -/
theorem created_procs {relative : Bool} (pc : Pc) (ht : s.procs p = some t)
    (hc : threadCreate s p t page relative = .ok s') : page ≠ p ∧ (s'.goto p pc).procs p = some {t with pc := pc} ∧
      (s'.goto p pc).procs page = some (newProc s.nextTid t.tid p relative) ∧
      ∀ q, q ≠ p → q ≠ page → (s'.goto p pc).procs q = s.procs q := by
  obtain ⟨hfree, rfl⟩ := threadCreate_ok hc
  have hpage : page ≠ p := by
    intro hpp
    simp [hpp, ht] at hfree
  refine ⟨hpage, modify_self ?_, ?_, ?_⟩
  · exact (Function.update_of_ne (Ne.symm hpage) ..).trans ht
  · exact (modify_other hpage).trans (Function.update_self ..)
  · intro q hq hqp
    exact (modify_other hq).trans (Function.update_of_ne hqp ..)

/-- A new thread is to be put at the end of its parent's list. -/
theorem Family.created {relative : Bool} {child : Nat} (h : Family s kids) (ht : s.procs p = some t)
    (hpc : t.pc = .user) (hc : threadCreate s p t page relative = .ok s') :
    Family (s'.goto p (.push .elem child page)) (Function.update kids p (kids p ++ [page])) := by
  obtain ⟨hpage, hown, hnew, hother⟩ := created_procs (.push .elem child page) ht hc
  obtain ⟨hfree, rfl⟩ := threadCreate_ok hc
  generalize hs' : Kernel.goto _ p (.push .elem child page) = s' at hown hnew hother ⊢
  have hlinks : s'.links = s.links.init (.head page) (.tail page) := by rw [← hs']; rfl
  have hcases : ∀ q tq, s'.procs q = some tq → q = p ∧ tq = {t with pc := .push .elem child page} ∨
      q ≠ p ∧ q = page ∧ tq = newProc s.nextTid t.tid p relative ∨ q ≠ p ∧ q ≠ page ∧ s.procs q = some tq := by
    intro q tq htq
    by_cases hq : q = p
    · grind
    · grind
  refine ⟨?_, ?_, ?_, ?_, ?_, ?_, ?_⟩
  · intro q tq htq
    rw [hlinks]
    obtain ⟨rfl, rfl⟩ | ⟨hq, rfl, rfl⟩ | ⟨hq, hqp, htq⟩ := hcases q tq htq
    · rw [Function.update_self]
      exact ⟨kids q, rfl, (initPage_agrees hpage).linked (h.linked ht (by rw [hpc]; rfl))⟩
    · rw [Function.update_of_ne hq, h.kids_nil hfree]
      exact linked_init s.links (by simp)
    · rw [Function.update_of_ne hq]
      exact (h.listed htq).frame (initPage_agrees (Ne.symm hqp))
  · intro q
    by_cases hq : q = p
    · subst hq
      rw [Function.update_self]
      exact List.Nodup.concat (h.not_mem hfree) (h.nodup _) |> (List.concat_eq_append ▸ ·)
    · rw [Function.update_of_ne hq]
      exact h.nodup q
  · intro q c
    have hmem : c ∈ Function.update kids p (kids p ++ [page]) q ↔ c ∈ kids q ∨ q = p ∧ c = page := by
      grind
    rw [hmem, h.mem]
    by_cases hcp : c = p
    · subst hcp
      simp [ht, hown, Ne.symm hpage]
    · by_cases hcp' : c = page
      · subst hcp'
        have hne : s.nextTid ≠ initialTid := Nat.ne_of_gt h.fresh
        simp [hfree, hnew, newProc, hne, eq_comm (a := q)]
      · simp [hother c hcp hcp', hcp']
  · intro c tc htc htid
    -- a parent keeps its number
    have hkeep : ∀ q tq, s.procs q = some tq → ∃ tq', s'.procs q = some tq' ∧ tq'.tid = tq.tid := by
      intro q tq htq
      by_cases hq : q = p
      · grind
      · grind
    obtain ⟨rfl, rfl⟩ | ⟨-, rfl, rfl⟩ | ⟨-, -, htc⟩ := hcases c tc htc
    · obtain ⟨tp, htp, hp⟩ := h.parent ht htid
      obtain ⟨tp', htp', hk⟩ := hkeep _ _ htp
      exact ⟨tp', htp', hk.trans hp⟩
    · exact ⟨_, hown, rfl⟩
    · obtain ⟨tp, htp, hp⟩ := h.parent htc htid
      obtain ⟨tp', htp', hk⟩ := hkeep _ _ htp
      exact ⟨tp', htp', hk.trans hp⟩
  · intro q tq htq
    obtain ⟨rfl, rfl⟩ | ⟨-, rfl, rfl⟩ | ⟨hq, -, htq⟩ := hcases q tq htq
    · trivial
    · trivial
    · have hw := h.walks htq
      unfold Walks at hw ⊢
      rwa [Function.update_of_ne hq]
  · intro q tq htq htid
    obtain ⟨rfl, rfl⟩ | ⟨-, rfl, rfl⟩ | ⟨-, -, htq⟩ := hcases q tq htq
    · rfl
    · exact absurd htid (Nat.ne_of_gt h.fresh)
    · exact h.stays htq htid
  · rw [← hs']
    exact Nat.lt_succ_of_lt h.fresh

/-- The element of the list of children that a thread stands on. -/
def Pc.stands : Pc → Option Node
  | .waitFind _ e | .exitLoop e | .exitNext e => some e
  | _ => none

theorem stands_mem {pc : Pc} (hw : Walks kids p pc) (hq : pc.stands = some (.elem q)) : q ∈ kids p := by
  cases pc with
  | waitFind child e | exitLoop e =>
    obtain ⟨rest, hrest, rfl⟩ := hw
    cases rest with
    | nil => cases hq
    | cons q' rest =>
      cases hq
      exact hrest.mem List.mem_cons_self
  | exitNext e =>
    obtain ⟨q', rest, hrest, rfl⟩ := hw
    cases hq
    exact hrest.mem List.mem_cons_self
  | _ => cases hq

theorem stands_pushing {pc : Pc} {e : Node} (h : pc.stands = some e) : pc.pushing = none := by
  cases pc with
  | push => cases h
  | _ => rfl

/-- A place in a list is kept when an element is taken out that is not the one there. -/
theorem suffix_erase {l rest : List Nat} (c : Nat) (hr : rest <:+ l) (hd : l.Nodup) : rest.erase c <:+ l.erase c := by
  obtain ⟨front, rfl⟩ := hr
  by_cases hc : c ∈ front
  · have hrest : c ∉ rest := fun hm => (List.nodup_append.mp hd).2.2 c hc c hm rfl
    rw [List.erase_of_not_mem hrest, List.erase_append_left _ hc]
    exact List.suffix_append _ _
  · grind

theorem head?_erase {rest : List Nat} {c : Nat} (hne : rest.head? ≠ some c) : (rest.erase c).head? = rest.head? := by
  cases rest with
  | nil => rfl
  | cons q rest =>
    grind

/-- A thread goes, without children and while its parent is in user code. -/
theorem Family.gone (h : Family s kids) (ht : s.procs p = some t) (hpc : t.pc = .exitGone) (hkids : kids p = [])
    (huser : ∀ tp, s.procs t.parent = some tp → tp.pc = .user) (hg : threadGone s p = .ok s') :
    Family s' (Function.update kids t.parent ((kids t.parent).erase p)) := by
  have htid : t.tid ≠ initialTid := by
    intro htid
    have := h.stays ht htid
    rw [hpc] at this
    cases this
  obtain ⟨tp, htp, hptid⟩ := h.parent ht htid
  have hmem : p ∈ kids t.parent := h.mem.mpr ⟨t, ht, htid, rfl⟩
  have hne : p ≠ t.parent := by
    grind
  obtain ⟨L, hL, rfl⟩ := threadGone_ok hg
  obtain ⟨L', hL', hlinked, hframe⟩ := remove_child (h.linked htp (by rw [huser tp htp]; rfl)) (h.nodup _) hmem
  rw [hL] at hL'
  cases hL'
  have hlive : ∀ {q tq}, Function.update s.procs p none q = some tq → q ≠ p ∧ s.procs q = some tq := by
    grind
  refine ⟨?_, ?_, ?_, ?_, ?_, ?_, h.fresh⟩
  · intro q tq htq
    obtain ⟨hqp, htq⟩ := hlive htq
    by_cases hq : q = t.parent
    · subst hq
      rw [Function.update_self]
      cases htp.symm.trans htq
      rw [huser tp htp]
      exact (clearPage_agrees hne (h.nodup _).not_mem_erase).linked hlinked
    · rw [Function.update_of_ne hq]
      have hdis := h.disjoint (Ne.symm hq)
      refine ((h.listed htq).frame ?_).frame (clearPage_agrees (Ne.symm hqp) (hdis p hmem))
      exact fun y hy => hframe y (nodes_disjoint hq hdis hy)
  · intro q
    by_cases hq : q = t.parent
    · subst hq
      rw [Function.update_self]
      exact (h.nodup _).erase p
    · rw [Function.update_of_ne hq]
      exact h.nodup q
  · intro q c
    have hmem' : c ∈ Function.update kids t.parent ((kids t.parent).erase p) q ↔ c ≠ p ∧ c ∈ kids q := by
      by_cases hq : q = t.parent
      · subst hq
        rw [Function.update_self, (h.nodup _).mem_erase_iff]
      · rw [Function.update_of_ne hq]
        constructor
        · intro hc
          refine ⟨?_, hc⟩
          intro hcp
          exact h.disjoint (Ne.symm hq) p hmem (hcp ▸ hc)
        · exact And.right
    rw [hmem', h.mem]
    by_cases hcp : c = p
    · simp [hcp]
    · simp [hcp]
  · intro c tc htc htid'
    obtain ⟨hcp, htc⟩ := hlive htc
    obtain ⟨tp', htp', hp'⟩ := h.parent htc htid'
    have hpar : tc.parent ≠ p := by
      intro hpp
      have hin : c ∈ kids p := h.mem.mpr ⟨tc, htc, htid', hpp⟩
      rw [hkids] at hin
      cases hin
    exact ⟨tp', by simp [Function.update_of_ne hpar, htp'], hp'⟩
  · intro q tq htq
    obtain ⟨-, htq⟩ := hlive htq
    by_cases hq : q = t.parent
    · subst hq
      rw [huser tq htq]
      trivial
    · have hw := h.walks htq
      unfold Walks at hw ⊢
      rwa [Function.update_of_ne hq]
  · intro q tq htq htid'
    exact h.stays (hlive htq).2 htid'

end

/-! ### Runs -/

theorem booted_some {p : Nat} {t : Proc} (ht : booted.procs p = some t) :
    p = 0 ∧ t = {newProc initialTid 0 0 false with pc := .user, blocked := false} ∨
    p = 1 ∧ t = newProc idleTid initialTid 0 false := by
  rcases p with _ | _ | p
  · exact .inl ⟨rfl, (Option.some.inj ht).symm⟩
  · exact .inr ⟨rfl, (Option.some.inj ht).symm⟩
  · cases ht

/-- The idle thread is a child of the initial thread. -/
def bootedKids (p : Nat) : List Nat := if p = 0 then [1] else []

theorem family_booted : Family booted bootedKids where
  listed := by
    intro p t ht
    obtain ⟨rfl, rfl⟩ | ⟨rfl, rfl⟩ := booted_some ht
    · exact linked_cons.mpr ⟨⟨rfl, rfl⟩, linked_cons.mpr ⟨⟨rfl, rfl⟩, List.IsChain.singleton _⟩⟩
    · exact linked_cons.mpr ⟨⟨rfl, rfl⟩, List.IsChain.singleton _⟩
  nodup := by
    intro p
    unfold bootedKids
    split <;> simp
  mem := by
    intro p c
    constructor
    · intro hm
      unfold bootedKids at hm
      split at hm
      · rename_i hp
        rw [hp, List.mem_singleton.mp hm]
        exact ⟨_, rfl, by decide, rfl⟩
      · cases hm
    · intro hm
      obtain ⟨t, ht, htid, hp⟩ := hm
      obtain ⟨rfl, rfl⟩ | ⟨rfl, rfl⟩ := booted_some ht
      · exact absurd rfl htid
      · rw [← hp]
        exact List.mem_cons_self
  parent := by
    intro c t ht htid
    obtain ⟨rfl, rfl⟩ | ⟨rfl, rfl⟩ := booted_some ht
    · exact absurd rfl htid
    · exact ⟨_, rfl, rfl⟩
  walks := by
    intro p t ht
    obtain ⟨rfl, rfl⟩ | ⟨rfl, rfl⟩ := booted_some ht <;> trivial
  stays := by
    intro p t ht htid
    obtain ⟨rfl, rfl⟩ | ⟨rfl, rfl⟩ := booted_some ht
    · rfl
    · cases htid
  fresh := by decide

section
variable {s s' : Kernel} {p : Nat} {t : Proc} {kids : Nat → List Nat}

/-- The family through a step: the list of the thread that takes it only grows in `exec`, and of the others
only that of a thread in user code changes. -/
theorem Family.step (h : Family s kids) (ht : s.procs p = some t) (hx : Trans s p t s')
    (hc : t.pc = .exitGone → kids p = [] ∧ ∀ tp, s.procs t.parent = some tp → tp.pc = .user) :
    ∃ kids', Family s' kids' ∧
      (∀ t', s'.procs p = some t' → kids' p = kids p ∨ ∃ page, t'.pc = .push .elem s.nextTid page) ∧
      ∀ r, r ≠ p → (∀ tr, s.procs r = some tr → tr.pc ≠ .user) → kids' r = kids r := by
  rcases hx.calm with hcalm | ⟨page, relative, s1, hpc, hcreate, rfl⟩ | ⟨hpc, hg⟩
  · refine ⟨kids, h.calm ht hcalm (hx.linking ht hcalm) (fun t' => h.walks_step ht hx) ?_, fun _ _ => .inl rfl, ?_⟩
    · intro t' ht' htid
      obtain ⟨t0, ht0, hk, -⟩ := hcalm.before ht'
      cases ht.symm.trans ht0
      have htid0 : t.tid = initialTid := hk.tid ▸ htid
      exact (hx.calls ht (h.stays ht htid0) ht').resolve_right fun hleave => hleave.2 htid0
    · exact fun _ _ _ => rfl
  · refine ⟨_, h.created ht hpc hcreate, ?_, ?_⟩
    · intro t' ht'
      exact .inr ⟨page, goto_self _ ht'⟩
    · exact fun r hrp _ => Function.update_of_ne hrp ..
  · obtain ⟨hkids, huser⟩ := hc hpc
    refine ⟨_, h.gone ht hpc hkids huser hg, ?_, ?_⟩
    · intro t' ht'
      obtain ⟨L, -, rfl⟩ := threadGone_ok hg
      simp at ht'
    · intro r hrp hbusy
      refine Function.update_of_ne ?_ ..
      intro hr
      subst hr
      have htid : t.tid ≠ initialTid := by
        intro htid
        have := h.stays ht htid
        rw [hpc] at this
        cases this
      obtain ⟨tp, htp, -⟩ := h.parent ht htid
      exact hbusy tp htp (huser tp htp)

end

end Pintos.Userprog
