import Pintos.Userprog.Patience

/-! `exec` and `wait`.

A parent reads its child's fields while the child is there to be read: until the parent has
waited for it, or exits itself, nothing lets the child go. So what `exec` and `wait` return is
what the child has noted about its load and its exit. -/
namespace Pintos.Userprog
open Intrusive Steps

/-! ### The contract -/

def ReturnedTo (past : List Event) (p c : Nat) : Prop := ∃ v, .waitReturned p c v ∈ past

def Created (past : List Event) (p c : Nat) : Prop := ∃ wd, .created p c wd ∈ past

/-- What an event requires of those before it. -/
def Law (past : List Event) : Event → Prop
  | .loaded c _ => ∀ b, .loaded c b ∉ past
  | .exiting c _ => ∀ v, .exiting c v ∉ past
  | .execReturned p c result =>
    Created past p c ∧ ∃ b, .loaded c b ∈ past ∧ result = if b then some c else none
  | .waitReturned p c v => Created past p c ∧ Settled past c v ∧ ∀ p', ¬ ReturnedTo past p' c
  | .waitRefused p c => ¬ Created past p c ∨ ReturnedTo past p c
  | _ => True

def Lawful : List Event → Prop
  | [] => True
  | e :: past => Law past e ∧ Lawful past

/-! ### What cannot be undone -/

section
variable {s s' : Kernel} {p : Nat} {t t' : Proc}

/-- The child a thread waits for. -/
def Pc.waitsFor : Pc → Option Nat
  | .waitDown c _ | .waitUp c _ _ => some c
  | _ => none

/-- What cannot be undone: a load, an exit, and a wait before its child's status is returned. -/
structure Onward (s' : Kernel) (t t' : Proc) : Prop where
  loading : t.pc.loading = false → t'.pc.loading = false
  exits : t.pc.exits = true → t'.pc.exits = true
  waits : ∀ {c : Nat}, t.pc.waitsFor = some c → t'.pc.waitsFor = some c ∨ ReturnedTo s'.log t.tid c

theorem onward_goto {s1 : Kernel} {pc : Pc} (hl : t.pc.loading = false → pc.loading = false)
    (hx : t.pc.exits = true → pc.exits = true)
    (hw : ∀ {c}, t.pc.waitsFor = some c → pc.waitsFor = some c ∨ ReturnedTo s1.log t.tid c)
    (ht' : (s1.goto p pc).procs p = some t') : Onward (s1.goto p pc) t t' := by
  have hpc := goto_self pc ht'
  refine ⟨?_, ?_, ?_⟩
  all_goals rw [hpc]
  · exact hl
  · exact hx
  · exact hw

theorem Trans.onward (hx : Trans s p t s') (ht : s.procs p = some t) (ht' : s'.procs p = some t') : Onward s' t t' := by
  cases hx with
  | exitGone hpc hg =>
    obtain ⟨L, -, rfl⟩ := threadGone_ok hg
    simp at ht'
  | waitUp hpc hq =>
    refine onward_goto ?_ ?_ ?_ ht'
    · simp [Pc.loading]
    · simp [hpc, Pc.exits]
    · intro c hc
      rw [hpc] at hc
      cases hc
      exact .inr ⟨_, List.mem_cons_self⟩
  | exit hpc | storeRoot hpc | loaded hpc | loadUp hpc | loadFail hpc | exitUp hpc | processExit hpc | exitDown hpc =>
    obtain ⟨_, -, rfl⟩ := modify_some ht'
    refine ⟨?_, ?_, ?_⟩
    all_goals simp [hpc, Pc.loading, Pc.exits, Pc.waitsFor]
  | chdir hpc =>
    rw [modify_self (t := t) (by simpa using ht)] at ht'
    cases ht'
    exact ⟨id, id, .inl⟩
  | _ hpc =>
    refine onward_goto ?_ ?_ ?_ ht'
    all_goals simp [hpc, Pc.loading, Pc.exits, Pc.waitsFor]

end

/-! ### Parents and their children -/

/-- The child `c` of the thread at `p` is at the page `q`. -/
def ChildAt (s : Kernel) (p c q : Nat) : Prop :=
  ∃ tq, s.procs q = some tq ∧ tq.tid = c ∧ tq.tid ≠ initialTid ∧ tq.parent = p

/-- No `wait` has returned the status of `c`. -/
def Untaken (past : List Event) (c : Nat) : Prop := ∀ p, ¬ ReturnedTo past p c

/-- A walk along `all_list` for the child `c` has not passed it. -/
def Ahead (s : Kernel) (p c : Nat) (at_ : Option Nat) : Prop :=
  ∃ rest q, rest <:+ s.allList ∧ at_ = rest.head? ∧ q ∈ rest ∧ ChildAt s p c q

/-- What a thread in `exec` or `wait` relies on. -/
def Place (s : Kernel) (kids : Nat → List Nat) (p : Nat) : Pc → Prop
  | .push _ c _ | .execWd c | .execReopen c _ => Untaken s.log c ∧ ∃ q, ChildAt s p c q
  | .execStoreWd c _ at_ | .execFind c at_ => Untaken s.log c ∧ Ahead s p c at_
  | .execDown c q => Untaken s.log c ∧ ChildAt s p c q
  | .execStatus c at_ => Untaken s.log c ∧ Ahead s p c at_ ∧
    ∀ q tq, s.procs q = some tq → tq.tid = c → tq.pc.loading = false
  | .waitFind c e => ∃ rest, rest <:+ kids p ∧ e = entry p rest ∧
    ∀ q ∈ kids p, q ∉ rest → ∀ tq, s.procs q = some tq → tq.tid ≠ c
  | .waitDown c q => Untaken s.log c ∧ ChildAt s p c q ∧ ∀ tq, s.procs q = some tq → tq.waitOnCalled = true
  | .waitUp c q v => Untaken s.log c ∧ ChildAt s p c q ∧ (∀ tq, s.procs q = some tq → tq.waitOnCalled = true) ∧
    Settled s.log c v
  | _ => True

structure Bonds (s : Kernel) (kids : Nat → List Nat) : Prop where
  place : ∀ {p : Nat} {t : Proc}, s.procs p = some t → Place s kids p t.pc
  called : ∀ {q : Nat} {t tp : Proc}, s.procs q = some t → t.tid ≠ initialTid → s.procs t.parent = some tp →
    t.waitOnCalled = true → ReturnedTo s.log tp.tid t.tid ∨ tp.pc.waitsFor = some t.tid
  uncalled : ∀ {q : Nat} {t : Proc}, s.procs q = some t → t.waitOnCalled = false → Untaken s.log t.tid
  released : ∀ {q : Nat} {t tp : Proc}, s.procs q = some t → t.tid ≠ initialTid → s.procs t.parent = some tp →
    t.Released → tp.pc.exits = true ∨ ReturnedTo s.log tp.tid t.tid
  children : ∀ {p c : Nat} {t : Proc}, s.procs p = some t → t.pc.exits = false → Created s.log t.tid c →
    (∃ q, ChildAt s p c q) ∨ ReturnedTo s.log t.tid c
  lawful : Lawful s.log

structure Known (s : Kernel) (kids : Nat → List Nat) : Prop where
  family : Family s kids
  orderly : Orderly s kids
  ids : Ids s
  lives : Lives s
  bonds : Bonds s kids

section
variable {s s' : Kernel} {kids kids' : Nat → List Nat} {p q r c : Nat} {t t' tr tr' tq : Proc}

theorem ChildAt.unique {p' q' : Nat} (hids : Ids s) (h : ChildAt s p c q) (h' : ChildAt s p' c q') : q = q' ∧ p = p' := by
  obtain ⟨tq, hq, htid, -, rfl⟩ := h
  obtain ⟨tq', hq', htid', -, rfl⟩ := h'
  have heq : q = q' := hids.unique hq hq' (htid.trans htid'.symm)
  grind

theorem ChildAt.of_tid (hids : Ids s) (h : ChildAt s p c q) {q' : Nat} (hq : s.procs q' = some tq) (htid : tq.tid = c) :
    ChildAt s p c q' := by
  obtain ⟨tq0, hq0, htid0, hne, hp⟩ := h
  have heq : q = q' := hids.unique hq0 hq (htid0.trans htid.symm)
  subst heq
  exact ⟨tq0, hq0, htid0, hne, hp⟩

theorem ChildAt.step (h : ChildAt s r c q) (ht : s.procs p = some t) (hx : Trans s p t s')
    (hq : q = p → t.pc ≠ .exitGone) : ChildAt s' r c q := by
  obtain ⟨tq, htq, htid, hne, hp⟩ := h
  by_cases hqp : q = p
  · subst hqp
    cases ht.symm.trans htq
    obtain ⟨t', ht'⟩ := hx.live ht (hq rfl)
    have hk := hx.own ht ht'
    exact ⟨t', ht', hk.tid.trans htid, hk.tid ▸ hne, hk.parent.trans hp⟩
  · obtain ⟨t', ht', hk⟩ := hx.kept hqp htq
    exact ⟨t', ht', hk.kin.tid.trans htid, hk.kin.tid ▸ hne, hk.kin.parent.trans hp⟩

/-- A child is not its own parent. -/
theorem Known.child_ne (h : Known s kids) (hc : ChildAt s p c q) : q ≠ p := by
  intro hqp
  subst hqp
  obtain ⟨tq, hq, htid, hne, hp⟩ := hc
  obtain ⟨tp, htp, hptid⟩ := h.family.parent hq hne
  rw [hp] at htp
  cases hq.symm.trans htp
  exact Nat.ne_of_lt (h.ids.older hq) hptid.symm

/-- While its parent lives on and has not waited for it, nothing lets a child go. -/
theorem Known.spared (h : Known s kids) (hr : s.procs r = some tr) (hx : tr.pc.exits = false) (hu : Untaken s.log c)
    (hc : ChildAt s r c q) (hq : s.procs q = some tq) : ¬ tq.Released := by
  obtain ⟨tq', hq', htid, hne, hp⟩ := hc
  cases hq.symm.trans hq'
  intro hrel
  rcases h.bonds.released hq hne (hp ▸ hr) hrel with hexits | hret
  · rw [hx] at hexits
    cases hexits
  · exact hu _ (htid ▸ hret)

/-- So it is still there after a step. -/
theorem Known.child_step (h : Known s kids) (hr : s.procs r = some tr) (hexits : tr.pc.exits = false)
    (hu : Untaken s.log c) (hc : ChildAt s r c q) (ht : s.procs p = some t) (hx : Trans s p t s') :
    ChildAt s' r c q := by
  refine hc.step ht hx ?_
  intro hqp hpc
  subst hqp
  exact h.spared hr hexits hu hc ht (.inr hpc)

/-- The only `wait` that can take a child's status is its parent's. -/
theorem Known.untaken_step (h : Known s kids) (hu : Untaken s.log c) (hc : ChildAt s r c q) (hrp : r ≠ p)
    (ht : s.procs p = some t) (hx : Trans s p t s') : Untaken s'.log c := by
  intro p' hret
  obtain ⟨v, hv⟩ := hret
  rcases hx.new_log hv with hv | hn
  · exact hu p' ⟨v, hv⟩
  · cases hn with
    | waitUp hpc =>
      have hplace := h.bonds.place ht
      rw [hpc] at hplace
      exact hrp (hc.unique h.ids hplace.2.1).2

theorem Trans.allList (hx : Trans s p t s') : s'.allList = s.allList ∨ (∃ page, s'.allList = s.allList ++ [page]) ∨
    t.pc = .exitGone ∧ s'.allList = s.allList.erase p := by
  rcases hx.calm with hcalm | ⟨page, relative, s1, -, hc, rfl⟩ | ⟨hpc, hg⟩
  · exact .inl hcalm.allList
  · obtain ⟨-, rfl⟩ := threadCreate_ok hc
    exact .inr (.inl ⟨page, rfl⟩)
  · obtain ⟨L, -, rfl⟩ := threadGone_ok hg
    exact .inr (.inr ⟨hpc, rfl⟩)

/-- A walk along `all_list` keeps its child ahead, unless the thread goes that it stands on. -/
theorem Known.ahead_step {at_ : Option Nat} (h : Known s kids) (hr : s.procs r = some tr) (hexits : tr.pc.exits = false)
    (hu : Untaken s.log c) (ha : Ahead s r c at_) (ht : s.procs p = some t) (hx : Trans s p t s')
    (hseek : t.pc = .exitGone → at_ ≠ some p) : Ahead s' r c at_ := by
  obtain ⟨rest, q, hrest, rfl, hq, hc⟩ := ha
  have hc' := h.child_step hr hexits hu hc ht hx
  rcases hx.allList with hall | ⟨page, hall⟩ | ⟨hpc, hall⟩
  · exact ⟨rest, q, hall ▸ hrest, rfl, hq, hc'⟩
  · refine ⟨rest ++ [page], q, ?_, ?_, List.mem_append_left _ hq, hc'⟩
    · obtain ⟨front, hfront⟩ := hrest
      exact ⟨front, by rw [hall, ← hfront, List.append_assoc]⟩
    · cases rest with
      | nil => cases hq
      | cons q0 rest => rfl
  · refine ⟨rest.erase p, q, ?_, (head?_erase (hseek hpc)).symm, ?_, hc'⟩
    · rw [hall]
      exact suffix_erase p hrest h.ids.nodup
    · have hqp : q ≠ p := by
        intro hqp
        subst hqp
        exact h.spared hr hexits hu hc ht (.inr hpc)
      exact (List.mem_erase_of_ne hqp).mpr hq

/-- The element of `all_list` that `get_thread` stands on. -/
def Pc.seeks : Pc → Option Nat
  | .execStoreWd _ _ at_ | .execFind _ at_ | .execStatus _ at_ => at_
  | _ => none

theorem Marked.called (hm : Marked s' p t r tr tr') (h : tr.waitOnCalled = true) : tr'.waitOnCalled = true := by
  cases hm with
  | found _ hw => simp [h] at hw
  | same hw | down _ _ hw | returned _ _ hw _ | freed _ hw => rw [hw, h]

theorem called_step (hc : ChildAt s r c q) (hw : ∀ tq, s.procs q = some tq → tq.waitOnCalled = true)
    (ht : s.procs p = some t) (hx : Trans s p t s') : ∀ tq, s'.procs q = some tq → tq.waitOnCalled = true := by
  intro tq' hq'
  obtain ⟨tq, hq, -⟩ := hc
  exact (hx.marked ht hq hq').called (hw tq hq)

/-- A child that has been loaded stays so. -/
theorem Known.loaded_step (h : Known s kids) (hc : ChildAt s r c q)
    (hl : ∀ q tq, s.procs q = some tq → tq.tid = c → tq.pc.loading = false) (ht : s.procs p = some t)
    (hx : Trans s p t s') : ∀ q tq, s'.procs q = some tq → tq.tid = c → tq.pc.loading = false := by
  intro q1 tq' hq' htid
  cases hq : s.procs q1 with
  | none =>
    obtain ⟨relative, rfl, -⟩ := hx.newcomer ht hq hq'
    obtain ⟨tq, htq, rfl, -⟩ := hc
    have := h.ids.below htq
    rw [← htid] at this
    exact absurd this (Nat.lt_irrefl _)
  | some tq =>
    by_cases hqp : q1 = p
    · subst hqp
      cases ht.symm.trans hq
      exact (hx.onward ht hq').loading (hl q1 t ht ((hx.own ht hq').tid ▸ htid))
    · obtain ⟨t1, ht1, hk⟩ := hx.kept hqp hq
      cases ht1.symm.trans hq'
      rw [hk.pc]
      exact hl q1 tq hq (hk.kin.tid ▸ htid)

/-- A thread in `exec` or `wait` may rely on the same after a step of another thread. -/
theorem Known.place_other (h : Known s kids) (hr : s.procs r = some tr) (ht : s.procs p = some t) (hx : Trans s p t s')
    (hrp : r ≠ p) (hseek : t.pc = .exitGone → tr.pc.seeks ≠ some p) (hkids : tr.pc ≠ .user → kids' r = kids r) :
    Place s' kids' r tr.pc := by
  have hplace := h.bonds.place hr
  cases hpc : tr.pc with
  | push _ c _ | execWd c | execReopen c _ =>
    rw [hpc] at hplace
    obtain ⟨hu, q, hc⟩ := hplace
    exact ⟨h.untaken_step hu hc hrp ht hx, q, h.child_step hr (by rw [hpc]; rfl) hu hc ht hx⟩
  | execStoreWd c _ at_ | execFind c at_ =>
    rw [hpc] at hplace hseek
    obtain ⟨hu, ha⟩ := hplace
    have ha' := h.ahead_step hr (by rw [hpc]; rfl) hu ha ht hx hseek
    obtain ⟨-, q, -, -, -, hc⟩ := ha
    exact ⟨h.untaken_step hu hc hrp ht hx, ha'⟩
  | execDown c q =>
    rw [hpc] at hplace
    obtain ⟨hu, hc⟩ := hplace
    exact ⟨h.untaken_step hu hc hrp ht hx, h.child_step hr (by rw [hpc]; rfl) hu hc ht hx⟩
  | execStatus c at_ =>
    rw [hpc] at hplace hseek
    obtain ⟨hu, ha, hl⟩ := hplace
    have ha' := h.ahead_step hr (by rw [hpc]; rfl) hu ha ht hx hseek
    obtain ⟨-, q, -, -, -, hc⟩ := ha
    exact ⟨h.untaken_step hu hc hrp ht hx, ha', h.loaded_step hc hl ht hx⟩
  | waitFind c e =>
    rw [hpc] at hplace
    obtain ⟨rest, hrest, rfl, hpassed⟩ := hplace
    have hsame : kids' r = kids r := hkids (by simp [hpc])
    refine ⟨rest, hsame ▸ hrest, rfl, ?_⟩
    intro q hq hn tq' hq'
    rw [hsame] at hq
    obtain ⟨tq, htq, -, -⟩ := h.family.mem.mp hq
    rcases hx.before ht hq' with ⟨tq0, hq0, hk⟩ | hnone
    · rw [hk.tid]
      exact hpassed q hq hn tq0 hq0
    · simp [hnone] at htq
  | waitDown c q =>
    rw [hpc] at hplace
    obtain ⟨hu, hc, hw⟩ := hplace
    exact ⟨h.untaken_step hu hc hrp ht hx, h.child_step hr (by rw [hpc]; rfl) hu hc ht hx, called_step hc hw ht hx⟩
  | waitUp c q v =>
    rw [hpc] at hplace
    obtain ⟨hu, hc, hw, hset⟩ := hplace
    refine ⟨h.untaken_step hu hc hrp ht hx, h.child_step hr (by rw [hpc]; rfl) hu hc ht hx,
      called_step hc hw ht hx, ?_⟩
    rcases hx.notes with hlog | ⟨e, hlog, -⟩
    · rwa [hlog]
    · rw [hlog]
      exact hset.cons e
  | _ => trivial

theorem nextInAll_suffix {l rest : List Nat} (hr : q :: rest <:+ l) (hd : l.Nodup) : nextInAll l q = .ok rest.head? := by
  obtain ⟨front, rfl⟩ := hr
  have hfront : ∀ x ∈ front, (x != q) = true := by
    grind
  rw [nextInAll, List.dropWhile_append_of_pos hfront]
  simp

theorem Known.ahead_start (h : Known s kids) (hc : ChildAt s p c q) : Ahead s p c s.allList.head? := by
  obtain ⟨tq, hq, hrest⟩ := hc
  exact ⟨s.allList, q, List.suffix_rfl, rfl, h.ids.all.mpr ⟨tq, hq⟩, tq, hq, hrest⟩

theorem Known.ahead_next {at_ at' : Option Nat} (h : Known s kids) (ha : Ahead s p c at_)
    (hs : Seeks s c at_ (.further at')) : Ahead s p c at' := by
  obtain ⟨rest, q, hrest, hat, hq, hc⟩ := ha
  cases hs with
  | @further q0 tq0 _ hq0 htid hnext =>
    cases rest with
    | nil => cases hq
    | cons q1 rest =>
      cases hat
      rw [nextInAll_suffix hrest h.ids.nodup] at hnext
      cases hnext
      refine ⟨rest, q, (List.suffix_cons _ _).trans hrest, rfl, ?_, hc⟩
      refine (List.mem_cons.mp hq).resolve_left ?_
      intro hqq
      subst hqq
      obtain ⟨tq, htq, htid', -⟩ := hc
      grind

/-- What has been returned was created. -/
theorem Lawful.created {past : List Event} (h : Lawful past) {v : Int} (hv : .waitReturned p c v ∈ past) :
    Created past p c := by
  induction past with
  | nil => cases hv
  | cons e past ih =>
    obtain ⟨hlaw, hrest⟩ := h
    have hcreated : Created past p c := by
      rcases List.mem_cons.mp hv with rfl | hv
      · exact hlaw.1
      · exact ih hrest hv
    obtain ⟨wd, hwd⟩ := hcreated
    exact ⟨wd, List.mem_cons_of_mem _ hwd⟩

theorem Known.fresh_untaken (h : Known s kids) : Untaken s.log s.nextTid := by
  intro p' hret
  obtain ⟨v, hv⟩ := hret
  obtain ⟨wd, hwd⟩ := h.bonds.lawful.created hv
  exact Nat.lt_irrefl _ (h.ids.named _ hwd _ rfl)

theorem goto_place {pc : Pc} (ht' : (s.goto p pc).procs p = some t') (h : Place (s.goto p pc) kids p pc) :
    Place (s.goto p pc) kids p t'.pc := by
  rwa [goto_self pc ht']

/-- Nothing is asked of a thread outside `exec` and `wait`. -/
theorem modify_place {f : Proc → Proc} (h : ∀ t, Place (s.modify p f) kids p (f t).pc)
    (ht' : (s.modify p f).procs p = some t') : Place (s.modify p f) kids p t'.pc := by
  obtain ⟨t, -, rfl⟩ := modify_some ht'
  exact h t

/-- A thread in `exec` or `wait` through its own step. -/
theorem Known.place_own (h : Known s kids) (ht : s.procs p = some t) (hx : Trans s p t s')
    (ht' : s'.procs p = some t') (hkids : kids' p = kids p ∨ ∃ page, t'.pc = .push .elem s.nextTid page) : Place s' kids' p t'.pc := by
  have hplace := h.bonds.place ht
  have hkeep : t.pc.exits = false → ∀ {c q}, Untaken s.log c → ChildAt s p c q → ChildAt s' p c q :=
    fun he _ _ hu hc => h.child_step ht he hu hc ht hx
  have hahead : t.pc.exits = false → ∀ {c at_}, Untaken s.log c → Ahead s p c at_ → Ahead s' p c at_ := by
    intro he c at_ hu ha
    refine h.ahead_step ht he hu ha ht hx ?_
    intro hpc
    rw [hpc] at he
    cases he
  cases hx' : hx with
  | @exec page relative _ hpc hc =>
    obtain ⟨hfree, rfl⟩ := threadCreate_ok hc
    have hne : page ≠ p := fun heq => by simp [heq, ht] at hfree
    refine goto_place ht' ⟨?_, page, newProc s.nextTid t.tid p relative, ?_, rfl, Nat.ne_of_gt h.family.fresh, rfl⟩
    · intro p' hret
      obtain ⟨v, hv⟩ := hret
      exact h.fresh_untaken p' ⟨v, (List.mem_cons.mp hv).resolve_left (by simp)⟩
    · exact (modify_other hne).trans (Function.update_self ..)
  | wait hpc he =>
    have hkids : kids' p = kids p := hkids.resolve_right (by simp [goto_self _ ht'])
    rw [next_head (h.family.linked ht (by rw [hpc]; rfl))] at he
    cases he
    refine goto_place ht' ⟨kids' p, List.suffix_rfl, by rw [hkids], ?_⟩
    intro q hq hn
    exact absurd hq hn
  | pushElem hpc | pushLast hpc | pushTail hpc | execWd hpc =>
    rw [hpc] at hplace hkeep
    obtain ⟨hu, q, hc⟩ := hplace
    exact goto_place ht' ⟨hu, q, hkeep rfl hu hc⟩
  | execNoWd hpc | execReopen hpc | execNoMemory hpc =>
    rw [hpc] at hplace hkeep hahead
    obtain ⟨hu, q, hc⟩ := hplace
    exact goto_place ht' ⟨hu, hahead rfl hu (h.ahead_start hc)⟩
  | execSeekWd hpc hs | execSeek hpc hs =>
    rw [hpc] at hplace hahead
    obtain ⟨hu, ha⟩ := hplace
    exact goto_place ht' ⟨hu, hahead rfl hu (h.ahead_next ha hs)⟩
  | execStoreWd hpc hs =>
    rw [hpc] at hplace hahead
    obtain ⟨hu, -, q, -, -, -, hc⟩ := hplace
    exact goto_place ht' ⟨hu, hahead rfl hu (h.ahead_start hc)⟩
  | execFind hpc hs =>
    rw [hpc] at hplace hkeep
    obtain ⟨hu, -, q, -, -, -, hc⟩ := hplace
    cases hs with
    | found hq htid => exact goto_place ht' ⟨hu, hkeep rfl hu (hc.of_tid h.ids hq htid)⟩
  | execDown hpc hq hdone =>
    rw [hpc] at hplace hahead
    obtain ⟨hu, hc⟩ := hplace
    refine goto_place ht' ⟨hu, hahead rfl hu (h.ahead_start hc), h.loaded_step hc ?_ ht hx⟩
    intro q1 tq1 hq1 htid
    have heq := (hc.unique h.ids (hc.of_tid h.ids hq1 htid)).1
    subst heq
    cases hq.symm.trans hq1
    exact (h.lives hq).loaded_of_up hdone
  | execSeekStatus hpc hs =>
    rw [hpc] at hplace hahead
    obtain ⟨hu, ha, hl⟩ := hplace
    have ⟨_, q, _, _, _, hc⟩ := ha
    exact goto_place ht' ⟨hu, hahead rfl hu (h.ahead_next ha hs), h.loaded_step hc hl ht hx⟩
  | @waitNext child q0 tq0 e hpc hq htid he =>
    have hkids : kids' p = kids p := hkids.resolve_right (by simp [goto_self _ ht'])
    rw [hpc] at hplace
    obtain ⟨rest, hrest, heq, hpassed⟩ := hplace
    cases rest with
    | nil => cases heq
    | cons q1 rest =>
      cases heq
      rw [next_elem (h.family.linked ht (by rw [hpc]; rfl)) hrest] at he
      cases he
      refine goto_place ht' ⟨rest, by rw [hkids]; exact (List.suffix_cons _ _).trans hrest, rfl, ?_⟩
      intro q hqk hn tq' hq'
      rw [hkids] at hqk
      rcases hx.before ht hq' with ⟨tq, htq, hk⟩ | hnone
      · rw [hk.tid]
        by_cases hqq : q = q0
        · subst hqq
          cases hq.symm.trans htq
          exact htid
        · exact hpassed q hqk (fun hm => hn ((List.mem_cons.mp hm).resolve_left hqq)) tq htq
      · obtain ⟨tq, htq, -⟩ := h.family.mem.mp hqk
        simp [hnone] at htq
  | @waitFound child q tq hpc hq htid hw =>
    have hmem : q ∈ kids p := stands_mem (h.family.walks ht) (by rw [hpc]; rfl)
    obtain ⟨tq', hq', hne, hp⟩ := h.family.mem.mp hmem
    cases hq.symm.trans hq'
    have hc : ChildAt s p child q := ⟨tq, hq, htid, hne, hp⟩
    have hu : Untaken s.log child := htid ▸ h.bonds.uncalled hq hw
    rw [hpc] at hkeep
    refine goto_place ht' ⟨hu, hkeep rfl hu hc, ?_⟩
    intro tq' hq'
    rw [Kernel.goto, modify_other (h.child_ne hc), modify_self hq] at hq'
    cases hq'
    rfl
  | waitDown hpc hq hexited =>
    rw [hpc] at hplace hkeep
    obtain ⟨hu, hc, hw⟩ := hplace
    refine goto_place ht' ⟨hu, hkeep rfl hu hc, called_step hc hw ht hx, ?_⟩
    obtain ⟨tq', hq', htid, -⟩ := hc
    cases hq.symm.trans hq'
    exact htid ▸ (h.lives hq).settled_of_up hexited
  | chdir hpc =>
    rw [modify_self (t := t) (by simpa using ht)] at ht'
    cases ht'
    show Place _ kids' p t.pc
    rw [hpc]
    trivial
  | exitGone hpc hg =>
    obtain ⟨L, -, rfl⟩ := threadGone_ok hg
    simp at ht'
  | exit | storeRoot | loaded | loadUp | loadFail | exitUp | processExit | exitDown =>
    exact modify_place (fun _ => trivial) ht'
  | _ => exact goto_place ht' trivial

/-- A thread after any step, its own or not. -/
theorem Trans.after (hx : Trans s p t s') (ht : s.procs p = some t) (hr : s.procs r = some tr)
    (hr' : s'.procs r = some tr') : Kin tr tr' ∧ Onward s' tr tr' := by
  by_cases hrp : r = p
  · subst hrp
    cases ht.symm.trans hr
    exact ⟨hx.own ht hr', hx.onward ht hr'⟩
  · obtain ⟨t1, ht1, hk⟩ := hx.kept hrp hr
    cases ht1.symm.trans hr'
    refine ⟨hk.kin, ?_, ?_, ?_⟩
    all_goals rw [hk.pc]
    · exact id
    · exact id
    · exact .inl

theorem ReturnedTo.step {p' : Nat} (h : ReturnedTo s.log p' c) (hx : Trans s p t s') : ReturnedTo s'.log p' c := by
  obtain ⟨v, hv⟩ := h
  exact ⟨v, hx.mem_log hv⟩

/-- The child a thread stands on. -/
theorem Known.standing (h : Known s kids) (ht : s.procs p = some t) (hq : s.procs q = some tq)
    (hst : t.pc.stands = some (.elem q)) : tq.tid ≠ initialTid ∧ tq.parent = p := by
  obtain ⟨tq', hq', hne, hp⟩ := h.family.mem.mp (stands_mem (h.family.walks ht) hst)
  grind

/-- The child whose status a thread is about to return. -/
theorem Known.returning (h : Known s kids) {v : Int} (ht : s.procs p = some t) (hpc : t.pc = .waitUp c q v)
    (hq : s.procs q = some tq) : tq.tid = c ∧ tq.parent = p ∧ tq.waitOnCalled = true := by
  have hplace := h.bonds.place ht
  rw [hpc] at hplace
  obtain ⟨-, ⟨tq', hq', htid, -, hp⟩, hw, -⟩ := hplace
  grind

theorem Known.called_step (h : Known s kids) (ht : s.procs p = some t) (hx : Trans s p t s') {tp' : Proc}
    (hq' : s'.procs q = some tr') (hne : tr'.tid ≠ initialTid) (hp' : s'.procs tr'.parent = some tp')
    (hw : tr'.waitOnCalled = true) : ReturnedTo s'.log tp'.tid tr'.tid ∨ tp'.pc.waitsFor = some tr'.tid := by
  cases hq : s.procs q with
  | none =>
    obtain ⟨relative, rfl, -⟩ := hx.newcomer ht hq hq'
    cases hw
  | some tr =>
    obtain ⟨hk, -⟩ := hx.after ht hq hq'
    rw [hk.tid] at hne ⊢
    rw [hk.parent] at hp'
    obtain ⟨tp, hp, -⟩ := h.family.parent hq hne
    obtain ⟨hkp, honward⟩ := hx.after ht hp hp'
    rw [hkp.tid]
    have hold : tr.waitOnCalled = true → ReturnedTo s'.log tp.tid tr.tid ∨ tp'.pc.waitsFor = some tr.tid := by
      intro hw
      rcases h.bonds.called hq hne hp hw with hret | hwait
      · exact .inl (hret.step hx)
      · exact (honward.waits hwait).symm
    cases hx.marked ht hq hq' with
    | found hpc _ _ _ hgoes =>
      have hparent := (h.standing ht hq (by rw [hpc]; rfl)).2
      rw [hparent] at hp'
      rw [hgoes tp' hp']
      exact .inr rfl
    | same hw' | down _ _ hw' | returned _ _ hw' _ | freed _ hw' => exact hold (hw' ▸ hw)

theorem Known.uncalled_step (h : Known s kids) (ht : s.procs p = some t) (hx : Trans s p t s')
    (hq' : s'.procs q = some tr') (hw : tr'.waitOnCalled = false) : Untaken s'.log tr'.tid := by
  intro p' hret
  obtain ⟨v, hv⟩ := hret
  cases hq : s.procs q with
  | none =>
    obtain ⟨relative, rfl, -, -, hlog⟩ := hx.newcomer ht hq hq'
    rw [hlog] at hv
    exact h.fresh_untaken p' ⟨v, (List.mem_cons.mp hv).resolve_left (by simp)⟩
  | some tr =>
    rw [(hx.after ht hq hq').1.tid] at hv
    have hw0 : tr.waitOnCalled = false := by
      cases hw0 : tr.waitOnCalled with
      | false => rfl
      | true => exact ((hx.marked ht hq hq').called hw0).symm.trans hw
    rcases hx.new_log hv with hv | hn
    · exact h.bonds.uncalled hq hw0 p' ⟨v, hv⟩
    · cases hn with
      | @waitUp _ q1 _ hpc =>
        have hplace := h.bonds.place ht
        rw [hpc] at hplace
        obtain ⟨-, hc, hcalled, -⟩ := hplace
        have heq := (hc.unique h.ids (hc.of_tid h.ids hq rfl)).1
        grind

theorem Known.released_step (h : Known s kids) (ht : s.procs p = some t) (hx : Trans s p t s') {tp' : Proc}
    (hq' : s'.procs q = some tr') (hne : tr'.tid ≠ initialTid) (hp' : s'.procs tr'.parent = some tp')
    (hrel : tr'.Released) : tp'.pc.exits = true ∨ ReturnedTo s'.log tp'.tid tr'.tid := by
  cases hq : s.procs q with
  | none =>
    obtain ⟨relative, rfl, -⟩ := hx.newcomer ht hq hq'
    rcases hrel with hrel | hrel <;> cases hrel
  | some tr =>
    obtain ⟨hk, -⟩ := hx.after ht hq hq'
    rw [hk.tid] at hne ⊢
    rw [hk.parent] at hp'
    obtain ⟨tp, hp, -⟩ := h.family.parent hq hne
    obtain ⟨hkp, honward⟩ := hx.after ht hp hp'
    rw [hkp.tid]
    have hold : tr.Released → tp'.pc.exits = true ∨ ReturnedTo s'.log tp.tid tr.tid := by
      intro hrel
      rcases h.bonds.released hq hne hp hrel with hexits | hret
      · exact .inl (honward.exits hexits)
      · exact .inr (hret.step hx)
    have hfree : tr'.canFree = tr.canFree → tp'.pc.exits = true ∨ ReturnedTo s'.log tp.tid tr.tid := by
      intro hsame
      rcases hrel with hrel | hgone
      · exact hold (.inl (hsame ▸ hrel))
      · by_cases hqp : q = p
        · subst hqp
          cases ht.symm.trans hq
          exact hold (.inl (hx.let_go ht hq' hgone))
        · obtain ⟨t1, ht1, hkept⟩ := hx.kept hqp hq
          cases ht1.symm.trans hq'
          exact hold (.inr (hkept.pc ▸ hgone))
    cases hx.marked ht hq hq' with
    | same _ hc => exact hfree hc
    | found _ _ _ hc _ => exact hfree hc
    | down _ hpos _ => exact hold (.inl hpos)
    | returned hpc hv _ _ =>
      obtain ⟨rfl, hparent, -⟩ := h.returning ht hpc hq
      rw [hparent] at hp
      cases ht.symm.trans hp
      exact .inr ⟨_, hv⟩
    | freed hpc _ =>
      have hparent := (h.standing ht hq (by rw [hpc]; rfl)).2
      rw [hparent] at hp
      cases ht.symm.trans hp
      exact .inl (honward.exits (by rw [hpc]; rfl))

/-- A new child is there. -/
theorem Trans.created_child (hx : Trans s p t s') (hfam : Family s kids) (ht : s.procs p = some t) {p' : Nat}
    (hc : Created s'.log p' c) : Created s.log p' c ∨ p' = t.tid ∧ ∃ q, ChildAt s' p c q := by
  obtain ⟨wd, hwd⟩ := hc
  rcases hx.calm with hcalm | ⟨page, relative, s1, -, hcreate, rfl⟩ | ⟨-, hg⟩
  · rcases hx.new_log hwd with hwd | hn
    · exact .inl ⟨wd, hwd⟩
    · cases hn with
      | created _ hnext =>
        rw [hcalm.nextTid] at hnext
        exact absurd hnext (Nat.ne_of_lt (Nat.lt_succ_self _))
  · obtain ⟨hfree, rfl⟩ := threadCreate_ok hcreate
    have hne : page ≠ p := fun heq => by simp [heq, ht] at hfree
    rcases List.mem_cons.mp hwd with heq | hwd
    · cases heq
      refine .inr ⟨rfl, page, newProc s.nextTid t.tid p relative, ?_, rfl, Nat.ne_of_gt hfam.fresh, rfl⟩
      exact (modify_other hne).trans (Function.update_self ..)
    · exact .inl ⟨wd, hwd⟩
  · obtain ⟨L, -, rfl⟩ := threadGone_ok hg
    exact .inl ⟨wd, hwd⟩

theorem Known.children_step (h : Known s kids) (ht : s.procs p = some t) (hx : Trans s p t s')
    (hr' : s'.procs r = some tr') (hexits : tr'.pc.exits = false) (hc : Created s'.log tr'.tid c) :
    (∃ q, ChildAt s' r c q) ∨ ReturnedTo s'.log tr'.tid c := by
  cases hr : s.procs r with
  | none =>
    obtain ⟨relative, rfl, -, -, hlog⟩ := hx.newcomer ht hr hr'
    -- the new thread has created none: those created so far are younger than their parents
    obtain ⟨wd, hwd⟩ := hc
    rw [hlog] at hwd
    rcases List.mem_cons.mp hwd with heq | hwd
    · have htid : s.nextTid = t.tid := by injection heq
      exact absurd htid (Nat.ne_of_gt (h.ids.below ht))
    · have hlt := h.ids.younger hwd
      exact absurd (h.ids.named _ hwd _ rfl) (Nat.lt_asymm hlt)
  | some tr =>
    obtain ⟨hk, honward⟩ := hx.after ht hr hr'
    rw [hk.tid] at hc ⊢
    have hexits0 : tr.pc.exits = false := by
      cases he : tr.pc.exits with
      | false => rfl
      | true => exact (honward.exits he).symm.trans hexits
    rcases hx.created_child h.family ht hc with hc | ⟨htid, q, hq⟩
    · rcases h.bonds.children hr hexits0 hc with ⟨q, hq⟩ | hret
      · by_cases hgone : q = p ∧ t.pc = .exitGone
        · obtain ⟨rfl, hpc⟩ := hgone
          obtain ⟨tq, htq, rfl, hne, rfl⟩ := hq
          cases ht.symm.trans htq
          rcases h.bonds.released ht hne hr (.inr hpc) with he | hret
          · rw [hexits0] at he
            cases he
          · exact .inr (hret.step hx)
        · exact .inl ⟨q, hq.step ht hx fun heq hpc => hgone ⟨heq, hpc⟩⟩
      · exact .inr (hret.step hx)
    · have heq := h.ids.unique hr ht htid
      subst heq
      exact .inl ⟨q, hq⟩

theorem Known.created (h : Known s kids) (ht : s.procs p = some t) (hc : ChildAt s p c q) : Created s.log t.tid c := by
  obtain ⟨tq, hq, rfl, hne, rfl⟩ := hc
  obtain ⟨tp, htp, hptid⟩ := h.family.parent hq hne
  cases ht.symm.trans htp
  obtain ⟨wd, hwd⟩ := h.ids.born hq hne
  exact ⟨wd, hptid ▸ hwd⟩

/-- What a step notes is lawful. -/
theorem Known.law (h : Known s kids) (ht : s.procs p = some t) {e : Event} (hn : Noted s s' p t e) : Law s.log e := by
  have hplace := h.bonds.place ht
  cases hn with
  | created | resolved | started => trivial
  | loaded hpc => exact ((h.lives ht).unloaded (by rw [hpc]; rfl)).2
  | exiting hpc => exact ((h.lives ht).alive (by rw [hpc]; rfl)).2.2
  | execLost hpc hs =>
    rw [hpc] at hplace
    obtain ⟨-, ⟨rest, q, -, hat, hq, -⟩, -⟩ := hplace
    cases hs
    cases rest with
    | nil => cases hq
    | cons => cases hat
  | execReturn hpc hs =>
    rw [hpc] at hplace
    obtain ⟨-, ⟨-, q, -, -, -, hc⟩, hl⟩ := hplace
    cases hs with
    | found hq htid =>
      have hcreated := h.created ht hc
      obtain ⟨tq, hq', -, hne, -⟩ := hc.of_tid h.ids hq htid
      cases hq.symm.trans hq'
      exact ⟨hcreated, _, htid ▸ (h.lives hq).loaded (hl _ _ hq htid) hne, rfl⟩
  | waitEnd hpc =>
    rw [hpc] at hplace
    obtain ⟨rest, -, heq, hpassed⟩ := hplace
    cases rest with
    | cons => cases heq
    | nil =>
      refine or_iff_not_imp_left.mpr fun hc => ?_
      rcases h.bonds.children ht (by rw [hpc]; rfl) (not_not.mp hc) with ⟨q, tq, hq, htid, hne, hp⟩ | hret
      · have hmem : q ∈ kids p := h.family.mem.mpr ⟨tq, hq, hne, hp⟩
        exact absurd htid (hpassed q hmem (by simp) tq hq)
      · exact hret
  | waitAgain hpc hq htid hw =>
    obtain ⟨hne, hp⟩ := h.standing ht hq (by rw [hpc]; rfl)
    rcases h.bonds.called hq hne (hp ▸ ht) hw with hret | hwait
    · exact .inr (htid ▸ hret)
    · rw [hpc] at hwait
      cases hwait
  | waitUp hpc =>
    rw [hpc] at hplace
    obtain ⟨hu, hc, -, hset⟩ := hplace
    exact ⟨h.created ht hc, hset, hu⟩

theorem Known.step (h : Known s kids) (ht : s.procs p = some t) (hx : Trans s p t s') (hm : Minds s s' p t)
    (hseek : t.pc = .exitGone → ∀ r tr, s.procs r = some tr → tr.pc.seeks ≠ some p) : ∃ kids', Known s' kids' := by
  obtain ⟨kids', hfam', horder', hown, hother⟩ := h.orderly.step h.family hm ht hx
  refine ⟨kids', hfam', horder', h.ids.step ht hx, Lives.step @h.lives h.ids (h.family.stays ht) ht hx, ?_⟩
  refine ⟨?_, h.called_step ht hx, h.uncalled_step ht hx, h.released_step ht hx, h.children_step ht hx, ?_⟩
  · intro r tr' hr'
    by_cases hrp : r = p
    · subst hrp
      exact h.place_own ht hx hr' (hown tr' hr')
    · cases hr : s.procs r with
      | none =>
        obtain ⟨relative, rfl, -⟩ := hx.newcomer ht hr hr'
        trivial
      | some tr =>
        obtain ⟨t1, ht1, hk⟩ := hx.kept hrp hr
        cases ht1.symm.trans hr'
        rw [hk.pc]
        exact h.place_other hr ht hx hrp (fun hpc => hseek hpc r tr hr) fun hbusy => hother r hrp (by simpa [hr] using hbusy)
  · rcases hx.notes with hlog | ⟨e, hlog, hn⟩
    · rw [hlog]
      exact h.bonds.lawful
    · rw [hlog]
      exact ⟨h.law ht hn, h.bonds.lawful⟩

theorem known_booted : Known booted bootedKids where
  family := family_booted
  orderly := orderly_booted
  ids := ids_booted
  lives := lives_booted
  bonds := by
    have hnone : ∀ p c, ¬ ReturnedTo booted.log p c := by
      intro p c hret
      obtain ⟨v, hv⟩ := hret
      cases List.mem_singleton.mp hv
    refine ⟨?_, ?_, ?_, ?_, ?_, trivial, trivial⟩
    · intro p t ht
      obtain ⟨-, rfl⟩ | ⟨-, rfl⟩ := booted_some ht <;> trivial
    · intro q t tp ht _ _ hw
      obtain ⟨-, rfl⟩ | ⟨-, rfl⟩ := booted_some ht <;> cases hw
    · exact fun _ _ p => hnone p _
    · intro q t tp ht _ _ hrel
      obtain ⟨-, rfl⟩ | ⟨-, rfl⟩ := booted_some ht
      · rcases hrel with hrel | hrel <;> cases hrel
      · rcases hrel with hrel | hrel <;> cases hrel
    · intro p c t ht _ hc
      obtain ⟨wd, hwd⟩ := hc
      have hc : t.tid = initialTid ∧ c = idleTid := by
        injection List.mem_singleton.mp hwd with htid hc
        exact ⟨htid, hc⟩
      obtain ⟨rfl, -⟩ | ⟨-, rfl⟩ := booted_some ht
      · exact .inl ⟨1, _, rfl, hc.2.symm, by decide, rfl⟩
      · cases hc.1

end

/-! ### Runs -/

/-- A thread waits for its children as `Patient` says, and goes only while no thread in `get_thread` stands on it. -/
def GoesUnseen (a : Act) (s : Kernel) : Prop :=
  Patient a s ∧ ∀ t ∈ s.procs a.page, t.pc = .exitGone →
    ∀ r ∈ s.allList, ∀ tr ∈ s.procs r, tr.pc.seeks ≠ some a.page

instance (a : Act) (s : Kernel) : Decidable (GoesUnseen a s) :=
  inferInstanceAs (Decidable (Patient a s ∧ ∀ t ∈ s.procs a.page, t.pc = .exitGone →
    ∀ r ∈ s.allList, ∀ tr ∈ s.procs r, tr.pc.seeks ≠ some a.page))

theorem known_reach {s : Kernel} (hr : Reach step GoesUnseen (· = booted) s) : ∃ kids, Known s kids := by
  refine hr.invariant (J := fun s => ∃ kids, Known s kids) ?_ ?_
  · intro s hs
    subst hs
    exact ⟨_, known_booted⟩
  · intro s a s' h hc hstep
    obtain ⟨kids, h⟩ := h
    obtain ⟨t, ht, hx⟩ := step_trans hstep
    refine h.step ht hx (hc.1.minds h.ids ht hstep) ?_
    intro hpc r tr hr
    exact hc.2 t ht hpc r (h.ids.all.mpr ⟨tr, hr⟩) tr hr

/-! ### Refusing without blocking -/

section
variable {s : Kernel} {p q c : Nat} {t tq : Proc} {l rest : List Nat}

theorem step_waitFind_tail (ht : s.procs p = some t) (hpc : t.pc = .waitFind c (.tail p)) :
    step ⟨p, .go⟩ s = .ok ((s.note (.waitRefused t.tid c)).goto p .user) := by
  simp [step, Kernel.get, ht, hpc, waitStep, bind, Except.bind]

theorem step_waitFind_elem (ht : s.procs p = some t) (hpc : t.pc = .waitFind c (.elem q)) (hq : s.procs q = some tq)
    {e : Node} (hnext : s.links.next (.elem q) = some e) :
    step ⟨p, .go⟩ s = .ok (if tq.tid = c then
      if tq.waitOnCalled then (s.note (.waitRefused t.tid c)).goto p .user
      else (s.modify q fun t => {t with waitOnCalled := true}).goto p (.waitDown c q)
      else s.goto p (.waitFind c e)) := by
  by_cases htid : tq.tid = c
  · cases hw : tq.waitOnCalled <;> simp [step, Kernel.get, ht, hpc, waitStep, hq, htid, hw, bind, Except.bind, pure, Except.pure]
  · simp [step, Kernel.get, Kernel.listNext, ht, hpc, waitStep, hq, htid, hnext, bind, Except.bind, pure, Except.pure]

/-- A walk that finds the child waited for before, or none, ends by its own steps alone. -/
theorem refused_alone (hl : s.links.Linked (nodes p l)) (hrest : rest <:+ l) (ht : s.procs p = some t)
    (hpc : t.pc = .waitFind c (entry p rest))
    (hkids : ∀ q ∈ l, q ≠ p ∧ ∃ tq, s.procs q = some tq ∧ (tq.tid = c → tq.waitOnCalled = true)) :
    ∃ n s', after step (fun _ _ => true) (turns p n) s = some s' ∧ s'.log = .waitRefused t.tid c :: s.log := by
  induction rest generalizing s t with
  | nil => exact ⟨1, _, after_cons rfl (step_waitFind_tail ht hpc), rfl⟩
  | cons q rest ih =>
    obtain ⟨-, tq, hq, hw⟩ := hkids q (hrest.mem List.mem_cons_self)
    have hstep := step_waitFind_elem ht hpc hq (next_elem hl hrest)
    by_cases htid : tq.tid = c
    · rw [if_pos htid, if_pos (hw htid)] at hstep
      exact ⟨1, _, after_cons rfl hstep, rfl⟩
    · rw [if_neg htid] at hstep
      obtain ⟨n, s', hs', hlog⟩ := ih (s := s.goto p (.waitFind c (entry p rest))) hl
        ((List.suffix_cons _ _).trans hrest) (modify_self ht) rfl fun q hq => by
          obtain ⟨hne, tq, htq, hw⟩ := hkids q hq
          exact ⟨hne, tq, (modify_other hne).trans htq, hw⟩
      exact ⟨n + 1, s', (after_cons rfl hstep).trans hs', hlog⟩

end

def Event.returns : Event → Option Nat
  | .waitReturned _ c _ => some c
  | _ => none

end Pintos.Userprog
