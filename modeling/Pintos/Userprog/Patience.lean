import Pintos.Userprog.Lives

/-! Threads that wait until their children have gone.

A thread that has been let go takes its `child_elem` off its parent's list at any time from then on. So the
lists stay whole as long as a thread calls `exec` and `wait` only while none of its children has been let go
and is still there, and exits only when it has no children left. Without that a child can be left
on the list of a parent that has gone, and a parent on a child that has. -/
namespace Pintos.Userprog
open Intrusive Steps

/-! ### What a step does to flags and semaphores -/

section
variable {s s' : Kernel} {p q r : Nat} {t t' tr tr' : Proc}

/-- What the step of the thread at `p` does to the flag `wait_on_called` and the semaphore `can_free` of a thread. -/
inductive Marked (s' : Kernel) (p : Nat) (t : Proc) (r : Nat) (tr tr' : Proc) : Prop where
  | same : tr'.waitOnCalled = tr.waitOnCalled → tr'.canFree = tr.canFree → Marked s' p t r tr tr'
  | down : tr.pc = .exitDown → 0 < tr.canFree → tr'.waitOnCalled = tr.waitOnCalled → Marked s' p t r tr tr'
  | found : t.pc = .waitFind tr.tid (.elem r) → tr.waitOnCalled = false → tr'.waitOnCalled = true →
      tr'.canFree = tr.canFree → (∀ t', s'.procs p = some t' → t'.pc = .waitDown tr.tid r) → Marked s' p t r tr tr'
  | returned {c : Nat} {v : Int} : t.pc = .waitUp c r v → .waitReturned t.tid c v ∈ s'.log →
      tr'.waitOnCalled = tr.waitOnCalled → (∀ t', s'.procs p = some t' → t'.pc = .user) → Marked s' p t r tr tr'
  | freed : t.pc = .exitLoop (.elem r) → tr'.waitOnCalled = tr.waitOnCalled → Marked s' p t r tr tr'

/-- The two fields. -/
def Proc.marks (t : Proc) : Bool × Nat := (t.waitOnCalled, t.canFree)

theorem marked_same (hr : s.procs r = some tr) (hr' : s'.procs r = some tr')
    (h : (s'.procs r).map Proc.marks = (s.procs r).map Proc.marks) : Marked s' p t r tr tr' := by
  rw [hr, hr'] at h
  injection h with h
  exact .same (congrArg Prod.fst h) (congrArg Prod.snd h)

theorem goto_marks {pc : Pc} : ((s.goto p pc).procs r).map Proc.marks = (s.procs r).map Proc.marks :=
  modify_map fun _ => rfl

theorem field_marks {f : Proc → Proc} {pc : Pc} (hr : s.procs q = some tr)
    (hr' : ((s.modify q f).goto p pc).procs q = some tr') : tr'.marks = (f tr).marks :=
  field_map (fun _ => rfl) hr hr'

theorem Trans.marked (hx : Trans s p t s') (ht : s.procs p = some t) (hr : s.procs r = some tr)
    (hr' : s'.procs r = some tr') : Marked s' p t r tr tr' := by
  cases hx with
  | @exec page _ _ hpc hc =>
    obtain ⟨hfree, rfl⟩ := threadCreate_ok hc
    have hne : r ≠ page := fun h => by simp [h, hfree] at hr
    refine marked_same hr hr' (goto_marks.trans ?_)
    grind
  | exitGone hpc hg =>
    obtain ⟨L, -, rfl⟩ := threadGone_ok hg
    have hne : r ≠ p := fun h => by simp [h] at hr'
    refine marked_same hr hr' ?_
    grind
  | @waitFound child q tq hpc hq htid hw =>
    by_cases hrq : r = q
    · subst hrq
      cases hr.symm.trans hq
      have hmarks := field_marks hr hr'
      refine .found (htid ▸ hpc) hw (congrArg Prod.fst hmarks) (congrArg Prod.snd hmarks) ?_
      intro t' ht'
      rw [goto_self _ ht', htid]
    · refine marked_same hr hr' (goto_marks.trans ?_)
      rw [modify_other hrq]
  | @waitUp child q value tq hpc hq =>
    by_cases hrq : r = q
    · subst hrq
      cases hr.symm.trans hq
      exact .returned hpc List.mem_cons_self (congrArg Prod.fst (field_marks hr hr')) fun t' ht' => goto_self _ ht'
    · refine marked_same hr hr' (goto_marks.trans ?_)
      show ((s.modify q _).procs r).map _ = _
      rw [modify_other hrq]
  | @exitLoop q tq hpc hq =>
    by_cases hrq : r = q
    · subst hrq
      cases hr.symm.trans hq
      exact .freed hpc (congrArg Prod.fst (field_marks hr hr'))
    · refine marked_same hr hr' (goto_marks.trans ?_)
      rw [modify_other hrq]
  | exitDown hpc hfree =>
    by_cases hrp : r = p
    · subst hrp
      cases hr.symm.trans ht
      rw [modify_self hr] at hr'
      cases hr'
      exact .down hpc hfree rfl
    · refine marked_same hr hr' ?_
      rw [modify_other hrp]
  | chdir hpc =>
    refine marked_same hr hr' (Eq.trans (modify_map ?_) ?_)
    · exact fun _ => rfl
    · simp
  | exitClose hpc =>
    refine marked_same hr hr' (goto_marks.trans ?_)
    simp
  | pushTail | execStoreWd | execDown | waitDown =>
    refine marked_same hr hr' (goto_marks.trans ?_)
    exact modify_map fun _ => rfl
  | _ => exact marked_same hr hr' (modify_map fun _ => rfl)

/-- A thread that is about to go has been let go. -/
theorem Trans.let_go (hx : Trans s p t s') (ht : s.procs p = some t) (ht' : s'.procs p = some t')
    (hpc' : t'.pc = .exitGone) : 0 < t.canFree := by
  cases hx with
  | exitDown hpc hfree => exact hfree
  | exitGone hpc hg =>
    obtain ⟨L, -, rfl⟩ := threadGone_ok hg
    simp at ht'
  | chdir hpc =>
    rw [modify_self (t := t) (by simpa using ht)] at ht'
    cases ht'
    cases hpc.symm.trans hpc'
  | exit | storeRoot | loaded | loadUp | loadFail | exitUp | processExit =>
    obtain ⟨_, -, rfl⟩ := modify_some ht'
    cases hpc'
  | _ =>
    rw [goto_self _ ht'] at hpc'
    cases hpc'

end

/-! ### Patience -/

/-- A thread may go, or goes. -/
def Proc.Released (t : Proc) : Prop := 0 < t.canFree ∨ t.pc = .exitGone

instance (t : Proc) : Decidable t.Released := inferInstanceAs (Decidable (_ ∨ _))

/-- What a system call requires of each child of the thread that makes it. -/
def Choice.Suits (child : Proc) : Choice → Prop
  | .exec _ _ | .wait _ => ¬ child.Released
  | .exit _ | .kill => False
  | _ => True

instance (child : Proc) : ∀ choice : Choice, Decidable (choice.Suits child)
  | .exec _ _ | .wait _ => inferInstanceAs (Decidable (¬ _))
  | .exit _ | .kill => inferInstanceAs (Decidable False)
  | .go | .noMemory | .chdir _ | .load _ => inferInstanceAs (Decidable True)

/-- A thread calls `exec` and `wait` only while no child of it is let go and still there, and exits, or is
killed, only when it has no children left. -/
def Patient (a : Act) (s : Kernel) : Prop :=
  ∀ t ∈ s.procs a.page, t.pc = .user → ∀ q ∈ s.allList, ∀ tq ∈ s.procs q, tq.parentTid = t.tid → a.choice.Suits tq

instance (a : Act) (s : Kernel) : Decidable (Patient a s) :=
  inferInstanceAs (Decidable (∀ t ∈ s.procs a.page, t.pc = .user → ∀ q ∈ s.allList, ∀ tq ∈ s.procs q,
    tq.parentTid = t.tid → a.choice.Suits tq))

/-- What patience says of a step. -/
def Minds (s s' : Kernel) (p : Nat) (t : Proc) : Prop :=
  t.pc = .user → ∀ t', s'.procs p = some t' → t'.pc = .user ∨
    ∀ q tq, s.procs q = some tq → tq.parentTid = t.tid → ¬ tq.Released ∧ t'.pc.calls = true

/-- A thread outside its system calls has no children, and the parent of a thread that has been let go is in
user code. -/
structure Orderly (s : Kernel) (kids : Nat → List Nat) : Prop where
  childless : ∀ {p : Nat} {t : Proc}, s.procs p = some t → t.pc.calls = false → kids p = []
  awaited : ∀ {q : Nat} {t tp : Proc}, s.procs q = some t → t.tid ≠ initialTid → s.procs t.parent = some tp →
    t.Released → tp.pc = .user

section
variable {s s' : Kernel} {a : Act} {p q : Nat} {t t' tp tr tr' : Proc} {kids : Nat → List Nat}

theorem Patient.minds (hc : Patient a s) (hids : Ids s) (ht : s.procs a.page = some t) (hx : step a s = .ok s') :
    Minds s s' a.page t := by
  intro hpc t' ht'
  have hsuits : ∀ q tq, s.procs q = some tq → tq.parentTid = t.tid → a.choice.Suits tq := fun q tq hq =>
    hc t ht hpc q (hids.all.mpr ⟨tq, hq⟩) tq hq
  simp only [step, Kernel.get, ht, ok_bind, hpc] at hx
  cases hchoice : a.choice with
  | exec page relative =>
    rw [hchoice] at hx hsuits
    obtain ⟨s1, -, hx⟩ := bind_ok.mp hx
    cases hx
    rw [goto_self _ ht']
    exact .inr fun q tq hq hp => ⟨hsuits q tq hq hp, rfl⟩
  | wait child =>
    rw [hchoice] at hx hsuits
    obtain ⟨e, -, hx⟩ := bind_ok.mp hx
    cases hx
    rw [goto_self _ ht']
    exact .inr fun q tq hq hp => ⟨hsuits q tq hq hp, rfl⟩
  | exit status | kill =>
    rw [hchoice] at hsuits
    exact .inr fun q tq hq hp => (hsuits q tq hq hp).elim
  | chdir dir =>
    rw [hchoice] at hx
    cases hx
    rw [modify_self (t := t) (by simpa using ht)] at ht'
    cases ht'
    exact .inl hpc
  | go | noMemory | load success =>
    rw [hchoice] at hx
    cases hx

theorem Family.not_initial (h : Family s kids) (ht : s.procs p = some t) (hpc : t.pc.calls = false) :
    t.tid ≠ initialTid := by
  intro htid
  have hcalls := h.stays ht htid
  rw [hpc] at hcalls
  cases hcalls

/-- A thread whose step patience speaks of has been let go by nobody. -/
theorem Family.kept_back (h : Family s kids) (hm : Minds s s' p t) (ht : s.procs p = some t) (ht' : s'.procs p = some t')
    (hpc : t.pc = .user) (hq : q ∈ kids p) : t'.pc = .user ∨ ∃ tq, s.procs q = some tq ∧ ¬ tq.Released ∧ t'.pc.calls = true := by
  refine (hm hpc t' ht').imp id fun hall => ?_
  obtain ⟨tq, htq, htid, rfl⟩ := h.mem.mp hq
  obtain ⟨tp, htp, hp⟩ := h.parent htq htid
  cases ht.symm.trans htp
  exact ⟨tq, htq, hall q tq htq hp.symm⟩

theorem Orderly.childless_own (h : Orderly s kids) (hf : Family s kids) (hm : Minds s s' p t) (ht : s.procs p = some t)
    (hx : Trans s p t s') (ht' : s'.procs p = some t') (hpc : t'.pc.calls = false) : kids p = [] := by
  cases hcalls : t.pc.calls with
  | false => exact h.childless ht hcalls
  | true =>
    obtain ⟨huser, -⟩ := (hx.calls ht hcalls ht').resolve_left (by simp [hpc])
    rw [List.eq_nil_iff_forall_not_mem]
    intro q hq
    rcases hf.kept_back hm ht ht' huser hq with huser' | ⟨-, -, -, hcalls'⟩
    · rw [huser'] at hpc
      cases hpc
    · rw [hpc] at hcalls'
      cases hcalls'

/-- A thread that is let go after a step has been so before, or its parent has just come back to user code. -/
theorem Orderly.let_go (h : Orderly s kids) (hf : Family s kids) (ht : s.procs p = some t) (hx : Trans s p t s')
    (hq : s.procs q = some tr) (hq' : s'.procs q = some tr') (hrel : tr'.Released) :
    tr.Released ∨ tr.parent = p ∧ ∀ t', s'.procs p = some t' → t'.pc = .user := by
  have hsame : tr'.canFree = tr.canFree → tr.Released := by
    intro hfree
    rcases hrel with hrel | hgone
    · exact .inl (hfree ▸ hrel)
    · by_cases hqp : q = p
      · subst hqp
        cases ht.symm.trans hq
        exact .inl (hx.let_go ht hq' hgone)
      · obtain ⟨t1, ht1, hkept⟩ := hx.kept hqp hq
        cases ht1.symm.trans hq'
        exact .inr (hkept.pc ▸ hgone)
  cases hx.marked ht hq hq' with
  | same _ hfree => exact .inl (hsame hfree)
  | found _ _ _ hfree _ => exact .inl (hsame hfree)
  | down _ hpos _ => exact .inl (.inl hpos)
  | @returned c v hpc _ _ huser =>
    have hw := hf.walks ht
    rw [hpc] at hw
    obtain ⟨tq, htq, -, hp⟩ := hf.mem.mp hw
    cases hq.symm.trans htq
    exact .inr ⟨hp, huser⟩
  | freed hpc _ =>
    have hmem : q ∈ kids p := stands_mem (hf.walks ht) (by rw [hpc]; rfl)
    rw [h.childless ht (by rw [hpc]; rfl)] at hmem
    cases hmem

theorem Orderly.awaited_step (h : Orderly s kids) (hf : Family s kids) (hm : Minds s s' p t) (ht : s.procs p = some t)
    (hx : Trans s p t s') (hq' : s'.procs q = some tr') (hne : tr'.tid ≠ initialTid)
    (hp' : s'.procs tr'.parent = some tp) (hrel : tr'.Released) : tp.pc = .user := by
  rcases hx.before ht hq' with ⟨tr, hq, hk⟩ | hnone
  · rw [hk.tid] at hne
    rw [hk.parent] at hp'
    obtain ⟨tp0, htp0, htid⟩ := hf.parent hq hne
    rcases h.let_go hf ht hx hq hq' hrel with hrel | ⟨hparent, huser⟩
    · have huser := h.awaited hq hne htp0 hrel
      by_cases hpp : tr.parent = p
      · rw [hpp] at htp0 hp'
        cases ht.symm.trans htp0
        rcases hf.kept_back hm ht hp' huser (hf.mem.mpr ⟨tr, hq, hne, hpp⟩) with h | ⟨tq, htq, hnot, -⟩
        · exact h
        · cases hq.symm.trans htq
          exact absurd hrel hnot
      · obtain ⟨t1, ht1, hkept⟩ := hx.kept hpp htp0
        cases ht1.symm.trans hp'
        exact hkept.pc.trans huser
    · exact huser tp (hparent ▸ hp')
  · obtain ⟨relative, rfl, -⟩ := hx.newcomer ht hnone hq'
    rcases hrel with hrel | hrel <;> cases hrel

/-- The family and its order through a step. -/
theorem Orderly.step (h : Orderly s kids) (hf : Family s kids) (hm : Minds s s' p t)
    (ht : s.procs p = some t) (hx : Trans s p t s') : ∃ kids', Family s' kids' ∧ Orderly s' kids' ∧
      (∀ t', s'.procs p = some t' → kids' p = kids p ∨ ∃ page, t'.pc = .push .elem s.nextTid page) ∧
      ∀ r, r ≠ p → (∀ tr, s.procs r = some tr → tr.pc ≠ .user) → kids' r = kids r := by
  have hgone : t.pc = .exitGone → kids p = [] ∧ ∀ tp, s.procs t.parent = some tp → tp.pc = .user := by
    intro hpc
    have hcalls : t.pc.calls = false := by rw [hpc]; rfl
    exact ⟨h.childless ht hcalls, fun tp htp => h.awaited ht (hf.not_initial ht hcalls) htp (.inr hpc)⟩
  obtain ⟨kids', hf', hown, hother⟩ := hf.step ht hx hgone
  refine ⟨kids', hf', ⟨?_, h.awaited_step hf hm ht hx⟩, hown, hother⟩
  intro r tr' hr' hpc
  by_cases hrp : r = p
  · subst hrp
    have hkids : kids' r = kids r := by
      refine (hown tr' hr').resolve_right ?_
      intro hpush
      obtain ⟨page, hpush⟩ := hpush
      rw [hpush] at hpc
      cases hpc
    exact hkids.trans (h.childless_own hf hm ht hx hr' hpc)
  · cases hr : s.procs r with
    | none =>
      rw [hother r hrp (by simp [hr])]
      exact hf.kids_nil hr
    | some tr =>
      obtain ⟨t1, ht1, hkept⟩ := hx.kept hrp hr
      cases ht1.symm.trans hr'
      rw [hkept.pc] at hpc
      have hbusy : tr.pc ≠ .user := by
        intro huser
        rw [huser] at hpc
        cases hpc
      rw [hother r hrp (by simpa [hr] using hbusy)]
      exact h.childless hr hpc

end

theorem orderly_booted : Orderly booted bootedKids where
  childless := by
    intro p t ht hpc
    obtain ⟨-, rfl⟩ | ⟨rfl, -⟩ := booted_some ht
    · cases hpc
    · rfl
  awaited := by
    intro q t tp ht _ _ hrel
    obtain ⟨-, rfl⟩ | ⟨-, rfl⟩ := booted_some ht
    · rcases hrel with hrel | hrel <;> cases hrel
    · rcases hrel with hrel | hrel <;> cases hrel

/-! ### Runs -/

theorem family_reach {s : Kernel} (hr : Reach step Patient (· = booted) s) :
    ∃ kids, Family s kids ∧ Orderly s kids ∧ Ids s := by
  refine hr.invariant (J := fun s => ∃ kids, Family s kids ∧ Orderly s kids ∧ Ids s) ?_ ?_
  · intro s hs
    subst hs
    exact ⟨_, family_booted, orderly_booted, ids_booted⟩
  · intro s a s' h hc hstep
    obtain ⟨kids, hf, h, hids⟩ := h
    obtain ⟨t, ht, hx⟩ := step_trans hstep
    obtain ⟨kids', hf', h', -⟩ := h.step hf (hc.minds hids ht hstep) ht hx
    exact ⟨kids', hf', h', hids.step ht hx⟩

/-- A thread that unlinks itself does so from the list of its parent, which is still there; and a
thread that walks along its list stands on a child that is there and linked. -/
theorem children_lists_join_live_threads {s : Kernel} (hr : Reach step Patient (· = booted) s) {p : Nat} {t : Proc}
    (ht : s.procs p = some t) :
    (t.pc = .exitGone → ∃ tp l, s.procs t.parent = some tp ∧ tp.tid = t.parentTid ∧
      s.links.Linked (nodes t.parent l) ∧ p ∈ l) ∧
    ∀ q, t.pc.stands = some (.elem q) → ∃ tq l, s.procs q = some tq ∧ tq.parent = p ∧ tq.parentTid = t.tid ∧
      s.links.Linked (nodes p l) ∧ q ∈ l := by
  obtain ⟨kids, h, horder, -⟩ := family_reach hr
  constructor
  · intro hpc
    have htid : t.tid ≠ initialTid := h.not_initial ht (by rw [hpc]; rfl)
    obtain ⟨tp, htp, hp⟩ := h.parent ht htid
    have huser := horder.awaited ht htid htp (.inr hpc)
    exact ⟨tp, kids t.parent, htp, hp, h.linked htp (by rw [huser]; rfl), h.mem.mpr ⟨t, ht, htid, rfl⟩⟩
  · intro q hq
    have hmem : q ∈ kids p := stands_mem (h.walks ht) hq
    obtain ⟨tq, htq, htid, rfl⟩ := h.mem.mp hmem
    obtain ⟨tp, htp, hp⟩ := h.parent htq htid
    rw [ht] at htp
    cases htp
    exact ⟨tq, kids tq.parent, htq, rfl, hp.symm, h.linked ht (stands_pushing hq), hmem⟩

def turns (p n : Nat) : List Act := List.replicate n ⟨p, .go⟩

/-- The thread at `p` executes a program, and its `exec` returns. The new thread is at the page
`page`, after `before` others on `all_list`. -/
def runsExec (p page before : Nat) : List Act :=
  [⟨p, .exec page false⟩] ++ turns p 3 ++ turns page 1 ++ [⟨page, .load true⟩] ++ turns page 2 ++ turns p (2 * before + 4)

/-- The thread at `p`, with `kids` children, exits up to where it waits for its parent. -/
def runsExit (p : Nat) (status : Int) (kids : Nat) : List Act := [⟨p, .exit status⟩] ++ turns p (2 * kids + 5)

/-- The initial thread waits for a child, its second, which then goes. -/
theorem children_lists_join_main_and_child : ∃ s, Reach step Patient (· = booted) s ∧
    ∃ t tp, s.procs 2 = some t ∧ t.pc = .exitGone ∧ s.procs t.parent = some tp ∧ tp.tid = t.parentTid := by
  have hrun : ∃ s, Reach step Patient (· = booted) s ∧ ∃ t ∈ s.procs 2, t.pc = .exitGone := by
    refine Reach.of_after (s := booted) ?_ (runsExec 0 2 2 ++ runsExit 2 7 0 ++ [⟨0, .wait 3⟩] ++ turns 0 4 ++ turns 2 1) ?_
    · rfl
    · decide +kernel
  obtain ⟨s, hr, t, ht, hpc⟩ := hrun
  obtain ⟨tp, -, htp, hp, -⟩ := (children_lists_join_live_threads hr ht).1 hpc
  exact ⟨s, hr, t, tp, ht, hpc, htp, hp⟩

/-- A thread exits while its child still runs, and goes once it has been waited for; its child then unlinks
itself from the list in a freed page. A thread goes while its parent, which has waited for it and now
looks for another child, stands on it. And a thread goes while its parent, which has waited for it, puts a
new child behind it. -/
theorem children_lists_in_freed_pages :
    (∃ s, Reach step (fun _ _ => True) (· = booted) s ∧
      ∃ t ∈ s.procs 3, t.pc = .exitGone ∧ s.procs t.parent = none) ∧
    (∃ s, Reach step (fun _ _ => True) (· = booted) s ∧
      ∃ t ∈ s.procs 0, t.pc.stands = some (.elem 2) ∧ s.procs 2 = none) ∧
    ∃ s, Reach step (fun _ _ => True) (· = booted) s ∧
      ∃ t ∈ s.procs 0, t.pc = .user ∧ s.links.prev (.elem 3) = some (.elem 2) ∧ s.procs 2 = none := by
  refine ⟨?_, ?_, ?_⟩
  · refine Reach.of_after (s := booted) ?_ (runsExec 0 2 2 ++ runsExec 2 3 3 ++ runsExit 2 7 1 ++ [⟨0, .wait 3⟩] ++ turns 0 4 ++
      turns 2 2 ++ runsExit 3 5 0 ++ turns 3 1) ?_
    · rfl
    · decide +kernel
  · refine Reach.of_after (s := booted) ?_ (runsExec 0 2 2 ++ runsExit 2 7 0 ++ [⟨0, .wait 3⟩] ++ turns 0 4 ++
      [⟨0, .wait 9⟩] ++ turns 0 1 ++ turns 2 2) ?_
    · rfl
    · decide +kernel
  · refine Reach.of_after (s := booted) ?_ (runsExec 0 2 2 ++ runsExit 2 7 0 ++ [⟨0, .wait 3⟩] ++ turns 0 4 ++
      [⟨0, .exec 3 false⟩] ++ turns 0 1 ++ turns 2 2 ++ turns 0 2 ++ turns 3 1 ++ [⟨3, .load true⟩] ++ turns 3 2 ++
      turns 0 8) ?_
    · rfl
    · decide +kernel

end Pintos.Userprog
