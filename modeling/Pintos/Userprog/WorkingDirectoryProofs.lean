import Pintos.Userprog.Lives

/-! The working directory of a new process.

`process_execute` stores the parent's working directory in the child once `thread_create` has made
it. As long as there is memory to open it once more, and the child neither looks at the field nor starts
user code before it is stored, the child looks up its executable in that directory, and starts with it
and one reference to it. -/
namespace Pintos.Userprog
open Intrusive Steps

/-! ### The contract -/

/-- What an event requires of those before it, for a child of a parent with a working directory. -/
def HomeLaw (past : List Event) : Event → Prop
  | .resolved c base => ∀ parent d, .created parent c (some d) ∈ past → base = some d
  | .started c wd held => ∀ parent d, .created parent c (some d) ∈ past → wd = some d ∧ held = [d]
  | _ => True

def Homed : List Event → Prop
  | [] => True
  | e :: past => HomeLaw past e ∧ Homed past

/-! ### What a step does to working directories -/

/-- The child that a thread has created, before `process_execute` looks at the thread's working directory. -/
def Pc.creates : Pc → Option Nat
  | .push _ c _ | .execWd c => some c
  | _ => none

/-- The child whose working directory a parent is still to store. -/
def Pc.assigns : Pc → Option Nat
  | .push _ c _ | .execWd c | .execReopen c _ | .execStoreWd c _ _ => some c
  | _ => none

/-- How far the parent is, with the references held for the child by then. -/
inductive Assigning (tp : Proc) (c d : Nat) (held : List Nat) : Prop where
  | wd : tp.pc.creates = some c → tp.workingDirectory = some d → held = [] → Assigning tp c d held
  | reopen : tp.pc = .execReopen c d → held = [] → Assigning tp c d held
  | store {at_ : Option Nat} : tp.pc = .execStoreWd c (some d) at_ → held = [d] → Assigning tp c d held

/-- `get_working_directory`, while it opens the root directory. -/
def Pc.roots : Pc → Bool
  | .openRoot | .storeRoot _ => true
  | _ => false

section
variable {s s' : Kernel} {p q r c d : Nat} {t t' tr tr' : Proc}

/-- A thread's working directory is changed by itself, or by its parent. -/
inductive Moved (s' : Kernel) (p : Nat) (t : Proc) (r : Nat) (tr tr' : Proc) : Prop where
  | same : tr'.workingDirectory = tr.workingDirectory → Moved s' p t r tr tr'
  | own : r = p → t.pc = .user ∨ t.pc.roots = true → Moved s' p t r tr tr'
  | stored {dir at_ : Option Nat} : t.pc = .execStoreWd tr.tid dir at_ →
      (∀ t', s'.procs p = some t' → t'.pc.assigns = none) → Moved s' p t r tr tr'

theorem moved_same (hr : s.procs r = some tr) (hr' : s'.procs r = some tr')
    (h : (s'.procs r).map Proc.workingDirectory = (s.procs r).map Proc.workingDirectory) : Moved s' p t r tr tr' := by
  rw [hr, hr'] at h
  injection h with h
  exact .same h

theorem Trans.moved (hx : Trans s p t s') (hr : s.procs r = some tr) (hr' : s'.procs r = some tr') :
    Moved s' p t r tr tr' := by
  cases hx with
  | @exec page _ _ hpc hc =>
    obtain ⟨hfree, rfl⟩ := threadCreate_ok hc
    have hne : r ≠ page := fun h => by simp [h, hfree] at hr
    refine moved_same hr hr' (Eq.trans (modify_map ?_) ?_)
    · exact fun _ => rfl
    · grind
  | exitGone hpc hg =>
    obtain ⟨L, -, rfl⟩ := threadGone_ok hg
    have hne : r ≠ p := fun h => by simp [h] at hr'
    refine moved_same hr hr' ?_
    grind
  | chdir hpc =>
    by_cases hrp : r = p
    · exact .own hrp (.inl hpc)
    · refine moved_same hr hr' ?_
      rw [modify_other hrp]
      simp
  | storeRoot hpc =>
    by_cases hrp : r = p
    · exact .own hrp (.inr (by rw [hpc]; rfl))
    · refine moved_same hr hr' ?_
      rw [modify_other hrp]
  | @execStoreWd child q dir at_ tq hpc hs =>
    cases hs with
    | found hq htid =>
      by_cases hrq : r = q
      · subst hrq
        cases hr.symm.trans hq
        refine .stored (htid ▸ hpc) ?_
        intro t' ht'
        rw [goto_self _ ht']
        rfl
      · refine moved_same hr hr' (Eq.trans (modify_map ?_) ?_)
        · exact fun _ => rfl
        · rw [modify_other hrq]
  | exitClose hpc =>
    refine moved_same hr hr' (Eq.trans (modify_map ?_) ?_)
    · exact fun _ => rfl
    · simp
  | pushTail | waitUp | execDown | waitFound | waitDown | exitLoop =>
    refine moved_same hr hr' (Eq.trans (modify_map ?_) ?_)
    · exact fun _ => rfl
    · exact modify_map fun _ => rfl
  | _ => exact moved_same hr hr' (modify_map fun _ => rfl)

theorem held_addRef {tid : Nat} {dir : Option Nat} (h : tid ≠ c) : (s.addRef tid dir).held c = s.held c := by
  unfold Kernel.held Kernel.addRef
  cases dir <;> simp [h]

theorem held_addRef_self (dir : Nat) : (s.addRef c (some dir)).held c = dir :: s.held c := by
  simp [Kernel.held, Kernel.addRef]

theorem held_dropRef {tid : Nat} {dir : Option Nat} (h : tid ≠ c) : (s.dropRef tid dir).held c = s.held c := by
  cases dir with
  | none => rfl
  | some d =>
    show ((s.refs.erase (tid, d)).filter _).map _ = (s.refs.filter _).map _
    congr 1
    induction s.refs with
    | nil => rfl
    | cons x refs ih =>
      grind

/-- The references held for a thread are changed by itself, or by its parent. -/
theorem Trans.held (hx : Trans s p t s') (c : Nat) : s'.held c = s.held c ∨
    c = t.tid ∧ (t.pc = .user ∨ t.pc = .openRoot ∨ t.pc = .exitClose) ∨
    ∃ dir, t.pc = .execReopen c dir ∧ s'.held c = dir :: s.held c := by
  cases hx with
  | exec hpc hc =>
    obtain ⟨-, rfl⟩ := threadCreate_ok hc
    exact .inl rfl
  | exitGone hpc hg =>
    obtain ⟨L, -, rfl⟩ := threadGone_ok hg
    exact .inl rfl
  | chdir hpc =>
    by_cases hc : t.tid = c
    · exact .inr (.inl ⟨hc.symm, .inl hpc⟩)
    · left
      show ((s.dropRef t.tid t.workingDirectory).addRef t.tid _).held c = _
      rw [held_addRef hc, held_dropRef hc]
  | openRoot hpc =>
    by_cases hc : t.tid = c
    · exact .inr (.inl ⟨hc.symm, .inr (.inl hpc)⟩)
    · left
      exact held_addRef hc
  | exitClose hpc =>
    by_cases hc : t.tid = c
    · exact .inr (.inl ⟨hc.symm, .inr (.inr hpc)⟩)
    · exact .inl (held_dropRef hc)
  | @execReopen child dir hpc =>
    by_cases hc : child = c
    · subst hc
      exact .inr (.inr ⟨dir, hpc, held_addRef_self dir⟩)
    · exact .inl (held_addRef hc)
  | _ => exact .inl rfl

/-- References are held for threads that are or were there. -/
theorem Trans.refs (hx : Trans s p t s') : ∀ x ∈ s'.refs, x ∈ s.refs ∨ x.1 = t.tid ∨ t.pc.assigns = some x.1 := by
  have hdrop : ∀ x ∈ (s.dropRef t.tid t.workingDirectory).refs, x ∈ s.refs := by
    intro x hx
    cases hwd : t.workingDirectory with
    | none => simpa [Kernel.dropRef, hwd] using hx
    | some d =>
      rw [hwd] at hx
      exact List.mem_of_mem_erase hx
  cases hx with
  | exec hpc hc =>
    obtain ⟨-, rfl⟩ := threadCreate_ok hc
    exact fun x hx => .inl hx
  | exitGone hpc hg =>
    obtain ⟨L, -, rfl⟩ := threadGone_ok hg
    exact fun x hx => .inl hx
  | @chdir dir hpc =>
    intro x hx
    cases dir with
    | none => exact .inl (hdrop x hx)
    | some d =>
      rcases List.mem_cons.mp hx with rfl | hx
      · exact .inr (.inl rfl)
      · exact .inl (hdrop x hx)
  | openRoot hpc =>
    intro x hx
    rcases List.mem_cons.mp hx with rfl | hx
    · exact .inr (.inl rfl)
    · exact .inl hx
  | exitClose hpc => exact fun x hx => .inl (hdrop x hx)
  | execReopen hpc =>
    intro x hx
    rcases List.mem_cons.mp hx with rfl | hx
    · exact .inr (.inr (by rw [hpc]; rfl))
    · exact .inl hx
  | _ => exact fun x hx => .inl hx

/-- `start_process`, up to where user code starts. -/
def Pc.starting : Pc → Bool
  | .start _ | .openRoot | .storeRoot _ | .resolve | .opened | .loaded _ | .loadUp _ => true
  | _ => false

/-- The part of `start_process` that goes on without having looked at the working directory. -/
def Pc.unread : Pc → Bool
  | .start _ | .opened | .loaded _ | .loadUp _ => true
  | _ => false

/-- A step within `start_process`. -/
inductive Starts (t t' : Proc) : Prop where
  | read : t.pc = .start true → t.workingDirectory.isSome = true → t'.pc = .resolve → Starts t t'
  | null : t.pc = .start true → t.workingDirectory = none → Starts t t'
  | root : t.pc.roots = true → Starts t t'
  | on : t.pc ≠ .start true → t.pc.unread = true ∨ t.pc = .resolve → t'.pc.unread = true → Starts t t'

theorem Trans.starts (hx : Trans s p t s') (ht : s.procs p = some t) (ht' : s'.procs p = some t')
    (hs : t'.pc.starting = true) : Starts t t' := by
  cases hx with
  | exitGone hpc hg =>
    obtain ⟨L, -, rfl⟩ := threadGone_ok hg
    simp at ht'
  | startRelative hpc hwd => exact .read hpc hwd (goto_self _ ht')
  | startNull hpc hwd => exact .null hpc hwd
  | openRoot hpc | openNoMemory hpc | storeRoot hpc => exact .root (by rw [hpc]; rfl)
  | startAbsolute hpc | opened hpc =>
    exact .on (by simp [hpc]) (.inl (by rw [hpc]; rfl)) (by rw [goto_self _ ht']; rfl)
  | resolve hpc | resolveNoMemory hpc => exact .on (by simp [hpc]) (.inr hpc) (by rw [goto_self _ ht']; rfl)
  | loaded hpc =>
    obtain ⟨_, -, rfl⟩ := modify_some ht'
    exact .on (by simp [hpc]) (.inl (by rw [hpc]; rfl)) rfl
  | exit | loadUp | loadFail | exitUp | processExit | exitDown =>
    obtain ⟨_, -, rfl⟩ := modify_some ht'
    cases hs
  | chdir hpc =>
    rw [modify_self (t := t) (by simpa using ht)] at ht'
    cases ht'
    rw [hpc] at hs
    cases hs
  | _ =>
    rw [goto_self _ ht'] at hs
    cases hs

/-- A thread comes to store a working directory by creating the child. -/
theorem Trans.assigns (hx : Trans s p t s') (ht : s.procs p = some t) (ht' : s'.procs p = some t')
    (ha : t'.pc.assigns = some c) :
    t.pc.assigns = some c ∨ c = s.nextTid ∧ s'.nextTid = s.nextTid + 1 := by
  cases hx with
  | exec hpc hc =>
    obtain ⟨-, rfl⟩ := threadCreate_ok hc
    rw [goto_self _ ht'] at ha
    cases ha
    exact .inr ⟨rfl, rfl⟩
  | exitGone hpc hg =>
    obtain ⟨L, -, rfl⟩ := threadGone_ok hg
    simp at ht'
  | pushElem hpc | pushLast hpc | pushTail hpc | execWd hpc | execReopen hpc | execNoMemory hpc | execSeekWd hpc =>
    rw [goto_self _ ht'] at ha
    exact .inl (by rw [hpc]; exact ha)
  | chdir hpc =>
    rw [modify_self (t := t) (by simpa using ht)] at ht'
    cases ht'
    rw [hpc] at ha
    cases ha
  | exit | loadUp | loadFail | exitUp | processExit | exitDown | loaded | storeRoot =>
    obtain ⟨_, -, rfl⟩ := modify_some ht'
    cases ha
  | _ =>
    rw [goto_self _ ht'] at ha
    cases ha

/-- A thread that creates one does not change its own working directory. -/
theorem creates_moved (hm : Moved s' p t p t t') (hpc : t.pc.creates = some c) :
    t'.workingDirectory = t.workingDirectory := by
  cases hm with
  | same h => exact h
  | own _ hown =>
    rcases hown with hown | hown
    · rw [hown] at hpc
      cases hpc
    · revert hpc hown
      cases t.pc <;> simp [Pc.creates, Pc.roots]
  | stored hown =>
    rw [hown] at hpc
    cases hpc

/-- The memory for `dir_reopen` is there. -/
def Reopens (s' : Kernel) (p : Nat) (t : Proc) : Prop :=
  ∀ c d, t.pc = .execReopen c d → ∀ t', s'.procs p = some t' → ∃ at_, t'.pc = .execStoreWd c (some d) at_

/-- The parent goes on to store the working directory, or has stored it. -/
theorem Assigning.own (h : Assigning t c d (s.held c)) (hx : Trans s p t s') (hopen : Reopens s' p t)
    (ht : s.procs p = some t) (ht' : s'.procs p = some t') :
    Assigning t' c d (s'.held c) ∨
      s'.held c = [d] ∧ t'.pc.assigns = none ∧ ∀ q tq, s.procs q = some tq → tq.tid = c → Ids s →
        ∀ tq', s'.procs q = some tq' → tq'.workingDirectory = some d := by
  cases h with
  | wd hpc hwd hheld =>
    have hwd' := (creates_moved (hx.moved ht ht') hpc).trans hwd
    cases hx with
    | execNoWd hpc' hnone =>
      rw [hwd] at hnone
      cases hnone
    | execWd hpc' hdir =>
      rw [hpc'] at hpc
      cases hpc
      cases hwd.symm.trans hdir
      exact .inl (.reopen (goto_self _ ht') hheld)
    | pushElem hpc' | pushLast hpc' | pushTail hpc' =>
      rw [hpc'] at hpc
      exact .inl (.wd (by rw [goto_self _ ht']; exact hpc) hwd' hheld)
    | _ hpc' =>
      rw [hpc'] at hpc
      cases hpc
  | reopen hpc hheld =>
    cases hx with
    | execReopen hpc' =>
      cases hpc.symm.trans hpc'
      refine .inl (.store (goto_self _ ht') ?_)
      exact (held_addRef_self d).trans (congrArg _ hheld)
    | execNoMemory hpc' =>
      obtain ⟨at_, hstore⟩ := hopen c d hpc t' ht'
      rw [goto_self _ ht'] at hstore
      cases hstore
    | _ hpc' => cases hpc.symm.trans hpc'
  | store hpc hheld =>
    cases hx with
    | execSeekWd hpc' hs =>
      cases hpc.symm.trans hpc'
      exact .inl (.store (goto_self _ ht') hheld)
    | execStoreWd hpc' hs =>
      cases hpc.symm.trans hpc'
      refine .inr ⟨hheld, by rw [goto_self _ ht']; rfl, ?_⟩
      intro q tq hq htid hids tq' hq'
      cases hs with
      | found hq1 htid1 =>
        have heq := hids.unique hq1 hq (htid1.trans htid.symm)
        subst heq
        exact field_map (g := Proc.workingDirectory) (fun _ => rfl) hq hq'
    | _ hpc' => cases hpc.symm.trans hpc'

end

/-! ### Parents that are still to store the working directory -/

/-- No parent is still to store the working directory of `c`. -/
def Free (s : Kernel) (c : Nat) : Prop := ∀ r tr, s.procs r = some tr → tr.pc.assigns ≠ some c

/-- A child of a parent with the working directory `d` that has not started yet: its parent is still to store it
and the child has not looked, or it has been stored. -/
inductive Home (s : Kernel) (t : Proc) (d : Nat) : Prop where
  | owed {r : Nat} {tr : Proc} : t.workingDirectory = none → t.pc.unread = true → s.procs r = some tr →
      Assigning tr t.tid d (s.held t.tid) → Home s t d
  | stored : t.workingDirectory = some d → t.pc.roots = false → s.held t.tid = [d] → Free s t.tid → Home s t d

structure Homes (s : Kernel) : Prop where
  home : ∀ {q parent d : Nat} {t : Proc}, s.procs q = some t → .created parent t.tid (some d) ∈ s.log →
    t.pc.starting = true → Home s t d
  single : ∀ {r r' c : Nat} {tr tr' : Proc}, s.procs r = some tr → s.procs r' = some tr' →
    tr.pc.assigns = some c → tr'.pc.assigns = some c → r = r'
  below : ∀ {r c : Nat} {tr : Proc}, s.procs r = some tr → tr.pc.assigns = some c → c < s.nextTid
  running : ∀ {q : Nat} {t : Proc}, s.procs q = some t → t.pc.calls = true → Free s t.tid
  refs : ∀ x ∈ s.refs, x.1 < s.nextTid
  homed : Homed s.log

section
variable {s s' : Kernel} {p q r c d : Nat} {t t' tr tr' : Proc}

theorem assigns_of_creates {pc : Pc} (h : pc.creates = some c) : pc.assigns = some c := by
  cases pc <;> first | exact h | cases h

theorem Assigning.assigns {held : List Nat} (h : Assigning t c d held) : t.pc.assigns = some c := by
  cases h with
  | wd hpc => exact assigns_of_creates hpc
  | reopen hpc | store hpc => rw [hpc]; rfl

theorem calls_of_assigns {pc : Pc} (h : pc.assigns = some c) : pc.calls = true := by
  cases pc <;> first | rfl | cases h

/-- A thread that stores a working directory did so before the step, or has just created the child. -/
theorem assigns_before (ht : s.procs p = some t) (hx : Trans s p t s') (hr' : s'.procs r = some tr')
    (ha : tr'.pc.assigns = some c) : (∃ tr, s.procs r = some tr ∧ tr.pc.assigns = some c) ∨
      r = p ∧ c = s.nextTid ∧ s'.nextTid = s.nextTid + 1 := by
  cases hr : s.procs r with
  | none =>
    obtain ⟨relative, rfl, -⟩ := hx.newcomer ht hr hr'
    cases ha
  | some tr =>
    by_cases hrp : r = p
    · subst hrp
      cases ht.symm.trans hr
      rcases hx.assigns ht hr' ha with ha | hnext
      · exact .inl ⟨t, rfl, ha⟩
      · exact .inr ⟨rfl, hnext⟩
    · obtain ⟨t1, ht1, hk⟩ := hx.kept hrp hr
      cases ht1.symm.trans hr'
      exact .inl ⟨tr, rfl, hk.pc ▸ ha⟩

theorem Free.step (h : Free s c) (ht : s.procs p = some t) (hx : Trans s p t s') (hc : c < s.nextTid) : Free s' c := by
  intro r tr' hr' ha
  rcases assigns_before ht hx hr' ha with ⟨tr, hr, ha⟩ | ⟨-, rfl, -⟩
  · exact h r tr hr ha
  · exact Nat.lt_irrefl _ hc

theorem Assigning.kept {held : List Nat} (h : Assigning tr c d held) (hpc : tr'.pc = tr.pc)
    (hwd : tr'.workingDirectory = tr.workingDirectory) : Assigning tr' c d held := by
  cases h with
  | wd hpc' hwd' hheld => exact .wd (hpc ▸ hpc') (hwd.trans hwd') hheld
  | reopen hpc' hheld => exact .reopen (hpc.trans hpc') hheld
  | store hpc' hheld => exact .store (hpc.trans hpc') hheld

theorem Starts.starting (h : Starts t t') : t.pc.starting = true := by
  cases h with
  | read hpc | null hpc => rw [hpc]; rfl
  | root hpc =>
    revert hpc
    cases t.pc <;> simp [Pc.roots, Pc.starting]
  | on _ hpc _ =>
    rcases hpc with hpc | hpc
    · revert hpc
      cases t.pc <;> simp [Pc.unread, Pc.starting]
    · rw [hpc]
      rfl

/-- In `start_process` a thread changes nobody's working directory, but for opening the root directory. -/
theorem starting_moved (hs : t.pc.starting = true) (hne : t.pc.roots = false) (hm : Moved s' p t r tr tr') :
    tr'.workingDirectory = tr.workingDirectory := by
  cases hm with
  | same h => exact h
  | own _ hpc =>
    rcases hpc with hpc | hpc
    · rw [hpc] at hs
      cases hs
    · exact absurd hpc (by simp [hne])
  | stored hpc =>
    rw [hpc] at hs
    cases hs

theorem starting_held (hs : t.pc.starting = true) (hne : t.pc.roots = false) (hx : Trans s p t s') : s'.held c = s.held c := by
  rcases hx.held c with h | ⟨-, hpc | hpc | hpc⟩ | ⟨dir, hpc, -⟩
  · exact h
  · rw [hpc] at hs
    cases hs
  · rw [hpc] at hne
    cases hne
  · rw [hpc] at hs
    cases hs
  · rw [hpc] at hs
    cases hs

/-- Another thread's step, when that thread is not still to store the working directory of this one. -/
theorem other_moved (hqp : q ≠ p) (hq : s.procs q = some tr) (hq' : s'.procs q = some tr') (hx : Trans s p t s')
    (hfree : t.pc.assigns ≠ some tr.tid) : tr'.workingDirectory = tr.workingDirectory := by
  cases hx.moved hq hq' with
  | same h => exact h
  | own h => exact absurd h hqp
  | stored hpc => exact absurd (by rw [hpc]; rfl) hfree

theorem other_held (hids : Ids s) (hqp : q ≠ p) (hq : s.procs q = some tr) (ht : s.procs p = some t)
    (hx : Trans s p t s') (hfree : t.pc.assigns ≠ some tr.tid) : s'.held tr.tid = s.held tr.tid := by
  rcases hx.held tr.tid with h | ⟨htid, -⟩ | ⟨dir, hpc, -⟩
  · exact h
  · exact absurd (hids.unique hq ht htid) hqp
  · exact absurd (by rw [hpc]; rfl) hfree

theorem not_starting_of_assigns {pc : Pc} (h : pc.assigns = some c) : pc.starting = false := by
  cases pc <;> first | rfl | cases h

theorem unread_roots {pc : Pc} (h : pc.unread = true) : pc.roots = false := by
  cases pc <;> first | rfl | cases h

/-- The child's own step. -/
theorem Home.own (h : Home s t d) (ht : s.procs p = some t) (hx : Trans s p t s')
    (ht' : s'.procs p = some t') (htid : t'.tid = t.tid) (hbelow : t.tid < s.nextTid) (hstart : t'.pc.starting = true)
    (hcond : t.pc = .start true ∨ t.pc = .loadUp true → Free s t.tid) : Home s' t' d := by
  have hstarts := hx.starts ht ht' hstart
  have hs0 := hstarts.starting
  cases h with
  | @owed r tp hwd hunread hr hassign =>
    have hne := unread_roots hunread
    have hunread' : t'.pc.unread = true := by
      cases hstarts with
      | on _ _ h => exact h
      | read hpc | null hpc => exact absurd hassign.assigns (hcond (.inl hpc) r tp hr)
      | root hpc => exact absurd hpc (by simp [hne])
    have hrp : r ≠ p := by
      intro heq
      subst heq
      cases ht.symm.trans hr
      rw [not_starting_of_assigns hassign.assigns] at hs0
      cases hs0
    obtain ⟨tp', hr', hk⟩ := hx.kept hrp hr
    refine .owed ((starting_moved hs0 hne (hx.moved ht ht')).trans hwd) hunread' hr' ?_
    rw [htid, starting_held hs0 hne hx]
    exact hassign.kept hk.pc (starting_moved hs0 hne (hx.moved hr hr'))
  | stored hwd hne hheld hfree =>
    have hne' : t'.pc.roots = false := by
      cases hstarts with
      | on _ _ h => exact unread_roots h
      | read _ _ h => rw [h]; rfl
      | null _ h => simp [hwd] at h
      | root hpc => exact absurd hpc (by simp [hne])
    refine .stored ((starting_moved hs0 hne (hx.moved ht ht')).trans hwd) hne' ?_ ?_
    · rw [htid, starting_held hs0 hne hx, hheld]
    · rw [htid]
      exact hfree.step ht hx hbelow

/-- Another thread's step, which may be the parent's. -/
theorem Home.other (h : Home s tr d) (hs : Homes s) (hids : Ids s) (ht : s.procs p = some t) (hx : Trans s p t s')
    (hopen : Reopens s' p t) (hq : s.procs q = some tr) (hq' : s'.procs q = some tr') (hqp : q ≠ p) (hk : Kept tr tr') : Home s' tr' d := by
  have hbelow := hids.below hq
  cases h with
  | @owed r tp hwd hunread hr hassign =>
    by_cases hrp : r = p
    · subst hrp
      cases ht.symm.trans hr
      have hpc : t.pc ≠ .exitGone := by
        intro hpc
        have := hassign.assigns
        rw [hpc] at this
        cases this
      obtain ⟨t', ht'⟩ := hx.live ht hpc
      rcases hassign.own hx hopen ht ht' with hassign' | ⟨hheld, hnone, hstored⟩
      · have hwd' : tr'.workingDirectory = tr.workingDirectory := by
          cases hx.moved hq hq' with
          | same h => exact h
          | own h => exact absurd h hqp
          | stored _ hgone =>
            have := hassign'.assigns
            grind
        exact .owed (hwd'.trans hwd) (hk.pc ▸ hunread) ht' (hk.kin.tid ▸ hassign')
      · refine .stored (hstored q tr hq rfl hids tr' hq') (hk.pc ▸ unread_roots hunread) (hk.kin.tid ▸ hheld) ?_
        rw [hk.kin.tid]
        intro r2 tr2' hr2' ha
        rcases assigns_before ht hx hr2' ha with ⟨tr2, hr2, ha2⟩ | ⟨-, hnext, -⟩
        · have heq := hs.single hr2 ht ha2 hassign.assigns
          grind
        · exact absurd hbelow (hnext ▸ Nat.lt_irrefl _)
    · have hfree : t.pc.assigns ≠ some tr.tid := fun ha => hrp (hs.single hr ht hassign.assigns ha)
      have hfree' : t.pc.assigns ≠ some tp.tid := hs.running hr (calls_of_assigns hassign.assigns) p t ht
      obtain ⟨tp', hr', hkp⟩ := hx.kept hrp hr
      refine .owed ((other_moved hqp hq hq' hx hfree).trans hwd) (hk.pc ▸ hunread) hr' ?_
      rw [hk.kin.tid, other_held hids hqp hq ht hx hfree]
      exact hassign.kept hkp.pc (other_moved hrp hr hr' hx hfree')
  | stored hwd hne hheld hfree =>
    have hfree0 := hfree p t ht
    refine .stored ((other_moved hqp hq hq' hx hfree0).trans hwd) (hk.pc ▸ hne) ?_ ?_
    · rw [hk.kin.tid, other_held hids hqp hq ht hx hfree0, hheld]
    · rw [hk.kin.tid]
      exact hfree.step ht hx hbelow

/-- What a step notes about working directories is lawful. -/
theorem Homes.law (hs : Homes s) (ht : s.procs p = some t) (hcond : t.pc = .start true ∨ t.pc = .loadUp true → Free s t.tid)
    {e : Event} (hn : Noted s s' p t e) : HomeLaw s.log e := by
  cases hn with
  | resolved hpc =>
    intro parent d hc
    cases hs.home ht hc (by rw [hpc]; rfl) with
    | owed _ hunread =>
      rw [hpc] at hunread
      cases hunread
    | stored hwd => exact hwd
  | started hpc =>
    intro parent d hc
    cases hs.home ht hc (by rw [hpc]; rfl) with
    | owed _ _ hr hassign => exact absurd hassign.assigns (hcond (.inr hpc) _ _ hr)
    | stored hwd _ hheld _ => exact ⟨hwd, hheld⟩
  | _ => trivial

/-- No references are held for a thread that is not there yet. -/
theorem Homes.held_fresh (hs : Homes s) : s.held s.nextTid = [] := by
  unfold Kernel.held
  rw [List.map_eq_nil_iff, List.filter_eq_nil_iff]
  intro x hx
  have := hs.refs x hx
  simp [Nat.ne_of_lt this]

theorem Homes.home_new (hs : Homes s) (hids : Ids s) (ht : s.procs p = some t) (hx : Trans s p t s') (hq : s.procs q = none)
    (hq' : s'.procs q = some tr') {parent : Nat} (hc : .created parent tr'.tid (some d) ∈ s'.log) : Home s' tr' d := by
  obtain ⟨relative, rfl, -, -, hlog⟩ := hx.newcomer ht hq hq'
  rcases hx.calm with hcalm | ⟨page, relative', s1, -, hcreate, rfl⟩ | ⟨-, hg⟩
  · simp [hcalm.dead hq] at hq'
  · obtain ⟨hfree, rfl⟩ := threadCreate_ok hcreate
    have hne : p ≠ page := fun h => by simp [← h, ht] at hfree
    have hwd : t.workingDirectory = some d := by
      rw [hlog] at hc
      rcases List.mem_cons.mp hc with heq | hc
      · grind
      · exact absurd (hids.named _ hc _ rfl) (Nat.lt_irrefl _)
    exact .owed rfl rfl (modify_self ((Function.update_of_ne hne ..).trans ht)) (.wd rfl hwd hs.held_fresh)
  · obtain ⟨L, -, rfl⟩ := threadGone_ok hg
    grind

theorem Noted.own_created {parent : Nat} {wd : Option Nat} (h : Noted s s' p t (.created parent c wd)) : c = s.nextTid := by
  cases h
  rfl

/-- A thread comes to user code from `start_process`. -/
theorem Trans.calls_before (hx : Trans s p t s') (ht' : s'.procs p = some t') (h : t'.pc.calls = true) :
    t.pc.calls = true ∨ t.pc = .loadUp true := by
  cases hx with
  | loadUp hpc => exact .inr hpc
  | exitGone hpc hg =>
    obtain ⟨L, -, rfl⟩ := threadGone_ok hg
    simp at ht'
  | exit | loaded | storeRoot | loadFail | exitUp | processExit | exitDown =>
    obtain ⟨_, -, rfl⟩ := modify_some ht'
    cases h
  | startAbsolute | startRelative | startNull | openRoot | openNoMemory | resolve | resolveNoMemory | opened | exitClose | exitBegin | exitEnd
  | exitLoop | exitNext =>
    rw [goto_self _ ht'] at h
    cases h
  | _ hpc =>
    left
    rw [hpc]
    rfl

theorem Homes.step (hs : Homes s) (hids : Ids s) (ht : s.procs p = some t) (hx : Trans s p t s') (hopen : Reopens s' p t)
    (hcond : t.pc = .start true ∨ t.pc = .loadUp true → Free s t.tid) : Homes s' where
  home := by
    intro q parent d tr' hq' hc hstart
    cases hq : s.procs q with
    | none => exact hs.home_new hids ht hx hq hq' hc
    | some tr =>
      have hk : Kin tr tr' := by
        rcases hx.before ht hq' with ⟨tr0, hq0, hk⟩ | hnone
        · cases hq.symm.trans hq0
          exact hk
        · simp [hnone] at hq
      rw [hk.tid] at hc
      have hc0 : .created parent tr.tid (some d) ∈ s.log := by
        rcases hx.new_log hc with hc | hn
        · exact hc
        · exact absurd (hids.below hq) (hn.own_created ▸ Nat.lt_irrefl _)
      by_cases hqp : q = p
      · subst hqp
        cases ht.symm.trans hq
        have hstarts := hx.starts ht hq' hstart
        exact (hs.home ht hc0 hstarts.starting).own ht hx hq' hk.tid (hids.below ht) hstart hcond
      · obtain ⟨t1, ht1, hkept⟩ := hx.kept hqp hq
        cases ht1.symm.trans hq'
        exact (hs.home hq hc0 (hkept.pc ▸ hstart)).other hs hids ht hx hopen hq hq' hqp hkept
  single := by
    intro r r' c tr tr' hr hr' ha ha'
    rcases assigns_before ht hx hr ha with ⟨tr0, hr0, ha0⟩ | ⟨rfl, rfl, -⟩
    · rcases assigns_before ht hx hr' ha' with ⟨tr0', hr0', ha0'⟩ | ⟨-, rfl, -⟩
      · exact hs.single hr0 hr0' ha0 ha0'
      · exact absurd (hs.below hr0 ha0) (Nat.lt_irrefl _)
    · rcases assigns_before ht hx hr' ha' with ⟨tr0', hr0', ha0'⟩ | ⟨rfl, -, -⟩
      · exact absurd (hs.below hr0' ha0') (Nat.lt_irrefl _)
      · rfl
  below := by
    intro r c tr hr ha
    rcases assigns_before ht hx hr ha with ⟨tr0, hr0, ha0⟩ | ⟨rfl, rfl, hnext⟩
    · exact (hs.below hr0 ha0).trans_le hx.nextTid_le
    · rw [hnext]
      exact Nat.lt_succ_self _
  running := by
    intro q tr' hq' hcalls
    cases hq : s.procs q with
    | none =>
      obtain ⟨relative, rfl, -⟩ := hx.newcomer ht hq hq'
      cases hcalls
    | some tr =>
      by_cases hqp : q = p
      · subst hqp
        cases ht.symm.trans hq
        rw [(hx.own ht hq').tid]
        rcases hx.calls_before hq' hcalls with hcalls | hpc
        · exact (hs.running ht hcalls).step ht hx (hids.below ht)
        · exact (hcond (.inr hpc)).step ht hx (hids.below ht)
      · obtain ⟨t1, ht1, hk⟩ := hx.kept hqp hq
        cases ht1.symm.trans hq'
        rw [hk.kin.tid]
        exact (hs.running hq (hk.pc ▸ hcalls)).step ht hx (hids.below hq)
  refs := by
    intro x hx'
    rcases hx.refs x hx' with hx' | htid | ha
    · exact (hs.refs x hx').trans_le hx.nextTid_le
    · rw [htid]
      exact (hids.below ht).trans_le hx.nextTid_le
    · exact (hs.below ht ha).trans_le hx.nextTid_le
  homed := by
    rcases hx.notes with hlog | ⟨e, hlog, hn⟩
    · rw [hlog]
      exact hs.homed
    · rw [hlog]
      exact ⟨hs.law ht hcond hn, hs.homed⟩

end

theorem booted_assigns {r : Nat} {tr : Proc} (hr : booted.procs r = some tr) : tr.pc.assigns = none := by
  obtain ⟨-, rfl⟩ | ⟨-, rfl⟩ := booted_some hr <;> rfl

theorem homes_booted : Homes booted where
  home := by
    intro q parent d t _ hc
    injection List.mem_singleton.mp hc with _ _ hwd
    cases hwd
  single := by
    intro r r' c tr tr' hr _ ha _
    rw [booted_assigns hr] at ha
    cases ha
  below := by
    intro r c tr hr ha
    rw [booted_assigns hr] at ha
    cases ha
  running := by
    intro q t _ _ r tr hr
    simp [booted_assigns hr]
  refs := by
    intro x hx
    cases hx
  homed := ⟨trivial, trivial⟩

/-! ### Runs -/

/-- A child looks at its working directory, and starts user code, once its parent has stored the directory, and
the parent has got the memory to open it once more. -/
def LooksAfterStore (a : Act) (s : Kernel) : Prop :=
  ∀ t ∈ s.procs a.page, (a.choice = .noMemory → t.pc.assigns = none) ∧
    (t.pc = .start true ∨ t.pc = .loadUp true → ∀ r ∈ s.allList, ∀ tr ∈ s.procs r, tr.pc.assigns ≠ some t.tid)

instance (a : Act) (s : Kernel) : Decidable (LooksAfterStore a s) :=
  inferInstanceAs (Decidable (∀ t ∈ s.procs a.page, (a.choice = .noMemory → t.pc.assigns = none) ∧
    (t.pc = .start true ∨ t.pc = .loadUp true → ∀ r ∈ s.allList, ∀ tr ∈ s.procs r, tr.pc.assigns ≠ some t.tid)))

theorem LooksAfterStore.reopens {s s' : Kernel} {a : Act} {t : Proc} (hc : LooksAfterStore a s)
    (ht : s.procs a.page = some t) (hx : step a s = .ok s') : Reopens s' a.page t := by
  intro c d hpc t' ht'
  simp only [step, Kernel.get, ht, ok_bind, hpc] at hx
  cases hchoice : a.choice with
  | go =>
    rw [hchoice] at hx
    cases hx
    exact ⟨_, goto_self _ ht'⟩
  | noMemory =>
    have hnone := (hc t ht).1 hchoice
    rw [hpc] at hnone
    cases hnone
  | _ =>
    rw [hchoice] at hx
    cases hx

/-- A child of a parent with a working directory looks up its executable in that directory, and starts user
code with it and with one reference to it. -/
theorem child_starts_in_parents_directory {s : Kernel} (hr : Reach step LooksAfterStore (· = booted) s) :
    Homed s.log := by
  have hinv : Ids s ∧ Homes s := by
    refine hr.invariant (J := fun s => Ids s ∧ Homes s) ?_ ?_
    · intro s hs
      subst hs
      exact ⟨ids_booted, homes_booted⟩
    · intro s a s' h hc hstep
      obtain ⟨hids, hs⟩ := h
      obtain ⟨t, ht, hx⟩ := step_trans hstep
      refine ⟨hids.step ht hx, hs.step hids ht hx (hc.reopens ht hstep) ?_⟩
      intro hpc r tr hr
      exact (hc t ht).2 hpc r (hids.all.mpr ⟨tr, hr⟩) tr hr
  exact hinv.2.homed

/-- The initial thread changes to the directory 9 and executes a program by a relative path. -/
theorem child_starts_in_directory_nine : ∃ s, Reach step LooksAfterStore (· = booted) s ∧
    .resolved 3 (some 9) ∈ s.log ∧ .started 3 (some 9) [9] ∈ s.log ∧ Homed s.log := by
  have hrun : ∃ s, Reach step LooksAfterStore (· = booted) s ∧
      .resolved 3 (some 9) ∈ s.log ∧ .started 3 (some 9) [9] ∈ s.log := by
    refine Reach.of_after (s := booted) ?_ ([⟨0, .chdir (some 9)⟩, ⟨0, .exec 2 true⟩] ++ List.replicate 8 ⟨0, .go⟩ ++
      List.replicate 2 ⟨2, .go⟩ ++ [⟨2, .load true⟩] ++ List.replicate 2 ⟨2, .go⟩) ?_
    · rfl
    · decide +kernel
  obtain ⟨s, hr, hres, hstart⟩ := hrun
  exact ⟨s, hr, hres, hstart, child_starts_in_parents_directory hr⟩

/-- The child runs before its parent has stored the directory 9: it looks up its executable in the root
directory. Once the parent has stored it, the child starts with two references held for it. And without memory
for `dir_reopen` the parent stores null, and the child looks in the root directory as well. -/
theorem child_looks_in_root_directory :
    (∃ s, Reach step (fun _ _ => True) (· = booted) s ∧
      .created 1 3 (some 9) ∈ s.log ∧ .resolved 3 (some Filesys.rootDirSector) ∈ s.log ∧
      .started 3 (some 9) [9, Filesys.rootDirSector] ∈ s.log) ∧
    ∃ s, Reach step (fun _ _ => True) (· = booted) s ∧
      .created 1 3 (some 9) ∈ s.log ∧ .resolved 3 (some Filesys.rootDirSector) ∈ s.log ∧
      .started 3 (some Filesys.rootDirSector) [Filesys.rootDirSector] ∈ s.log := by
  constructor
  · refine Reach.of_after (s := booted) ?_ ([⟨0, .chdir (some 9)⟩, ⟨0, .exec 2 true⟩] ++ List.replicate 3 ⟨0, .go⟩ ++
      List.replicate 4 ⟨2, .go⟩ ++ List.replicate 5 ⟨0, .go⟩ ++ [⟨2, .load true⟩] ++ List.replicate 2 ⟨2, .go⟩) ?_
    · rfl
    · decide +kernel
  · refine Reach.of_after (s := booted) ?_ ([⟨0, .chdir (some 9)⟩, ⟨0, .exec 2 true⟩] ++ List.replicate 4 ⟨0, .go⟩ ++
      [⟨0, .noMemory⟩] ++ List.replicate 3 ⟨0, .go⟩ ++ List.replicate 4 ⟨2, .go⟩ ++ [⟨2, .load true⟩] ++
      List.replicate 2 ⟨2, .go⟩) ?_
    · rfl
    · decide +kernel

end Pintos.Userprog
