import Pintos.Userprog.FamilyProofs

/-! The life of a thread, from what has happened.

A step changes the thread that takes it, and of any other thread at most a semaphore, a flag or the
working directory; what it notes is said by `Noted`. From that follow two facts about every
thread: its `tid` is its own, and what its fields say about its load and its exit has been noted. -/
namespace Pintos.Userprog
open Intrusive Steps

/-! ### What a step does to the others -/

/-- What is left alone of a thread by the steps of others. -/
structure Kept (t t' : Proc) : Prop where
  kin : Kin t t'
  pc : t'.pc = t.pc
  exitValue : t'.exitValue = t.exitValue
  loadSuccessStatus : t'.loadSuccessStatus = t.loadSuccessStatus
  loadDone : t'.loadDone ≤ t.loadDone
  exited : t'.exited ≤ t.exited

section
variable {s s' : Kernel} {p q r page : Nat} {t t' tr : Proc}

theorem kept_refl (t : Proc) : Kept t t := ⟨⟨rfl, rfl, rfl⟩, rfl, rfl, rfl, le_rfl, le_rfl⟩

theorem modify_kept {f : Proc → Proc} (hf : ∀ t, Kept t (f t)) (hr : s.procs r = some tr) :
    ∃ t', (s.modify q f).procs r = some t' ∧ Kept tr t' := by
  by_cases hq : r = q
  · subst hq
    exact ⟨f tr, modify_self hr, hf tr⟩
  · exact ⟨tr, (modify_other hq).trans hr, kept_refl tr⟩

/-- A field that a change leaves alone. -/
theorem modify_map {α : Type} {g : Proc → α} {f : Proc → Proc} (hf : ∀ t, g (f t) = g t) :
    ((s.modify q f).procs r).map g = (s.procs r).map g := by
  by_cases hr : r = q
  · subst hr
    cases h : s.procs r <;> simp [Kernel.modify, h, hf]
  · rw [modify_other hr]

/-- A field of the thread at `q`, changed before the thread at `p` goes on. -/
theorem field_map {α : Type} {g : Proc → α} {f : Proc → Proc} {pc : Pc} (hg : ∀ t : Proc, g {t with pc := pc} = g t)
    (hr : s.procs q = some tr) (hr' : ((s.modify q f).goto p pc).procs q = some t') : g t' = g (f tr) := by
  have h : (((s.modify q f).goto p pc).procs q).map g = ((s.modify q f).procs q).map g := modify_map hg
  rw [hr', modify_self hr] at h
  injection h

theorem kept_modify_own {f : Proc → Proc} (hrp : r ≠ p) (h : ∃ t', s.procs r = some t' ∧ Kept tr t') :
    ∃ t', (s.modify p f).procs r = some t' ∧ Kept tr t' := by
  rwa [modify_other hrp]

theorem Trans.kept (hx : Trans s p t s') (hrp : r ≠ p) (hr : s.procs r = some tr) :
    ∃ t', s'.procs r = some t' ∧ Kept tr t' := by
  have hsame : ∃ t', s.procs r = some t' ∧ Kept tr t' := ⟨tr, hr, kept_refl tr⟩
  cases hx with
  | @exec page _ _ hpc hc =>
    obtain ⟨hfree, rfl⟩ := threadCreate_ok hc
    have hne : r ≠ page := fun h => by simp [h, hfree] at hr
    exact kept_modify_own hrp ⟨tr, (Function.update_of_ne hne ..).trans hr, kept_refl tr⟩
  | exitGone hpc hg =>
    obtain ⟨L, -, rfl⟩ := threadGone_ok hg
    exact ⟨tr, (Function.update_of_ne hrp ..).trans hr, kept_refl tr⟩
  | pushTail | execStoreWd | waitFound | waitUp | exitLoop =>
    refine kept_modify_own hrp (modify_kept ?_ hr)
    exact fun t => ⟨⟨rfl, rfl, rfl⟩, rfl, rfl, rfl, le_rfl, le_rfl⟩
  | execDown =>
    refine kept_modify_own hrp (modify_kept ?_ hr)
    exact fun t => ⟨⟨rfl, rfl, rfl⟩, rfl, rfl, rfl, Nat.sub_le _ _, le_rfl⟩
  | waitDown =>
    refine kept_modify_own hrp (modify_kept ?_ hr)
    exact fun t => ⟨⟨rfl, rfl, rfl⟩, rfl, rfl, rfl, le_rfl, Nat.sub_le _ _⟩
  | chdir | exitClose => exact kept_modify_own hrp (by simpa using hsame)
  | _ => exact kept_modify_own hrp hsame

/-- A thread that was not there is the new one. -/
theorem Trans.newcomer (hx : Trans s p t s') (ht : s.procs p = some t) (hr : s.procs r = none) (hr' : s'.procs r = some t') :
    ∃ relative, t' = newProc s.nextTid t.tid p relative ∧ s'.nextTid = s.nextTid + 1 ∧
      s'.allList = s.allList ++ [r] ∧ s'.log = .created t.tid s.nextTid t.workingDirectory :: s.log := by
  have hrp : r ≠ p := fun h => by simp [h, ht] at hr
  rcases hx.calm with hcalm | ⟨page, relative, s1, -, hc, rfl⟩ | ⟨-, hg⟩
  · simp [hcalm.dead hr] at hr'
  · obtain ⟨hfree, rfl⟩ := threadCreate_ok hc
    rw [Kernel.goto, modify_other hrp] at hr'
    by_cases hpage : r = page
    · subst hpage
      simp only [Function.update_self, Option.some.injEq] at hr'
      exact ⟨relative, hr'.symm, rfl, rfl, rfl⟩
    · simp [Function.update_of_ne hpage, hr] at hr'
  · obtain ⟨L, -, rfl⟩ := threadGone_ok hg
    simp [Function.update_of_ne hrp, hr] at hr'

end

/-! ### What a step notes -/

inductive Noted (s s' : Kernel) (p : Nat) (t : Proc) : Event → Prop where
  | created : t.pc = .user → s'.nextTid = s.nextTid + 1 → Noted s s' p t (.created t.tid s.nextTid t.workingDirectory)
  | resolved : t.pc = .resolve → Noted s s' p t (.resolved t.tid t.workingDirectory)
  | loaded {b : Bool} : t.pc = .loaded b → Noted s s' p t (.loaded t.tid b)
  | started : t.pc = .loadUp true → Noted s s' p t (.started t.tid t.workingDirectory (s.held t.tid))
  | exiting {v : Int} : t.pc = .user → Noted s s' p t (.exiting t.tid v)
  | execLost {c : Nat} {at_ : Option Nat} : t.pc = .execStatus c at_ → Seeks s c at_ .missing →
      Noted s s' p t (.execReturned t.tid c none)
  | execReturn {c q : Nat} {at_ : Option Nat} {tq : Proc} : t.pc = .execStatus c at_ → Seeks s c at_ (.found q tq) →
      Noted s s' p t (.execReturned t.tid c (if tq.loadSuccessStatus then some c else none))
  | waitEnd {c : Nat} : t.pc = .waitFind c (.tail p) → Noted s s' p t (.waitRefused t.tid c)
  | waitAgain {c q : Nat} {tq : Proc} : t.pc = .waitFind c (.elem q) → s.procs q = some tq → tq.tid = c →
      tq.waitOnCalled = true → Noted s s' p t (.waitRefused t.tid c)
  | waitUp {c q : Nat} {v : Int} : t.pc = .waitUp c q v → Noted s s' p t (.waitReturned t.tid c v)

section
variable {s s' : Kernel} {p q r page : Nat} {t t' tr : Proc} {e : Event}

theorem Trans.notes (hx : Trans s p t s') : s'.log = s.log ∨ ∃ e, s'.log = e :: s.log ∧ Noted s s' p t e := by
  cases hx with
  | exec hpc hc =>
    obtain ⟨-, rfl⟩ := threadCreate_ok hc
    exact .inr ⟨_, rfl, .created hpc rfl⟩
  | exitGone hpc hg =>
    obtain ⟨L, -, rfl⟩ := threadGone_ok hg
    exact .inl rfl
  | exit hpc => exact .inr ⟨_, rfl, .exiting hpc⟩
  | resolve hpc => exact .inr ⟨_, rfl, .resolved hpc⟩
  | loaded hpc => exact .inr ⟨_, rfl, .loaded hpc⟩
  | loadUp hpc => exact .inr ⟨_, rfl, .started hpc⟩
  | execLost hpc hs => exact .inr ⟨_, rfl, .execLost hpc hs⟩
  | execReturn hpc hs => exact .inr ⟨_, rfl, .execReturn hpc hs⟩
  | waitEnd hpc => exact .inr ⟨_, rfl, .waitEnd hpc⟩
  | waitAgain hpc hq htid hw => exact .inr ⟨_, rfl, .waitAgain hpc hq htid hw⟩
  | waitUp hpc hq => exact .inr ⟨_, rfl, .waitUp hpc⟩
  | chdir => exact .inl ((addRef_log _ _).trans (dropRef_log _ _))
  | exitClose => exact .inl (dropRef_log _ _)
  | _ => exact .inl rfl

theorem Trans.mem_log (hx : Trans s p t s') (he : e ∈ s.log) : e ∈ s'.log := by
  rcases hx.notes with h | ⟨e', h, -⟩
  · rwa [h]
  · rw [h]
    exact List.mem_cons_of_mem _ he

/-- What is new in the log has been noted. -/
theorem Trans.new_log (hx : Trans s p t s') (he : e ∈ s'.log) : e ∈ s.log ∨ Noted s s' p t e := by
  rcases hx.notes with h | ⟨e', h, hn⟩
  · exact .inl (h ▸ he)
  · grind

end

/-! ### Thread numbers -/

/-- The thread whose number the event takes up. -/
def Event.subject : Event → Option Nat
  | .created _ c _ | .loaded c _ | .exiting c _ => some c
  | _ => none

structure Ids (s : Kernel) : Prop where
  unique : ∀ {q q' : Nat} {t t' : Proc}, s.procs q = some t → s.procs q' = some t' → t.tid = t'.tid → q = q'
  below : ∀ {q : Nat} {t : Proc}, s.procs q = some t → t.tid < s.nextTid
  older : ∀ {q : Nat} {t : Proc}, s.procs q = some t → t.parentTid < t.tid
  all : ∀ {q : Nat}, q ∈ s.allList ↔ ∃ t, s.procs q = some t
  nodup : s.allList.Nodup
  named : ∀ e ∈ s.log, ∀ c ∈ e.subject, c < s.nextTid
  born : ∀ {q : Nat} {t : Proc}, s.procs q = some t → t.tid ≠ initialTid →
    ∃ wd, .created t.parentTid t.tid wd ∈ s.log
  younger : ∀ {parent c : Nat} {wd : Option Nat}, .created parent c wd ∈ s.log → parent < c

section
variable {s s' : Kernel} {p q r page : Nat} {t t' tr : Proc}

theorem Calm.live_iff (hc : Calm p s s') : (∃ t, s'.procs q = some t) ↔ ∃ t, s.procs q = some t := by
  constructor
  · intro hq
    obtain ⟨t', ht'⟩ := hq
    obtain ⟨t, ht, -⟩ := hc.before ht'
    exact ⟨t, ht⟩
  · intro hq
    obtain ⟨t, ht⟩ := hq
    obtain ⟨t', ht', -⟩ := hc.live ht
    exact ⟨t', ht'⟩

theorem Trans.own (hx : Trans s p t s') (ht : s.procs p = some t) (ht' : s'.procs p = some t') : Kin t t' := by
  rcases hx.calm with hcalm | ⟨page, relative, s1, -, hc, rfl⟩ | ⟨-, hg⟩
  · obtain ⟨t0, ht0, hk, -⟩ := hcalm.before ht'
    rw [ht] at ht0
    cases ht0
    exact hk
  · obtain ⟨hfree, rfl⟩ := threadCreate_ok hc
    have hne : p ≠ page := fun h => by simp [← h, ht] at hfree
    obtain ⟨t0, ht0, rfl⟩ := modify_some ht'
    simp only [Function.update_of_ne hne, ht, Option.some.injEq] at ht0
    subst ht0
    exact ⟨rfl, rfl, rfl⟩
  · obtain ⟨L, -, rfl⟩ := threadGone_ok hg
    simp at ht'

/-- A thread is one that was there, or the new one. -/
theorem Trans.before (hx : Trans s p t s') (ht : s.procs p = some t) (hr' : s'.procs r = some t') :
    (∃ tr, s.procs r = some tr ∧ Kin tr t') ∨ s.procs r = none := by
  cases hr : s.procs r with
  | none => exact .inr rfl
  | some tr =>
    refine .inl ⟨tr, rfl, ?_⟩
    by_cases hrp : r = p
    · subst hrp
      rw [ht] at hr
      cases hr
      exact hx.own ht hr'
    · obtain ⟨t1, ht1, hk⟩ := hx.kept hrp hr
      rw [hr'] at ht1
      cases ht1
      exact hk.kin

theorem Trans.live (hx : Trans s p t s') (ht : s.procs p = some t) (hpc : t.pc ≠ .exitGone) :
    ∃ t', s'.procs p = some t' := by
  rcases hx.calm with hcalm | ⟨page, relative, s1, -, hc, rfl⟩ | ⟨hpc', -⟩
  · obtain ⟨t', ht', -⟩ := hcalm.live ht
    exact ⟨t', ht'⟩
  · obtain ⟨hfree, rfl⟩ := threadCreate_ok hc
    have hne : p ≠ page := fun h => by simp [← h, ht] at hfree
    exact ⟨_, modify_self ((Function.update_of_ne hne ..).trans ht)⟩
  · exact absurd hpc' hpc

theorem Trans.nextTid_le (hx : Trans s p t s') : s.nextTid ≤ s'.nextTid := by
  rcases hx.calm with hcalm | ⟨page, relative, s1, -, hc, rfl⟩ | ⟨-, hg⟩
  · exact hcalm.nextTid.ge
  · obtain ⟨-, rfl⟩ := threadCreate_ok hc
    exact Nat.le_succ _
  · obtain ⟨L, -, rfl⟩ := threadGone_ok hg
    exact le_rfl

theorem Ids.step (h : Ids s) (ht : s.procs p = some t) (hx : Trans s p t s') : Ids s' where
  unique := by
    intro q q' t1 t2 h1 h2 heq
    rcases hx.before ht h1 with ⟨t1', h1', hk1⟩ | hn1
    · rcases hx.before ht h2 with ⟨t2', h2', hk2⟩ | hn2
      · exact h.unique h1' h2' (by rw [← hk1.tid, ← hk2.tid, heq])
      · obtain ⟨relative, rfl, -⟩ := hx.newcomer ht hn2 h2
        have := h.below h1'
        rw [← hk1.tid, heq] at this
        exact absurd this (Nat.lt_irrefl _)
    · obtain ⟨relative, rfl, -⟩ := hx.newcomer ht hn1 h1
      rcases hx.before ht h2 with ⟨t2', h2', hk2⟩ | hn2
      · have := h.below h2'
        rw [← hk2.tid, ← heq] at this
        exact absurd this (Nat.lt_irrefl _)
      · obtain ⟨-, -, -, hall, -⟩ := hx.newcomer ht hn1 h1
        obtain ⟨-, -, -, hall', -⟩ := hx.newcomer ht hn2 h2
        rw [hall] at hall'
        simpa using hall'
  below := by
    intro q t1 h1
    rcases hx.before ht h1 with ⟨t1', h1', hk1⟩ | hn1
    · rw [hk1.tid]
      exact (h.below h1').trans_le hx.nextTid_le
    · obtain ⟨relative, rfl, hnext, -⟩ := hx.newcomer ht hn1 h1
      rw [hnext]
      exact Nat.lt_succ_self _
  older := by
    intro q t1 h1
    rcases hx.before ht h1 with ⟨t1', h1', hk1⟩ | hn1
    · rw [hk1.tid, hk1.parentTid]
      exact h.older h1'
    · obtain ⟨relative, rfl, -⟩ := hx.newcomer ht hn1 h1
      exact h.below ht
  all := by
    intro q
    rcases hx.calm with hcalm | ⟨page, relative, s1, -, hc, rfl⟩ | ⟨-, hg⟩
    · rw [hcalm.allList, h.all, hcalm.live_iff]
    · rw [(calm_goto _).allList, (calm_goto _).live_iff]
      obtain ⟨hfree, rfl⟩ := threadCreate_ok hc
      show q ∈ s.allList ++ [page] ↔ ∃ t', Function.update s.procs page _ q = some t'
      by_cases hq : q = page
      · simp [hq]
      · simp [hq, h.all]
    · obtain ⟨L, -, rfl⟩ := threadGone_ok hg
      show q ∈ s.allList.erase p ↔ ∃ t, Function.update s.procs p none q = some t
      rw [h.nodup.mem_erase_iff, h.all]
      grind
  nodup := by
    rcases hx.calm with hcalm | ⟨page, relative, s1, -, hc, rfl⟩ | ⟨-, hg⟩
    · rw [hcalm.allList]
      exact h.nodup
    · obtain ⟨hfree, rfl⟩ := threadCreate_ok hc
      have hpage : page ∉ s.allList := by
        rw [h.all, hfree]
        simp
      show (s.allList ++ [page]).Nodup
      rw [← List.concat_eq_append]
      exact h.nodup.concat hpage
    · obtain ⟨L, -, rfl⟩ := threadGone_ok hg
      exact h.nodup.erase p
  named := by
    intro e he c hc
    rcases hx.new_log he with he | hn
    · exact (h.named e he c hc).trans_le hx.nextTid_le
    · cases hn with
      | created hpc hnext =>
        cases hc
        rw [hnext]
        exact Nat.lt_succ_self _
      | loaded | exiting =>
        cases hc
        exact (h.below ht).trans_le hx.nextTid_le
      | _ => cases hc
  born := by
    intro q t1 h1 htid
    rcases hx.before ht h1 with ⟨t1', h1', hk1⟩ | hn1
    · rw [hk1.tid, hk1.parentTid]
      obtain ⟨wd, hwd⟩ := h.born h1' (hk1.tid ▸ htid)
      exact ⟨wd, hx.mem_log hwd⟩
    · obtain ⟨relative, rfl, -, -, hlog⟩ := hx.newcomer ht hn1 h1
      exact ⟨t.workingDirectory, by rw [hlog]; exact List.mem_cons_self⟩
  younger := by
    intro parent c wd he
    rcases hx.new_log he with he | hn
    · exact h.younger he
    · cases hn with
      | created => exact h.below ht

theorem ids_booted : Ids booted where
  unique := by
    intro q q' t t' ht ht' heq
    obtain ⟨rfl, rfl⟩ | ⟨rfl, rfl⟩ := booted_some ht
    · obtain ⟨rfl, -⟩ | ⟨rfl, rfl⟩ := booted_some ht'
      · rfl
      · cases heq
    · obtain ⟨rfl, rfl⟩ | ⟨rfl, -⟩ := booted_some ht'
      · cases heq
      · rfl
  below := by
    intro q t ht
    obtain ⟨-, rfl⟩ | ⟨-, rfl⟩ := booted_some ht <;> decide
  older := by
    intro q t ht
    obtain ⟨-, rfl⟩ | ⟨-, rfl⟩ := booted_some ht <;> decide
  all := by
    intro q
    constructor
    · intro hq
      rcases List.mem_pair.mp hq with rfl | rfl
      · exact ⟨_, rfl⟩
      · exact ⟨_, rfl⟩
    · intro hq
      obtain ⟨t, ht⟩ := hq
      obtain ⟨rfl, -⟩ | ⟨rfl, -⟩ := booted_some ht <;> decide
  nodup := by decide
  named := by decide
  born := by
    intro q t ht htid
    obtain ⟨-, rfl⟩ | ⟨-, rfl⟩ := booted_some ht
    · exact absurd rfl htid
    · exact ⟨none, List.mem_cons_self⟩
  younger := by
    intro parent c wd he
    cases List.mem_singleton.mp he
    decide

end

/-! ### Load and exit -/

/-- `start_process`, before the outcome of `load` is stored. -/
def Pc.loading : Pc → Bool
  | .start _ | .openRoot | .storeRoot _ | .resolve | .opened | .loaded _ => true
  | _ => false

/-- `thread_exit`. -/
def Pc.exits : Pc → Bool
  | .exitClose | .exitUp | .exitBegin | .exitLoop _ | .exitNext _ | .processExit | .exitDown | .exitGone => true
  | _ => false

/-- What a parent may be told about the thread `c`: what it passed to `exit`, or that it was killed or could
not be loaded. -/
def Settled (past : List Event) (c : Nat) (v : Int) : Prop :=
  .exiting c v ∈ past ∨ .loaded c false ∈ past ∧ v = -1

/-- The fields of a thread say what has been noted about it. -/
structure Life (past : List Event) (t : Proc) : Prop where
  unloaded : t.pc.loading = true → t.loadDone = 0 ∧ ∀ b, .loaded t.tid b ∉ past
  loaded : t.pc.loading = false → t.tid ≠ initialTid → .loaded t.tid t.loadSuccessStatus ∈ past
  outcome : ∀ {b : Bool}, t.pc = .loadUp b → t.loadSuccessStatus = b
  alive : t.pc.exits = false → t.exitValue = -1 ∧ t.exited = 0 ∧ ∀ v, .exiting t.tid v ∉ past
  settled : t.pc.exits = true → Settled past t.tid t.exitValue

section
variable {s s' : Kernel} {p q r : Nat} {t t' tr : Proc} {past : List Event} {e : Event}

theorem Settled.cons {c : Nat} {v : Int} (h : Settled past c v) (e : Event) : Settled (e :: past) c v := by
  rcases h with h | ⟨h, hv⟩
  · exact .inl (List.mem_cons_of_mem _ h)
  · exact .inr ⟨List.mem_cons_of_mem _ h, hv⟩

theorem Life.kept (h : Life past t) (hk : Kept t t') : Life past t' where
  unloaded := by
    intro hl
    obtain ⟨h0, hb⟩ := h.unloaded (hk.pc ▸ hl)
    exact ⟨Nat.le_zero.mp (h0 ▸ hk.loadDone), by rwa [hk.kin.tid]⟩
  loaded := by
    intro hl htid
    rw [hk.kin.tid, hk.loadSuccessStatus]
    exact h.loaded (hk.pc ▸ hl) (hk.kin.tid ▸ htid)
  outcome := by
    intro b hb
    rw [hk.loadSuccessStatus]
    exact h.outcome (hk.pc ▸ hb)
  alive := by
    intro hl
    obtain ⟨h1, h2, h3⟩ := h.alive (hk.pc ▸ hl)
    exact ⟨hk.exitValue.trans h1, Nat.le_zero.mp (h2 ▸ hk.exited), by rwa [hk.kin.tid]⟩
  settled := by
    intro hl
    rw [hk.kin.tid, hk.exitValue]
    exact h.settled (hk.pc ▸ hl)

/-- `load_done` is upped after the load. -/
theorem Life.loaded_of_up (h : Life past t) (hup : 0 < t.loadDone) : t.pc.loading = false := by
  cases hl : t.pc.loading with
  | false => rfl
  | true =>
    rw [(h.unloaded hl).1] at hup
    cases hup

/-- `exited` is upped after the status has been set. -/
theorem Life.settled_of_up (h : Life past t) (hup : 0 < t.exited) : Settled past t.tid t.exitValue := by
  cases hx : t.pc.exits with
  | true => exact h.settled hx
  | false =>
    rw [(h.alive hx).2.1] at hup
    cases hup

/-- An event that is not the thread's own load or exit. -/
theorem Life.cons (h : Life past t) (hload : ∀ b, e ≠ .loaded t.tid b) (hexit : ∀ v, e ≠ .exiting t.tid v) :
    Life (e :: past) t where
  unloaded := by
    intro hl
    obtain ⟨h0, hb⟩ := h.unloaded hl
    exact ⟨h0, fun b hm => (List.mem_cons.mp hm).elim (fun h => hload b h.symm) (hb b)⟩
  loaded := fun hl htid => List.mem_cons_of_mem _ (h.loaded hl htid)
  outcome := h.outcome
  alive := by
    intro hl
    obtain ⟨h1, h2, h3⟩ := h.alive hl
    exact ⟨h1, h2, fun v hm => (List.mem_cons.mp hm).elim (fun h => hexit v h.symm) (h3 v)⟩
  settled := fun hl => (h.settled hl).cons e

/-- Going on within the same stage. -/
theorem Life.goto (h : Life past t) {pc : Pc} (hl : pc.loading = t.pc.loading) (hx : pc.exits = t.pc.exits)
    (hu : ∀ b, pc ≠ .loadUp b) : Life past {t with pc := pc} where
  unloaded := fun h' => h.unloaded (hl ▸ h')
  loaded := fun h' => h.loaded (hl ▸ h')
  outcome := fun h' => absurd h' (hu _)
  alive := fun h' => h.alive (hx ▸ h')
  settled := fun h' => h.settled (hx ▸ h')

/-- The thread that takes the step goes on, from what an earlier part of the step left of it. -/
theorem Life.own_goto {u : Kernel} {pc : Pc} (h : Life u.log t) (hk : ∃ t1, u.procs p = some t1 ∧ Kept t t1)
    (hl : pc.loading = t.pc.loading) (hx : pc.exits = t.pc.exits) (hu : ∀ b, pc ≠ .loadUp b)
    (ht' : (u.goto p pc).procs p = some t') : Life (u.goto p pc).log t' := by
  obtain ⟨t1, ht1, hk⟩ := hk
  obtain ⟨t2, ht2, rfl⟩ := modify_some ht'
  rw [ht1] at ht2
  cases ht2
  exact (h.kept hk).goto (hk.pc ▸ hl) (hk.pc ▸ hx) hu

/-- The thread that takes the step. -/
theorem Life.own (h : Life s.log t) (hcalls : t.tid = initialTid → t.pc.calls = true) (ht : s.procs p = some t)
    (hx : Trans s p t s') (ht' : s'.procs p = some t') : Life s'.log t' := by
  have hsame : ∃ t1, s.procs p = some t1 ∧ Kept t t1 := ⟨t, ht, kept_refl t⟩
  cases hx with
  | @exec page _ _ hpc hc =>
    obtain ⟨hfree, rfl⟩ := threadCreate_ok hc
    have hne : p ≠ page := fun h => by simp [← h, ht] at hfree
    have h1 : Life (.created t.tid s.nextTid t.workingDirectory :: s.log) t := h.cons (by simp) (by simp)
    refine Life.own_goto h1 ⟨t, (Function.update_of_ne hne ..).trans ht, kept_refl t⟩ ?_ ?_ (by simp) ht'
    all_goals rw [hpc]; rfl
  | exitGone hpc hg =>
    obtain ⟨L, -, rfl⟩ := threadGone_ok hg
    simp at ht'
  | exit hpc =>
    obtain ⟨t1, ht1, rfl⟩ := modify_some ht'
    cases ht.symm.trans ht1
    refine ⟨by simp [Pc.loading], ?_, by simp, by simp [Pc.exits], fun _ => .inl List.mem_cons_self⟩
    exact fun _ htid => List.mem_cons_of_mem _ (h.loaded (by rw [hpc]; rfl) htid)
  | loaded hpc =>
    obtain ⟨t1, ht1, rfl⟩ := modify_some ht'
    cases ht.symm.trans ht1
    obtain ⟨h1, h2, h3⟩ := h.alive (by rw [hpc]; rfl)
    refine ⟨by simp [Pc.loading], fun _ _ => List.mem_cons_self, ?_, fun _ => ⟨h1, h2, ?_⟩, by simp [Pc.exits]⟩
    · intro b hb
      injection hb
    · intro v hv
      exact h3 v ((List.mem_cons.mp hv).resolve_left (by simp))
  | loadUp hpc =>
    obtain ⟨t1, ht1, rfl⟩ := modify_some ht'
    cases ht.symm.trans ht1
    obtain ⟨h1, h2, h3⟩ := h.alive (by rw [hpc]; rfl)
    refine ⟨by simp [Pc.loading], ?_, by simp, fun _ => ⟨h1, h2, ?_⟩, by simp [Pc.exits]⟩
    · exact fun _ htid => List.mem_cons_of_mem _ (h.loaded (by rw [hpc]; rfl) htid)
    · intro v hv
      exact h3 v ((List.mem_cons.mp hv).resolve_left (by simp))
  | loadFail hpc =>
    obtain ⟨t1, ht1, rfl⟩ := modify_some ht'
    cases ht.symm.trans ht1
    have htid : t.tid ≠ initialTid := by
      intro htid
      have := hcalls htid
      rw [hpc] at this
      cases this
    have hload := h.loaded (by rw [hpc]; rfl) htid
    have hvalue := (h.alive (by rw [hpc]; rfl)).1
    refine ⟨by simp [Pc.loading], fun _ _ => hload, by simp, by simp [Pc.exits], fun _ => .inr ⟨?_, hvalue⟩⟩
    rwa [h.outcome hpc] at hload
  | @storeRoot dir hpc =>
    obtain ⟨t1, ht1, rfl⟩ := modify_some ht'
    cases ht.symm.trans ht1
    have hwd : Kept t {t with workingDirectory := dir} := ⟨⟨rfl, rfl, rfl⟩, rfl, rfl, rfl, le_rfl, le_rfl⟩
    refine (h.kept hwd).goto ?_ ?_ (by simp)
    all_goals rw [hpc]; rfl
  | chdir hpc =>
    rw [modify_self (t := t) (by simpa using ht)] at ht'
    cases ht'
    refine Life.kept (t := t) ?_ ⟨⟨rfl, rfl, rfl⟩, rfl, rfl, rfl, le_rfl, le_rfl⟩
    simpa [Kernel.modify] using h
  | exitUp hpc | processExit hpc | exitDown hpc =>
    obtain ⟨t1, ht1, rfl⟩ := modify_some ht'
    cases ht.symm.trans ht1
    have hload := h.loaded (by rw [hpc]; rfl)
    have hset := h.settled (by rw [hpc]; rfl)
    exact ⟨by simp [Pc.loading], fun _ => hload, by simp, by simp [Pc.exits], fun _ => hset⟩
  | resolve hpc | execLost hpc | execReturn hpc | waitEnd hpc | waitAgain hpc =>
    refine Life.own_goto (u := s.note _) (h.cons (by simp) (by simp)) hsame ?_ ?_ (by simp) ht'
    all_goals rw [hpc]; rfl
  | waitUp hpc =>
    refine Life.own_goto (u := (s.modify _ _).note _) (h.cons (by simp) (by simp)) ?_ ?_ ?_ (by simp) ht'
    · exact modify_kept (fun t => ⟨⟨rfl, rfl, rfl⟩, rfl, rfl, rfl, le_rfl, le_rfl⟩) ht
    all_goals rw [hpc]; rfl
  | execStoreWd hpc | waitFound hpc | exitLoop hpc =>
    refine Life.own_goto (u := s.modify _ _) h ?_ ?_ ?_ (by simp) ht'
    · exact modify_kept (fun t => ⟨⟨rfl, rfl, rfl⟩, rfl, rfl, rfl, le_rfl, le_rfl⟩) ht
    all_goals rw [hpc]; rfl
  | execDown hpc =>
    refine Life.own_goto (u := s.modify _ _) h ?_ ?_ ?_ (by simp) ht'
    · exact modify_kept (fun t => ⟨⟨rfl, rfl, rfl⟩, rfl, rfl, rfl, Nat.sub_le _ _, le_rfl⟩) ht
    all_goals rw [hpc]; rfl
  | waitDown hpc =>
    refine Life.own_goto (u := s.modify _ _) h ?_ ?_ ?_ (by simp) ht'
    · exact modify_kept (fun t => ⟨⟨rfl, rfl, rfl⟩, rfl, rfl, rfl, le_rfl, Nat.sub_le _ _⟩) ht
    all_goals rw [hpc]; rfl
  | execReopen hpc | openRoot hpc =>
    refine Life.own_goto (u := s.addRef _ _) h hsame ?_ ?_ (by simp) ht'
    all_goals rw [hpc]; rfl
  | pushElem hpc | pushLast hpc =>
    refine Life.own_goto (u := {s with links := _}) h hsame ?_ ?_ (by simp) ht'
    all_goals rw [hpc]; rfl
  | pushTail hpc =>
    refine Life.own_goto (u := Kernel.modify {s with links := _} _ _) h ?_ ?_ ?_ (by simp) ht'
    · exact modify_kept (fun t => ⟨⟨rfl, rfl, rfl⟩, rfl, rfl, rfl, le_rfl, le_rfl⟩) ht
    all_goals rw [hpc]; rfl
  | exitClose hpc =>
    refine Life.own_goto (u := s.dropRef _ _) (by simpa using h) (by simpa using hsame) ?_ ?_ (by simp) ht'
    all_goals rw [hpc]; rfl
  | _ hpc =>
    refine Life.own_goto h hsame ?_ ?_ (by simp) ht'
    all_goals rw [hpc]; rfl

theorem life_newProc {tid parentTid parent : Nat} {relative : Bool} (hload : ∀ b, .loaded tid b ∉ past)
    (hexit : ∀ v, .exiting tid v ∉ past) : Life past (newProc tid parentTid parent relative) where
  unloaded := fun _ => ⟨rfl, hload⟩
  loaded := fun h => by cases h
  outcome := fun h => by cases h
  alive := fun _ => ⟨rfl, rfl, hexit⟩
  settled := fun h => by cases h

/-- What a thread notes about loads and exits is about itself. -/
theorem Noted.own_load {c : Nat} {b : Bool} (h : Noted s s' p t (.loaded c b)) : c = t.tid ∧ t.pc = .loaded b := by
  cases h with
  | loaded hpc => exact ⟨rfl, hpc⟩

theorem Noted.own_exit {c : Nat} {v : Int} (h : Noted s s' p t (.exiting c v)) : c = t.tid ∧ t.pc = .user := by
  cases h with
  | exiting hpc => exact ⟨rfl, hpc⟩

def Lives (s : Kernel) : Prop := ∀ {q : Nat} {t : Proc}, s.procs q = some t → Life s.log t

theorem Lives.step (h : Lives s) (hids : Ids s) (hcalls : t.tid = initialTid → t.pc.calls = true)
    (ht : s.procs p = some t) (hx : Trans s p t s') : Lives s' := by
  intro r t' hr'
  cases hr : s.procs r with
  | none =>
    obtain ⟨relative, rfl, -, -, hlog⟩ := hx.newcomer ht hr hr'
    have hfresh : ∀ e ∈ s.log, s.nextTid ∉ e.subject := fun e he hc => Nat.lt_irrefl _ (hids.named e he _ hc)
    rw [hlog]
    refine life_newProc ?_ ?_
    · intro b hb
      exact hfresh _ ((List.mem_cons.mp hb).resolve_left (by simp)) rfl
    · intro v hv
      exact hfresh _ ((List.mem_cons.mp hv).resolve_left (by simp)) rfl
  | some tr =>
    by_cases hrp : r = p
    · subst hrp
      cases ht.symm.trans hr
      exact (h ht).own hcalls ht hx hr'
    · obtain ⟨t1, ht1, hk⟩ := hx.kept hrp hr
      cases ht1.symm.trans hr'
      have hne : tr.tid ≠ t.tid := fun heq => hrp (hids.unique hr ht heq)
      have hlife := (h hr).kept hk
      rcases hx.notes with hlog | ⟨e, hlog, hn⟩
      · rwa [hlog]
      · rw [hlog]
        refine hlife.cons ?_ ?_
        · intro b hb
          subst hb
          exact hne (hk.kin.tid ▸ hn.own_load.1)
        · intro v hv
          subst hv
          exact hne (hk.kin.tid ▸ hn.own_exit.1)

theorem lives_booted : Lives booted := by
  intro q t ht
  obtain ⟨-, rfl⟩ | ⟨-, rfl⟩ := booted_some ht
  · refine ⟨by simp [Pc.loading], fun _ h => absurd rfl h, by simp, fun _ => ⟨rfl, rfl, ?_⟩, by simp [Pc.exits]⟩
    intro v hv
    cases List.mem_singleton.mp hv
  · refine life_newProc ?_ ?_
    · intro b hb
      cases List.mem_singleton.mp hb
    · intro v hv
      cases List.mem_singleton.mp hv

end

end Pintos.Userprog
