import Pintos.Threads.Queues

/-! The lists of threads stay in order.

Every act keeps `Tidy`, and none of them ends in the assertion of `thread_unblock`. Blocking
puts the running thread into the list its top frame says it waits in, waking takes a thread
out of the list it is in, and a thread being created is unblocked by the frame that names
it. -/
namespace Pintos.Threads
open Kernel Outcome

section
variable {s s' : State} {t c : Tid} {k : SemaId}

theorem Frame.not_sleeping {f : Frame} (h : f.waitsOn = some k) : f.isSleeping = false := by
  cases f <;> first | rfl | cases h

/-! ### The functions -/

/-- The stack and the state of every thread are as before. -/
theorem Tidy.same (h : Tidy s) (ha : Alike s.current s s') (hcur : s'.current = s.current)
    (hst : (s'.thread s.current).status = (s.thread s.current).status)
    (hf : (s'.thread s.current).frames = (s.thread s.current).frames) : Tidy s' := by
  apply h.own ha hcur hst
  · intro hi
    rw [hf, hi]
    exact h.idleFrames
  · simp only [births, hf]
    exact List.Sublist.refl _
  · rw [hf]
    exact h.owned _ h.live

/-- The frames the idle thread can be in. -/
def Frame.isIdle : Frame → Bool
  | .setLevel _ => true
  | .idleBlock => true
  | .idleHalt => true
  | _ => false

theorem Tidy.not_idle (h : Tidy s) {f : Frame} {fs : List Frame} (hf : s.frames = f :: fs) (hi : f.isIdle = false) :
    s.current ≠ s.idleThread := by
  intro e
  have hid := h.idleFrames
  rw [← e] at hid
  obtain ⟨gs, g, hg, hgs, hlast⟩ := hid
  have hf : gs ++ [g] = f :: fs := hg ▸ hf
  cases gs with
  | nil =>
    cases hf
    rcases hlast with rfl | rfl <;> cases hi
  | cons g' gs =>
    cases hf
    simp only [List.all_cons, Bool.and_eq_true] at hgs
    have hset := hgs.1
    cases f with
    | setLevel on => cases hi
    | _ => cases hset

theorem Tidy.not_idle_of_nil (h : Tidy s) (hf : s.frames = []) : s.current ≠ s.idleThread := by
  intro e
  obtain ⟨gs, g, hg, -⟩ := e ▸ h.idleFrames
  have hf : gs ++ [g] = [] := hg ▸ hf
  simp at hf

theorem births_setFrames (fs : List Frame) :
    births (s.setFrames fs) s.current = fs.filterMap Frame.births := by
  simp [births, State.setFrames, State.mapThread]

theorem alike_setFrames (fs : List Frame) : Alike s.current s (s.setFrames fs) := by
  refine ⟨rfl, rfl, rfl, rfl, fun _ => rfl, ?_, ?_⟩
  · intro t ht
    simp [State.setFrames, State.mapThread, ht]
  · intro t ht
    simp [State.setFrames, State.mapThread, ht]

/-- The running thread changes its stack. -/
theorem Tidy.reframe (h : Tidy s) {fs : List Frame} (hidle : s.current = s.idleThread → IdleFrames fs)
    (hb : (fs.filterMap Frame.births).Sublist (s.frames.filterMap Frame.births)) (ho : Owned s.current fs) :
    Tidy (s.setFrames fs) := by
  have hf : ((s.setFrames fs).thread s.current).frames = fs := by simp [State.setFrames, State.mapThread]
  apply h.own (alike_setFrames fs) rfl
  · simp [State.setFrames, State.mapThread]
  · rw [hf]
    exact hidle
  · rw [births_setFrames]
    exact hb
  · rw [hf]
    exact ho

theorem Tidy.setFrames (h : Tidy s) (hi : s.current ≠ s.idleThread) {fs : List Frame}
    (hb : (fs.filterMap Frame.births).Sublist (s.frames.filterMap Frame.births)) (ho : Owned s.current fs) :
    Tidy (s.setFrames fs) :=
  h.reframe (fun e => absurd e hi) hb ho

theorem Tidy.owned_frames (h : Tidy s) : Owned s.current s.frames := h.owned _ h.live

/-- The running thread calls a function. -/
theorem Tidy.pushOwned (h : Tidy s) (hi : s.current ≠ s.idleThread) {f : Frame} (hb : f.births = none)
    (ho : f.proper s.current) : Tidy (s.push f) := by
  apply h.setFrames hi
  · rw [List.filterMap_cons, hb]
  · intro g hg
    rcases List.mem_cons.mp hg with rfl | hg
    · exact ho
    · exact h.owned_frames g hg

theorem Frame.proper_of_onSema {f : Frame} (hf : f.onSema = none) (t : Tid) : f.proper t := by
  cases f <;> trivial

theorem Tidy.push (h : Tidy s) (hi : s.current ≠ s.idleThread) {f : Frame} (hf : f.isPlain = true) : Tidy (s.push f) := by
  simp only [Frame.isPlain, Bool.and_eq_true, Option.isNone_iff_eq_none] at hf
  exact h.pushOwned hi hf.1 (Frame.proper_of_onSema hf.2 _)

theorem Tidy.pop (h : Tidy s) (hi : s.current ≠ s.idleThread) : Tidy s.pop :=
  h.setFrames hi ((List.tail_sublist _).filterMap _) fun f hf => h.owned_frames f (List.mem_of_mem_tail hf)

theorem Tidy.setIntr (h : Tidy s) (on : Bool) : Tidy (s.setIntr on) :=
  h.same ⟨rfl, rfl, rfl, rfl, fun _ => rfl, fun _ _ => rfl, fun _ _ => rfl⟩ rfl rfl rfl

theorem topFrame_iff {f : Frame} {fs : List Frame} (hf : s.frames = f :: fs) {p : Frame → Prop} :
    TopFrame s s.current p ↔ p f := by
  have hf : (s.thread s.current).frames = f :: fs := hf
  simp [TopFrame, hf]

/-- Waiting on a semaphore, the frame that waits on it on top of the stack. -/
theorem semaWait_tidy (h : Tidy s) {f : Frame} {fs : List Frame} (hf : s.frames = f :: fs) (hk : f.waitsOn = some k) :
    Tidy (semaWait k s) := by
  have hout := h.loose
  refine h.block ?_ ?_ h.sleepNodup ?_
  · intro k'
    by_cases he : k' = k
    · subst he
      simpa using List.nodup_append'.mpr
        ⟨h.waitersNodup k', List.nodup_singleton s.current, by simpa using hout.1 k'⟩
    · simpa [he] using h.waitersNodup k'
  · intro k' x
    rw [topFrame_iff hf, hk]
    by_cases he : k' = k
    · grind
    · by_cases hx : x = s.current
      · simp [he, Ne.symm he, hx, hout.1 k']
      · simp [he, hx]
  · intro x
    rw [topFrame_iff hf, Frame.not_sleeping hk]
    by_cases hx : x = s.current
    · simp [hx, hout.2.1]
    · simp [hx]

theorem alike_semaTake (k : SemaId) : Alike s.current s (semaTake k s) := by
  refine ⟨rfl, rfl, rfl, rfl, ?_, fun _ _ => rfl, fun _ _ => rfl⟩
  intro k'
  by_cases he : k' = k
  · subst he
    simp [semaTake, State.mapSema, State.record]
  · simp [semaTake, State.mapSema, State.record, he]

theorem semaTake_tidy (h : Tidy s) : Tidy (semaTake k s) := h.same (alike_semaTake k) rfl rfl rfl

theorem downLoop_tidy (h : Tidy s) {on : Bool} {fs : List Frame} (hf : s.frames = .down k on :: fs) :
    Tidy (downLoop k on s) := by
  have hi := h.not_idle hf rfl
  unfold downLoop
  split
  · exact semaWait_tidy h hf rfl
  · exact ((semaTake_tidy h).pop hi).setIntr on

theorem frames_push (s : State) (f : Frame) : (s.push f).frames = f :: s.frames := by
  simp [State.push, State.setFrames, State.mapThread, State.frames]

theorem semaDown_tidy (h : Tidy s) (hi : s.current ≠ s.idleThread) (hk : (Frame.semaDown k).proper s.current) :
    Tidy (semaDown k s) :=
  downLoop_tidy ((h.pushOwned hi (f := .down k s.intr) rfl hk).setIntr false) (frames_push s _)

/-- A thread waits on one semaphore at a time. -/
theorem Queues.waiters_inj (h : Queues s) {k' : SemaId} (ht : t ∈ (s.sema k).waiters) (ht' : t ∈ (s.sema k').waiters) :
    k = k' := by
  obtain ⟨-, -, f, hf, hk⟩ := (h.waiters k t).mp ht
  obtain ⟨-, -, g, hg, hk'⟩ := (h.waiters k' t).mp ht'
  grind

/-- Only the thread whose `cond_wait` it is waits on a private semaphore. -/
theorem Queues.waiter_owns (h : Queues s) {w : Tid} (ht : t ∈ (s.sema (.waiter w)).waiters) : w = t := by
  obtain ⟨hl, -, f, hf, hk⟩ := (h.waiters _ t).mp ht
  have hp := h.owned t hl f (List.mem_of_head? hf)
  cases f with
  | down k on =>
    cases hk
    exact (hp .pool w).2 rfl
  | _ => cases hk

/-- A thread that waits on a semaphore does not sleep and is not being created. -/
theorem Queues.waiter_elsewhere (h : Queues s) (ht : t ∈ (s.sema k).waiters) :
    t ∉ s.sleepThreadsList ∧ ∀ u ∈ s.allList, t ∉ births s u := by
  obtain ⟨-, -, f, hf, hk⟩ := (h.waiters k t).mp ht
  constructor
  · intro hs
    obtain ⟨-, -, g, hg, hgs⟩ := (h.sleepers t).mp hs
    rw [hf] at hg
    cases hg
    rw [Frame.not_sleeping hk] at hgs
    cases hgs
  · intro u hu hm
    rw [(h.birth u hu t hm).2.2] at hf
    cases hf
    cases hk

theorem Queues.sleeper_elsewhere (h : Queues s) (ht : t ∈ s.sleepThreadsList) :
    (∀ k, t ∉ (s.sema k).waiters) ∧ ∀ u ∈ s.allList, t ∉ births s u := by
  obtain ⟨-, -, f, hf, hs⟩ := (h.sleepers t).mp ht
  constructor
  · intro k hk
    exact (h.waiter_elsewhere hk).1 ht
  · intro u hu hm
    rw [(h.birth u hu t hm).2.2] at hf
    cases hf
    cases hs

theorem Tidy.upped (h : Tidy s) (k : SemaId) : Tidy (upped k s) := by
  cases hm : wokenBy k s with
  | none =>
    rw [upped_of_none hm]
    refine h.same ⟨rfl, rfl, rfl, rfl, ?_, fun _ _ => rfl, fun _ _ => rfl⟩ rfl rfl rfl
    grind
  | some t =>
    have ht : t ∈ (s.sema k).waiters := mem_of_listMax hm
    obtain ⟨hl, hb, -⟩ := (h.waiters k t).mp ht
    obtain ⟨hsleep, hfree⟩ := h.toQueues.waiter_elsewhere ht
    have hi : t ≠ s.idleThread := fun e => h.toQueues.loose_idle.1 k (e ▸ ht)
    rw [upped_of_some hm]
    refine h.wake hl hb hi hfree ?_ ?_ h.sleepNodup ?_
    · intro k'
      by_cases he : k' = k
      · subst he
        simpa using (h.waitersNodup k').erase t
      · simpa [he] using h.waitersNodup k'
    · intro k' x
      by_cases he : k' = k
      · subst he
        simp [(h.waitersNodup k').mem_erase_iff]
      · simp only [Function.update_of_ne he]
        constructor
        · intro hx
          exact ⟨fun e => he (h.toQueues.waiters_inj hx (e ▸ ht)), hx⟩
        · exact fun hx => hx.2
    · grind

theorem Tidy.semaUpValue (h : Tidy s) (k : SemaId) : semaUpValue k s = .ok (Threads.upped k s) :=
  semaUpValue_eq fun t ht => ((h.waiters k t).mp ht).2.1

theorem Tidy.raised (h : Tidy s) (hr : Raised s s') : Tidy s' := by
  obtain ⟨eff, rfl⟩ := hr
  exact h.same ⟨rfl, rfl, rfl, rfl, fun _ => rfl, fun _ _ => rfl, fun _ _ => rfl⟩ rfl rfl rfl

/-- The threads and the lists are as before. -/
theorem Tidy.apart (h : Tidy s) (ht : s'.thread = s.thread) (hal : s'.allList = s.allList)
    (hc : s'.current = s.current) (hi : s'.idleThread = s.idleThread) (hr : s'.readyList = s.readyList)
    (hsl : s'.sleepThreadsList = s.sleepThreadsList) (hse : s'.sema = s.sema) : Tidy s' := by
  refine h.same ⟨hal, hi, hr, hsl, ?_, ?_, ?_⟩ hc ?_ ?_
  all_goals simp [ht, hse]

theorem Tidy.setEff (h : Tidy s) (t : Tid) (p : Int) : Tidy (s.setEff t p) := h.raised (raised_setEff s t p)

/-! ### Locks -/

theorem Raised.current (hr : Raised s s') : s'.current = s.current := by
  obtain ⟨eff, rfl⟩ := hr
  rfl

theorem Raised.idleThread (hr : Raised s s') : s'.idleThread = s.idleThread := by
  obtain ⟨eff, rfl⟩ := hr
  rfl

theorem Tidy.waitFor (h : Tidy s) (l : Option LockId) :
    Tidy (s.mapThread s.current fun x => {x with waitingLock := l}) := by
  refine h.same ⟨rfl, rfl, rfl, rfl, fun _ => rfl, ?_, ?_⟩ rfl ?_ ?_
  all_goals simp +contextual [State.mapThread]

/-- A condition on panics that only a wrong `thread_unblock` could break. -/
theorem tame : ∀ e : Panic, e ≠ .notBlocked → e ≠ .notBlocked := fun _ => id

theorem lockTake_tidy (h : Tidy s) {l : LockId} {on : Bool} : Gives (lockTake l on s) Tidy (· ≠ .notBlocked) := by
  apply gives_lockTake tame
  intro links _
  exact ((h.waitFor none).setIntr on).apart rfl rfl rfl rfl rfl rfl rfl

theorem acquireLoop_tidy (h : Tidy s) {l : LockId} {on : Bool} {fs : List Frame} (hf : s.frames = .acquire l on :: fs) :
    Gives (acquireLoop l on s) Tidy (· ≠ .notBlocked) := by
  have hi := h.not_idle hf rfl
  apply gives_acquireLoop
  · intro _
    exact semaWait_tidy h hf rfl
  · intro _
    exact lockTake_tidy ((semaTake_tidy h).pop hi)

theorem lockAcquire_tidy (h : Tidy s) (hi : s.current ≠ s.idleThread) (l : LockId) (n : Nat) :
    Gives (lockAcquire l n s) Tidy (· ≠ .notBlocked) := by
  apply gives_lockAcquire tame
  intro _ s1
  apply (comparePriorityAndUpdate_raised _ _ _ _).mono
  · intro s2 hr _
    have hs2 : Tidy s2 := ((h.setIntr false).waitFor (some l)).raised hr
    have hi2 : s2.current ≠ s2.idleThread := by
      rw [hr.current, hr.idleThread]
      exact hi
    exact acquireLoop_tidy (hs2.push hi2 rfl) (frames_push s2 _)
  · intro e he
    simp [he]

theorem lockTryAcquire_tidy (h : Tidy s) (hi : s.current ≠ s.idleThread) (l : LockId) :
    Gives (lockTryAcquire l s) Tidy (· ≠ .notBlocked) :=
  gives_lockTryAcquire tame (fun _ _ => (semaTake_tidy h).push hi rfl) fun _ => h

theorem lockUnlink_tidy (h : Tidy s) (hi : s.current ≠ s.idleThread) (l : LockId) (on : Bool) (fuel : Nat) :
    Gives (lockUnlink l on fuel s) Tidy (· ≠ .notBlocked) := by
  apply gives_lockUnlink tame
  intro links p _ _
  have hlinks : Tidy {s with links := links} := h.apart rfl rfl rfl rfl rfl rfl rfl
  have hp := hlinks.setEff s.current p
  exact ⟨fun _ => yieldNow_tidy (hp.push hi rfl), fun _ => hp.setIntr on⟩

theorem lockRelease_tidy (h : Tidy s) (hi : s.current ≠ s.idleThread) (l : LockId) (fuel : Nat) :
    Gives (lockRelease l fuel s) Tidy (· ≠ .notBlocked) := by
  have hfree : Tidy ((s.setIntr false).setHolder l none) := h.apart rfl rfl rfl rfl rfl rfl rfl
  have hup := hfree.upped (.lock l)
  apply gives_lockRelease tame fun t ht => ((h.waiters _ t).mp ht).2.1
  intro _
  exact ⟨fun _ => yieldNow_tidy (hup.push hi rfl), fun _ => lockUnlink_tidy hup hi l s.intr fuel⟩

/-! ### Conditions -/

theorem condWait_tidy (h : Tidy s) (hi : s.current ≠ s.idleThread) (c : Nat) :
    Gives (condWait c s) Tidy (· ≠ .notBlocked) := by
  apply gives_condWait tame
  intro _ s1
  -- the running thread is in no list, so its own semaphore has no waiters to lose
  have hempty : Tidy s1 := by
    refine h.same ⟨rfl, rfl, rfl, rfl, ?_, fun _ _ => rfl, fun _ _ => rfl⟩ rfl rfl rfl
    intro k
    by_cases hk : k = .waiter s.current
    · subst hk
      have hnil : (s.sema (.waiter s.current)).waiters = [] := by
        apply List.eq_nil_iff_forall_not_mem.mpr
        intro t ht
        have hown : s.current = t := h.toQueues.waiter_owns ht
        subst hown
        exact h.loose.1 _ ht
      simp [s1, State.mapSema, hnil]
    · simp [s1, State.mapSema, hk]
  have hcond : ∀ cond, Tidy {s1 with cond := cond} := fun cond => hempty.apart rfl rfl rfl rfl rfl rfl rfl
  have hdown : (Frame.semaDown (.waiter s.current)).proper s.current := by
    intro l w
    exact ⟨by simp, fun hw => (SemaId.waiter.inj hw).symm⟩
  exact (((hcond _).push hi rfl).pushOwned hi rfl hdown).push hi rfl

theorem condSignal_tidy (h : Tidy s) (hi : s.current ≠ s.idleThread) (c : Nat) (torn : Bool) (choice : Nat) :
    Gives (condSignal c torn choice s) Tidy (· ≠ .notBlocked) := by
  apply gives_condSignal tame
  · intro _
    exact h.pop hi
  · intro w _ _
    have hcond : Tidy {s with cond := Function.update s.cond c ((s.cond c).erase w)} :=
      h.apart rfl rfl rfl rfl rfl rfl rfl
    have hup : (Frame.semaUp (.waiter w)).proper s.current := fun l => by simp
    exact (hcond.pop hi).pushOwned hi rfl hup

theorem condBroadcast_tidy (h : Tidy s) (hi : s.current ≠ s.idleThread) (c : Nat) :
    Gives (condBroadcast c s) Tidy (· ≠ .notBlocked) :=
  gives_condBroadcast tame (fun _ => h.pop hi) fun _ _ => h.push hi rfl

/-! ### The timer -/

theorem timerSleep_tidy (h : Tidy s) (hi : s.current ≠ s.idleThread) (n : Int) : Tidy (timerSleep n s) := by
  have htarget : Tidy ((s.mapThread s.current fun x => {x with targetTicks := n + s.ticks}).record
      (.sleep s.current s.ticks n)) := by
    refine h.same ⟨rfl, rfl, rfl, rfl, fun _ => rfl, ?_, ?_⟩ rfl ?_ ?_
    all_goals simp +contextual [State.mapThread, State.record]
  exact htarget.push hi rfl

/-- Going to sleep, the frame of `thread_push_block` on top of the stack. -/
theorem Tidy.sleep (h : Tidy s) {on : Bool} {fs : List Frame} (hf : s.frames = .sleeping on :: fs)
    {less : Tid → Tid → Bool} :
    Tidy (threadBlock {s with sleepThreadsList := listInsertOrdered less s.current s.sleepThreadsList}) := by
  have hout := h.loose
  have hperm : (listInsertOrdered less s.current s.sleepThreadsList).Perm (s.current :: s.sleepThreadsList) :=
    perm_listInsertOrdered _ _
  refine h.block h.waitersNodup ?_ ?_ ?_
  · intro k x
    rw [topFrame_iff hf]
    by_cases hx : x = s.current
    · simp [hx, hout.1 k, Frame.waitsOn]
    · simp [hx]
  · exact hperm.nodup_iff.mpr (List.nodup_cons.mpr ⟨hout.2.1, h.sleepNodup⟩)
  · intro x
    rw [topFrame_iff hf, mem_listInsertOrdered]
    by_cases hx : x = s.current <;> simp [hx, Frame.isSleeping]

theorem threadPushBlock_tidy (h : Tidy s) (hi : s.current ≠ s.idleThread) : Tidy (threadPushBlock s) :=
  ((h.push hi rfl).setIntr false).sleep (frames_push s _)

/-- The first sleeper wakes. -/
theorem Tidy.popOne (h : Tidy s) {rest : List Tid} (hs : s.sleepThreadsList = t :: rest) :
    Tidy (({s with readyList := s.readyList ++ [t], sleepThreadsList := rest}.setStatus t .ready).record (.wake t)) := by
  have ht : t ∈ s.sleepThreadsList := by simp [hs]
  obtain ⟨hl, hb, -⟩ := (h.sleepers t).mp ht
  obtain ⟨hwait, hfree⟩ := h.toQueues.sleeper_elsewhere ht
  have hi : t ≠ s.idleThread := fun e => h.toQueues.loose_idle.2.1 (e ▸ ht)
  have hn : (t :: rest).Nodup := hs ▸ h.sleepNodup
  have hwake : Tidy (State.setStatus {s with
      readyList := s.readyList ++ [t]
      sleepThreadsList := rest
      trace := .wake t :: s.trace} t .ready) := by
    refine h.wake hl hb hi hfree h.waitersNodup ?_ (List.nodup_cons.mp hn).2 ?_
    · grind
    · grind
  exact hwake

theorem Tidy.popped {ts sleep : List Tid} (h : Tidy s) (hs : s.sleepThreadsList = ts ++ sleep) :
    Tidy (popped ts sleep s) := by
  induction ts generalizing s with
  | nil =>
    rw [List.nil_append] at hs
    rw [popped_nil hs]
    exact h
  | cons t ts ih =>
    rw [← popped_cons s (ts ++ sleep)]
    exact ih (h.popOne hs) rfl

theorem drop_dueOf (s : State) (list : List Tid) : list = dueOf s list ++ list.drop (dueOf s list).length :=
  (List.prefix_iff_eq_append.mp (List.takeWhile_prefix _)).symm

theorem Tidy.awoken (h : Tidy s) : Tidy (awoken s) := h.popped (drop_dueOf s _)

/-! ### Interrupts -/

theorem births_tear (f : Frame) : f.tear.births = f.births := by
  cases f <;> rfl

theorem tear_of_isIdle {f : Frame} (h : f.isIdle = true) : f.tear = f := by
  cases f <;> first | rfl | cases h

theorem births_modifyHead (fs : List Frame) :
    (fs.modifyHead Frame.tear).filterMap Frame.births = fs.filterMap Frame.births := by
  cases fs with
  | nil => rfl
  | cons f fs => simp [List.filterMap_cons, births_tear]

theorem IdleFrames.isIdle {fs : List Frame} (h : IdleFrames fs) : ∃ f gs, fs = f :: gs ∧ f.isIdle = true := by
  obtain ⟨gs, f, rfl, hgs, hf⟩ := h
  cases gs with
  | nil =>
    refine ⟨f, [], rfl, ?_⟩
    rcases hf with rfl | rfl <;> rfl
  | cons g gs =>
    refine ⟨g, gs ++ [f], rfl, ?_⟩
    simp only [List.all_cons, Bool.and_eq_true] at hgs
    cases g with
    | setLevel on => rfl
    | _ => cases hgs.1

theorem IdleFrames.preempted {fs : List Frame} (h : IdleFrames fs) (on : Bool) :
    IdleFrames (.setLevel on :: fs.modifyHead Frame.tear) := by
  obtain ⟨f, gs, hfs, hf⟩ := h.isIdle
  have htear : fs.modifyHead Frame.tear = fs := by
    rw [hfs]
    simp [tear_of_isIdle hf]
  rw [htear]
  obtain ⟨gs, g, rfl, hgs, hg⟩ := h
  refine ⟨.setLevel on :: gs, g, rfl, ?_, hg⟩
  simpa [Frame.isSetLevel] using hgs

theorem proper_tear {f : Frame} (h : f.proper t) : f.tear.proper t := by
  cases f <;> exact h

theorem Owned.preempted {fs : List Frame} (h : Owned t fs) (on : Bool) :
    Owned t (.setLevel on :: fs.modifyHead Frame.tear) := by
  intro f hf
  rcases List.mem_cons.mp hf with rfl | hf
  · trivial
  cases fs with
  | nil => cases hf
  | cons g fs =>
    rcases List.mem_cons.mp hf with rfl | hf
    · exact proper_tear (h g List.mem_cons_self)
    · exact h f (List.mem_cons_of_mem _ hf)

theorem preempt_tidy (h : Tidy s) : Tidy (preempt s) := by
  apply yieldNow_tidy
  apply Tidy.setIntr
  have hframes : (s.setFrames (s.frames.modifyHead Frame.tear)).push (.setLevel true) =
      s.setFrames (.setLevel true :: s.frames.modifyHead Frame.tear) := by
    simp [State.push, State.setFrames, State.mapThread, State.frames]
  rw [hframes]
  apply h.reframe
  · intro hi
    rw [State.frames, hi]
    exact h.idleFrames.preempted true
  · rw [List.filterMap_cons, births_modifyHead]
    exact List.Sublist.refl _
  · exact h.owned_frames.preempted true

theorem Tidy.ticked (h : Tidy s) : Tidy (ticked s) := h.apart rfl rfl rfl rfl rfl rfl rfl

theorem Tidy.timerInterrupt (h : Tidy s) :
    timerInterrupt s =
      .ok (if timeSlice ≤ s.threadTicks + 1 then preempt (Threads.awoken (Threads.ticked s))
        else Threads.awoken (Threads.ticked s)) :=
  timerInterrupt_eq h.sleepNodup fun t ht => ((h.sleepers t).mp ht).2.1

theorem timerInterrupt_tidy (h : Tidy s) : Gives (timerInterrupt s) Tidy (· ≠ .notBlocked) := by
  rw [h.timerInterrupt, gives_ok]
  split
  · exact preempt_tidy h.ticked.awoken
  · exact h.ticked.awoken

theorem deviceInterrupt_tidy (h : Tidy s) (n : Nat) : Gives (deviceInterrupt n s) Tidy (· ≠ .notBlocked) := by
  unfold deviceInterrupt
  simp only [h.semaUpValue, gives_bind, gives_ok, gives_pure]
  split
  · exact preempt_tidy (h.upped _)
  · exact h.upped _

/-! ### Creation and exit -/

/-- A page that is not in use becomes a blocked thread, in no list. -/
theorem Tidy.newThread (h : Tidy s) (ht : t ∉ s.allList) (p : Int) : Tidy (newThread t p s) := by
  have hother : ∀ x ∈ s.allList, (Threads.newThread t p s).thread x = s.thread x := by
    intro x hx
    have hxt : x ≠ t := fun e => ht (e ▸ hx)
    simp [Threads.newThread, hxt]
  have hnew : (Threads.newThread t p s).thread t = ⟨.blocked, p, p, none, 0, [.kernelThread]⟩ := by
    simp [Threads.newThread]
  have hall : ∀ x, x ∈ (Threads.newThread t p s).allList ↔ x ∈ s.allList ∨ x = t := by
    intro x
    simp [Threads.newThread]
  have hbirths : ∀ u ∈ s.allList, births (Threads.newThread t p s) u = births s u := by
    intro u hu
    simp only [births, hother u hu]
  have hnone : births (Threads.newThread t p s) t = [] := by
    simp [births, hnew, Frame.births]
  have hblocked : ∀ x q, q .kernelThread = False →
      (BlockedAt (Threads.newThread t p s) x q ↔ BlockedAt s x q) := by
    intro x q hq
    by_cases hx : x ∈ s.allList
    · rw [BlockedAt, BlockedAt, hother x hx, hall]
      simp [hx]
    · constructor
      · intro hb
        rcases (hall x).mp hb.1 with hm | rfl
        · exact absurd hm hx
        · obtain ⟨-, -, f, hf, hqf⟩ := hb
          grind
      · exact fun hb => absurd hb.1 hx
  refine ⟨⟨?_, h.readyNodup, ?_, h.waitersNodup, ?_, h.sleepNodup, ?_, (hall _).mpr (.inl h.idle), ?_, ?_, ?_, ?_,
    ?_⟩, (hall _).mpr (.inl h.live), ?_⟩
  · exact List.nodup_append'.mpr ⟨h.nodup, List.nodup_singleton t, by simpa using ht⟩
  · intro x
    show x ∈ s.readyList ↔ _ ∧ _ ∧ x ≠ s.idleThread
    rw [h.ready, hall]
    grind
  · intro k x
    rw [hblocked x _ (by simp [Frame.waitsOn])]
    exact h.waiters k x
  · intro x
    rw [hblocked x _ (by simp [Frame.isSleeping])]
    exact h.sleepers x
  · show IdleFrames ((Threads.newThread t p s).thread s.idleThread).frames
    rw [hother _ h.idle]
    exact h.idleFrames
  · intro u hu
    rcases (hall u).mp hu with hu | rfl
    · rw [hbirths u hu]
      exact h.birthsNodup u hu
    · rw [hnone]
      exact List.nodup_nil
  · intro u hu x hx
    rcases (hall u).mp hu with hu | rfl
    · rw [hbirths u hu] at hx
      have hb := h.birth u hu x hx
      grind
    · simp [hnone] at hx
  · intro u hu v hv x hx hx'
    rcases (hall u).mp hu with hu | rfl
    · rcases (hall v).mp hv with hv | rfl
      · rw [hbirths u hu] at hx
        rw [hbirths v hv] at hx'
        exact h.oneParent u hu v hv x hx hx'
      · simp [hnone] at hx'
    · simp [hnone] at hx
  · intro x hx
    rcases (hall x).mp hx with hx | rfl
    · rw [hother x hx]
      exact h.owned x hx
    · rw [hnew]
      intro f hf
      rw [List.mem_singleton.mp hf]
      trivial
  · intro x hx
    show _ ↔ x = s.current
    rcases (hall x).mp hx with hx | rfl
    · rw [hother x hx]
      exact h.running x hx
    · simp only [hnew]
      exact ⟨fun hr => absurd hr (by decide), fun e => absurd (e ▸ h.live) ht⟩

/-- The running thread takes on a thread to unblock. -/
theorem Tidy.pushBirth (h : Tidy s) (hi : s.current ≠ s.idleThread) (hl : t ∈ s.allList)
    (hb : (s.thread t).status = .blocked) (hf : (s.thread t).frames = [.kernelThread])
    (hfree : ∀ u ∈ s.allList, t ∉ births s u) : Tidy (s.push (.unblock t)) := by
  have hrun := (h.running _ h.live).mpr rfl
  have htc : t ≠ s.current := by
    intro e
    rw [e, hrun] at hb
    cases hb
  have hother : ∀ x, x ≠ s.current → (s.push (.unblock t)).thread x = s.thread x := by
    intro x hx
    simp [State.push, State.setFrames, State.mapThread, hx]
  have hcur : births (s.push (.unblock t)) s.current = t :: births s s.current := by
    unfold State.push
    rw [births_setFrames]
    rfl
  have hbirths : ∀ u, u ≠ s.current → births (s.push (.unblock t)) u = births s u := by
    intro u hu
    simp only [births, hother u hu]
  have hstatus : ∀ x, ((s.push (.unblock t)).thread x).status = (s.thread x).status := by
    intro x
    by_cases hx : x = s.current
    · subst hx
      simp [State.push, State.setFrames, State.mapThread]
    · rw [hother x hx]
  have hblocked : ∀ x q, BlockedAt (s.push (.unblock t)) x q ↔ BlockedAt s x q :=
    fun x q => (alike_setFrames _).blockedAt hrun ((hstatus _).trans hrun)
  refine ⟨⟨h.nodup, h.readyNodup, ?_, h.waitersNodup, fun k x => (h.waiters k x).trans (hblocked x _).symm,
    h.sleepNodup, fun x => (h.sleepers x).trans (hblocked x _).symm, h.idle, ?_, ?_, ?_, ?_, ?_⟩, h.live, ?_⟩
  · intro x
    rw [hstatus]
    exact h.ready x
  · show IdleFrames ((s.push (.unblock t)).thread s.idleThread).frames
    rw [hother _ (Ne.symm hi)]
    exact h.idleFrames
  · intro u hu
    by_cases huc : u = s.current
    · rw [huc, hcur]
      exact List.nodup_cons.mpr ⟨hfree _ h.live, h.birthsNodup _ h.live⟩
    · rw [hbirths u huc]
      exact h.birthsNodup u hu
  · intro u hu x hx
    have hx : x = t ∨ x ∈ births s u := by
      grind
    rcases hx with rfl | hx
    · rw [hother x htc]
      exact ⟨hl, hb, hf⟩
    · obtain ⟨hxl, hxb, hxf⟩ := h.birth u hu x hx
      have hxc : x ≠ s.current := by
        grind
      rw [hother x hxc]
      exact ⟨hxl, hxb, hxf⟩
  · have horigin : ∀ u ∈ s.allList, ∀ x ∈ births (s.push (.unblock t)) u,
        if x = t then u = s.current else x ∈ births s u := by
      intro u hu x hx
      by_cases huc : u = s.current
      · grind
      · grind
    intro u hu v hv x hx hx'
    have hu' := horigin u hu x hx
    have hv' := horigin v hv x hx'
    split at hu'
    · grind
    · rename_i hxt
      rw [if_neg hxt] at hv'
      exact h.oneParent u hu v hv x hu' hv'
  · intro x hx
    by_cases hxc : x = s.current
    · subst hxc
      have hf : ((s.push (.unblock t)).thread s.current).frames = .unblock t :: s.frames := frames_push s _
      rw [hf]
      intro f hf
      rcases List.mem_cons.mp hf with rfl | hf
      · trivial
      · exact h.owned_frames f hf
    · rw [hother x hxc]
      exact h.owned x hx
  · intro x hx
    rw [hstatus]
    exact h.running x hx

theorem births_push {f : Frame} (hf : f.births = none) (u : Tid) : births (s.push f) u = births s u := by
  by_cases hu : u = s.current
  · subst hu
    unfold State.push
    rw [births_setFrames, List.filterMap_cons, hf]
    rfl
  · simp [births, State.push, State.setFrames, State.mapThread, hu]

theorem thread_push {f : Frame} (ht : t ≠ s.current) : (s.push f).thread t = s.thread t := by
  simp [State.push, State.setFrames, State.mapThread, ht]

theorem Tidy.births_newThread (h : Tidy s) (ht : t ∉ s.allList) (p : Int) :
    ∀ u ∈ (Threads.newThread t p s).allList, t ∉ births (Threads.newThread t p s) u := by
  intro u hu hm
  by_cases hut : u = t
  · subst hut
    simp [births, Threads.newThread, Frame.births] at hm
  · have hu : u ∈ s.allList ++ [t] := hu
    have hus : u ∈ s.allList := by simpa [hut] using hu
    have hm : t ∈ births s u := by simpa [births, Threads.newThread, hut] using hm
    exact ht (h.birth u hus t hm).1

theorem createThread_tidy (h : Tidy s) (hi : s.current ≠ s.idleThread) (p : Int) (t : Tid) :
    Gives (createThread p t s) Tidy (· ≠ .notBlocked) := by
  apply gives_createThread tame
  · intro _
    exact h
  · intro ht _ _
    have htc : t ≠ (newThread t p s).current := by
      intro e
      exact ht (by rw [e]; exact h.live)
    have hyield : Tidy ((newThread t p s).push (.yieldIf false)) := (h.newThread ht p).push hi rfl
    have hthread : ((newThread t p s).push (.yieldIf false)).thread t = ⟨.blocked, p, p, none, 0, [.kernelThread]⟩ := by
      rw [thread_push htc]
      simp [newThread]
    have hborn : Tidy (((newThread t p s).push (.yieldIf false)).push (.unblock t)) := by
      apply hyield.pushBirth hi
      · exact List.mem_append_right _ (List.mem_singleton_self t)
      · rw [hthread]
      · rw [hthread]
      · intro u hu
        rw [births_push rfl]
        exact h.births_newThread ht p u hu
    exact (hborn.push hi rfl).push hi rfl

/-- The creator unblocks the thread it has created. -/
theorem unblock_tidy (h : Tidy s) {fs : List Frame} (hf : s.frames = .unblock t :: fs) :
    Gives (threadUnblock t s.pop) Tidy (· ≠ .notBlocked) := by
  have hi := h.not_idle hf rfl
  have hf' : (s.thread s.current).frames = .unblock t :: fs := hf
  have hcons : births s s.current = t :: fs.filterMap Frame.births := by
    simp [births, hf', Frame.births]
  have ht : t ∈ births s s.current := by simp [hcons]
  obtain ⟨hl, hb, hk⟩ := h.birth _ h.live t ht
  have htc : t ≠ s.current := by
    grind
  have hthread : s.pop.thread t = s.thread t := by
    simp [State.pop, State.setFrames, State.mapThread, htc]
  have hbirths : ∀ u, t ∈ births s.pop u → u ≠ s.current ∧ t ∈ births s u := by
    intro u hm
    by_cases huc : u = s.current
    · exfalso
      rw [State.pop, huc, births_setFrames, hf] at hm
      have hnd := h.birthsNodup _ h.live
      grind
    · have : t ∈ births s u := by simpa [births, State.pop, State.setFrames, State.mapThread, huc] using hm
      exact ⟨huc, this⟩
  have hfree : ∀ u ∈ s.allList, t ∉ births s.pop u := by
    intro u hu hm
    obtain ⟨huc, hm⟩ := hbirths u hm
    exact huc (h.oneParent u hu _ h.live t hm ht)
  have hti : t ≠ s.idleThread := fun e => h.toQueues.loose_idle.2.2 _ h.live (e ▸ ht)
  have hb' : (s.pop.thread t).status = .blocked := by rw [hthread, hb]
  have hwait : ∀ k, t ∉ (s.sema k).waiters := fun k hm => (h.toQueues.waiter_elsewhere hm).2 _ h.live ht
  have hsleep : t ∉ s.sleepThreadsList := fun hm => (h.toQueues.sleeper_elsewhere hm).2 _ h.live ht
  rw [threadUnblock_ok hb']
  refine (h.pop hi).wake hl hb' hti hfree h.waitersNodup ?_ h.sleepNodup ?_
  · intro k x
    exact ⟨fun hx => ⟨fun e => hwait k (e ▸ hx), hx⟩, fun hx => hx.2⟩
  · intro x
    exact ⟨fun hx => ⟨fun e => hsleep (e ▸ hx), hx⟩, fun hx => hx.2⟩

theorem threadExit_tidy (h : Tidy s) (hf : s.frames = []) : Tidy (threadExit s) := by
  have hi := h.not_idle_of_nil hf
  have hout := h.loose
  have hleave : Queues (s.setStatus s.current .dying) := by
    apply h.toQueues.restatus_loose h.live hout (by decide) h.readyNodup
    intro x
    by_cases hx : x = s.current
    · simp [hx, h.current_notMem]
    · simp [hx]
  have hmem : ∀ x, x ∈ s.allList.erase s.current ↔ x ≠ s.current ∧ x ∈ s.allList := fun x => h.nodup.mem_erase_iff
  have hblocked : ∀ x q, BlockedAt ({s.setIntr false with allList := s.allList.erase s.current}.setStatus s.current .dying) x q ↔
      BlockedAt (s.setStatus s.current .dying) x q := by
    intro x q
    show x ∈ s.allList.erase s.current ∧ _ ↔ x ∈ s.allList ∧ _
    rw [hmem]
    by_cases hx : x = s.current
    · simp [hx, State.setStatus, State.mapThread, State.setIntr]
    · simp [hx, State.setStatus, State.mapThread, State.setIntr]
  apply schedule_tidy
  refine ⟨⟨h.nodup.erase _, h.readyNodup, ?_, h.waitersNodup, fun k x => (hleave.waiters k x).trans (hblocked x _).symm,
    h.sleepNodup, fun x => (hleave.sleepers x).trans (hblocked x _).symm, (hmem _).mpr ⟨Ne.symm hi, h.idle⟩,
    hleave.idleFrames, ?_, ?_, ?_, ?_⟩, ?_⟩
  · intro x
    refine (hleave.ready x).trans ?_
    show _ ↔ x ∈ s.allList.erase s.current ∧ _
    rw [hmem]
    by_cases hx : x = s.current
    · simp [hx, State.setStatus, State.mapThread, State.setIntr]
    · simp [hx, State.setStatus, State.mapThread, State.setIntr]
  · intro u hu
    exact hleave.birthsNodup u ((hmem u).mp hu).2
  · intro u hu x hx
    obtain ⟨hxl, hxb⟩ := hleave.birth u ((hmem u).mp hu).2 x hx
    have hxc : x ≠ s.current := by
      intro e
      rw [e] at hxb
      simp [State.setStatus, State.mapThread] at hxb
    exact ⟨(hmem x).mpr ⟨hxc, hxl⟩, hxb⟩
  · intro u hu v hv x hx hx'
    exact hleave.oneParent u ((hmem u).mp hu).2 v ((hmem v).mp hv).2 x hx hx'
  · intro x hx
    exact hleave.owned x ((hmem x).mp hx).2
  · intro x hx
    obtain ⟨hxc, hxl⟩ := (hmem x).mp hx
    simp only [State.setStatus, State.mapThread, State.setIntr, Function.update_of_ne hxc]
    exact fun hr => hxc ((h.running x hxl).mp hr)

/-! ### The idle thread -/

theorem IdleFrames.tail {f : Frame} {fs : List Frame} (h : IdleFrames (f :: fs)) (hf : f.isSetLevel = true) :
    IdleFrames fs := by
  obtain ⟨gs, g, he, hgs, hg⟩ := h
  cases gs with
  | nil =>
    cases he
    rcases hg with rfl | rfl <;> cases hf
  | cons g' gs =>
    cases he
    simp only [List.all_cons, Bool.and_eq_true] at hgs
    exact ⟨gs, g, rfl, hgs.2, hg⟩

/-- The idle thread moves on in its loop. -/
theorem Tidy.idleMove (h : Tidy s) {f g : Frame} {fs : List Frame} (hf : s.frames = f :: fs)
    (hnot : f.isSetLevel = false) (hg : g = .idleBlock ∨ g = .idleHalt) : Tidy (s.setFrames (g :: fs)) := by
  have hplain : g.births = none ∧ g.onSema = none := by rcases hg with rfl | rfl <;> exact ⟨rfl, rfl⟩
  apply h.reframe
  · intro hi
    have hidle : IdleFrames (f :: fs) := by
      rw [← hf, State.frames, hi]
      exact h.idleFrames
    have hnil : fs = [] := by
      obtain ⟨gs, g', he, hgs, -⟩ := hidle
      cases gs with
      | nil =>
        cases he
        rfl
      | cons g'' gs =>
        cases he
        simp [hnot] at hgs
    exact ⟨[], g, by rw [hnil, List.nil_append], rfl, hg⟩
  · grind
  · intro g' hg'
    rcases List.mem_cons.mp hg' with rfl | hg'
    · exact Frame.proper_of_onSema hplain.2 _
    · exact h.owned_frames g' (by rw [hf]; exact List.mem_cons_of_mem _ hg')

/-- `thread_block` of a thread that waits for nothing: the idle thread. -/
theorem Tidy.halt (h : Tidy s) {fs : List Frame} (hf : s.frames = .idleHalt :: fs) : Tidy (threadBlock s) := by
  have hout := h.loose
  refine h.block h.waitersNodup ?_ h.sleepNodup ?_
  · intro k x
    rw [topFrame_iff hf]
    by_cases hx : x = s.current
    · simp [hx, hout.1 k, Frame.waitsOn]
    · simp [hx]
  · intro x
    rw [topFrame_iff hf]
    by_cases hx : x = s.current
    · simp [hx, hout.2.1, Frame.isSleeping]
    · simp [hx]

/-! ### Steps and runs -/

theorem threadYield_tidy (h : Tidy s) (hi : s.current ≠ s.idleThread) : Tidy (threadYield s) :=
  yieldNow_tidy ((h.push hi rfl).setIntr false)

theorem yieldIf_tidy (h : Tidy s) (hi : s.current ≠ s.idleThread) (torn : Bool) (choice : Int) :
    Tidy (yieldIf torn choice s) :=
  yieldIf_cases (threadYield_tidy h hi) fun _ => h

theorem semaUp_tidy (h : Tidy s) (hi : s.current ≠ s.idleThread) (k : SemaId) :
    Gives (semaUp k s) Tidy (· ≠ .notBlocked) := by
  unfold semaUp
  simp only [h.semaUpValue, gives_bind, gives_ok, gives_pure]
  exact (h.upped k).push hi rfl

theorem setPriority_tidy (h : Tidy s) (p : Int) : Tidy (s.mapThread s.current fun x => {x with priority := p}) := by
  refine h.same ⟨rfl, rfl, rfl, rfl, fun _ => rfl, ?_, ?_⟩ rfl ?_ ?_
  all_goals simp +contextual [State.mapThread]

theorem startCall_tidy (h : Tidy s) (hf : s.frames = []) (choice : Int) (f : Call) :
    Gives (startCall choice s f) Tidy (· ≠ .notBlocked) := by
  have hi := h.not_idle_of_nil hf
  cases f with
  | threadCreate p => exact lockAcquire_tidy ((h.push hi rfl).push hi rfl) hi _ _
  | threadYield => exact threadYield_tidy h hi
  | threadExit => exact threadExit_tidy h hf
  | threadSetPriority p => exact ((setPriority_tidy h p).push hi rfl).push hi rfl
  | semaDown n => exact semaDown_tidy h hi (by simp [Frame.proper])
  | semaTryDown n =>
    show Tidy (semaTryDown _ _)
    unfold semaTryDown
    split
    · exact semaTake_tidy h
    · exact h
  | semaUp n => exact semaUp_tidy h hi _
  | lockAcquire n => exact lockAcquire_tidy h hi _ _
  | lockTryAcquire n => exact lockTryAcquire_tidy h hi _
  | lockRelease n => exact lockRelease_tidy h hi _ _
  | condWait c => exact condWait_tidy h hi c
  | condSignal c =>
    simp only [startCall]
    split
    · exact h.push hi rfl
    · simp
  | condBroadcast c => exact h.push hi rfl
  | timerSleep n => exact timerSleep_tidy h hi n

theorem setLevel_tidy (h : Tidy s) {on : Bool} {fs : List Frame} (hf : s.frames = .setLevel on :: fs) : Tidy s.pop := by
  apply h.reframe
  · intro hi
    have hidle : IdleFrames s.frames := by
      rw [State.frames, hi]
      exact h.idleFrames
    rw [hf] at hidle ⊢
    exact hidle.tail rfl
  · exact (List.tail_sublist _).filterMap _
  · exact fun f hf => h.owned_frames f (List.mem_of_mem_tail hf)

theorem pop_push (f : Frame) : s.pop.push f = s.setFrames (f :: s.frames.tail) := by
  simp [State.pop, State.push, State.setFrames, State.mapThread, State.frames]

theorem resume_tidy (h : Tidy s) {f : Frame} {fs : List Frame} (hf : s.frames = f :: fs) (choice : Int) :
    Gives (resume choice s f) Tidy (· ≠ .notBlocked) := by
  cases f with
  | setLevel on => exact (setLevel_tidy h hf).setIntr on
  | idleBlock =>
    show Tidy (threadBlock _)
    rw [pop_push, hf]
    have hmove := (h.idleMove (g := .idleHalt) hf rfl (.inr rfl)).setIntr false
    have hframes : ((s.setFrames (.idleHalt :: fs)).setIntr false).frames = .idleHalt :: fs := by
      simp [State.setFrames, State.mapThread, State.setIntr, State.frames]
    exact hmove.halt hframes
  | idleHalt =>
    show Tidy _
    rw [pop_push, hf]
    exact (h.idleMove hf rfl (.inl rfl)).setIntr true
  | kernelThread =>
    have hi := h.not_idle hf rfl
    exact (h.pop hi).setIntr true
  | down k on => exact downLoop_tidy h hf
  | acquire l on => exact acquireLoop_tidy h hf
  | unlink l on =>
    have hi := h.not_idle hf rfl
    exact lockUnlink_tidy (h.pop hi) hi _ _ _
  | setHolder l =>
    have hi := h.not_idle hf rfl
    exact (h.pop hi).apart rfl rfl rfl rfl rfl rfl rfl
  | yieldIf torn =>
    have hi := h.not_idle hf rfl
    exact yieldIf_tidy (h.pop hi) hi torn choice
  | calculate torn =>
    have hi := h.not_idle hf rfl
    exact gives_calculate tame (fun _ => (h.pop hi).setEff _ _) fun p _ _ => (h.pop hi).setEff _ p
  | pushBlock =>
    have hi := h.not_idle hf rfl
    exact threadPushBlock_tidy (h.pop hi) hi
  | sleeping on =>
    have hi := h.not_idle hf rfl
    exact (h.pop hi).setIntr on
  | initThread p =>
    have hi := h.not_idle hf rfl
    exact createThread_tidy (h.pop hi) hi p _
  | unblock t => exact unblock_tidy h hf
  | signal c torn => exact condSignal_tidy h (h.not_idle hf rfl) c torn _
  | broadcast c => exact condBroadcast_tidy h (h.not_idle hf rfl) c
  | semaDown k =>
    have hi := h.not_idle hf rfl
    exact semaDown_tidy (h.pop hi) hi (h.owned_frames (.semaDown k) (by simp [hf]))
  | semaUp k =>
    have hi := h.not_idle hf rfl
    exact semaUp_tidy (h.pop hi) hi k
  | lockAcquire l =>
    have hi := h.not_idle hf rfl
    exact lockAcquire_tidy (h.pop hi) hi l _
  | lockRelease l =>
    have hi := h.not_idle hf rfl
    exact lockRelease_tidy (h.pop hi) hi l _

theorem step_tidy (h : Tidy s) {a : Act} (ha : a.Enabled s) : Gives (a.step s) Tidy (· ≠ .notBlocked) :=
  gives_step ha (fun f choice _ _ hf => startCall_tidy h hf choice f) (fun choice _ _ _ hf => resume_tidy h hf choice)
    (fun _ _ => timerInterrupt_tidy h) fun n _ _ => deviceInterrupt_tidy h n

theorem booted_tidy (h : Booted s) : Tidy s := by
  obtain ⟨values, condLock, rfl⟩ := h
  have hwaiters : ∀ k, ((booted values condLock).sema k).waiters = [] := by
    intro k
    cases k <;> rfl
  have hall : ∀ t, t ∈ (booted values condLock).allList ↔ t = 0 ∨ t = 1 := by
    intro t
    simp [booted]
  have hbirths : ∀ u ∈ (booted values condLock).allList, births (booted values condLock) u = [] := by
    intro u hu
    rcases (hall u).mp hu with rfl | rfl <;> rfl
  have hblocked : ∀ x q, ¬ BlockedAt (booted values condLock) x q := by
    intro x q hb
    obtain ⟨hl, hst, -⟩ := hb
    rcases (hall x).mp hl with rfl | rfl <;> cases hst
  refine ⟨⟨by simp [booted], List.nodup_nil, ?_, ?_, ?_, List.nodup_nil, ?_, by simp [booted],
    ⟨[.setLevel true], .idleBlock, rfl, rfl, .inl rfl⟩, ?_, ?_, ?_, ?_⟩, by simp [booted], ?_⟩
  · intro t
    show t ∈ [] ↔ _
    rw [hall]
    constructor
    · simp
    · rintro ⟨rfl | rfl, hr, hidle⟩
      · cases hr
      · exact absurd rfl hidle
  · grind
  · intro k t
    rw [hwaiters]
    simpa using hblocked t fun f => f.waitsOn = some k
  · intro t
    show t ∈ [] ↔ _
    simpa using hblocked t fun f => f.isSleeping = true
  · grind
  · grind
  · grind
  · intro t ht f hf
    rcases (hall t).mp ht with rfl | rfl
    · cases hf
    · have hf : f = .setLevel true ∨ f = .idleBlock := by simpa [booted] using hf
      rcases hf with rfl | rfl <;> trivial
  · intro t ht
    rcases (hall t).mp ht with rfl | rfl
    · exact ⟨fun _ => rfl, fun _ => rfl⟩
    · constructor
      · intro hr
        cases hr
      · intro he
        cases he

/-! ### The lists in every run -/

/-- The lists as the rest of the kernel sees them. -/
structure Consistent (s : State) : Prop where
  oneRunning : ∃! t, t ∈ s.allList ∧ (s.thread t).status = .running
  readyOnce : s.readyList.Nodup
  readyExactly : ∀ t, t ∈ s.readyList ↔ t ∈ s.allList ∧ (s.thread t).status = .ready ∧ t ≠ s.idleThread
  waitersBlocked : ∀ k, ∀ t ∈ (s.sema k).waiters, t ∈ s.allList ∧ (s.thread t).status = .blocked
  sleepersBlocked : ∀ t ∈ s.sleepThreadsList, t ∈ s.allList ∧ (s.thread t).status = .blocked
  waitersOnce : ∀ k, (s.sema k).waiters.Nodup
  oneElem : ∀ k, ∀ t ∈ (s.sema k).waiters, t ∉ s.readyList ∧ ∀ k', t ∈ (s.sema k').waiters → k' = k

theorem Tidy.consistent (h : Tidy s) : Consistent s where
  oneRunning := by
    refine ⟨s.current, ⟨h.live, (h.running _ h.live).mpr rfl⟩, ?_⟩
    intro t ht
    exact (h.running t ht.1).mp ht.2
  readyOnce := h.readyNodup
  readyExactly := h.ready
  waitersBlocked := fun k t ht => ⟨((h.waiters k t).mp ht).1, ((h.waiters k t).mp ht).2.1⟩
  sleepersBlocked := fun t ht => ⟨((h.sleepers t).mp ht).1, ((h.sleepers t).mp ht).2.1⟩
  waitersOnce := h.waitersNodup
  oneElem := by
    intro k t ht
    refine ⟨?_, fun k' ht' => h.toQueues.waiters_inj ht' ht⟩
    intro hr
    have hb := ((h.waiters k t).mp ht).2.1
    rw [((h.ready t).mp hr).2.1] at hb
    cases hb

end

theorem Reachable.tidy {s : State} (hr : Reachable s) : Tidy s :=
  hr.invariant (fun _ => booted_tidy) fun _ _ hs ha _ => (step_tidy hs ha).mono (fun _ => id) fun _ _ => trivial

/-- In every state reached the lists are consistent, and no act unblocks a thread that is not
blocked. -/
theorem lists_consistent {s : State} (hr : Reachable s) :
    Consistent s ∧ ∀ a : Act, a.Enabled s → a.step s ≠ .error .notBlocked := by
  refine ⟨hr.tidy.consistent, ?_⟩
  intro a ha he
  have hs := step_tidy hr.tidy ha
  rw [he] at hs
  exact hs rfl

/-- The main thread has slept and is ready again, one thread waits on a semaphore and another
runs. -/
theorem lists_consistent_after_sleep :
    ∃ s, Reachable s ∧ (s.current = 3 ∧ s.readyList = [0] ∧ (s.sema (.user 0)).waiters = [2]) ∧ Consistent s ∧
      ∀ a : Act, a.Enabled s → a.step s ≠ .error .notBlocked := by
  obtain ⟨s, hr, hp⟩ := reachable_of_after (fun _ _ => True)
    (creation 31 2 ++ creation 31 3 ++
      [.call (.timerSleep 2) 2, .go 2, .go 2, .call (.semaDown 0) 2, .go 2, .tick, .tick])
    (fun s => s.current = 3 ∧ s.readyList = [0] ∧ (s.sema (.user 0)).waiters = [2]) (by decide +kernel)
  exact ⟨s, hr, hp, lists_consistent hr⟩

end Pintos.Threads
