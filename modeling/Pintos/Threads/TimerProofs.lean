import Pintos.Threads.Moves
import Pintos.Threads.QueueProofs

/-! Sleeping threads wake on time (`devices/timer.c`).

`sleep_threads_list` is sorted by `target_ticks`, and a thread on its way to sleep or asleep
has the target it asked for: the tick it read plus the ticks it sleeps (`Alarm`). So the
handler, which stops at the first thread that is not due, wakes all that are due. No other act
touches a sleeper: `Still` says what they leave alone. -/
namespace Pintos.Threads
open Kernel Outcome

/-- The frames of a thread in `timer_sleep`. -/
def Frame.dozes : Frame → Bool
  | .pushBlock => true
  | .sleeping _ => true
  | _ => false

def Event.onTimer : Event → Bool
  | .tick => true
  | .wake _ => true
  | .sleep _ _ _ => true
  | _ => false

/-- The history of the timer. -/
def timerLog (s : State) : List Event := s.trace.filter Event.onTimer

/-- The tick a thread read when it last called `timer_sleep`, and for how long. -/
def lastSleep (t : Tid) : List Event → Option (Int × Int)
  | [] => none
  | .sleep u start n :: log => if u = t then some (start, n) else lastSleep t log
  | _ :: log => lastSleep t log

def ticksIn (log : List Event) : Int := log.count .tick

/-- How often the handler has woken a thread. -/
def wakes (t : Tid) (s : State) : Nat := (timerLog s).count (.wake t)

/-- The target of a thread is what it last asked for. -/
def Asked (s : State) (t : Tid) : Prop :=
  ∃ start n, lastSleep t (timerLog s) = some (start, n) ∧ (s.thread t).targetTicks = start + n

structure Alarm (s : State) : Prop where
  sorted : s.sleepThreadsList.Pairwise fun a b => (s.thread a).targetTicks ≤ (s.thread b).targetTicks
  ticks : s.ticks = ticksIn (timerLog s)
  timed : ∀ t start n log, .sleep t start n :: log <:+ timerLog s → start = ticksIn log
  asked : ∀ t ∈ s.allList, (∃ f ∈ (s.thread t).frames, f.dozes = true) → Asked s t

/-- Nothing that has to do with sleeping has changed. -/
structure Still (s s' : State) : Prop where
  sleep : s'.sleepThreadsList = s.sleepThreadsList
  ticks : s'.ticks = s.ticks
  log : timerLog s' = timerLog s
  target : ∀ t ∈ s.allList, (s'.thread t).targetTicks = (s.thread t).targetTicks
  dozing : ∀ t ∈ s'.allList, ∀ f ∈ (s'.thread t).frames, f.dozes = true → t ∈ s.allList ∧ f ∈ (s.thread t).frames

section
variable {s s' s1 : State} {t : Tid} {f : Frame} {fs : List Frame} {on : Bool}

/-! ### Leaving sleepers alone -/

theorem Still.refl (s : State) : Still s s := ⟨rfl, rfl, rfl, fun _ _ => rfl, fun _ ht _ hf _ => ⟨ht, hf⟩⟩

theorem Still.moves (h : Still s s1) (hm : Moves fs on s1 s')
    (hfs : ∀ f ∈ fs, f.dozes = true → f ∈ s1.frames) : Still s s' := by
  refine ⟨hm.sleepThreadsList.trans h.sleep, hm.ticks.trans h.ticks, ?_, ?_, ?_⟩
  · rw [← h.log, timerLog, timerLog, hm.trace]
  · intro t ht
    rw [hm.targetTicks, h.target t ht]
  · intro t ht f hf hd
    rw [hm.allList] at ht
    apply h.dozing t ht f ?_ hd
    by_cases htc : t = s1.current
    · rw [htc, hm.frames_current] at hf
      rw [htc]
      exact hfs f hf hd
    · rwa [hm.frames_of_ne htc] at hf

/-- A change of what sleeping does not depend on. -/
theorem Still.same (h : Still s s1) (hsl : s'.sleepThreadsList = s1.sleepThreadsList) (hti : s'.ticks = s1.ticks)
    (hlog : timerLog s' = timerLog s1) (hal : s'.allList = s1.allList)
    (htarget : ∀ t, (s'.thread t).targetTicks = (s1.thread t).targetTicks)
    (hframes : ∀ t, (s'.thread t).frames = (s1.thread t).frames) : Still s s' := by
  refine ⟨hsl.trans h.sleep, hti.trans h.ticks, hlog.trans h.log, ?_, ?_⟩
  · intro t ht
    rw [htarget, h.target t ht]
  · intro t ht f hf hd
    rw [hal] at ht
    rw [hframes] at hf
    exact h.dozing t ht f hf hd

theorem Still.push (h : Still s s1) (hf : f.dozes = false) : Still s (s1.push f) := by
  apply h.moves (moves_push s1 f)
  grind

theorem Still.pop (h : Still s s1) : Still s s1.pop :=
  h.moves (moves_pop s1) fun _ hf _ => List.mem_of_mem_tail hf

theorem Still.setIntr (h : Still s s1) (on : Bool) : Still s (s1.setIntr on) :=
  h.same rfl rfl rfl rfl (fun _ => rfl) fun _ => rfl

theorem Still.yieldNow (h : Still s s1) : Still s (yieldNow s1) :=
  h.moves (moves_refl s1).yieldNow fun _ hf _ => hf

theorem Still.threadBlock (h : Still s s1) : Still s (threadBlock s1) :=
  h.moves (moves_refl s1).threadBlock fun _ hf _ => hf

theorem Still.threadYield (h : Still s s1) : Still s (threadYield s1) :=
  ((h.push rfl).setIntr false).yieldNow

theorem tear_of_dozes (hf : f.tear.dozes = true) : f.tear = f := by
  cases f <;> first | rfl | cases hf

theorem Still.preempt (h : Still s s1) : Still s (preempt s1) := by
  apply h.moves (moves_preempt s1)
  intro g hg hd
  rcases List.mem_cons.mp hg with rfl | hg
  · cases hd
  · cases hfs : s1.frames with
    | nil =>
      rw [hfs] at hg
      cases hg
    | cons f fs =>
      rw [hfs] at hg
      rcases List.mem_cons.mp hg with rfl | hg
      · rw [tear_of_dozes hd]
        exact List.mem_cons_self
      · exact List.mem_cons_of_mem _ hg

theorem Still.setEff (h : Still s s1) (u : Tid) (p : Int) : Still s (s1.setEff u p) := by
  refine h.same rfl rfl rfl rfl ?_ ?_ <;> intro t <;> by_cases ht : t = u <;>
    simp [State.setEff, State.mapThread, ht]

theorem Still.raised (h : Still s s1) (hr : Raised s1 s') : Still s s' := by
  obtain ⟨eff, rfl⟩ := hr
  exact h.same rfl rfl rfl rfl (fun _ => rfl) fun _ => rfl

theorem Still.waitFor (h : Still s s1) (l : Option LockId) :
    Still s (s1.mapThread s1.current fun x => {x with waitingLock := l}) := by
  refine h.same rfl rfl rfl rfl ?_ ?_ <;> intro t <;> by_cases ht : t = s1.current <;>
    simp [State.mapThread, ht]

theorem Still.setPriority (h : Still s s1) (p : Int) :
    Still s (s1.mapThread s1.current fun x => {x with priority := p}) := by
  refine h.same rfl rfl rfl rfl ?_ ?_ <;> intro t <;> by_cases ht : t = s1.current <;>
    simp [State.mapThread, ht]

theorem Still.setHolder (h : Still s s1) (l : LockId) (u : Option Tid) : Still s (s1.setHolder l u) :=
  h.same rfl rfl rfl rfl (fun _ => rfl) fun _ => rfl

theorem Still.links (h : Still s s1) (links : Intrusive.Links Node) : Still s {s1 with links := links} :=
  h.same rfl rfl rfl rfl (fun _ => rfl) fun _ => rfl

/-! ### Semaphores, locks and conditions -/

theorem Still.semaWait (h : Still s s1) (k : SemaId) : Still s (semaWait k s1) := by
  apply Still.threadBlock
  exact h.same rfl rfl rfl rfl (fun _ => rfl) fun _ => rfl

theorem Still.semaTake (h : Still s s1) (k : SemaId) : Still s (semaTake k s1) :=
  h.same rfl rfl rfl rfl (fun _ => rfl) fun _ => rfl

theorem Still.downLoop (h : Still s s1) (k : SemaId) (on : Bool) : Still s (downLoop k on s1) := by
  unfold Threads.downLoop
  split
  · exact h.semaWait k
  · exact ((h.semaTake k).pop).setIntr on

theorem Still.upped (h : Still s s1) (k : SemaId) : Still s (upped k s1) := by
  refine h.same rfl rfl rfl rfl ?_ ?_ <;> intro t <;> simp only [Threads.upped] <;> split <;> rfl

theorem Still.lockTake (h : Still s s1) (l : LockId) (on : Bool) :
    Gives (lockTake l on s1) (Still s) fun _ => True := by
  apply gives_lockTake fun _ _ => trivial
  intro links _
  exact ((h.waitFor none).setIntr on).same rfl rfl rfl rfl (fun _ => rfl) fun _ => rfl

theorem Still.acquireLoop (h : Still s s1) (l : LockId) (on : Bool) :
    Gives (acquireLoop l on s1) (Still s) fun _ => True :=
  gives_acquireLoop (fun _ => h.semaWait _) fun _ => (h.semaTake _).pop.lockTake l on

theorem Still.lockAcquire (h : Still s s1) (l : LockId) (n : Nat) :
    Gives (lockAcquire l n s1) (Still s) fun _ => True := by
  apply gives_lockAcquire fun _ _ => trivial
  intro _ s2
  apply (comparePriorityAndUpdate_raised _ _ _ _).mono
  · intro s3 hr _
    exact ((((h.setIntr false).waitFor (some l)).raised hr).push rfl).acquireLoop l _
  · exact fun _ _ => trivial

theorem Still.lockUnlink (h : Still s s1) (l : LockId) (on : Bool) (fuel : Nat) :
    Gives (lockUnlink l on fuel s1) (Still s) fun _ => True := by
  apply gives_lockUnlink fun _ _ => trivial
  intro links p _ _
  have hp := (h.links links).setEff s1.current p
  exact ⟨fun _ => (hp.push rfl).yieldNow, fun _ => hp.setIntr on⟩

theorem Still.lockRelease (h : Still s s1) (ht : Tidy s1) (l : LockId) (fuel : Nat) :
    Gives (lockRelease l fuel s1) (Still s) fun _ => True := by
  apply gives_lockRelease (fun _ _ => trivial) fun t hm => ((ht.waiters _ t).mp hm).2.1
  intro _
  have hup := ((h.setIntr false).setHolder l none).upped (.lock l)
  exact ⟨fun _ => (hup.push rfl).yieldNow, fun _ => hup.lockUnlink l _ fuel⟩

theorem Still.semaUp (h : Still s s1) (ht : Tidy s1) (k : SemaId) : Gives (semaUp k s1) (Still s) fun _ => True := by
  unfold Threads.semaUp
  simp only [ht.semaUpValue, gives_bind, gives_ok, gives_pure]
  exact (h.upped k).push rfl

theorem Still.newThread (h : Still s s1) (hlive : ∀ t ∈ s.allList, t ∈ s1.allList) (ht : t ∉ s1.allList) (p : Int) :
    Still s (newThread t p s1) := by
  refine ⟨h.sleep, h.ticks, h.log, ?_, ?_⟩
  · intro u hu
    have hut : u ≠ t := fun e => ht (e ▸ hlive u hu)
    simpa [Threads.newThread, hut] using h.target u hu
  · intro u hu f hf hd
    by_cases hut : u = t
    · subst hut
      simp only [Threads.newThread, Function.update_self, List.mem_singleton] at hf
      rw [hf] at hd
      cases hd
    · have hu : u ∈ s1.allList ++ [t] := hu
      have hus : u ∈ s1.allList := by simpa [hut] using hu
      exact h.dozing u hus f (by simpa [Threads.newThread, hut] using hf) hd

/-! ### Acts other than the timer's -/

/-- The sleepers sleep on. -/
structure Drowse (s s' : State) : Prop where
  alarm : Alarm s'
  asleep : ∀ t ∈ s.sleepThreadsList, t ∈ s'.sleepThreadsList ∧ (s'.thread t).targetTicks = (s.thread t).targetTicks
  wakes : ∀ t, wakes t s' = wakes t s
  ticks : s'.ticks = s.ticks

theorem Asked.congr (h : Asked s t) (hlog : lastSleep t (timerLog s') = lastSleep t (timerLog s))
    (htarget : (s'.thread t).targetTicks = (s.thread t).targetTicks) : Asked s' t := by
  obtain ⟨start, n, hlast, ht⟩ := h
  exact ⟨start, n, hlog.trans hlast, htarget.trans ht⟩

theorem Tidy.sleeper_live (h : Tidy s) (ht : t ∈ s.sleepThreadsList) : t ∈ s.allList := ((h.sleepers t).mp ht).1

theorem Still.drowse (h : Still s s') (ht : Tidy s) (ha : Alarm s) : Drowse s s' := by
  have htarget : ∀ t ∈ s.sleepThreadsList, (s'.thread t).targetTicks = (s.thread t).targetTicks :=
    fun t hm => h.target t (ht.sleeper_live hm)
  refine ⟨⟨?_, ?_, ?_, ?_⟩, ?_, ?_, h.ticks⟩
  · rw [h.sleep]
    refine ha.sorted.imp_of_mem ?_
    grind
  · rw [h.ticks, h.log]
    exact ha.ticks
  · rw [h.log]
    exact ha.timed
  · rintro t hl ⟨f, hf, hd⟩
    obtain ⟨hls, hfs⟩ := h.dozing t hl f hf hd
    exact (ha.asked t hls ⟨f, hfs, hd⟩).congr (by rw [h.log]) (h.target t hls)
  · intro t hm
    exact ⟨by rwa [h.sleep], htarget t hm⟩
  · intro t
    rw [Threads.wakes, h.log, Threads.wakes]

/-- `timer_sleep` up to its call of `thread_push_block`. -/
theorem timerSleep_drowse (ht : Tidy s) (ha : Alarm s) (n : Int) : Drowse s (timerSleep n s) := by
  have hlog : timerLog (timerSleep n s) = .sleep s.current s.ticks n :: timerLog s := rfl
  have hother : ∀ t, t ≠ s.current → (timerSleep n s).thread t = s.thread t := by
    intro t htc
    simp [timerSleep, State.push, State.setFrames, State.mapThread, State.record, htc]
  have hcur : ((timerSleep n s).thread s.current).targetTicks = n + s.ticks := by
    simp [timerSleep, State.push, State.setFrames, State.mapThread, State.record]
  have hne : ∀ t ∈ s.sleepThreadsList, t ≠ s.current := fun t hm e => ht.loose.2.1 (e ▸ hm)
  refine ⟨⟨?_, ?_, ?_, ?_⟩, ?_, ?_, rfl⟩
  · refine ha.sorted.imp_of_mem ?_
    grind
  · rw [hlog]
    exact ha.ticks
  · intro t start m log hsuf
    rw [hlog] at hsuf
    rcases List.suffix_cons_iff.mp hsuf with he | hsuf
    · cases he
      exact ha.ticks
    · exact ha.timed t start m log hsuf
  · intro t hl hd
    by_cases htc : t = s.current
    · refine ⟨s.ticks, n, ?_, ?_⟩
      · rw [hlog, htc]
        simp [lastSleep]
      · rw [htc, hcur, Int.add_comm]
    · rw [hother t htc] at hd
      refine (ha.asked t hl hd).congr ?_ (by rw [hother t htc])
      rw [hlog]
      simp [lastSleep, Ne.symm htc]
  · intro t hm
    exact ⟨hm, by rw [hother t (hne t hm)]⟩
  · intro t
    rw [wakes, hlog, wakes]
    simp

/-- `thread_push_block`, whose frame on top of the stack has been popped. -/
theorem threadPushBlock_drowse (ha : Alarm s) (hf : s.frames = .pushBlock :: fs) :
    Drowse s (threadPushBlock s.pop) := by
  have hkey := cmpTargetTicks_congr (moves_pop s).targetTicks
  have hlisted : listed s.pop = (listed s).pop := by
    unfold listed
    rw [hkey]
    rfl
  have hm := moves_threadPushBlock s.pop
  rw [hlisted] at hm
  replace hm := (moves_pop (listed s)).trans rfl hm
  have hsorted := sorted_listInsertOrdered (x := s.current) ha.sorted
  refine ⟨⟨?_, ?_, ?_, ?_⟩, ?_, ?_, hm.ticks⟩
  · rw [hm.sleepThreadsList]
    simp only [hm.targetTicks]
    exact hsorted
  · rw [hm.ticks, timerLog, hm.trace]
    exact ha.ticks
  · rw [timerLog, hm.trace]
    exact ha.timed
  · intro t hl hd
    rw [hm.allList] at hl
    have hd : ∃ f ∈ (s.thread t).frames, f.dozes = true := by
      by_cases htc : t = s.current
      · subst htc
        have hf : (s.thread s.current).frames = .pushBlock :: fs := hf
        exact ⟨.pushBlock, by simp [hf], rfl⟩
      · rwa [hm.frames_of_ne htc] at hd
    refine (ha.asked t hl hd).congr ?_ (hm.targetTicks t)
    rw [timerLog, hm.trace]
    rfl
  · intro t hs
    rw [hm.sleepThreadsList]
    exact ⟨mem_listInsertOrdered.mpr (.inr hs), hm.targetTicks t⟩
  · intro t
    rw [wakes, timerLog, hm.trace]
    rfl

/-! ### The timer interrupt -/

theorem lastSleep_wakes (t : Tid) (ts : List Tid) (log : List Event) :
    lastSleep t (ts.map .wake ++ log) = lastSleep t log := by
  induction ts with
  | nil => rfl
  | cons u ts ih => exact ih

theorem ticksIn_wakes (ts : List Tid) (log : List Event) : ticksIn (ts.map .wake ++ log) = ticksIn log := by
  induction ts with
  | nil => rfl
  | cons u ts ih =>
    rw [← ih]
    simp [ticksIn]

theorem suffix_wakes {start n : Int} {log log' : List Event} {ts : List Tid}
    (h : .sleep t start n :: log' <:+ ts.map .wake ++ log) : .sleep t start n :: log' <:+ log := by
  induction ts with
  | nil => exact h
  | cons u ts ih =>
    rcases List.suffix_cons_iff.mp h with he | h
    · cases he
    · exact ih h

theorem count_wakes (ts : List Tid) (hn : ts.Nodup) (log : List Event) (t : Tid) :
    (ts.map Event.wake ++ log).count (.wake t) = log.count (.wake t) + if t ∈ ts then 1 else 0 := by
  have hinj : Function.Injective Event.wake := fun a b h => Event.wake.inj h
  rw [List.count_append, List.count_map_of_injective ts Event.wake hinj t, Nat.add_comm]
  grind

/-- The timer's history after an interrupt. -/
theorem timerLog_awoken (s : State) :
    timerLog (awoken (ticked s)) =
      (dueOf (ticked s) s.sleepThreadsList).reverse.map .wake ++ .tick :: timerLog s := by
  have hall : ∀ ts : List Tid, ∀ log : List Event,
      (ts.map Event.wake ++ log).filter Event.onTimer = ts.map Event.wake ++ log.filter Event.onTimer := by
    intro ts log
    induction ts with
    | nil => rfl
    | cons u ts ih =>
      rw [List.map_cons, List.cons_append, List.filter_cons_of_pos rfl, ih]
      rfl
  have htrace : (awoken (ticked s)).trace =
      (dueOf (ticked s) s.sleepThreadsList).reverse.map .wake ++ .tick :: s.trace := by
    show ((dueOf (ticked s) s.sleepThreadsList).map Event.wake).reverse ++ .tick :: s.trace = _
    rw [List.map_reverse]
  rw [timerLog, htrace, hall]
  rfl

theorem mem_due (ha : Alarm s) : t ∈ dueOf (ticked s) s.sleepThreadsList ↔
    t ∈ s.sleepThreadsList ∧ (s.thread t).targetTicks ≤ s.ticks + 1 :=
  mem_takeWhile_of_sorted ha.sorted

theorem due_nodup (ht : Tidy s) : (dueOf (ticked s) s.sleepThreadsList).Nodup :=
  ht.sleepNodup.sublist (List.takeWhile_sublist _)

/-- The handler wakes the sleepers that are due and no others. -/
structure Rings (s s' : State) : Prop where
  alarm : Alarm s'
  ticks : s'.ticks = s.ticks + 1
  target : ∀ t, (s'.thread t).targetTicks = (s.thread t).targetTicks
  frames : ∀ t ∈ s.sleepThreadsList, (s'.thread t).frames = (s.thread t).frames
  asleep : ∀ t, t ∈ s'.sleepThreadsList ↔ t ∈ s.sleepThreadsList ∧ s'.ticks < (s.thread t).targetTicks
  wakes : ∀ t, wakes t s' =
    wakes t s + if t ∈ s.sleepThreadsList ∧ (s.thread t).targetTicks ≤ s'.ticks then 1 else 0

theorem awoken_rings (ht : Tidy s) (ha : Alarm s) : Rings s (awoken (ticked s)) := by
  have htarget : ∀ t, ((awoken (ticked s)).thread t).targetTicks = (s.thread t).targetTicks := by
    intro t
    simp only [awoken, popped]
    split <;> rfl
  have hframes : ∀ t, ((awoken (ticked s)).thread t).frames = (s.thread t).frames := by
    intro t
    simp only [awoken, popped]
    split <;> rfl
  have hsplit : s.sleepThreadsList = dueOf (ticked s) s.sleepThreadsList ++ (awoken (ticked s)).sleepThreadsList :=
    drop_dueOf _ _
  have hsub : (awoken (ticked s)).sleepThreadsList.Sublist s.sleepThreadsList := List.drop_sublist _ _
  have hasleep : ∀ t, t ∈ (awoken (ticked s)).sleepThreadsList ↔
      t ∈ s.sleepThreadsList ∧ s.ticks + 1 < (s.thread t).targetTicks := by
    intro t
    have hn := ht.sleepNodup
    rw [hsplit] at hn
    have hdisj := (List.nodup_append'.mp hn).2.2
    constructor
    · intro hm
      refine ⟨hsub.mem hm, ?_⟩
      by_contra hle
      exact hdisj ((mem_due ha).mpr ⟨hsub.mem hm, not_lt.mp hle⟩) hm
    · rintro ⟨hm, hlt⟩
      rw [hsplit] at hm
      rcases List.mem_append.mp hm with hm | hm
      · exact absurd ((mem_due ha).mp hm).2 (not_le.mpr hlt)
      · exact hm
  have hlog := timerLog_awoken s
  refine ⟨⟨?_, ?_, ?_, ?_⟩, rfl, htarget, fun t _ => hframes t, hasleep, ?_⟩
  · simp only [htarget]
    exact ha.sorted.sublist hsub
  · rw [hlog, ticksIn_wakes]
    show s.ticks + 1 = _
    rw [ha.ticks]
    simp [ticksIn]
  · intro t start n log hsuf
    rw [hlog] at hsuf
    rcases List.suffix_cons_iff.mp (suffix_wakes hsuf) with he | hsuf
    · cases he
    · exact ha.timed t start n log hsuf
  · intro t hl hd
    simp only [hframes] at hd
    refine (ha.asked t hl hd).congr ?_ (htarget t)
    rw [hlog, lastSleep_wakes]
    rfl
  · intro t
    rw [Threads.wakes, hlog, count_wakes _ (List.nodup_reverse.mpr (due_nodup ht)), Threads.wakes]
    simp only [List.mem_reverse, mem_due ha]
    congr 1

theorem Rings.preempt (h : Rings s s1) (ht : Tidy s) (ht1 : Tidy s1) (hc : s1.current = s.current) :
    Rings s (preempt s1) := by
  have hm := moves_preempt s1
  have hd := (Still.refl s1).preempt.drowse ht1 h.alarm
  refine ⟨hd.alarm, hd.ticks.trans h.ticks, ?_, ?_, ?_, ?_⟩
  · intro t
    rw [hm.targetTicks, h.target]
  · intro t hs
    have htc : t ≠ s1.current := by
      rw [hc]
      exact fun e => ht.loose.2.1 (e ▸ hs)
    rw [hm.frames_of_ne htc, h.frames t hs]
  · intro t
    rw [hm.sleepThreadsList, hd.ticks]
    exact h.asleep t
  · intro t
    rw [hd.wakes, hd.ticks]
    exact h.wakes t

theorem timerInterrupt_rings (ht : Tidy s) (ha : Alarm s) : Gives (timerInterrupt s) (Rings s) fun _ => True := by
  have hr := awoken_rings ht ha
  rw [ht.timerInterrupt, gives_ok]
  split
  · exact hr.preempt ht ht.ticked.awoken rfl
  · exact hr

/-! ### Steps and runs -/

theorem startCall_drowse (ht : Tidy s) (ha : Alarm s) (choice : Int) (g : Call) :
    Gives (startCall choice s g) (Drowse s) fun _ => True := by
  have h := Still.refl s
  have hstill : ∀ {r : Except Panic State}, Gives r (Still s) (fun _ => True) → Gives r (Drowse s) fun _ => True :=
    fun hr => hr.imp fun _ hs => hs.drowse ht ha
  cases g with
  | timerSleep n => exact timerSleep_drowse ht ha n
  | threadExit =>
    apply hstill
    have hgone : Still s {s.setIntr false with allList := s.allList.erase s.current} :=
      ⟨rfl, rfl, rfl, fun _ _ => rfl, fun _ hm _ hf _ => ⟨List.mem_of_mem_erase hm, hf⟩⟩
    exact hgone.moves ((moves_refl _).setStatus _ _).schedule fun _ hf _ => hf
  | condSignal c =>
    apply hstill
    simp only [startCall]
    split
    · exact h.push rfl
    · trivial
  | condWait c =>
    apply hstill
    apply gives_condWait fun _ _ => trivial
    intro _ s1
    have hs1 : ∀ cond, Still s {s1 with cond := cond} :=
      fun _ => h.same rfl rfl rfl rfl (fun _ => rfl) fun _ => rfl
    exact (((hs1 _).push rfl).push rfl).push rfl
  | semaTryDown n =>
    apply hstill
    show Still s (semaTryDown _ s)
    unfold semaTryDown
    split
    · exact h.semaTake _
    · exact h
  | lockTryAcquire n =>
    apply hstill
    exact gives_lockTryAcquire (fun _ _ => trivial) (fun _ _ => (h.semaTake _).push rfl) fun _ => h
  | threadCreate p => exact hstill (((h.push rfl).push rfl).lockAcquire _ _)
  | threadYield => exact hstill h.threadYield
  | threadSetPriority p => exact hstill (((h.setPriority p).push rfl).push rfl)
  | semaDown n => exact hstill (((h.push rfl).setIntr false).downLoop _ _)
  | semaUp n => exact hstill (h.semaUp ht _)
  | lockAcquire n => exact hstill (h.lockAcquire _ _)
  | lockRelease n => exact hstill (h.lockRelease ht _ _)
  | condBroadcast c => exact hstill (h.push rfl)

theorem resume_drowse (ht : Tidy s) (ha : Alarm s) (hf : s.frames = f :: fs) (choice : Int) :
    Gives (resume choice s f) (Drowse s) fun _ => True := by
  have h := (Still.refl s).pop
  have hstill : ∀ {r : Except Panic State}, Gives r (Still s) (fun _ => True) → Gives r (Drowse s) fun _ => True :=
    fun hr => hr.imp fun _ hs => hs.drowse ht ha
  cases f with
  | pushBlock => exact threadPushBlock_drowse ha hf
  | initThread p =>
    apply hstill
    apply gives_createThread fun _ _ => trivial
    · intro _
      exact h
    · intro hl _ _
      exact ((((h.newThread (fun _ => id) hl p).push rfl).push rfl).push rfl).push rfl
  | unblock t =>
    apply hstill
    apply gives_threadUnblock trivial
    intro _
    exact h.moves (((moves_refl s.pop).ready _).setStatus t _) fun _ hg _ => hg
  | signal c torn =>
    apply hstill
    apply gives_condSignal fun _ _ => trivial
    · intro _
      exact h
    · intro w _ _
      have hc : ∀ cond, Still s {s with cond := cond} :=
        fun _ => (Still.refl s).same rfl rfl rfl rfl (fun _ => rfl) fun _ => rfl
      exact (hc _).pop.push rfl
  | broadcast c =>
    apply hstill
    exact gives_condBroadcast (fun _ _ => trivial) (fun _ => h) fun _ _ => (Still.refl s).push rfl
  | yieldIf torn => exact hstill (yieldIf_cases (Q := fun s' => Gives (.ok s') (Still s) _) h.threadYield fun _ => h)
  | calculate torn =>
    exact hstill (gives_calculate (fun _ _ => trivial) (fun _ => h.setEff _ _) fun p _ _ => h.setEff _ p)
  | setLevel on | sleeping on => exact hstill (h.setIntr on)
  | kernelThread => exact hstill (h.setIntr true)
  | down k on => exact hstill ((Still.refl s).downLoop k on)
  | acquire l on => exact hstill ((Still.refl s).acquireLoop l on)
  | unlink l on => exact hstill (h.lockUnlink l on _)
  | setHolder l => exact hstill (h.setHolder l _)
  | semaDown k => exact hstill (((h.push rfl).setIntr false).downLoop _ _)
  | semaUp k => exact hstill (h.semaUp (ht.pop (ht.not_idle hf rfl)) k)
  | lockAcquire l => exact hstill (h.lockAcquire l _)
  | lockRelease l => exact hstill (h.lockRelease (ht.pop (ht.not_idle hf rfl)) l _)
  | idleBlock => exact hstill ((h.push rfl).setIntr false).threadBlock
  | idleHalt => exact hstill ((h.push rfl).setIntr true)

theorem deviceInterrupt_drowse (ht : Tidy s) (ha : Alarm s) (n : Nat) :
    Gives (deviceInterrupt n s) (Drowse s) fun _ => True := by
  have hup := (Still.refl s).upped (.user n)
  unfold deviceInterrupt
  simp only [ht.semaUpValue, gives_bind, gives_ok, gives_pure]
  split
  · exact hup.preempt.drowse ht ha
  · exact hup.drowse ht ha

/-- The timer wakes those who are due; any other act lets the sleepers sleep on. -/
theorem step_alarm (ht : Tidy s) (ha : Alarm s) {a : Act} (he : a.Enabled s) :
    Gives (a.step s) (fun s' => if a = .tick then Rings s s' else Drowse s s') fun _ => True := by
  apply gives_step he
  · intro g choice hg _ _
    simpa [hg] using startCall_drowse ht ha choice g
  · intro choice f fs hg hf
    simpa [hg] using resume_drowse ht ha hf choice
  · intro hg _
    simpa [hg] using timerInterrupt_rings ht ha
  · intro n hg _
    simpa [hg] using deviceInterrupt_drowse ht ha n

theorem booted_alarm (h : Booted s) : Alarm s := by
  obtain ⟨values, condLock, rfl⟩ := h
  refine ⟨List.Pairwise.nil, rfl, ?_, ?_⟩
  · intro t start n log hsuf
    have := List.suffix_nil.mp hsuf
    cases this
  · rintro t ht ⟨f, hf, hd⟩
    have ht : t = 0 ∨ t = 1 := by simpa [booted] using ht
    rcases ht with rfl | rfl
    · cases hf
    · have hf : f = .setLevel true ∨ f = .idleBlock := by simpa [booted] using hf
      rcases hf with rfl | rfl <;> cases hd

theorem Reachable.alarm (hr : Reachable s) : Alarm s := by
  have h : Tidy s ∧ Alarm s := by
    apply hr.invariant
    · exact fun s hb => ⟨booted_tidy hb, booted_alarm hb⟩
    · intro s a hs ha _
      have ht := step_tidy hs.1 ha
      have hstep := step_alarm hs.1 hs.2 ha
      cases hx : a.step s with
      | error e => trivial
      | ok s' =>
        rw [hx, gives_ok] at ht hstep
        refine ⟨ht, ?_⟩
        split at hstep
        · exact hstep.alarm
        · exact hstep.alarm
  exact h.2

/-- Until a tick reaches its target a sleeper stays asleep. -/
theorem sleeps_until (hr : Reachable s) (ht : t ∈ s.sleepThreadsList) {acts : List Act} (hs : Steps acts s s')
    (hearly : .tick ∉ acts ∨ s'.ticks < (s.thread t).targetTicks) :
    t ∈ s'.sleepThreadsList ∧ (s'.thread t).targetTicks = (s.thread t).targetTicks ∧ wakes t s' = wakes t s := by
  induction hs with
  | nil s => exact ⟨ht, rfl, rfl⟩
  | @snoc acts a s s1 s' hs ha hx ih =>
    have hr1 := hr.steps hs
    have hstep := step_alarm hr1.tidy hr1.alarm ha
    rw [hx, gives_ok] at hstep
    split at hstep
    · -- a tick: it is an early one
      rename_i hatick
      have hlt : s'.ticks < (s.thread t).targetTicks := hearly.resolve_left (by simp [hatick])
      have hticks := hstep.ticks
      obtain ⟨hm, htarget, hw⟩ := ih hr ht (.inr (by omega))
      rw [← htarget] at hlt
      refine ⟨(hstep.asleep t).mpr ⟨hm, hlt⟩, (hstep.target t).trans htarget, ?_⟩
      rw [hstep.wakes, if_neg fun h => absurd h.2 (not_le.mpr hlt), hw, Nat.add_zero]
    · have hearly : .tick ∉ acts ∨ s1.ticks < (s.thread t).targetTicks := by
        rw [← hstep.ticks]
        exact hearly.imp_left fun h hm => h (List.mem_append_left _ hm)
      obtain ⟨hm, htarget, hw⟩ := ih hr ht hearly
      exact ⟨(hstep.asleep t hm).1, (hstep.asleep t hm).2.trans htarget, (hstep.wakes t).trans hw⟩

theorem Rings.up (h : Rings s s') (ht : Tidy s) (ht' : Tidy s') (hal : s'.allList = s.allList)
    (hm : t ∈ s.sleepThreadsList) (hdue : (s.thread t).targetTicks ≤ s'.ticks) :
    t ∉ s'.sleepThreadsList ∧ (s'.thread t).status ≠ .blocked ∧ Threads.wakes t s' = Threads.wakes t s + 1 := by
  have hout : t ∉ s'.sleepThreadsList := fun h' => absurd ((h.asleep t).mp h').2 (not_lt.mpr hdue)
  refine ⟨hout, ?_, ?_⟩
  · intro hb
    obtain ⟨hl, -, hf⟩ := (ht.sleepers t).mp hm
    rw [← h.frames t hm] at hf
    exact hout ((ht'.sleepers t).mpr ⟨hal ▸ hl, hb, hf⟩)
  · rw [h.wakes, if_pos ⟨hm, hdue⟩]

theorem allList_timerInterrupt (ht : Tidy s) (hx : timerInterrupt s = .ok s') : s'.allList = s.allList := by
  rw [ht.timerInterrupt] at hx
  cases hx
  split
  · rw [(moves_preempt _).allList]
    rfl
  · rfl

/-- What `timer_sleep` promises, in a state and in all that can follow. -/
structure WakesOnTime (s : State) : Prop where
  sorted : s.sleepThreadsList.Pairwise fun a b => (s.thread a).targetTicks ≤ (s.thread b).targetTicks
  exactly : ∀ t, t ∈ s.sleepThreadsList ↔
    t ∈ s.allList ∧ (s.thread t).status = .blocked ∧ ∃ on fs, (s.thread t).frames = .sleeping on :: fs
  /-- The target is the tick the thread read in `timer_sleep (n)` plus `n`. -/
  deadline : ∀ t ∈ s.sleepThreadsList, ∃ start n,
    lastSleep t (timerLog s) = some (start, n) ∧ (s.thread t).targetTicks = start + n
  read : s.ticks = ticksIn (timerLog s) ∧
    ∀ t start n log, .sleep t start n :: log <:+ timerLog s → start = ticksIn log
  /-- No act before the first tick that reaches the target wakes the thread, -/
  notBefore : ∀ t ∈ s.sleepThreadsList, ∀ acts s1, Steps acts s s1 →
    .tick ∉ acts ∨ s1.ticks < (s.thread t).targetTicks → t ∈ s1.sleepThreadsList ∧ wakes t s1 = wakes t s
  /-- and that tick does. -/
  first : ∀ t ∈ s.sleepThreadsList, ∀ acts s1, Steps acts s s1 →
    .tick ∉ acts ∨ s1.ticks < (s.thread t).targetTicks → Act.tick.Enabled s1 →
    (s.thread t).targetTicks ≤ s1.ticks + 1 → ∃ s2, Act.tick.step s1 = .ok s2 ∧
      t ∉ s2.sleepThreadsList ∧ (s2.thread t).status ≠ .blocked ∧ wakes t s2 = wakes t s + 1
  /-- A thread that does not sleep is not woken. -/
  once : ∀ t, t ∉ s.sleepThreadsList → ∀ (a : Act) (s1 : State), a.Enabled s → a.step s = .ok s1 →
    wakes t s1 = wakes t s

end

/-- In every state reached, sleepers are listed in the order of their targets and wake on
time. -/
theorem timer_wakes_on_time {s : State} (hr : Reachable s) : WakesOnTime s where
  sorted := hr.alarm.sorted
  exactly := by
    intro t
    rw [hr.tidy.sleepers t]
    unfold BlockedAt
    refine and_congr_right fun _ => and_congr_right fun _ => ?_
    constructor
    · rintro ⟨f, hf, hs⟩
      obtain ⟨fs, hfs⟩ := List.head?_eq_some_iff.mp hf
      cases f with
      | sleeping on => exact ⟨on, fs, hfs⟩
      | _ => cases hs
    · rintro ⟨on, fs, hfs⟩
      exact ⟨.sleeping on, by rw [hfs]; rfl, rfl⟩
  deadline := by
    intro t ht
    obtain ⟨hl, -, f, hf, hs⟩ := (hr.tidy.sleepers t).mp ht
    apply hr.alarm.asked t hl
    refine ⟨f, List.mem_of_head? hf, ?_⟩
    cases f with
    | sleeping on => rfl
    | _ => cases hs
  read := ⟨hr.alarm.ticks, hr.alarm.timed⟩
  notBefore := by
    intro t ht acts s1 hs hearly
    obtain ⟨hm, -, hw⟩ := sleeps_until hr ht hs hearly
    exact ⟨hm, hw⟩
  first := by
    intro t ht acts s1 hs hearly ha hdue
    obtain ⟨hm, htarget, hw⟩ := sleeps_until hr ht hs hearly
    have hr1 := hr.steps hs
    have htick := hr1.tidy.timerInterrupt
    refine ⟨_, htick, ?_⟩
    have hrings := timerInterrupt_rings hr1.tidy hr1.alarm
    have htidy := timerInterrupt_tidy hr1.tidy
    rw [htick, gives_ok] at hrings htidy
    have hup := hrings.up hr1.tidy htidy (allList_timerInterrupt hr1.tidy htick) hm
      (by rw [hrings.ticks, htarget]; exact hdue)
    rw [hw] at hup
    exact hup
  once := by
    intro t ht a s1 ha hx
    have hstep := step_alarm hr.tidy hr.alarm ha
    rw [hx, gives_ok] at hstep
    split at hstep
    · rw [hstep.wakes, if_neg fun h => ht h.1, Nat.add_zero]
    · exact hstep.wakes t

/-- Two threads asleep, the one that went to sleep last due first. -/
theorem timer_wakes_two_sleepers :
    ∃ s, Reachable s ∧ (s.sleepThreadsList = [2, 0] ∧ s.ticks = 1 ∧ (s.thread 2).targetTicks = 3 ∧
      (s.thread 0).targetTicks = 5) ∧ WakesOnTime s := by
  obtain ⟨s, hr, hp⟩ := reachable_of_after (fun _ _ => True)
    (creation 31 2 ++ [.call (.timerSleep 5) 2, .go 2, .go 2, .tick, .call (.timerSleep 2) 2, .go 2])
    (fun s => s.sleepThreadsList = [2, 0] ∧ s.ticks = 1 ∧ (s.thread 2).targetTicks = 3 ∧
      (s.thread 0).targetTicks = 5) (by decide +kernel)
  exact ⟨s, hr, hp, timer_wakes_on_time hr⟩

end Pintos.Threads
