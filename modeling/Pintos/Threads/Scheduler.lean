import Pintos.Threads.State

/-! Scheduling (`threads/thread.c`, `devices/timer.c`).

`schedule` hands the processor to the first of the ready threads with the highest effective
priority, or to the idle thread. A thread leaves the processor by blocking, by yielding or by
exiting, and comes back in the frame it left. -/
namespace Pintos.Threads
open Kernel Outcome

/-! ### Switching -/

/-- `thread_priority_less_function`. -/
def threadPriorityLess (s : State) : Tid → Tid → Bool := byKey s.eff

/-- The switch itself, with `thread_schedule_tail`. -/
def switchTo (t : Tid) (s : State) : State :=
  {s.setStatus t .running with current := t, threadTicks := 0}

/-- `schedule`, with `next_thread_to_run` and `get_and_remove_next_thread`. -/
def schedule (s : State) : State :=
  match listMax (threadPriorityLess s) s.readyList with
  | none => switchTo s.idleThread s
  | some t => switchTo t {s with readyList := s.readyList.erase t}

/-- The thread `schedule` switches to. -/
def nextThread (s : State) : Tid := (listMax (threadPriorityLess s) s.readyList).getD s.idleThread

theorem schedule_eq (s : State) :
    schedule s = switchTo (nextThread s) {s with readyList := s.readyList.erase (nextThread s)} := by
  unfold schedule nextThread
  cases hm : listMax (threadPriorityLess s) s.readyList with
  | none =>
    have hnil : s.readyList = [] := listMax_eq_none.mp hm
    simp [switchTo, State.setStatus, State.mapThread, hnil]
  | some t => rfl

/-- `thread_block`, called with interrupts off. -/
def threadBlock (s : State) : State := schedule (s.setStatus s.current .blocked)

/-- `thread_unblock`. -/
def threadUnblock (t : Tid) (s : State) : Except Panic State :=
  if (s.thread t).status = .blocked then
    .ok ({s with readyList := s.readyList ++ [t]}.setStatus t .ready)
  else .error .notBlocked

theorem gives_threadUnblock {t : Tid} {s : State} {Q : State → Prop} {E : Panic → Prop} (hE : E .notBlocked)
    (h : (s.thread t).status = .blocked → Q ({s with readyList := s.readyList ++ [t]}.setStatus t .ready)) :
    Gives (threadUnblock t s) Q E := by
  unfold threadUnblock
  split
  · exact h ‹_›
  · exact hE

/-- `thread_yield` from the point where interrupts are off. -/
def yieldNow (s : State) : State :=
  let ready := if s.current = s.idleThread then s.readyList else s.readyList ++ [s.current]
  schedule ({s with readyList := ready}.setStatus s.current .ready)

/-- `thread_yield`. -/
def threadYield (s : State) : State := yieldNow ((s.push (.setLevel s.intr)).setIntr false)

/-- `thread_exit`, without the part of user processes. -/
def threadExit (s : State) : State :=
  schedule ({s.setIntr false with allList := s.allList.erase s.current}.setStatus s.current .dying)

/-! ### Priorities -/

/-- `get_highest_priority`. -/
def getHighestPriority (s : State) : Int :=
  s.readyList.foldl (fun highest t => if s.eff t > highest then s.eff t else highest) priMin

/-- The test of `thread_yield_if_necessery`. -/
def yields (s : State) : Bool := getHighestPriority s > s.eff s.current

/-- `compare_priority_and_update`, with a bound on its recursion. -/
def comparePriorityAndUpdate (priority : Int) : Nat → Option Tid → State → Except Panic State
  | _, none, s => .ok s
  | 0, some _, _ => .error .diverges
  | n + 1, some t, s =>
    if s.eff t > priority then .ok s
    else
      let s := s.setEff t priority
      match (s.thread t).waitingLock with
      | none => .ok s
      | some l => comparePriorityAndUpdate priority n (s.holder l) s

/-- Nothing but effective priorities has changed. -/
def Raised (s s' : State) : Prop :=
  ∃ eff : Tid → Int, s' = {s with thread := fun t => {s.thread t with effectivePriority := eff t}}

theorem Raised.refl (s : State) : Raised s s := ⟨s.eff, rfl⟩

theorem Raised.trans {s1 s2 s3 : State} (h : Raised s1 s2) (h' : Raised s2 s3) : Raised s1 s3 := by
  obtain ⟨e, rfl⟩ := h
  obtain ⟨e', rfl⟩ := h'
  exact ⟨e', rfl⟩

theorem raised_setEff (s : State) (t : Tid) (p : Int) : Raised s (s.setEff t p) := by
  refine ⟨Function.update s.eff t p, ?_⟩
  unfold State.setEff State.mapThread
  congr 1
  funext u
  by_cases hu : u = t
  · subst hu
    simp
  · simp [hu, State.eff]

theorem comparePriorityAndUpdate_raised (p : Int) : ∀ (n : Nat) (u : Option Tid) (s : State),
    Gives (comparePriorityAndUpdate p n u s) (Raised s) (· = .diverges)
  | n, none, s => by
    unfold comparePriorityAndUpdate
    exact .refl s
  | 0, some t, s => rfl
  | n + 1, some t, s => by
    unfold comparePriorityAndUpdate
    split
    · exact .refl s
    · simp only
      split
      · exact raised_setEff s t p
      · exact (comparePriorityAndUpdate_raised p n _ _).imp fun s' hr => (raised_setEff s t p).trans hr

/-- The priorities of the threads that wait for a lock, in the loop of
`calculate_priority_and_yield`. -/
def raiseByWaiters (s : State) (priority : Int) (l : LockId) : Int :=
  (s.sema (.lock l)).waiters.foldl (fun p t => if s.eff t > p then s.eff t else p) priority

/-- The lock of a list element; at an end of another thread's list the loop of
`calculate_priority_and_yield` has lost its way. -/
def lockOfNode : Node → Option LockId
  | .elem l => some l
  | _ => none

/-- The locks on `holding_locks_list`, if at most `fuel` of them lead to its end. -/
def holdingLocks (fuel : Nat) (t : Tid) (s : State) : Option (List LockId) := do
  let first ← s.links.next (.head t)
  let nodes ← s.links.walk (.tail t) fuel first
  nodes.mapM lockOfNode

/-- The priority `calculate_priority_and_yield` stores. -/
def calculatePriority (fuel : Nat) (s : State) : Option Int :=
  (holdingLocks fuel s.current s).map fun locks =>
    locks.foldl (raiseByWaiters s) (s.thread s.current).priority

/-! ### The timer (`devices/timer.c`) -/

/-- `cmp_target_ticks`. -/
def cmpTargetTicks (s : State) : Tid → Tid → Bool := byKey fun t => (s.thread t).targetTicks

/-- `timer_sleep`, up to its call of `thread_push_block`. -/
def timerSleep (n : Int) (s : State) : State :=
  let start := s.ticks
  ((s.mapThread s.current fun x => {x with targetTicks := n + start}).record (.sleep s.current start n)).push .pushBlock

/-- `thread_push_block`, up to its `thread_block`. -/
def threadPushBlock (s : State) : State :=
  let s' := (s.push (.sleeping s.intr)).setIntr false
  threadBlock {s' with sleepThreadsList := listInsertOrdered (cmpTargetTicks s') s'.current s'.sleepThreadsList}

/-- The loop of `thread_pop_unblock`, from an element on. -/
def threadPopUnblock : List Tid → State → Except Panic State
  | [], s => .ok s
  | t :: rest, s =>
    if (s.thread t).targetTicks ≤ s.ticks ∧ (s.thread t).status = .blocked then
      match threadUnblock t s with
      | .ok s => threadPopUnblock rest ({s with sleepThreadsList := rest}.record (.wake t))
      | .error e => .error e
    else .ok s

/-- The threads at the head of a list that are due. -/
def dueOf (s : State) (list : List Tid) : List Tid := list.takeWhile fun t => (s.thread t).targetTicks ≤ s.ticks

/-- The threads `ts` become ready, in their order, and `sleep` stay asleep. -/
def popped (ts sleep : List Tid) (s : State) : State :=
  {s with
    thread := fun t => if t ∈ ts then {s.thread t with status := .ready} else s.thread t
    readyList := s.readyList ++ ts
    sleepThreadsList := sleep
    trace := (ts.map .wake).reverse ++ s.trace}

/-- The threads that are due are awake. -/
def awoken (s : State) : State :=
  popped (dueOf s s.sleepThreadsList) (s.sleepThreadsList.drop (dueOf s s.sleepThreadsList).length) s

theorem popped_nil {sleep : List Tid} {s : State} (h : s.sleepThreadsList = sleep) : popped [] sleep s = s := by
  simp [popped, ← h]

theorem popped_cons {t : Tid} {ts sleep : List Tid} (s : State) (sleep' : List Tid) :
    popped ts sleep (({s with readyList := s.readyList ++ [t], sleepThreadsList := sleep'}.setStatus t .ready).record
      (.wake t)) = popped (t :: ts) sleep s := by
  simp only [popped, State.setStatus, State.mapThread, State.record, List.append_assoc, List.singleton_append,
    List.mem_cons, List.map_cons, List.reverse_cons]
  grind

theorem dueOf_setStatus (s : State) (t : Tid) (st : Status) (ready sleep list : List Tid) :
    dueOf (({s with readyList := ready, sleepThreadsList := sleep}.setStatus t st).record (.wake t)) list =
      dueOf s list := by
  unfold dueOf
  congr 1
  funext u
  by_cases hu : u = t
  · subst hu
    simp [State.setStatus, State.mapThread, State.record]
  · simp [State.setStatus, State.mapThread, State.record, hu]

/-- `thread_pop_unblock` wakes the threads at the head of the list that are due. -/
theorem threadPopUnblock_eq : ∀ (list : List Tid) (s : State), s.sleepThreadsList = list → list.Nodup →
    (∀ t ∈ list, (s.thread t).status = .blocked) →
    threadPopUnblock list s = .ok (popped (dueOf s list) (list.drop (dueOf s list).length) s)
  | [], s, hs, _, _ => by
    show Except.ok s = .ok (popped [] [] s)
    rw [popped_nil hs]
  | t :: rest, s, hs, hn, hb => by
    have ht := hb t List.mem_cons_self
    obtain ⟨htr, hrest⟩ := List.nodup_cons.mp hn
    by_cases hdue : (s.thread t).targetTicks ≤ s.ticks
    · have hother : ∀ u ∈ rest, ((({s with readyList := s.readyList ++ [t], sleepThreadsList := rest}.setStatus t
          .ready).record (.wake t)).thread u).status = .blocked := by
        intro u hu
        have hut : u ≠ t := fun e => htr (e ▸ hu)
        simpa [State.setStatus, State.mapThread, State.record, hut] using hb u (List.mem_cons_of_mem _ hu)
      have ih := threadPopUnblock_eq rest _ rfl hrest hother
      rw [dueOf_setStatus, popped_cons] at ih
      have hcons : dueOf s (t :: rest) = t :: dueOf s rest := by
        simp [dueOf, hdue]
      rw [hcons]
      simp only [threadPopUnblock, threadUnblock, ht, hdue, and_self, if_true]
      exact ih
    · have hnil : dueOf s (t :: rest) = [] := by
        simp [dueOf, hdue]
      rw [hnil, List.length_nil, List.drop_zero, popped_nil hs]
      simp [threadPopUnblock, hdue]

end Pintos.Threads
