import Pintos.Threads.Machine

/-! Steps that only move threads.

Most functions end by switching threads, pushing or popping a frame, or turning interrupts on
or off. `Moves` says that a step did no more than that: everything but the states of the
threads, the stack of the running thread, the ready list and the interrupt level is as
before. -/
namespace Pintos.Threads
open Kernel

/-- The thread that was running ends with the stack `fs`, and interrupts are `on`. -/
structure Moves (fs : List Frame) (on : Bool) (s s' : State) : Prop where
  intr : s'.intr = on
  thread : ∀ t, s'.thread t = {s.thread t with
    status := (s'.thread t).status
    frames := if t = s.current then fs else (s.thread t).frames}
  core : {s' with
    thread := s.thread
    current := s.current
    readyList := s.readyList
    threadTicks := s.threadTicks
    intr := s.intr} = s

section
variable {s s' s1 : State} {fs : List Frame} {on : Bool} {t : Tid}

namespace Moves

theorem frames (h : Moves fs on s s') (t : Tid) :
    (s'.thread t).frames = if t = s.current then fs else (s.thread t).frames := by
  rw [h.thread t]

theorem frames_current (h : Moves fs on s s') : (s'.thread s.current).frames = fs := by
  rw [h.frames, if_pos rfl]

theorem frames_of_ne (h : Moves fs on s s') (ht : t ≠ s.current) : (s'.thread t).frames = (s.thread t).frames := by
  rw [h.frames, if_neg ht]

theorem priority (h : Moves fs on s s') (t : Tid) : (s'.thread t).priority = (s.thread t).priority := by
  rw [h.thread t]

theorem eff (h : Moves fs on s s') (t : Tid) : s'.eff t = s.eff t := by
  rw [State.eff, h.thread t, State.eff]

theorem waitingLock (h : Moves fs on s s') (t : Tid) : (s'.thread t).waitingLock = (s.thread t).waitingLock := by
  rw [h.thread t]

theorem targetTicks (h : Moves fs on s s') (t : Tid) : (s'.thread t).targetTicks = (s.thread t).targetTicks := by
  rw [h.thread t]

theorem allList (h : Moves fs on s s') : s'.allList = s.allList := (congrArg State.allList h.core :)

theorem sleepThreadsList (h : Moves fs on s s') : s'.sleepThreadsList = s.sleepThreadsList :=
  (congrArg State.sleepThreadsList h.core :)

theorem sema (h : Moves fs on s s') : s'.sema = s.sema := (congrArg State.sema h.core :)

theorem holder (h : Moves fs on s s') : s'.holder = s.holder := (congrArg State.holder h.core :)

theorem links (h : Moves fs on s s') : s'.links = s.links := (congrArg State.links h.core :)

theorem cond (h : Moves fs on s s') : s'.cond = s.cond := (congrArg State.cond h.core :)

theorem ticks (h : Moves fs on s s') : s'.ticks = s.ticks := (congrArg State.ticks h.core :)

theorem trace (h : Moves fs on s s') : s'.trace = s.trace := (congrArg State.trace h.core :)

/-- One move after another of the same thread. -/
theorem trans {fs' : List Frame} {on' : Bool} (h : Moves fs on s s1) (hc : s1.current = s.current)
    (h' : Moves fs' on' s1 s') : Moves fs' on' s s' := by
  refine ⟨h'.intr, ?_, ?_⟩
  · intro t
    rw [h'.thread t, h.thread t, hc]
    by_cases ht : t = s.current <;> simp [ht]
  · have hcore := h'.core
    have hcore1 := h.core
    grind

end Moves

/-! ### Moves -/

theorem moves_setFrames (s : State) (fs : List Frame) : Moves fs s.intr s (s.setFrames fs) := by
  refine ⟨rfl, ?_, rfl⟩
  intro t
  by_cases ht : t = s.current <;> simp [State.setFrames, State.mapThread, ht]

theorem moves_push (s : State) (f : Frame) : Moves (f :: s.frames) s.intr s (s.push f) := moves_setFrames s _

theorem moves_pop (s : State) : Moves s.frames.tail s.intr s s.pop := moves_setFrames s _

theorem Moves.setIntr (h : Moves fs on s s') (on' : Bool) : Moves fs on' s (s'.setIntr on') :=
  ⟨rfl, h.thread, h.core⟩

theorem moves_refl (s : State) : Moves s.frames s.intr s s := by
  refine ⟨rfl, ?_, rfl⟩
  intro t
  by_cases ht : t = s.current <;> simp [ht, State.frames]

theorem Moves.schedule (h : Moves fs on s s') : Moves fs on s (schedule s') := by
  rw [schedule_eq]
  refine ⟨h.intr, ?_, h.core⟩
  intro t
  have ht := h.thread t
  simp only [switchTo, State.setStatus, State.mapThread]
  grind

theorem Moves.setStatus (h : Moves fs on s s') (u : Tid) (st : Status) : Moves fs on s (s'.setStatus u st) := by
  refine ⟨h.intr, ?_, h.core⟩
  intro t
  have ht := h.thread t
  by_cases hu : t = u
  · subst hu
    simp only [State.setStatus, State.mapThread, Function.update_self]
    rw [ht]
  · simp only [State.setStatus, State.mapThread, Function.update_of_ne hu]
    exact ht

theorem Moves.ready (h : Moves fs on s s') (r : List Tid) : Moves fs on s {s' with readyList := r} :=
  ⟨h.intr, h.thread, h.core⟩

theorem Moves.threadBlock (h : Moves fs on s s') : Moves fs on s (threadBlock s') := (h.setStatus _ _).schedule

theorem Moves.yieldNow (h : Moves fs on s s') : Moves fs on s (yieldNow s') :=
  ((h.ready _).setStatus _ _).schedule

theorem moves_threadYield (s : State) : Moves (.setLevel s.intr :: s.frames) false s (threadYield s) :=
  ((moves_push s _).setIntr false).yieldNow

theorem moves_preempt (s : State) :
    Moves (.setLevel true :: s.frames.modifyHead Frame.tear) false s (preempt s) := by
  have hframes : (s.setFrames (s.frames.modifyHead Frame.tear)).push (.setLevel true) =
      s.setFrames (.setLevel true :: s.frames.modifyHead Frame.tear) := by
    simp [State.push, State.setFrames, State.mapThread, State.frames]
  unfold preempt
  rw [hframes]
  exact ((moves_setFrames s _).setIntr false).yieldNow

/-- The running thread is in the list of sleepers. -/
def listed (s : State) : State :=
  {s with sleepThreadsList := listInsertOrdered (cmpTargetTicks s) s.current s.sleepThreadsList}

theorem cmpTargetTicks_congr (h : ∀ t, (s'.thread t).targetTicks = (s.thread t).targetTicks) :
    cmpTargetTicks s' = cmpTargetTicks s := by
  unfold cmpTargetTicks
  congr 1
  funext t
  exact h t

theorem moves_threadPushBlock (s : State) :
    Moves (.sleeping s.intr :: s.frames) false (listed s) (threadPushBlock s) := by
  have hkey := cmpTargetTicks_congr ((moves_push s (.sleeping s.intr)).setIntr false).targetTicks
  unfold threadPushBlock
  simp only [hkey]
  exact ((moves_push (listed s) _).setIntr false).threadBlock

end

end Pintos.Threads
