import Pintos.Threads.Scheduler

/-! Semaphores, locks and condition variables (`threads/synch.c`).

Each function is cut where its thread can lose the processor: where it blocks, where it
yields, and where it runs with interrupts on. -/
namespace Pintos.Threads
open Kernel Intrusive

/-! ### Semaphores -/

/-- The loop of `sema_down` finds the value zero: wait for an up. The caller's frame is on
the stack already. -/
def semaWait (k : SemaId) (s : State) : State :=
  threadBlock (s.mapSema k fun x => {x with waiters := x.waiters ++ [s.current]})

/-- The end of `sema_down`, with the value positive. -/
def semaTake (k : SemaId) (s : State) : State :=
  (s.mapSema k fun x => {x with value := x.value - 1}).record (.down k)

/-- The loop of `sema_down`, its frame on top of the stack. -/
def downLoop (k : SemaId) (on : Bool) (s : State) : State :=
  if (s.sema k).value = 0 then semaWait k s else (semaTake k s).pop.setIntr on

/-- `sema_down`. -/
def semaDown (k : SemaId) (s : State) : State := downLoop k s.intr ((s.push (.down k s.intr)).setIntr false)

/-- `sema_try_down`. -/
def semaTryDown (k : SemaId) (s : State) : State := if 0 < (s.sema k).value then semaTake k s else s

/-- `sema_up` without its last call. -/
def semaUpValue (k : SemaId) (s : State) : Except Panic State := do
  let s ← match listMax (threadPriorityLess s) (s.sema k).waiters with
    | none => .ok s
    | some t => threadUnblock t (s.mapSema k fun x => {x with waiters := x.waiters.erase t})
  return (s.mapSema k fun x => {x with value := (x.value + 1) % 2 ^ 32}).record (.up k)

/-- The thread `sema_up` wakes. -/
def wokenBy (k : SemaId) (s : State) : Option Tid := listMax (threadPriorityLess s) (s.sema k).waiters

/-- The state `sema_up` leaves before its last call. -/
def upped (k : SemaId) (s : State) : State :=
  {s with
    thread := fun t => if wokenBy k s = some t then {s.thread t with status := .ready} else s.thread t
    readyList := s.readyList ++ (wokenBy k s).toList
    sema := Function.update s.sema k
      ⟨((s.sema k).value + 1) % 2 ^ 32, (s.sema k).waiters.diff (wokenBy k s).toList⟩
    trace := .up k :: s.trace}

theorem upped_of_none {k : SemaId} {s : State} (hm : wokenBy k s = none) :
    upped k s = {s with
      sema := Function.update s.sema k ⟨((s.sema k).value + 1) % 2 ^ 32, (s.sema k).waiters⟩
      trace := .up k :: s.trace} := by
  simp [upped, hm]

theorem upped_of_some {k : SemaId} {s : State} {t : Tid} (hm : wokenBy k s = some t) :
    upped k s = State.setStatus {s with
      readyList := s.readyList ++ [t]
      sema := Function.update s.sema k ⟨((s.sema k).value + 1) % 2 ^ 32, (s.sema k).waiters.erase t⟩
      trace := .up k :: s.trace} t .ready := by
  simp only [upped, hm, State.setStatus, State.mapThread, Option.toList_some, List.diff_cons, List.diff_nil,
    Option.some.injEq]
  congr 1
  grind

theorem semaUpValue_eq {k : SemaId} {s : State} (h : ∀ t ∈ (s.sema k).waiters, (s.thread t).status = .blocked) :
    semaUpValue k s = .ok (upped k s) := by
  unfold semaUpValue
  cases hm : listMax (threadPriorityLess s) (s.sema k).waiters with
  | none =>
    rw [upped_of_none hm]
    rfl
  | some t =>
    have hb := h t (mem_of_listMax hm)
    rw [upped_of_some hm]
    simp [threadUnblock, State.mapSema, hb, State.setStatus, State.mapThread, State.record, bind, Except.bind,
      pure, Except.pure]

/-- `sema_up`, with interrupts on. -/
def semaUp (k : SemaId) (s : State) : Except Panic State := do
  return (← semaUpValue k s).push (.yieldIf false)

/-! ### Locks -/

/-- The end of `lock_acquire`, after its `sema_down`. -/
def lockTake (l : LockId) (on : Bool) (s : State) : Except Panic State :=
  match s.links.insert (.tail s.current) (.elem l) with
  | none => .error .notInterior
  | some links =>
    .ok ((({s with links := links}.mapThread s.current fun x => {x with waitingLock := none}).setHolder l
      (some s.current)).setIntr on)

/-- The loop of the `sema_down` in `lock_acquire`, the frame of `lock_acquire` on top of the
stack. -/
def acquireLoop (l : LockId) (on : Bool) (s : State) : Except Panic State :=
  if (s.sema (.lock l)).value = 0 then .ok (semaWait (.lock l) s) else lockTake l on (semaTake (.lock l) s).pop

/-- The assertion of `lock_acquire` about the holder. -/
def donated (l : LockId) (s : State) : Bool :=
  match s.holder l with
  | none => true
  | some h => s.eff s.current ≤ s.eff h

/-- `lock_acquire`, the recursion of its donation bounded by `n`. -/
def lockAcquire (l : LockId) (n : Nat) (s : State) : Except Panic State := do
  if s.holder l = some s.current then throw .lockHeld
  let on := s.intr
  let s := (s.setIntr false).mapThread s.current fun x => {x with waitingLock := some l}
  let s ← comparePriorityAndUpdate (s.eff s.current) n (s.holder l) s
  if donated l s then acquireLoop l on (s.push (.acquire l on)) else throw .notDonated

/-- `lock_try_acquire`, up to the point where it knows whether it has the lock. -/
def lockTryAcquire (l : LockId) (s : State) : Except Panic State :=
  if s.holder l = some s.current then .error .lockHeld
  else if 0 < (s.sema (.lock l)).value then .ok ((semaTake (.lock l) s).push (.setHolder l))
  else .ok s

/-- The end of `lock_release`: the lock leaves the list it is linked in, and
`calculate_priority_and_yield`. -/
def lockUnlink (l : LockId) (on : Bool) (fuel : Nat) (s : State) : Except Panic State :=
  match s.links.remove (.elem l) with
  | none => .error .notInterior
  | some links =>
    let s := {s with links := links}
    match calculatePriority fuel s with
    | none => .error .diverges
    | some p =>
      let s := s.setEff s.current p
      .ok (if yields s then yieldNow (s.push (.setLevel on)) else s.setIntr on)

/-- `lock_release`. Its `sema_up` yields to a ready thread of higher effective priority, and
only afterwards is the lock unlinked. -/
def lockRelease (l : LockId) (fuel : Nat) (s : State) : Except Panic State := do
  if s.holder l ≠ some s.current then throw .lockNotHeld
  let on := s.intr
  let s ← semaUpValue (.lock l) ((s.setIntr false).setHolder l none)
  if yields s then return yieldNow (s.push (.unlink l on)) else lockUnlink l on fuel s

/-! ### Condition variables -/

/-- `cond_wait`, with the calls it still has to make. -/
def condWait (c : Nat) (s : State) : Except Panic State :=
  if s.holder (s.condLock c) = some s.current then
    let t := s.current
    let s := s.mapSema (.waiter t) fun _ => ⟨0, []⟩
    .ok ((({s with cond := Function.update s.cond c (s.cond c ++ [t])}.push (.lockAcquire (s.condLock c))).push
      (.semaDown (.waiter t))).push (.lockRelease (s.condLock c)))
  else .error .lockNotHeld

/-- The thread `cond_priority_less_function` finds in a waiter's semaphore. -/
def sleeper (s : State) (w : Tid) : Option Tid := (s.sema (.waiter w)).waiters.head?

/-- Every waiter that is compared has a thread asleep on its semaphore. -/
def comparable (s : State) (waiters : List Tid) : Bool :=
  waiters.length ≤ 1 || waiters.all fun w => (sleeper s w).isSome

/-- `cond_priority_less_function`. -/
def condPriorityLess (s : State) : Tid → Tid → Bool :=
  byKey fun w => match sleeper s w with
    | some t => s.eff t
    | none => 0

/-- The waiter `get_and_remove_next_sema_for_cond` takes. A scan that has been torn, or that
reads the priority of a thread that is not there, may take any. -/
def nextSemaForCond (c : Nat) (torn : Bool) (choice : Nat) (s : State) : Option Tid :=
  if !torn && comparable s (s.cond c) then listMax (condPriorityLess s) (s.cond c) else (s.cond c)[choice]?

/-- `cond_signal`, from the point where it looks at the waiters. -/
def condSignal (c : Nat) (torn : Bool) (choice : Nat) (s : State) : Except Panic State :=
  if s.cond c = [] then .ok s.pop
  else match nextSemaForCond c torn choice s with
    | none => .error .diverges
    | some w => .ok (({s with cond := Function.update s.cond c ((s.cond c).erase w)}.pop).push (.semaUp (.waiter w)))

/-- `cond_broadcast`, at the head of its loop. -/
def condBroadcast (c : Nat) (s : State) : Except Panic State :=
  if s.cond c = [] then .ok s.pop
  else if s.holder (s.condLock c) = some s.current then .ok (s.push (.signal c false))
  else .error .lockNotHeld

/-! ### What the functions end in

One rule for each function that can fail: every way it can return, with what led there.
`E` is any condition on panics that only a wrong `thread_unblock` could break. -/

section Rules
open Outcome

variable {s : State} {l : LockId} {on : Bool} {fuel : Nat} {Q : State → Prop} {E : Panic → Prop}
  (hE : ∀ e, e ≠ .notBlocked → E e)
include hE

theorem gives_lockTake (h : ∀ links, s.links.insert (.tail s.current) (.elem l) = some links →
      Q ((({s with links := links}.mapThread s.current fun x => {x with waitingLock := none}).setHolder l
        (some s.current)).setIntr on)) :
    Gives (lockTake l on s) Q E := by
  unfold lockTake
  split
  · exact hE _ (by decide)
  · exact h _ ‹_›

omit hE in
theorem gives_acquireLoop (hwait : (s.sema (.lock l)).value = 0 → Q (semaWait (.lock l) s))
    (htake : (s.sema (.lock l)).value ≠ 0 → Gives (lockTake l on (semaTake (.lock l) s).pop) Q E) :
    Gives (acquireLoop l on s) Q E := by
  unfold acquireLoop
  split
  · exact hwait ‹_›
  · exact htake ‹_›

theorem gives_lockAcquire {n : Nat}
    (h : s.holder l ≠ some s.current →
      let s1 := (s.setIntr false).mapThread s.current fun x => {x with waitingLock := some l}
      Gives (comparePriorityAndUpdate (s.eff s.current) n (s.holder l) s1)
        (fun s2 => donated l s2 = true → Gives (acquireLoop l s.intr (s2.push (.acquire l s.intr))) Q E) E) :
    Gives (lockAcquire l n s) Q E := by
  have heff : ∀ lk, ((s.setIntr false).mapThread s.current fun x => {x with waitingLock := lk}).eff s.current =
      s.eff s.current := by
    intro lk
    simp [State.eff, State.mapThread, State.setIntr]
  unfold lockAcquire
  split
  · exact hE _ (by decide)
  · rename_i hne
    have h := h hne
    simp only at h
    rw [← heff (some l)] at h
    simp only [gives_bind]
    refine h.mono ?_ fun _ => id
    intro s2 hs2
    split
    · exact hs2 ‹_›
    · exact hE _ (by decide)

theorem gives_lockTryAcquire
    (htake : s.holder l ≠ some s.current → 0 < (s.sema (.lock l)).value → Q ((semaTake (.lock l) s).push (.setHolder l)))
    (hfail : (s.sema (.lock l)).value = 0 → Q s) : Gives (lockTryAcquire l s) Q E := by
  unfold lockTryAcquire
  split
  · exact hE _ (by decide)
  · split
    · exact htake ‹_› ‹_›
    · exact hfail (by omega)

theorem gives_lockUnlink
    (h : ∀ links p, s.links.remove (.elem l) = some links → calculatePriority fuel {s with links := links} = some p →
      let s1 := {s with links := links}.setEff s.current p
      (yields s1 = true → Q (yieldNow (s1.push (.setLevel on)))) ∧ (yields s1 = false → Q (s1.setIntr on))) :
    Gives (lockUnlink l on fuel s) Q E := by
  unfold lockUnlink
  split
  · exact hE _ (by decide)
  · rename_i links hlinks
    simp only
    split
    · exact hE _ (by decide)
    · rename_i p hp
      obtain ⟨hyield, hstay⟩ := h links p hlinks hp
      rw [gives_ok]
      split
      · exact hyield ‹_›
      · rename_i hy
        exact hstay (eq_false_of_ne_true hy)

/-- `lock_release`, all of whose waiters are blocked. -/
theorem gives_lockRelease (hb : ∀ t ∈ (s.sema (.lock l)).waiters, (s.thread t).status = .blocked)
    (h : s.holder l = some s.current →
      let s1 := upped (.lock l) ((s.setIntr false).setHolder l none)
      (yields s1 = true → Q (yieldNow (s1.push (.unlink l s.intr)))) ∧
        (yields s1 = false → Gives (lockUnlink l s.intr fuel s1) Q E)) :
    Gives (lockRelease l fuel s) Q E := by
  have hup : semaUpValue (.lock l) ((s.setIntr false).setHolder l none) =
      .ok (upped (.lock l) ((s.setIntr false).setHolder l none)) := semaUpValue_eq hb
  unfold lockRelease
  split
  · exact hE _ (by decide)
  · rename_i hheld
    obtain ⟨hyield, hstay⟩ := h (not_not.mp hheld)
    simp only [hup, gives_bind, gives_ok]
    split
    · exact hyield ‹_›
    · rename_i hy
      exact hstay (eq_false_of_ne_true hy)

theorem gives_condWait {c : Nat}
    (h : s.holder (s.condLock c) = some s.current →
      let s1 := s.mapSema (.waiter s.current) fun _ => ⟨0, []⟩
      Q ((({s1 with cond := Function.update s.cond c (s.cond c ++ [s.current])}.push
        (.lockAcquire (s.condLock c))).push (.semaDown (.waiter s.current))).push (.lockRelease (s.condLock c)))) :
    Gives (condWait c s) Q E := by
  unfold condWait
  split
  · exact h ‹_›
  · exact hE _ (by decide)

theorem gives_condSignal {c choice : Nat} {torn : Bool} (hempty : s.cond c = [] → Q s.pop)
    (h : ∀ w, s.cond c ≠ [] → nextSemaForCond c torn choice s = some w →
      Q (({s with cond := Function.update s.cond c ((s.cond c).erase w)}.pop).push (.semaUp (.waiter w)))) :
    Gives (condSignal c torn choice s) Q E := by
  unfold condSignal
  split
  · exact hempty ‹_›
  · split
    · exact hE _ (by decide)
    · exact h _ ‹_› ‹_›

theorem gives_condBroadcast {c : Nat} (hempty : s.cond c = [] → Q s.pop)
    (h : s.cond c ≠ [] → s.holder (s.condLock c) = some s.current → Q (s.push (.signal c false))) :
    Gives (condBroadcast c s) Q E := by
  unfold condBroadcast
  split
  · exact hempty ‹_›
  · split
    · exact h ‹_› ‹_›
    · exact hE _ (by decide)

end Rules

end Pintos.Threads
