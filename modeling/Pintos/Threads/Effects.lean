import Pintos.Threads.Moves
import Pintos.Threads.QueueProofs

/-! What an act can do.

`Effect s d s'` lists every way an act can change the state: for each, the state of the frames
it starts from, the change it makes, and the stack the running thread ends with. Switching to
another thread is left to `Goes`. Invariants that do not depend on which thread runs next are
proved by cases on `Effect`. The deed `d` names the acts that conditions on runs speak about.

`Masked` says when interrupts are off: a thread whose top frame is one in which another thread
can have taken the processor has not turned them on yet. -/
namespace Pintos.Threads
open Kernel Outcome

/-- The frames in which a thread can be while another one runs. -/
def Frame.parked : Frame → Bool
  | .setLevel _ => true
  | .kernelThread => true
  | .down _ _ => true
  | .acquire _ _ => true
  | .unlink _ _ => true
  | .sleeping _ => true
  | .idleHalt => true
  | _ => false

structure Masked (s : State) : Prop where
  top : ∀ f, s.frames.head? = some f → f.parked = true → s.intr = false
  below : ∀ t ∈ s.allList, ∀ f ∈ (s.thread t).frames.tail, f.parked = false

/-- Frames that have to do with no lock and no semaphore. -/
def Frame.light : Frame → Bool
  | .setLevel _ => true
  | .kernelThread => true
  | .yieldIf _ => true
  | .sleeping _ => true
  | .initThread _ => true
  | .unblock _ => true
  | .signal _ _ => true
  | .broadcast _ => true
  | .idleBlock => true
  | .idleHalt => true
  | _ => false

/-- The top frame is not one in which another thread can have run. -/
def Awake (fs : List Frame) : Prop := ∀ f, fs.head? = some f → f.parked = false

/-- A stack that a function is called on: the thread's own code, or `cond_broadcast`. -/
def Calls (fs : List Frame) : Prop := fs = [] ∨ ∃ c rest, fs = .broadcast c :: rest

/-- A change of the stack that leaves the frames of locks and semaphores alone. -/
inductive Quiet : List Frame → List Frame → Prop where
  | same : Quiet [] []
  | push {fs : List Frame} {f : Frame} : f.light = true → f.births = none → Calls fs → Quiet fs (f :: fs)
  | pop {fs : List Frame} {f : Frame} : f.light = true → Quiet (f :: fs) fs
  | swap {fs : List Frame} {f g : Frame} : f.light = true → g.light = true → g.births = none →
      Quiet (f :: fs) (g :: fs)

/-- The running thread ends with the stack `fs`; it goes on or leaves the processor. -/
structure Goes (fs : List Frame) (s s' : State) : Prop where
  moves : Moves fs s'.intr s s'
  stays : s'.intr = true → s'.current = s.current
  top : ∀ f, fs.head? = some f → f.parked = true → s'.intr = false

/-- A function is called by the thread's own code, or by the frame `f` below it. -/
def Starts (f : Frame) (before rest : List Frame) : Prop := before = [] ∧ rest = [] ∨ before = f :: rest

/-- A semaphore that is in no lock, and in no `cond_wait` if a thread's own code uses it. -/
def Usable (k : SemaId) (before : List Frame) : Prop := (∀ l, k ≠ .lock l) ∧ (before = [] → ∀ w, k ≠ .waiter w)

/-- The locks of `thread_create` are taken and given back on the way. -/
def StartsAcquire (l : LockId) (before rest : List Frame) : Prop :=
  Starts (.lockAcquire l) before rest ∨ before = [] ∧ ∃ p, l = .pool ∧ rest = [.lockRelease .pool, .initThread p]

/-- The handler of an interrupt leaves the stack as it is, or yields, which it does only if
`switch`. -/
def Interrupted (switch : Prop) (s s' : State) (fs : List Frame) : Prop :=
  Awake s.frames ∧ (fs = s.frames ∧ s'.current = s.current ∨
    switch ∧ fs = .setLevel true :: s.frames.modifyHead Frame.tear)

/-- The running thread is among the waiters of a semaphore. -/
def enqueued (k : SemaId) (s : State) : State := s.mapSema k fun x => {x with waiters := x.waiters ++ [s.current]}

/-- The state of `lock_acquire` when it starts to donate. -/
def wanting (l : LockId) (s : State) : State :=
  (s.setIntr false).mapThread s.current fun x => {x with waitingLock := some l}

/-- The running thread has the lock, and it is in its list. -/
def locked (l : LockId) (links : Intrusive.Links Node) (s : State) : State :=
  ({s with links := links}.mapThread s.current fun x => {x with waitingLock := none}).setHolder l (some s.current)

/-- The lock is free again, but still in the list of the thread that had it. -/
def released (l : LockId) (s : State) : State := upped (.lock l) ((s.setIntr false).setHolder l none)

/-- The frames that a running thread leaves behind when it has released a lock. -/
def Settles (rest fs : List Frame) : Prop := fs = rest ∨ ∃ on, fs = .setLevel on :: rest

inductive Deed where
  | acquire (l : LockId)
  | tryAcquire (l : LockId)
  | exit
  | tick
  | device (n : Nat)
  | other
deriving Repr, DecidableEq

/-- What a thread does when it goes on with a frame. -/
def Frame.deed : Frame → Deed
  | .lockAcquire l => .acquire l
  | .acquire l _ => .acquire l
  | _ => .other

def Call.deed : Call → Deed
  | .threadCreate _ => .acquire .pool
  | .lockAcquire n => .acquire (.user n)
  | .lockTryAcquire n => .tryAcquire (.user n)
  | .threadExit => .exit
  | _ => .other

def Act.deed (s : State) : Act → Deed
  | .call f _ => f.deed
  | .go _ => (s.frames.head?.map Frame.deed).getD .other
  | .tick => .tick
  | .device n => .device n

inductive Effect (s : State) : Deed → State → Prop where
  | quiet {d : Deed} {s' : State} {fs : List Frame} : Quiet s.frames fs → Goes fs s s' → Effect s d s'
  | setPriority {d : Deed} {s' : State} {p : Int} : s.frames = [] → s'.current = s.current →
      Goes [.calculate false, .yieldIf false] (s.mapThread s.current fun x => {x with priority := p}) s' → Effect s d s'
  | calculate {d : Deed} {s' : State} {torn : Bool} {fs : List Frame} {p : Int} : s.frames = .calculate torn :: fs →
      (torn = false → ∃ fuel, calculatePriority fuel s.pop = some p) → Goes fs (s.setEff s.current p) s' → Effect s d s'
  | wait {d : Deed} {s' : State} {k : SemaId} {f : Frame} {fs : List Frame} : f.waitsOn = some k → (s.sema k).value = 0 →
      (s.frames = f :: fs ∨ (∃ on, f = .down k on) ∧ Usable k s.frames ∧ Starts (.semaDown k) s.frames fs) →
      Goes (f :: fs) (enqueued k s) s' → Effect s d s'
  | take {d : Deed} {s' : State} {k : SemaId} {fs : List Frame} : (s.sema k).value ≠ 0 → Usable k s.frames →
      (Starts (.semaDown k) s.frames fs ∨ ∃ on, s.frames = .down k on :: fs) → Goes fs (semaTake k s) s' → Effect s d s'
  | acquireWait {s' s2 : State} {l : LockId} {n : Nat} {rest : List Frame} : StartsAcquire l s.frames rest →
      s.holder l ≠ some s.current →
      comparePriorityAndUpdate (s.eff s.current) n (s.holder l) (wanting l (s.setFrames rest)) = .ok s2 →
      donated l s2 = true → (s.sema (.lock l)).value = 0 →
      Goes (.acquire l s.intr :: rest) (enqueued (.lock l) s2) s' → Effect s (.acquire l) s'
  | acquireTake {s' s2 : State} {l : LockId} {n : Nat} {rest : List Frame} {links : Intrusive.Links Node} :
      StartsAcquire l s.frames rest → s.holder l ≠ some s.current →
      comparePriorityAndUpdate (s.eff s.current) n (s.holder l) (wanting l (s.setFrames rest)) = .ok s2 →
      (s.sema (.lock l)).value ≠ 0 → s.links.insert (.tail s.current) (.elem l) = some links →
      Goes rest (locked l links (semaTake (.lock l) s2)) s' → Effect s (.acquire l) s'
  | acquireAgain {s' : State} {l : LockId} {on : Bool} {fs : List Frame} {links : Intrusive.Links Node} :
      s.frames = .acquire l on :: fs → (s.sema (.lock l)).value ≠ 0 →
      s.links.insert (.tail s.current) (.elem l) = some links →
      Goes fs (locked l links (semaTake (.lock l) s)) s' → Effect s (.acquire l) s'
  | tryAcquire {s' : State} {l : LockId} : s.frames = [] → s.holder l ≠ some s.current →
      0 < (s.sema (.lock l)).value → Goes [.setHolder l] (semaTake (.lock l) s) s' → Effect s (.tryAcquire l) s'
  | setHolder {d : Deed} {s' : State} {l : LockId} {fs : List Frame} : s.frames = .setHolder l :: fs →
      Goes fs (s.setHolder l (some s.current)) s' → Effect s d s'
  | releaseYield {d : Deed} {s' : State} {l : LockId} {rest : List Frame} : Starts (.lockRelease l) s.frames rest →
      s.holder l = some s.current → yields (released l (s.setFrames rest)) = true →
      Goes (.unlink l s.intr :: rest) (released l (s.setFrames rest)) s' → Effect s d s'
  | releaseDone {d : Deed} {s' : State} {l : LockId} {fuel : Nat} {rest fs : List Frame}
      {links : Intrusive.Links Node} {p : Int} : Starts (.lockRelease l) s.frames rest →
      s.holder l = some s.current → yields (released l (s.setFrames rest)) = false → s.links.remove (.elem l) = some links →
      calculatePriority fuel {released l (s.setFrames rest) with links := links} = some p → Settles rest fs →
      Goes fs ({released l (s.setFrames rest) with links := links}.setEff s.current p) s' → Effect s d s'
  | unlink {d : Deed} {s' : State} {l : LockId} {on : Bool} {fuel : Nat} {rest fs : List Frame}
      {links : Intrusive.Links Node} {p : Int} : s.frames = .unlink l on :: rest → s.links.remove (.elem l) = some links →
      calculatePriority fuel {s.pop with links := links} = some p → Settles rest fs →
      Goes fs ({s.pop with links := links}.setEff s.current p) s' → Effect s d s'
  | up {d : Deed} {s' : State} {k : SemaId} {rest : List Frame} : Starts (.semaUp k) s.frames rest → Usable k s.frames →
      Goes (.yieldIf false :: rest) (upped k (s.setFrames rest)) s' → Effect s d s'
  | device {s' : State} {n : Nat} {fs : List Frame} : Interrupted (yields (upped (.user n) s) = true) s s' fs →
      Goes fs (upped (.user n) s) s' → Effect s (.device n) s'
  | condWait {d : Deed} {s' : State} {c : Nat} : s.frames = [] → s.holder (s.condLock c) = some s.current →
      Goes [.lockRelease (s.condLock c), .semaDown (.waiter s.current), .lockAcquire (s.condLock c)]
        {s.mapSema (.waiter s.current) (fun _ => ⟨0, []⟩) with
          cond := Function.update s.cond c (s.cond c ++ [s.current])} s' → Effect s d s'
  | signal {d : Deed} {s' : State} {c choice : Nat} {torn : Bool} {w : Tid} {rest : List Frame} :
      s.frames = .signal c torn :: rest → s.cond c ≠ [] → nextSemaForCond c torn choice s = some w →
      Goes (.semaUp (.waiter w) :: rest) {s with cond := Function.update s.cond c ((s.cond c).erase w)} s' → Effect s d s'
  | create {d : Deed} {s' : State} {p : Int} {t : Tid} {rest : List Frame} : s.frames = .initThread p :: rest →
      t ∉ s.allList → priMin ≤ p → p ≤ priMax →
      Goes (.lockAcquire .tid :: .lockRelease .tid :: .unblock t :: .yieldIf false :: rest) (newThread t p s) s' →
      Effect s d s'
  | exit {s' : State} : s.frames = [] → Goes [] {s with allList := s.allList.erase s.current} s' → Effect s .exit s'
  | sleep {d : Deed} {s' : State} {n : Int} : s.frames = [] →
      Goes [.pushBlock] ((s.mapThread s.current fun x => {x with targetTicks := n + s.ticks}).record
        (.sleep s.current s.ticks n)) s' → Effect s d s'
  | pushBlock {d : Deed} {s' : State} {rest : List Frame} : s.frames = .pushBlock :: rest →
      Goes (.sleeping s.intr :: rest) (listed s) s' → Effect s d s'
  | tick {s' : State} {fs : List Frame} : Interrupted (timeSlice ≤ s.threadTicks + 1) s s' fs →
      Goes fs (awoken (ticked s)) s' → Effect s .tick s'

section
variable {s s1 s' : State} {f : Frame} {fs rest : List Frame} {on : Bool} {k : SemaId} {l : LockId} {t : Tid}
  {d : Deed}

/-! ### Stacks -/

theorem setFrames_self (s : State) : s.setFrames s.frames = s := by
  simp [State.setFrames, State.mapThread, State.frames]

theorem frames_setFrames (s : State) (fs : List Frame) : (s.setFrames fs).frames = fs := by
  simp [State.setFrames, State.mapThread, State.frames]

theorem setFrames_push (s : State) (fs : List Frame) (f : Frame) : (s.setFrames fs).push f = s.setFrames (f :: fs) := by
  unfold State.push
  rw [frames_setFrames]
  simp [State.setFrames, State.mapThread]

theorem setFrames_pop (s : State) (f : Frame) (fs : List Frame) : (s.setFrames (f :: fs)).pop = s.setFrames fs := by
  unfold State.pop
  rw [frames_setFrames]
  simp [State.setFrames, State.mapThread]

theorem push_push {g : Frame} (hf : s.frames = []) : (s.push f).push g = s.setFrames [g, f] := by
  have hpush : s.push f = s.setFrames [f] := by rw [State.push, hf]
  rw [hpush, setFrames_push]

theorem pop_eq (hf : s.frames = f :: fs) : s.pop = s.setFrames fs := by
  unfold State.pop
  rw [hf]
  rfl

theorem eq_setFrames_nil (hf : s.frames = []) : s = s.setFrames [] := by
  rw [← hf, setFrames_self]

theorem goes_of_leaves (h : Moves fs false s s') : Goes fs s s' := by
  refine ⟨?_, ?_, fun _ _ _ => h.intr⟩
  · rw [h.intr]
    exact h
  · intro hi
    rw [h.intr] at hi
    cases hi

theorem goes_of_stays (h : Moves fs on s s') (hc : s'.current = s.current) (ha : Awake fs) : Goes fs s s' := by
  refine ⟨?_, fun _ => hc, ?_⟩
  · rw [h.intr]
    exact h
  · intro f hf hp
    rw [ha f hf] at hp
    cases hp

theorem awake_nil : Awake [] := by
  intro f hf
  cases hf

theorem awake_cons (hf : f.parked = false) : Awake (f :: fs) := by
  intro g hg
  cases hg
  exact hf

theorem Calls.awake (h : Calls fs) : Awake fs := by
  rcases h with rfl | ⟨c, rest, rfl⟩
  · exact awake_nil
  · exact awake_cons rfl

/-- Below the top frame no frame is parked. -/
theorem Masked.awake_below (h : Masked s) (hl : s.current ∈ s.allList) (hf : s.frames = f :: fs) : Awake fs := by
  intro g hg
  apply h.below _ hl
  have hfr : (s.thread s.current).frames = f :: fs := hf
  rw [hfr]
  exact List.mem_of_head? hg

theorem Masked.awake (h : Masked s) (hi : s.intr = true) : Awake s.frames := by
  intro f hf
  by_contra hp
  rw [h.top f hf (eq_true_of_ne_false hp)] at hi
  cases hi

/-! ### Semaphores -/

/-- Waiting with the stack `fs`. -/
theorem semaWait_goes (s : State) (k : SemaId) (fs : List Frame) :
    Goes fs (enqueued k s) (semaWait k ((s.setFrames fs).setIntr false)) :=
  goes_of_leaves (((moves_setFrames (enqueued k s) fs).setIntr false).threadBlock)

/-- Taking a unit and going on with the stack `fs`. -/
theorem semaTake_goes (ha : Awake fs) (f : Frame) (b on : Bool) :
    Goes fs (semaTake k s) ((semaTake k ((s.setFrames (f :: fs)).setIntr b)).pop.setIntr on) := by
  have heq : (semaTake k ((s.setFrames (f :: fs)).setIntr b)).pop = ((semaTake k s).setFrames fs).setIntr b :=
    congrArg (State.setIntr · b) (setFrames_pop (semaTake k s) f fs)
  rw [heq]
  exact goes_of_stays (((moves_setFrames (semaTake k s) fs).setIntr b).setIntr on) rfl ha

theorem downLoop_effect (hf : s.frames = .down k on :: fs) (ha : Awake fs) (hi : s.intr = false)
    (hk : Usable k s.frames) : Effect s d (downLoop k on s) := by
  have hs : s = (s.setFrames (.down k on :: fs)).setIntr false := by
    rw [← hf, setFrames_self, ← hi]
    rfl
  unfold downLoop
  split
  · refine .wait (f := .down k on) rfl ‹_› (.inl hf) ?_
    have := semaWait_goes s k (.down k on :: fs)
    rwa [← hs] at this
  · refine .take ‹_› hk (.inr ⟨on, hf⟩) ?_
    have := semaTake_goes (s := s) (k := k) ha (.down k on) false on
    rwa [← hs] at this

theorem semaDown_effect (hst : Starts (.semaDown k) s.frames rest) (ha : Awake rest) (hk : Usable k s.frames) :
    Effect s d (semaDown k (s.setFrames rest)) := by
  unfold semaDown downLoop
  rw [setFrames_push]
  split
  · exact .wait rfl ‹_› (.inr ⟨⟨_, rfl⟩, hk, hst⟩) (semaWait_goes s k _)
  · exact .take ‹_› hk (.inl hst) (semaTake_goes ha _ _ _)

theorem frames_upped (k : SemaId) (s : State) : (upped k s).frames = s.frames := by
  unfold State.frames upped
  simp only
  split <;> rfl

theorem semaUp_effect (ht : Tidy (s.setFrames rest)) (hst : Starts (.semaUp k) s.frames rest) (hk : Usable k s.frames) :
    Gives (semaUp k (s.setFrames rest)) (Effect s d) fun _ => True := by
  unfold semaUp
  simp only [ht.semaUpValue, gives_bind, gives_ok, gives_pure]
  have hm := moves_push (upped k (s.setFrames rest)) (.yieldIf false)
  rw [frames_upped, frames_setFrames] at hm
  exact .up hst hk (goes_of_stays hm rfl (awake_cons rfl))

/-! ### Locks -/

theorem locked_setFrames (l : LockId) (links : Intrusive.Links Node) (s : State) (fs : List Frame) (b : Bool) :
    locked l links ((s.setFrames fs).setIntr b) = ((locked l links s).setFrames fs).setIntr b := by
  simp [locked, State.setFrames, State.mapThread, State.setIntr, State.setHolder]

theorem lockTake_goes (ha : Awake fs) (f : Frame) (on : Bool) (b : Bool)
    (h : ∀ links, s.links.insert (.tail s.current) (.elem l) = some links →
      ∀ s', Goes fs (locked l links (semaTake (.lock l) s)) s' → Effect s1 d s') :
    Gives (lockTake l on (semaTake (.lock l) ((s.setFrames (f :: fs)).setIntr b)).pop) (Effect s1 d) fun _ => True := by
  have heq : (semaTake (.lock l) ((s.setFrames (f :: fs)).setIntr b)).pop =
      ((semaTake (.lock l) s).setFrames fs).setIntr b :=
    congrArg (State.setIntr · b) (setFrames_pop (semaTake (.lock l) s) f fs)
  rw [heq]
  apply gives_lockTake fun _ _ => trivial
  intro links hl
  apply h links hl
  show Goes _ _ ((locked l links (((semaTake (.lock l) s).setFrames fs).setIntr b)).setIntr on)
  rw [locked_setFrames]
  exact goes_of_stays ((moves_setFrames _ fs).setIntr on) rfl ha

theorem acquireLoop_effect (hf : s.frames = .acquire l on :: fs) (ha : Awake fs) (hi : s.intr = false) :
    Gives (acquireLoop l on s) (Effect s (.acquire l)) fun _ => True := by
  have hs : s = (s.setFrames (.acquire l on :: fs)).setIntr false := by
    rw [← hf, setFrames_self, ← hi]
    rfl
  apply gives_acquireLoop
  · intro hv
    refine .wait (f := .acquire l on) rfl hv (.inl hf) ?_
    have hg := semaWait_goes s (.lock l) (.acquire l on :: fs)
    rwa [← hs] at hg
  · intro hv
    have hg := lockTake_goes (s := s) (l := l) ha (.acquire l on) on false
      fun links hl s' hg => Effect.acquireAgain hf hv hl hg
    rwa [← hs] at hg

theorem setIntr_self (h : s.intr = on) : s.setIntr on = s := by
  subst h
  rfl

theorem Raised.frames (hr : Raised s s1) : s1.frames = s.frames := by
  obtain ⟨eff, rfl⟩ := hr
  rfl

theorem Raised.intr (hr : Raised s s1) : s1.intr = s.intr := by
  obtain ⟨eff, rfl⟩ := hr
  rfl

theorem frames_wanting (l : LockId) (s : State) : (wanting l s).frames = s.frames := by
  simp [wanting, State.frames, State.mapThread, State.setIntr]

theorem lockAcquire_effect (hst : StartsAcquire l s.frames rest) (ha : Awake rest) (n : Nat) :
    Gives (lockAcquire l n (s.setFrames rest)) (Effect s (.acquire l)) fun _ => True := by
  apply gives_lockAcquire fun _ _ => trivial
  intro hh s1
  have heff : (s.setFrames rest).eff (s.setFrames rest).current = s.eff s.current :=
    (moves_setFrames s rest).eff _
  rw [heff]
  show Gives (comparePriorityAndUpdate _ _ (s.holder l) _) _ _
  have hraised := comparePriorityAndUpdate_raised (s.eff s.current) n (s.holder l) s1
  cases hx : comparePriorityAndUpdate (s.eff s.current) n (s.holder l) s1 with
  | error e => trivial
  | ok s2 =>
    rw [hx, gives_ok] at hraised
    rw [gives_ok]
    intro hd
    -- the donation has left everything but priorities, interrupts are off
    have hsema : s2.sema = s.sema := by
      obtain ⟨eff, rfl⟩ := hraised
      rfl
    have hlinks : s2.links = s.links ∧ s2.current = s.current := by
      obtain ⟨eff, rfl⟩ := hraised
      exact ⟨rfl, rfl⟩
    have hpush : s2.push (.acquire l s.intr) = (s2.setFrames (.acquire l s.intr :: rest)).setIntr false := by
      have hframes : s2.frames = rest := by
        rw [hraised.frames]
        exact (frames_wanting l _).trans (frames_setFrames s rest)
      have hintr : (s2.setFrames (.acquire l s.intr :: rest)).intr = false := hraised.intr
      rw [setIntr_self hintr, State.push, hframes]
    show Gives (acquireLoop l s.intr (s2.push (.acquire l s.intr))) _ _
    rw [hpush]
    apply gives_acquireLoop
    · intro hv
      have hv : (s2.sema (.lock l)).value = 0 := hv
      rw [hsema] at hv
      exact .acquireWait hst hh hx hd hv (semaWait_goes s2 _ _)
    · intro hv
      have hv : (s2.sema (.lock l)).value ≠ 0 := hv
      rw [hsema] at hv
      apply lockTake_goes ha
      intro links hl s' hg
      rw [hlinks.1, hlinks.2] at hl
      exact .acquireTake hst hh hx hv hl hg

/-- A yield from code that runs with interrupts off. -/
theorem yieldNow_goes (hi : s.intr = false) (hf : s.frames = rest) (f : Frame) :
    Goes (f :: rest) s (yieldNow (s.push f)) := by
  have hm := (moves_push s f).yieldNow
  rw [hi, hf] at hm
  exact goes_of_leaves hm

theorem setIntr_goes (hf : s.frames = rest) (ha : Awake rest) (on : Bool) : Goes rest s (s.setIntr on) := by
  have hm := (moves_refl s).setIntr on
  rw [hf] at hm
  exact goes_of_stays hm rfl ha

theorem lockUnlink_goes {fuel : Nat} (ha : Awake rest) (hf : s.frames = rest) (hi : s.intr = false)
    (h : ∀ links p fs, s.links.remove (.elem l) = some links →
      calculatePriority fuel {s with links := links} = some p → Settles rest fs →
      ∀ s', Goes fs ({s with links := links}.setEff s.current p) s' → Effect s1 d s') :
    Gives (lockUnlink l on fuel s) (Effect s1 d) fun _ => True := by
  apply gives_lockUnlink fun _ _ => trivial
  intro links p hl hp s2
  have hframes : s2.frames = rest := by
    rw [← hf]
    simp [s2, State.setEff, State.mapThread, State.frames]
  constructor
  · intro _
    have hi2 : s2.intr = false := hi
    exact h links p _ hl hp (.inr ⟨on, rfl⟩) _ (yieldNow_goes hi2 hframes _)
  · intro _
    exact h links p _ hl hp (.inl rfl) _ (setIntr_goes hframes ha on)

theorem lockRelease_effect (ht : Tidy (s.setFrames rest)) (hst : Starts (.lockRelease l) s.frames rest) (ha : Awake rest)
    (fuel : Nat) : Gives (lockRelease l fuel (s.setFrames rest)) (Effect s d) fun _ => True := by
  apply gives_lockRelease (fun _ _ => trivial) fun t hm => ((ht.waiters _ t).mp hm).2.1
  intro hh
  have hframes : (released l (s.setFrames rest)).frames = rest :=
    (frames_upped _ _).trans (frames_setFrames s rest)
  constructor
  · intro hy
    exact .releaseYield hst hh hy (yieldNow_goes rfl hframes _)
  · intro hy
    apply lockUnlink_goes ha hframes rfl
    intro links p fs hl hp hs s' hg
    exact .releaseDone hst hh hy hl hp hs hg

theorem unlink_effect {fuel : Nat} (hf : s.frames = .unlink l on :: rest) (ha : Awake rest) (hi : s.intr = false) :
    Gives (lockUnlink l on fuel s.pop) (Effect s d) fun _ => True := by
  have hframes : s.pop.frames = rest := by
    rw [pop_eq hf, frames_setFrames]
  apply lockUnlink_goes ha hframes hi
  intro links p fs hl hp hs s' hg
  exact .unlink hf hl hp hs hg

/-! ### Acts -/

theorem threadYield_goes (s : State) : Goes (.setLevel s.intr :: s.frames) s (threadYield s) :=
  goes_of_leaves (moves_threadYield s)

theorem push_goes (hf : f.parked = false) : Goes (f :: s.frames) s (s.push f) :=
  goes_of_stays (moves_push s f) rfl (awake_cons hf)

theorem startCall_effect (ht : Tidy s) (hf : s.frames = []) (choice : Int) (g : Call) :
    Gives (startCall choice s g) (Effect s g.deed) fun _ => True := by
  have hnil := eq_setFrames_nil hf
  have hcalls : Calls s.frames := .inl hf
  have hsame : ∀ {s1 : State}, s1.frames = [] → Goes [] s1 s1 := by
    intro s1 hf1
    have hm := moves_refl s1
    rw [hf1] at hm
    exact goes_of_stays hm rfl awake_nil
  cases g with
  | threadCreate p =>
    show Gives (lockAcquire _ _ ((s.push (.initThread p)).push (.lockRelease .pool))) _ _
    rw [push_push hf]
    exact lockAcquire_effect (.inr ⟨hf, p, rfl, rfl⟩) (awake_cons rfl) _
  | threadYield => exact .quiet (.push rfl rfl hcalls) (threadYield_goes s)
  | threadExit =>
    have hm : Moves s.frames false {s with allList := s.allList.erase s.current} (threadExit s) :=
      (((moves_refl {s with allList := s.allList.erase s.current}).setIntr false).setStatus _ _).schedule
    rw [hf] at hm
    exact .exit hf (goes_of_leaves hm)
  | threadSetPriority p =>
    have hf1 : (s.mapThread s.current fun x => {x with priority := p}).frames = [] := by
      have hf : (s.thread s.current).frames = [] := hf
      simp [State.frames, State.mapThread, hf]
    show Effect s _ (((s.mapThread s.current fun x => {x with priority := p}).push _).push _)
    rw [push_push hf1]
    exact .setPriority hf rfl (goes_of_stays (moves_setFrames _ _) rfl (awake_cons rfl))
  | semaDown n =>
    have he := semaDown_effect (k := .user n) (s := s) (d := .other) (.inl ⟨hf, rfl⟩) awake_nil (by simp [Usable])
    rwa [← hnil] at he
  | semaTryDown n =>
    show Effect s _ (semaTryDown _ s)
    unfold semaTryDown
    split
    · have hv : (s.sema (.user n)).value ≠ 0 := by omega
      exact .take hv (by simp [Usable]) (.inl (.inl ⟨hf, rfl⟩)) (hsame hf)
    · exact .quiet (hf ▸ .same) (hsame hf)
  | semaUp n =>
    have he := semaUp_effect (k := .user n) (d := .other) (hnil ▸ ht) (.inl ⟨hf, rfl⟩) (by simp [Usable])
    rwa [← hnil] at he
  | lockAcquire n =>
    have he := lockAcquire_effect (l := .user n) (s := s) (.inl (.inl ⟨hf, rfl⟩)) awake_nil choice.toNat
    rwa [← hnil] at he
  | lockTryAcquire n =>
    apply gives_lockTryAcquire fun _ _ => trivial
    · intro hh hv
      have hm := moves_push (semaTake (.lock (.user n)) s) (.setHolder (.user n))
      have hf1 : (semaTake (.lock (.user n)) s).frames = [] := hf
      rw [hf1] at hm
      exact .tryAcquire hf hh hv (goes_of_stays hm rfl (awake_cons rfl))
    · intro _
      exact .quiet (hf ▸ .same) (hsame hf)
  | lockRelease n =>
    have he := lockRelease_effect (l := .user n) (d := .other) (hnil ▸ ht) (.inl ⟨hf, rfl⟩) awake_nil choice.toNat
    rwa [← hnil] at he
  | condWait c =>
    apply gives_condWait fun _ _ => trivial
    intro hh s1
    have hf1 : {s1 with cond := Function.update s.cond c (s.cond c ++ [s.current])}.frames = [] := hf
    have hpush : (({s1 with cond := Function.update s.cond c (s.cond c ++ [s.current])}.push
        (.lockAcquire (s.condLock c))).push (.semaDown (.waiter s.current))).push (.lockRelease (s.condLock c)) =
        {s1 with cond := Function.update s.cond c (s.cond c ++ [s.current])}.setFrames
          [.lockRelease (s.condLock c), .semaDown (.waiter s.current), .lockAcquire (s.condLock c)] := by
      rw [push_push hf1, setFrames_push]
    show Effect s _ ((({s1 with cond := Function.update s.cond c (s.cond c ++ [s.current])}.push
        (.lockAcquire (s.condLock c))).push (.semaDown (.waiter s.current))).push (.lockRelease (s.condLock c)))
    rw [hpush]
    exact .condWait hf hh (goes_of_stays (moves_setFrames _ _) rfl (awake_cons rfl))
  | condSignal c =>
    simp only [startCall]
    split
    · exact .quiet (.push rfl rfl hcalls) (push_goes rfl)
    · trivial
  | condBroadcast c => exact .quiet (.push rfl rfl hcalls) (push_goes rfl)
  | timerSleep n =>
    have hm := moves_push ((s.mapThread s.current fun x => {x with targetTicks := n + s.ticks}).record
      (.sleep s.current s.ticks n)) .pushBlock
    have hf1 : ((s.mapThread s.current fun x => {x with targetTicks := n + s.ticks}).record
        (.sleep s.current s.ticks n)).frames = [] := by
      have hf : (s.thread s.current).frames = [] := hf
      simp [State.frames, State.mapThread, State.record, hf]
    rw [hf1] at hm
    exact .sleep hf (goes_of_stays hm rfl (awake_cons rfl))

theorem newThread_setFrames (h : t ≠ s.current) (p : Int) :
    newThread t p (s.setFrames fs) = (newThread t p s).setFrames fs := by
  simp only [newThread, State.setFrames, State.mapThread]
  congr 1
  rw [Function.update_of_ne (Ne.symm h), Function.update_comm h]

theorem setEff_setFrames (p : Int) :
    (s.setFrames fs).setEff s.current p = (s.setEff s.current p).setFrames fs := by
  simp [State.setFrames, State.setEff, State.mapThread]

/-- The frame on top goes and interrupts are set. -/
theorem pop_goes (hf : s.frames = f :: fs) (ha : Awake fs) (on : Bool) : Goes fs s (s.pop.setIntr on) := by
  rw [pop_eq hf]
  exact goes_of_stays ((moves_setFrames s fs).setIntr on) rfl ha

theorem pop_goes' (hf : s.frames = f :: fs) (ha : Awake fs) : Goes fs s s.pop := by
  rw [pop_eq hf]
  exact goes_of_stays (moves_setFrames s fs) rfl ha

theorem resume_effect (ht : Tidy s) (hm : Masked s) (hf : s.frames = f :: fs) (choice : Int) :
    Gives (resume choice s f) (Effect s f.deed) fun _ => True := by
  have ha : Awake fs := hm.awake_below ht.live hf
  have hpop := pop_eq hf
  have hoff : f.parked = true → s.intr = false := hm.top f (by rw [hf]; rfl)
  cases f with
  | setLevel on | sleeping on => exact .quiet (hf ▸ .pop rfl) (pop_goes hf ha on)
  | kernelThread => exact .quiet (hf ▸ .pop rfl) (pop_goes hf ha true)
  | idleHalt =>
    have hq : Quiet s.frames (.idleBlock :: fs) := hf ▸ .swap rfl rfl rfl
    refine .quiet hq ?_
    show Goes _ _ ((s.pop.push .idleBlock).setIntr true)
    rw [hpop, setFrames_push]
    exact goes_of_stays ((moves_setFrames s _).setIntr true) rfl (awake_cons rfl)
  | idleBlock =>
    have hq : Quiet s.frames (.idleHalt :: fs) := hf ▸ .swap rfl rfl rfl
    refine .quiet hq ?_
    show Goes _ _ (threadBlock ((s.pop.push .idleHalt).setIntr false))
    rw [hpop, setFrames_push]
    exact goes_of_leaves ((moves_setFrames s _).setIntr false).threadBlock
  | yieldIf torn =>
    apply yieldIf_cases (Q := fun s' => Gives (.ok s') (Effect s _) _)
    · have hq : Quiet s.frames (.setLevel s.intr :: fs) := hf ▸ .swap rfl rfl rfl
      refine .quiet hq ?_
      have hy := moves_threadYield s.pop
      rw [hpop, frames_setFrames] at hy
      rw [hpop]
      exact goes_of_leaves ((moves_setFrames s fs).trans rfl hy)
    · intro _
      exact .quiet (hf ▸ .pop rfl) (pop_goes' hf ha)
  | unblock t =>
    apply gives_threadUnblock trivial
    intro _
    have hm : Moves fs s.intr s s.pop := by
      rw [hpop]
      exact moves_setFrames s fs
    have hq : Quiet s.frames fs := hf ▸ .pop rfl
    exact .quiet hq (goes_of_stays ((hm.ready _).setStatus t .ready) rfl ha)
  | initThread p =>
    apply gives_createThread fun _ _ => trivial
    · intro _
      exact .quiet (hf ▸ .pop rfl) (pop_goes' hf ha)
    · intro hl hlo hhi
      have htc : choice.toNat ≠ s.current := fun e => hl (e ▸ ht.live)
      rw [hpop, newThread_setFrames htc]
      simp only [setFrames_push]
      exact .create hf hl hlo hhi (goes_of_stays (moves_setFrames _ _) rfl (awake_cons rfl))
  | signal c torn =>
    apply gives_condSignal fun _ _ => trivial
    · intro _
      exact .quiet (hf ▸ .pop rfl) (pop_goes' hf ha)
    · intro w hc hw
      have hcond : {s with cond := Function.update s.cond c ((s.cond c).erase w)}.pop =
          {s with cond := Function.update s.cond c ((s.cond c).erase w)}.setFrames fs := pop_eq hf
      rw [hcond, setFrames_push]
      exact .signal hf hc hw (goes_of_stays (moves_setFrames _ _) rfl (awake_cons rfl))
  | broadcast c =>
    apply gives_condBroadcast fun _ _ => trivial
    · intro _
      exact .quiet (hf ▸ .pop rfl) (pop_goes' hf ha)
    · intro _ _
      exact .quiet (.push rfl rfl (.inr ⟨_, _, hf⟩)) (push_goes rfl)
  | calculate torn =>
    have hg : ∀ p, Goes fs (s.setEff s.current p) (s.pop.setEff s.current p) := by
      intro p
      rw [hpop, setEff_setFrames]
      exact goes_of_stays (moves_setFrames _ fs) rfl ha
    apply gives_calculate fun _ _ => trivial
    · intro htorn
      exact .calculate hf (fun h => by rw [htorn] at h; cases h) (hg _)
    · intro p _ hp
      exact .calculate hf (fun _ => ⟨_, hp⟩) (hg p)
  | setHolder l =>
    refine .setHolder hf ?_
    show Goes _ _ (s.pop.setHolder l (some s.current))
    rw [hpop]
    exact goes_of_stays (moves_setFrames (s.setHolder l (some s.current)) fs) rfl ha
  | pushBlock =>
    have hlisted : listed (s.setFrames fs) = (listed s).setFrames fs := by
      unfold listed
      rw [cmpTargetTicks_congr (moves_setFrames s fs).targetTicks]
      rfl
    have hm := moves_threadPushBlock (s.setFrames fs)
    rw [hlisted, frames_setFrames] at hm
    refine .pushBlock hf (goes_of_leaves ?_)
    rw [hpop]
    exact (moves_setFrames (listed s) fs).trans rfl hm
  | down k on =>
    have hk := ht.owned_frames (.down k on) (by simp [hf])
    exact downLoop_effect hf ha (hoff rfl) ⟨fun l => (hk l 0).1, by simp [hf]⟩
  | acquire l on => exact acquireLoop_effect hf ha (hoff rfl)
  | unlink l on => exact unlink_effect hf ha (hoff rfl)
  | semaDown k =>
    have hk := ht.owned_frames (.semaDown k) (by simp [hf])
    show Effect s _ (semaDown k s.pop)
    rw [hpop]
    exact semaDown_effect (.inr hf) ha ⟨fun l => (hk l 0).1, by simp [hf]⟩
  | semaUp k =>
    have hk := ht.owned_frames (.semaUp k) (by simp [hf])
    have htp := ht.pop (ht.not_idle hf rfl)
    show Gives (semaUp k s.pop) _ _
    rw [hpop] at htp ⊢
    exact semaUp_effect htp (.inr hf) ⟨hk, by simp [hf]⟩
  | lockAcquire l =>
    show Gives (lockAcquire l _ s.pop) _ _
    rw [hpop]
    exact lockAcquire_effect (.inl (.inr hf)) ha _
  | lockRelease l =>
    have htp := ht.pop (ht.not_idle hf rfl)
    show Gives (lockRelease l _ s.pop) _ _
    rw [hpop] at htp ⊢
    exact lockRelease_effect htp (.inr hf) ha _

theorem preempt_goes (s : State) : Goes (.setLevel true :: s.frames.modifyHead Frame.tear) s (preempt s) :=
  goes_of_leaves (moves_preempt s)

theorem refl_goes (ha : Awake s.frames) : Goes s.frames s s := goes_of_stays (moves_refl s) rfl ha

theorem frames_awoken (s : State) : (awoken s).frames = s.frames := by
  unfold State.frames awoken popped
  simp only
  split <;> rfl

theorem timerInterrupt_effect (ht : Tidy s) (hm : Masked s) (hi : s.intr = true) :
    Gives (timerInterrupt s) (Effect s .tick) fun _ => True := by
  have ha := hm.awake hi
  have hframes : (awoken (ticked s)).frames = s.frames := frames_awoken (ticked s)
  rw [ht.timerInterrupt, gives_ok]
  split
  · have hg := preempt_goes (awoken (ticked s))
    rw [hframes] at hg
    exact .tick ⟨ha, .inr ⟨‹_›, rfl⟩⟩ hg
  · have hg := refl_goes (s := awoken (ticked s)) (hframes ▸ ha)
    rw [hframes] at hg
    exact .tick ⟨ha, .inl ⟨rfl, rfl⟩⟩ hg

theorem deviceInterrupt_effect (ht : Tidy s) (hm : Masked s) (hi : s.intr = true) (n : Nat) :
    Gives (deviceInterrupt n s) (Effect s (.device n)) fun _ => True := by
  have ha := hm.awake hi
  have hframes := frames_upped (.user n) s
  unfold deviceInterrupt
  simp only [ht.semaUpValue, gives_bind, gives_ok, gives_pure]
  split
  · have hg := preempt_goes (upped (.user n) s)
    rw [hframes] at hg
    exact .device ⟨ha, .inr ⟨‹_›, rfl⟩⟩ hg
  · have hg := refl_goes (s := upped (.user n) s) (hframes ▸ ha)
    rw [hframes] at hg
    exact .device ⟨ha, .inl ⟨rfl, rfl⟩⟩ hg

theorem step_effect (ht : Tidy s) (hm : Masked s) {a : Act} (ha : a.Enabled s) :
    Gives (a.step s) (Effect s (a.deed s)) fun _ => True := by
  apply gives_step ha
  · rintro g choice rfl _ hf
    exact startCall_effect ht hf choice g
  · rintro choice f fs rfl hf
    have hdeed : (Act.go choice).deed s = f.deed := by simp [Act.deed, hf]
    rw [hdeed]
    exact resume_effect ht hm hf choice
  · rintro rfl hi
    exact timerInterrupt_effect ht hm hi
  · rintro n rfl hi
    exact deviceInterrupt_effect ht hm hi n

end

end Pintos.Threads
