import Pintos.Library.Runs
import Pintos.Threads.Synch

/-! The machine: threads calling the kernel, and interrupts.

The running thread's own code, met with an empty stack, may call any function; otherwise the
thread goes on with the frame on top of its stack. With interrupts on the timer or a device
may interrupt it at any point. Each act is one step, from a point where the running thread
can be interrupted or switched away from to the next. -/
namespace Pintos.Threads
open Outcome

/-! ### Calls -/

inductive Call where
  | threadCreate (priority : Int)
  | threadYield
  | threadExit
  | threadSetPriority (priority : Int)
  | semaDown (n : Nat)
  | semaTryDown (n : Nat)
  | semaUp (n : Nat)
  | lockAcquire (n : Nat)
  | lockTryAcquire (n : Nat)
  | lockRelease (n : Nat)
  | condWait (c : Nat)
  | condSignal (c : Nat)
  | condBroadcast (c : Nat)
  | timerSleep (n : Int)
deriving Repr, DecidableEq

/-- A call up to the first point where its thread can lose the processor. `choice` settles
what the model leaves open: how deep a recursion may go and how long a loop may run. -/
def startCall (choice : Int) (s : State) : Call → Except Panic State
  | .threadCreate p => lockAcquire .pool choice.toNat ((s.push (.initThread p)).push (.lockRelease .pool))
  | .threadYield => .ok (threadYield s)
  | .threadExit => .ok (threadExit s)
  | .threadSetPriority p =>
    .ok (((s.mapThread s.current fun x => {x with priority := p}).push (.yieldIf false)).push (.calculate false))
  | .semaDown n => .ok (semaDown (.user n) s)
  | .semaTryDown n => .ok (semaTryDown (.user n) s)
  | .semaUp n => semaUp (.user n) s
  | .lockAcquire n => lockAcquire (.user n) choice.toNat s
  | .lockTryAcquire n => lockTryAcquire (.user n) s
  | .lockRelease n => lockRelease (.user n) choice.toNat s
  | .condWait c => condWait c s
  | .condSignal c =>
    if s.holder (s.condLock c) = some s.current then .ok (s.push (.signal c false)) else .error .lockNotHeld
  | .condBroadcast c => .ok (s.push (.broadcast c))
  | .timerSleep n => .ok (timerSleep n s)

/-! ### Going on -/

/-- `thread_yield_if_necessery`. A scan torn by a switch may have seen anything. -/
def yieldIf (torn : Bool) (choice : Int) (s : State) : State :=
  if (if torn then decide (choice ≠ 0) else yields s) then threadYield s else s

theorem yieldIf_cases {torn : Bool} {choice : Int} {s : State} {Q : State → Prop} (hyield : Q (threadYield s))
    (hstay : (torn = false → yields s = false) → Q s) : Q (yieldIf torn choice s) := by
  unfold yieldIf
  cases torn with
  | true =>
    grind
  | false =>
    cases hy : yields s with
    | true => simpa using hyield
    | false => simpa using hstay fun _ => hy

/-- `calculate_priority_and_yield` up to the store. A walk torn by a switch may have seen
anything. -/
def calculate (torn : Bool) (choice : Int) (s : State) : Except Panic State :=
  if torn then .ok (s.setEff s.current choice)
  else match calculatePriority choice.toNat s with
    | none => .error .diverges
    | some p => .ok (s.setEff s.current p)

/-- A new thread, on page `t`. -/
def newThread (t : Tid) (priority : Int) (s : State) : State :=
  let fresh : Thread := ⟨.blocked, priority, priority, none, 0, [.kernelThread]⟩
  {s with
    thread := Function.update s.thread t fresh
    allList := s.allList ++ [t]
    links := s.links.init (.head t) (.tail t)}

/-- `thread_create` from `palloc_get_page` on. A page in use stands for a failed request. -/
def createThread (priority : Int) (t : Tid) (s : State) : Except Panic State :=
  if t ∈ s.allList then .ok s
  else if priority < priMin ∨ priMax < priority then .error .priorityRange
  else .ok (((((newThread t priority s).push (.yieldIf false)).push (.unblock t)).push (.lockRelease .tid)).push
    (.lockAcquire .tid))

section Rules

variable {s : State} {choice : Int} {Q : State → Prop} {E : Panic → Prop} (hE : ∀ e, e ≠ .notBlocked → E e)
include hE

theorem gives_calculate {torn : Bool} (htorn : torn = true → Q (s.setEff s.current choice))
    (h : ∀ p, torn = false → calculatePriority choice.toNat s = some p → Q (s.setEff s.current p)) :
    Gives (calculate torn choice s) Q E := by
  unfold calculate
  split
  · exact htorn ‹_›
  · rename_i ht
    split
    · exact hE _ (by decide)
    · exact h _ (eq_false_of_ne_true ht) ‹_›

theorem gives_createThread {priority : Int} {t : Tid} (hused : t ∈ s.allList → Q s)
    (h : t ∉ s.allList → priMin ≤ priority → priority ≤ priMax →
      Q (((((newThread t priority s).push (.yieldIf false)).push (.unblock t)).push (.lockRelease .tid)).push
        (.lockAcquire .tid))) :
    Gives (createThread priority t s) Q E := by
  unfold createThread
  split
  · exact hused ‹_›
  · split
    · exact hE _ (by decide)
    · rename_i hp
      rw [not_or, not_lt, not_lt] at hp
      exact h ‹_› hp.1 hp.2

end Rules

/-- The running thread goes on with the frame on top of its stack. -/
def resume (choice : Int) (s : State) : Frame → Except Panic State
  | .setLevel on => .ok (s.pop.setIntr on)
  | .kernelThread => .ok (s.pop.setIntr true)
  | .down k on => .ok (downLoop k on s)
  | .acquire l on => acquireLoop l on s
  | .unlink l on => lockUnlink l on choice.toNat s.pop
  | .setHolder l => .ok (s.pop.setHolder l (some s.current))
  | .yieldIf torn => .ok (yieldIf torn choice s.pop)
  | .calculate torn => calculate torn choice s.pop
  | .pushBlock => .ok (threadPushBlock s.pop)
  | .sleeping on => .ok (s.pop.setIntr on)
  | .initThread p => createThread p choice.toNat s.pop
  | .unblock t => threadUnblock t s.pop
  | .signal c torn => condSignal c torn choice.toNat s
  | .broadcast c => condBroadcast c s
  | .semaDown k => .ok (semaDown k s.pop)
  | .semaUp k => semaUp k s.pop
  | .lockAcquire l => lockAcquire l choice.toNat s.pop
  | .lockRelease l => lockRelease l choice.toNat s.pop
  | .idleBlock => .ok (threadBlock ((s.pop.push .idleHalt).setIntr false))
  | .idleHalt => .ok ((s.pop.push .idleBlock).setIntr true)

/-! ### Interrupts -/

/-- A scan in progress is torn. -/
def Frame.tear : Frame → Frame
  | .yieldIf _ => .yieldIf true
  | .calculate _ => .calculate true
  | .signal c _ => .signal c true
  | f => f

/-- `thread_yield` at the end of an interrupt. -/
def preempt (s : State) : State :=
  yieldNow (((s.setFrames (s.frames.modifyHead Frame.tear)).push (.setLevel true)).setIntr false)

/-- `timer_interrupt`, with `thread_tick` and the yield on return. -/
def timerInterrupt (s : State) : Except Panic State := do
  let s := {s with ticks := s.ticks + 1, threadTicks := s.threadTicks + 1}.record .tick
  let s ← threadPopUnblock s.sleepThreadsList s
  return if timeSlice ≤ s.threadTicks then preempt s else s

/-- One more tick. -/
def ticked (s : State) : State := {s with ticks := s.ticks + 1, threadTicks := s.threadTicks + 1}.record .tick

theorem timerInterrupt_eq {s : State} (hn : s.sleepThreadsList.Nodup)
    (hb : ∀ t ∈ s.sleepThreadsList, (s.thread t).status = .blocked) :
    timerInterrupt s =
      .ok (if timeSlice ≤ s.threadTicks + 1 then preempt (awoken (ticked s)) else awoken (ticked s)) := by
  have hpop : threadPopUnblock (ticked s).sleepThreadsList (ticked s) = .ok (awoken (ticked s)) :=
    threadPopUnblock_eq _ (ticked s) rfl hn hb
  unfold ticked at hpop
  simp only [timerInterrupt, hpop]
  rfl

/-- The interrupt of a device whose handler ups a semaphore. -/
def deviceInterrupt (n : Nat) (s : State) : Except Panic State := do
  let s ← semaUpValue (.user n) s
  return if yields s then preempt s else s

/-! ### Acts and runs -/

inductive Act where
  | call (f : Call) (choice : Int)
  | go (choice : Int)
  | tick
  | device (n : Nat)
deriving Repr, DecidableEq

/-- When an act can happen. -/
def Act.Enabled (s : State) : Act → Prop
  | .call _ _ => s.intr = true ∧ s.frames = []
  | .go _ => s.frames ≠ []
  | .tick => s.intr = true
  | .device _ => s.intr = true

instance (s : State) (a : Act) : Decidable (a.Enabled s) := by
  cases a <;> unfold Act.Enabled <;> infer_instance

def Act.step (s : State) : Act → Except Panic State
  | .call f choice => startCall choice s f
  | .go choice =>
    match s.frames with
    | [] => .error .noFrame
    | f :: _ => resume choice s f
  | .tick => timerInterrupt s
  | .device n => deviceInterrupt n s

/-- An act is the start of a call, a frame that goes on, or an interrupt. -/
theorem gives_step {s : State} {a : Act} {Q : State → Prop} {E : Panic → Prop} (ha : a.Enabled s)
    (hcall : ∀ f choice, a = .call f choice → s.intr = true → s.frames = [] → Gives (startCall choice s f) Q E)
    (hgo : ∀ choice f fs, a = .go choice → s.frames = f :: fs → Gives (resume choice s f) Q E)
    (htick : a = .tick → s.intr = true → Gives (timerInterrupt s) Q E)
    (hdevice : ∀ n, a = .device n → s.intr = true → Gives (deviceInterrupt n s) Q E) : Gives (a.step s) Q E := by
  cases a with
  | call f choice => exact hcall f choice rfl ha.1 ha.2
  | go choice =>
    obtain ⟨f, fs, hf⟩ := List.exists_cons_of_ne_nil ha
    have hstep : (Act.go choice).step s = resume choice s f := by
      simp [Act.step, hf]
    rw [hstep]
    exact hgo choice f fs rfl hf
  | tick => exact htick rfl ha
  | device n => exact hdevice n rfl ha

/-- Nothing is protected: any state may follow. -/
def Anyhow (_ _ : State) : Prop := True

instance : Std.Refl Anyhow := ⟨fun _ => trivial⟩
instance : IsTrans State Anyhow := ⟨fun _ _ _ _ _ => trivial⟩

def Act.exec (a : Act) : Prog Anyhow Panic Unit where
  run := fun s =>
    match a.step s with
    | .ok s' => .ok () s'
    | .error e => .error e s
  within := fun _ => trivial

/-- The state `thread_start` leaves: the main thread runs, the idle thread has yielded to it in its `sema_up` and is
ready, but not on the ready list, and the semaphores of the program have been initialised to `values`. -/
def booted (values : Nat → Nat) (condLock : Nat → LockId) : State where
  thread := fun t => if t = 0 then ⟨.running, priDefault, priDefault, none, 0, []⟩
    else ⟨.ready, priMin, priMin, none, 0, [.setLevel true, .idleBlock]⟩
  allList := [0, 1]
  current := 0
  idleThread := 1
  readyList := []
  sleepThreadsList := []
  sema := fun k => match k with
    | .user n => ⟨values n % 2 ^ 32, []⟩
    | .lock _ => ⟨1, []⟩
    | .waiter _ => ⟨0, []⟩
  holder := fun _ => none
  links := ((⟨fun _ => none, fun _ => none⟩ : Intrusive.Links Node).init (.head 0) (.tail 0)).init (.head 1) (.tail 1)
  cond := fun _ => []
  condLock := condLock
  ticks := 0
  threadTicks := 0
  intr := true
  trace := []

def Booted (s : State) : Prop := ∃ values condLock, s = booted values condLock

/-- The states of the runs in which every act meets `cond`. -/
def ReachableUnder (cond : Act → State → Prop) (s : State) : Prop :=
  ∃ h, Run Act.exec (fun a s => a.Enabled s ∧ cond a s) Booted h s

/-- The states of all runs. -/
def Reachable : State → Prop := ReachableUnder fun _ _ => True

theorem ReachableUnder.reachable {cond : Act → State → Prop} {s : State} (hr : ReachableUnder cond s) : Reachable s := by
  obtain ⟨h, hr⟩ := hr
  exact ⟨h, hr.mono fun _ _ ha => ⟨ha.1, trivial⟩⟩

/-- What holds at the start and is kept by each act that meets `cond` holds in every such run. -/
theorem run_invariant {cond : Act → State → Prop} {init J : State → Prop} {h : List (Act × Unit)} {s : State}
    (hr : Run Act.exec (fun a s => a.Enabled s ∧ cond a s) init h s) (h0 : ∀ s, init s → J s)
    (hs : ∀ s a, J s → a.Enabled s → cond a s → Gives (a.step s) J fun _ => True) : J s := by
  apply hr.invariant (J := fun _ s => J s) h0
  intro _ s a hJ ha
  have hstep := hs s a hJ ha.1 ha.2
  unfold Ends Act.exec
  cases hx : a.step s with
  | ok s' =>
    rw [hx] at hstep
    simpa [hx] using hstep
  | error e => simp [hx]

theorem ReachableUnder.invariant {cond : Act → State → Prop} {J : State → Prop} {s : State}
    (hr : ReachableUnder cond s) (h0 : ∀ s, Booted s → J s)
    (hs : ∀ s a, J s → a.Enabled s → cond a s → Gives (a.step s) J fun _ => True) : J s := by
  obtain ⟨h, hr⟩ := hr
  exact run_invariant hr h0 hs

/-- The states of all runs from one boot. -/
def ReachableFrom (s0 s : State) : Prop := ∃ h, Run Act.exec (fun a s => a.Enabled s ∧ True) (· = s0) h s

theorem Reachable.step {s s' : State} {a : Act} (hr : Reachable s) (ha : a.Enabled s) (hs : a.step s = .ok s') :
    Reachable s' := by
  obtain ⟨h, hr⟩ := hr
  refine ⟨(a, ()) :: h, .step hr ⟨ha, trivial⟩ ?_⟩
  simp [Act.exec, hs]

/-- One act after another. -/
inductive Steps : List Act → State → State → Prop where
  | nil (s : State) : Steps [] s s
  | snoc {acts : List Act} {a : Act} {s s1 s' : State} : Steps acts s s1 → a.Enabled s1 → a.step s1 = .ok s' →
      Steps (acts ++ [a]) s s'

theorem Reachable.steps {s s' : State} {acts : List Act} (hr : Reachable s) (hs : Steps acts s s') : Reachable s' := by
  induction hs with
  | nil s => exact hr
  | snoc _ ha hx ih => exact (ih hr).step ha hx

/-! ### Runs by evaluation -/

/-- The acts of a `thread_create` that gets page `t`, up to the test at its end. -/
def creation (priority : Int) (t : Tid) : List Act :=
  [.call (.threadCreate priority) 2, .go 2, .go t, .go 2, .go 2, .go 2, .go 2]

section
variable (cond : Act → State → Prop) [∀ a s, Decidable (cond a s)]

/-- Every semaphore starts at zero, and every condition goes with the first lock. -/
def zeroed : State := booted (fun _ => 0) fun _ => .user 0

/-- The state after a list of acts. -/
def after (acts : List Act) : Option State :=
  (replay Act.exec (fun a s => decide (a.Enabled s ∧ cond a s)) acts [] zeroed).map Prod.snd

theorem run_of_after (acts : List Act) (p : State → Prop) [DecidablePred p]
    (hp : (after cond acts).any (fun s => decide (p s)) = true) :
    ∃ h s, Run Act.exec (fun a s => a.Enabled s ∧ cond a s) (· = zeroed) h s ∧ p s := by
  unfold after at hp
  rw [Option.any_map] at hp
  have hc : ∀ (a : Act) (s : State), decide (a.Enabled s ∧ cond a s) = true → a.Enabled s ∧ cond a s :=
    fun _ _ => of_decide_eq_true
  have hrun : ∃ h s, Run Act.exec (fun a s => a.Enabled s ∧ cond a s) (· = zeroed) h s ∧ decide (p s) = true := by
    refine Run.of_replay (p := fun _ s => decide (p s)) hc ?_ hp
    rfl
  grind

theorem reachable_of_after (acts : List Act) (p : State → Prop) [DecidablePred p]
    (hp : (after cond acts).any (fun s => decide (p s)) = true) : ∃ s, ReachableUnder cond s ∧ p s := by
  obtain ⟨h, s, hr, hs⟩ := run_of_after cond acts p hp
  refine ⟨s, ⟨h, hr.start_mono ?_⟩, hs⟩
  rintro _ rfl
  exact ⟨_, _, rfl⟩

end

end Pintos.Threads
