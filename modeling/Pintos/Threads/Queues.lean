import Pintos.Threads.Machine

/-! Which list each thread is in.

`Queues` ties the lists to the threads' states: `ready_list` holds the ready threads, the
waiters of a semaphore are the threads blocked in `sema_down` on it, and `sleep_threads_list`
holds the threads blocked in `timer_sleep`, each once. The idle thread is in none of them, and
a thread being created is in none until its creator unblocks it, once. `Tidy` adds that
exactly the current thread is running.

A thread that is running is in no list, so what it does to itself keeps the lists
(`Queues.own`). Waking, blocking, yielding and switching change the state of one thread and
its place in the lists together (`Queues.restatus`). -/
namespace Pintos.Threads
open Kernel Outcome

/-- The semaphore a frame waits on. -/
def Frame.waitsOn : Frame → Option SemaId
  | .down k _ => some k
  | .acquire l _ => some (.lock l)
  | _ => none

def Frame.isSleeping : Frame → Bool
  | .sleeping _ => true
  | _ => false

/-- The thread a frame will unblock. -/
def Frame.births : Frame → Option Tid
  | .unblock t => some t
  | _ => none

/-- A frame that has to do with a semaphore, but for those of locks. -/
def Frame.onSema : Frame → Option SemaId
  | .down k _ => some k
  | .semaDown k => some k
  | .semaUp k => some k
  | _ => none

/-- The frame can be on any stack but the idle thread's. -/
def Frame.isPlain (f : Frame) : Bool := f.births.isNone && f.onSema.isNone

/-- The semaphores a frame of thread `t` may use: only lock functions use the one in a lock,
and only the thread itself downs the one in its `cond_wait`. -/
def Frame.proper (t : Tid) : Frame → Prop
  | .down k _ => ∀ l w, k ≠ .lock l ∧ (k = .waiter w → w = t)
  | .semaDown k => ∀ l w, k ≠ .lock l ∧ (k = .waiter w → w = t)
  | .semaUp k => ∀ l, k ≠ .lock l
  | _ => True

/-- A stack that uses semaphores as it may. -/
def Owned (t : Tid) (fs : List Frame) : Prop := ∀ f ∈ fs, f.proper t

def births (s : State) (u : Tid) : List Tid := (s.thread u).frames.filterMap Frame.births

def Frame.isSetLevel : Frame → Bool
  | .setLevel _ => true
  | _ => false

/-- The stack of the idle thread: somewhere in its loop, and possibly preempted there. -/
def IdleFrames (fs : List Frame) : Prop :=
  ∃ gs f, fs = gs ++ [f] ∧ gs.all Frame.isSetLevel ∧ (f = .idleBlock ∨ f = .idleHalt)

/-- The thread is blocked, and the frame on top of its stack satisfies `p`. -/
def BlockedAt (s : State) (t : Tid) (p : Frame → Prop) : Prop :=
  t ∈ s.allList ∧ (s.thread t).status = .blocked ∧ ∃ f, (s.thread t).frames.head? = some f ∧ p f

structure Queues (s : State) : Prop where
  nodup : s.allList.Nodup
  readyNodup : s.readyList.Nodup
  ready : ∀ t, t ∈ s.readyList ↔ t ∈ s.allList ∧ (s.thread t).status = .ready ∧ t ≠ s.idleThread
  waitersNodup : ∀ k, (s.sema k).waiters.Nodup
  waiters : ∀ k t, t ∈ (s.sema k).waiters ↔ BlockedAt s t fun f => f.waitsOn = some k
  sleepNodup : s.sleepThreadsList.Nodup
  sleepers : ∀ t, t ∈ s.sleepThreadsList ↔ BlockedAt s t fun f => f.isSleeping = true
  idle : s.idleThread ∈ s.allList
  idleFrames : IdleFrames (s.thread s.idleThread).frames
  birthsNodup : ∀ u ∈ s.allList, (births s u).Nodup
  birth : ∀ u ∈ s.allList, ∀ t ∈ births s u,
    t ∈ s.allList ∧ (s.thread t).status = .blocked ∧ (s.thread t).frames = [.kernelThread]
  oneParent : ∀ u ∈ s.allList, ∀ v ∈ s.allList, ∀ t ∈ births s u, t ∈ births s v → u = v
  owned : ∀ t ∈ s.allList, Owned t (s.thread t).frames

structure Tidy (s : State) : Prop extends Queues s where
  live : s.current ∈ s.allList
  running : ∀ t ∈ s.allList, (s.thread t).status = .running ↔ t = s.current

/-- No thread is running: the processor is between two threads. -/
structure Parted (s : State) : Prop extends Queues s where
  parted : ∀ t ∈ s.allList, (s.thread t).status ≠ .running

section
variable {s s' : State} {t c : Tid} {k : SemaId}

theorem Tidy.status_current (h : Tidy s) : (s.thread s.current).status = .running :=
  (h.running _ h.live).mpr rfl

/-- Nothing the lists depend on has changed. -/
theorem Queues.apart (h : Queues s) (ht : s'.thread = s.thread) (hal : s'.allList = s.allList)
    (hi : s'.idleThread = s.idleThread) (hr : s'.readyList = s.readyList)
    (hsl : s'.sleepThreadsList = s.sleepThreadsList) (hse : ∀ k, (s'.sema k).waiters = (s.sema k).waiters) :
    Queues s' := by
  constructor
  case waitersNodup => simpa [hse] using h.waitersNodup
  case waiters => simpa [hse, BlockedAt, ht, hal] using h.waiters
  all_goals simp only [hal, ht, hi, hr, hsl, BlockedAt, births]
  exacts [h.nodup, h.readyNodup, h.ready, h.sleepNodup, h.sleepers, h.idle, h.idleFrames, h.birthsNodup, h.birth,
    h.oneParent, h.owned]

/-! ### Changes by a thread to itself -/

/-- Same lists, and the same threads but for `c`. -/
structure Alike (c : Tid) (s s' : State) : Prop where
  allList : s'.allList = s.allList
  idleThread : s'.idleThread = s.idleThread
  readyList : s'.readyList = s.readyList
  sleepThreadsList : s'.sleepThreadsList = s.sleepThreadsList
  waiters : ∀ k, (s'.sema k).waiters = (s.sema k).waiters
  status : ∀ t, t ≠ c → (s'.thread t).status = (s.thread t).status
  frames : ∀ t, t ≠ c → (s'.thread t).frames = (s.thread t).frames

theorem BlockedAt.ne {p : Frame → Prop} (h : BlockedAt s t p) (hc : (s.thread c).status = .running) : t ≠ c := by
  intro e
  rw [e, BlockedAt, hc] at h
  exact absurd h.2.1 (by decide)

theorem Alike.blockedAt {p : Frame → Prop} (ha : Alike c s s') (hc : (s.thread c).status = .running)
    (hc' : (s'.thread c).status = .running) : BlockedAt s' t p ↔ BlockedAt s t p := by
  by_cases ht : t = c
  · exact ⟨fun h => absurd ht (h.ne hc'), fun h => absurd ht (h.ne hc)⟩
  · rw [BlockedAt, BlockedAt, ha.allList, ha.status t ht, ha.frames t ht]

/-- A running thread changes itself: it is in no list, and takes on no new births. -/
theorem Tidy.own (h : Tidy s) (ha : Alike s.current s s') (hcur : s'.current = s.current)
    (hst : (s'.thread s.current).status = (s.thread s.current).status)
    (hidle : s.current = s.idleThread → IdleFrames (s'.thread s.current).frames)
    (hborn : (births s' s.current).Sublist (births s s.current))
    (hown : Owned s.current (s'.thread s.current).frames) : Tidy s' := by
  have hrun := h.status_current
  have hrun' : (s'.thread s.current).status = .running := hst.trans hrun
  have hstatus : ∀ t, (s'.thread t).status = (s.thread t).status := by
    intro t
    by_cases ht : t = s.current
    · rw [ht, hst]
    · exact ha.status t ht
  have hbirths : ∀ u, (births s' u).Sublist (births s u) := by
    intro u
    by_cases hu : u = s.current
    · rw [hu]
      exact hborn
    · simp only [births, ha.frames u hu]
      exact List.Sublist.refl _
  refine ⟨⟨?_, ?_, ?_, ?_, ?_, ?_, ?_, ?_, ?_, ?_, ?_, ?_, ?_⟩, ?_, ?_⟩
  · rw [ha.allList]
    exact h.nodup
  · rw [ha.readyList]
    exact h.readyNodup
  · intro t
    rw [ha.readyList, ha.allList, ha.idleThread, hstatus]
    exact h.ready t
  · intro k
    rw [ha.waiters]
    exact h.waitersNodup k
  · intro k t
    rw [ha.waiters, ha.blockedAt hrun hrun']
    exact h.waiters k t
  · rw [ha.sleepThreadsList]
    exact h.sleepNodup
  · intro t
    rw [ha.sleepThreadsList, ha.blockedAt hrun hrun']
    exact h.sleepers t
  · rw [ha.allList, ha.idleThread]
    exact h.idle
  · rw [ha.idleThread]
    by_cases hi : s.current = s.idleThread
    · rw [← hi]
      exact hidle hi
    · rw [ha.frames _ (Ne.symm hi)]
      exact h.idleFrames
  · intro u hu
    rw [ha.allList] at hu
    exact (h.birthsNodup u hu).sublist (hbirths u)
  · intro u hu t ht
    rw [ha.allList] at hu ⊢
    obtain ⟨hl, hb, hf⟩ := h.birth u hu t ((hbirths u).mem ht)
    have htc : t ≠ s.current := by
      grind
    rw [hstatus, ha.frames t htc]
    exact ⟨hl, hb, hf⟩
  · intro u hu v hv t ht ht'
    rw [ha.allList] at hu hv
    exact h.oneParent u hu v hv t ((hbirths u).mem ht) ((hbirths v).mem ht')
  · intro t ht
    rw [ha.allList] at ht
    by_cases htc : t = s.current
    · rw [htc]
      exact hown
    · rw [ha.frames t htc]
      exact h.owned t ht
  · rw [ha.allList, hcur]
    exact h.live
  · intro t ht
    rw [ha.allList] at ht
    rw [hstatus, hcur]
    exact h.running t ht

/-! ### Changes of state -/

theorem IdleFrames.head {fs : List Frame} (h : IdleFrames fs) :
    ∃ f, fs.head? = some f ∧ f.waitsOn = none ∧ f.isSleeping = false ∧ f ≠ .kernelThread := by
  obtain ⟨gs, f, rfl, hgs, hf⟩ := h
  cases gs with
  | nil =>
    refine ⟨f, rfl, ?_⟩
    rcases hf with rfl | rfl <;> exact ⟨rfl, rfl, by decide⟩
  | cons g gs =>
    refine ⟨g, rfl, ?_⟩
    have hg : g.isSetLevel = true := by
      grind
    cases g with
    | setLevel on => exact ⟨rfl, rfl, by simp⟩
    | _ => cases hg

/-- The thread waits for nothing that its top frame could name. -/
def Loose (s : State) (t : Tid) : Prop :=
  (∀ k, t ∉ (s.sema k).waiters) ∧ t ∉ s.sleepThreadsList ∧ ∀ u ∈ s.allList, t ∉ births s u

theorem Queues.loose (h : Queues s) (hb : (s.thread t).status ≠ .blocked) : Loose s t :=
  ⟨fun k hk => hb ((h.waiters k t).mp hk).2.1, fun hs => hb ((h.sleepers t).mp hs).2.1,
    fun u hu ht => hb (h.birth u hu t ht).2.1⟩

theorem Queues.loose_idle (h : Queues s) : Loose s s.idleThread := by
  obtain ⟨f, hf, hw, hs, hk⟩ := h.idleFrames.head
  refine ⟨?_, ?_, ?_⟩
  · intro k hm
    obtain ⟨-, -, g, hg, hgk⟩ := (h.waiters k _).mp hm
    grind
  · intro hm
    obtain ⟨-, -, g, hg, hgs⟩ := (h.sleepers _).mp hm
    grind
  · intro u hu hm
    obtain ⟨-, -, hg⟩ := h.birth u hu _ hm
    rw [hg] at hf
    cases hf
    exact hk rfl

/-- The top frame of a thread satisfies `p`. -/
def TopFrame (s : State) (t : Tid) (p : Frame → Prop) : Prop := ∃ f, (s.thread t).frames.head? = some f ∧ p f

/-- A thread that is not being created changes its state, and its place in the lists with it. -/
theorem Queues.restatus (h : Queues s) (hl : t ∈ s.allList) (hfree : ∀ u ∈ s.allList, t ∉ births s u) {st : Status}
    {r sleep : List Tid} {sema : SemaId → Semaphore} (hrn : r.Nodup)
    (hr : ∀ x, x ∈ r ↔ if x = t then st = .ready ∧ t ≠ s.idleThread else x ∈ s.readyList)
    (hwn : ∀ k, (sema k).waiters.Nodup)
    (hw : ∀ k x, x ∈ (sema k).waiters ↔
      if x = t then st = .blocked ∧ TopFrame s t (fun f => f.waitsOn = some k) else x ∈ (s.sema k).waiters)
    (hsn : sleep.Nodup)
    (hs : ∀ x, x ∈ sleep ↔
      if x = t then st = .blocked ∧ TopFrame s t (fun f => f.isSleeping = true) else x ∈ s.sleepThreadsList) :
    Queues ({s with readyList := r, sema := sema, sleepThreadsList := sleep}.setStatus t st) := by
  have hthread : ∀ x, x ≠ t →
      ({s with readyList := r, sema := sema, sleepThreadsList := sleep}.setStatus t st).thread x = s.thread x := by
    intro x hx
    simp [State.setStatus, State.mapThread, hx]
  have hframes : ∀ x, (({s with readyList := r, sema := sema, sleepThreadsList := sleep}.setStatus t st).thread
      x).frames = (s.thread x).frames := by
    intro x
    by_cases hx : x = t
    · simp [State.setStatus, State.mapThread, hx]
    · rw [hthread x hx]
  have hst : (({s with readyList := r, sema := sema, sleepThreadsList := sleep}.setStatus t st).thread t).status =
      st := by
    simp [State.setStatus, State.mapThread]
  have hbirths : ∀ u, births ({s with readyList := r, sema := sema, sleepThreadsList := sleep}.setStatus t st) u =
      births s u := by
    intro u
    simp only [births, hframes]
  have hblocked : ∀ x p, BlockedAt ({s with readyList := r, sema := sema, sleepThreadsList := sleep}.setStatus t
      st) x p ↔ if x = t then st = .blocked ∧ TopFrame s t p else BlockedAt s x p := by
    intro x p
    unfold BlockedAt TopFrame
    by_cases hx : x = t
    · rw [if_pos hx, hx, hst, hframes]
      exact and_iff_right hl
    · rw [if_neg hx, hthread x hx]
      rfl
  refine ⟨h.nodup, hrn, ?_, hwn, ?_, hsn, ?_, h.idle, ?_, ?_, ?_, ?_, ?_⟩
  · intro x
    refine (hr x).trans ?_
    by_cases hx : x = t
    · rw [if_pos hx, hx, hst]
      exact (and_iff_right hl).symm
    · rw [if_neg hx, hthread x hx]
      exact h.ready x
  · intro k x
    rw [hblocked]
    refine (hw k x).trans ?_
    rw [h.waiters k x]
  · intro x
    rw [hblocked]
    refine (hs x).trans ?_
    rw [h.sleepers x]
  · rw [hframes]
    exact h.idleFrames
  · intro u hu
    rw [hbirths]
    exact h.birthsNodup u hu
  · intro u hu x hx
    rw [hbirths] at hx
    rw [hthread x fun e => hfree u hu (e ▸ hx)]
    exact h.birth u hu x hx
  · intro u hu v hv x hx hx'
    rw [hbirths] at hx hx'
    exact h.oneParent u hu v hv x hx hx'
  · intro x hx
    rw [hframes]
    exact h.owned x hx

/-- A thread that waits for nothing gets a state other than blocked. -/
theorem Queues.restatus_loose (h : Queues s) (hl : t ∈ s.allList) (hloose : Loose s t) {st : Status}
    (hst : st ≠ .blocked) {r : List Tid} (hrn : r.Nodup)
    (hr : ∀ x, x ∈ r ↔ if x = t then st = .ready ∧ t ≠ s.idleThread else x ∈ s.readyList) :
    Queues ({s with readyList := r}.setStatus t st) := by
  refine h.restatus hl hloose.2.2 hrn hr h.waitersNodup ?_ h.sleepNodup ?_
  · intro k x
    by_cases hx : x = t
    · simp [hx, hst, hloose.1 k]
    · simp [hx]
  · intro x
    by_cases hx : x = t
    · simp [hx, hst, hloose.2.1]
    · simp [hx]

/-- A thread that waits for nothing gets the processor while no thread has it. -/
theorem Parted.switch (h : Parted s) (ht : t ∈ s.allList) (hloose : Loose s t) {r : List Tid} (hrn : r.Nodup)
    (hr : ∀ x, x ∈ r ↔ x ≠ t ∧ x ∈ s.readyList) : Tidy (switchTo t {s with readyList := r}) := by
  have hq : Queues ({s with readyList := r}.setStatus t .running) := by
    apply h.toQueues.restatus_loose ht hloose (by decide) hrn
    grind
  refine ⟨hq.apart rfl rfl rfl rfl rfl fun _ => rfl, ht, ?_⟩
  intro x hx
  by_cases hxt : x = t
  · simp [hxt, switchTo, State.setStatus, State.mapThread]
  · have hstatus : ((switchTo t {s with readyList := r}).thread x).status = (s.thread x).status := by
      simp [switchTo, State.setStatus, State.mapThread, hxt]
    rw [hstatus]
    exact ⟨fun hrun => absurd hrun (h.parted x hx), fun e => absurd e hxt⟩

/-- The next thread gets the processor. -/
theorem schedule_tidy (h : Parted s) : Tidy (schedule s) := by
  unfold schedule
  cases hm : listMax (threadPriorityLess s) s.readyList with
  | none =>
    apply h.switch h.idle h.toQueues.loose_idle h.readyNodup
    intro x
    simp [listMax_eq_none.mp hm]
  | some t =>
    have ht : t ∈ s.readyList := mem_of_listMax hm
    obtain ⟨hl, hst, -⟩ := (h.ready t).mp ht
    apply h.switch hl (h.toQueues.loose (by rw [hst]; decide)) (h.readyNodup.erase t)
    intro x
    exact h.readyNodup.mem_erase_iff

/-- What is left when the running thread has left the processor. -/
theorem Tidy.part (h : Tidy s) {st : Status} (hst : st ≠ .running) {r sleep : List Tid} {sema : SemaId → Semaphore}
    (hq : Queues ({s with readyList := r, sema := sema, sleepThreadsList := sleep}.setStatus s.current st)) :
    Parted ({s with readyList := r, sema := sema, sleepThreadsList := sleep}.setStatus s.current st) := by
  refine ⟨hq, ?_⟩
  intro x hx
  by_cases hxc : x = s.current
  · simpa [hxc, State.setStatus, State.mapThread] using hst
  · simp only [State.setStatus, State.mapThread, Function.update_of_ne hxc]
    exact fun hr => hxc ((h.running x hx).mp hr)

theorem Tidy.loose (h : Tidy s) : Loose s s.current :=
  h.toQueues.loose (by rw [h.status_current]; decide)

theorem Tidy.current_notMem (h : Tidy s) : s.current ∉ s.readyList := by
  intro hc
  have := ((h.ready _).mp hc).2.1
  rw [h.status_current] at this
  cases this

theorem yieldNow_tidy (h : Tidy s) : Tidy (yieldNow s) := by
  have hc := h.current_notMem
  apply schedule_tidy
  apply h.part (by decide)
  apply h.toQueues.restatus_loose h.live h.loose (by decide)
  · split
    · exact h.readyNodup
    · exact List.nodup_append'.mpr ⟨h.readyNodup, List.nodup_singleton _, by simpa using hc⟩
  · intro x
    by_cases hx : x = s.current
    · grind
    · grind

/-- The running thread blocks, and joins the list its top frame names. -/
theorem Tidy.block (h : Tidy s) {sleep : List Tid} {sema : SemaId → Semaphore}
    (hwn : ∀ k, (sema k).waiters.Nodup)
    (hw : ∀ k x, x ∈ (sema k).waiters ↔
      if x = s.current then TopFrame s s.current (fun f => f.waitsOn = some k) else x ∈ (s.sema k).waiters)
    (hsn : sleep.Nodup)
    (hs : ∀ x, x ∈ sleep ↔
      if x = s.current then TopFrame s s.current (fun f => f.isSleeping = true) else x ∈ s.sleepThreadsList) :
    Tidy (threadBlock {s with sema := sema, sleepThreadsList := sleep}) := by
  apply schedule_tidy
  apply h.part (by decide)
  refine h.toQueues.restatus h.live h.loose.2.2 h.readyNodup ?_ hwn ?_ hsn ?_
  · intro x
    by_cases hx : x = s.current
    · simp [hx, h.current_notMem]
    · simp [hx]
  · intro k x
    rw [hw]
    simp
  · intro x
    rw [hs]
    simp

/-- A blocked thread leaves the list it waits in and becomes ready. -/
theorem Tidy.wake (h : Tidy s) (hl : t ∈ s.allList) (hb : (s.thread t).status = .blocked) (hi : t ≠ s.idleThread)
    (hfree : ∀ u ∈ s.allList, t ∉ births s u) {sleep : List Tid} {sema : SemaId → Semaphore} {tr : List Event}
    (hwn : ∀ k, (sema k).waiters.Nodup) (hw : ∀ k x, x ∈ (sema k).waiters ↔ x ≠ t ∧ x ∈ (s.sema k).waiters)
    (hsn : sleep.Nodup) (hs : ∀ x, x ∈ sleep ↔ x ≠ t ∧ x ∈ s.sleepThreadsList) :
    Tidy ({s with readyList := s.readyList ++ [t], sema := sema, sleepThreadsList := sleep, trace := tr}.setStatus t
      .ready) := by
  have htc : t ≠ s.current := by
    intro e
    rw [e, h.status_current] at hb
    cases hb
  have htr : t ∉ s.readyList := by
    intro hm
    rw [((h.ready t).mp hm).2.1] at hb
    cases hb
  have hq : Queues ({s with readyList := s.readyList ++ [t], sema := sema, sleepThreadsList := sleep}.setStatus t
      .ready) := by
    refine h.toQueues.restatus hl hfree ?_ ?_ hwn ?_ hsn ?_
    · exact List.nodup_append'.mpr ⟨h.readyNodup, List.nodup_singleton t, by simpa using htr⟩
    · grind
    · grind
    · grind
  refine ⟨hq.apart rfl rfl rfl rfl rfl fun _ => rfl, h.live, ?_⟩
  intro x hx
  by_cases hxt : x = t
  · simp [hxt, State.setStatus, State.mapThread, htc]
  · simp only [State.setStatus, State.mapThread, Function.update_of_ne hxt]
    exact h.running x hx

theorem threadUnblock_ok (h : (s.thread t).status = .blocked) :
    threadUnblock t s = .ok ({s with readyList := s.readyList ++ [t]}.setStatus t .ready) := by
  simp [threadUnblock, h]

end

end Pintos.Threads
