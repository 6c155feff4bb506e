import Pintos.Kernel.Lists
import Pintos.Library.Links
import Pintos.Library.Outcome

/-! The state of the thread system.

One record holds what `thread.c`, `synch.c`, `timer.c` and `interrupt.c` keep in static
variables, together with every semaphore, lock and condition variable. There is one
processor: the running thread goes on until it switches to another thread or, with
interrupts on, an interrupt takes the processor away from it.

What a suspended thread still has to do is on its kernel stack. A `Frame` stands for the
rest of one function from the point where it can be left; a stretch of code that runs with
interrupts off and does not switch threads is one step and needs no frame of its own.

`ready_list`, the waiters of a semaphore and `sleep_threads_list` are lists of threads. The
lists of held locks go through `lock.holder_elem` and are kept as links: `lock_release` can
unlink an element that another thread has linked meanwhile.

`trace` is a history variable, newest event first. No function reads it. -/
namespace Pintos.Threads
open Intrusive

def priMin : Int := 0
def priDefault : Int := 31
def priMax : Int := 63
def timeSlice : Nat := 4

/-- A thread is the page of its `struct thread`. -/
abbrev Tid := Nat

inductive LockId where
  /-- The lock of the kernel page pool (`palloc.c`). -/
  | pool
  /-- `tid_lock`. -/
  | tid
  | user (n : Nat)
deriving Repr, DecidableEq

inductive SemaId where
  | user (n : Nat)
  /-- The semaphore in a lock. -/
  | lock (l : LockId)
  /-- The semaphore in the frame of a thread's `cond_wait`. -/
  | waiter (t : Tid)
deriving Repr, DecidableEq

/-- `enum thread_status`. -/
inductive Status where
  | running
  | ready
  | blocked
  | dying
deriving Repr, DecidableEq

/-- The rest of a function, to be run when its thread goes on. `on` is the `old_level` the
function has saved. `torn` says that another thread has run in the middle of a scan that
interrupts do not protect. -/
inductive Frame where
  /-- `intr_set_level (old_level)` at the end of a function. -/
  | setLevel (on : Bool)
  /-- `kernel_thread`, about to enable interrupts. -/
  | kernelThread
  /-- `sema_down`, in its loop. -/
  | down (k : SemaId) (on : Bool)
  /-- `lock_acquire`, in the loop of its `sema_down`. -/
  | acquire (l : LockId) (on : Bool)
  /-- `lock_release`, after its `sema_up`. -/
  | unlink (l : LockId) (on : Bool)
  /-- `lock_try_acquire`, after its `sema_try_down` has succeeded. -/
  | setHolder (l : LockId)
  /-- `thread_yield_if_necessery`, about to scan the ready list. -/
  | yieldIf (torn : Bool)
  /-- `calculate_priority_and_yield`, about to walk the held locks. -/
  | calculate (torn : Bool)
  /-- `timer_sleep`, about to call `thread_push_block`. -/
  | pushBlock
  /-- `thread_push_block`, after its `thread_block`. -/
  | sleeping (on : Bool)
  /-- `thread_create`, after `palloc_get_page`. -/
  | initThread (priority : Int)
  /-- `thread_create`, about to call `thread_unblock`. -/
  | unblock (t : Tid)
  /-- `cond_signal`, about to pick a waiter. -/
  | signal (c : Nat) (torn : Bool)
  /-- `cond_broadcast`, in its loop. -/
  | broadcast (c : Nat)
  /-- Calls still to be made by the function that called the one above. -/
  | semaDown (k : SemaId)
  | semaUp (k : SemaId)
  | lockAcquire (l : LockId)
  | lockRelease (l : LockId)
  /-- `idle`, at the head of its loop. -/
  | idleBlock
  /-- `idle`, after its `thread_block`. -/
  | idleHalt
deriving Repr, DecidableEq

/-- Why the kernel stops. -/
inductive Panic where
  /-- `thread_unblock` of a thread that is not blocked. -/
  | notBlocked
  /-- `lock_acquire` of a lock the thread holds. -/
  | lockHeld
  /-- `lock_release` or a condition operation without the lock. -/
  | lockNotHeld
  /-- The assertion of `lock_acquire` after its donation. -/
  | notDonated
  /-- `list_insert` or `list_remove` of an element without neighbours. -/
  | notInterior
  /-- A loop or a recursion that does not end, or that leaves the list it walks. -/
  | diverges
  /-- The priority asserted by `init_thread`. -/
  | priorityRange
  /-- No code to run. -/
  | noFrame
deriving Repr, DecidableEq

/-- `struct thread`, with the thread's kernel stack, innermost function first. -/
structure Thread where
  status : Status
  priority : Int
  effectivePriority : Int
  waitingLock : Option LockId
  targetTicks : Int
  frames : List Frame

/-- `struct semaphore`. -/
structure Semaphore where
  value : Nat
  waiters : List Tid

/-- The nodes of the lists of held locks: the two ends in a thread and the element in a
lock. -/
inductive Node where
  | head (t : Tid)
  | tail (t : Tid)
  | elem (l : LockId)
deriving Repr, DecidableEq

inductive Event where
  /-- A down on a semaphore has completed. -/
  | down (k : SemaId)
  /-- An up on a semaphore has completed. -/
  | up (k : SemaId)
  | tick
  /-- `thread_pop_unblock` has unblocked a thread. -/
  | wake (t : Tid)
  /-- A thread has read the tick `start` in `timer_sleep (n)`. -/
  | sleep (t : Tid) (start n : Int)
deriving Repr, DecidableEq

structure State where
  thread : Tid → Thread
  allList : List Tid
  current : Tid
  idleThread : Tid
  readyList : List Tid
  sleepThreadsList : List Tid
  sema : SemaId → Semaphore
  holder : LockId → Option Tid
  links : Links Node
  /-- The waiters of each condition; a waiter is the thread in whose frame it lies. -/
  cond : Nat → List Tid
  /-- The lock each condition is used with. -/
  condLock : Nat → LockId
  ticks : Int
  threadTicks : Nat
  /-- Whether interrupts are on. -/
  intr : Bool
  trace : List Event

/-! ### Small changes of the state -/

namespace State

def eff (s : State) (t : Tid) : Int := (s.thread t).effectivePriority

/-- The stack of the running thread. -/
def frames (s : State) : List Frame := (s.thread s.current).frames

def mapThread (s : State) (t : Tid) (f : Thread → Thread) : State :=
  {s with thread := Function.update s.thread t (f (s.thread t))}

def setStatus (s : State) (t : Tid) (status : Status) : State := s.mapThread t fun x => {x with status := status}

def setEff (s : State) (t : Tid) (p : Int) : State := s.mapThread t fun x => {x with effectivePriority := p}

def setFrames (s : State) (fs : List Frame) : State := s.mapThread s.current fun x => {x with frames := fs}

def push (s : State) (f : Frame) : State := s.setFrames (f :: s.frames)

def pop (s : State) : State := s.setFrames s.frames.tail

def mapSema (s : State) (k : SemaId) (f : Semaphore → Semaphore) : State :=
  {s with sema := Function.update s.sema k (f (s.sema k))}

def setHolder (s : State) (l : LockId) (t : Option Tid) : State := {s with holder := Function.update s.holder l t}

def setIntr (s : State) (on : Bool) : State := {s with intr := on}

def record (s : State) (e : Event) : State := {s with trace := e :: s.trace}

end State

end Pintos.Threads
