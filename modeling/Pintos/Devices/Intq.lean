import Pintos.Library.Ring
import Pintos.Library.Steps

/-! Interrupt queues (`devices/intq.c`): bytes between threads and interrupt handlers.

All calls are made with interrupts off, so a thread runs on until it blocks, and a handler runs whole. A thread
that finds the queue empty (or full) takes the queue's lock and records itself as the waiter; between taking
the lock and returning from `wait` it can sleep twice, and everything can happen meanwhile. -/
namespace Pintos.Intq

open Steps

def bufsize : Nat := 64

abbrev Tid := Nat

/-- A failed assertion, an access outside the buffer, or an act that cannot be taken now. -/
inductive Fault where
  | assert
  | bounds
  | notReady
deriving Repr, DecidableEq

inductive Call where
  | getc
  | putc (byte : UInt8)
deriving Repr, DecidableEq

/-- The two members of `struct intq` for a waiting thread. -/
inductive Slot where
  | notFull
  | notEmpty
deriving Repr, DecidableEq

/-- Where a thread is in its call. It is ready to go on from there unless it is blocked. -/
inductive Place where
  | outside
  /-- In `sema_down` of `lock_acquire`. -/
  | locking (call : Call)
  /-- In `wait`, after it has recorded itself. -/
  | waiting (call : Call)
  /-- At the end of `lock_release`, which can yield. -/
  | released (call : Call)
deriving Repr, DecidableEq

/-- `struct lock`, with the value and the waiters of its semaphore. -/
structure Lock where
  holder : Option Tid
  value : Nat
  waiters : List Tid

/-- `struct intq`. -/
structure Queue where
  lock : Lock
  waiter : Slot → Option Tid
  buf : Nat → UInt8
  head : Nat
  tail : Nat

/-- The queue, the threads, and the bytes that were put in and taken out so far. -/
structure State where
  q : Queue
  blocked : Tid → Bool
  place : Tid → Place
  given : List UInt8
  taken : List UInt8

def check (cond : Bool) : Except Fault Unit := if cond then .ok () else .error .assert

/-! ### The queue -/

def next (pos : Nat) : Nat := Ring.next bufsize pos

/-- `intq_init`, with any contents of the buffer. -/
def intqInit (buf : Nat → UInt8) : Queue := ⟨⟨none, 1, []⟩, fun _ => none, buf, 0, 0⟩

def intqEmpty (q : Queue) : Bool := q.head = q.tail

def intqFull (q : Queue) : Bool := next q.head = q.tail

/-- The condition that the thread in a slot waits for. -/
def holds (q : Queue) : Slot → Bool
  | .notFull => !intqFull q
  | .notEmpty => !intqEmpty q

/-- What a call waits for, and what it makes true. -/
def Call.needs : Call → Slot
  | .getc => .notEmpty
  | .putc _ => .notFull

def Call.gives : Call → Slot
  | .getc => .notFull
  | .putc _ => .notEmpty

/-! ### Threads -/

def threadBlock (t : Tid) (s : State) : State := { s with blocked := Function.update s.blocked t true }

def threadUnblock (t : Tid) (s : State) : Except Fault State := do
  check (s.blocked t)
  return { s with blocked := Function.update s.blocked t false }

def setPlace (t : Tid) (p : Place) (s : State) : State := { s with place := Function.update s.place t p }

def setWaiter (slot : Slot) (w : Option Tid) (s : State) : State :=
  { s with q := { s.q with waiter := Function.update s.q.waiter slot w } }

def setLock (lock : Lock) (s : State) : State := { s with q := { s.q with lock := lock } }

/-- `wait`, up to `thread_block`. -/
def wait (t : Tid) (c : Call) (s : State) : Except Fault State := do
  check (!holds s.q c.needs)
  return setPlace t (.waiting c) (threadBlock t (setWaiter c.needs (some t) s))

def signal (slot : Slot) (s : State) : Except Fault State := do
  check (holds s.q slot)
  match s.q.waiter slot with
  | some t => return setWaiter slot none (← threadUnblock t s)
  | none => return s

/-- `sema_down` of the queue's lock and what follows in `lock_acquire` and the caller. -/
def lockLoop (t : Tid) (c : Call) (s : State) : Except Fault State :=
  if s.q.lock.value = 0 then
    .ok (setPlace t (.locking c) (threadBlock t (setLock { s.q.lock with waiters := s.q.lock.waiters ++ [t] } s)))
  else wait t c (setLock { s.q.lock with value := s.q.lock.value - 1, holder := some t } s)

def lockAcquire (t : Tid) (c : Call) (s : State) : Except Fault State := do
  check (s.q.lock.holder ≠ some t)
  lockLoop t c s

/-- `lock_release`; `woken` is the waiter that `get_and_remove_next_thread` picks. -/
def lockRelease (t woken : Tid) (s : State) : Except Fault State := do
  check (s.q.lock.holder = some t)
  if s.q.lock.waiters = [] then return setLock ⟨none, s.q.lock.value + 1, []⟩ s
  else if woken ∈ s.q.lock.waiters then do
    let s ← threadUnblock woken s
    return setLock ⟨none, s.q.lock.value + 1, s.q.lock.waiters.erase woken⟩ s
  else .error .notReady

/-- The end of `lock_release`, for a thread that comes out of `wait`. -/
def leaveWait (t woken : Tid) (c : Call) (s : State) : Except Fault State := do
  return setPlace t (.released c) (← lockRelease t woken s)

/-! ### Calls -/

/-- The rest of `intq_getc` and `intq_putc`, after their loops. -/
def finish (c : Call) (s : State) : Except Fault State :=
  match c with
  | .getc =>
    if s.q.tail < bufsize then
      signal c.gives { s with q := { s.q with tail := next s.q.tail }, taken := s.taken ++ [s.q.buf s.q.tail] }
    else .error .bounds
  | .putc byte =>
    if s.q.head < bufsize then
      signal c.gives { s with
        q := { s.q with buf := Function.update s.q.buf s.q.head byte, head := next s.q.head }
        given := s.given ++ [byte] }
    else .error .bounds

/-- A thread at the test of the loop. -/
def loop (t : Tid) (c : Call) (s : State) : Except Fault State :=
  if holds s.q c.needs then finish c (setPlace t .outside s) else lockAcquire t c s

inductive Act where
  /-- A thread calls `intq_getc` or `intq_putc`. -/
  | call (t : Tid) (c : Call)
  /-- A thread that was blocked or has yielded goes on. -/
  | resume (t woken : Tid)
  /-- A call from an interrupt handler. -/
  | interrupt (c : Call)
deriving Repr, DecidableEq

def step (a : Act) (s : State) : Except Fault State :=
  match a with
  | .call t c => if s.blocked t = false ∧ s.place t = .outside then loop t c s else .error .notReady
  | .resume t woken =>
    if s.blocked t then .error .notReady
    else match s.place t with
      | .outside => .error .notReady
      | .locking c => lockLoop t c s
      | .waiting c => leaveWait t woken c s
      | .released c => loop t c s
  -- in a handler, the body of the loop begins with the assertion that this is no handler
  | .interrupt c => if holds s.q c.needs then finish c s else .error .assert

/-- Handlers call only when there is room, or a byte. -/
def allowed (a : Act) (s : State) : Prop :=
  match a with
  | .interrupt c => holds s.q c.needs = true
  | _ => True

def Start (s : State) : Prop :=
  (∃ buf, s.q = intqInit buf) ∧ (∀ t, s.place t = .outside) ∧ s.given = [] ∧ s.taken = []

end Pintos.Intq
