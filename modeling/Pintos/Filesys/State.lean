import Pintos.Library.Outcome
import Pintos.Kernel.Bitmap

/-! The file system's state, the block device and the heap.

One record holds what the file-system modules keep in static variables and on the
device: the sectors of `fs_device`, the buffer cache (`cache.c`), the free map
(`free-map.c`) and the open inodes (`inode.c`). A function of the source is a program
over it that ends with a value or in a kernel panic.

Two fields stand for what surrounds the file system. `heap` is how the next memory
requests will turn out, an empty list standing for a heap that never runs out.
`trace` is a history variable: every sector written, by whom, and every sector given
back to the free map, newest first. No function reads it. -/
namespace Pintos.Filesys
open Outcome

def blockSectorSize : Nat := 512

/-- Why the kernel stops. -/
inductive Panic where
  /-- `check_sector`: an access past the end of the device. -/
  | pastEnd
  /-- A null pointer, or a pointer to an object already freed, is used. -/
  | badPointer
  /-- The clock hand never finds a victim. -/
  | diverges
  /-- `lock_acquire` of a lock the thread holds. -/
  | lockHeld
  /-- `lock_release` of a lock the thread does not hold. -/
  | lockNotHeld
  /-- A range asserted by a bitmap function. -/
  | bitmapRange
  /-- `free_map_release` of a sector that is free. -/
  | notAllocated
  /-- The size asserted by `extend_inode_disk_to_size`. -/
  | fileSize
  /-- The block counts asserted by `extend_inode_disk_to_size`. -/
  | blockCount
  /-- The length asserted by `inode_create`. -/
  | createLength
  /-- No memory for the buffers of `inode_close`. -/
  | closeBuffers
  /-- The counts asserted by `inode_deny_write` and `inode_allow_write`. -/
  | denyCount
  /-- The position asserted by `file_seek`. -/
  | filePosition
  /-- A `PANIC` of the boot code. -/
  | boot
deriving Repr, DecidableEq

/-- Who writes a sector: the inode layer (an inode, a double-indirect block or an
indirect block), a file's data, or the cache writing a dirty block back. -/
inductive Writer where
  | inode
  | doubleIndirect
  | indirect
  | data
  | writeBack
deriving Repr, DecidableEq

inductive Event where
  | write (writer : Writer) (sector : Nat) (block : Bytes)
  | release (sector : Nat)

/-- `struct cache`: one cached sector. -/
structure Cache where
  index : Nat
  isDirty : Bool
  isUsed : Bool
  data : Bytes

/-- `struct inode`. `locked` is whether the running thread holds `access_lock`; `data`
is the `struct inode_disk` as it lies in memory, a whole sector. -/
structure Inode where
  sector : Nat
  openCnt : Nat
  removed : Bool
  denyWriteCnt : Nat
  locked : Bool
  data : Bytes

/-- `struct file`. An inode pointer is the sector of an open inode. -/
structure File where
  inode : Nat
  pos : Int
  denyWrite : Bool
deriving Repr, DecidableEq

structure Fs where
  device : Nat → Bytes
  deviceSize : Nat
  /-- The cached sectors in list order. -/
  cachedBlocks : List Cache
  cacheSize : Nat
  /-- The clock hand: null, or a position in the list, its length being the tail. -/
  cachePointer : Option Nat
  freeMap : Kernel.Bitmap
  freeMapFile : Option File
  openInodes : List Inode
  heap : List Bool
  trace : List Event

/-- The history only grows. -/
def Grows (s s' : Fs) : Prop := s.trace <:+ s'.trace

instance : Std.Refl Grows := ⟨fun s => List.suffix_refl s.trace⟩
instance : IsTrans Fs Grows := ⟨fun _ _ _ h h' => List.IsSuffix.trans h h'⟩

abbrev FsM := Prog Grows Panic

/-- A program may read and set everything but the history, which `record` adds to. -/
instance : MonadStateOf Fs FsM where
  get := Prog.look id
  set t := Prog.update (fun s => {t with trace := s.trace}) fun s => List.suffix_refl s.trace
  modifyGet f := do
    let r ← Prog.look f
    Prog.update (fun s => {r.2 with trace := s.trace}) fun s => List.suffix_refl s.trace
    return r.1

def record (events : List Event) : FsM Unit :=
  Prog.update (fun s => {s with trace := events ++ s.trace}) fun s => List.suffix_append events s.trace

section Generic
variable {σ : Type} {R : σ → σ → Prop} [Std.Refl R] [IsTrans σ R]

def check (c : Bool) (e : Panic) : Prog R Panic Unit := if c then pure () else throw e

/-- An `if` without an `else`. -/
def whenever (c : Bool) (m : Prog R Panic Unit) : Prog R Panic Unit := if c then m else pure ()

end Generic

/-- `malloc` and `calloc`, as far as their success goes. -/
def malloc : FsM Bool := do
  let s ← get
  match s.heap with
  | [] => return true
  | outcome :: later =>
    set {s with heap := later}
    return outcome

/-! ### The block device (`devices/block.c`) -/

def blockRead (sector : Nat) : FsM Bytes := do
  let s ← get
  check (sector < s.deviceSize) .pastEnd
  return s.device sector

def blockWrite (writer : Writer) (sector : Nat) (block : Bytes) : FsM Unit := do
  let s ← get
  check (sector < s.deviceSize) .pastEnd
  set {s with device := fun k => if k = sector then block else s.device k}
  record [.write writer sector block]

/-- The state after a sector has been written. -/
def Fs.put (s : Fs) (writer : Writer) (sector : Nat) (block : Bytes) : Fs := {s with
  device := fun k => if k = sector then block else s.device k
  trace := .write writer sector block :: s.trace}

/-! ### How these end -/

section Ends
variable {s : Fs} {E : Panic → Fs → Prop}

@[simp] theorem ends_get {Q : Fs → Fs → Prop} : Ends (get : FsM Fs) s Q E ↔ Q s s := Iff.rfl

@[simp] theorem ends_set (t : Fs) {Q : PUnit → Fs → Prop} :
    Ends (set t : FsM PUnit) s Q E ↔ Q ⟨⟩ {t with trace := s.trace} := Iff.rfl

@[simp] theorem ends_modify (f : Fs → Fs) {Q : PUnit → Fs → Prop} :
    Ends (modify f : FsM PUnit) s Q E ↔ Q ⟨⟩ {f s with trace := s.trace} := Iff.rfl

@[simp] theorem ends_record (events : List Event) {Q : Unit → Fs → Prop} :
    Ends (record events) s Q E ↔ Q () {s with trace := events ++ s.trace} := Iff.rfl

theorem ends_malloc {Q : Bool → Fs → Prop}
    (h : ∀ b heap, (s.heap = [] → b = true ∧ heap = []) → Q b {s with heap := heap}) :
    Ends malloc s Q E := by
  unfold malloc
  simp only [ends_bind, ends_get]
  split
  · have := h true [] (fun _ => ⟨rfl, rfl⟩)
    rw [← ‹s.heap = []›] at this
    exact this
  · exact h _ _ (fun hs => by simp_all)

/-- Two blocks are asked for; without either of them the call returns `a`. -/
theorem ends_two_mallocs {α : Type} {a : α} {m : FsM α} {Q : α → Fs → Prop}
    (hno : s.heap ≠ [] → ∀ heap, Q a {s with heap := heap})
    (hgo : ∀ heap, (s.heap = [] → heap = []) → Ends m {s with heap := heap} Q E) :
    Ends malloc s (fun b s' => Ends (if !b then pure a else malloc >>= fun b => if !b then pure a else m) s' Q E) E := by
  refine ends_malloc fun b heap hheap => ?_
  cases b with
  | false => exact hno (fun hs => Bool.false_ne_true (hheap hs).1) heap
  | true =>
    simp only [Bool.not_true, Bool.false_eq_true, if_false, ends_bind]
    refine ends_malloc fun b heap' hheap' => ?_
    cases b with
    | false => exact hno (fun hs => Bool.false_ne_true (hheap' (hheap hs).2).1) heap'
    | true => exact hgo heap' fun hs => (hheap' (hheap hs).2).2

theorem ends_blockRead {k : Nat} {Q : Bytes → Fs → Prop} (h : k < s.deviceSize) :
    Ends (blockRead k) s Q E ↔ Q (s.device k) s := by
  simp [blockRead, check, h, ends_bind, ends_pure]

theorem ends_blockWrite {w : Writer} {k : Nat} {b : Bytes} {Q : Unit → Fs → Prop}
    (h : k < s.deviceSize) : Ends (blockWrite w k b) s Q E ↔ Q () (s.put w k b) := by
  simp [blockWrite, check, h, ends_bind, ends_pure, Fs.put]

end Ends

section Generic
variable {σ : Type} {R : σ → σ → Prop} [Std.Refl R] [IsTrans σ R] {s : σ} {Q : Unit → σ → Prop}
  {E : Panic → σ → Prop}

theorem ends_check {c : Bool} {e : Panic} (h : c = true) :
    Ends (check c e : Prog R Panic Unit) s Q E ↔ Q () s := by
  simp [check, h, ends_pure]

theorem ends_check_or {c : Bool} {e : Panic} (hq : c = true → Q () s) (he : c = false → E e s) :
    Ends (check c e : Prog R Panic Unit) s Q E := by
  cases c with
  | false => exact he rfl
  | true => exact hq rfl

theorem ends_whenever {c : Bool} {m : Prog R Panic Unit} (h : c = true → Ends m s Q E)
    (h' : c = false → Q () s) : Ends (whenever c m) s Q E := by
  cases c with
  | true => exact h rfl
  | false => exact h' rfl

end Generic

/-! ### Sectors past the end -/

section PastEnd
variable {s : Fs}

theorem ends_blockRead_or {k : Nat} {Q : Bytes → Fs → Prop} {E : Panic → Fs → Prop}
    (hq : k < s.deviceSize → Q (s.device k) s) (he : E .pastEnd s) : Ends (blockRead k) s Q E := by
  unfold blockRead
  simp only [ends_bind, ends_get]
  exact ends_check_or (fun h => hq (of_decide_eq_true h)) fun _ => he

theorem ends_blockWrite_or {w : Writer} {k : Nat} {b : Bytes} {Q : Unit → Fs → Prop} {E : Panic → Fs → Prop}
    (hq : k < s.deviceSize → Q () (s.put w k b)) (he : E .pastEnd s) : Ends (blockWrite w k b) s Q E := by
  unfold blockWrite
  simp only [ends_bind, ends_get]
  exact ends_check_or (fun h => hq (of_decide_eq_true h)) fun _ => he

end PastEnd

end Pintos.Filesys
