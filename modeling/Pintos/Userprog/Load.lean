import Pintos.Library.Strings
import Pintos.Userprog.PagedirProofs

/-! Loading an executable (`validate_segment`, `load_segment`, `install_page`, `setup_stack` and the part of `load` that
calls the first two, `userprog/process.c`).

The loader works on kernel memory, with the page directory of the new process in it. What page allocation
answers, request by request, is given beforehand, and a request with no answer left gets none. A file is its
bytes; nothing writes to an executable while it is loaded. -/
namespace Pintos.Load

open UserMemory (pgSize physBase pgOfs isUserVaddr)
open Pagedir

/-! ### Files -/

/-- The contents of a file, whose length is an `off_t`. -/
structure File where
  bytes : List UInt8
  short : bytes.length < 2 ^ 31

/-- The bytes that `file_read` stores, from a position on. -/
def File.read (file : File) (pos size : Nat) : List UInt8 := (file.bytes.drop pos).take size

/-- `struct Elf32_Phdr`, without the fields that `load` does not look at. -/
structure Phdr where
  pType : UInt32
  pOffset : UInt32
  pVaddr : UInt32
  pFilesz : UInt32
  pMemsz : UInt32
  pFlags : UInt32
deriving Repr, DecidableEq

/-! ### Pages -/

/-- Memory, the answers that page allocation still has, the pages obtained so far, newest first, and the position in the
executable. -/
structure Loader where
  state : State
  answers : List (Option Nat)
  taken : List Nat
  pos : Nat

/-- The page that a function has obtained, which may have used its answer or not. -/
def newPage (answer : Option Nat) (s s' : State) : List Nat := answer.toList.filter fun p => p ∉ s.used ∧ p ∈ s'.used

/-- A step that takes the next answer. -/
def Loader.next (r : Loader) (state : State) : Loader where
  state := state
  answers := r.answers.tail
  taken := newPage (r.answers.headD none) r.state state ++ r.taken
  pos := r.pos

section
variable (ramPages initPageDir : Nat)

def getPage (zero : Bool) (r : Loader) : Except Fault (Option Nat × Loader) := do
  let (page, state) ← pallocGetPage ramPages zero (r.answers.headD none) r.state
  return (page, r.next state)

/-- `palloc_free_page`, which accepts a null pointer. -/
def freePage : Option Nat → Loader → Except Fault Loader
  | none, r => .ok r
  | some page, r => do
    let state ← pallocFreePage page r.state
    return { r with state }

def installPage (pd upage kpage : Nat) (writable : Bool) (r : Loader) : Except Fault (Bool × Loader) := do
  match ← pagedirGetPage ramPages pd upage r.state with
  | some _ => return (false, r)
  | none =>
    let (ok, state) ← pagedirSetPage ramPages initPageDir pd upage kpage writable (r.answers.headD none) r.state
    return (ok, r.next state)

/-! ### Segments -/

def validateSegment (phdr : Phdr) (file : File) : Bool :=
  let offset := phdr.pOffset.toNat
  let vaddr := phdr.pVaddr.toNat
  let memsz := phdr.pMemsz.toNat
  offset % pgSize == vaddr % pgSize && offset ≤ file.bytes.length && phdr.pFilesz.toNat ≤ memsz && memsz != 0 &&
    isUserVaddr vaddr && isUserVaddr ((vaddr + memsz) % 2 ^ 32) && vaddr ≤ (vaddr + memsz) % 2 ^ 32 && pgSize ≤ vaddr

/-- What `load_segment` is called with. -/
structure Segment where
  filePage : Nat
  memPage : Nat
  readBytes : Nat
  zeroBytes : Nat
  writable : Bool

/-- `ROUND_UP (x, PGSIZE)` for `uint32_t`. -/
def roundUp (x : Nat) : Nat := (x + pgSize - 1) % 2 ^ 32 / pgSize * pgSize

/-- The arguments that `load` computes from a program header. -/
def segmentOf (phdr : Phdr) : Segment :=
  let pageOffset := phdr.pVaddr.toNat % pgSize
  let readBytes := if 0 < phdr.pFilesz.toNat then (pageOffset + phdr.pFilesz.toNat) % 2 ^ 32 else 0
  { filePage := phdr.pOffset.toNat / pgSize * pgSize
    memPage := phdr.pVaddr.toNat / pgSize * pgSize
    readBytes
    zeroBytes := (roundUp ((pageOffset + phdr.pMemsz.toNat) % 2 ^ 32) + 2 ^ 32 - readBytes) % 2 ^ 32
    writable := phdr.pFlags.toNat / 2 % 2 == 1 }

/-- The end of a round of `load_segment`, for a page that was read: it is given back unless it is installed. -/
def keepPage (kpage : Nat) : Bool × Loader → Except Fault (Bool × Loader)
  | (true, r) => .ok (true, r)
  | (false, r) => do
    let r ← freePage (some kpage) r
    return (false, r)

/-- A round of `load_segment` with the page that it has, if it has one. -/
def fillPage (file : File) (pd upage pageReadBytes : Nat) (writable : Bool) :
    Option Nat × Loader → Except Fault (Bool × Loader)
  | (none, r) => .ok (false, r)
  | (some kpage, r) =>
    let bytes := file.read r.pos pageReadBytes
    let mem := r.state.mem.write kpage bytes
    let r := { r with pos := r.pos + bytes.length }
    if bytes.length ≠ pageReadBytes then keepPage kpage (false, { r with state.mem := mem })
    else do
      let r := { r with state.mem := mem.patch (kpage + pageReadBytes) (pgSize - pageReadBytes) fun _ => 0 }
      keepPage kpage (← installPage ramPages initPageDir pd upage kpage writable r)

/-- A round of `load_segment`. -/
def loadPage (file : File) (pd upage pageReadBytes : Nat) (writable : Bool) (r : Loader) : Except Fault (Bool × Loader) := do
  fillPage ramPages initPageDir file pd upage pageReadBytes writable (← getPage ramPages false r)

/-- The loop of `load_segment`; each round lowers the number of bytes to go. -/
def segmentLoop (file : File) (pd : Nat) (writable : Bool) : Nat → Nat → Nat → Nat → Loader → Except Fault (Bool × Loader)
  | 0, _, _, _, r => .ok (true, r)
  | rounds + 1, upage, readBytes, zeroBytes, r =>
    if 0 < readBytes || 0 < zeroBytes then do
      let pageReadBytes := if readBytes < pgSize then readBytes else pgSize
      let pageZeroBytes := pgSize - pageReadBytes
      match ← loadPage ramPages initPageDir file pd upage pageReadBytes writable r with
      | (false, r) => return (false, r)
      | (true, r) =>
        segmentLoop file pd writable rounds ((upage + pgSize) % 2 ^ 32) (readBytes - pageReadBytes)
          ((zeroBytes + 2 ^ 32 - pageZeroBytes) % 2 ^ 32) r
    else .ok (true, r)

def loadSegment (file : File) (pd : Nat) (seg : Segment) (r : Loader) : Except Fault (Bool × Loader) := do
  check ((seg.readBytes + seg.zeroBytes) % 2 ^ 32 % pgSize = 0)
  check (pgOfs seg.memPage = 0)
  check (seg.filePage % pgSize = 0)
  -- `file_seek` of an `off_t`
  check (seg.filePage < 2 ^ 31)
  segmentLoop ramPages initPageDir file pd seg.writable (seg.readBytes + seg.zeroBytes) seg.memPage seg.readBytes
    seg.zeroBytes { r with pos := seg.filePage }

/-- The `switch` over the type of a program header; false goes to `done`. -/
def loadHeader (file : File) (pd : Nat) (phdr : Phdr) (r : Loader) : Except Fault (Bool × Loader) :=
  if phdr.pType = 2 ∨ phdr.pType = 3 ∨ phdr.pType = 5 then .ok (false, r)
  else if phdr.pType = 1 then
    if validateSegment phdr file then loadSegment ramPages initPageDir file pd (segmentOf phdr) r else .ok (false, r)
  else .ok (true, r)

/-! ### The stack -/

def inRam (a n : Nat) : Bool := physBase ≤ a && a + n ≤ physBase + ramPages * pgSize

/-- `total_args_len`. -/
def argsLen (argv : List (List UInt8)) : Nat := (argv.map fun arg => arg.length + 1).sum % 2 ^ 32

/-- `total_stack_length` before the alignment to 16 bytes. -/
def frameLen (argv : List (List UInt8)) : Nat :=
  (argsLen argv + (4 - argsLen argv % 4) % 4 + 4 * (argv.length + 1) + 4 * 2 + 4) % 2 ^ 32

/-- `align_count_before_args`. -/
def alignBeforeArgs (argv : List (List UInt8)) : Nat := (16 - (frameLen argv + 2 ^ 32 - 4) % 2 ^ 32 % 16) % 16

/-- `total_stack_length`. -/
def stackLength (argv : List (List UInt8)) : Nat := (frameLen argv + alignBeforeArgs argv) % 2 ^ 32

/-- The loop of `setup_stack` over the arguments, the last one first. -/
def pushArgs (stackPointer esp : Nat) : List (List UInt8) → Nat → Bytes → Except Fault Bytes
  | [], _, m => .ok m
  | arg :: before, remaining, m =>
    let remaining := (remaining + 2 ^ 32 - (arg.length + 1) % 2 ^ 32) % 2 ^ 32
    let dst := (stackPointer + remaining) % 2 ^ 32
    if inRam ramPages dst (arg.length + 1) && inRam ramPages (stackPointer + 4 * (3 + before.length)) 4 then
      pushArgs stackPointer esp before remaining
        ((m.write dst (arg ++ [0])).setWordAt (stackPointer + 4 * (3 + before.length)) ((esp + remaining) % 2 ^ 32))
    else .error .fault

/-- The frame in the page `kpage`: the arguments, and the three words at the top of the stack. -/
def writeFrame (argv : List (List UInt8)) (kpage : Nat) (m : Bytes) : Except Fault Bytes := do
  let stackPointer := kpage + pgSize - stackLength argv
  let esp := physBase - stackLength argv
  let remaining := (stackLength argv + 2 ^ 32 - alignBeforeArgs argv) % 2 ^ 32
  let m ← pushArgs ramPages stackPointer esp argv.reverse remaining m
  return ((m.setWordAt (stackPointer + 8) (esp + 12)).setWordAt (stackPointer + 4) argv.length).setWordAt stackPointer 0

/-- The end of `setup_stack` for a page that has been installed, or not. -/
def fillStack (argv : List (List UInt8)) (kpage : Nat) : Bool × Loader → Except Fault (Option Nat × Loader)
  | (false, r) => do
    let r ← freePage (some kpage) r
    return (none, r)
  | (true, r) =>
    if stackLength argv ≥ pgSize then do
      let r ← freePage (some kpage) r
      return (none, r)
    else do
      let mem ← writeFrame ramPages argv kpage r.state.mem
      return (some (physBase - stackLength argv), { r with state.mem := mem })

/-- `setup_stack` with the page that it has, if it has one. -/
def installStack (argv : List (List UInt8)) (pd : Nat) : Option Nat × Loader → Except Fault (Option Nat × Loader)
  | (none, r) => .ok (none, r)
  | (some kpage, r) => do
    fillStack ramPages argv kpage (← installPage ramPages initPageDir pd (physBase - pgSize) kpage true r)

/-- `setup_stack`: the stack pointer, or none for false. -/
def setupStack (argv : List (List UInt8)) (pd : Nat) (r : Loader) : Except Fault (Option Nat × Loader) := do
  installStack ramPages initPageDir argv pd (← getPage ramPages true r)

end

end Pintos.Load
