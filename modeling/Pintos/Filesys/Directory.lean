import Pintos.Filesys.Layer

/-! Directories (`filesys/directory.c`).

A directory is a file of 20-byte entries: the inode's sector, a name of at most 14
characters in a field of 15, and whether the entry is in use. A C string is the list of
its characters. -/
namespace Pintos.Filesys
open Outcome

def nameMax : Nat := 14

/-- A C string, without its terminator. -/
abbrev CString := List UInt8

/-- `struct dir`. -/
structure Dir where
  inode : Nat
  pos : Nat
deriving Repr, DecidableEq

/-! ### `struct dir_entry` -/

namespace DirEntry

def size : Nat := 20

def inodeSector (e : Bytes) : Nat := e.word 0
def name (e : Bytes) : CString := (slice e 4 (nameMax + 1)).takeWhile (· != 0)
def inUse (e : Bytes) : Bool := e 19 != 0

def setInodeSector (e : Bytes) (sector : Nat) : Bytes := e.setWord 0 sector
def setInUse (e : Bytes) (used : Bool) : Bytes := e.patch 19 1 fun _ => if used then 1 else 0

/-- `strlcpy` into the name field: the characters that fit and a terminator. -/
def setName (e : Bytes) (n : CString) : Bytes :=
  e.patch 4 ((n.take nameMax).length + 1) fun t => (n.take nameMax).getD t 0

end DirEntry

/-- The bytes just read, over what the buffer held. -/
def fill (e : Bytes) (bytes : List UInt8) : Bytes := e.patch 0 bytes.length fun t => bytes.getD t 0

section Directories
variable {σ : Type} {R : σ → σ → Prop} [Std.Refl R] [IsTrans σ R] (L : InodeLayer R)

def dirCreate (sector entryCnt : Nat) : Prog R Panic Bool :=
  L.inodeCreate sector (entryCnt * DirEntry.size : Nat) true

def dirOpen (inode : Option Nat) : Prog R Panic (Option Dir) := do
  let allocated ← L.malloc
  match inode, allocated with
  | some i, true => return some ⟨i, 0⟩
  | _, _ =>
    L.inodeClose inode
    return none

def dirOpenRoot : Prog R Panic (Option Dir) := do
  dirOpen L (← L.inodeOpen rootDirSector)

def dirReopen (dir : Dir) : Prog R Panic (Option Dir) := do
  dirOpen L (← L.inodeReopen (some dir.inode))

def dirClose (dir : Option Dir) : Prog R Panic Unit := do
  match dir with
  | none => return
  | some d => L.inodeClose (some d.inode)

/-- How many entries a scan of the directory can come to, the short read included. -/
def scanRounds (inode : Nat) : Prog R Panic Nat := do
  return (InodeDisk.length (← L.inodeAt inode).data).toNat / DirEntry.size + 1

/-- The loop that the scans of a directory share: from offset `ofs` on, the first entry
that satisfies `p` with its offset, or the buffer and the offset of the short read. -/
def scanEntries (inode : Nat) (p : Bytes → Bool) : Nat → Nat → Bytes →
    Prog R Panic (Bool × Bytes × Nat)
  | 0, _, _ => throw .diverges
  | rounds + 1, ofs, e => do
    let bytes ← L.inodeReadAt inode DirEntry.size ofs
    let e := fill e bytes
    if bytes.length = DirEntry.size then
      if p e then return (true, e, ofs) else scanEntries inode p rounds (ofs + DirEntry.size) e
    else
      return (false, e, ofs)

def lookup (dir : Dir) (name : CString) : Prog R Panic (Option (Bytes × Nat)) := do
  let (found, e, ofs) ← scanEntries L dir.inode
    (fun e => DirEntry.inUse e && DirEntry.name e == name) (← scanRounds L dir.inode) 0 (fun _ => 0)
  return if found then some (e, ofs) else none

/-- The inode of the entry, opened. -/
def dirLookup (dir : Dir) (name : CString) : Prog R Panic (Option Nat) := do
  match ← lookup L dir name with
  | some (e, _) => L.inodeOpen (DirEntry.inodeSector e)
  | none => return none

def dirAdd (dir : Dir) (name : CString) (inodeSector : Nat) : Prog R Panic Bool := do
  L.lockAcquire dir.inode
  -- The source returns here without releasing the lock.
  if name = [] || nameMax < name.length then return false
  match ← lookup L dir name with
  | some _ =>
    L.lockRelease dir.inode
    return false
  | none =>
    -- The free slot, or the end of the file.
    let (_, e, ofs) ← scanEntries L dir.inode (fun e => !DirEntry.inUse e)
      (← scanRounds L dir.inode) 0 (fun _ => 0)
    let e := DirEntry.setInodeSector (DirEntry.setName (DirEntry.setInUse e true) name) inodeSector
    let written ← L.inodeWriteAt dir.inode e DirEntry.size ofs
    L.lockRelease dir.inode
    return written = DirEntry.size

def dot : CString := [46]
def dotDot : CString := [46, 46]

def isDirEmpty (dir : Dir) : Prog R Panic Bool := do
  let (found, _, _) ← scanEntries L dir.inode
    (fun e => DirEntry.inUse e && DirEntry.name e != dot && DirEntry.name e != dotDot)
    (← scanRounds L dir.inode) 0 (fun _ => 0)
  return !found

/-- The name of the next entry, if there is one, and the directory with its new position. -/
def dirReaddir (dir : Dir) : Prog R Panic (Option CString × Dir) := do
  let (found, e, ofs) ← scanEntries L dir.inode
    (fun e => !(DirEntry.name e == dot || DirEntry.name e == dotDot) && DirEntry.inUse e)
    (← scanRounds L dir.inode) dir.pos (fun _ => 0)
  if found then return (some ((DirEntry.name e).take nameMax), { dir with pos := ofs + DirEntry.size })
  return (none, { dir with pos := ofs })

/-- The tests `dir_remove` makes on a directory: it is empty and nobody else has it open. -/
def mayRemoveDir (inode : Nat) : Prog R Panic Bool := do
  match ← dirOpen L (← L.inodeReopen (some inode)) with
  | none => throw .badPointer
  | some toBeDeletedDir =>
    let isEmpty ← isDirEmpty L toBeDeletedDir
    dirClose L (some toBeDeletedDir)
    if !isEmpty then return false
    return (← L.inodeAt inode).openCnt ≤ 1

/-- What `dir_remove` does between opening the inode and the label `done`. -/
def removeEntry (dir : Dir) (e : Bytes) (ofs inode : Nat) : Prog R Panic Bool := do
  let n ← L.inodeAt inode
  if n.sector = rootDirSector then return false
  let mayRemove ← (if InodeDisk.isDir n.data then mayRemoveDir L inode else pure true)
  if !mayRemove then return false
  let e := DirEntry.setInUse e false
  if (← L.inodeWriteAt dir.inode e DirEntry.size ofs) ≠ DirEntry.size then return false
  L.inodeRemove inode
  return true

def dirRemove (dir : Dir) (name : CString) : Prog R Panic Bool := do
  L.lockAcquire dir.inode
  match ← lookup L dir name with
  | none =>
    L.lockRelease dir.inode
    return false
  | some (e, ofs) =>
    match ← L.inodeOpen (DirEntry.inodeSector e) with
    | none =>
      L.lockRelease dir.inode
      return false
    | some inode =>
      let success ← removeEntry L dir e ofs inode
      L.inodeClose (some inode)
      L.lockRelease dir.inode
      return success

end Directories

end Pintos.Filesys
