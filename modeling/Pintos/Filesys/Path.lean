import Pintos.Filesys.Directory
import Pintos.Filesys.File

/-! Paths and the file-system calls (`filesys/filesys.c`).

A call runs in a thread, whose working directory and open descriptors are the record
`Thread`; a program over `Call` sees the file system and that thread. -/
namespace Pintos.Filesys
open Outcome

/-- `struct file_descriptor`. -/
structure FileDescriptor where
  fd : Nat
  file : File
  dir : Option Dir
deriving Repr, DecidableEq

/-- What a `struct thread` holds of the file system. -/
structure Thread where
  workingDirectory : Option Dir
  fdList : List FileDescriptor
  fdCounter : Nat
  executableFile : Option File
deriving Repr, DecidableEq

structure Call (σ : Type) where
  fs : σ
  thread : Thread

section Calls
variable {σ α : Type} {R : σ → σ → Prop}

/-- The file system moves as it does on its own. -/
def Call.Moves (R : σ → σ → Prop) (c c' : Call σ) : Prop := R c.fs c'.fs

instance [Std.Refl R] : Std.Refl (Call.Moves R) := ⟨fun c => Std.Refl.refl c.fs⟩
instance [IsTrans σ R] : IsTrans (Call σ) (Call.Moves R) :=
  ⟨fun a b c h h' => IsTrans.trans a.fs b.fs c.fs h h'⟩

abbrev CallM (R : σ → σ → Prop) := Prog (Call.Moves R) Panic

/-- A file-system program inside a call. -/
def liftFs (m : Prog R Panic α) : CallM R α where
  run := fun c =>
    match m.run c.fs with
    | .ok a s => .ok a {c with fs := s}
    | .error e s => .error e {c with fs := s}
  within := by
    intro c
    have h := m.within c.fs
    unfold Call.Moves
    cases hm : m.run c.fs <;> (rw [hm] at h; exact h)

variable [Std.Refl R]

def getThread : CallM R Thread := Prog.look Call.thread

def modifyThread (f : Thread → Thread) : CallM R Unit :=
  Prog.update (fun c => {c with thread := f c.thread}) fun c => Std.Refl.refl c.fs

end Calls

/-! ### Path components -/

def slash : UInt8 := 47

/-- `is_root_path`: slashes and nothing else. -/
def isRootPath (path : CString) : Bool := !path.isEmpty && path.all (· == slash)

/-- What `get_path_next_token` returns: -1, 0, or 1 with the token and the rest. -/
inductive NextToken where
  | tooLong
  | atEnd
  | token (name rest : CString)
deriving Repr, DecidableEq

/-- `get_path_next_token`, its buffer allocated. -/
def nextToken (path : CString) : NextToken :=
  let path := path.dropWhile (· == slash)
  if path.isEmpty then .atEnd
  else
    let token := path.takeWhile (· != slash)
    if nameMax < token.length then .tooLong else .token token (path.dropWhile (· != slash))

section Paths
variable {σ : Type} {R : σ → σ → Prop} [Std.Refl R] [IsTrans σ R] (L : InodeLayer R)

def getPathNextToken (path : CString) : Prog R Panic NextToken := do
  if !(← L.malloc) then return .tooLong
  return nextToken path

/-- `get_working_directory`, which opens the root the first time. -/
def getWorkingDirectory : CallM R (Option Dir) := do
  match (← getThread).workingDirectory with
  | some d => return some d
  | none =>
    let root ← liftFs (dirOpenRoot L)
    modifyThread fun t => {t with workingDirectory := root}
    return root

def getPathInitialDirectory (path : CString) : CallM R (Option Dir) := do
  if path.head? = some slash then
    liftFs (dirOpenRoot L)
  else
    match ← getWorkingDirectory L with
    | none => throw .badPointer
    | some d => liftFs (dirReopen L d)

/-- What `get_name_and_dir_from_path` gives its caller. -/
structure Resolved where
  inode : Option Nat
  fileName : Option CString
  fileDir : Option Dir
deriving Repr, DecidableEq

def Resolved.null : Resolved := ⟨none, none, none⟩

/-- The label `fail`. -/
def walkFail (midInode : Option Nat) (dir : Option Dir) : Prog R Panic Resolved := do
  L.inodeClose midInode
  dirClose L dir
  return .null

/-- The copy of the last component, on the heap. -/
def copyName (name : CString) : Prog R Panic (Option CString) := do
  check (← L.malloc) .badPointer
  return some name

/-- The loop of `get_name_and_dir_from_path`, with a token to look up in `dir`. The
caller either passes places for both the name and the directory, or for neither. Every
round takes a component off the path. -/
def walk (wanted : Bool) : Nat → Dir → CString → CString → Prog R Panic Resolved
  | 0, _, _, _ => throw .diverges
  | rounds + 1, dir, token, path => do
    let midInode ← dirLookup L dir token
    match ← getPathNextToken L path with
    | .tooLong => walkFail L midInode (some dir)
    | .atEnd =>
      let fileName ← (if wanted then copyName L token else pure none)
      let fileDir ← (if wanted then dirReopen L dir else pure none)
      dirClose L (some dir)
      return ⟨midInode, fileName, fileDir⟩
    | .token next rest =>
      match midInode with
      | none => walkFail L none (some dir)
      | some mid =>
        if !InodeDisk.isDir (← L.inodeAt mid).data then
          walkFail L midInode (some dir)
        else
          dirClose L (some dir)
          match ← dirOpen L midInode with
          | none => walkFail L midInode none
          | some d => walk wanted rounds d next rest

def getNameAndDirFromPath (wanted : Bool) (path : CString) : CallM R Resolved := do
  if isRootPath path then
    let fileDir ← (if wanted then liftFs (dirOpenRoot L) else pure none)
    -- The slash stored first is overwritten by the terminator.
    let fileName ← (if wanted then liftFs (copyName L []) else pure none)
    let inode ← liftFs (L.inodeOpen rootDirSector)
    return ⟨inode, fileName, fileDir⟩
  else
    match ← getPathInitialDirectory L path with
    | none => return .null
    | some dir =>
      match ← liftFs (getPathNextToken L path) with
      | .token token rest => liftFs (walk L wanted (path.length + 1) dir token rest)
      | _ => liftFs (walkFail L none (some dir))

/-! ### The calls -/

end Paths

end Pintos.Filesys
