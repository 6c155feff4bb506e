import Pintos.Filesys.Directory

/-! File descriptors (`filesys/file-descriptor.c`).

A process has a list of descriptors and a counter for their numbers. A descriptor leads to a
`struct file` and, for a directory, a `struct dir`, both known here by their addresses; what is
done with them is the business of a `FileLayer`. -/
namespace Pintos.Filesys
open Outcome

def maxFd : Int := 1025
def initialFdCount : Int := 2

/-- `struct file_descriptor`. -/
structure Descriptor where
  fd : Int
  file : Nat
  dir : Option Nat
deriving Repr, DecidableEq

/-- What the descriptors are built on. -/
structure FileLayer {σ : Type} (R : σ → σ → Prop) where
  pallocGetPage : Prog R Panic Bool
  filesysOpen : CString → Prog R Panic (Option Nat)
  /-- `file->inode->data.isDir`. -/
  isDir : Nat → Prog R Panic Bool
  /-- `dir_open (inode_reopen (file->inode))`. -/
  dirOpen : Nat → Prog R Panic (Option Nat)
  fileClose : Nat → Prog R Panic Unit
  dirClose : Nat → Prog R Panic Unit
  fileWrite : Nat → Bytes → Int → Prog R Panic Int
  /-- The number of bytes read, and the bytes. -/
  fileRead : Nat → Int → Bool → Prog R Panic (Int × List UInt8)
  fileLength : Nat → Prog R Panic Int
  fileSeek : Nat → Int → Prog R Panic Unit
  fileTell : Nat → Prog R Panic Int
  dirReaddir : Nat → Prog R Panic (Option CString)
  /-- `file->inode->sector`. -/
  inumber : Nat → Prog R Panic Nat

/-- A process, as far as its descriptors go, and the file system below it. -/
structure Process (σ : Type) where
  world : σ
  fdList : List Descriptor
  fdCounter : Int

section
variable {σ α : Type} {R : σ → σ → Prop}

def Process.Moves (R : σ → σ → Prop) (p p' : Process σ) : Prop := R p.world p'.world

instance [Std.Refl R] : Std.Refl (Process.Moves R) := ⟨fun p => Std.Refl.refl p.world⟩
instance [IsTrans σ R] : IsTrans (Process σ) (Process.Moves R) :=
  ⟨fun a b c h h' => IsTrans.trans a.world b.world c.world h h'⟩

abbrev ProcessM (R : σ → σ → Prop) := Prog (Process.Moves R) Panic

def liftWorld (m : Prog R Panic α) : ProcessM R α where
  run := fun p =>
    match m.run p.world with
    | .ok a s => .ok a {p with world := s}
    | .error e s => .error e {p with world := s}
  within := by
    intro p
    have h := m.within p.world
    unfold Process.Moves
    cases hm : m.run p.world <;> (rw [hm] at h; exact h)

variable [Std.Refl R]

def modifyFds (f : List Descriptor → List Descriptor) : ProcessM R Unit :=
  Prog.update (fun p => {p with fdList := f p.fdList}) fun p => Std.Refl.refl p.world

/-- The counter is an `int`. -/
def allocateFdNumber : ProcessM R Int where
  run := fun p => .ok p.fdCounter {p with fdCounter := (p.fdCounter + 1).bmod (2 ^ 32)}
  within := fun p => Std.Refl.refl p.world

def getFileFromCurrentThread (fd : Int) : ProcessM R (Option Descriptor) :=
  Prog.look fun p => p.fdList.find? (·.fd == fd)

end

/-- The descriptor itself, or -1. -/
def isValidFd (fd : Int) : Int :=
  if maxFd < fd then -1
  else if fd < initialFdCount then -1
  else fd

section Functions
variable {σ : Type} {R : σ → σ → Prop} [Std.Refl R] [IsTrans σ R] (L : FileLayer R)

/-- The file and the directory of a descriptor. -/
def closeFiles (f : Descriptor) : ProcessM R Unit := do
  liftWorld (L.fileClose f.file)
  match f.dir with
  | none => return
  | some d => liftWorld (L.dirClose d)

def closeFd (fd : Int) (removeFromFdList : Bool) : ProcessM R Bool := do
  let fd := isValidFd fd
  if fd = -1 then return false
  match ← getFileFromCurrentThread fd with
  | none => return false
  | some f =>
    closeFiles L f
    if removeFromFdList then modifyFds (·.eraseP (·.fd == f.fd))
    return true

def createFileDescriptor (fileName : CString) : ProcessM R (Option Descriptor) := do
  match ← liftWorld (L.filesysOpen fileName) with
  | none => return none
  | some file =>
    -- Without a page the file stays open.
    if !(← liftWorld L.pallocGetPage) then return none
    let fd ← allocateFdNumber
    let dir ← (do if ← liftWorld (L.isDir file) then liftWorld (L.dirOpen file) else return none)
    modifyFds (· ++ [⟨fd, file, dir⟩])
    return some ⟨fd, file, dir⟩

def fdIsdir (fd : Int) : ProcessM R Bool := do
  let fd := isValidFd fd
  if fd = -1 then return false
  match ← getFileFromCurrentThread fd with
  | none => return false
  | some f => return f.dir.isSome

def fdWrite (fd : Int) (buffer : Bytes) (size : UInt32) : ProcessM R Int := do
  let fd := isValidFd fd
  if fd = -1 then return -1
  if ← fdIsdir fd then return -1
  match ← getFileFromCurrentThread fd with
  | none => return -1
  | some f => liftWorld (L.fileWrite f.file buffer size.toBitVec.toInt)

def fdRead (fd : Int) (size : UInt32) (withAhead : Bool) : ProcessM R (Int × List UInt8) := do
  let fd := isValidFd fd
  if fd = -1 then return (-1, [])
  if ← fdIsdir fd then return (-1, [])
  match ← getFileFromCurrentThread fd with
  | none => return (-1, [])
  | some f => liftWorld (L.fileRead f.file size.toBitVec.toInt withAhead)

def sizeFile (fd : Int) : ProcessM R Int := do
  match ← getFileFromCurrentThread fd with
  | none => return -1
  | some f => liftWorld (L.fileLength f.file)

def seekFile (fd : Int) (position : UInt32) : ProcessM R Unit := do
  match ← getFileFromCurrentThread fd with
  | none => return
  | some f => liftWorld (L.fileSeek f.file position.toBitVec.toInt)

def tellFile (fd : Int) : ProcessM R UInt32 := do
  match ← getFileFromCurrentThread fd with
  | none => return UInt32.ofInt (-1)
  | some f => return UInt32.ofInt (← liftWorld (L.fileTell f.file))

def readDir (f : Descriptor) : ProcessM R (Option CString) := do
  match f.dir with
  | none => return none
  | some d => liftWorld (L.dirReaddir d)

def fdReaddir (fd : Int) : ProcessM R (Option CString) := do
  let fd := isValidFd fd
  if fd = -1 then return none
  match ← getFileFromCurrentThread fd with
  | none => return none
  | some f => readDir L f

/-- The first loop of `thread_exit`. -/
def closeEach : List Descriptor → ProcessM R Unit
  | [] => return
  | f :: rest => do
    let _ ← closeFd L f.fd false
    closeEach rest

/-- What `thread_exit` does to the descriptors: it closes them all and then frees them. -/
def exitFds : ProcessM R Unit := do
  closeEach L (← (Prog.look Process.fdList : ProcessM R (List Descriptor)))
  modifyFds fun _ => []

end Functions

end Pintos.Filesys
