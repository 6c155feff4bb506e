import Pintos.Filesys.Layer

/-! Open files (`filesys/file.c`). -/
namespace Pintos.Filesys
open Outcome

section Files
variable {σ : Type} {R : σ → σ → Prop} [Std.Refl R] [IsTrans σ R] (L : InodeLayer R)

def fileOpen (inode : Option Nat) : Prog R Panic (Option File) := do
  let allocated ← L.malloc
  match inode, allocated with
  | some i, true => return some ⟨i, 0, false⟩
  | _, _ =>
    L.inodeClose inode
    return none

def fileAllowWrite (file : File) : Prog R Panic File := do
  if file.denyWrite then
    L.inodeAllowWrite file.inode
    return {file with denyWrite := false}
  else
    return file

def fileClose (file : Option File) : Prog R Panic Unit := do
  match file with
  | none => return
  | some f =>
    let f ← fileAllowWrite L f
    L.inodeClose (some f.inode)

def fileReadAt (file : File) (size : Int) (fileOfs : Nat) : Prog R Panic (List UInt8) := do
  L.lockAcquire file.inode
  let bytes ← L.inodeReadAt file.inode size fileOfs
  L.lockRelease file.inode
  return bytes

end Files

end Pintos.Filesys
