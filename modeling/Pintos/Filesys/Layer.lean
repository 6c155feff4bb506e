import Pintos.Filesys.Inode

/-! The inode layer as the directory code sees it.

Directories, paths and open files are written over an `InodeLayer`: the inode functions and the locks they
call, on some state. `fsLayer` is the real one, with its cache and device. -/
namespace Pintos.Filesys
open Outcome

structure InodeLayer {σ : Type} (R : σ → σ → Prop) where
  malloc : Prog R Panic Bool
  /-- The fields of the `struct inode` a pointer refers to. -/
  inodeAt : Nat → Prog R Panic Inode
  inodeCreate : Nat → Int → Bool → Prog R Panic Bool
  inodeOpen : Nat → Prog R Panic (Option Nat)
  inodeReopen : Option Nat → Prog R Panic (Option Nat)
  inodeClose : Option Nat → Prog R Panic Unit
  inodeRemove : Nat → Prog R Panic Unit
  inodeAllowWrite : Nat → Prog R Panic Unit
  inodeReadAt : Nat → Int → Nat → Prog R Panic (List UInt8)
  inodeWriteAt : Nat → Bytes → Int → Nat → Prog R Panic Nat
  lockAcquire : Nat → Prog R Panic Unit
  lockRelease : Nat → Prog R Panic Unit

/-- The inode layer of the source. -/
def fsLayer : InodeLayer Grows where
  malloc := malloc
  inodeAt := inodeAt
  inodeCreate := inodeCreate bitmapWrite
  inodeOpen := inodeOpen
  inodeReopen := inodeReopen
  inodeClose := inodeClose bitmapWrite
  inodeRemove := inodeRemove
  inodeAllowWrite := inodeAllowWrite
  inodeReadAt := inodeReadAt
  inodeWriteAt := inodeWriteAt
  lockAcquire := lockAcquire
  lockRelease := lockRelease

end Pintos.Filesys
