import Pintos.Filesys.Blocks
import Pintos.Filesys.Directory

/-! The inode layer as the upper layers may think of it.

A `Store` has files with their bytes, a free map and a table of open inodes: no cache, no
pointer blocks, no device. `Lawful` says that an inode layer behaves like one, as long as
memory does not run out: `rep` relates its states to stores, and every function does what
the store says. What is proved of directories and paths is proved of every lawful layer. -/
namespace Pintos.Filesys
open Outcome

/-- A file: its bytes, and the sectors it occupies. -/
structure Obj where
  isDir : Bool
  bytes : List UInt8
  sectors : Finset Nat
deriving DecidableEq

/-- What the store keeps of a `struct inode`. -/
structure Handle where
  openCnt : Nat
  removed : Bool
  denyWriteCnt : Nat
  locked : Bool
deriving DecidableEq

structure Store where
  size : Nat
  used : Nat → Bool
  files : Nat → Option Obj
  handles : Nat → Option Handle

namespace Store

def freeCnt (a : Store) : Nat := (List.range a.size).countP fun k => !a.used k

def setHandle (a : Store) (i : Nat) (h : Option Handle) : Store :=
  {a with handles := Function.update a.handles i h}

def opened (a : Store) (i : Nat) : Store :=
  a.setHandle i (some (match a.handles i with
    | some h => {h with openCnt := h.openCnt + 1}
    | none => ⟨1, false, 0, false⟩))

/-- The file is gone and its sectors are free. -/
def erased (a : Store) (i : Nat) (f : Obj) : Store :=
  {a with used := fun k => a.used k && decide (k ∉ f.sectors), files := Function.update a.files i none}

def closed (a : Store) (i : Nat) (f : Obj) (h : Handle) : Store :=
  if h.openCnt = 1 then
    (if h.removed then a.erased i f else a).setHandle i none
  else
    a.setHandle i (some {h with openCnt := h.openCnt - 1})

/-- The file has become `f`, with the sectors of `l` taken. -/
def grown (a : Store) (i : Nat) (f : Obj) (l : List Nat) : Store :=
  {a with used := fun k => a.used k || decide (k ∈ l), files := Function.update a.files i (some f)}

def setUsed (a : Store) (k : Nat) (b : Bool) : Store := {a with used := Function.update a.used k b}

/-- The sectors of `l` can be taken. -/
structure Supply (a : Store) (l : List Nat) : Prop where
  nodup : l.Nodup
  free : ∀ k ∈ l, a.used k = false ∧ k < a.size

/-- `w` bytes of `buffer` over the bytes `b` from `offset` on give `b'`. -/
structure Patched (b b' : List UInt8) (offset w : Nat) (buffer : Bytes) : Prop where
  le : b.length ≤ b'.length
  inside : ∀ o, offset ≤ o → o < offset + w → b'[o]? = some (buffer (o - offset))
  outside : ∀ o < b.length, ¬ (offset ≤ o ∧ o < offset + w) → b'[o]? = b[o]?

/-- What a write to the file `f` may do. -/
structure Written (a : Store) (f f' : Obj) (l : List Nat) (buffer : Bytes) (size offset w : Nat) : Prop where
  supply : a.Supply l
  isDir : f'.isDir = f.isDir
  sectors : f'.sectors = f.sectors ∪ l.toFinset
  patched : Patched f.bytes f'.bytes offset w buffer
  length : f'.bytes.length = f.bytes.length ∨ f'.bytes.length = offset + size
  count : l.length = blockCnt f'.bytes.length - blockCnt f.bytes.length
  le : w ≤ size
  enough : blockCnt (offset + size) - blockCnt f.bytes.length ≤ a.freeCnt → w = size
  /-- A file that cannot grow takes what lies inside it. -/
  clamped : w = size ∨
    f'.bytes.length = f.bytes.length ∧ f.bytes.length ≤ offset + size ∧ w = f.bytes.length - offset

/-- Files own their sectors, and open inodes are files. -/
structure WF (a : Store) : Prop where
  self : ∀ i f, a.files i = some f → i ∈ f.sectors
  owned : ∀ i f k, a.files i = some f → k ∈ f.sectors → a.used k = true ∧ k < a.size
  apart : ∀ i j f g k, a.files i = some f → a.files j = some g → k ∈ f.sectors → k ∈ g.sectors → i = j
  handle : ∀ i h, a.handles i = some h → (∃ f, a.files i = some f) ∧ 0 < h.openCnt
  small : ∀ i f, a.files i = some f → f.bytes.length < maxFileSize
  map : ∃ f, a.files freeMapSector = some f

/-- No file owns the sector. -/
def Loose (a : Store) (k : Nat) : Prop := ∀ i f, a.files i = some f → k ∉ f.sectors

/-! ### Handles and files -/

variable {a : Store} {i : Nat} {h : Handle} {x y : Option Handle}

@[simp] theorem handles_setHandle (a : Store) (i : Nat) (x : Option Handle) : (a.setHandle i x).handles i = x := by
  simp [setHandle]

theorem setHandle_self (hh : a.handles i = x) : a.setHandle i x = a := by
  unfold setHandle
  rw [← hh, Function.update_eq_self]

@[simp] theorem setHandle_setHandle (a : Store) (i : Nat) (x y : Option Handle) :
    (a.setHandle i x).setHandle i y = a.setHandle i y := by
  simp [setHandle]

theorem Written.of_setHandle {f f' : Obj} {l : List Nat} {buffer : Bytes} {size offset w : Nat}
    (hw : (a.setHandle i x).Written f f' l buffer size offset w) : a.Written f f' l buffer size offset w :=
  ⟨⟨hw.supply.nodup, hw.supply.free⟩, hw.isDir, hw.sectors, hw.patched, hw.length, hw.count, hw.le, hw.enough, hw.clamped⟩

end Store

/-- The layer behaves as a store. `rep true` also says that sectors may be taken; `ok`
are the inodes that may be worked on, and a sector is `fresh` from its allocation to the
creation of an inode there. -/
structure Lawful {σ : Type} {R : σ → σ → Prop} (L : InodeLayer R) (rep : Bool → σ → Store → Prop)
    (ok : Nat → Prop) (fresh : σ → Nat → Prop) : Prop where
  weaken : ∀ {s a}, rep true s a → rep false s a
  wf : ∀ {t s a}, rep t s a → a.WF
  malloc : ∀ {t s a}, rep t s a → Ends L.malloc s (fun b s' => b = true ∧ rep t s' a) fun _ _ => False
  inodeAt : ∀ {t s a i h f}, rep t s a → ok i → a.handles i = some h → a.files i = some f →
    Ends (L.inodeAt i) s (fun n s' => rep t s' a ∧ n.sector = i ∧ n.openCnt = h.openCnt ∧
      InodeDisk.isDir n.data = f.isDir ∧ InodeDisk.length n.data = f.bytes.length) fun _ _ => False
  inodeCreate : ∀ {s a i len isDir}, rep true s a → fresh s i → a.used i = true → a.Loose i →
    len < maxFileSize → Ends (L.inodeCreate i (len : Nat) isDir) s
      (fun r s' => if r then ∃ f l, rep true s' (a.grown i f l) ∧ a.Supply l ∧ f.isDir = isDir ∧
          f.bytes.length = len ∧ f.sectors = insert i l.toFinset ∧ l.length = blockCnt len + 1
        else rep true s' a ∧ a.freeCnt < blockCnt len + 1) fun _ _ => False
  inodeOpen : ∀ {t s a i f}, rep t s a → ok i → a.files i = some f →
    Ends (L.inodeOpen i) s (fun r s' => r = some i ∧ rep t s' (a.opened i)) fun _ _ => False
  inodeReopen : ∀ {t s a i h}, rep t s a → ok i → a.handles i = some h →
    Ends (L.inodeReopen (some i)) s (fun r s' => r = some i ∧ rep t s' (a.opened i)) fun _ _ => False
  inodeClose_none : ∀ {t s a}, rep t s a → Ends (L.inodeClose none) s (fun _ s' => rep t s' a) fun _ _ => False
  inodeClose : ∀ {t s a i h f}, rep t s a → ok i → a.handles i = some h → a.files i = some f → h.locked = false →
    Ends (L.inodeClose (some i)) s
      (fun _ s' => rep (t && !(h.openCnt == 1 && h.removed)) s' (a.closed i f h)) fun _ _ => False
  inodeRemove : ∀ {t s a i h}, rep t s a → ok i → a.handles i = some h →
    Ends (L.inodeRemove i) s (fun _ s' => rep t s' (a.setHandle i (some {h with removed := true}))) fun _ _ => False
  inodeAllowWrite : ∀ {t s a i h}, rep t s a → ok i → a.handles i = some h → 0 < h.denyWriteCnt →
    h.denyWriteCnt ≤ h.openCnt → Ends (L.inodeAllowWrite i) s
      (fun _ s' => rep t s' (a.setHandle i (some {h with denyWriteCnt := h.denyWriteCnt - 1}))) fun _ _ => False
  inodeReadAt : ∀ {t s a i h f size offset}, rep t s a → ok i → a.handles i = some h → a.files i = some f →
    offset + size < 2 ^ 31 → Ends (L.inodeReadAt i (size : Nat) offset) s
      (fun r s' => r = (f.bytes.drop offset).take size ∧ rep t s' a) fun _ _ => False
  inodeWriteAt : ∀ {s a i h f buffer size offset}, rep true s a → ok i → a.handles i = some h →
    a.files i = some f → h.denyWriteCnt = 0 → size < 2 ^ 31 → offset < 2 ^ 31 →
    Ends (L.inodeWriteAt i buffer (size : Nat) offset) s
      (fun w s' => ∃ f' l, a.Written f f' l buffer size offset w ∧ rep true s' (a.grown i f' l))
      fun e _ => e = .fileSize ∧ maxFileSize ≤ offset + size
  lockAcquire : ∀ {t s a i h}, rep t s a → ok i → a.handles i = some h → h.locked = false →
    Ends (L.lockAcquire i) s (fun _ s' => rep t s' (a.setHandle i (some {h with locked := true}))) fun _ _ => False
  lockRelease : ∀ {t s a i h}, rep t s a → ok i → a.handles i = some h → h.locked = true →
    Ends (L.lockRelease i) s (fun _ s' => rep t s' (a.setHandle i (some {h with locked := false}))) fun _ _ => False

end Pintos.Filesys
