import Pintos.Filesys.State

/-! Allocation of sectors (`filesys/free-map.c`).

Every change of the free map is written to the free-map file, and that write is itself
an inode write. The functions here and in `Inode` take it as the parameter
`bitmapWrite`; `Filesys.bitmapWrite` closes the circle. -/
namespace Pintos.Filesys

def freeMapSector : Nat := 0
def rootDirSector : Nat := 1

def freeMapInit : FsM Unit :=
  modify fun s => {s with
    freeMap := ((Kernel.Bitmap.create s.deviceSize).mark freeMapSector).mark rootDirSector}

section Allocation
variable (bitmapWrite : FsM Bool)

/-- The first of `cnt` consecutive sectors taken from the free map. -/
def freeMapAllocate (cnt : Nat) : FsM (Option Nat) := do
  let s ← get
  match s.freeMap.scanAndFlip 0 cnt false with
  | none => return none
  | some (sector, freeMap) =>
    set {s with freeMap := freeMap}
    let written ← (if s.freeMapFile.isSome then bitmapWrite else pure true)
    if written then
      return some sector
    else
      modify fun s => {s with freeMap := s.freeMap.setMultiple sector cnt false}
      return none

def freeMapRelease (sector cnt : Nat) : FsM Unit := do
  let s ← get
  check (s.freeMap.inRange sector cnt) .bitmapRange
  check (s.freeMap.all sector cnt) .notAllocated
  set {s with freeMap := s.freeMap.setMultiple sector cnt false}
  record ((List.range cnt).map fun i => .release (sector + i))
  let _ ← bitmapWrite

def freeBlockSectorArray : List Nat → FsM Unit
  | [] => return
  | sector :: rest => do
    freeMapRelease bitmapWrite sector 1
    freeBlockSectorArray rest

/-- The loop of `allocate_k_sectors`: the sectors it got, in order, and whether it got
all it asked for. -/
def allocateSectors : Nat → FsM (List Nat × Bool)
  | 0 => return ([], true)
  | k + 1 => do
    match ← freeMapAllocate bitmapWrite 1 with
    | none => return ([], false)
    | some sector =>
      let (rest, complete) ← allocateSectors k
      return (sector :: rest, complete)

def allocateKSectors (k : Nat) : FsM (Option (List Nat)) := do
  if !(← malloc) then return none
  let (sectors, complete) ← allocateSectors bitmapWrite k
  if complete then
    return some sectors
  else
    freeBlockSectorArray bitmapWrite sectors
    return none

end Allocation

end Pintos.Filesys
