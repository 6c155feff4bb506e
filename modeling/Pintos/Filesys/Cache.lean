import Pintos.Filesys.State

/-! The buffer cache (`filesys/cache.c`).

Data sectors are cached in a list ordered by sector number. A block enters clean and
used; a write to it makes it dirty. When the list outgrows its size the clock hand
goes round, writing dirty blocks back, taking the used mark off the blocks it passes
and dropping the first block without one. -/
namespace Pintos.Filesys

def cacheBlockSize : Nat := 64

def initCache : FsM Unit :=
  modify fun s => {s with cachedBlocks := [], cacheSize := 0, cachePointer := none}

/-- The search of `get_cache`, which stops at the first larger index. -/
def findCache (index : Nat) : List Cache → Option Cache
  | [] => none
  | ca :: rest =>
    if ca.index = index then some ca else if ca.index > index then none else findCache index rest

def getCache (index : Nat) : FsM (Option Cache) := return findCache index (← get).cachedBlocks

/-- Where `list_insert_ordered` puts a new block: before the first larger index. -/
def insertPosition (index : Nat) : List Cache → Nat
  | [] => 0
  | ca :: rest => if index < ca.index then 0 else insertPosition index rest + 1

/-- `write_back` of the block at a list position. -/
def writeBack (position : Nat) : FsM Unit := do
  let s ← get
  match s.cachedBlocks[position]? with
  | none => throw .badPointer
  | some ca =>
    blockWrite .writeBack ca.index ca.data
    modify fun s => {s with
      cachedBlocks := s.cachedBlocks.modify position fun ca => {ca with isDirty := false}}

/-- `remove_cache` of the block at a list position, with the hand already moved on to
the block after it. -/
def removeCache (position : Nat) : FsM Unit :=
  modify fun s => {s with
    cachedBlocks := s.cachedBlocks.eraseIdx position
    cacheSize := s.cacheSize - 1
    cachePointer := some position}

/-- The loop of `apply_clock_algorithm` with the hand at a list position. -/
def clockLoop : Nat → Nat → FsM Unit
  | 0, _ => throw .diverges
  | turns + 1, position => do
    match (← get).cachedBlocks[position]? with
    | none => throw .badPointer
    | some ca =>
      whenever ca.isDirty (writeBack position)
      if !ca.isUsed then
        removeCache position
      else
        modify fun s => {s with
          cachedBlocks := s.cachedBlocks.modify position fun ca => {ca with isUsed := false}}
        clockLoop turns (if position + 1 = (← get).cachedBlocks.length then 0 else position + 1)

def applyClockAlgorithm : FsM Unit := do
  let s ← get
  let position :=
    match s.cachePointer with
    | none => 0
    | some p => if p = s.cachedBlocks.length then 0 else p
  -- One full turn takes every used mark off; the next block visited is dropped.
  clockLoop (s.cachedBlocks.length + 1) position

def setCache (index : Nat) (buf : Bytes) : FsM Unit := do
  if !(← malloc) then return
  if !(← malloc) then return
  modify fun s =>
    let position := insertPosition index s.cachedBlocks
    {s with
      cachedBlocks := s.cachedBlocks.insertIdx position
        {index := index, isDirty := false, isUsed := true, data := buf}
      -- The hand stays on its block.
      cachePointer := s.cachePointer.map fun p => if position ≤ p then p + 1 else p
      cacheSize := s.cacheSize + 1}
  if (← get).cacheSize > cacheBlockSize then applyClockAlgorithm

/-- `update_cache` of the block `getCache index` returned. -/
def updateCache (index : Nat) (buf : Bytes) (offset size : Nat) : FsM Unit :=
  modify fun s => {s with
    cachedBlocks := s.cachedBlocks.modify (s.cachedBlocks.findIdx fun ca => ca.index == index)
      fun ca => {ca with data := ca.data.patch offset size buf, isDirty := true, isUsed := true}}

/-- The loop of `write_back_all_cache` over the list positions from `position` on. -/
def writeBackFrom : Nat → Nat → FsM Unit
  | 0, _ => return
  | left + 1, position => do
    match (← get).cachedBlocks[position]? with
    | none => return
    | some ca =>
      whenever ca.isDirty (writeBack position)
      writeBackFrom left (position + 1)

def writeBackAllCache : FsM Unit := do
  writeBackFrom (← get).cachedBlocks.length 0

end Pintos.Filesys
