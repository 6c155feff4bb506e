import Pintos.Filesys.Cache
import Pintos.Filesys.FreeMap

/-! Inodes (`filesys/inode.c`).

An inode owns one double-indirect block, which points at indirect blocks, which point
at the data sectors. Inodes and pointer blocks go straight to the device, data sectors
through the cache. A `struct inode_disk` and a `struct pointer_block_disk` are a sector
of bytes read as 32-bit words. Offsets and sizes are `off_t`, 32-bit signed: a sum that
may leave the type is wrapped with `offT`. -/
namespace Pintos.Filesys

def inodeMagic : Nat := 0x494e4f44
def pointerBlockPointersCount : Nat := 128
def maxFileSize : Nat := pointerBlockPointersCount * pointerBlockPointersCount * blockSectorSize
def readAheadSize : Nat := 3

/-- A value as `off_t` holds it. -/
def offT (x : Int) : Int := Int.bmod x (2 ^ 32)

def divRoundUp (x step : Int) : Int := (x + step - 1).tdiv step

def bytesToSectors (size : Int) : Int := divRoundUp size blockSectorSize

def sectorsToIndirectBlocks (sectors : Int) : Int := divRoundUp sectors pointerBlockPointersCount

/-! ### `struct inode_disk` and `struct pointer_block_disk` -/

namespace InodeDisk

def length (d : Bytes) : Int := if d.word 1 < 2 ^ 31 then d.word 1 else (d.word 1 : Int) - 2 ^ 32
def isDir (d : Bytes) : Bool := d.word 3 != 0
def doubleIndirectBlock (d : Bytes) : Nat := d.word 4

def setLength (d : Bytes) (size : Int) : Bytes := d.setWord 1 size.toNat
def setDoubleIndirectBlock (d : Bytes) (sector : Nat) : Bytes := d.setWord 4 sector

/-- The inode `inode_create` starts from. -/
def fresh (isDir : Bool) : Bytes :=
  ((Bytes.setWord (fun _ => 0) 1 0).setWord 2 inodeMagic).setWord 3 (if isDir then 1 else 0)

end InodeDisk

def pointer (block : Bytes) (k : Nat) : Nat := block.word k

/-! ### The list of open inodes -/

def findInode (sector : Nat) (inodes : List Inode) : Option Inode :=
  inodes.find? fun inode => inode.sector == sector

/-- The open inode a pointer refers to. -/
def inodeAt (inode : Nat) : FsM Inode := do
  match findInode inode (← get).openInodes with
  | none => throw .badPointer
  | some n => return n

def modifyInode (inode : Nat) (f : Inode → Inode) : FsM Unit :=
  modify fun s => {s with openInodes := s.openInodes.map fun n => if n.sector = inode then f n else n}

def lockAcquire (inode : Nat) : FsM Unit := do
  let n ← inodeAt inode
  check (!n.locked) .lockHeld
  modifyInode inode fun n => {n with locked := true}

def lockRelease (inode : Nat) : FsM Unit := do
  let n ← inodeAt inode
  check n.locked .lockNotHeld
  modifyInode inode fun n => {n with locked := false}

def inodeReopen (inode : Option Nat) : FsM (Option Nat) := do
  match inode with
  | none => return none
  | some i =>
    let _ ← inodeAt i
    modifyInode i fun n => {n with openCnt := n.openCnt + 1}
    return some i

def inodeOpen (sector : Nat) : FsM (Option Nat) := do
  match findInode sector (← get).openInodes with
  | some _ => inodeReopen (some sector)
  | none =>
    if !(← malloc) then return none
    let data ← blockRead sector
    modify fun s => {s with
      openInodes := ⟨sector, 1, false, 0, false, data⟩ :: s.openInodes}
    return some sector

def inodeRemove (inode : Nat) : FsM Unit := do
  let _ ← inodeAt inode
  modifyInode inode fun n => {n with removed := true}

def inodeAllowWrite (inode : Nat) : FsM Unit := do
  let n ← inodeAt inode
  check (0 < n.denyWriteCnt) .denyCount
  check (n.denyWriteCnt ≤ n.openCnt) .denyCount
  modifyInode inode fun n => {n with denyWriteCnt := n.denyWriteCnt - 1}

/-! ### Growing an inode -/

section Growth
variable (bitmapWrite : FsM Bool)

/-- The new indirect blocks, entered in the double-indirect block from slot `k` on. -/
def enterIndirectBlocks (block : Bytes) : Nat → List Nat → Bytes
  | _, [] => block
  | k, sector :: rest => enterIndirectBlocks (block.setWord k sector) (k + 1) rest

/-- The indirect block in the buffer goes to the device, if there is one. -/
def flushIndirect (doubleIndirect : Bytes) (last : Option Nat) (buffer : Bytes) : FsM Unit :=
  match last with
  | none => return
  | some ind => blockWrite .indirect (pointer doubleIndirect ind) buffer

/-- The second loop of `extend_inode_disk_to_size`: the new data sectors, entered from
file sector `sectorToBuild` on. `last` is the indirect block whose contents are in the
buffer; the buffer is written when the next block is needed and at the end. -/
def enterSectors (doubleIndirect : Bytes) : Nat → List Nat → Option Nat → Bytes → FsM Unit
  | _, [], last, buffer => flushIndirect doubleIndirect last buffer
  | sectorToBuild, sector :: rest, last, buffer => do
    let ind := sectorToBuild / pointerBlockPointersCount
    let buffer ← (if last = some ind then pure buffer else do
      flushIndirect doubleIndirect last buffer
      blockRead (pointer doubleIndirect ind))
    enterSectors doubleIndirect (sectorToBuild + 1) rest (some ind)
      (buffer.setWord (sectorToBuild % pointerBlockPointersCount) sector)

/-- The new blocks, entered in the pointer blocks on the device. -/
def enterBlocks (doubleIndirectBlock currentSectors currentIndirectBlocks : Nat)
    (indirectBlocks sectors : List Nat) : FsM Unit := do
  let doubleIndirect ← blockRead doubleIndirectBlock
  let doubleIndirect := enterIndirectBlocks doubleIndirect currentIndirectBlocks indirectBlocks
  blockWrite .doubleIndirect doubleIndirectBlock doubleIndirect
  enterSectors doubleIndirect currentSectors sectors none (fun _ => 0)

/-- `extend_inode_disk_to_size` from the first allocation to the label `done`: take the
new sectors and enter them, or give back what was taken. -/
def buildSectors (doubleIndirectBlock currentSectors currentIndirectBlocks newSectors
    newIndirectBlocks : Nat) : FsM Bool := do
  let indirectBlocks ← (if 0 < newIndirectBlocks then
    allocateKSectors bitmapWrite newIndirectBlocks else pure (some []))
  match indirectBlocks with
  | none => return false
  | some indirectBlocks =>
    if !(← malloc) then
      freeBlockSectorArray bitmapWrite indirectBlocks
      return false
    match ← allocateKSectors bitmapWrite newSectors with
    | none =>
      freeBlockSectorArray bitmapWrite indirectBlocks
      return false
    | some sectors =>
      if !(← malloc) then
        freeBlockSectorArray bitmapWrite sectors
        freeBlockSectorArray bitmapWrite indirectBlocks
        return false
      enterBlocks doubleIndirectBlock currentSectors currentIndirectBlocks indirectBlocks sectors
      return true

/-- Whether the inode now has the size, and its `struct inode_disk` after the call. -/
def extendInodeDiskToSize (inodeDiskSector : Nat) (diskInode : Bytes) (size : Int) :
    FsM (Bool × Bytes) := do
  check (size < maxFileSize) .fileSize
  check (0 ≤ size) .fileSize
  if size < InodeDisk.length diskInode then
    return (true, diskInode)
  let currentSectors := bytesToSectors (InodeDisk.length diskInode)
  let sectorsNeeded := bytesToSectors size
  let currentIndirectBlocks := sectorsToIndirectBlocks currentSectors
  let indirectBlocksNeeded := sectorsToIndirectBlocks sectorsNeeded
  let newSectors := sectorsNeeded - currentSectors
  let newIndirectBlocks := indirectBlocksNeeded - currentIndirectBlocks
  check (0 ≤ newSectors) .blockCount
  check (0 ≤ newIndirectBlocks) .blockCount
  let success ← (if newSectors = 0 then pure true else
    buildSectors bitmapWrite (InodeDisk.doubleIndirectBlock diskInode) currentSectors.toNat
      currentIndirectBlocks.toNat newSectors.toNat newIndirectBlocks.toNat)
  if success then
    let diskInode := InodeDisk.setLength diskInode size
    blockWrite .inode inodeDiskSector diskInode
    return (true, diskInode)
  else
    return (false, diskInode)

def inodeCreate (sector : Nat) (length : Int) (isDir : Bool) : FsM Bool := do
  check (0 ≤ length) .createLength
  if !(← malloc) then return false
  match ← freeMapAllocate bitmapWrite 1 with
  | none => return false
  | some block =>
    let diskInode := InodeDisk.setDoubleIndirectBlock (InodeDisk.fresh isDir) block
    let (success, _) ← extendInodeDiskToSize bitmapWrite sector diskInode length
    whenever (!success) (freeMapRelease bitmapWrite block 1)
    return success

/-! ### Closing -/

/-- The indirect block `ind`, which is already in the buffer if it was the last one used. -/
def loadIndirect (doubleIndirect : Bytes) (last : Option Nat) (ind : Nat) (buffer : Bytes) : FsM Bytes :=
  if last = some ind then pure buffer else blockRead (pointer doubleIndirect ind)

/-- The loop of `inode_close` that releases the data sectors, `left` of them from file
sector `i` on, reading each indirect block when it comes to it. -/
def releaseSectors (doubleIndirect : Bytes) : Nat → Nat → Option Nat → Bytes → FsM Unit
  | 0, _, _, _ => return
  | left + 1, i, last, buffer => do
    let ind := i / pointerBlockPointersCount
    let buffer ← loadIndirect doubleIndirect last ind buffer
    freeMapRelease bitmapWrite (pointer buffer (i % pointerBlockPointersCount)) 1
    releaseSectors doubleIndirect left (i + 1) (some ind) buffer

def releaseIndirectBlocks (doubleIndirect : Bytes) : Nat → Nat → FsM Unit
  | 0, _ => return
  | left + 1, i => do
    freeMapRelease bitmapWrite (pointer doubleIndirect i) 1
    releaseIndirectBlocks doubleIndirect left (i + 1)

/-- The blocks of an inode go back to the free map. -/
def releaseBlocks (sector : Nat) (data : Bytes) (sectors indirectBlocks : Nat) : FsM Unit := do
  let doubleIndirect ← blockRead (InodeDisk.doubleIndirectBlock data)
  releaseSectors bitmapWrite doubleIndirect sectors 0 none (fun _ => 0)
  releaseIndirectBlocks bitmapWrite doubleIndirect indirectBlocks 0
  freeMapRelease bitmapWrite (InodeDisk.doubleIndirectBlock data) 1
  freeMapRelease bitmapWrite sector 1

/-- `inode_close` of a removed inode from the allocation of its buffers on. -/
def deallocate (sector : Nat) (data : Bytes) : FsM Unit := do
  let sectors := bytesToSectors (InodeDisk.length data)
  let indirectBlocks := sectorsToIndirectBlocks sectors
  let first ← malloc
  let second ← malloc
  check (first && second) .closeBuffers
  releaseBlocks bitmapWrite sector data sectors.toNat indirectBlocks.toNat

def inodeClose (inode : Option Nat) : FsM Unit := do
  match inode with
  | none => return
  | some i =>
    lockAcquire i
    let n ← inodeAt i
    if n.openCnt = 1 then
      modify fun s => {s with openInodes := s.openInodes.filter fun n => n.sector != i}
      whenever n.removed (deallocate bitmapWrite n.sector n.data)
    else
      modifyInode i fun n => {n with openCnt := n.openCnt - 1}
      lockRelease i

end Growth

/-! ### Reading -/

/-- Bytes `offset .. offset + n - 1` of a buffer. -/
def slice (b : Bytes) (offset n : Nat) : List UInt8 := (List.range n).map fun t => b (offset + t)

/-- Bring a sector into the cache unless it is there. -/
def cacheSector (sector : Nat) : FsM Unit := do
  match ← getCache sector with
  | some _ => return
  | none => setCache sector (← blockRead sector)

/-- `inode_read_ahead`, with `left` of the sectors after `index` to go. -/
def readAheadFrom (index : Nat) : Nat → Nat → FsM Unit
  | 0, _ => return
  | left + 1, i => do
    let sector := (index + i) % 2 ^ 32
    cacheSector sector
    readAheadFrom index left (i + 1)

def inodeReadAhead (index : Nat) : FsM Unit := readAheadFrom index readAheadSize 1

/-- A round of the read loop: the bytes of the sector, and whether the bounce buffer has
been allocated. A sector that is not cached is read and cached, a whole one straight into
the caller's buffer and any other through the bounce buffer, without which the loop ends. -/
def readSector (ahead : Bool) (sector sectorOffset chunkSize : Nat) (sectorBuffer : Bool) :
    FsM (Option Bytes × Bool) := do
  match ← getCache sector with
  | some ca => return (some ca.data, sectorBuffer)
  | none =>
    let whole := sectorOffset = 0 && chunkSize = blockSectorSize
    let sectorBuffer ← (if whole || sectorBuffer then pure sectorBuffer else malloc)
    if !whole && !sectorBuffer then return (none, sectorBuffer)
    let block ← blockRead sector
    setCache sector block
    whenever ahead (inodeReadAhead sector)
    return (some block, sectorBuffer)

/-- The loop of `inode_read_at`. `last` is the indirect block in `indirect`;
`sectorBuffer` is whether the bounce buffer has been allocated; `bytes` is what has been
read. Every round reads at least one byte, so `rounds` starts at the number of bytes. -/
def readLoop (ahead : Bool) (doubleIndirect : Bytes) : Nat → Nat → Nat → Option Nat → Bytes → Bool →
    List UInt8 → FsM (List UInt8)
  | 0, _, _, _, _, _, bytes => return bytes
  | rounds + 1, size, offset, last, indirect, sectorBuffer, bytes => do
    if size = 0 then return bytes
    let sectorOffset := offset % blockSectorSize
    let sectorInd := offset / blockSectorSize
    let indirectBlockInd := sectorInd / pointerBlockPointersCount
    let chunkSize := min (blockSectorSize - sectorOffset) size
    let indirect ← loadIndirect doubleIndirect last indirectBlockInd indirect
    let sector := pointer indirect (sectorInd % pointerBlockPointersCount)
    match ← readSector ahead sector sectorOffset chunkSize sectorBuffer with
    | (none, _) => return bytes
    | (some block, sectorBuffer) =>
      readLoop ahead doubleIndirect rounds (size - chunkSize) (offset + chunkSize)
        (some indirectBlockInd) indirect sectorBuffer (bytes ++ slice block sectorOffset chunkSize)

/-- `inode_read_at` and `inode_read_at_ahead`, which differ in the read-ahead after a
miss. The bytes read are the result; the source returns how many they are. -/
def readAt (ahead : Bool) (inode : Nat) (size : Int) (offset : Nat) : FsM (List UInt8) := do
  let n ← inodeAt inode
  let length := InodeDisk.length n.data
  if (offset : Int) > length then return []
  let size := if offT (size + offset) > length then length - offset else size
  if !(← malloc) then return []
  if !(← malloc) then return []
  let doubleIndirect ← blockRead (InodeDisk.doubleIndirectBlock n.data)
  readLoop ahead doubleIndirect size.toNat size.toNat offset none (fun _ => 0) false []

def inodeReadAt (inode : Nat) (size : Int) (offset : Nat) : FsM (List UInt8) :=
  readAt false inode size offset

def inodeReadAtAhead (inode : Nat) (size : Int) (offset : Nat) : FsM (List UInt8) :=
  readAt true inode size offset

/-! ### Writing -/

/-- A round of the write loop: whether the chunk has been written, and whether the bounce
buffer has been allocated. A cached sector is updated in the cache. Any other is written
through, after being read if only part of it is written, and then cached. -/
def writeSector (sector : Nat) (chunk : Bytes) (sectorOffset chunkSize : Nat) (sectorBuffer : Bool) :
    FsM (Bool × Bool) := do
  match ← getCache sector with
  | some _ =>
    updateCache sector chunk sectorOffset chunkSize
    return (true, sectorBuffer)
  | none =>
    if sectorOffset = 0 && chunkSize = blockSectorSize then
      blockWrite .data sector chunk
      setCache sector chunk
      return (true, sectorBuffer)
    else
      let sectorBuffer ← (if sectorBuffer then pure true else malloc)
      if !sectorBuffer then return (false, false)
      let block ← blockRead sector
      let block := block.patch sectorOffset chunkSize chunk
      blockWrite .data sector block
      setCache sector block
      return (true, true)

/-- The loop of `inode_write_at`; `written` is the number of bytes already written. -/
def writeLoop (doubleIndirect buffer : Bytes) : Nat → Nat → Nat → Option Nat → Bytes → Bool → Nat →
    FsM Nat
  | 0, _, _, _, _, _, written => return written
  | rounds + 1, size, offset, last, indirect, sectorBuffer, written => do
    if size = 0 then return written
    let sectorOffset := offset % blockSectorSize
    let sectorInd := offset / blockSectorSize
    let indirectBlockInd := sectorInd / pointerBlockPointersCount
    let chunkSize := min (blockSectorSize - sectorOffset) size
    let indirect ← loadIndirect doubleIndirect last indirectBlockInd indirect
    let sector := pointer indirect (sectorInd % pointerBlockPointersCount)
    let chunk : Bytes := fun t => buffer (written + t)
    match ← writeSector sector chunk sectorOffset chunkSize sectorBuffer with
    | (false, _) => return written
    | (true, sectorBuffer) =>
      writeLoop doubleIndirect buffer rounds (size - chunkSize) (offset + chunkSize)
        (some indirectBlockInd) indirect sectorBuffer (written + chunkSize)

section Writing
variable (bitmapWrite : FsM Bool)

/-- `inode_write_at` after the extension, with `size` bytes to write. -/
def writeSectors (inode : Nat) (buffer : Bytes) (size : Int) (offset : Nat) : FsM Nat := do
  let n ← inodeAt inode
  if !(← malloc) then return 0
  if !(← malloc) then return 0
  let doubleIndirect ← blockRead (InodeDisk.doubleIndirectBlock n.data)
  writeLoop doubleIndirect buffer size.toNat size.toNat offset none (fun _ => 0) false 0

/-- The number of bytes written. -/
def inodeWriteAtWith (inode : Nat) (buffer : Bytes) (size : Int) (offset : Nat) : FsM Nat := do
  let n ← inodeAt inode
  if n.denyWriteCnt ≠ 0 then return 0
  if size = 0 then return 0
  let size := if offT (size + offset) > maxFileSize then (maxFileSize : Int) - offset else size
  let (extended, data) ← extendInodeDiskToSize bitmapWrite n.sector n.data (offT (offset + size))
  modifyInode inode fun n => {n with data := data}
  if extended then
    writeSectors inode buffer size offset
  else if offset < InodeDisk.length data then
    writeSectors inode buffer (InodeDisk.length data - offset) offset
  else
    return 0

end Writing

/-! ### The free-map file -/

/-- `bitmap_write (free_map, free_map_file)`, through `file_write_at`. Should the write
have to extend the free-map file it comes back here with the file's lock held, and
`lockAcquire` stops it; the first argument bounds these returns. -/
def bitmapWriteAt : Nat → FsM Bool
  | 0 => throw .lockHeld
  | depth + 1 => do
    let s ← get
    match s.freeMapFile with
    | none => throw .badPointer
    | some file =>
      lockAcquire file.inode
      let written ← inodeWriteAtWith (bitmapWriteAt depth) file.inode s.freeMap.image
        s.freeMap.fileSize 0
      lockRelease file.inode
      return written = s.freeMap.fileSize

def bitmapWrite : FsM Bool := bitmapWriteAt 2

def inodeWriteAt (inode : Nat) (buffer : Bytes) (size : Int) (offset : Nat) : FsM Nat :=
  inodeWriteAtWith bitmapWrite inode buffer size offset

end Pintos.Filesys
