import Pintos.Filesys.Path

/-! Formatting and mounting (`filesys_init`, `do_format` and the file side of
`free-map.c`). -/
namespace Pintos.Filesys

/-- The state the modules start from, on a device with the given contents. The static
variables are null and the lists uninitialized. -/
def powerOn (device : Nat → Bytes) (size : UInt32) : Fs where
  device := device
  deviceSize := size.toNat
  cachedBlocks := []
  cacheSize := 0
  cachePointer := none
  freeMap := .create 0
  freeMapFile := none
  openInodes := []
  heap := []
  trace := []

def inodeInit : FsM Unit := do
  modify fun s => {s with openInodes := []}
  initCache

def freeMapOpen : FsM Unit := do
  let file ← fileOpen fsLayer (← inodeOpen freeMapSector)
  modify fun s => {s with freeMapFile := file}
  match file with
  | none => throw .boot
  | some file =>
    let s ← get
    if 0 < s.freeMap.bitCnt then
      let bytes ← fileReadAt fsLayer file s.freeMap.fileSize 0
      modify fun s => {s with freeMap := s.freeMap.ofImage fun t => bytes.getD t 0}
      check (bytes.length = s.freeMap.fileSize) .boot

def freeMapClose : FsM Unit := do fileClose fsLayer (← get).freeMapFile

def freeMapCreate : FsM Unit := do
  if !(← inodeCreate bitmapWrite freeMapSector (← get).freeMap.fileSize false) then throw .boot
  let file ← fileOpen fsLayer (← inodeOpen freeMapSector)
  modify fun s => {s with freeMapFile := file}
  if file.isNone then throw .boot
  if !(← bitmapWrite) then throw .boot

def doFormat : FsM Unit := do
  freeMapCreate
  if !(← dirCreate fsLayer rootDirSector 16) then throw .boot
  match ← dirOpen fsLayer (← inodeOpen rootDirSector) with
  | none => throw .badPointer
  | some newDir =>
    let dotAdded ← dirAdd fsLayer newDir dot rootDirSector
    let success ← (if dotAdded then dirAdd fsLayer newDir dotDot rootDirSector else pure false)
    dirClose fsLayer (some newDir)
    if !success then throw .boot
    freeMapClose

def filesysInit (format : Bool) : FsM Unit := do
  inodeInit
  freeMapInit
  whenever format doFormat
  freeMapOpen

end Pintos.Filesys
