import Pintos.Filesys.Clock
import Pintos.Filesys.Inode

/-! The cache between its calls.

`set_cache` enters a block without looking for an old one, so that a sector has one entry at most
rests with the callers: `inode_read_at`, `inode_read_at_ahead` and `inode_write_at` ask `get_cache`
first. Whatever these functions are called with, and whatever inodes, pointer blocks and free map
they come across, they keep the list in order. -/
namespace Pintos.Filesys
open Outcome

section
variable {s : Fs} {α : Type}

/-! ### Entering a block -/

/-- `set_cache` gives up for want of memory, or enters the block and lets the clock run if there is one too many. -/
theorem setCache_outcomes (k : Nat) (buf : Bytes) {Q : Unit → Fs → Prop} {E : Panic → Fs → Prop}
    (hfail : s.heap ≠ [] → ∀ heap, Q () {s with heap := heap})
    (hfits : ∀ heap, s.cacheSize + 1 ≤ cacheBlockSize → Q () (Fs.inserted {s with heap := heap} k buf))
    (hclock : ∀ heap, cacheBlockSize < s.cacheSize + 1 →
      Ends applyClockAlgorithm (Fs.inserted {s with heap := heap} k buf) Q E) :
    Ends (setCache k buf) s Q E := by
  unfold setCache
  simp only [ends_bind]
  refine ends_two_mallocs hfail fun heap _ => ?_
  simp only [ends_bind, ends_modify, ends_get]
  split
  · exact hclock heap (by assumption)
  · exact hfits heap (by omega)

theorem cacheOk_beside {device : Nat → Bytes} {freeMap : Kernel.Bitmap} {freeMapFile : Option File}
    {openInodes : List Inode} {heap : List Bool} {trace : List Event} (h : CacheOk s) :
    CacheOk {s with
      device := device
      freeMap := freeMap
      freeMapFile := freeMapFile
      openInodes := openInodes
      heap := heap
      trace := trace} :=
  ⟨⟨h.sorted, h.size, h.hand, h.onDevice⟩, h.small⟩

/-- A sector that has no entry may be entered with any contents. -/
theorem setCache_cacheOk (h : CacheOk s) {k : Nat} (hk : k < s.deviceSize) (hnew : findCache k s.cachedBlocks = none)
    (buf : Bytes) {E : Panic → Fs → Prop} : Ends (setCache k buf) s (fun _ => CacheOk) E := by
  have hsize := h.size
  have hsmall := h.small
  have ho : ∀ heap, Ordered {s with heap := heap} := fun _ => (cacheOk_beside h).toOrdered
  refine setCache_outcomes k buf (fun _ _ => cacheOk_beside h) ?_ ?_
  · intro heap hle
    refine ⟨ordered_inserted (ho heap) hk hnew buf, ?_⟩
    rw [length_inserted]
    grind
  · intro heap hgt
    have hlen := length_inserted {s with heap := heap} k buf
    refine (applyClockAlgorithm_ends (ordered_inserted (ho heap) hk hnew buf)
      (List.ne_nil_of_length_eq_add_one hlen)).imp ?_
    intro _ s' hs'
    have hone := hs'.2.2
    refine ⟨hs'.2.1, ?_⟩
    grind

theorem updateCache_cacheOk (h : CacheOk s) {k : Nat} {ca : Cache} (hca : findCache k s.cachedBlocks = some ca)
    (buf : Bytes) (off n : Nat) {E : Panic → Fs → Prop} : Ends (updateCache k buf off n) s (fun _ => CacheOk) E :=
  (updateCache_ends h hca buf off n).imp fun _ _ hs => hs.2

/-- A condition on the cache that its two entry points keep, used as the callers use them. -/
structure CacheKept (I : Fs → Prop) : Prop where
  ok : ∀ {s}, I s → CacheOk s
  beside : ∀ {s : Fs} {device : Nat → Bytes} {freeMap : Kernel.Bitmap} {freeMapFile : Option File}
    {openInodes : List Inode} {heap : List Bool} {trace : List Event}, I s →
    I {s with
      device := device
      freeMap := freeMap
      freeMapFile := freeMapFile
      openInodes := openInodes
      heap := heap
      trace := trace}
  enter : ∀ {s : Fs} {k : Nat}, I s → k < s.deviceSize → findCache k s.cachedBlocks = none →
    ∀ buf, Ends (setCache k buf) s (fun _ => I) fun _ => I
  update : ∀ {s : Fs} {k : Nat} {ca : Cache}, I s → findCache k s.cachedBlocks = some ca →
    ∀ buf off n, Ends (updateCache k buf off n) s (fun _ => I) fun _ => I

/-! ### The rounds of the loops -/

variable {I : Fs → Prop}

theorem preserves_blockRead (k : Nat) : Preserves I (blockRead k) := fun _ h => ends_blockRead_or (fun _ => h) h

theorem preserves_check (c : Bool) (e : Panic) : Preserves I (check c e : FsM Unit) :=
  fun _ h => ends_check_or (fun _ => h) fun _ => h

theorem preserves_get : Preserves I (get : FsM Fs) := fun _ h => h

theorem preserves_whenever {c : Bool} {m : FsM Unit} (h : Preserves I m) : Preserves I (whenever c m) :=
  .ite h (preserves_pure ())

theorem CacheKept.put (hI : CacheKept I) (h : I s) (w : Writer) (k : Nat) (b : Bytes) : I (s.put w k b) := hI.beside h

variable (hI : CacheKept I)
include hI

theorem preserves_malloc : Preserves I malloc := fun _ h => ends_malloc fun _ _ _ => hI.beside h

theorem preserves_blockWrite (w : Writer) (k : Nat) (b : Bytes) : Preserves I (blockWrite w k b) :=
  fun _ h => ends_blockWrite_or (fun _ => hI.put h w k b) h

theorem preserves_modify {f : Fs → Fs} (hf : ∀ s, I s → I (f s)) : Preserves I (modify f : FsM PUnit) := by
  intro s h
  rw [ends_modify]
  exact hI.beside (hf s h)

theorem preserves_cacheSector (k : Nat) : Preserves I (cacheSector k) := by
  intro s h
  unfold cacheSector getCache
  simp only [ends_bind, ends_get, ends_pure]
  split
  · exact h
  · rename_i hnew
    rw [ends_bind]
    exact ends_blockRead_or (fun hk => hI.enter h hk hnew _) h

theorem preserves_readAheadFrom (index : Nat) : ∀ left i, Preserves I (readAheadFrom index left i)
  | 0, _ => preserves_pure ()
  | left + 1, i => (preserves_cacheSector hI _).bind fun _ => preserves_readAheadFrom index left (i + 1)

/-- The bounce buffer takes memory and nothing else. -/
theorem bounce (h : I s) (hnew : findCache k s.cachedBlocks = none) {b had : Bool} :
    Ends (if b then pure had else malloc) s (fun _ s' => I s' ∧ findCache k s'.cachedBlocks = none) fun _ => I := by
  split
  · exact ⟨h, hnew⟩
  · exact ends_malloc fun _ _ _ => ⟨hI.beside h, hnew⟩

theorem preserves_readSector (ahead : Bool) (k off n : Nat) (sectorBuffer : Bool) :
    Preserves I (readSector ahead k off n sectorBuffer) := by
  intro s h
  unfold readSector getCache
  simp only [ends_bind, ends_get, ends_pure]
  split
  · exact h
  · rename_i hnew
    simp only [ends_bind]
    refine (bounce hI h hnew).imp fun sectorBuffer s1 hx => ?_
    obtain ⟨h1, hnew1⟩ := hx
    split
    · exact h1
    · simp only [ends_bind]
      refine ends_blockRead_or (fun hk => ?_) h1
      refine (hI.enter h1 hk hnew1 _).imp fun _ s2 h2 => ?_
      exact (preserves_whenever (preserves_readAheadFrom hI k readAheadSize 1) s2 h2).imp fun _ _ => id

theorem preserves_writeSector (k : Nat) (chunk : Bytes) (off n : Nat) (sectorBuffer : Bool) :
    Preserves I (writeSector k chunk off n sectorBuffer) := by
  intro s h
  unfold writeSector getCache
  simp only [ends_bind, ends_get, ends_pure]
  split
  · rename_i ca hca
    simp only [ends_bind, ends_pure]
    exact hI.update h hca chunk off n
  · rename_i hnew
    split
    · simp only [ends_bind]
      refine ends_blockWrite_or (fun hk => ?_) h
      exact (hI.enter (hI.put h _ _ _) hk hnew _).imp fun _ _ => id
    · simp only [ends_bind]
      refine (bounce hI h hnew).imp fun sectorBuffer s1 hx => ?_
      obtain ⟨h1, hnew1⟩ := hx
      split
      · exact h1
      · simp only [ends_bind]
        refine ends_blockRead_or (fun _ => ?_) h1
        refine ends_blockWrite_or (fun hk => ?_) h1
        exact (hI.enter (hI.put h1 _ _ _) hk hnew1 _).imp fun _ _ => id

/-! ### Whole calls -/

omit hI in
theorem preserves_inodeAt (inode : Nat) : Preserves I (inodeAt inode) := by
  refine preserves_get.bind fun s => ?_
  split
  · exact preserves_throw _
  · exact preserves_pure _

theorem preserves_modifyInode (inode : Nat) (f : Inode → Inode) : Preserves I (modifyInode inode f) :=
  preserves_modify hI fun _ h => hI.beside h

theorem preserves_lockAcquire (inode : Nat) : Preserves I (lockAcquire inode) :=
  (preserves_inodeAt inode).bind fun _ => (preserves_check _ _).bind fun _ => preserves_modifyInode hI _ _

theorem preserves_lockRelease (inode : Nat) : Preserves I (lockRelease inode) :=
  (preserves_inodeAt inode).bind fun _ => (preserves_check _ _).bind fun _ => preserves_modifyInode hI _ _

omit hI in
theorem preserves_loadIndirect (doubleIndirect : Bytes) (last : Option Nat) (ind : Nat) (buffer : Bytes) :
    Preserves I (loadIndirect doubleIndirect last ind buffer) := .ite (preserves_pure _) (preserves_blockRead _)

theorem preserves_readLoop (ahead : Bool) (doubleIndirect : Bytes) : ∀ rounds size offset last indirect sectorBuffer bytes,
    Preserves I (readLoop ahead doubleIndirect rounds size offset last indirect sectorBuffer bytes)
  | 0, _, _, _, _, _, _ => preserves_pure _
  | rounds + 1, size, offset, last, indirect, sectorBuffer, bytes => by
    refine .ite (preserves_pure _) ?_
    refine (preserves_loadIndirect _ _ _ _).bind fun indirect => (preserves_readSector hI _ _ _ _ _).bind fun r => ?_
    split
    · exact preserves_pure _
    · exact preserves_readLoop ahead doubleIndirect rounds _ _ _ _ _ _

theorem preserves_readAt (ahead : Bool) (inode : Nat) (size : Int) (offset : Nat) :
    Preserves I (readAt ahead inode size offset) := by
  refine (preserves_inodeAt inode).bind fun n => .ite (preserves_pure _) ?_
  refine (preserves_malloc hI).bind fun _ => .ite (preserves_pure _) ?_
  refine (preserves_malloc hI).bind fun _ => .ite (preserves_pure _) ?_
  exact (preserves_blockRead _).bind fun _ => preserves_readLoop hI _ _ _ _ _ _ _ _ _

omit hI in
theorem preserves_writeLoop (hs : ∀ k chunk off n sb, Preserves I (writeSector k chunk off n sb))
    (doubleIndirect buffer : Bytes) : ∀ rounds size offset last indirect sectorBuffer written,
    Preserves I (writeLoop doubleIndirect buffer rounds size offset last indirect sectorBuffer written)
  | 0, _, _, _, _, _, _ => preserves_pure _
  | rounds + 1, size, offset, last, indirect, sectorBuffer, written => by
    refine .ite (preserves_pure _) ?_
    refine (preserves_loadIndirect _ _ _ _).bind fun indirect => (hs _ _ _ _ _).bind fun r => ?_
    split
    · exact preserves_pure _
    · exact preserves_writeLoop hs doubleIndirect buffer rounds _ _ _ _ _ _

omit hI in
theorem preserves_writeSectors (hm : Preserves I malloc)
    (hs : ∀ k chunk off n sb, Preserves I (writeSector k chunk off n sb)) (inode : Nat) (buffer : Bytes) (size : Int)
    (offset : Nat) : Preserves I (writeSectors inode buffer size offset) := by
  refine (preserves_inodeAt inode).bind fun n => ?_
  refine hm.bind fun _ => .ite (preserves_pure _) ?_
  refine hm.bind fun _ => .ite (preserves_pure _) ?_
  exact (preserves_blockRead _).bind fun _ => preserves_writeLoop hs _ _ _ _ _ _ _ _ _

section Growth
variable {bitmapWrite : FsM Bool} (hw : Preserves I bitmapWrite)
include hw

theorem preserves_freeMapAllocate (cnt : Nat) : Preserves I (freeMapAllocate bitmapWrite cnt) := by
  intro s h
  unfold freeMapAllocate
  simp only [ends_bind, ends_get]
  split
  · exact h
  · simp only [ends_bind, ends_set]
    refine Ends.imp (Q := fun _ => I) ?_ ?_
    · exact Preserves.ite hw (preserves_pure _) _ (hI.beside h)
    · intro written s1 h1
      refine Preserves.ite (preserves_pure _) ?_ s1 h1
      exact (preserves_modify hI fun _ h => hI.beside h).bind fun _ => preserves_pure _

theorem preserves_freeMapRelease (sector cnt : Nat) : Preserves I (freeMapRelease bitmapWrite sector cnt) := by
  intro s h
  unfold freeMapRelease
  simp only [ends_bind, ends_get]
  refine ends_check_or (fun _ => ends_check_or (fun _ => ?_) fun _ => h) fun _ => h
  simp only [ends_set, ends_record]
  exact (hw _ (hI.beside h)).imp fun _ _ => id

omit hI hw in
theorem preserves_freeBlockSectorArray (hr : ∀ k, Preserves I (freeMapRelease bitmapWrite k 1)) :
    ∀ sectors, Preserves I (freeBlockSectorArray bitmapWrite sectors)
  | [] => preserves_pure _
  | _ :: rest => (hr _).bind fun _ => preserves_freeBlockSectorArray hr rest

omit hI hw in
theorem preserves_allocateSectors (ha : Preserves I (freeMapAllocate bitmapWrite 1)) :
    ∀ k, Preserves I (allocateSectors bitmapWrite k)
  | 0 => preserves_pure _
  | k + 1 => by
    refine ha.bind fun r => ?_
    split
    · exact preserves_pure _
    · exact (preserves_allocateSectors ha k).bind fun _ => preserves_pure _

omit hI hw in
theorem preserves_allocateKSectors (hm : Preserves I malloc) (ha : Preserves I (freeMapAllocate bitmapWrite 1))
    (hr : ∀ k, Preserves I (freeMapRelease bitmapWrite k 1)) (k : Nat) :
    Preserves I (allocateKSectors bitmapWrite k) := by
  refine hm.bind fun _ => .ite (preserves_pure _) ?_
  refine (preserves_allocateSectors ha k).bind fun _ => .ite (preserves_pure _) ?_
  exact (preserves_freeBlockSectorArray hr _).bind fun _ => preserves_pure _

omit hw in
theorem preserves_flushIndirect (doubleIndirect : Bytes) (last : Option Nat) (buffer : Bytes) :
    Preserves I (flushIndirect doubleIndirect last buffer) := by
  unfold flushIndirect
  split
  · exact preserves_pure _
  · exact preserves_blockWrite hI _ _ _

omit hw in
theorem preserves_enterSectors (doubleIndirect : Bytes) : ∀ sectors sectorToBuild last buffer,
    Preserves I (enterSectors doubleIndirect sectorToBuild sectors last buffer)
  | [], _, _, _ => preserves_flushIndirect hI _ _ _
  | _ :: rest, _, _, _ => by
    refine Preserves.bind (.ite (preserves_pure _) ?_) fun _ => preserves_enterSectors doubleIndirect rest _ _ _
    exact (preserves_flushIndirect hI _ _ _).bind fun _ => preserves_blockRead _

omit hw in
theorem preserves_enterBlocks (block currentSectors currentIndirectBlocks : Nat) (indirectBlocks sectors : List Nat) :
    Preserves I (enterBlocks block currentSectors currentIndirectBlocks indirectBlocks sectors) :=
  (preserves_blockRead _).bind fun _ => (preserves_blockWrite hI _ _ _).bind fun _ => preserves_enterSectors hI _ _ _ _ _

theorem preserves_buildSectors (block currentSectors currentIndirectBlocks newSectors newIndirectBlocks : Nat) :
    Preserves I (buildSectors bitmapWrite block currentSectors currentIndirectBlocks newSectors
      newIndirectBlocks) := by
  have hr := fun k => preserves_freeMapRelease hI hw k 1
  have hfree := preserves_freeBlockSectorArray hr
  have hall := preserves_allocateKSectors (preserves_malloc hI) (preserves_freeMapAllocate hI hw 1) hr
  refine Preserves.bind (.ite (hall _) (preserves_pure _)) fun r => ?_
  split
  · exact preserves_pure _
  · refine (preserves_malloc hI).bind fun _ => .ite ((hfree _).bind fun _ => preserves_pure _) ?_
    refine (hall _).bind fun r => ?_
    split
    · exact (hfree _).bind fun _ => preserves_pure _
    · refine (preserves_malloc hI).bind fun _ => .ite ?_ ?_
      · exact (hfree _).bind fun _ => (hfree _).bind fun _ => preserves_pure _
      · exact (preserves_enterBlocks hI _ _ _ _ _).bind fun _ => preserves_pure _

theorem preserves_extendInodeDiskToSize (sector : Nat) (data : Bytes) (size : Int) :
    Preserves I (extendInodeDiskToSize bitmapWrite sector data size) := by
  refine (preserves_check _ _).bind fun _ => (preserves_check _ _).bind fun _ => .ite (preserves_pure _) ?_
  refine (preserves_check _ _).bind fun _ => (preserves_check _ _).bind fun _ => ?_
  refine Preserves.bind (.ite (preserves_pure _) (preserves_buildSectors hI hw _ _ _ _ _)) fun _ => ?_
  exact .ite ((preserves_blockWrite hI _ _ _).bind fun _ => preserves_pure _) (preserves_pure _)

theorem preserves_inodeWriteAtWith (inode : Nat) (buffer : Bytes) (size : Int) (offset : Nat) :
    Preserves I (inodeWriteAtWith bitmapWrite inode buffer size offset) := by
  refine (preserves_inodeAt _).bind fun _ => .ite (preserves_pure _) (.ite (preserves_pure _) ?_)
  refine (preserves_extendInodeDiskToSize hI hw _ _ _).bind fun _ => (preserves_modifyInode hI _ _).bind fun _ => ?_
  have hstore := preserves_writeSectors (preserves_malloc hI) (preserves_writeSector hI) inode buffer
  exact .ite (hstore _ _) (.ite (hstore _ _) (preserves_pure _))

end Growth

theorem preserves_bitmapWriteAt : ∀ depth, Preserves I (bitmapWriteAt depth)
  | 0 => preserves_throw _
  | depth + 1 => by
    refine preserves_get.bind fun s => ?_
    split
    · exact preserves_throw _
    · refine (preserves_lockAcquire hI _).bind fun _ => ?_
      refine (preserves_inodeWriteAtWith hI (preserves_bitmapWriteAt depth) _ _ _ _).bind fun _ => ?_
      exact (preserves_lockRelease hI _).bind fun _ => preserves_pure _

theorem preserves_inodeWriteAt (inode : Nat) (buffer : Bytes) (size : Int) (offset : Nat) :
    Preserves I (inodeWriteAt inode buffer size offset) :=
  preserves_inodeWriteAtWith hI (preserves_bitmapWriteAt hI 2) _ _ _ _

end

/-! ### Runs of calls -/

/-- A call that uses the cache, or whatever else happens between two of them, which may change everything but the
cache. -/
inductive CacheCall where
  | inodeReadAt (inode : Nat) (size : Int) (offset : Nat)
  | inodeReadAtAhead (inode : Nat) (size : Int) (offset : Nat)
  | inodeWriteAt (inode : Nat) (buffer : Bytes) (size : Int) (offset : Nat)
  | beside (device : Nat → Bytes) (freeMap : Kernel.Bitmap) (freeMapFile : Option File) (openInodes : List Inode)
      (heap : List Bool)

def CacheCall.exec : CacheCall → FsM Unit
  | .inodeReadAt inode size offset => do let _ ← Filesys.inodeReadAt inode size offset
  | .inodeReadAtAhead inode size offset => do let _ ← Filesys.inodeReadAtAhead inode size offset
  | .inodeWriteAt inode buffer size offset => do let _ ← Filesys.inodeWriteAt inode buffer size offset
  | .beside device freeMap freeMapFile openInodes heap => modify fun s => {s with
      device := device
      freeMap := freeMap
      freeMapFile := freeMapFile
      openInodes := openInodes
      heap := heap}

def CacheCall.step (c : CacheCall) (s : Fs) : Except Panic Fs :=
  match c.exec.run s with
  | .ok _ s' => .ok s'
  | .error e _ => .error e

/-- What `init_cache` leaves. -/
def CacheStarted (s : Fs) : Prop := ∃ s0, initCache.run s0 = .ok () s

theorem CacheKept.exec {I : Fs → Prop} (hI : CacheKept I) (c : CacheCall) : Preserves I c.exec := by
  cases c with
  | inodeReadAt inode size offset => exact (preserves_readAt hI _ _ _ _).bind fun _ => preserves_pure _
  | inodeReadAtAhead inode size offset => exact (preserves_readAt hI _ _ _ _).bind fun _ => preserves_pure _
  | inodeWriteAt inode buffer size offset => exact (preserves_inodeWriteAt hI _ _ _ _).bind fun _ => preserves_pure _
  | beside => exact preserves_modify hI fun _ h => hI.beside h

theorem CacheKept.step {I : Fs → Prop} (hI : CacheKept I) {c : CacheCall} {s s' : Fs} (h : I s) (hc : c.step s = .ok s') : I s' := by
  unfold CacheCall.step at hc
  split at hc
  · rename_i hrun
    cases hc
    exact (ends_ok hrun).mp (hI.exec c s h)
  · cases hc

end Pintos.Filesys
