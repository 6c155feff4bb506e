import Pintos.Filesys.CacheCalls
import Pintos.Filesys.GrowthProofs

/-! What is written while sectors are only taken and given back.

Every change of the free map goes to the free-map file, and that write can write the inode of the
free map, the file's data and whatever the cache has to write back to make room. It writes no other
inode and no pointer block as such (`MapOnly`), so `extend_inode_disk_to_size` has written none of its
own before it enters the new sectors. -/
namespace Pintos.Filesys
open Outcome

/-- Since `base` the inode layer has written the inode of the free map at most, and the free-map file is long enough
for the free map. -/
structure MapOnly (base : List Event) (s : Fs) : Prop where
  written : ∃ ev, s.trace = ev ++ base ∧
    ∀ w k b, Event.write w k b ∈ ev → w.isMeta = true → k = freeMapSector
  file : ∃ f, s.freeMapFile = some f ∧ f.inode = freeMapSector
  room : ∃ n, findInode freeMapSector s.openInodes = some n ∧ 0 ≤ InodeDisk.length n.data ∧
    InodeDisk.length n.data < maxFileSize ∧ s.freeMap.fileSize ≤ InodeDisk.size n.data
  onDevice : freeMapSector < s.deviceSize

section
variable {base : List Event} {s : Fs}

/-- Nothing here is about the device or the cache. -/
theorem MapOnly.beside (h : MapOnly base s) {device : Nat → Bytes} {cachedBlocks : List Cache} {cacheSize : Nat}
    {cachePointer : Option Nat} {heap : List Bool} :
    MapOnly base {s with
      device := device
      cachedBlocks := cachedBlocks
      cacheSize := cacheSize
      cachePointer := cachePointer
      heap := heap} :=
  ⟨h.written, h.file, h.room, h.onDevice⟩

theorem MapOnly.put (h : MapOnly base s) {w : Writer} {k : Nat} (hw : w.isMeta = true → k = freeMapSector) (b : Bytes) :
    MapOnly base (s.put w k b) := by
  obtain ⟨ev, hev, honly⟩ := h.written
  refine ⟨⟨.write w k b :: ev, by rw [Fs.put, hev]; rfl, ?_⟩, h.file, h.room, h.onDevice⟩
  intro w' k' b' hmem hmeta
  rcases List.mem_cons.mp hmem with he | hmem
  · obtain ⟨rfl, rfl, -⟩ := Event.write.inj he
    exact hw hmeta
  · exact honly w' k' b' hmem hmeta

/-- The free map changes, but not in size, and sectors are released. -/
theorem MapOnly.freeMap (h : MapOnly base s) {b : Kernel.Bitmap} (hb : b.bitCnt = s.freeMap.bitCnt) {l : List Event}
    (hl : ∀ e ∈ l, ∃ k, e = .release k) : MapOnly base {s with
      freeMap := b
      trace := l ++ s.trace} := by
  obtain ⟨ev, hev, honly⟩ := h.written
  refine ⟨⟨l ++ ev, by rw [hev, List.append_assoc], ?_⟩, h.file, ?_, h.onDevice⟩
  · intro w k c hmem
    rcases List.mem_append.mp hmem with hmem | hmem
    · grind
    · exact honly w k c hmem
  · have hroom := h.room
    unfold Kernel.Bitmap.fileSize at hroom ⊢
    rwa [hb]

/-- The inode of the free map keeps its block. -/
theorem MapOnly.onInode (h : MapOnly base s) (i : Nat) {f : Inode → Inode} (hf : ∀ n, (f n).sector = n.sector)
    (hd : ∀ n, findInode freeMapSector s.openInodes = some n → (f n).data = n.data) : MapOnly base (s.onInode i f) := by
  obtain ⟨n, hn, hlen⟩ := h.room
  refine ⟨h.written, h.file, ⟨if n.sector = i then f n else n, ?_, ?_⟩, h.onDevice⟩
  · rw [Fs.onInode, findInode_map _ hf, hn]
    rfl
  · split
    · rw [hd n hn]
      exact hlen
    · exact hlen

/-! ### Writing the data -/

theorem mapOnly_malloc : Preserves (MapOnly base) malloc := fun _ h => ends_malloc fun _ _ _ => h.beside

theorem mapOnly_blockWrite {w : Writer} {k : Nat} (hw : w.isMeta = true → k = freeMapSector) (b : Bytes) :
    Preserves (MapOnly base) (blockWrite w k b) :=
  fun _ h => ends_blockWrite_or (fun _ => h.put hw b) h

/-- A change of the cache. -/
theorem mapOnly_modify {f : Fs → Fs} (hf : ∀ s, MapOnly base s → MapOnly base {f s with trace := s.trace}) :
    Preserves (MapOnly base) (modify f : FsM PUnit) := fun s h => hf s h

theorem mapOnly_writeBack (position : Nat) : Preserves (MapOnly base) (writeBack position) := by
  refine preserves_get.bind fun s => ?_
  split
  · exact preserves_throw _
  · refine (mapOnly_blockWrite (by simp [Writer.isMeta]) _).bind fun _ => mapOnly_modify (by intro _ h; exact h.beside)

theorem mapOnly_clockLoop : ∀ turns position, Preserves (MapOnly base) (clockLoop turns position)
  | 0, _ => preserves_throw _
  | turns + 1, position => by
    refine preserves_get.bind fun s => ?_
    split
    · exact preserves_throw _
    · refine (preserves_whenever (mapOnly_writeBack position)).bind fun _ => .ite ?_ ?_
      · exact mapOnly_modify (by intro _ h; exact h.beside)
      · refine Preserves.bind (mapOnly_modify (by intro _ h; exact h.beside)) fun _ => preserves_get.bind fun _ => ?_
        exact mapOnly_clockLoop turns _

theorem mapOnly_setCache (k : Nat) (buf : Bytes) : Preserves (MapOnly base) (setCache k buf) := by
  refine mapOnly_malloc.bind fun _ => .ite (preserves_pure _) ?_
  refine mapOnly_malloc.bind fun _ => .ite (preserves_pure _) ?_
  refine Preserves.bind (mapOnly_modify (by intro _ h; exact h.beside)) fun _ => preserves_get.bind fun _ => ?_
  exact .ite (preserves_get.bind fun _ => mapOnly_clockLoop _ _) (preserves_pure _)

theorem mapOnly_writeSector (k : Nat) (chunk : Bytes) (off n : Nat) (sectorBuffer : Bool) :
    Preserves (MapOnly base) (writeSector k chunk off n sectorBuffer) := by
  have hdata : ∀ b, Preserves (MapOnly base) (blockWrite .data k b) := mapOnly_blockWrite (by simp [Writer.isMeta])
  refine (preserves_get.bind fun s => preserves_pure _).bind fun r => ?_
  split
  · exact Preserves.bind (mapOnly_modify (by intro _ h; exact h.beside)) fun _ => preserves_pure _
  · refine .ite ?_ ?_
    · exact (hdata _).bind fun _ => (mapOnly_setCache k _).bind fun _ => preserves_pure _
    · refine Preserves.bind (.ite (preserves_pure _) mapOnly_malloc) fun _ => .ite (preserves_pure _) ?_
      refine (preserves_blockRead _).bind fun _ => (hdata _).bind fun _ => ?_
      exact (mapOnly_setCache k _).bind fun _ => preserves_pure _

theorem mapOnly_writeSectors (inode : Nat) (buffer : Bytes) (size : Int) (offset : Nat) :
    Preserves (MapOnly base) (writeSectors inode buffer size offset) :=
  preserves_writeSectors mapOnly_malloc mapOnly_writeSector _ _ _ _

/-! ### Writing the free map -/

theorem mapOnly_lockRelease (i : Nat) : Preserves (MapOnly base) (lockRelease i) := by
  refine (preserves_inodeAt i).bind fun _ => (preserves_check _ _).bind fun _ => ?_
  intro s h
  exact h.onInode i (fun _ => rfl) fun _ _ => rfl

/-- A write within the length of the free-map file. -/
theorem mapOnly_inodeWriteAtWith (bitmapWrite : FsM Bool) (buffer : Bytes) {size offset : Nat} (h : MapOnly base s)
    (hle : offset + size ≤ s.freeMap.fileSize) :
    Ends (inodeWriteAtWith bitmapWrite freeMapSector buffer size offset) s (fun _ => MapOnly base)
      fun _ => MapOnly base := by
  obtain ⟨n, hn, h0, hmax, hroom⟩ := h.room
  have hsize : InodeDisk.size n.data = (InodeDisk.length n.data).toNat := rfl
  have hlen : offset + size ≤ InodeDisk.size n.data := Nat.le_trans hle hroom
  have hend : (size : Int) + offset < maxFileSize := by omega
  unfold inodeWriteAtWith
  simp only [ends_bind]
  rw [ends_inodeAt hn]
  by_cases hdeny : n.denyWriteCnt = 0
  swap
  · rw [if_pos hdeny]
    exact h
  rw [if_neg (by simpa using hdeny)]
  by_cases hz : (size : Int) = 0
  · rw [if_pos hz]
    exact h
  rw [if_neg hz]
  have hstart : (0 : Int) ≤ size + offset := by omega
  have hrange := write_range hstart hend
  rw [hrange.1, hrange.2, (findInode_some hn).2, ends_bind]
  clear hrange
  generalize htarget : (offset : Int) + size = target
  refine (extend_same bitmapWrite (by omega) (by omega) hmax h.onDevice).imp ?_
  intro r s1 hr
  obtain ⟨rfl, hs1⟩ := hr
  have hput : MapOnly base s1 ∧ s1.openInodes = s.openInodes := by
    rcases hs1 with rfl | rfl
    · exact ⟨h, rfl⟩
    · exact ⟨h.put (fun _ => rfl) _, rfl⟩
  have h1 : MapOnly base (s1.onInode freeMapSector fun m => {m with data := n.data}) := by
    refine hput.1.onInode freeMapSector (fun _ => rfl) fun m hm => ?_
    grind
  simp only [ends_bind, ends_modifyInode, if_true]
  exact mapOnly_writeSectors _ _ _ _ _ h1

theorem mapOnly_bitmapWriteAt (depth : Nat) : Preserves (MapOnly base) (bitmapWriteAt (depth + 1)) := by
  intro s h
  obtain ⟨f, hf, hfi⟩ := h.file
  obtain ⟨n, hn, -⟩ := h.room
  unfold bitmapWriteAt lockAcquire
  simp only [ends_bind, ends_get, hf, hfi]
  rw [ends_inodeAt hn]
  refine ends_check_or (fun _ => ?_) fun _ => h
  rw [ends_modifyInode]
  have h1 : MapOnly base (s.onInode freeMapSector fun n => {n with locked := true}) :=
    h.onInode freeMapSector (fun _ => rfl) fun _ _ => rfl
  refine (mapOnly_inodeWriteAtWith (bitmapWriteAt depth) s.freeMap.image h1 (Nat.le_of_eq (Nat.zero_add _))).imp ?_
  intro _ s2 h2
  exact mapOnly_lockRelease freeMapSector s2 h2

theorem mapOnly_bitmapWrite : Preserves (MapOnly base) bitmapWrite := mapOnly_bitmapWriteAt 1

theorem mapOnly_freeMapAllocate : Preserves (MapOnly base) (freeMapAllocate bitmapWrite 1) := by
  intro s h
  have hscan := s.freeMap.scanAndFlip_one
  unfold freeMapAllocate
  simp only [ends_bind, ends_get]
  cases hs : s.freeMap.scanAndFlip 0 1 false with
  | none => exact h
  | some r =>
    obtain ⟨k, b⟩ := r
    rw [hs] at hscan
    obtain ⟨-, -, -, rfl⟩ := hscan
    simp only [ends_bind, ends_set]
    have h1 : MapOnly base {s with freeMap := s.freeMap.put k true} :=
      h.freeMap (l := []) (Kernel.Bitmap.bitCnt_put _ _ _) (by simp)
    refine Ends.imp (Preserves.ite mapOnly_bitmapWrite (preserves_pure _) _ h1) ?_
    intro written s2 h2
    refine Preserves.ite (preserves_pure _) (Preserves.bind ?_ fun _ => preserves_pure _) s2 h2
    intro s3 h3
    have hb : (s3.freeMap.setMultiple k 1 false).bitCnt = s3.freeMap.bitCnt := by
      rw [Kernel.Bitmap.setMultiple_one, Kernel.Bitmap.bitCnt_put]
    exact h3.freeMap (l := []) hb (by simp)

theorem mapOnly_freeMapRelease (k : Nat) : Preserves (MapOnly base) (freeMapRelease bitmapWrite k 1) := by
  intro s h
  unfold freeMapRelease
  simp only [ends_bind, ends_get]
  refine ends_check_or (fun _ => ends_check_or (fun _ => ?_) fun _ => h) fun _ => h
  simp only [ends_set, ends_record]
  refine (mapOnly_bitmapWrite _ (h.freeMap ?_ ?_)).imp fun _ _ => id
  · rw [Kernel.Bitmap.setMultiple_one, Kernel.Bitmap.bitCnt_put]
  · grind

/-- Up to the label `done` nothing but the free map has been written, unless the new sectors have been entered. -/
theorem mapOnly_buildSectors (block currentSectors currentIndirectBlocks newSectors newIndirectBlocks : Nat)
    (h : MapOnly base s) :
    Ends (buildSectors bitmapWrite block currentSectors currentIndirectBlocks newSectors newIndirectBlocks) s
      (fun ok s' => ok = false → MapOnly base s') fun _ _ => True := by
  have hfree : ∀ l, Preserves (MapOnly base) (freeBlockSectorArray bitmapWrite l) :=
    preserves_freeBlockSectorArray mapOnly_freeMapRelease
  have hall : ∀ k, Preserves (MapOnly base) (allocateKSectors bitmapWrite k) :=
    preserves_allocateKSectors mapOnly_malloc mapOnly_freeMapAllocate mapOnly_freeMapRelease
  -- what was taken is given back
  have hback : ∀ l s', MapOnly base s' → Ends (do freeBlockSectorArray bitmapWrite l; return false) s'
      (fun ok s' => ok = false → MapOnly base s') fun _ _ => True := by
    intro l s' h'
    rw [ends_bind]
    exact (hfree l s' h').mono (fun _ _ h' _ => h') fun _ _ _ => trivial
  unfold buildSectors
  rw [ends_bind]
  refine Ends.mono (Preserves.ite (hall newIndirectBlocks) (preserves_pure _) s h) ?_ fun _ _ _ => trivial
  intro indirectBlocks s1 h1
  cases indirectBlocks with
  | none => exact fun _ => h1
  | some m =>
    simp only [ends_bind]
    refine ends_malloc fun b heap _ => ?_
    cases b with
    | false => exact hback m _ h1.beside
    | true =>
      simp only [Bool.not_true, Bool.false_eq_true, if_false, ends_bind]
      refine (hall newSectors _ h1.beside).mono ?_ fun _ _ _ => trivial
      intro sectors s2 h2
      cases sectors with
      | none => exact hback m s2 h2
      | some l =>
        simp only [ends_bind]
        refine ends_malloc fun b heap _ => ?_
        cases b with
        | false =>
          simp only [Bool.not_false, if_true, ends_bind]
          refine (hfree l _ h2.beside).mono (fun _ s3 h3 => ?_) fun _ _ _ => trivial
          exact (hfree m s3 h3).mono (fun _ _ h4 _ => h4) fun _ _ _ => trivial
        | true =>
          simp only [Bool.not_true, Bool.false_eq_true, if_false, ends_bind]
          exact (ends_within _ _).mono (fun _ _ _ he => absurd he.symm Bool.false_ne_true) fun _ _ _ => trivial

end

end Pintos.Filesys
