import Pintos.Filesys.FsLawful
import Pintos.Filesys.Metadata

/-! The range of a transfer.

`inode_read_at` and `inode_write_at` clamp the range they are given in 32-bit signed arithmetic and then
cut it into rounds, one per sector, each of which looks up one slot of the double-indirect block and one
of an indirect block. As long as the clamps do not wrap and the end of a write stays below
`MAX_FILE_SIZE` every slot is one of a pointer block's 128 and no assertion fails. The assertion of
`extend_inode_disk_to_size` is strict while the clamp of `inode_write_at` is not, and a sum of size and
offset that wraps passes both clamps: outside these ranges every call goes wrong but those that return
before the sum is formed. -/
namespace Pintos.Filesys
open Outcome WriteBack

/-! ### Rounds -/

/-- A round of the two loops: the slots it looks up, the place in the sector and the number of bytes. -/
structure Round where
  indirectBlockInd : Nat
  sectorIndInIndirectBlock : Nat
  sectorOffset : Nat
  chunkSize : Nat

/-- The rounds for `size` bytes from `offset` on. -/
def roundsOf : Nat → Nat → Nat → List Round
  | 0, _, _ => []
  | rounds + 1, size, offset =>
    if size = 0 then [] else
    let sectorInd := offset / blockSectorSize
    let chunkSize := min (blockSectorSize - offset % blockSectorSize) size
    ⟨sectorInd / pointerBlockPointersCount, sectorInd % pointerBlockPointersCount, offset % blockSectorSize, chunkSize⟩ ::
      roundsOf rounds (size - chunkSize) (offset + chunkSize)

def readRounds (ahead : Bool) (doubleIndirect : Bytes) : List Round → Option Nat → Bytes → Bool → List UInt8 →
    FsM (List UInt8)
  | [], _, _, _, bytes => return bytes
  | r :: rest, last, indirect, sectorBuffer, bytes => do
    let indirect ← loadIndirect doubleIndirect last r.indirectBlockInd indirect
    let sector := pointer indirect r.sectorIndInIndirectBlock
    match ← readSector ahead sector r.sectorOffset r.chunkSize sectorBuffer with
    | (none, _) => return bytes
    | (some block, sectorBuffer) =>
      readRounds ahead doubleIndirect rest (some r.indirectBlockInd) indirect sectorBuffer
        (bytes ++ slice block r.sectorOffset r.chunkSize)

def writeRounds (doubleIndirect buffer : Bytes) : List Round → Option Nat → Bytes → Bool → Nat → FsM Nat
  | [], _, _, _, written => return written
  | r :: rest, last, indirect, sectorBuffer, written => do
    let indirect ← loadIndirect doubleIndirect last r.indirectBlockInd indirect
    let sector := pointer indirect r.sectorIndInIndirectBlock
    let chunk : Bytes := fun t => buffer (written + t)
    match ← writeSector sector chunk r.sectorOffset r.chunkSize sectorBuffer with
    | (false, _) => return written
    | (true, sectorBuffer) =>
      writeRounds doubleIndirect buffer rest (some r.indirectBlockInd) indirect sectorBuffer (written + r.chunkSize)

theorem readLoop_eq (ahead : Bool) (doubleIndirect : Bytes) : ∀ rounds size offset last indirect sectorBuffer bytes,
    readLoop ahead doubleIndirect rounds size offset last indirect sectorBuffer bytes =
      readRounds ahead doubleIndirect (roundsOf rounds size offset) last indirect sectorBuffer bytes
  | 0, _, _, _, _, _, _ => rfl
  | rounds + 1, size, offset, last, indirect, sectorBuffer, bytes => by
    unfold readLoop roundsOf
    split
    · rfl
    · simp only [readLoop_eq ahead doubleIndirect rounds]
      rfl

theorem writeLoop_eq (doubleIndirect buffer : Bytes) : ∀ rounds size offset last indirect sectorBuffer written,
    writeLoop doubleIndirect buffer rounds size offset last indirect sectorBuffer written =
      writeRounds doubleIndirect buffer (roundsOf rounds size offset) last indirect sectorBuffer written
  | 0, _, _, _, _, _, _ => rfl
  | rounds + 1, size, offset, last, indirect, sectorBuffer, written => by
    unfold writeLoop roundsOf
    split
    · rfl
    · simp only [writeLoop_eq doubleIndirect buffer rounds]
      rfl

/-- The loops for `size` bytes from `offset` on go through these rounds, and look up slots of a pointer block only. -/
structure SlotsOk (size offset : Nat) : Prop where
  slots : ∀ r ∈ roundsOf size size offset,
    r.indirectBlockInd < pointerBlockPointersCount ∧ r.sectorIndInIndirectBlock < pointerBlockPointersCount
  read : ∀ ahead doubleIndirect, readLoop ahead doubleIndirect size size offset none (fun _ => 0) false [] =
    readRounds ahead doubleIndirect (roundsOf size size offset) none (fun _ => 0) false []
  write : ∀ doubleIndirect buffer, writeLoop doubleIndirect buffer size size offset none (fun _ => 0) false 0 =
    writeRounds doubleIndirect buffer (roundsOf size size offset) none (fun _ => 0) false 0

theorem roundsOf_slots : ∀ rounds size offset, size = 0 ∨ offset + size ≤ maxFileSize → ∀ r ∈ roundsOf rounds size offset,
    r.indirectBlockInd < pointerBlockPointersCount ∧ r.sectorIndInIndirectBlock < pointerBlockPointersCount
  | 0, _, _, _, _, hr => by simp [roundsOf] at hr
  | rounds + 1, size, offset, hle, r, hr => by
    unfold roundsOf at hr
    split at hr
    · simp at hr
    · rename_i hz
      rcases List.mem_cons.mp hr with rfl | hr
      · unfold maxFileSize pointerBlockPointersCount blockSectorSize at hle
        unfold pointerBlockPointersCount blockSectorSize
        simp only
        omega
      · refine roundsOf_slots rounds _ _ ?_ r hr
        omega

theorem slotsOk {size offset : Nat} (h : size = 0 ∨ offset + size ≤ maxFileSize) : SlotsOk size offset where
  slots := roundsOf_slots size size offset h
  read := fun _ _ => readLoop_eq _ _ _ _ _ _ _ _ _
  write := fun _ _ => writeLoop_eq _ _ _ _ _ _ _ _ _

/-- The slots that growth to a size enters sectors in. -/
def GrowthSlotsOk (size : Nat) : Prop :=
  indirectCnt (sectorCnt size) ≤ pointerBlockPointersCount ∧
    ∀ j < sectorCnt size, j / pointerBlockPointersCount < pointerBlockPointersCount ∧
      j % pointerBlockPointersCount < pointerBlockPointersCount

theorem growthSlotsOk {size : Nat} (h : size < maxFileSize) : GrowthSlotsOk size := by
  have hcnt := sectorCnt_lt h
  have hind := indirectCnt_le hcnt
  refine ⟨hind, fun j hj => ⟨?_, Nat.mod_lt _ (by decide)⟩⟩
  exact Nat.lt_of_lt_of_le (div_lt_indirectCnt hj) hind

/-! ### The calls -/

section
variable {N : Nat → Option Bytes} {X : List Nat} {s : Fs} {i : Nat} {n : Inode} {size : Int} {offset : Nat}

theorem write_in_range (h : Sound True N X s) (hfc : FreeClean s) (hn : findInode i s.openInodes = some n)
    (hi : i ≠ freeMapSector) (hdeny : n.denyWriteCnt = 0) (h0 : 0 ≤ size) (hmax : offset + size < maxFileSize)
    (buffer : Bytes) :
    Ends (inodeWriteAt i buffer size offset) s
      (fun w _ => w ≤ size.toNat ∧ (w = 0 ∨ offset + w ≤ maxFileSize) ∧
        (s.heap = [] → newSectors n.data (offset + size.toNat) + newIndirectBlocks n.data (offset + size.toNat) ≤
          freeCnt s → w = size.toNat))
      fun _ _ => False := by
  have hmaxv : (maxFileSize : Int) = 8388608 := rfl
  refine (Meets.ends (inodeWriteAt_meets h.tree hn (h.node_of_find hn) h.nodup hi h.writable (fun _ => .inr hfc)
    (by omega) (by omega) (by omega) buffer) not_spoiled).mono ?_ ?_
  · intro w s' hw
    obtain ⟨d', l, hw⟩ := hw
    have hle := hw.le
    exact ⟨hle, by omega, fun hh hfree => hw.enough hh hdeny hfree⟩
  · intro e s' he
    rcases he with he | he
    · exact he.2 ⟨by omega, hmax⟩
    · exact h.freeMapFile he.1

/-- A write of nothing returns before anything is added up. -/
theorem write_nothing (hn : findInode i s.openInodes = some n) (buffer : Bytes) (offset : Nat) :
    Ends (inodeWriteAt i buffer 0 offset) s (fun w _ => w = 0) fun _ _ => False := by
  unfold inodeWriteAt inodeWriteAtWith
  rw [ends_bind, ends_inodeAt hn]
  split
  · exact rfl
  · rw [if_pos rfl]
    exact rfl

/-- A write that does not end below `MAX_FILE_SIZE` fails the assertion. -/
theorem write_out_of_range (hn : findInode i s.openInodes = some n) (hdeny : n.denyWriteCnt = 0) (h0 : 0 < size)
    (hs : size < 2 ^ 31) (ho : offset < 2 ^ 31) (hmax : ¬ offset + size < maxFileSize) (buffer : Bytes) :
    Ends (inodeWriteAt i buffer size offset) s (fun _ _ => False) fun _ _ => True := by
  unfold inodeWriteAt inodeWriteAtWith
  simp only [ends_bind]
  rw [ends_inodeAt hn, if_neg (by simp [hdeny]), if_neg (by omega), ends_bind]
  exact extend_outside _ (clamp_outside (by omega) hs ho fun hr => hmax hr.2) trivial

theorem read_in_range (h : Sound True N X s) (hn : findInode i s.openInodes = some n) (h0 : 0 ≤ size)
    (hhi : size + offset < 2 ^ 31) :
    Ends (inodeReadAt i size offset) s
      (fun bytes _ => bytes.length ≤ readLength (InodeDisk.length n.data) size offset ∧
        (s.heap = [] → (bytes.length : Int) = max 0 (min size (InodeDisk.length n.data - offset))))
      fun _ _ => False := by
  refine (Meets.ends (readAt_meets h.tree hn (h.node_of_find hn) false (by omega) hhi) not_spoiled).mono ?_
    fun _ _ he => Bool.false_ne_true he.1
  intro bytes s' hr
  refine ⟨hr.length_le, fun hh => ?_⟩
  rw [hr.length_eq hh, readLength]
  omega

/-- Behind the end of the file nothing is added up. -/
theorem read_behind_end (hn : findInode i s.openInodes = some n) (hlt : InodeDisk.length n.data < offset) (size : Int) :
    Ends (inodeReadAt i size offset) s (fun bytes _ => bytes = []) fun _ _ => False := by
  unfold inodeReadAt readAt
  rw [ends_bind, ends_inodeAt hn, if_pos (by omega)]
  exact rfl

/-- A sum that wraps is below every length, so that the range is not clamped. -/
theorem read_wrapped (h : CacheOk s) (hn : findInode i s.openInodes = some n) (hheap : s.heap = [])
    (hlen : 0 ≤ InodeDisk.length n.data) (hle : (offset : Int) ≤ InodeDisk.length n.data) (hs : size < 2 ^ 31)
    (ho : offset < 2 ^ 31) (hhi : 2 ^ 31 ≤ size + offset) :
    Ends (inodeReadAt i size offset) s (fun bytes _ => bytes.length = size.toNat) fun _ _ => True := by
  have hwrap : offT (size + offset) < 0 := by
    unfold offT
    rw [Int.bmod_def]
    split <;> omega
  refine (readAt_quiet h hn false size offset).mono (fun bytes s' hr => ?_) fun _ _ _ => trivial
  rw [hr.2.2 hheap hle, if_neg (by omega)]

/-- Reading and writing with sizes and offsets from zero on: they do what they should as long as the sums of the two
stay in range, and only then. -/
theorem transfers_in_range (h : Sound True N X s) (hfc : FreeClean s) (hn : findInode i s.openInodes = some n)
    (hi : i ≠ freeMapSector) (hdeny : n.denyWriteCnt = 0) (h0 : 0 ≤ size) (hs : size < 2 ^ 31) (ho : offset < 2 ^ 31)
    (buffer : Bytes) :
    (Ends (inodeWriteAt i buffer size offset) s
        (fun w _ => w ≤ size.toNat ∧ (w = 0 ∨ offset + w ≤ maxFileSize) ∧
          (s.heap = [] → newSectors n.data (offset + size.toNat) + newIndirectBlocks n.data (offset + size.toNat) ≤
            freeCnt s → w = size.toNat))
        (fun _ _ => False) ↔
      size = 0 ∨ offset + size < maxFileSize) ∧
    (size = 0 ∨ offset + size < maxFileSize → SlotsOk size.toNat offset ∧
      (size ≠ 0 → GrowthSlotsOk (offset + size.toNat) ∧ SlotsOk (InodeDisk.length n.data - offset).toNat offset)) ∧
    (s.heap = [] → (Ends (inodeReadAt i size offset) s
        (fun bytes _ => (bytes.length : Int) = max 0 (min size (InodeDisk.length n.data - offset))) (fun _ _ => False) ↔
      InodeDisk.length n.data < offset ∨ size + offset < 2 ^ 31)) ∧
    (InodeDisk.length n.data < offset ∨ size + offset < 2 ^ 31 →
      Ends (inodeReadAt i size offset) s
        (fun bytes _ => bytes.length ≤ readLength (InodeDisk.length n.data) size offset) (fun _ _ => False) ∧
      SlotsOk (readLength (InodeDisk.length n.data) size offset) offset) := by
  have hlen := h.tree.length i n.data (h.node_of_find hn)
  refine ⟨⟨fun hends => ?_, fun hr => ?_⟩, fun hr => ⟨slotsOk (by omega), fun hne => ⟨growthSlotsOk (by omega),
    slotsOk (by omega)⟩⟩, fun hh => ⟨fun hends => ?_, fun hr => ?_⟩, fun hr => ⟨?_, slotsOk ?_⟩⟩
  · by_contra hr
    obtain ⟨_, _, _, _, hfalse⟩ := (hends.and (write_out_of_range hn hdeny (by omega) hs ho (by omega) buffer)).mono
      (fun _ _ => id) (fun _ _ he => he.1) |>.ok
    exact hfalse
  · by_cases hz : size = 0
    · subst hz
      exact (write_nothing hn buffer offset).imp fun w _ hw => ⟨by omega, .inl hw, fun _ _ => hw⟩
    · exact write_in_range h hfc hn hi hdeny h0 (by omega) buffer
  · by_contra hr
    obtain ⟨bytes, _, _, hcount, hall⟩ := (hends.and (read_wrapped h.tree.cache hn hh hlen.1 (by omega) hs ho
      (by omega))).mono (fun _ _ => id) (fun _ _ he => he.1) |>.ok
    unfold maxFileSize pointerBlockPointersCount blockSectorSize at hlen
    omega
  · rcases hr with hlt | hhi
    · refine (read_behind_end hn hlt size).imp fun bytes _ hb => ?_
      rw [hb, List.length_nil]
      omega
    · exact (read_in_range h hn h0 hhi).imp fun _ _ hr => hr.2 hh
  · rcases hr with hlt | hhi
    · exact (read_behind_end hn hlt size).imp fun bytes _ hb => by rw [hb]; exact Nat.zero_le _
    · exact (read_in_range h hn h0 hhi).imp fun _ _ hr => hr.1
  · unfold readLength
    omega

theorem transfers_in_range_root : ∃ s n, RootOpen s n ∧
    Ends (inodeWriteAt rootDirSector (fun _ => 0) 5 0) s (fun w _ => w ≤ 5) (fun _ _ => False) ∧
    Ends (inodeReadAt rootDirSector 5 0) s (fun bytes _ => bytes.length = 5) fun _ _ => False := by
  obtain ⟨s, n, hroot⟩ := exists_rootOpen
  obtain ⟨hist, hrun⟩ := hroot.run
  obtain ⟨hwrite, -, hread, -⟩ := @transfers_in_range _ _ s rootDirSector n 5 0 (inv_of_run hrun).sound hroot.freeClean
    hroot.find (by decide) hroot.allowed (by decide) (by decide) (by decide) fun _ => 0
  refine ⟨s, n, hroot, (hwrite.mpr (by decide)).imp fun w _ hw => hw.1, ((hread hroot.memory).mpr (.inr (by decide))).imp ?_⟩
  intro bytes _ hb
  rw [hroot.length] at hb
  change (bytes.length : Int) = 5 at hb
  omega

/-! ### Out of range -/

/-- A sector full of bytes 255 becomes the indirect block of a file of one byte, in sector 10. -/
def staleSlots : List Step :=
  [⟨[], .create 1024 false⟩, ⟨[], .openInode 8⟩, ⟨[], .write 8 (fun _ => 255) 512 512⟩, ⟨[], .remove 8⟩, ⟨[], .close 8⟩,
    ⟨[], .create 0 false⟩, ⟨[], .create 1 false⟩, ⟨[], .openInode 10⟩]

/-- A write up to `MAX_FILE_SIZE` fails an assertion. A read whose end wraps goes on past the length and follows what
the indirect block happens to hold. A read that gets no memory returns nothing. -/
theorem transfers_out_of_range : ∃ hist s n, Run Step.exec (fun st s => Permitted st s ∧ Clean st s) Formatted hist s ∧
    findInode 10 s.openInodes = some n ∧ n.denyWriteCnt = 0 ∧ InodeDisk.length n.data = 1 ∧
    (∃ s', (inodeWriteAt 10 (fun _ => 0) 8388608 0).run s = .error .fileSize s') ∧
    (∃ s', (inodeReadAt 10 2147483647 1).run s = .error .pastEnd s') ∧
    ∃ s', (inodeReadAt 10 1 0).run {s with heap := [false]} = .ok [] s' := by
  obtain ⟨hist, s, hr, hp⟩ := run_of_replay
    (p := fun _ s => (findInode 10 s.openInodes).any (fun n => n.denyWriteCnt == 0 && InodeDisk.length n.data == 1) &&
      (inodeWriteAt 10 (fun _ => 0) 8388608 0).stops s .fileSize && (inodeReadAt 10 2147483647 1).stops s .pastEnd &&
      (inodeReadAt 10 1 0).returns {s with heap := [false]} fun bytes _ => bytes.isEmpty)
    cleanly_correct 24 staleSlots (by decide +kernel)
  simp only [Bool.and_eq_true, Option.any_eq_true, beq_iff_eq] at hp
  obtain ⟨⟨⟨⟨n, hn, hdeny, hlen⟩, hwrite⟩, hread⟩, hmem⟩ := hp
  obtain ⟨bytes, s', hrun, hbytes⟩ := run_of_returns hmem
  rw [List.isEmpty_iff.mp hbytes] at hrun
  exact ⟨hist, s, n, hr, hn, hdeny, hlen, run_of_stops hwrite, run_of_stops hread, s', hrun⟩

end

end Pintos.Filesys
