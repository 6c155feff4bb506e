import Pintos.Filesys.Inode

/-! The blocks of an inode.

From a device and the block of an inode the sectors that inode owns can be read off:
its own, the double-indirect block, the indirect blocks and the data sectors, as many
as its length asks for. -/
namespace Pintos.Filesys

/-! ### Counting -/

def sectorCnt (size : Nat) : Nat := (size + blockSectorSize - 1) / blockSectorSize

def indirectCnt (sectors : Nat) : Nat :=
  (sectors + pointerBlockPointersCount - 1) / pointerBlockPointersCount

theorem divRoundUp_cast (n step : Nat) (h : 0 < step) :
    divRoundUp n step = ((n + step - 1) / step : Nat) := by
  have : (n : Int) + step - 1 = ((n + step - 1 : Nat) : Int) := by omega
  rw [divRoundUp, this, ← Int.ofNat_tdiv]

theorem bytesToSectors_cast (n : Nat) : bytesToSectors n = sectorCnt n :=
  divRoundUp_cast n blockSectorSize (by decide)

theorem sectorsToIndirectBlocks_cast (n : Nat) : sectorsToIndirectBlocks n = indirectCnt n :=
  divRoundUp_cast n pointerBlockPointersCount (by decide)

theorem sectorCnt_mono {m n : Nat} (h : m ≤ n) : sectorCnt m ≤ sectorCnt n := by
  unfold sectorCnt
  exact Nat.div_le_div_right (by omega)

theorem indirectCnt_mono {m n : Nat} (h : m ≤ n) : indirectCnt m ≤ indirectCnt n := by
  unfold indirectCnt
  exact Nat.div_le_div_right (by omega)

/-- The sector of a byte is counted. -/
theorem div_lt_sectorCnt {o n : Nat} (h : o < n) : o / blockSectorSize < sectorCnt n := by
  unfold sectorCnt blockSectorSize
  omega

/-- The indirect block of a sector is counted. -/
theorem div_lt_indirectCnt {j n : Nat} (h : j < n) : j / pointerBlockPointersCount < indirectCnt n := by
  unfold indirectCnt pointerBlockPointersCount
  omega

theorem sectorCnt_lt {n : Nat} (h : n < maxFileSize) :
    sectorCnt n ≤ pointerBlockPointersCount * pointerBlockPointersCount := by
  unfold maxFileSize pointerBlockPointersCount blockSectorSize at h
  unfold sectorCnt pointerBlockPointersCount blockSectorSize
  omega

theorem indirectCnt_le {n : Nat} (h : n ≤ pointerBlockPointersCount * pointerBlockPointersCount) :
    indirectCnt n ≤ pointerBlockPointersCount := by
  unfold pointerBlockPointersCount at h
  unfold indirectCnt pointerBlockPointersCount
  omega

/-- The data sectors and indirect blocks of a file of `n` bytes. -/
def blockCnt (n : Nat) : Nat := sectorCnt n + indirectCnt (sectorCnt n)

/-! ### The fields of an inode block -/

namespace InodeDisk

/-- The length, which is never negative in an inode that has been created. -/
def size (d : Bytes) : Nat := (length d).toNat

theorem length_setLength (d : Bytes) {n : Int} (h0 : 0 ≤ n) (h : n < maxFileSize) :
    length (setLength d n) = n := by
  have hmax : (maxFileSize : Int) = 8388608 := rfl
  have hlt : n.toNat < 2 ^ 32 := by omega
  unfold length setLength
  rw [Bytes.word_setWord d 1 hlt, if_pos (by omega)]
  omega

theorem doubleIndirectBlock_setLength (d : Bytes) (n : Int) :
    doubleIndirectBlock (setLength d n) = doubleIndirectBlock d :=
  Bytes.word_setWord_ne d _ (by decide)

theorem isDir_setLength (d : Bytes) (n : Int) : isDir (setLength d n) = isDir d := by
  unfold isDir setLength
  rw [Bytes.word_setWord_ne d _ (by decide)]

theorem size_setLength (d : Bytes) {n : Int} (h0 : 0 ≤ n) (h : n < maxFileSize) :
    size (setLength d n) = n.toNat := by
  rw [size, length_setLength d h0 h]

/-- The length written again. -/
theorem setLength_length {d : Bytes} (h : 0 ≤ length d) : setLength d (length d) = d := by
  have hw : (length d).toNat = d.word 1 := by
    unfold length at h ⊢
    have := Bytes.word_lt d 1
    split at h <;> split <;> omega
  rw [setLength, hw, Bytes.setWord_word]

theorem length_fresh (isDir : Bool) (sector : Nat) :
    length (setDoubleIndirectBlock (fresh isDir) sector) = 0 := by
  have : (setDoubleIndirectBlock (fresh isDir) sector).word 1 = 0 := by
    unfold setDoubleIndirectBlock fresh
    rw [Bytes.word_setWord_ne _ _ (by decide), Bytes.word_setWord_ne _ _ (by decide),
      Bytes.word_setWord_ne _ _ (by decide), Bytes.word_setWord _ _ (by decide)]
  simp [length, this]

theorem doubleIndirectBlock_fresh (isDir : Bool) {sector : Nat} (h : sector < 2 ^ 32) :
    doubleIndirectBlock (setDoubleIndirectBlock (fresh isDir) sector) = sector :=
  Bytes.word_setWord _ _ h

theorem isDir_fresh (dir : Bool) (sector : Nat) :
    isDir (setDoubleIndirectBlock (fresh dir) sector) = dir := by
  have : (setDoubleIndirectBlock (fresh dir) sector).word 3 = if dir then 1 else 0 := by
    unfold setDoubleIndirectBlock fresh
    rw [Bytes.word_setWord_ne _ _ (by decide), Bytes.word_setWord _ _ (by cases dir <;> decide)]
  rw [isDir, this]
  cases dir <;> rfl

end InodeDisk

/-! ### Pointers -/

section Pointers
variable (dev : Nat → Bytes) (i : Nat) (d : Bytes)

def indirectSector (j : Nat) : Nat := pointer (dev (InodeDisk.doubleIndirectBlock d)) j

def indirectSectors : List Nat :=
  (List.range (indirectCnt (sectorCnt (InodeDisk.size d)))).map (indirectSector dev d)

/-- The sector of the file's `j`-th block of data. -/
def dataSector (j : Nat) : Nat :=
  pointer (dev (indirectSector dev d (j / pointerBlockPointersCount))) (j % pointerBlockPointersCount)

def dataSectors : List Nat := (List.range (sectorCnt (InodeDisk.size d))).map (dataSector dev d)

/-- The sectors that do not go through the cache. -/
def metaSectors : List Nat := i :: InodeDisk.doubleIndirectBlock d :: indirectSectors dev d

def sectorsOf : List Nat := metaSectors dev i d ++ dataSectors dev d

end Pointers

section PointerLemmas
variable {dev dev' : Nat → Bytes} {i : Nat} {d : Bytes} {j k : Nat}

theorem indirectSector_mem (h : j < indirectCnt (sectorCnt (InodeDisk.size d))) :
    indirectSector dev d j ∈ indirectSectors dev d :=
  List.mem_map_of_mem (List.mem_range.mpr h)

theorem dataSector_mem (h : j < sectorCnt (InodeDisk.size d)) :
    dataSector dev d j ∈ dataSectors dev d :=
  List.mem_map_of_mem (List.mem_range.mpr h)

theorem mem_sectorsOf :
    k ∈ sectorsOf dev i d ↔ k ∈ metaSectors dev i d ∨ k ∈ dataSectors dev d := List.mem_append

theorem mem_metaSectors : k ∈ metaSectors dev i d ↔
    k = i ∨ k = InodeDisk.doubleIndirectBlock d ∨ k ∈ indirectSectors dev d := by
  simp [metaSectors]

theorem self_mem : i ∈ sectorsOf dev i d := mem_sectorsOf.mpr (.inl List.mem_cons_self)

/-- The sectors depend on the device through the pointer blocks alone. -/
theorem indirectSectors_congr
    (h : 0 < sectorCnt (InodeDisk.size d) →
      dev' (InodeDisk.doubleIndirectBlock d) = dev (InodeDisk.doubleIndirectBlock d)) :
    indirectSectors dev' d = indirectSectors dev d := by
  apply List.map_congr_left
  intro j hj
  have hpos : 0 < sectorCnt (InodeDisk.size d) := by
    rw [List.mem_range] at hj
    by_contra hz
    have : indirectCnt (sectorCnt (InodeDisk.size d)) = 0 := by
      rw [Nat.eq_zero_of_not_pos hz]
      rfl
    omega
  unfold indirectSector
  rw [h hpos]

theorem dataSector_congr (h : dev' (InodeDisk.doubleIndirectBlock d) = dev (InodeDisk.doubleIndirectBlock d))
    (hi : ∀ k ∈ indirectSectors dev d, dev' k = dev k) (hj : j < sectorCnt (InodeDisk.size d)) :
    dataSector dev' d j = dataSector dev d j := by
  have he : ∀ j, indirectSector dev' d j = indirectSector dev d j := by
    intro j
    unfold indirectSector
    rw [h]
  unfold dataSector
  rw [he, hi _ (indirectSector_mem (div_lt_indirectCnt hj))]

theorem dataSectors_congr
    (h : 0 < sectorCnt (InodeDisk.size d) →
      dev' (InodeDisk.doubleIndirectBlock d) = dev (InodeDisk.doubleIndirectBlock d))
    (hi : ∀ k ∈ indirectSectors dev d, dev' k = dev k) :
    dataSectors dev' d = dataSectors dev d := by
  apply List.map_congr_left
  intro j hj
  rw [List.mem_range] at hj
  exact dataSector_congr (h (by omega)) hi hj

/-- Distinct blocks of a file lie in distinct sectors. -/
theorem dataSector_inj (h : (dataSectors dev d).Nodup) {j j' : Nat}
    (hj : j < sectorCnt (InodeDisk.size d)) (hj' : j' < sectorCnt (InodeDisk.size d))
    (he : dataSector dev d j = dataSector dev d j') : j = j' :=
  List.inj_on_of_nodup_map h (List.mem_range.mpr hj) (List.mem_range.mpr hj') he

end PointerLemmas

end Pintos.Filesys
