import Pintos.Filesys.MapWrites
import Pintos.Filesys.Metadata

/-! All or nothing: `extend_inode_disk_to_size`.

The call either leaves the free map and the inode as they were, with nothing written to the inode's
own blocks, or it gives the inode the size asked for: the sectors it had stay where they were and the
new ones, data sectors and indirect blocks, are sectors that were free, each used once. The exception
is a call that has to give sectors back before the free-map file is open: `free_map_release` writes the
map through a null pointer then. -/
namespace Pintos.Filesys
open Outcome WriteBack

/-- The indirect blocks and data sectors of `d'` beyond those of `d`. -/
def addedSectors (dev : Nat → Bytes) (d d' : Bytes) : List Nat :=
  (indirectSectors dev d').drop (indirectCnt (sectorCnt (InodeDisk.size d))) ++
    (dataSectors dev d').drop (sectorCnt (InodeDisk.size d))

/-- What a call of `extend_inode_disk_to_size` for the inode block `d` in sector `i` may leave. -/
structure Extended (i : Nat) (d : Bytes) (size : Int) (s : Fs) (r : Bool × Bytes) (s' : Fs) : Prop where
  failed : r.1 = false → r.2 = d ∧ s'.freeMap = s.freeMap ∧ ∃ ev, s'.trace = ev ++ s.trace ∧
    ∀ w k b, Event.write w k b ∈ ev → k ∉ metaSectors s.device i d
  length : r.1 = true → InodeDisk.length r.2 = size ∧ s'.device i = r.2
  kept : r.1 = true → ∀ j < sectorCnt (InodeDisk.size d), dataSector s'.device r.2 j = dataSector s.device d j
  fresh : r.1 = true → ∀ j, sectorCnt (InodeDisk.size d) ≤ j → j < sectorCnt size.toNat →
    s.freeMap.test (dataSector s'.device r.2 j) = false
  distinct : r.1 = true → (addedSectors s'.device d r.2).Nodup ∧
    ∀ k ∈ addedSectors s'.device d r.2, s.freeMap.test k = false

section
variable {P : Prop} {N : Nat → Option Bytes} {X l m : List Nat} {s s' : Fs} {i j k : Nat} {d d' : Bytes} {n : Inode}

theorem Tree.weaken (h : Tree True N X s) (P : Prop) : Tree P N X s := {h with clean := fun _ => h.clean trivial}

theorem Aside.weaken (h : Aside True N i d X s) (P : Prop) : Aside P N i d X s :=
  {h with
    tree := h.tree.weaken P
    clean := fun _ => h.clean trivial}

/-- A file's first blocks, read off the list of its sectors. -/
theorem dataSector_eq_getElem (dev : Nat → Bytes) (d : Bytes) (h : j < sectorCnt (InodeDisk.size d)) :
    (dataSectors dev d)[j]? = some (dataSector dev d j) := by
  simp [dataSectors, h]

theorem length_indirectSectors (dev : Nat → Bytes) (d : Bytes) :
    (indirectSectors dev d).length = indirectCnt (sectorCnt (InodeDisk.size d)) := by
  simp [indirectSectors]

/-- The inode and its pointer blocks belong to none of the inodes in the tree. -/
theorem Aside.not_owned (h : Aside P N i d X s) (hk : k ∈ metaSectors s.device i d) : ¬ Owned N s k := fun hO =>
  h.tree.spare k hO (List.mem_append_left X (mem_sectorsOf.mpr (.inl hk)))

/-- Nothing has gone to the inode's own blocks. -/
theorem Aside.not_written (h : Aside True N i d X s) (hm : MapFile N s n) (hst : Steady N s s')
    (ho : MapOnly s.trace s') :
    ∃ ev, s'.trace = ev ++ s.trace ∧ ∀ w k b, Event.write w k b ∈ ev → k ∉ metaSectors s.device i d := by
  obtain ⟨ev, hev, hharm⟩ := hst.calm.events
  obtain ⟨ev', hev', honly⟩ := ho.written
  obtain rfl : ev' = ev := List.append_cancel_right (hev'.symm.trans hev)
  refine ⟨ev', hev, ?_⟩
  intro w k b hmem hk
  have hmap : ¬ MapData N s k := fun hD => h.not_owned hk hD.dataOf.owned
  have hself : w.isMeta = true → False := by
    intro hw
    refine h.not_owned hk ⟨freeMapSector, n.data, hm.node, ?_⟩
    rw [honly w k b hmem hw]
    exact self_mem
  have he := hharm _ hmem
  cases w with
  | inode | doubleIndirect | indirect => exact hself rfl
  | data => exact hmap he
  | writeBack =>
    rcases he with hd | hD
    · exact h.clean trivial k hk hd
    · exact hmap hD

/-- The free map is what it was. -/
theorem Aside.freeMap_eq (h : Aside P N i d X s) (h' : Aside P N i d X s') (hst : Steady N s s') :
    s'.freeMap = s.freeMap := by
  have hk := h.kept hst h'.tree.intact
  apply Kernel.Bitmap.bitmap_ext hst.bitCnt
  intro k
  rw [Bool.eq_iff_iff, h'.tree.used, h.tree.used, hk.sectorsOf, owned_congr hst.kept]

/-- The inode has joined the tree with sectors of its own. -/
theorem extended_of_joined {s1 : Fs} {size : Int} (hlen : InodeDisk.length d' = size) (hk : Kept s s1 d)
    (ha : Aside P N i d (m ++ l ++ X) s1) (hj : Joined P N i d d' X m l s1 s')
    (hl : sectorCnt size.toNat = sectorCnt (InodeDisk.size d) + l.length)
    (hfree : ∀ k ∈ m ++ l, s.freeMap.test k = false) : Extended i d size s (true, d') s' := by
  have hdata : dataSectors s'.device d' = dataSectors s.device d ++ l := by rw [hj.data, hk.dataSectors]
  have hind : indirectSectors s'.device d' = indirectSectors s.device d ++ m := by rw [hj.indirect, hk.indirectSectors]
  have hsize : InodeDisk.size d' = size.toNat := by rw [InodeDisk.size, hlen]
  have hadded : addedSectors s'.device d d' = m ++ l := by
    rw [addedSectors, hdata, hind, List.drop_left' (length_indirectSectors _ _), List.drop_left' (length_dataSectors _ _)]
  have hget : ∀ j < sectorCnt size.toNat, (dataSectors s.device d ++ l)[j]? = some (dataSector s'.device d' j) := by
    intro j hj
    rw [← hdata]
    exact dataSector_eq_getElem _ _ (hsize ▸ hj)
  have hnodup : (m ++ l).Nodup := by
    refine ha.tree.taken.sublist ?_
    exact (List.sublist_append_left _ X).trans (List.sublist_append_right _ _)
  have hinode := hj.tree.inode i d' (by simp)
  refine ⟨(by simp), fun _ => ⟨hlen, hinode.2⟩, fun _ j hj => ?_, fun _ j hge hlt => ?_, fun _ => ?_⟩
  · have := hget j (by omega)
    rw [List.getElem?_append_left (by rw [length_dataSectors]; exact hj), dataSector_eq_getElem _ _ hj] at this
    exact (Option.some.inj this).symm
  · have := hget j hlt
    rw [List.getElem?_append_right (by rw [length_dataSectors]; exact hge)] at this
    exact hfree _ (List.mem_append_right m (List.mem_of_getElem? this))
  · rw [hadded]
    exact ⟨hnodup, hfree⟩

theorem MapFile.mapOnly (hm : MapFile N s n) (h : Tree P N X s) : MapOnly s.trace s := by
  have hlen := h.length freeMapSector n.data hm.node
  exact ⟨⟨[], rfl, by simp⟩, hm.file, ⟨n, hm.isOpen, hlen.1, hlen.2, hm.room⟩,
    h.owned_lt ⟨freeMapSector, n.data, hm.node, self_mem⟩⟩

/-! ### Memory for the first sector -/

/-- A request for memory fails before the growth by some indirect blocks has taken its first sector: the one for the
array of indirect blocks, or without new ones those for the buffer and for the array of sectors. -/
def NoneTaken (heap : List Bool) (newIndirectBlocks : Nat) : Prop :=
  ∃ j < if 0 < newIndirectBlocks then 1 else 2, heap[j]? = some false

theorem ends_malloc_iff {Q : Bool → Fs → Prop} {E : Panic → Fs → Prop} :
    Ends malloc s Q E ↔ Q (s.heap[0]? != some false) {s with heap := s.heap.tail} := by
  unfold malloc
  rw [ends_bind, ends_get]
  cases hs : s.heap with
  | nil =>
    have he : ({s with heap := []} : Fs) = s := by rw [← hs]
    rw [List.tail_nil, he]
    exact Iff.rfl
  | cons b later => cases b <;> exact Iff.rfl

theorem buildSectors_noneTaken (bitmapWrite : FsM Bool) {block sectors blocks cnt newBlocks : Nat}
    (h : NoneTaken s.heap newBlocks) {E : Panic → Fs → Prop} :
    Ends (buildSectors bitmapWrite block sectors blocks cnt newBlocks) s (fun ok _ => ok = false) E := by
  obtain ⟨j, hj, hfail⟩ := h
  unfold buildSectors
  rw [ends_bind]
  split at hj
  · rename_i hpos
    obtain rfl : j = 0 := by omega
    rw [if_pos hpos]
    unfold allocateKSectors
    rw [ends_bind, ends_malloc_iff, hfail]
    exact rfl
  · rename_i hpos
    rw [if_neg hpos, ends_pure]
    simp only [ends_bind]
    rw [ends_malloc_iff]
    by_cases h0 : s.heap[0]? = some false
    · rw [h0]
      exact rfl
    · obtain rfl : j = 1 := by
        rcases j with - | j
        · exact absurd hfail h0
        · omega
      unfold allocateKSectors
      rw [bne_iff_ne.mpr h0]
      simp only [Bool.not_true, Bool.false_eq_true, if_false, ends_bind]
      rw [ends_malloc_iff, List.getElem?_tail, hfail]
      exact rfl

/-! ### Without a free-map file -/

/-- With so many free sectors and these answers to its requests for memory, a growth by `newIndirectBlocks` indirect
blocks and `newSectors` sectors has nothing to give back: it takes no sector at all, or it gets all it asks for. -/
def NothingReleased (free : Nat) (heap : List Bool) (newIndirectBlocks newSectors : Nat) : Prop :=
  newSectors = 0 ∨ free = 0 ∨ NoneTaken heap newIndirectBlocks ∨
    newIndirectBlocks + newSectors ≤ free ∧ ∀ j < if 0 < newIndirectBlocks then 4 else 3, heap[j]? ≠ some false

/-- There is no free-map file, nothing has been written, and this is what there is of sectors and memory. -/
structure Bare (tr : List Event) (free : Nat) (heap : List Bool) (s : Fs) : Prop where
  trace : s.trace = tr
  noFile : s.freeMapFile = none
  bitCnt : s.freeMap.bitCnt = s.deviceSize
  free : freeCnt s = free
  heap : s.heap = heap

section Bare
variable {tr : List Event} {free cnt newBlocks : Nat} {heap : List Bool} {E : Panic → Fs → Prop}

theorem Bare.malloc (h : Bare tr free heap s) {Q : Bool → Fs → Prop}
    (hno : heap[0]? = some false → ∀ s', Bare tr free heap.tail s' → Q false s')
    (hyes : heap[0]? ≠ some false → ∀ s', Bare tr free heap.tail s' → Q true s') : Ends malloc s Q E := by
  have hs' : Bare tr free heap.tail {s with heap := s.heap.tail} := ⟨h.trace, h.noFile, h.bitCnt, h.free, congrArg List.tail h.heap⟩
  rw [ends_malloc_iff]
  rw [h.heap] at hs' ⊢
  by_cases h0 : heap[0]? = some false
  · rw [h0]
    exact hno h0 _ hs'
  · rw [bne_iff_ne.mpr h0]
    exact hyes h0 _ hs'

theorem Bare.take (h : Bare tr free heap s) (hk : k < s.deviceSize) (hfree : s.freeMap.test k = false) :
    Bare tr (free - 1) heap {s with freeMap := s.freeMap.put k true} ∧ 0 < free := by
  let l := (List.range s.deviceSize).filter fun k' => !(s.freeMap.put k true).test k'
  have hlen : l.length = freeCnt {s with freeMap := s.freeMap.put k true} := by
    rw [freeCnt, List.countP_eq_length_filter]
  have hmem : ∀ j, j ∈ l ↔ j < s.deviceSize ∧ j ≠ k ∧ s.freeMap.test j = false := by
    intro j
    rw [List.mem_filter, List.mem_range, Kernel.Bitmap.test_put (h.bitCnt ▸ hk)]
    grind
  have hle := freeCnt_le (s := s) (l := k :: l) fun j hj hf => by
    rw [List.mem_cons, hmem]
    grind
  have hge := le_freeCnt (s := s) (l := k :: l)
    (List.nodup_cons.mpr ⟨fun hm => ((hmem k).mp hm).2.1 rfl, List.nodup_range.filter _⟩) fun j hj => by
      rw [List.mem_cons, hmem] at hj
      grind
  rw [List.length_cons, h.free] at hle hge
  exact ⟨⟨h.trace, h.noFile, by rw [← h.bitCnt]; simp, by omega, h.heap⟩, by omega⟩

theorem Bare.allocateSectors (cnt : Nat) : ∀ {free : Nat} {s : Fs}, Bare tr free heap s →
    Ends (allocateSectors bitmapWrite cnt) s
      (fun r s' => r.1.length = min cnt free ∧ r.2 = decide (cnt ≤ free) ∧ Bare tr (free - r.1.length) heap s') E := by
  induction cnt with
  | zero => exact fun {free s} h => ⟨by simp, by simp, h⟩
  | succ cnt ih =>
    intro free s h
    have hscan := s.freeMap.scanAndFlip_one
    unfold Filesys.allocateSectors freeMapAllocate
    simp only [ends_bind, ends_get]
    cases hs : s.freeMap.scanAndFlip 0 1 false with
    | none =>
      rw [hs] at hscan
      have hle := freeCnt_le (s := s) (l := []) fun k hk hf => by
        rw [hscan k (h.bitCnt ▸ hk)] at hf
        cases hf
      obtain rfl : free = 0 := Nat.le_zero.mp (h.free ▸ hle)
      exact ⟨by simp, by simp, h⟩
    | some r =>
      obtain ⟨k, b⟩ := r
      rw [hs] at hscan
      obtain ⟨hlt, hfree, -, rfl⟩ := hscan
      obtain ⟨h1, hpos⟩ := h.take (h.bitCnt ▸ hlt) hfree
      simp only [ends_bind, ends_set]
      rw [if_neg (by simp [h.noFile]), ends_pure]
      simp only [if_true, ends_pure, ends_bind]
      refine (ih h1).imp fun r s' hr => ?_
      obtain ⟨l, complete⟩ := r
      obtain ⟨hlen, hc, h2⟩ := hr
      simp only at hlen hc h2 ⊢
      refine ⟨by rw [List.length_cons]; omega, by rw [hc, decide_eq_decide]; omega, ?_⟩
      rwa [List.length_cons, Nat.add_comm, ← Nat.sub_sub]

theorem Bare.release (h : Bare tr free heap s) {l : List Nat} (hl : l ≠ []) {Q : Unit → Fs → Prop}
    (hE : ∀ e s', E e s') : Ends (freeBlockSectorArray bitmapWrite l) s Q E := by
  cases l with
  | nil => exact absurd rfl hl
  | cons k rest =>
    unfold freeBlockSectorArray freeMapRelease
    simp only [ends_bind, ends_get]
    refine ends_check_or (fun _ => ends_check_or (fun _ => ?_) fun _ => hE _ _) fun _ => hE _ _
    rw [ends_set, ends_record]
    exact (bitmapWrite_noFile (by exact h.noFile)).mpr (hE _ _)

/-- The sectors are all there, or none is, or some have to be given back. -/
theorem Bare.allocateKSectors (h : Bare tr free heap s) (hcnt : 0 < cnt) {Q : Option (List Nat) → Fs → Prop}
    (hnone : heap[0]? = some false ∨ free = 0 → ∀ s', Bare tr free heap.tail s' → Q none s')
    (hsome : heap[0]? ≠ some false → cnt ≤ free → ∀ l s', l ≠ [] → Bare tr (free - cnt) heap.tail s' → Q (some l) s')
    (herr : heap[0]? ≠ some false → free ≠ 0 → free < cnt → ∀ e s', E e s') :
    Ends (allocateKSectors bitmapWrite cnt) s Q E := by
  unfold Filesys.allocateKSectors
  rw [ends_bind]
  refine h.malloc (fun h0 s' hs' => hnone (.inl h0) s' hs') fun h0 s1 hs1 => ?_
  simp only [Bool.not_true, Bool.false_eq_true, if_false, ends_bind]
  refine (hs1.allocateSectors cnt).imp fun r s' hr => ?_
  obtain ⟨l, complete⟩ := r
  obtain ⟨hlen, hc, hs'⟩ := hr
  simp only at hlen hc hs' ⊢
  have hnil : l = [] ↔ free = 0 := by
    rw [← List.length_eq_zero_iff]
    omega
  by_cases hle : cnt ≤ free
  · rw [hc, decide_eq_true hle]
    rw [hlen, Nat.min_eq_left hle] at hs'
    exact hsome h0 hle l s' (by rw [ne_eq, hnil]; omega) hs'
  · rw [hc, decide_eq_false hle]
    simp only [Bool.false_eq_true, if_false, ends_bind]
    by_cases hz : free = 0
    · obtain rfl := hnil.mpr hz
      exact hnone (.inr hz) _ hs'
    · exact hs'.release (by rwa [ne_eq, hnil]) (herr h0 hz (Nat.lt_of_not_le hle))

theorem enterSectors_pastEnd (doubleIndirect : Bytes) (sectors : List Nat) : ∀ (j : Nat) (last : Option Nat)
    (buffer : Bytes) (s : Fs), Ends (enterSectors doubleIndirect j sectors last buffer) s (fun _ _ => True)
      fun e _ => e = .pastEnd := by
  have hflush : ∀ last buffer s, Ends (flushIndirect doubleIndirect last buffer) s (fun _ _ => True)
      fun e _ => e = .pastEnd := by
    intro last buffer s
    cases last with
    | none => exact trivial
    | some ind => exact ends_blockWrite_or (fun _ => trivial) rfl
  induction sectors with
  | nil => exact fun j last buffer s => hflush last buffer s
  | cons k rest ih =>
    intro j last buffer s
    unfold enterSectors
    rw [ends_bind]
    split
    · exact ih _ _ _ s
    · rw [ends_bind]
      exact (hflush last buffer s).imp fun _ s' _ => ends_blockRead_or (fun _ => ih _ _ _ s') rfl

theorem enterBlocks_pastEnd (block sectors blocks : Nat) (m l : List Nat) (s : Fs) :
    Ends (enterBlocks block sectors blocks m l) s (fun _ _ => True) fun e _ => e = .pastEnd := by
  unfold enterBlocks
  rw [ends_bind]
  refine ends_blockRead_or (fun _ => ?_) rfl
  rw [ends_bind]
  exact ends_blockWrite_or (fun _ => enterSectors_pastEnd _ _ _ _ _ _) rfl

/-- With a sector to take, and the memory to begin with, everything has to be there. -/
theorem nothingReleased_iff (hcnt : 0 < cnt) (hfree : 0 < free) (hbegun : ¬ NoneTaken heap newBlocks) :
    NothingReleased free heap newBlocks cnt ↔
      newBlocks + cnt ≤ free ∧ ∀ j < if 0 < newBlocks then 4 else 3, heap[j]? ≠ some false := by
  unfold NothingReleased
  constructor
  · rintro (hz | hz | hnone | hall)
    · omega
    · omega
    · exact absurd hnone hbegun
    · exact hall
  · exact fun hall => .inr (.inr (.inr hall))

/-- Without a free-map file the growth goes wrong when something has to be released, and only then. -/
theorem Bare.buildSectors (h : Bare tr free heap s) {block sectors blocks : Nat} (hcnt : 0 < cnt) :
    Ends (buildSectors bitmapWrite block sectors blocks cnt newBlocks) s
      (fun ok s' => NothingReleased free heap newBlocks cnt ∧ (ok = false → s'.trace = tr))
      fun e _ => NothingReleased free heap newBlocks cnt → e = .pastEnd := by
  unfold Filesys.buildSectors
  rw [ends_bind]
  by_cases hpos : 0 < newBlocks
  · rw [if_pos hpos]
    have hnone : NoneTaken heap newBlocks ↔ heap[0]? = some false := by
      unfold NoneTaken
      rw [if_pos hpos]
      constructor
      · rintro ⟨j, hj, hf⟩
        rwa [Nat.lt_one_iff.mp hj] at hf
      · exact fun hf => ⟨0, by decide, hf⟩
    refine h.allocateKSectors hpos (fun hn s' hs' => ?_) (fun h0 hle m s1 hm h1 => ?_) fun h0 hne hlt e s' hr => ?_
    · exact ⟨hn.elim (fun h0 => .inr (.inr (.inl (hnone.mpr h0)))) fun hz => .inr (.inl hz), fun _ => hs'.trace⟩
    · -- From here on the indirect blocks have to be released when anything fails.
      have hiff := nothingReleased_iff hcnt (show 0 < free by omega) (hnone.not.mpr h0)
      rw [if_pos hpos] at hiff
      simp only [ends_bind]
      refine h1.malloc (fun hf s2 h2 => ?_) fun hf1 s2 h2 => ?_
      · simp only [Bool.not_false, if_true, ends_bind]
        exact h2.release hm fun e s' hr => absurd (List.getElem?_tail ▸ hf) ((hiff.mp hr).2 1 (by decide))
      simp only [Bool.not_true, Bool.false_eq_true, if_false, ends_bind]
      refine h2.allocateKSectors hcnt (fun hn s3 h3 => ?_) (fun hf2 hle' l s3 hl h3 => ?_) fun hf2 hne hlt e s' hr => ?_
      · simp only [ends_bind]
        refine h3.release hm fun e s' hr => ?_
        obtain ⟨hle', hall⟩ := hiff.mp hr
        simp only [List.getElem?_tail] at hn
        exact hn.elim (fun hf => absurd hf (hall 2 (by decide))) fun hz => by omega
      · simp only [ends_bind]
        refine h3.malloc (fun hf s4 h4 => ?_) fun hf3 s4 h4 => ?_
        · simp only [Bool.not_false, if_true, ends_bind]
          simp only [List.getElem?_tail] at hf
          exact h4.release hl fun e s' hr => absurd hf ((hiff.mp hr).2 3 (by decide))
        simp only [Bool.not_true, Bool.false_eq_true, if_false, ends_bind]
        refine (enterBlocks_pastEnd _ _ _ _ _ _).mono (fun _ _ _ => ?_) fun _ _ he _ => he
        simp only [List.getElem?_tail] at hf1 hf2 hf3
        refine ⟨hiff.mpr ⟨by omega, fun j hj => ?_⟩, (by simp)⟩
        interval_cases j <;> assumption
      · have := (hiff.mp hr).1
        omega
    · have := ((nothingReleased_iff hcnt (by omega) (hnone.not.mpr h0)).mp hr).1
      omega
  · rw [if_neg hpos, ends_pure]
    simp only [ends_bind]
    have hnone : NoneTaken heap newBlocks ↔ heap[0]? = some false ∨ heap[1]? = some false := by
      unfold NoneTaken
      rw [if_neg hpos]
      constructor
      · rintro ⟨j, hj, hf⟩
        interval_cases j
        · exact .inl hf
        · exact .inr hf
      · exact fun hf => hf.elim (fun hf => ⟨0, by decide, hf⟩) fun hf => ⟨1, by decide, hf⟩
    refine h.malloc (fun h0 s' hs' => ⟨.inr (.inr (.inl (hnone.mpr (.inl h0)))), fun _ => hs'.trace⟩) fun h0 s1 h1 => ?_
    simp only [Bool.not_true, Bool.false_eq_true, if_false, ends_bind]
    refine h1.allocateKSectors hcnt (fun hn s' hs' => ?_) (fun hf1 hle l s2 hl h2 => ?_) fun hf1 hne hlt e s' hr => ?_
    · simp only [List.getElem?_tail] at hn
      exact ⟨hn.elim (fun hf => .inr (.inr (.inl (hnone.mpr (.inr hf))))) fun hz => .inr (.inl hz), fun _ => hs'.trace⟩
    · simp only [List.getElem?_tail] at hf1
      have hiff := nothingReleased_iff hcnt (show 0 < free by omega) (hnone.not.mpr (not_or.mpr ⟨h0, hf1⟩))
      rw [if_neg hpos] at hiff
      simp only [ends_bind]
      refine h2.malloc (fun hf s3 h3 => ?_) fun hf2 s3 h3 => ?_
      · simp only [Bool.not_false, if_true, ends_bind]
        simp only [List.getElem?_tail] at hf
        exact h3.release hl fun e s' hr => absurd hf ((hiff.mp hr).2 2 (by decide))
      simp only [Bool.not_true, Bool.false_eq_true, if_false, ends_bind]
      refine (enterBlocks_pastEnd _ _ _ _ _ _).mono (fun _ _ _ => ?_) fun _ _ he _ => he
      simp only [List.getElem?_tail] at hf2
      refine ⟨hiff.mpr ⟨by omega, fun j hj => ?_⟩, (by simp)⟩
      interval_cases j <;> assumption
    · simp only [List.getElem?_tail] at hf1
      have := ((nothingReleased_iff hcnt (by omega) (hnone.not.mpr (not_or.mpr ⟨h0, hf1⟩))).mp hr).1
      omega

end Bare

/-! ### The call -/

/-- A call that does not come to the release without a file leaves what it should. -/
theorem extend_of_fill (h : Aside True N i d X s) (hw : Writable N s) {size : Int} (hge : InodeDisk.length d ≤ size)
    (hmax : size < maxFileSize)
    (hfill : Ends (if newSectors d size.toNat = 0 then pure true else
        buildSectors bitmapWrite (InodeDisk.doubleIndirectBlock d) (sectorCnt (InodeDisk.size d))
          (indirectCnt (sectorCnt (InodeDisk.size d))) (newSectors d size.toNat) (newIndirectBlocks d size.toNat)) s
      (fun ok s' => ok = false → Steady N s s' → ∃ ev, s'.trace = ev ++ s.trace ∧
        ∀ w k b, Event.write w k b ∈ ev → k ∉ metaSectors s.device i d)
      fun e _ => ¬ (s.freeMapFile = none ∧ e = .badPointer)) :
    Ends (extendInodeDiskToSize bitmapWrite i d size) s (Extended i d size s) fun _ _ => False := by
  have h0 := h.length.1
  have hz : ((size.toNat : Nat) : Int) = size := Int.toNat_of_nonneg (by omega)
  have hle : InodeDisk.size d ≤ size.toNat := by
    rw [InodeDisk.size]
    omega
  have hi : i < s.deviceSize := h.tree.taken_lt (List.mem_append_left _ self_mem)
  have hcnt := sectorCnt_mono hle
  refine extend_fills bitmapWrite h0 hle (by omega) hz ?_
  refine ((Meets.ends (fill_meets h hw hle) not_spoiled).and hfill).mono ?_ fun e s' he => he.2 he.1
  intro ok s2 hr
  obtain ⟨hf, ho⟩ := hr
  cases ok with
  | false =>
    obtain ⟨hst, ha, -⟩ := hf.failed rfl
    exact ⟨fun _ => ⟨rfl, h.freeMap_eq ha hst, ho rfl hst⟩, (by simp), (by simp), (by simp), (by simp)⟩
  | true =>
    obtain ⟨m, l, s1, -, hl, hfree, hst, ha, hc, -⟩ := hf.done rfl
    have hi2 : i < s2.deviceSize := by rwa [hc.built.deviceSize, hst.calm.deviceSize]
    simp only [if_true]
    rw [ends_blockWrite hi2]
    have hlen := InodeDisk.length_setLength d (n := size) (by omega) hmax
    have hl' : sectorCnt size.toNat = sectorCnt (InodeDisk.size d) + l.length := by
      rw [hl, newSectors]
      omega
    have ha' := ha.weaken False
    refine extended_of_joined hlen (h.kept hst ha.tree.intact) ha' (ha'.joined hc (fun k hk => ?_) False.elim
      (InodeDisk.doubleIndirectBlock_setLength d _) (by rw [InodeDisk.size, hlen, hl']) (by rw [hlen]; omega)) hl' hfree
    rw [hst.calm.role]
    exact h.tree.role_free (hfree k hk)

/-- The call does all or nothing, unless it has something to release while there is no free-map file. -/
theorem extend_all_or_nothing (h : Aside True N i d X s) (hw : Writable N s) {size : Int}
    (hge : InodeDisk.length d ≤ size) (hmax : size < maxFileSize) :
    Ends (extendInodeDiskToSize bitmapWrite i d size) s (Extended i d size s) (fun _ _ => False) ↔
      (s.freeMapFile = none →
        NothingReleased (freeCnt s) s.heap (newIndirectBlocks d size.toNat) (newSectors d size.toNat)) := by
  rcases hw with hno | ⟨n, hm⟩
  · have hbare : Bare s.trace (freeCnt s) s.heap s := ⟨rfl, hno, h.tree.bitCnt, rfl, rfl⟩
    have hfill : Ends (if newSectors d size.toNat = 0 then pure true else
        buildSectors bitmapWrite (InodeDisk.doubleIndirectBlock d) (sectorCnt (InodeDisk.size d))
          (indirectCnt (sectorCnt (InodeDisk.size d))) (newSectors d size.toNat) (newIndirectBlocks d size.toNat)) s
        (fun ok s' => NothingReleased (freeCnt s) s.heap (newIndirectBlocks d size.toNat) (newSectors d size.toNat) ∧
          (ok = false → s'.trace = s.trace))
        fun e _ => NothingReleased (freeCnt s) s.heap (newIndirectBlocks d size.toNat) (newSectors d size.toNat) →
          e = .pastEnd := by
      split
      · rename_i hz
        exact ⟨.inl hz, (by simp)⟩
      · exact hbare.buildSectors (by omega)
    refine ⟨fun hends _ => ?_, fun hnr => extend_of_fill h (.inl hno) hge hmax (hfill.mono (fun ok s' hr hok _ => ?_) ?_)⟩
    · by_contra hnr
      have h0 := h.length.1
      have hz : ((size.toNat : Nat) : Int) = size := Int.toNat_of_nonneg (by omega)
      have hstop : Ends (extendInodeDiskToSize bitmapWrite i d size) s (fun _ _ => False) fun _ _ => True :=
        extend_fills bitmapWrite h0 (by rw [InodeDisk.size]; omega) (by omega) hz
          (hfill.mono (fun _ _ hr => absurd hr.1 hnr) fun _ _ _ => trivial)
      obtain ⟨_, _, _, _, hfalse⟩ := ((hends.and hstop).mono (fun _ _ => id) fun _ _ he => he.1).ok
      exact hfalse
    · exact ⟨[], hr.2 hok, by simp⟩
    · rintro e - he ⟨-, rfl⟩
      cases he (hnr hno)
  · obtain ⟨f, hf, -⟩ := hm.file
    refine ⟨fun _ hno => absurd (hno.symm.trans hf) (by simp), fun _ => extend_of_fill h (.inr ⟨n, hm⟩) hge hmax ?_⟩
    refine Ends.mono (Q := fun ok s' => ok = false → MapOnly s.trace s') (E := fun _ _ => True) ?_
      (fun ok s' ho hok hst => h.not_written hm hst (ho hok)) fun e s' _ he => absurd (he.1.symm.trans hf) (by simp)
    split
    · exact fun he => absurd he.symm Bool.false_ne_true
    · exact mapOnly_buildSectors _ _ _ _ _ (hm.mapOnly h.tree)

theorem extend_all_or_nothing_root : ∃ s d, InodeDisk.length d = 320 ∧
    Ends (extendInodeDiskToSize bitmapWrite rootDirSector d 600) s (Extended rootDirSector d 600 s) fun _ _ => False := by
  obtain ⟨s, n, hroot⟩ := exists_rootOpen
  obtain ⟨hist, hrun⟩ := hroot.run
  have hs := (inv_of_run hrun).sound
  refine ⟨s, n.data, hroot.length, (extend_all_or_nothing (hs.tree.aside (hs.node_of_find hroot.find))
    (hs.writable.update (by decide) none) ?_ (by decide)).mpr fun hno => absurd hno hs.freeMapFile⟩
  rw [hroot.length]
  decide

/-! ### A release without a file -/

/-- A blank device of four sectors while it is formatted: `inode_create` has a double-indirect block for the free map,
and calls `extend_inode_disk_to_size`. -/
def mapInodeAsked : Option Fs :=
  let taken : FsM (Option Nat) := do
    inodeInit
    freeMapInit
    if !(← malloc) then return none
    freeMapAllocate bitmapWrite 1
  match taken.run (powerOn (fun _ _ => 0) 4) with
  | .ok (some 2) s => some s
  | _ => none

/-- The indirect block is taken, there is no sector for the data, and the indirect block is given back. -/
theorem release_without_map_file : (∃ s', (filesysInit true).run (powerOn (fun _ _ => 0) 4) = .error .badPointer s') ∧
    ∃ s, mapInodeAsked = some s ∧ ∃ s', (extendInodeDiskToSize bitmapWrite freeMapSector
      (InodeDisk.setDoubleIndirectBlock (InodeDisk.fresh false) 2) 4).run s = .error .badPointer s' := by
  refine ⟨run_of_stops (by decide +kernel), ?_⟩
  have hstop : mapInodeAsked.any (fun s => (extendInodeDiskToSize bitmapWrite freeMapSector
      (InodeDisk.setDoubleIndirectBlock (InodeDisk.fresh false) 2) 4).stops s .badPointer) = true := by
    decide +kernel
  obtain ⟨s, hs, hstop⟩ := (Option.any_eq_true ..).mp hstop
  exact ⟨s, hs, run_of_stops hstop⟩

end

end Pintos.Filesys
