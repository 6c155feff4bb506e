import Pintos.Filesys.WriteProofs

/-! Closing an inode.

The last close of a removed inode gives its sectors back. It finds them by reading the
pointer blocks again, which are still what the tree says they are, so that exactly the
inode's sectors are released, each once (`deallocate_meets`). -/
namespace Pintos.Filesys
open Outcome WriteBack

/-- Sectors have been given back, and the free-map file written. -/
structure Freed (N : Nat → Option Bytes) (s s' : Fs) : Prop where
  deviceSize : s'.deviceSize = s.deviceSize
  freeMapFile : s'.freeMapFile = s.freeMapFile
  openInodes : s'.openInodes = s.openInodes
  heap : s.heap = [] → s'.heap = []
  cells : ∀ k, ¬ MapData N s k → (s.cell k).Drifts (s'.cell k)
  coherent : ∀ k, (s.cell k).Coherent → (s'.cell k).Coherent
  kept : ∀ i d, N i = some d → Kept s s' d
  bitCnt : s'.freeMap.bitCnt = s.freeMap.bitCnt

section
variable {P : Prop} {N : Nat → Option Bytes} {X Y : List Nat} {s s' : Fs} {i j k : Nat} {d : Bytes} {n : Inode}

theorem Steady.freed (h : Steady N s s') : Freed N s s' :=
  ⟨h.calm.deviceSize, h.calm.freeMapFile, h.calm.openInodes, h.calm.heap, h.calm.cells, fun _ => h.calm.coherent,
    h.kept, h.bitCnt⟩

theorem freed_released (N : Nat → Option Bytes) (s : Fs) (k : Nat) : Freed N s (s.released k) :=
  ⟨rfl, rfl, rfl, id, fun _ _ => .refl _, fun _ => id, fun _ _ _ => ⟨fun _ => rfl, fun _ _ => rfl⟩,
    Kernel.Bitmap.bitCnt_put _ _ _⟩

theorem Freed.mapData (h : Freed N s s') (k : Nat) : MapData N s' k ↔ MapData N s k := by
  constructor <;> rintro ⟨d, hN, hk⟩
  · exact ⟨d, hN, (h.kept _ d hN).dataSectors ▸ hk⟩
  · exact ⟨d, hN, (h.kept _ d hN).dataSectors.symm ▸ hk⟩

theorem Freed.trans {s'' : Fs} (h : Freed N s s') (h' : Freed N s' s'') : Freed N s s'' where
  deviceSize := h'.deviceSize.trans h.deviceSize
  freeMapFile := h'.freeMapFile.trans h.freeMapFile
  openInodes := h'.openInodes.trans h.openInodes
  heap := fun hh => h'.heap (h.heap hh)
  cells := fun k hk => (h.cells k hk).trans (h'.cells k fun hm => hk ((h.mapData k).mp hm))
  coherent := fun k hk => h'.coherent k (h.coherent k hk)
  kept := fun i d hN => (h.kept i d hN).trans (h'.kept i d hN)
  bitCnt := h'.bitCnt.trans h.bitCnt

theorem Freed.mapFile (h : Freed N s s') (hm : MapFile N s n) : MapFile N s' n where
  file := h.freeMapFile ▸ hm.file
  isOpen := h.openInodes ▸ hm.isOpen
  node := hm.node
  unlocked := hm.unlocked
  allowed := hm.allowed
  room := by
    have := hm.room
    unfold Kernel.Bitmap.fileSize at this ⊢
    rwa [h.bitCnt]
  nodup := h.openInodes ▸ hm.nodup

/-- What giving the sectors of `l` back leaves. -/
structure GaveList (P : Prop) (N : Nat → Option Bytes) (X l : List Nat) (s s' : Fs) : Prop where
  freed : Freed N s s'
  tree : Tree P N X s'
  releases : releases s'.trace = l.reverse ++ releases s.trace
  synced : s.heap = [] → Synced N s → Synced N s'

theorem GaveList.nil (h : Tree P N X s) : GaveList P N X [] s s :=
  ⟨(Steady.refl N s).freed, h, rfl, fun _ => id⟩

/-- One sector first, then the others. -/
theorem GaveList.cons {s1 : Fs} {l : List Nat} (hg : Gave P N Y s k s1) (h : GaveList P N X l s1 s') :
    GaveList P N X (k :: l) s s' where
  freed := ((freed_released N s k).trans hg.steady.freed).trans h.freed
  tree := h.tree
  releases := by rw [h.releases, hg.releases, List.reverse_cons, List.append_assoc, List.singleton_append]
  synced := fun hh _ => h.synced (((freed_released N s k).trans hg.steady.freed).heap hh) (hg.synced hh)

theorem freeMapRelease_file (h : Tree P N (k :: X) s) (hm : MapFile N s n) :
    Meets (Spoiled P) (freeMapRelease bitmapWrite k 1) s (fun _ => Gave P N X s k) (fun _ _ => False) := by
  obtain ⟨f, hf, -⟩ := hm.file
  refine Ends.mono (freeMapRelease_meets h (.inr ⟨n, hm⟩)) (fun _ _ => id) ?_
  rintro e s' (hbad | ⟨hnone, -⟩)
  · exact .inl hbad
  · rw [hf] at hnone
    cases hnone

theorem releaseIndirectBlocks_meets (dd : Bytes) : ∀ (left j : Nat) {s : Fs},
    Tree P N ((List.range' j left).map (pointer dd) ++ X) s → MapFile N s n →
    Meets (Spoiled P) (releaseIndirectBlocks bitmapWrite dd left j) s
      (fun _ => GaveList P N X ((List.range' j left).map (pointer dd)) s) (fun _ _ => False) := by
  intro left
  induction left with
  | zero => exact fun j s h _ => meets_pure _ (.nil h)
  | succ left ih =>
    intro j s h hm
    rw [List.range'_succ, List.map_cons] at h ⊢
    unfold releaseIndirectBlocks
    refine Meets.bind (spoiled_sticky P) (freeMapRelease_file h hm) fun _ s1 hg => ?_
    have hfreed := (freed_released N s _).trans hg.steady.freed
    exact (ih (j + 1) hg.tree (hfreed.mapFile hm)).imp fun _ s2 => .cons hg

/-- The loop over the data sectors reads indirect blocks as they were at the start. -/
theorem releaseSectors_meets {s0 : Fs} (ha : Aside P N i d X s0) : ∀ (left j : Nat) {s : Fs} {last : Option Nat}
    {buffer : Bytes}, j + left = sectorCnt (InodeDisk.size d) → Steady N s0 s →
    Tree P N ((List.range' j left).map (dataSector s0.device d) ++ Y) s → MapFile N s n →
    (∀ l, last = some l → buffer = s0.device (indirectSector s0.device d l)) →
    Meets (Spoiled P)
      (releaseSectors bitmapWrite (s0.device (InodeDisk.doubleIndirectBlock d)) left j last buffer) s
      (fun _ s' => GaveList P N Y ((List.range' j left).map (dataSector s0.device d)) s s' ∧ Steady N s0 s')
      (fun _ _ => False) := by
  intro left
  induction left with
  | zero => exact fun j s last buffer _ hst h _ _ => meets_pure _ ⟨.nil h, hst⟩
  | succ left ih =>
    intro j s last buffer hj hst h hm hbuf
    rw [List.range'_succ, List.map_cons] at h ⊢
    unfold releaseSectors
    have hk := ha.kept hst h.intact
    have hjlt : j < sectorCnt (InodeDisk.size d) := by omega
    have hload : Ends (loadIndirect (s0.device (InodeDisk.doubleIndirectBlock d)) last
        (j / pointerBlockPointersCount) buffer) s
        (fun b s' => b = s0.device (indirectSector s0.device d (j / pointerBlockPointersCount)) ∧ s = s')
        (fun _ _ => False) := by
      unfold loadIndirect
      split
      · exact ⟨hbuf _ ‹_›, rfl⟩
      · have hmem : indirectSector s0.device d (j / pointerBlockPointersCount) ∈ indirectSectors s0.device d :=
          indirectSector_mem (div_lt_indirectCnt hjlt)
        have hlt : indirectSector s0.device d (j / pointerBlockPointersCount) < s.deviceSize := by
          rw [hst.calm.deviceSize]
          exact ha.tree.taken_lt (List.mem_append_left X
            (mem_sectorsOf.mpr (.inl (mem_metaSectors.mpr (.inr (.inr hmem))))))
        exact (ends_blockRead hlt).mpr ⟨hk.indirect _ hmem, rfl⟩
    refine Meets.bind (spoiled_sticky P) hload.meets ?_
    rintro b s1 ⟨rfl, rfl⟩
    refine Meets.bind (spoiled_sticky P) (freeMapRelease_file h hm) fun _ s1 hg => ?_
    have hrole : lastRole s.trace (dataSector s0.device d j) = none := by
      rw [hst.calm.role]
      exact ha.data _ (dataSector_mem hjlt)
    have hst1 : Steady N s s1 := (steady_released hrole).trans hg.steady
    refine (ih (j + 1) (by omega) (hst.trans hst1) hg.tree (hst1.mapFile hm) (by rintro l ⟨⟩; rfl)).imp ?_
    rintro - s2 ⟨hl, hst2⟩
    exact ⟨.cons hg hl, hst2⟩

theorem map_range'_dataSector (dev : Nat → Bytes) (d : Bytes) :
    (List.range' 0 (sectorCnt (InodeDisk.size d))).map (dataSector dev d) = dataSectors dev d := by
  rw [dataSectors, List.range_eq_range']

theorem map_range'_indirectSector (dev : Nat → Bytes) (d : Bytes) :
    (List.range' 0 (indirectCnt (sectorCnt (InodeDisk.size d)))).map
      (pointer (dev (InodeDisk.doubleIndirectBlock d))) = indirectSectors dev d := by
  rw [indirectSectors, List.range_eq_range']
  rfl

/-- The order in which `inode_close` releases the sectors. -/
def releaseOrder (dev : Nat → Bytes) (i : Nat) (d : Bytes) : List Nat :=
  dataSectors dev d ++ (indirectSectors dev d ++ [InodeDisk.doubleIndirectBlock d, i])

theorem releaseOrder_perm (dev : Nat → Bytes) (i : Nat) (d : Bytes) :
    (releaseOrder dev i d).Perm (sectorsOf dev i d) := by
  unfold releaseOrder sectorsOf metaSectors
  grind

theorem GaveList.append {s1 : Fs} {l l' : List Nat} (h : GaveList P N Y l s s1) (h' : GaveList P N X l' s1 s') :
    GaveList P N X (l ++ l') s s' where
  freed := h.freed.trans h'.freed
  tree := h'.tree
  releases := by rw [h'.releases, h.releases, List.reverse_append, List.append_assoc]
  synced := fun hh hs => h'.synced (h.freed.heap hh) (h.synced hh hs)

theorem releaseBlocks_meets (ha : Aside P N i d X s) (hm : MapFile N s n) :
    Meets (Spoiled P) (releaseBlocks bitmapWrite i d (sectorCnt (InodeDisk.size d))
        (indirectCnt (sectorCnt (InodeDisk.size d)))) s
      (fun _ => GaveList P N X (releaseOrder s.device i d) s) (fun _ _ => False) := by
  have ht : Tree P N (dataSectors s.device d ++
      (indirectSectors s.device d ++ (InodeDisk.doubleIndirectBlock d :: i :: X))) s := by
    refine ha.tree.perm (((releaseOrder_perm s.device i d).symm.append_right X).trans ?_)
    simp [releaseOrder]
  have hdib : InodeDisk.doubleIndirectBlock d < s.deviceSize :=
    ha.tree.taken_lt (List.mem_append_left X (mem_sectorsOf.mpr (.inl (mem_metaSectors.mpr (.inr (.inl rfl))))))
  rw [← map_range'_dataSector] at ht
  unfold releaseBlocks Meets
  rw [ends_bind, ends_blockRead hdib]
  refine Meets.bind (spoiled_sticky P) (releaseSectors_meets ha _ 0 (Nat.zero_add _) (.refl N s) ht hm (by simp)) ?_
  rintro - s1 ⟨h1, -⟩
  have ht1 := h1.tree
  rw [← map_range'_indirectSector] at ht1
  refine Meets.bind (spoiled_sticky P) (releaseIndirectBlocks_meets _ _ 0 ht1 (h1.freed.mapFile hm)) fun _ s2 h2 => ?_
  have h12 := h1.append h2
  refine Meets.bind (spoiled_sticky P) (freeMapRelease_file h2.tree (h12.freed.mapFile hm)) fun _ s3 h3 => ?_
  have hf3 := h12.freed.trans ((freed_released N s2 _).trans h3.steady.freed)
  refine (freeMapRelease_file h3.tree (hf3.mapFile hm)).imp fun _ s4 h4 => ?_
  have := h12.append (.cons h3 (.cons h4 (.nil h4.tree)))
  rwa [map_range'_dataSector, map_range'_indirectSector, List.append_assoc] at this

theorem deallocate_meets (ha : Aside P N i d X s) (hm : MapFile N s n) :
    Meets (Spoiled P) (deallocate bitmapWrite i d) s
      (fun _ => GaveList P N X (releaseOrder s.device i d) s) (fun e _ => e = .closeBuffers ∧ s.heap ≠ []) := by
  have hlength : InodeDisk.length d = (InodeDisk.size d : Int) := by
    have := ha.length
    rw [InodeDisk.size]
    omega
  unfold deallocate Meets
  simp only [ends_bind]
  rw [hlength, bytesToSectors_cast, sectorsToIndirectBlocks_cast, Int.toNat_natCast, Int.toNat_natCast]
  refine ends_malloc fun b1 heap1 hheap1 => ends_malloc fun b2 heap2 hheap2 => ?_
  have hheap : s.heap = [] → (b1 && b2) = true ∧ heap2 = [] := fun hh => by
    grind
  refine ends_check_or (fun _ => ?_) fun hb => .inr ⟨rfl, fun hh => by simp [(hheap hh).1] at hb⟩
  have hst : Steady N s {s with heap := heap2} := .heap fun hh => (hheap hh).2
  have ha2 : Aside P N i d X {s with heap := heap2} := ha.steady hst (ha.tree.heap heap2)
  have hstart : GaveList P N (sectorsOf s.device i d ++ X) [] s {s with heap := heap2} :=
    ⟨hst.freed, ha2.tree, rfl, fun _ => id⟩
  exact Ends.mono (releaseBlocks_meets ha2 (hst.mapFile hm)) (fun _ s' => Or.imp_right hstart.append)
    fun _ _ => Or.imp_right False.elim

/-! ### `inode_close` -/

/-- The state with an inode taken off the list of open inodes. -/
def Fs.dropInode (s : Fs) (i : Nat) : Fs :=
  {s with openInodes := s.openInodes.filter fun n => n.sector != i}

theorem filter_onInode (l : List Inode) {f : Inode → Inode} (hf : ∀ n, (f n).sector = n.sector) (i : Nat) :
    (l.map fun n => if n.sector = i then f n else n).filter (fun n => n.sector != i) =
      l.filter fun n => n.sector != i := by
  induction l with
  | nil => rfl
  | cons m l ih =>
    grind

theorem onInode_onInode (s : Fs) (i : Nat) {f g : Inode → Inode} (hf : ∀ n, (f n).sector = n.sector) :
    (s.onInode i f).onInode i g = s.onInode i (g ∘ f) := by
  unfold Fs.onInode
  simp only [List.map_map]
  congr 1
  apply List.map_congr_left
  grind

theorem onInode_congr {f g : Inode → Inode} (hl : (s.openInodes.map Inode.sector).Nodup)
    (hn : findInode i s.openInodes = some n) (h : f n = g n) : s.onInode i f = s.onInode i g := by
  unfold Fs.onInode
  congr 1
  apply List.map_congr_left
  intro m hm
  by_cases hmi : m.sector = i
  · obtain rfl := eq_of_sector hl hm (hmi ▸ hn)
    simp [hmi, h]
  · simp [hmi]

theorem ends_inodeClose (bitmapWrite : FsM Bool) (hn : findInode i s.openInodes = some n) (hu : n.locked = false)
    (hl : (s.openInodes.map Inode.sector).Nodup) {Q : Unit → Fs → Prop} {E : Panic → Fs → Prop} :
    Ends (inodeClose bitmapWrite (some i)) s Q E ↔
      if n.openCnt = 1 then
        Ends (whenever n.removed (deallocate bitmapWrite i n.data)) (s.dropInode i) Q E
      else Q () (s.onInode i fun m => {m with openCnt := m.openCnt - 1}) := by
  have hn1 := findInode_onInode (f := fun m : Inode => {m with locked := true}) (fun _ => rfl) hn
  unfold inodeClose
  simp only [ends_bind]
  rw [ends_lockAcquire hn hu, ends_inodeAt hn1]
  split
  · have hdrop : ({(s.onInode i fun m => {m with locked := true}) with
        openInodes := (s.onInode i fun m => {m with locked := true}).openInodes.filter
          fun n => n.sector != i} : Fs) = s.dropInode i := by
      unfold Fs.onInode Fs.dropInode
      simp only
      rw [filter_onInode _ (f := fun m => {m with locked := true}) (fun _ => rfl)]
    rw [ends_bind, ends_modify, (findInode_some hn).2]
    exact hdrop ▸ Iff.rfl
  · have hn2 := findInode_onInode (f := fun m : Inode => {m with openCnt := m.openCnt - 1}) (fun _ => rfl) hn1
    rw [ends_bind, ends_modifyInode, ends_lockRelease hn2 rfl,
      onInode_onInode _ _ (f := fun m => {m with openCnt := m.openCnt - 1}) (fun _ => rfl),
      onInode_onInode _ _ (f := fun m => {m with locked := true}) (fun _ => rfl)]
    have : s.onInode i (fun m => {m with openCnt := m.openCnt - 1}) = s.onInode i
        (((fun m : Inode => {m with locked := false}) ∘ fun m => {m with openCnt := m.openCnt - 1}) ∘
          fun m => {m with locked := true}) := by
      apply onInode_congr hl hn
      simp [hu]
    rw [this]

end

end Pintos.Filesys
