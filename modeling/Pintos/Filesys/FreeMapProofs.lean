import Pintos.Filesys.TransferProofs

/-! Taking sectors from the free map and giving them back.

Each change of the free map rewrites the free-map file, whose data sectors are the only
ones touched (`Steady`). `freeMapAllocate_meets` and `freeMapRelease_meets` move one
sector between the free map and the sectors on their way, and the allocation of several
sectors either gets them all or leaves the free map as it was. -/
namespace Pintos.Filesys
open Outcome WriteBack

/-! ### The list of open inodes -/

/-- The state with one open inode changed. -/
def Fs.onInode (s : Fs) (i : Nat) (f : Inode → Inode) : Fs :=
  {s with openInodes := s.openInodes.map fun n => if n.sector = i then f n else n}

section
variable {P : Prop} {N : Nat → Option Bytes} {X : List Nat} {s s' : Fs} {i k : Nat} {d : Bytes} {n : Inode}

theorem ends_modifyInode {f : Inode → Inode} {Q : Unit → Fs → Prop} {E : Panic → Fs → Prop} :
    Ends (modifyInode i f) s Q E ↔ Q () (s.onInode i f) := Iff.rfl

theorem findInode_map (l : List Inode) {f : Inode → Inode} (hf : ∀ n, (f n).sector = n.sector)
    (i j : Nat) : findInode j (l.map fun n => if n.sector = i then f n else n) =
      (findInode j l).map fun n => if n.sector = i then f n else n := by
  have hp : ((fun n : Inode => n.sector == j) ∘ fun n => if n.sector = i then f n else n) =
      fun n => n.sector == j := by
    grind
  rw [findInode, List.find?_map, hp]
  rfl

theorem findInode_onInode {f : Inode → Inode} (hf : ∀ n, (f n).sector = n.sector)
    (h : findInode i s.openInodes = some n) : findInode i (s.onInode i f).openInodes = some (f n) := by
  rw [Fs.onInode, findInode_map _ hf, h]
  simp [(findInode_some h).2]

theorem ends_lockAcquire (h : findInode i s.openInodes = some n) (hl : n.locked = false)
    {Q : Unit → Fs → Prop} {E : Panic → Fs → Prop} :
    Ends (lockAcquire i) s Q E ↔ Q () (s.onInode i fun n => {n with locked := true}) := by
  unfold lockAcquire
  simp only [ends_bind]
  rw [ends_inodeAt h, ends_check (by simp [hl]), ends_modifyInode]

theorem ends_lockRelease (h : findInode i s.openInodes = some n) (hl : n.locked = true)
    {Q : Unit → Fs → Prop} {E : Panic → Fs → Prop} :
    Ends (lockRelease i) s Q E ↔ Q () (s.onInode i fun n => {n with locked := false}) := by
  unfold lockRelease
  simp only [ends_bind]
  rw [ends_inodeAt h, ends_check hl, ends_modifyInode]

/-- The open inodes play no part in the invariant. -/
theorem Tree.openInodes (h : Tree P N X s) (l : List Inode) : Tree P N X {s with openInodes := l} :=
  {h with
    cache := cacheOk_of_cells h.cache rfl rfl rfl rfl
    pointers := fun i d hN => ⟨(h.pointers i d hN).double, (h.pointers i d hN).empty,
      (h.pointers i d hN).indirect⟩}

theorem Calm.openInodes_swap {D : Nat → Prop} {l l' : List Inode}
    (h : Calm D {s with openInodes := l} s') : Calm D {s with openInodes := l'} {s' with openInodes := l'} :=
  {h with openInodes := rfl}

/-! ### Within the length nothing is allocated -/

/-- An inode written again as it was. -/
theorem quiet_put_inode (hr : lastRole s.trace i = some (.inode, d)) (hd : s.device i = d) :
    Quiet s (s.put .inode i d) := by
  have hdev : (s.put .inode i d).device = s.device := by
    funext k
    simp only [Fs.put]
    grind
  have hcell : ∀ k, (s.put .inode i d).cell k = s.cell k := by
    intro k
    unfold Fs.cell
    rw [hdev]
    rfl
  refine ⟨⟨rfl, rfl, rfl, id, fun k _ => ?_, fun _ => False.elim, ⟨[.write .inode i d], rfl, ?_⟩,
    fun _ k _ _ => by rw [hdev]⟩, rfl, rfl⟩
  · rw [hcell]
    exact .refl _
  · intro e he
    simp only [List.mem_singleton] at he
    subst he
    exact hr

/-- A size within the length: at most the inode is written, as it was. -/
theorem extend_same {E : Panic → Fs → Prop} (bitmapWrite : FsM Bool) {size : Int} (h0 : 0 ≤ size)
    (hle : size ≤ InodeDisk.length d) (hmax : InodeDisk.length d < maxFileSize) (hi : i < s.deviceSize) :
    Ends (extendInodeDiskToSize bitmapWrite i d size) s
      (fun r s' => r = (true, d) ∧ (s' = s ∨ s' = s.put .inode i d)) E := by
  unfold extendInodeDiskToSize
  simp only [ends_bind]
  rw [ends_check (by simp only [decide_eq_true_eq]; omega), ends_check (by simpa using h0)]
  split
  · exact ⟨rfl, .inl rfl⟩
  · obtain rfl : size = InodeDisk.length d := by omega
    have hz : bytesToSectors (InodeDisk.length d) - bytesToSectors (InodeDisk.length d) = 0 := by omega
    have hz' : sectorsToIndirectBlocks (bytesToSectors (InodeDisk.length d)) -
        sectorsToIndirectBlocks (bytesToSectors (InodeDisk.length d)) = 0 := by omega
    simp only [ends_bind, hz, hz', if_true]
    rw [ends_check (by decide), ends_check (by decide), ends_pure, if_pos rfl, ends_bind,
      ends_blockWrite hi, InodeDisk.setLength_length h0]
    exact ⟨rfl, .inr rfl⟩

theorem extend_within {E : Panic → Fs → Prop} (bitmapWrite : FsM Bool) {size : Int} (h0 : 0 ≤ size)
    (hle : size ≤ InodeDisk.length d) (hmax : InodeDisk.length d < maxFileSize)
    (hr : lastRole s.trace i = some (.inode, d)) (hd : s.device i = d) (hi : i < s.deviceSize) :
    Ends (extendInodeDiskToSize bitmapWrite i d size) s
      (fun r s' => r = (true, d) ∧ Quiet s s' ∧ s'.cachedBlocks = s.cachedBlocks ∧
        s'.cacheSize = s.cacheSize ∧ s'.cachePointer = s.cachePointer) E := by
  refine (extend_same bitmapWrite h0 hle hmax hi).imp ?_
  intro r s' hs
  obtain ⟨hr', rfl | rfl⟩ := hs
  · exact ⟨hr', .refl _, rfl, rfl, rfl⟩
  · exact ⟨hr', quiet_put_inode hr hd, rfl, rfl, rfl⟩

/-! ### The free-map file -/

/-- The free-map file is open and takes the free map. -/
structure MapFile (N : Nat → Option Bytes) (s : Fs) (n : Inode) : Prop where
  file : ∃ f, s.freeMapFile = some f ∧ f.inode = freeMapSector
  isOpen : findInode freeMapSector s.openInodes = some n
  node : N freeMapSector = some n.data
  unlocked : n.locked = false
  allowed : n.denyWriteCnt = 0
  room : s.freeMap.fileSize ≤ InodeDisk.size n.data
  nodup : (s.openInodes.map Inode.sector).Nodup

/-- The sector holds data of the free-map file. -/
def MapData (N : Nat → Option Bytes) (s : Fs) (k : Nat) : Prop :=
  ∃ d, N freeMapSector = some d ∧ k ∈ dataSectors s.device d

theorem MapData.dataOf (h : MapData N s k) : DataOf N s k := by
  obtain ⟨d, hN, hk⟩ := h
  exact ⟨freeMapSector, d, hN, hk⟩

/-- The bytes of the free-map file are the free map. -/
def Synced (N : Nat → Option Bytes) (s : Fs) : Prop :=
  ∀ d, N freeMapSector = some d → ∀ o < s.freeMap.fileSize,
    (s.cell (dataSector s.device d (o / blockSectorSize))).Firm (o % blockSectorSize) (s.freeMap.image o)

/-- At most the free-map file has been written to. -/
structure Steady (N : Nat → Option Bytes) (s s' : Fs) : Prop where
  calm : Calm (MapData N s) s s'
  kept : ∀ i d, N i = some d → Kept s s' d
  bitCnt : s'.freeMap.bitCnt = s.freeMap.bitCnt

theorem Kept.refl (s : Fs) (d : Bytes) : Kept s s d := ⟨fun _ => rfl, fun _ _ => rfl⟩

theorem Kept.trans {s'' : Fs} (h : Kept s s' d) (h' : Kept s' s'' d) : Kept s s'' d where
  double := fun hp => (h'.double hp).trans (h.double hp)
  indirect := fun k hk => (h'.indirect k (h.indirectSectors ▸ hk)).trans (h.indirect k hk)

theorem Steady.refl (N : Nat → Option Bytes) (s : Fs) : Steady N s s :=
  ⟨.refl _ s, fun _ d _ => .refl s d, rfl⟩

theorem Steady.mapData (h : Steady N s s') (k : Nat) : MapData N s' k ↔ MapData N s k := by
  constructor <;> rintro ⟨d, hN, hk⟩
  · exact ⟨d, hN, (h.kept _ d hN).dataSectors ▸ hk⟩
  · exact ⟨d, hN, (h.kept _ d hN).dataSectors.symm ▸ hk⟩

theorem Steady.trans {s'' : Fs} (h : Steady N s s') (h' : Steady N s' s'') : Steady N s s'' where
  calm := h.calm.trans (h'.calm.mono fun k => (h.mapData k).mp)
  kept := fun i d hN => (h.kept i d hN).trans (h'.kept i d hN)
  bitCnt := h'.bitCnt.trans h.bitCnt

theorem Steady.mapFile (h : Steady N s s') (hm : MapFile N s n) : MapFile N s' n where
  file := h.calm.freeMapFile ▸ hm.file
  isOpen := h.calm.openInodes ▸ hm.isOpen
  node := hm.node
  unlocked := hm.unlocked
  allowed := hm.allowed
  room := by
    have := hm.room
    unfold Kernel.Bitmap.fileSize at this ⊢
    rwa [h.bitCnt]
  nodup := h.calm.openInodes ▸ hm.nodup

theorem Steady.heap {heap : List Bool} (h : s.heap = [] → heap = []) :
    Steady N s {s with heap := heap} :=
  ⟨(quiet_heap h).calm _, fun _ _ _ => ⟨fun _ => rfl, fun _ _ => rfl⟩, rfl⟩

/-- The free-map file is long enough for the free map. -/
def Roomy (N : Nat → Option Bytes) (s : Fs) : Prop :=
  ∀ d, N freeMapSector = some d → s.freeMap.fileSize ≤ InodeDisk.size d

theorem MapFile.roomy (h : MapFile N s n) : Roomy N s := by
  intro d hN
  obtain rfl : n.data = d := Option.some.inj (h.node.symm.trans hN)
  exact h.room

theorem Roomy.of_bitCnt (h : Roomy N s) (hb : s'.freeMap.bitCnt = s.freeMap.bitCnt) : Roomy N s' := by
  unfold Roomy Kernel.Bitmap.fileSize at h ⊢
  rwa [hb]

/-- The free-map file is still the free map if its sectors have only drifted. -/
theorem Synced.of_drifts (hs : Synced N s) (hr : Roomy N s) (hb : s'.freeMap = s.freeMap)
    (hk : ∀ d, N freeMapSector = some d → Kept s s' d)
    (hc : ∀ k, MapData N s k → (s.cell k).Drifts (s'.cell k)) : Synced N s' := by
  intro d hN o ho
  rw [hb] at ho ⊢
  have hj : o / blockSectorSize < sectorCnt (InodeDisk.size d) :=
    div_lt_sectorCnt (Nat.lt_of_lt_of_le ho (hr d hN))
  rw [(hk d hN).dataSector hj]
  exact (hc _ ⟨d, hN, dataSector_mem hj⟩).firm (hs d hN o ho)

/-! ### Writing the free map to its file -/

theorem Calm.onInode_left {D : Nat → Prop} {f : Inode → Inode} (h : Calm D (s.onInode i f) s')
    (l : List Inode) : Calm D {s with openInodes := l} {s' with openInodes := l} :=
  h.openInodes_swap

theorem onInode_self {f : Inode → Inode} (h : ∀ m ∈ s.openInodes, m.sector = i → f m = m) :
    s.onInode i f = s := by
  have : s.openInodes.map (fun n => if n.sector = i then f n else n) = s.openInodes := by
    conv_rhs => rw [← List.map_id s.openInodes]
    apply List.map_congr_left
    grind
  unfold Fs.onInode
  rw [this]

/-- Open inodes are told apart by their sectors. -/
theorem eq_of_sector {l : List Inode} (hl : (l.map Inode.sector).Nodup) {m : Inode} (hm : m ∈ l)
    (h : findInode m.sector l = some n) : m = n :=
  List.inj_on_of_nodup_map hl hm (findInode_some h).1 (findInode_some h).2.symm

/-- A write that stays within the length allocates nothing. -/
theorem writeWithin_meets (bitmapWrite : FsM Bool) (h : Tree P N X s)
    (hn : findInode i s.openInodes = some n) (hN : N i = some n.data) (hdeny : n.denyWriteCnt = 0)
    (hl : (s.openInodes.map Inode.sector).Nodup) (buffer : Bytes) {size offset : Nat}
    (hle : offset + size ≤ InodeDisk.size n.data) :
    Meets (Spoiled P) (inodeWriteAtWith bitmapWrite i buffer size offset) s
      (fun w s' => WroteTo P N X s n.data offset size w buffer s') (fun _ _ => False) := by
  obtain ⟨hlen0, hmax⟩ := h.length i n.data hN
  obtain ⟨hmem, hsec⟩ := findInode_some hn
  have hsize : InodeDisk.size n.data = (InodeDisk.length n.data).toNat := rfl
  have hi : i < s.deviceSize := h.owned_lt ⟨i, n.data, hN, self_mem⟩
  obtain ⟨hrole, hdev⟩ := h.inode i n.data hN
  unfold inodeWriteAtWith Meets
  simp only [ends_bind]
  rw [ends_inodeAt hn, if_neg (by simp [hdeny])]
  by_cases hz : (size : Int) = 0
  · rw [if_pos hz]
    refine .inr ⟨.refl _ s, rfl, rfl, h, by omega, fun _ => by omega, (Quiet.refl s).put _ _⟩
  obtain ⟨hrange, htarget⟩ := @write_range size offset (by omega) (by omega)
  rw [if_neg hz, hrange, htarget, hsec, ends_bind]
  clear hrange htarget
  generalize ht : (offset : Int) + size = target
  refine Ends.imp (extend_within bitmapWrite (by omega) (by omega) hmax hrole hdev hi) ?_
  rintro - b ⟨rfl, hq, hcb, hcs, hcp⟩
  simp only [ends_bind, ends_modifyInode, if_true]
  rcases h.quiet hq (cacheOk_of_cells h.cache hcb hcs hcp hq.deviceSize) with hbad | hb
  · exact meets_of_bad (spoiled_sticky P) hbad
  -- The inode's block in memory is what it was.
  have hsame : b.onInode i (fun m => {m with data := n.data}) = b := by
    apply onInode_self
    intro m hm hmi
    rw [hq.openInodes] at hm
    obtain rfl := eq_of_sector hl hm (hmi ▸ hn)
    rfl
  rw [hsame]
  have hk := h.kept_quiet hb hq hN
  have hnb : findInode i b.openInodes = some n := hq.openInodes ▸ hn
  apply Ends.imp (writeSectors_meets hb hnb hN buffer (.inr (by rw [Int.toNat_natCast]; exact hle)))
  rintro w s' (hbad | hw)
  · exact .inl hbad
  · have hcalm := hw.calm
    have hput := hw.put
    rw [Int.toNat_natCast] at hw
    refine .inr ⟨(hq.calm _).trans (hk.dataSectors ▸ hcalm), hw.freeMap.trans hq.freeMap,
      hw.releases.trans hq.releases, hw.tree, hw.le, fun hh => hw.eq (hq.heap hh), ?_⟩
    intro o v ho hv
    have := hput o v ho
    rw [hk.dataSector ho] at this
    apply this
    split
    · rwa [if_pos ‹_›] at hv
    · rw [if_neg ‹_›] at hv
      exact (hq.cells _ id).firm hv

theorem Tree.onInode (h : Tree P N X s) (i : Nat) (f : Inode → Inode) : Tree P N X (s.onInode i f) :=
  h.openInodes _

/-- What `bitmap_write` leaves. -/
structure MapWritten (P : Prop) (N : Nat → Option Bytes) (X : List Nat) (s : Fs) (r : Bool) (s' : Fs) :
    Prop where
  steady : Steady N s s'
  tree : Tree P N X s'
  freeMap : s'.freeMap = s.freeMap
  releases : releases s'.trace = releases s.trace
  synced : r = true → Synced N s'
  ok : s.heap = [] → r = true

theorem bitmapWrite_meets (h : Tree P N X s) (hm : MapFile N s n) :
    Meets (Spoiled P) bitmapWrite s (MapWritten P N X s) (fun _ _ => False) := by
  obtain ⟨f, hf, hfi⟩ := hm.file
  have hdata : ∀ k, MapData N s k ↔ k ∈ dataSectors s.device n.data := by
    intro k
    constructor
    · rintro ⟨d, hN, hk⟩
      obtain rfl : n.data = d := Option.some.inj (hm.node.symm.trans hN)
      exact hk
    · exact fun hk => ⟨n.data, hm.node, hk⟩
  unfold bitmapWrite bitmapWriteAt Meets
  simp only [ends_bind, ends_get, hf, hfi]
  rw [ends_lockAcquire hm.isOpen hm.unlocked]
  have hna := findInode_onInode (f := fun m : Inode => {m with locked := true}) (fun _ => rfl) hm.isOpen
  have hla : ((s.onInode freeMapSector fun m => {m with locked := true}).openInodes.map
      Inode.sector).Nodup := by
    have : (s.onInode freeMapSector fun m => {m with locked := true}).openInodes.map Inode.sector =
        s.openInodes.map Inode.sector := by
      simp only [Fs.onInode, List.map_map]
      apply List.map_congr_left
      grind
    rw [this]
    exact hm.nodup
  refine Ends.mono (writeWithin_meets _ (h.onInode _ _) hna hm.node hm.allowed hla s.freeMap.image
    (by simpa using hm.room)) ?_ fun _ _ => id
  · rintro w e (hbad | hw)
    · exact meets_of_bad (spoiled_sticky P) hbad
    have hne := hw.calm.openInodes ▸ hna
    rw [ends_lockRelease hne rfl, ends_pure]
    -- The lock is as it was before the call.
    have hback : e.onInode freeMapSector (fun m => {m with locked := false}) =
        {e with openInodes := s.openInodes} := by
      unfold Fs.onInode
      rw [hw.calm.openInodes]
      simp only [Fs.onInode, List.map_map]
      congr 1
      conv_rhs => rw [← List.map_id s.openInodes]
      apply List.map_congr_left
      intro m hmem
      simp only [Function.comp_apply, id]
      by_cases hms : m.sector = freeMapSector
      · obtain rfl := eq_of_sector hm.nodup hmem (hms ▸ hm.isOpen)
        rw [if_pos hms, if_pos hms, ← hm.unlocked]
      · rw [if_neg hms, if_neg hms]
    rw [hback]
    have hcalm : Calm (MapData N s) s {e with openInodes := s.openInodes} :=
      (hw.calm.onInode_left s.openInodes).mono fun k => (hdata k).mpr
    have hkept : ∀ i d, N i = some d → Kept s {e with openInodes := s.openInodes} d := fun i d hN =>
      h.kept hcalm hw.tree.intact (fun _ => MapData.dataOf) hN
    refine .inr ⟨⟨hcalm, hkept, congrArg Kernel.Bitmap.bitCnt hw.freeMap⟩, hw.tree.openInodes _, hw.freeMap,
      hw.releases, fun hr => ?_, fun hh => decide_eq_true (hw.eq hh)⟩
    intro d hN o ho
    obtain rfl : n.data = d := Option.some.inj (hm.node.symm.trans hN)
    have hwf : w = s.freeMap.fileSize := of_decide_eq_true hr
    have hlt : o < s.freeMap.fileSize := by
      have : e.freeMap = s.freeMap := hw.freeMap
      simpa [this] using ho
    have hroom := hm.room
    have hj : o / blockSectorSize < sectorCnt (InodeDisk.size n.data) := div_lt_sectorCnt (by omega)
    rw [(hkept _ _ hN).dataSector hj]
    apply hw.put o _ hj
    rw [if_pos ⟨Nat.zero_le o, by omega⟩]
    show e.freeMap.image o = _
    rw [hw.freeMap]
    rfl

/-! ### One sector -/

/-- The free map goes to its file, or there is no file yet. -/
def Writable (N : Nat → Option Bytes) (s : Fs) : Prop := s.freeMapFile = none ∨ ∃ n, MapFile N s n

/-- Where a release ends without a free-map file. -/
def NoMapFile (s : Fs) (e : Panic) (_ : Fs) : Prop := s.freeMapFile = none ∧ e = .badPointer

theorem Steady.writable (h : Steady N s s') (hw : Writable N s) : Writable N s' := by
  rcases hw with hw | ⟨n, hm⟩
  · exact .inl (h.calm.freeMapFile.trans hw)
  · exact .inr ⟨n, h.mapFile hm⟩

theorem Steady.noMapFile (h : Steady N s s') {e : Panic} {t : Fs} (he : NoMapFile s' e t) :
    NoMapFile s e t :=
  ⟨h.calm.freeMapFile.symm.trans he.1, he.2⟩

theorem steady_freeMap {b : Kernel.Bitmap} (hb : b.bitCnt = s.freeMap.bitCnt) :
    Steady N s {s with freeMap := b} :=
  ⟨⟨rfl, rfl, rfl, id, fun _ _ => .refl _, fun _ _ => id, ⟨[], rfl, by simp⟩, fun _ _ _ _ => rfl⟩,
    fun _ _ _ => ⟨fun _ => rfl, fun _ _ => rfl⟩, hb⟩

/-- A sector that does not serve may be given back without anyone noticing. -/
theorem steady_released (hk : lastRole s.trace k = none) : Steady N s (s.released k) := by
  refine ⟨⟨rfl, rfl, rfl, id, fun _ _ => .refl _, fun _ _ => id, ⟨[.release k], rfl, ?_⟩,
    fun _ _ _ _ => rfl⟩, fun _ _ _ => ⟨fun _ => rfl, fun _ _ => rfl⟩, Kernel.Bitmap.bitCnt_put _ _ _⟩
  intro e he
  simp only [List.mem_singleton] at he
  subst he
  exact hk

/-- Memory is there and the free-map file is open. -/
def Ready (s : Fs) : Prop := s.heap = [] ∧ s.freeMapFile ≠ none

theorem Steady.ready (h : Steady N s s') (hr : Ready s) : Ready s' :=
  ⟨h.calm.heap hr.1, h.calm.freeMapFile ▸ hr.2⟩

theorem bitmapWrite_noFile (h : s.freeMapFile = none) {Q : Bool → Fs → Prop} {E : Panic → Fs → Prop} :
    Ends bitmapWrite s Q E ↔ E .badPointer s := by
  unfold bitmapWrite bitmapWriteAt
  simp only [ends_bind, ends_get, h, ends_throw]

/-- What `free_map_allocate` of one sector leaves. -/
structure Took (P : Prop) (N : Nat → Option Bytes) (X : List Nat) (s : Fs) (r : Option Nat) (s' : Fs) :
    Prop where
  steady : Steady N s s'
  tree : Tree P N (r.toList ++ X) s'
  fresh : ∀ k ∈ r, s.freeMap.test k = false ∧ k < s.deviceSize
  full : s.heap = [] → r = none → ∀ k < s.deviceSize, s.freeMap.test k = true
  synced : Ready s → Synced N s → Synced N s'

theorem freeMapAllocate_meets (h : Tree P N X s) (hw : Writable N s) :
    Meets (Spoiled P) (freeMapAllocate bitmapWrite 1) s (Took P N X s) (fun _ _ => False) := by
  have hscan := s.freeMap.scanAndFlip_one
  unfold freeMapAllocate Meets
  simp only [ends_bind, ends_get]
  cases hs : s.freeMap.scanAndFlip 0 1 false with
  | none =>
    rw [hs] at hscan
    refine .inr ⟨.refl N s, h, (by simp), fun _ _ k hk => hscan k (by rw [h.bitCnt]; exact hk), fun _ => id⟩
  | some r =>
    obtain ⟨k, b⟩ := r
    rw [hs] at hscan
    obtain ⟨hlt, hfree, -, rfl⟩ := hscan
    rw [h.bitCnt] at hlt
    have ht := h.take hfree hlt
    have hst : Steady N s {s with freeMap := s.freeMap.put k true} := steady_freeMap (by simp)
    have hfresh : ∀ j ∈ some k, s.freeMap.test j = false ∧ j < s.deviceSize := by
      rintro j ⟨⟩
      exact ⟨hfree, hlt⟩
    simp only [ends_bind, ends_set]
    rcases hw with hw | ⟨n, hm⟩
    · rw [if_neg (by simp [hw])]
      exact .inr ⟨hst, ht, hfresh, (by simp), fun hr => absurd hw hr.2⟩
    obtain ⟨f, hf, -⟩ := hm.file
    rw [if_pos (by simp [hf])]
    refine Ends.mono (bitmapWrite_meets ht (hst.mapFile hm)) ?_ fun _ _ => id
    rintro w s2 (hbad | hm2)
    · exact meets_of_bad (spoiled_sticky P) hbad
    have hst2 := hst.trans hm2.steady
    cases w with
    | true => exact .inr ⟨hst2, hm2.tree, hfresh, (by simp), fun _ _ => hm2.synced rfl⟩
    | false =>
      have hrole : lastRole s2.trace k = none := by
        rw [hst2.calm.role]
        exact h.role_free hfree
      have hdrop := hm2.tree.drop hm2.tree.intact (fun _ _ => rfl) hrole
      have hst3 : Steady N s2 {s2 with freeMap := s2.freeMap.put k false} := steady_freeMap (by simp)
      exact .inr ⟨hst2.trans hst3, hdrop, (by simp), fun hh => absurd (hm2.ok hh) (by simp),
        fun hr => absurd (hm2.ok hr.1) (by simp)⟩

/-- What `free_map_release` of one sector leaves. -/
structure Gave (P : Prop) (N : Nat → Option Bytes) (X : List Nat) (s : Fs) (k : Nat) (s' : Fs) :
    Prop where
  steady : Steady N (s.released k) s'
  tree : Tree P N X s'
  releases : releases s'.trace = k :: releases s.trace
  synced : s.heap = [] → Synced N s'

theorem freeMapRelease_meets (h : Tree P N (k :: X) s) (hw : Writable N s) :
    Meets (Spoiled P) (freeMapRelease bitmapWrite k 1) s (fun _ => Gave P N X s k) (NoMapFile s) := by
  have hlt := h.taken_lt List.mem_cons_self
  have hused : s.freeMap.test k = true := (h.used k).mpr (.inr List.mem_cons_self)
  unfold freeMapRelease Meets
  simp only [ends_bind, ends_get]
  rw [ends_check (by simp only [Kernel.Bitmap.inRange, h.bitCnt, decide_eq_true_eq]; omega),
    ends_check (by rw [Kernel.Bitmap.all_one, hused])]
  simp only [ends_set, ends_record]
  change Ends bitmapWrite (s.released k) _ _
  rcases hw with hw | ⟨n, hm⟩
  · rw [bitmapWrite_noFile (s := s.released k) hw]
    exact .inr ⟨hw, rfl⟩
  · have hm' : MapFile N (s.released k) n :=
      ⟨hm.file, hm.isOpen, hm.node, hm.unlocked, hm.allowed, by
        have := hm.room
        unfold Kernel.Bitmap.fileSize at this ⊢
        rwa [show (s.released k).freeMap.bitCnt = _ from Kernel.Bitmap.bitCnt_put _ _ _], hm.nodup⟩
    refine Ends.mono (bitmapWrite_meets h.give hm') ?_ fun _ _ => Or.imp_right False.elim
    rintro w s2 (hbad | hm2)
    · exact .inl hbad
    · exact .inr ⟨hm2.steady, hm2.tree, hm2.releases, fun hh => hm2.synced (hm2.ok hh)⟩

/-! ### Several sectors -/

theorem Steady.used (hst : Steady N s s') {Y : List Nat} (h' : Tree P N Y s') (j : Nat) :
    s'.freeMap.test j = true ↔ Owned N s j ∨ j ∈ Y := by
  rw [h'.used, owned_congr hst.kept]

/-- What is free after more has been taken was free before. -/
theorem Steady.free_of_free (hst : Steady N s s') {Y : List Nat} (h : Tree P N X s)
    (h' : Tree P N (Y ++ X) s') {j : Nat} (hj : s'.freeMap.test j = false) : s.freeMap.test j = false := by
  by_contra hne
  have : s'.freeMap.test j = true := by
    rw [hst.used h', List.mem_append]
    rcases (h.used j).mp (by simpa using hne) with hO | hX
    · exact .inl hO
    · exact .inr (.inr hX)
  simp [this] at hj

theorem FreeClean.steady (hc : FreeClean s) (hst : Steady N s s') {Y : List Nat} (h : Tree P N X s)
    (h' : Tree P N (Y ++ X) s') : FreeClean s' := by
  intro k hk hd
  have hfree := hst.free_of_free h h' hk
  rcases hst.calm.dirty hd with hd | hm
  · exact hc k hfree hd
  · have := (h.used k).mpr (.inl hm.dataOf.owned)
    simp [this] at hfree

/-- What giving several sectors back leaves. -/
structure GaveAll (P : Prop) (N : Nat → Option Bytes) (X : List Nat) (s s' : Fs) : Prop where
  steady : Steady N s s'
  tree : Tree P N X s'
  synced : Ready s → Synced N s → Synced N s'

theorem freeBlockSectorArray_meets (l : List Nat) : ∀ {s : Fs}, Tree P N (l ++ X) s → Writable N s →
    (∀ k ∈ l, lastRole s.trace k = none) →
    Meets (Spoiled P) (freeBlockSectorArray bitmapWrite l) s (fun _ => GaveAll P N X s) (NoMapFile s) := by
  induction l with
  | nil => exact fun {s} h _ _ => meets_pure _ ⟨.refl N s, h, fun _ => id⟩
  | cons k l ih =>
    intro s h hw hr
    unfold freeBlockSectorArray
    refine Meets.bind (spoiled_sticky P) (freeMapRelease_meets h hw) fun _ s1 hg => ?_
    have hst : Steady N s s1 := (steady_released (hr k List.mem_cons_self)).trans hg.steady
    refine Ends.mono (ih hg.tree (hst.writable hw) fun j hj => ?_) ?_ ?_
    · rw [hst.calm.role]
      exact hr j (List.mem_cons_of_mem k hj)
    · rintro - s2 (hbad | hg2)
      · exact .inl hbad
      · exact .inr ⟨hst.trans hg2.steady, hg2.tree,
          fun hrd _ => hg2.synced (hst.ready hrd) (hg.synced hrd.1)⟩
    · exact fun e s2 => Or.imp_right hst.noMapFile

/-- What taking sectors one by one leaves. -/
structure TookSome (P : Prop) (N : Nat → Option Bytes) (X : List Nat) (s : Fs) (cnt : Nat) (l : List Nat)
    (complete : Bool) (s' : Fs) : Prop where
  steady : Steady N s s'
  tree : Tree P N (l ++ X) s'
  fresh : ∀ k ∈ l, s.freeMap.test k = false ∧ k < s.deviceSize
  length_eq : complete = true → l.length = cnt
  full : s.heap = [] → complete = false →
    l.length < cnt ∧ ∀ k < s.deviceSize, s.freeMap.test k = false → k ∈ l
  synced : Ready s → Synced N s → Synced N s'

theorem allocateSectors_meets (cnt : Nat) : ∀ {s : Fs} {X : List Nat}, Tree P N X s → Writable N s →
    Meets (Spoiled P) (allocateSectors bitmapWrite cnt) s
      (fun r s' => TookSome P N X s cnt r.1 r.2 s') (fun _ _ => False) := by
  induction cnt with
  | zero =>
    exact fun {s X} h _ => meets_pure _ ⟨.refl N s, h, by simp, fun _ => rfl, fun _ => nofun, fun _ => id⟩
  | succ cnt ih =>
    intro s X h hw
    unfold allocateSectors
    refine Meets.bind (spoiled_sticky P) (freeMapAllocate_meets h hw) fun r s1 ht => ?_
    cases r with
    | none =>
      refine meets_pure _ ⟨ht.steady, ht.tree, by simp, nofun, fun hh _ => ⟨by simp, fun k hk hf => ?_⟩,
        ht.synced⟩
      have := ht.full hh rfl k hk
      simp [this] at hf
    | some k =>
      obtain ⟨hkfree, hklt⟩ := ht.fresh k rfl
      refine Meets.bind (spoiled_sticky P) (ih ht.tree (ht.steady.writable hw)) fun r s2 ht2 => ?_
      obtain ⟨l, complete⟩ := r
      refine meets_pure _ ⟨ht.steady.trans ht2.steady, ht2.tree.perm List.perm_middle, ?_, fun hc => ?_,
        fun hh hc => ?_, fun hr hs => ht2.synced (ht.steady.ready hr) (ht.synced hr hs)⟩
      · intro j hj
        rcases List.mem_cons.mp hj with rfl | hj
        · exact ⟨hkfree, hklt⟩
        · obtain ⟨hf, hlt⟩ := ht2.fresh j hj
          have htree : Tree P N ([k] ++ X) s1 := ht.tree
          exact ⟨ht.steady.free_of_free h htree hf, ht.steady.calm.deviceSize ▸ hlt⟩
      · rw [List.length_cons, ht2.length_eq hc]
      · obtain ⟨hlen, hall⟩ := ht2.full (ht.steady.calm.heap hh) hc
        refine ⟨Nat.succ_lt_succ hlen, fun j hj hf => ?_⟩
        by_cases hjk : j = k
        · exact hjk ▸ List.mem_cons_self
        · refine List.mem_cons_of_mem k (hall j (by rwa [ht.steady.calm.deviceSize]) ?_)
          by_contra hne
          rcases (ht.steady.used ht.tree j).mp (by simpa using hne) with hO | hX
          · have := (h.used j).mpr (.inl hO)
            simp [this] at hf
          · have : j ∈ X := by simpa [hjk] using hX
            have := (h.used j).mpr (.inr this)
            simp [this] at hf

/-- The number of free sectors. -/
def freeCnt (s : Fs) : Nat := (List.range s.deviceSize).countP fun k => !s.freeMap.test k

/-- What `allocate_k_sectors` leaves. -/
structure TookAll (P : Prop) (N : Nat → Option Bytes) (X : List Nat) (s : Fs) (cnt : Nat)
    (r : Option (List Nat)) (s' : Fs) : Prop where
  steady : Steady N s s'
  tree : Tree P N (r.getD [] ++ X) s'
  fresh : ∀ l ∈ r, l.length = cnt ∧ ∀ k ∈ l, s.freeMap.test k = false ∧ k < s.deviceSize
  full : s.heap = [] → r = none → freeCnt s < cnt
  synced : Ready s → Synced N s → Synced N s'

theorem freeCnt_le {l : List Nat} (h : ∀ k < s.deviceSize, s.freeMap.test k = false → k ∈ l) :
    freeCnt s ≤ l.length := by
  rw [freeCnt, List.countP_eq_length_filter]
  apply List.Subperm.length_le
  apply List.subperm_of_subset (List.nodup_range.filter _)
  intro k hk
  rw [List.mem_filter, List.mem_range] at hk
  exact h k hk.1 (by simpa using hk.2)

theorem le_freeCnt {l : List Nat} (hl : l.Nodup) (h : ∀ k ∈ l, s.freeMap.test k = false ∧ k < s.deviceSize) :
    l.length ≤ freeCnt s := by
  rw [freeCnt, List.countP_eq_length_filter]
  apply List.Subperm.length_le
  apply List.subperm_of_subset hl
  intro k hk
  rw [List.mem_filter, List.mem_range]
  exact ⟨(h k hk).2, by simp [(h k hk).1]⟩

theorem allocateKSectors_meets (h : Tree P N X s) (hw : Writable N s) (cnt : Nat) :
    Meets (Spoiled P) (allocateKSectors bitmapWrite cnt) s (TookAll P N X s cnt) (NoMapFile s) := by
  unfold allocateKSectors Meets
  rw [ends_bind]
  refine ends_malloc fun b heap hheap => ?_
  have hst0 : Steady N s {s with heap := heap} := .heap fun hh => (hheap hh).2
  cases b with
  | false =>
    exact .inr ⟨hst0, h.heap heap, nofun, fun hh => absurd (hheap hh).1 nofun,
      fun hr => absurd (hheap hr.1).1 nofun⟩
  | true =>
    simp only [Bool.not_true, Bool.false_eq_true, if_false]
    refine Meets.bind (spoiled_sticky P)
      (Ends.mono (allocateSectors_meets cnt (h.heap heap) (hst0.writable hw)) (fun _ _ => id)
        fun _ _ => Or.imp_right False.elim) fun r s1 ht => ?_
    obtain ⟨l, complete⟩ := r
    have hst : Steady N s s1 := hst0.trans ht.steady
    have hsync : Ready s → Synced N s → Synced N s1 := fun hr hs => ht.synced (hst0.ready hr) hs
    cases complete with
    | true =>
      refine meets_pure _ ⟨hst, ht.tree, ?_, nofun, hsync⟩
      rintro l' ⟨⟩
      exact ⟨ht.length_eq rfl, ht.fresh⟩
    | false =>
      refine Meets.bind (spoiled_sticky P) (Ends.mono (freeBlockSectorArray_meets l ht.tree
        (hst.writable hw) fun k hk => ?_) (fun _ _ => id) fun e s2 => Or.imp_right hst.noMapFile)
        fun _ s2 hg => ?_
      · rw [hst.calm.role]
        exact h.role_free (ht.fresh k hk).1
      · refine meets_pure _ ⟨hst.trans hg.steady, hg.tree, nofun, fun hh _ => ?_,
          fun hr hs => hg.synced (hst.ready hr) (hsync hr hs)⟩
        obtain ⟨hlen, hall⟩ := ht.full (hst0.calm.heap hh) rfl
        exact Nat.lt_of_le_of_lt (freeCnt_le hall) hlen

end

end Pintos.Filesys
