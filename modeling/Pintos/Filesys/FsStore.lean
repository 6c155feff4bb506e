import Pintos.Filesys.Effects
import Pintos.Filesys.Store

/-! The inode layer is lawful.

`Refines` relates the file system to a store: the free map is the store's, a file's bytes
are what its sectors hold, in the cache or on the device, and the free-map file holds the
free map. As long as memory is there and no stale copies of free sectors are in the cache
(`Tidy`), every function of the inode layer does what the store says (`fsLayer_lawful`). -/
namespace Pintos.Filesys
open Outcome WriteBack

/-- Copies of free sectors are clean, and are copies. -/
def Tidy (s : Fs) : Prop := ∀ k, s.freeMap.test k = false → ¬ (s.cell k).Dirty ∧ (s.cell k).Coherent

theorem Tidy.freeClean {s : Fs} (h : Tidy s) : FreeClean s := fun k hk => (h k hk).1

/-- Free sectors read as zero. -/
def FreeBlank (s : Fs) : Prop :=
  ∀ k < s.deviceSize, s.freeMap.test k = false → ∀ o < blockSectorSize, (s.cell k).Firm o 0

/-- A byte of a file. -/
def fileByte (s : Fs) (d : Bytes) (o : Nat) : UInt8 :=
  (s.cell (dataSector s.device d (o / blockSectorSize))).current (o % blockSectorSize)

def contents (s : Fs) (d : Bytes) : List UInt8 := (List.range (InodeDisk.size d)).map (fileByte s d)

/-- Data can be read through the cache or past it. -/
def Readable (N : Nat → Option Bytes) (s : Fs) : Prop := ∀ k, DataOf N s k → (s.cell k).Coherent

def Inode.handle (n : Inode) : Handle := ⟨n.openCnt, n.removed, n.denyWriteCnt, n.locked⟩

/-- The store's file is the inode's. The bytes of the free-map file are left open. -/
structure FileRep (s : Fs) (i : Nat) (d : Bytes) (f : Obj) : Prop where
  isDir : f.isDir = InodeDisk.isDir d
  sectors : ∀ k, k ∈ f.sectors ↔ k ∈ sectorsOf s.device i d
  bytes : i ≠ freeMapSector → f.bytes = contents s d
  small : f.bytes.length < maxFileSize

/-- The file of an inode. -/
def objOf (s : Fs) (i : Nat) (d : Bytes) : Obj := ⟨InodeDisk.isDir d, contents s d, (sectorsOf s.device i d).toFinset⟩

/-- The file system as a store. -/
def storeOf (N : Nat → Option Bytes) (s : Fs) : Store where
  size := s.deviceSize
  used := s.freeMap.test
  files := fun i => (N i).map (objOf s i)
  handles := fun i => (findInode i s.openInodes).map Inode.handle

structure Refines (N : Nat → Option Bytes) (X : List Nat) (t : Bool) (s : Fs) (a : Store) : Prop where
  sound : Sound True N X s
  memory : s.heap = []
  synced : Synced N s
  exact : ∀ d, N freeMapSector = some d → InodeDisk.size d = s.freeMap.fileSize
  readable : Readable N s
  tidy : t = true → Tidy s
  counted : ∀ n ∈ s.openInodes, 0 < n.openCnt
  size : a.size = s.deviceSize
  used : ∀ k, a.used k = s.freeMap.test k
  absent : ∀ i, N i = none → a.files i = none
  files : ∀ i d, N i = some d → ∃ f, a.files i = some f ∧ FileRep s i d f
  handles : ∀ i, a.handles i = (findInode i s.openInodes).map Inode.handle

def FsRep (t : Bool) (s : Fs) (a : Store) : Prop := ∃ N X, Refines N X t s a

section
variable {N N' : Nat → Option Bytes} {X X' l : List Nat} {t t' : Bool} {s s' : Fs} {a a' : Store} {i j k : Nat}
  {d d' : Bytes} {f : Obj} {h : Handle} {n : Inode}

theorem not_spoiled (s : Fs) : ¬ Spoiled True s := fun hs => hs.1 trivial

theorem length_contents (s : Fs) (d : Bytes) : (contents s d).length = InodeDisk.size d := by
  simp [contents]

theorem getElem?_contents {o : Nat} (ho : o < InodeDisk.size d) : (contents s d)[o]? = some (fileByte s d o) := by
  simp [contents, ho]

theorem Readable.firm (hr : Readable N s) (hN : N j = some d) {o : Nat} (ho : o < InodeDisk.size d) :
    (s.cell (dataSector s.device d (o / blockSectorSize))).Firm (o % blockSectorSize) (fileByte s d o) :=
  (hr _ ⟨j, d, hN, dataSector_mem (div_lt_sectorCnt ho)⟩).firm _

/-- A file that the call has not touched. -/
theorem Effect.contents {W : Nat → Nat → Option UInt8} (he : Effect N N' W s s') (hr : Readable N s)
    (hN : N j = some d) (hN' : N' j = some d) (hj : j ≠ freeMapSector) (hk : Kept s s' d)
    (hW : ∀ o, W j o = none) : contents s' d = contents s d := by
  unfold Filesys.contents
  apply List.map_congr_left
  intro o ho
  have ho := List.mem_range.mp ho
  have hd : dataSector s'.device d (o / blockSectorSize) = dataSector s.device d (o / blockSectorSize) :=
    hk.dataSector (div_lt_sectorCnt ho)
  have hb := he.bytes j d hj hN' o (fileByte s d o) (div_lt_sectorCnt ho)
  rw [hW, hd] at hb
  unfold fileByte at hb ⊢
  rw [hd]
  exact (hb (hr.firm hN ho)).current

theorem FileRep.frame {W : Nat → Nat → Option UInt8} (hf : FileRep s j d f) (he : Effect N N' W s s')
    (hr : Readable N s) (hN : N j = some d) (hN' : N' j = some d) (hk : Kept s s' d)
    (hW : ∀ o, W j o = none) : FileRep s' j d f where
  isDir := hf.isDir
  sectors := fun k => by rw [hk.sectorsOf]; exact hf.sectors k
  bytes := fun hj => by rw [he.contents hr hN hN' hj hk hW]; exact hf.bytes hj
  small := hf.small

/-- What is data after the call can be read, if what it took can. -/
theorem Effect.readable {W : Nat → Nat → Option UInt8} {Y : List Nat} (he : Effect N N' W s s') (hr : Readable N s)
    (ht : Tree True N' Y s') (hmap : ∀ d, N' freeMapSector = some d → N freeMapSector = some d ∧ Kept s s' d)
    (hfree : ∀ k, DataOf N' s' k → s.freeMap.test k = false → (s.cell k).Coherent) : Readable N' s' := by
  rintro k hD
  refine he.coherent k (ht.not_meta_of_data hD) ?_
  obtain ⟨j, d', hN', hk⟩ := hD
  by_cases hj : j = freeMapSector
  · subst hj
    obtain ⟨hN, hkept⟩ := hmap d' hN'
    rw [hkept.dataSectors] at hk
    exact hr k ⟨_, d', hN, hk⟩
  · obtain ⟨u, hu, rfl⟩ := List.mem_map.mp hk
    rcases he.sectors j d' hj hN' u (List.mem_range.mp hu) with ⟨d, hN, hlt, heq⟩ | hf
    · rw [heq]
      exact hr _ ⟨j, d, hN, dataSector_mem hlt⟩
    · exact hfree _ ⟨j, d', hN', hk⟩ hf

theorem Tame.tidy {Y : List Nat} {W : Nat → Nat → Option UInt8} (htm : Tame N N' s s') (he : Effect N N' W s s')
    (ht : Tree True N' Y s') (h : Tidy s) : Tidy s' := by
  intro k hk
  have hnot : ¬ Owned N' s' k := fun hO => by
    rw [(ht.used k).mpr (.inl hO)] at hk
    cases hk
  have hfree : s.freeMap.test k = false := by
    by_contra hne
    rw [htm.used k (by simpa using hne)] at hk
    cases hk
  obtain ⟨hd, hc⟩ := h k hfree
  exact ⟨fun hd' => (htm.dirty k hd').elim hd fun hD => hnot hD.owned,
    he.coherent k (fun hm => hnot hm.owned) hc⟩

theorem refines_storeOf (hs : Sound True N X s) (hm : s.heap = []) (hsync : Synced N s)
    (hex : ∀ d, N freeMapSector = some d → InodeDisk.size d = s.freeMap.fileSize) (hr : Readable N s) (ht : Tidy s)
    (hc : ∀ n ∈ s.openInodes, 0 < n.openCnt) : Refines N X t s (storeOf N s) where
  sound := hs
  memory := hm
  synced := hsync
  exact := hex
  readable := hr
  tidy := fun _ => ht
  counted := hc
  size := rfl
  used := fun _ => rfl
  absent := fun i hN => by simp [storeOf, hN]
  files := fun i d hN => by
    refine ⟨objOf s i d, by simp [storeOf, hN], rfl, fun _ => List.mem_toFinset, fun _ => rfl, ?_⟩
    have := hs.tree.length i d hN
    rw [objOf, length_contents, InodeDisk.size]
    omega
  handles := fun _ => rfl

/-- The bytes of the file after a write. -/
theorem patched_contents {buffer : Bytes} {offset w : Nat} (h : Readable N s) (hN : N i = some d)
    (hw : Wrote True N i d d' X l s offset w buffer s') (hle : InodeDisk.size d ≤ InodeDisk.size d')
    (hin : w ≠ 0 → offset + w ≤ InodeDisk.size d') :
    Store.Patched (contents s d) (contents s' d') offset w buffer := by
  have hget : ∀ {o v}, o < InodeDisk.size d' → (s'.cell (dataSector s'.device d' (o / blockSectorSize))).Firm
      (o % blockSectorSize) v → (contents s' d')[o]? = some v := fun ho hf => by
    rw [getElem?_contents ho, fileByte, hf.current]
  refine ⟨by rwa [length_contents, length_contents], fun o ho ho' => ?_, fun o ho hout => ?_⟩
  · have hlt : o < InodeDisk.size d' := by have := hin (by omega); omega
    exact hget hlt (hw.put o _ (div_lt_sectorCnt hlt) (by rw [if_pos ⟨ho, ho'⟩]))
  · rw [length_contents] at ho
    have hlt : o < InodeDisk.size d' := by omega
    rw [getElem?_contents ho]
    refine hget hlt (hw.put o _ (div_lt_sectorCnt hlt) ?_)
    rw [if_neg hout, hw.dataSector (sectorCnt_mono hle) (div_lt_sectorCnt ho)]
    exact h.firm hN ho

namespace Refines

theorem file_iff (h : Refines N X t s a) (hf : a.files i = some f) : ∃ d, N i = some d ∧ FileRep s i d f := by
  cases hN : N i with
  | none =>
    rw [h.absent i hN] at hf
    cases hf
  | some d =>
    obtain ⟨g, hg, hrep⟩ := h.files i d hN
    grind

theorem find {g : Handle} (h : Refines N X t s a) (hh : a.handles i = some g) :
    ∃ n, findInode i s.openInodes = some n ∧ n.handle = g := by
  rw [h.handles] at hh
  exact Option.map_eq_some_iff.mp hh

theorem wf (h : Refines N X t s a) : a.WF where
  self := fun i f hf => by
    obtain ⟨d, -, hrep⟩ := h.file_iff hf
    exact (hrep.sectors i).mpr self_mem
  owned := fun i f k hf hk => by
    obtain ⟨d, hN, hrep⟩ := h.file_iff hf
    have hO : Owned N s k := ⟨i, d, hN, (hrep.sectors k).mp hk⟩
    rw [h.used, h.size]
    exact ⟨(h.sound.tree.used k).mpr (.inl hO), h.sound.tree.owned_lt hO⟩
  apart := fun i j f g k hf hg hk hk' => by
    obtain ⟨d, hN, hrep⟩ := h.file_iff hf
    obtain ⟨e, hN', hrep'⟩ := h.file_iff hg
    exact h.sound.tree.owner_unique hN hN' ((hrep.sectors k).mp hk) ((hrep'.sectors k).mp hk')
  handle := fun i g hh => by
    obtain ⟨n, hn, rfl⟩ := h.find hh
    obtain ⟨f, hf, -⟩ := h.files i n.data (h.sound.node_of_find hn)
    exact ⟨⟨f, hf⟩, h.counted n (findInode_some hn).1⟩
  small := fun i f hf => by
    obtain ⟨d, -, hrep⟩ := h.file_iff hf
    exact hrep.small
  map := by
    obtain ⟨n, hm⟩ := h.sound.map
    obtain ⟨f, hf, -⟩ := h.files _ _ hm.node
    exact ⟨f, hf⟩

/-- Only the heap and the open inodes have changed. -/
theorem opens (h : Refines N X t s a) {heap : List Bool} (hh : heap = []) {l : List Inode}
    (hs : Sound True N X {s with heap := heap, openInodes := l}) (hc : ∀ n ∈ l, 0 < n.openCnt)
    {H : Nat → Option Handle} (hH : ∀ i, H i = (findInode i l).map Inode.handle) :
    Refines N X t {s with heap := heap, openInodes := l} {a with handles := H} :=
  ⟨hs, hh, h.synced, h.exact, h.readable, h.tidy, hc, h.size, h.used, h.absent,
    fun i d hN => by
      obtain ⟨f, hf, hrep⟩ := h.files i d hN
      exact ⟨f, hf, hrep.isDir, hrep.sectors, hrep.bytes, hrep.small⟩, hH⟩

theorem heap (h : Refines N X t s a) {heap : List Bool} (hh : heap = []) : Refines N X t {s with heap := heap} a :=
  h.opens hh (h.sound.heap heap) h.counted h.handles

theorem onInode (h : Refines N X t s a) (hn : findInode i s.openInodes = some n) (hi : i ≠ freeMapSector)
    {f : Inode → Inode} (hf : ∀ n, (f n).sector = n.sector) (hd : ∀ n, (f n).data = n.data)
    (hc : 0 < (f n).openCnt) : Refines N X t (s.onInode i f) (a.setHandle i (some (f n).handle)) := by
  refine h.opens h.memory (h.sound.onInode hf hd hi) (fun m hm => ?_) fun j => ?_
  · obtain ⟨m', hm', rfl⟩ := List.mem_map.mp hm
    split
    · rename_i hmi
      obtain rfl := eq_of_sector h.sound.nodup hm' (hmi ▸ hn)
      exact hc
    · exact h.counted m' hm'
  · by_cases hj : j = i
    · subst hj
      have := findInode_onInode (f := f) hf hn
      rw [Fs.onInode] at this
      rw [Function.update_self, this]
      rfl
    · have := findInode_onInode_ne (s := s) (f := f) hf hj
      rw [Fs.onInode] at this
      rw [Function.update_of_ne hj, this, h.handles]

theorem drop (h : Refines N X t s a) (hi : i ≠ freeMapSector) :
    Refines N X t (s.dropInode i) (a.setHandle i none) := by
  refine h.opens h.memory (h.sound.drop hi) (fun m hm => h.counted m (List.mem_filter.mp hm).1)
    fun j => ?_
  by_cases hj : j = i
  · subst hj
    have hnone := findInode_dropInode s j
    rw [Fs.dropInode] at hnone
    rw [Function.update_self, hnone]
    rfl
  · rw [Function.update_of_ne hj, findInode_drop_ne _ hj, h.handles]

theorem opened {r : Option Nat} (h : Refines N X t s a) (hN : N i = some d) (hi : i ≠ freeMapSector)
    (ho : Opened i s r s') : r = some i ∧ Refines N X t s' (a.opened i) := by
  have hs := h.sound.opened hN hi ho
  cases ho with
  | again hn =>
    rename_i n
    have hh : a.handles i = some n.handle := by rw [h.handles, hn]; rfl
    refine ⟨rfl, ?_⟩
    unfold Store.opened
    rw [hh]
    exact h.onInode hn hi (f := fun m => {m with openCnt := m.openCnt + 1}) (fun _ => rfl) (fun _ => rfl)
      (Nat.succ_pos _)
  | new hn hh =>
    have hnone : a.handles i = none := by rw [h.handles, hn]; rfl
    refine ⟨rfl, ?_⟩
    unfold Store.opened
    rw [hnone]
    refine h.opens (hh h.memory) hs (fun m hm => ?_) fun j => ?_
    · rcases List.mem_cons.mp hm with rfl | hm
      · exact Nat.one_pos
      · exact h.counted m hm
    · by_cases hj : j = i
      · subst hj
        simp [findInode, Inode.handle]
      · rw [Function.update_of_ne hj, findInode_cons_ne (Ne.symm hj), h.handles]
  | noMemory hh => exact absurd h.memory hh

/-! ### Motions -/

theorem roomy (h : Refines N X t s a) : Roomy N s := by
  obtain ⟨n, hm⟩ := h.sound.map
  exact hm.roomy

theorem ready (h : Refines N X t s a) : Ready s := ⟨h.memory, h.sound.freeMapFile⟩

/-- The file system after a motion. What the store has to say of it is left to show. -/
theorem move {W : Nat → Nat → Option UInt8} (h : Refines N X t s a) (hs : Sound True N' X' s')
    (he : Effect N N' W s s') (hmem : s'.heap = []) (hsync : Synced N' s')
    (hmap : ∀ d, N' freeMapSector = some d → N freeMapSector = some d ∧ Kept s s' d)
    (hfree : ∀ k, DataOf N' s' k → s.freeMap.test k = false → (s.cell k).Coherent)
    (hdev : s'.deviceSize = s.deviceSize) (htidy : t' = true → Tidy s')
    (hcnt : ∀ n ∈ s'.openInodes, 0 < n.openCnt) (hsize : a'.size = a.size)
    (hused : ∀ k, a'.used k = s'.freeMap.test k) (habs : ∀ i, N' i = none → a'.files i = none)
    (hfiles : ∀ i d, N' i = some d → ∃ f, a'.files i = some f ∧ FileRep s' i d f)
    (hhand : ∀ i, a'.handles i = (findInode i s'.openInodes).map Inode.handle) : Refines N' X' t' s' a' :=
  ⟨hs, hmem, hsync, fun d hN' => by
      have := h.exact d (hmap d hN').1
      unfold Kernel.Bitmap.fileSize at this ⊢
      rw [hs.tree.bitCnt, hdev, ← h.sound.tree.bitCnt, this],
    he.readable h.readable hs.tree hmap hfree, htidy, hcnt, hsize.trans (h.size.trans hdev.symm), hused, habs, hfiles,
    hhand⟩

/-- What a quiet motion leaves is all the same to the store. -/
theorem quiet (h : Refines N X t s a) (hq : Quiet s s') (hc : CacheOk s') : Refines N X t s' a := by
  have hs := (h.sound.quiet hq hc).resolve_left (not_spoiled s')
  have he := hq.effect h.sound.tree hs.tree
  have hkept : ∀ i d, N i = some d → Kept s s' d := fun i d hN => h.sound.tree.kept_quiet hs.tree hq hN
  refine h.move hs he (hq.heap h.memory) ?_ (fun d hN => ⟨hN, hkept _ d hN⟩) ?_ hq.deviceSize
    (fun ht => (hq.tame h.sound.tree hs.tree).tidy he hs.tree (h.tidy ht)) (hq.openInodes ▸ h.counted) rfl
    (fun k => by rw [hq.freeMap, h.used]) h.absent ?_ (fun i => by rw [hq.openInodes, h.handles])
  · exact h.synced.of_drifts h.roomy hq.freeMap (fun d hN => hkept _ d hN) fun k _ => hq.cells k id
  · intro k hD hf
    have := (hs.tree.used k).mpr (.inl hD.owned)
    rw [hq.freeMap, hf] at this
    cases this
  · intro i d hN
    obtain ⟨f, hf, hrep⟩ := h.files i d hN
    exact ⟨f, hf, hrep.frame he h.readable hN hN (hkept i d hN) fun _ => rfl⟩

/-- The free map has changed, and maybe a file has gone. -/
theorem freed (h : Refines N X t s a) (hN' : ∀ j d, N' j = some d → N j = some d)
    (hmap : N' freeMapSector = N freeMapSector) (hf : Freed N' s s') (hs : Sound True N' X' s')
    (hsync : Synced N' s') (htidy : t' = true → Tidy s') (hsize : a'.size = a.size)
    (hused : ∀ k, a'.used k = s'.freeMap.test k)
    (hkeep : ∀ j d, N' j = some d → a'.files j = a.files j) (habs : ∀ j, N' j = none → a'.files j = none)
    (hhand : a'.handles = a.handles) : Refines N' X' t' s' a' := by
  have hmd : ∀ k, MapData N' s k ↔ MapData N s k := fun k => by
    unfold MapData
    rw [hmap]
  have he : Effect N N' noBytes s s' := effect_of_cells h.sound.tree (fun j d hj => ⟨hN' j d hj, hf.kept j d hj⟩)
    (fun k hk => hf.cells k (hk ∘ (hmd k).mp)) hf.coherent
  refine h.move hs he (hf.heap h.memory) hsync (fun d hd => ⟨hN' _ d hd, hf.kept _ d hd⟩) ?_ hf.deviceSize htidy
    (hf.openInodes ▸ h.counted) hsize hused habs ?_ (fun i => by rw [hhand, hf.openInodes, h.handles])
  · rintro k ⟨j, d, hj, hk⟩ hfree
    rw [(hf.kept j d hj).dataSectors] at hk
    have := (h.sound.tree.used k).mpr (.inl ⟨j, d, hN' j d hj, mem_sectorsOf.mpr (.inr hk)⟩)
    rw [hfree] at this
    cases this
  · intro j d hj
    obtain ⟨f, hfile, hrep⟩ := h.files j d (hN' j d hj)
    exact ⟨f, (hkeep j d hj).trans hfile, hrep.frame he h.readable (hN' j d hj) hj (hf.kept j d hj) fun _ => rfl⟩

/-- Sectors have been taken from the free map. -/
theorem steady {Y : List Nat} (h : Refines N X t s a) (hst : Steady N s s') (ht : Tree True N (Y ++ X) s')
    (hsync : Synced N s') : Refines N (Y ++ X) t s' {a with used := s'.freeMap.test} := by
  have he := hst.effect h.sound.tree
  refine h.move (h.sound.steady hst ht) he (hst.calm.heap h.memory) hsync (fun d hN => ⟨hN, hst.kept _ d hN⟩) ?_
    hst.calm.deviceSize (fun htd => (hst.tame h.sound.tree ht).tidy he ht (h.tidy htd))
    (hst.calm.openInodes ▸ h.counted) rfl (fun _ => rfl) h.absent ?_
    (fun i => by rw [hst.calm.openInodes]; exact h.handles i)
  · intro k hD hf
    rw [dataOf_congr hst.kept] at hD
    rw [(h.sound.tree.used k).mpr (.inl hD.owned)] at hf
    cases hf
  · intro i d hN
    obtain ⟨f, hf, hrep⟩ := h.files i d hN
    exact ⟨f, hf, hrep.frame he h.readable hN hN (hst.kept i d hN) fun _ => rfl⟩

theorem freeCnt_eq (h : Refines N X t s a) : a.freeCnt = freeCnt s := by
  unfold Store.freeCnt Filesys.freeCnt
  rw [h.size]
  simp only [h.used]

/-- No file owns the sector, and it is taken. -/
theorem spare (h : Refines N X t s a) (hu : a.used k = true) (hl : a.Loose k) : k ∈ X := by
  rw [h.used] at hu
  refine ((h.sound.tree.used k).mp hu).resolve_left ?_
  rintro ⟨i, d, hN, hk⟩
  obtain ⟨f, hf, hrep⟩ := h.files i d hN
  exact hl i f hf ((hrep.sectors k).mpr hk)

theorem grown_absent (h : Refines N X t s a) (hj : Function.update N i (some d') j = none) :
    (a.grown i f l).files j = none := by
  by_cases hji : j = i
  · subst hji
    simp at hj
  · rw [Function.update_of_ne hji] at hj
    simp only [Store.grown]
    rw [Function.update_of_ne hji]
    exact h.absent j hj

theorem grown_file {W : Nat → Nat → Option UInt8} (h : Refines N X t s a)
    (he : Effect N (Function.update N i (some d')) W s s') (hk : ∀ j e, j ≠ i → N j = some e → Kept s s' e)
    (hW : ∀ j ≠ i, ∀ o, W j o = none) (hsmall : InodeDisk.size d' < maxFileSize)
    (hE : Function.update N i (some d') j = some d) :
    ∃ g, (a.grown i (objOf s' i d') l).files j = some g ∧ FileRep s' j d g := by
  rcases update_some_eq_some.mp hE with ⟨rfl, rfl⟩ | ⟨hji, hNj⟩
  · refine ⟨_, Function.update_self .., rfl, fun _ => List.mem_toFinset, fun _ => rfl, ?_⟩
    rwa [objOf, length_contents]
  · obtain ⟨g, hg, hrepg⟩ := h.files j d hNj
    refine ⟨g, ?_, hrepg.frame he h.readable hNj hE (hk j d hji hNj) (hW j hji)⟩
    simp only [Store.grown]
    rw [Function.update_of_ne hji]
    exact hg

theorem perm (h : Refines N X t s a) (hp : X.Perm X') : Refines N X' t s a :=
  {h with sound := {h.sound with tree := h.sound.tree.perm hp}}

/-! ### Writing -/

section Write
variable {buffer : Bytes} {size offset w : Nat} {m : List Nat}

theorem sectors_iff (hd : InodeDisk.doubleIndirectBlock d' = InodeDisk.doubleIndirectBlock d)
    (hm : indirectSectors s'.device d' = indirectSectors s.device d ++ m)
    (hl : dataSectors s'.device d' = dataSectors s.device d ++ l) (k : Nat) :
    k ∈ sectorsOf s'.device i d' ↔ k ∈ sectorsOf s.device i d ∨ k ∈ m ++ l := by
  rw [mem_sectorsOf, mem_sectorsOf, mem_metaSectors, mem_metaSectors, hd, hm, hl, List.mem_append, List.mem_append,
    List.mem_append]
  tauto

/-- The sectors a write has taken. -/
theorem supply_of_sectors (h : Refines N X t s a) (ht : Tree True (Function.update N i (some d')) X s')
    (hdev : s'.deviceSize = s.deviceSize) (hm : indirectSectors s'.device d' = indirectSectors s.device d ++ m)
    (hl : dataSectors s'.device d' = dataSectors s.device d ++ l) (hfree : ∀ k ∈ m ++ l, s.freeMap.test k = false) :
    a.Supply (m ++ l) := by
  have hN : Function.update N i (some d') i = some d' := by simp
  have hnd := ht.nodup i d' hN
  rw [sectorsOf, metaSectors, hm, hl] at hnd
  constructor
  · refine (List.Sublist.nodup ?_ hnd)
    refine List.Sublist.append ?_ (List.sublist_append_right _ _)
    exact .cons _ (.cons _ (List.sublist_append_right _ _))
  · intro k hk
    rw [h.used, h.size]
    refine ⟨hfree k hk, hdev ▸ ht.owned_lt ⟨i, d', hN, ?_⟩⟩
    rw [mem_sectorsOf, mem_metaSectors, hm, hl]
    grind

theorem blocks_length (dev : Nat → Bytes) (d : Bytes) :
    (indirectSectors dev d).length + (dataSectors dev d).length = blockCnt (InodeDisk.size d) := by
  simp [indirectSectors, dataSectors, blockCnt, Nat.add_comm]

theorem newBlocks_le (d : Bytes) (n : Nat) :
    newSectors d n + newIndirectBlocks d n ≤ blockCnt n - blockCnt (InodeDisk.size d) := by
  unfold newSectors newIndirectBlocks blockCnt
  rcases Nat.le_total (InodeDisk.size d) n with hle | hle
  · have := sectorCnt_mono hle
    have := indirectCnt_mono (sectorCnt_mono hle)
    omega
  · have := sectorCnt_mono hle
    have := indirectCnt_mono (sectorCnt_mono hle)
    omega

theorem owned_wrote (hw : Wrote True N i d d' X l s offset w buffer s') (hN : N i = some d)
    (hm : indirectSectors s'.device d' = indirectSectors s.device d ++ m) (k : Nat) :
    Owned (Function.update N i (some d')) s' k ↔ Owned N s k ∨ k ∈ m ++ l := by
  constructor
  · rintro ⟨j, e, hE, hk⟩
    rcases update_some_eq_some.mp hE with ⟨rfl, rfl⟩ | ⟨hji, hNj⟩
    · exact ((sectors_iff hw.double hm hw.data k).mp hk).imp_left fun hk => ⟨j, d, hN, hk⟩
    · rw [(hw.kept j e hji hNj).sectorsOf] at hk
      exact .inl ⟨j, e, hNj, hk⟩
  · rintro (hO | hk)
    · exact hw.owned hN hO
    · exact ⟨i, d', by simp, (sectors_iff hw.double hm hw.data k).mpr (.inr hk)⟩

/-- A write, seen from the store. -/
theorem wrote (h : Refines N X t s a) (hroom : t = true ∨ newSectors n.data (offset + size) = 0) (hn : findInode i s.openInodes = some n) (hi : i ≠ freeMapSector)
    (hf : a.files i = some f) (hdeny : n.denyWriteCnt = 0)
    (hw : WriteAt True N i n d' X l s (size : Nat) offset w buffer s') :
    ∃ f' l', a.Written f f' l' buffer size offset w ∧
      Refines (Function.update N i (some d')) X t s' (a.grown i f' l') := by
  have hN := h.sound.node_of_find hn
  obtain ⟨d, hN', hrep⟩ := h.file_iff hf
  obtain rfl := Option.some.inj (hN.symm.trans hN')
  obtain ⟨m, hm, hmfree⟩ := hw.indirect
  have hfree : ∀ k ∈ m ++ l, s.freeMap.test k = false := fun k hk =>
    (List.mem_append.mp hk).elim (hmfree k) (hw.fresh k)
  have hlen : f.bytes.length = InodeDisk.size n.data := by rw [hrep.bytes hi, length_contents]
  have hle : InodeDisk.size n.data ≤ InodeDisk.size d' := by
    rcases hw.grown with he | ⟨hlt, -⟩
    · exact Nat.le_of_eq (by rw [he])
    · exact Nat.le_of_lt hlt
  have hsmall : InodeDisk.size d' < maxFileSize := by
    have := hw.tree.length i d' (by simp)
    unfold InodeDisk.size
    omega
  have he := hw.effect h.sound.tree hN
  -- a sector that was free and holds data now is a new one
  have hcoherent : ∀ k, DataOf (Function.update N i (some d')) s' k → s.freeMap.test k = false → (s.cell k).Coherent := by
    intro k hD hk
    rcases hroom with ht | h0
    · exact (h.tidy ht k hk).2
    · have hold : DataOf N s k := by
        obtain ⟨j, e, hE, hkd⟩ := hD
        rcases update_some_eq_some.mp hE with ⟨rfl, rfl⟩ | ⟨hji, hNj⟩
        · have hcnt : sectorCnt (InodeDisk.size d') ≤ sectorCnt (InodeDisk.size n.data) := by
            rcases hw.grown with heq | ⟨-, hz⟩
            · rw [heq]
            · have hz : InodeDisk.size d' = offset + size := by omega
              rw [hz]
              exact Nat.sub_eq_zero_iff_le.mp h0
          have hl := congrArg List.length hw.data
          simp only [dataSectors, List.length_map, List.length_range, List.length_append] at hl
          obtain rfl : l = [] := List.length_eq_zero_iff.mp (by omega)
          rw [hw.data, List.append_nil] at hkd
          exact ⟨_, _, hN, hkd⟩
        · rw [(hw.kept j e hji hNj).dataSectors] at hkd
          exact ⟨j, e, hNj, hkd⟩
      rw [(h.sound.tree.used k).mpr (.inl hold.owned)] at hk
      cases hk
  refine ⟨objOf s' i d', m ++ l, ?_, ?_⟩
  · have hcnt := blocks_length s'.device d'
    have hcnt' := blocks_length s.device n.data
    rw [hm, hw.data] at hcnt
    simp only [List.length_append] at hcnt
    refine ⟨h.supply_of_sectors hw.tree hw.deviceSize hm hw.data hfree, hw.isDir.trans hrep.isDir.symm, ?_,
      ?_, ?_, ?_, by simpa using hw.le, fun hen => ?_, ?_⟩
    · ext k
      rw [Finset.mem_union, hrep.sectors, List.mem_toFinset, objOf, List.mem_toFinset]
      exact sectors_iff hw.double hm hw.data k
    · rw [hrep.bytes hi]
      exact patched_contents h.readable hN hw.toWrote hle hw.within
    · simp only [objOf, length_contents, hlen]
      rcases hw.grown with heq | ⟨-, hz⟩
      · exact .inl (by rw [heq])
      · exact .inr (by omega)
    · simp only [objOf, length_contents, hlen, List.length_append]
      omega
    · have hnew := newBlocks_le n.data (offset + size)
      rw [hlen, h.freeCnt_eq] at hen
      simpa using hw.enough h.memory hdeny (by simp only [Int.toNat_natCast]; omega)
    · simp only [objOf, length_contents, hlen]
      rcases hw.clamped h.memory hdeny (Int.natCast_nonneg size) with hall | ⟨rfl, hle, hcut⟩
      · exact .inl hall
      · exact .inr ⟨rfl, by simpa using hle, hcut⟩
  · refine h.move (h.sound.wrote hi hw) he (hw.heap h.memory)
      ((synced_update hi _).mpr (hw.synced h.ready h.synced)) (fun e hE => ?_) hcoherent
      hw.deviceSize (fun ht => (hw.tame h.sound.tree hN hle).tidy he hw.tree (h.tidy ht)) ?_ rfl ?_ ?_ ?_ ?_
    · rw [Function.update_of_ne (Ne.symm hi)] at hE
      exact ⟨hE, hw.kept _ e (Ne.symm hi) hE⟩
    · rw [hw.opens]
      intro p hp
      obtain ⟨p', hp', rfl⟩ := List.mem_map.mp hp
      split <;> exact h.counted p' hp'
    · intro k
      rw [Bool.eq_iff_iff, hw.tree.used, owned_wrote hw.toWrote hN hm]
      simp only [Store.grown, Bool.or_eq_true, decide_eq_true_eq, h.used, h.sound.tree.used]
      tauto
    · exact fun j hj => h.grown_absent hj
    · exact fun j e hE => h.grown_file he (fun j e hji => hw.kept j e hji)
        (fun j hji o => if_neg fun hc => hji hc.1) hsmall hE
    · intro j
      have hmap := findInode_map s.openInodes (f := fun p : Inode => {p with data := d'}) (fun _ => rfl) i j
      rw [hw.opens, Fs.onInode, hmap]
      simp only [Store.grown, h.handles]
      cases findInode j s.openInodes with
      | none => rfl
      | some p =>
        simp only [Option.map_some]
        split <;> rfl

end Write

/-! ### Creating -/

/-- A new inode, seen from the store. -/
theorem created {len : Nat} {isDir : Bool} (h : Refines N (i :: X) true s a)
    (hc : Created True N i X s len isDir true s') :
    ∃ f l, (∃ N', Refines N' X true s' (a.grown i f l)) ∧ a.Supply l ∧ f.isDir = isDir ∧ f.bytes.length = len ∧
      f.sectors = insert i l.toFinset ∧ l.length = blockCnt len + 1 ∧ (FreeBlank s → ∀ c ∈ f.bytes, c = 0) := by
  obtain ⟨d, s1, hsize, hdir, hfresh, hst, hb, ht⟩ := hc.done rfl
  have hN : N i = none := h.sound.tree.absent List.mem_cons_self
  have hself : Function.update N i (some d) i = some d := by simp
  have hi0 := h.sound.ne_of_taken List.mem_cons_self
  have hnd := ht.nodup i d hself
  -- The sectors other than the inode's own.
  obtain ⟨l, hl⟩ : ∃ l, sectorsOf s'.device i d = i :: l := ⟨_, rfl⟩
  have hmem : ∀ k, k ∈ sectorsOf s'.device i d ↔ k = i ∨ k ∈ l := fun k => by rw [hl, List.mem_cons]
  rw [hl] at hnd
  obtain ⟨hil, hlnd⟩ := List.nodup_cons.mp hnd
  have hfree : ∀ k ∈ l, s.freeMap.test k = false := fun k hk =>
    (hfresh k ((hmem k).mpr (.inr hk))).resolve_left fun he => hil (he ▸ hk)
  have hout : ∀ k ∈ sectorsOf s'.device i d, ¬ Owned N s k := by
    intro k hk hO
    rcases (hmem k).mp hk with rfl | hk
    · exact h.sound.tree.spare k hO List.mem_cons_self
    · have := hfree k hk
      rw [(h.sound.tree.used k).mpr (.inl hO)] at this
      cases this
  have hdata : ∀ k ∈ dataSectors s'.device d, s.freeMap.test k = false := by
    intro k hk
    refine (hfresh k (mem_sectorsOf.mpr (.inr hk))).resolve_left ?_
    rintro rfl
    exact List.disjoint_of_nodup_append (ht.nodup k d hself) List.mem_cons_self hk
  have hdev : s'.deviceSize = s.deviceSize := hb.deviceSize.trans hst.calm.deviceSize
  have hopen : s'.openInodes = s.openInodes := hb.openInodes.trans hst.calm.openInodes
  have hkept : ∀ j e, j ≠ i → N j = some e → Kept s s' e := fun j e _ => created_kept hst hb hout
  have he := created_effect hst hb hout h.sound.tree hN ht hdata
  have htame := created_tame hst hb hout hN h.sound.tree (X := X)
    (fun k hk => by rw [List.mem_append, hmem]; exact (List.mem_cons.mp hk).imp_left .inl) ht
  have hsmall : InodeDisk.size d < maxFileSize := by
    have := ht.length i d hself
    unfold InodeDisk.size
    omega
  refine ⟨objOf s' i d, l, ⟨_, h.move (h.sound.created List.mem_cons_self hst hb ht) he
    (by rw [hb.heap]; exact hst.calm.heap h.memory) ((synced_update hi0 _).mpr (hc.synced h.ready h.synced))
    (fun e hE => ?_) (fun k _ hf => (h.tidy rfl k hf).2) hdev (fun _ => htame.tidy he ht (h.tidy rfl))
    (hopen ▸ h.counted) rfl (fun k => ?_) (fun j hj => h.grown_absent hj)
    (fun j e hE => h.grown_file he hkept (fun _ _ _ => rfl) hsmall hE)
    (fun j => by rw [hopen]; exact h.handles j)⟩, ⟨hlnd, fun k hk => ?_⟩, hdir, ?_, by rw [objOf, hl, List.toFinset_cons], ?_,
    fun hblank c hc => ?_⟩
  · rw [Function.update_of_ne (Ne.symm hi0)] at hE
    exact ⟨hE, hkept _ e (Ne.symm hi0) hE⟩
  · have hown : Owned (Function.update N i (some d)) s' k ↔ Owned N s k ∨ k ∈ sectorsOf s'.device i d := by
      have hnone : Function.update N i none = N := Function.update_eq_self_iff.mpr hN.symm
      rw [owned_update_none hself, Function.update_idem, hnone]
      exact or_congr (owned_congr (fun j e hNj => created_kept hst hb hout hNj) k) Iff.rfl
    rw [Bool.eq_iff_iff, ht.used, hown, hmem]
    simp only [Store.grown, Bool.or_eq_true, decide_eq_true_eq, h.used, h.sound.tree.used, List.mem_cons]
    tauto
  · rw [h.used, h.size, ← hdev]
    exact ⟨hfree k hk, ht.owned_lt ⟨i, d, hself, (hmem k).mpr (.inr hk)⟩⟩
  · rw [objOf, length_contents, hsize]
  · have hcnt := blocks_length s'.device d
    have hlen := congrArg List.length hl
    simp only [sectorsOf, metaSectors, List.cons_append, List.length_cons, List.length_append] at hlen
    rw [hsize] at hcnt
    omega
  · obtain ⟨o, ho, rfl⟩ := List.mem_map.mp hc
    have hlt := div_lt_sectorCnt (List.mem_range.mp ho)
    have hdev' := ht.owned_lt ⟨i, d, hself, mem_sectorsOf.mpr (.inr (dataSector_mem hlt))⟩
    exact (he.bytes i d hi0 hself o 0 hlt (hblank _ (hdev ▸ hdev') (hdata _ (dataSector_mem hlt)) _
      (Nat.mod_lt o (by decide)))).current

end Refines

end

end Pintos.Filesys
