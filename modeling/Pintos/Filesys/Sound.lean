import Pintos.Filesys.CloseProofs

/-! The invariant between inode calls.

`Sound` adds to the tree of inodes that the open inodes hold the blocks of live ones and
that the free-map file is open. Every function of the inode layer keeps it. -/
namespace Pintos.Filesys
open Outcome WriteBack

structure Sound (P : Prop) (N : Nat → Option Bytes) (X : List Nat) (s : Fs) : Prop where
  tree : Tree P N X s
  nodup : (s.openInodes.map Inode.sector).Nodup
  node : ∀ n ∈ s.openInodes, N n.sector = some n.data
  map : ∃ n, MapFile N s n

section
variable {P : Prop} {N N' : Nat → Option Bytes} {X Y l : List Nat} {s s' : Fs} {i j k : Nat} {d : Bytes} {n : Inode}

theorem Sound.node_of_find (h : Sound P N X s) (hn : findInode i s.openInodes = some n) : N i = some n.data := by
  obtain ⟨hmem, rfl⟩ := findInode_some hn
  exact h.node n hmem

theorem Sound.writable (h : Sound P N X s) : Writable N s := .inr h.map

theorem Sound.freeMapFile (h : Sound P N X s) : s.freeMapFile ≠ none := by
  obtain ⟨n, hm⟩ := h.map
  obtain ⟨f, hf, -⟩ := hm.file
  simp [hf]

theorem MapFile.congr (h : MapFile N s n) (hf : s'.freeMapFile = s.freeMapFile)
    (ho : findInode freeMapSector s'.openInodes = findInode freeMapSector s.openInodes)
    (hN : N' freeMapSector = N freeMapSector) (hb : s'.freeMap.bitCnt = s.freeMap.bitCnt)
    (hl : (s'.openInodes.map Inode.sector).Nodup) : MapFile N' s' n where
  file := hf ▸ h.file
  isOpen := ho.trans h.isOpen
  node := hN.trans h.node
  unlocked := h.unlocked
  allowed := h.allowed
  room := by
    have := h.room
    unfold Kernel.Bitmap.fileSize at this ⊢
    rwa [hb]
  nodup := hl

theorem Sound.quiet (h : Sound P N X s) (hq : Quiet s s') (hc : CacheOk s') :
    Spoiled P s' ∨ Sound P N X s' := by
  refine (h.tree.quiet hq hc).imp_right fun ht => ⟨ht, hq.openInodes ▸ h.nodup, hq.openInodes ▸ h.node, ?_⟩
  obtain ⟨n, hm⟩ := h.map
  exact ⟨n, hm.congr hq.freeMapFile (by rw [hq.openInodes]) rfl (by rw [hq.freeMap]) (hq.openInodes ▸ h.nodup)⟩

theorem Sound.heap (h : Sound P N X s) (heap : List Bool) : Sound P N X {s with heap := heap} :=
  ⟨h.tree.heap heap, h.nodup, h.node, by
    obtain ⟨n, hm⟩ := h.map
    exact ⟨n, hm.congr rfl rfl rfl rfl h.nodup⟩⟩

theorem Sound.steady (h : Sound P N X s) (hst : Steady N s s') (ht : Tree P N Y s') : Sound P N Y s' := by
  refine ⟨ht, hst.calm.openInodes ▸ h.nodup, hst.calm.openInodes ▸ h.node, ?_⟩
  obtain ⟨n, hm⟩ := h.map
  exact ⟨n, hst.mapFile hm⟩

theorem Sound.freed (h : Sound P N X s) (hf : Freed N s s') (ht : Tree P N Y s') : Sound P N Y s' := by
  refine ⟨ht, hf.openInodes ▸ h.nodup, hf.openInodes ▸ h.node, ?_⟩
  obtain ⟨n, hm⟩ := h.map
  exact ⟨n, hf.mapFile hm⟩

/-! ### The list of open inodes -/

theorem map_sector_onInode {f : Inode → Inode} (hf : ∀ n, (f n).sector = n.sector) (s : Fs) (i : Nat) :
    (s.onInode i f).openInodes.map Inode.sector = s.openInodes.map Inode.sector := by
  simp only [Fs.onInode, List.map_map]
  apply List.map_congr_left
  grind

theorem findInode_onInode_ne {f : Inode → Inode} (hf : ∀ n, (f n).sector = n.sector) (hij : j ≠ i) :
    findInode j (s.onInode i f).openInodes = findInode j s.openInodes := by
  rw [Fs.onInode, findInode_map _ hf]
  cases hn : findInode j s.openInodes with
  | none => rfl
  | some n => simp [(findInode_some hn).2, hij]

/-- A change of an open inode other than the free map's, which keeps its block. -/
theorem Sound.onInode (h : Sound P N X s) {f : Inode → Inode} (hf : ∀ n, (f n).sector = n.sector)
    (hd : ∀ n, (f n).data = n.data) (hi : i ≠ freeMapSector) : Sound P N X (s.onInode i f) := by
  have hl : ((s.onInode i f).openInodes.map Inode.sector).Nodup := by
    rw [map_sector_onInode hf]
    exact h.nodup
  refine ⟨h.tree.onInode i f, hl, fun m hm => ?_, ?_⟩
  · obtain ⟨m', hm', rfl⟩ := List.mem_map.mp hm
    split
    · rw [hf, hd]
      exact h.node m' hm'
    · exact h.node m' hm'
  · obtain ⟨n, hm⟩ := h.map
    exact ⟨n, hm.congr rfl (findInode_onInode_ne hf (Ne.symm hi)) rfl rfl hl⟩

theorem findInode_cons_ne {l : List Inode} (h : n.sector ≠ i) : findInode i (n :: l) = findInode i l := by
  simp [findInode, h]

theorem findInode_none (h : findInode i s.openInodes = none) : ∀ m ∈ s.openInodes, m.sector ≠ i := by
  intro m hm hmi
  have := List.find?_eq_none.mp h m hm
  simp [hmi] at this

/-- A live inode is opened. -/
theorem Sound.push (h : Sound P N X s) (hnone : findInode i s.openInodes = none) (hN : N i = some d)
    {m : Inode} (hm : m.sector = i) (hd : m.data = d) :
    Sound P N X {s with openInodes := m :: s.openInodes} := by
  subst hm hd
  have hl : ((m :: s.openInodes).map Inode.sector).Nodup := by
    rw [List.map_cons, List.nodup_cons]
    refine ⟨fun hmem => ?_, h.nodup⟩
    obtain ⟨m', hm', he⟩ := List.mem_map.mp hmem
    exact findInode_none hnone m' hm' he
  have hne : m.sector ≠ freeMapSector := by
    rintro he
    obtain ⟨n, hm⟩ := h.map
    rw [he, hm.isOpen] at hnone
    cases hnone
  refine ⟨h.tree.openInodes _, hl, fun m' hm' => ?_, ?_⟩
  · rcases List.mem_cons.mp hm' with rfl | hm'
    · exact hN
    · exact h.node m' hm'
  · obtain ⟨n, hm⟩ := h.map
    exact ⟨n, hm.congr rfl (findInode_cons_ne hne) rfl rfl hl⟩

theorem findInode_drop_ne (l : List Inode) (h : j ≠ i) :
    findInode j (l.filter fun n => n.sector != i) = findInode j l := by
  induction l with
  | nil => rfl
  | cons m l ih =>
    by_cases hm : m.sector = i
    · rw [List.filter_cons_of_neg (by simp [hm]), ih, findInode_cons_ne (by rw [hm]; exact Ne.symm h)]
    · rw [List.filter_cons_of_pos (by simp [hm])]
      by_cases hj : m.sector = j
      · simp [findInode, hj]
      · rw [findInode_cons_ne hj, findInode_cons_ne hj, ih]

theorem findInode_dropInode (s : Fs) (i : Nat) : findInode i (s.dropInode i).openInodes = none := by
  rw [findInode, List.find?_eq_none]
  intro m hm
  simpa using (List.mem_filter.mp hm).2

/-- An inode is taken off the list. -/
theorem Sound.drop (h : Sound P N X s) (hi : i ≠ freeMapSector) : Sound P N X (s.dropInode i) := by
  have hl : ((s.dropInode i).openInodes.map Inode.sector).Nodup :=
    h.nodup.sublist (List.filter_sublist.map _)
  refine ⟨h.tree.openInodes _, hl, fun m hm => h.node m (List.mem_filter.mp hm).1, ?_⟩
  obtain ⟨n, hm⟩ := h.map
  exact ⟨n, hm.congr rfl (findInode_drop_ne _ (Ne.symm hi)) rfl rfl hl⟩

/-! ### The calls -/

theorem Sound.wrote {size : Int} {offset w : Nat} {buffer : Bytes} {d' : Bytes} (h : Sound P N X s)
    (hi : i ≠ freeMapSector) (hw : WriteAt P N i n d' X l s size offset w buffer s') :
    Sound P (Function.update N i (some d')) X s' := by
  have hf : ∀ m : Inode, ({m with data := d'} : Inode).sector = m.sector := fun _ => rfl
  have hl : (s'.openInodes.map Inode.sector).Nodup := by
    rw [hw.opens, map_sector_onInode (f := fun m : Inode => {m with data := d'}) hf]
    exact h.nodup
  refine ⟨hw.tree, hl, fun m hm => ?_, ?_⟩
  · rw [hw.opens] at hm
    obtain ⟨m', hm', rfl⟩ := List.mem_map.mp hm
    by_cases hmi : m'.sector = i
    · simp [hmi]
    · rw [if_neg hmi, Function.update_of_ne hmi]
      exact h.node m' hm'
  · obtain ⟨n, hm⟩ := h.map
    refine ⟨n, hm.congr hw.freeMapFile ?_ (Function.update_of_ne (Ne.symm hi) _ _) ?_ hl⟩
    · rw [hw.opens]
      exact findInode_onInode_ne (f := fun m : Inode => {m with data := d'}) hf (Ne.symm hi)
    · rw [hw.tree.bitCnt, hw.deviceSize, h.tree.bitCnt]

theorem Tree.absent (h : Tree P N X s) (hi : i ∈ X) : N i = none := by
  by_contra hne
  obtain ⟨d, hd⟩ := Option.ne_none_iff_exists'.mp hne
  exact h.spare i ⟨i, d, hd, self_mem⟩ hi

theorem Sound.ne_of_taken (h : Sound P N X s) (hi : i ∈ X) : i ≠ freeMapSector := by
  rintro rfl
  obtain ⟨n, hm⟩ := h.map
  have := hm.node
  rw [h.tree.absent hi] at this
  cases this

theorem Sound.created {s1 : Fs} {M : Nat → Prop} (h : Sound P N Y s) (hi : i ∈ Y) (hst : Steady N s s1)
    (hb : Built M s1 s') (ht : Tree P (Function.update N i (some d)) X s') :
    Sound P (Function.update N i (some d)) X s' := by
  have ho : s'.openInodes = s.openInodes := hb.openInodes.trans hst.calm.openInodes
  refine ⟨ht, ho ▸ h.nodup, fun m hm => ?_, ?_⟩
  · have hN := h.node m (ho ▸ hm)
    have hne : m.sector ≠ i := by
      intro he
      rw [he, h.tree.absent hi] at hN
      cases hN
    rw [Function.update_of_ne hne]
    exact hN
  · obtain ⟨n, hm⟩ := h.map
    refine ⟨n, hm.congr (hb.freeMapFile.trans hst.calm.freeMapFile) (by rw [ho])
      (Function.update_of_ne (Ne.symm (h.ne_of_taken hi)) _ _) ?_ (ho ▸ h.nodup)⟩
    rw [hb.freeMap, hst.bitCnt]

/-- What is left after sectors of an inode that is not open have been given back. -/
theorem Sound.deallocated (h : Sound P N X s) (hnone : findInode i s.openInodes = none) (hi : i ≠ freeMapSector)
    (hf : Freed (Function.update N i none) s s') (ht : Tree P (Function.update N i none) Y s') :
    Sound P (Function.update N i none) Y s' := by
  refine ⟨ht, hf.openInodes ▸ h.nodup, fun m hm => ?_, ?_⟩
  · rw [hf.openInodes] at hm
    rw [Function.update_of_ne (findInode_none hnone m hm)]
    exact h.node m hm
  · obtain ⟨n, hm⟩ := h.map
    exact ⟨n, hf.mapFile (hm.update hi none)⟩

/-- What `inode_open` leaves: one more opener, or a new open inode, or no memory. -/
inductive Opened (i : Nat) (s : Fs) : Option Nat → Fs → Prop where
  | again {n : Inode} (h : findInode i s.openInodes = some n) :
    Opened i s (some i) (s.onInode i fun m => {m with openCnt := m.openCnt + 1})
  | new {heap : List Bool} (h : findInode i s.openInodes = none) (hh : s.heap = [] → heap = []) :
    Opened i s (some i) {s with heap := heap, openInodes := ⟨i, 1, false, 0, false, s.device i⟩ :: s.openInodes}
  | noMemory {heap : List Bool} (h : s.heap ≠ []) : Opened i s none {s with heap := heap}

theorem inodeOpen_ends (hlt : i < s.deviceSize) :
    Ends (inodeOpen i) s (Opened i s) (fun _ _ => False) := by
  unfold inodeOpen
  simp only [ends_bind, ends_get]
  cases hn : findInode i s.openInodes with
  | some n =>
    simp only [inodeReopen, ends_bind]
    rw [ends_inodeAt hn, ends_modifyInode]
    exact .again hn
  | none =>
    simp only [ends_bind]
    refine ends_malloc fun b heap hheap => ?_
    cases b with
    | false => exact .noMemory fun hh => absurd (hheap hh).1 (by simp)
    | true =>
      simp only [Bool.not_true, Bool.false_eq_true, if_false, ends_bind]
      rw [ends_blockRead (s := {s with heap := heap}) hlt, ends_modify]
      exact .new hn fun hh => (hheap hh).2

theorem Sound.opened {r : Option Nat} (h : Sound P N X s) (hN : N i = some d) (hi : i ≠ freeMapSector)
    (ho : Opened i s r s') : Sound P N X s' := by
  cases ho with
  | again hn => exact h.onInode (fun _ => rfl) (fun _ => rfl) hi
  | new hn hh =>
    rename_i heap
    exact (h.heap heap).push hn hN rfl (h.tree.inode i d hN).2
  | noMemory => exact h.heap _

end

end Pintos.Filesys
