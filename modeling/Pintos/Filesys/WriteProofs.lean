import Pintos.Filesys.GrowthProofs

/-! Writing to an inode.

`inode_write_at` first grows the inode to the end of the write, if it can, and then stores
the bytes. `Wrote` says what this does to the inode written, to the other inodes and to
the sectors, and `inodeWriteAt_meets` that it is all that happens. -/
namespace Pintos.Filesys
open Outcome WriteBack

/-- What a write of `w` bytes to the inode `i` leaves. The inode's block was `d` and is
`d'`, with the sectors `l` after its old data sectors. -/
structure Wrote (P : Prop) (N : Nat → Option Bytes) (i : Nat) (d d' : Bytes) (X l : List Nat) (s : Fs)
    (offset w : Nat) (buffer : Bytes) (s' : Fs) : Prop where
  tree : Tree P (Function.update N i (some d')) X s'
  isDir : InodeDisk.isDir d' = InodeDisk.isDir d
  double : InodeDisk.doubleIndirectBlock d' = InodeDisk.doubleIndirectBlock d
  indirect : ∃ m, indirectSectors s'.device d' = indirectSectors s.device d ++ m ∧
    ∀ k ∈ m, s.freeMap.test k = false
  data : dataSectors s'.device d' = dataSectors s.device d ++ l
  fresh : ∀ k ∈ l, s.freeMap.test k = false
  kept : ∀ j e, j ≠ i → N j = some e → Kept s s' e
  cells : ∀ k, ¬ MapData N s k → k ∉ sectorsOf s'.device i d' → (s.cell k).Drifts (s'.cell k)
  put : ∀ o b, o / blockSectorSize < sectorCnt (InodeDisk.size d') →
    (if offset ≤ o ∧ o < offset + w then b = buffer (o - offset)
      else (s.cell (dataSector s'.device d' (o / blockSectorSize))).Firm (o % blockSectorSize) b) →
    (s'.cell (dataSector s'.device d' (o / blockSectorSize))).Firm (o % blockSectorSize) b
  dirty : ∀ k, (s'.cell k).Dirty → (s.cell k).Dirty ∨ DataOf (Function.update N i (some d')) s' k
  coherent : ∀ k ∉ metaSectors s'.device i d', (s.cell k).Coherent → (s'.cell k).Coherent
  deviceSize : s'.deviceSize = s.deviceSize
  freeMapFile : s'.freeMapFile = s.freeMapFile
  heap : s.heap = [] → s'.heap = []
  synced : Ready s → Synced N s → Synced N s'

section
variable {P : Prop} {N : Nat → Option Bytes} {X l : List Nat} {s s' : Fs} {i j k : Nat} {d d' e : Bytes}
  {offset w : Nat} {buffer : Bytes}

theorem Wrote.refl (h : Tree P N X s) (hN : N i = some d) (offset : Nat) (buffer : Bytes) :
    Wrote P N i d d X [] s offset 0 buffer s where
  tree := by rwa [Function.update_eq_self_iff.mpr hN.symm]
  isDir := rfl
  double := rfl
  indirect := ⟨[], by simp⟩
  data := by simp
  fresh := by simp
  kept := fun _ e _ _ => .refl s e
  cells := fun _ _ _ => .refl _
  put := fun o b _ hb => by rwa [if_neg (by omega)] at hb
  dirty := fun _ => .inl
  coherent := fun _ _ => id
  deviceSize := rfl
  freeMapFile := rfl
  heap := id
  synced := fun _ => id

theorem Wrote.onInode (h : Wrote P N i d d' X l s offset w buffer s') (j : Nat) (f : Inode → Inode) :
    Wrote P N i d d' X l s offset w buffer (s'.onInode j f) :=
  {h with
    tree := h.tree.onInode j f
    kept := fun j e hj hN => ⟨(h.kept j e hj hN).double, (h.kept j e hj hN).indirect⟩}

/-- The free-map file is not the file written. -/
theorem mapData_update (hi : i ≠ freeMapSector) (v : Option Bytes) (k : Nat) :
    MapData (Function.update N i v) s k ↔ MapData N s k := by
  unfold MapData
  rw [Function.update_of_ne (Ne.symm hi)]

theorem synced_update (hi : i ≠ freeMapSector) (v : Option Bytes) :
    Synced (Function.update N i v) s ↔ Synced N s := by
  unfold Synced
  rw [Function.update_of_ne (Ne.symm hi)]

theorem MapFile.update {n : Inode} (h : MapFile N s n) (hi : i ≠ freeMapSector) (v : Option Bytes) :
    MapFile (Function.update N i v) s n :=
  ⟨h.file, h.isOpen, by rw [Function.update_of_ne (Ne.symm hi), h.node], h.unlocked, h.allowed, h.room, h.nodup⟩

theorem Writable.update (h : Writable N s) (hi : i ≠ freeMapSector) (v : Option Bytes) :
    Writable (Function.update N i v) s :=
  h.imp_right fun ⟨n, hm⟩ => ⟨n, hm.update hi v⟩

/-- Growth that came to nothing. -/
theorem Wrote.of_steady (h : Tree P N X s) (hN : N i = some d) (hi : i ≠ freeMapSector)
    (hst : Steady (Function.update N i none) s s') (ha : Aside P (Function.update N i none) i d X s')
    (hs : Ready s → Synced (Function.update N i none) s → Synced (Function.update N i none) s')
    (offset : Nat) (buffer : Bytes) : Wrote P N i d d X [] s offset 0 buffer s' := by
  have hk : Kept s s' d := (h.aside hN).kept hst ha.tree.intact
  have hrole := h.inode i d hN
  have hmap : ∀ k ∈ sectorsOf s.device i d, ¬ MapData N s k := by
    rintro k hk ⟨e, hE, hke⟩
    exact h.apart i d freeMapSector e hN hE hi hk (mem_sectorsOf.mpr (.inr hke))
  have hdev : s'.device i = d := by
    have := hst.calm.device ha.tree.intact i (fun hm => hmap i self_mem ((mapData_update hi none i).mp hm))
      (by simp [hrole.1])
    exact this.trans hrole.2
  have htree := ha.join ⟨(hst.calm.role i).trans hrole.1, hdev⟩
  rw [Function.update_idem] at htree
  refine ⟨htree, rfl, rfl, ⟨[], by simp [hk.indirectSectors]⟩, by simp [hk.dataSectors], by simp, fun j e hj hNj => ?_, fun k hk _ => ?_, fun o b ho hb => ?_,
    fun k hd => ?_, fun k _ => hst.calm.coherent, hst.calm.deviceSize, hst.calm.freeMapFile, hst.calm.heap,
    fun hr hsn => ?_⟩
  · exact hst.kept j e (update_none_eq_some.mpr ⟨hj, hNj⟩)
  · exact hst.calm.cells k fun hm => hk ((mapData_update hi none k).mp hm)
  · rw [if_neg (by omega)] at hb
    rw [hk.dataSector ho] at hb ⊢
    exact (hst.calm.cells _ fun hm => hmap _ (mem_sectorsOf.mpr (.inr (dataSector_mem ho)))
      ((mapData_update hi none _).mp hm)).firm hb
  · refine (hst.calm.dirty hd).imp_right fun hm => ?_
    obtain ⟨e, hE, hke⟩ := (mapData_update hi none k).mp hm
    refine ⟨freeMapSector, e, update_some_eq_some.mpr (.inr ⟨Ne.symm hi, hE⟩), ?_⟩
    rwa [(hst.kept freeMapSector e (update_none_eq_some.mpr ⟨Ne.symm hi, hE⟩)).dataSectors]
  · rw [synced_update hi] at hs
    exact (synced_update hi none).mp (hs hr hsn)

/-- Growth by new sectors. -/
theorem Wrote.of_joined (h : Tree P N X s) (hN : N i = some d) (hi : i ≠ freeMapSector) {m : List Nat} {s1 : Fs}
    (hst : Steady (Function.update N i none) s s1) (ha : Aside P (Function.update N i none) i d (m ++ l ++ X) s1)
    (hj : Joined P (Function.update N i none) i d d' X m l s1 s')
    (hdib : InodeDisk.doubleIndirectBlock d' = InodeDisk.doubleIndirectBlock d)
    (hdir : InodeDisk.isDir d' = InodeDisk.isDir d) (hfree : ∀ k ∈ m ++ l, s.freeMap.test k = false)
    (hs : Ready s → Synced (Function.update N i none) s → Synced (Function.update N i none) s')
    (offset : Nat) (buffer : Bytes) : Wrote P N i d d' X l s offset 0 buffer s' := by
  have hk : Kept s s1 d := (h.aside hN).kept hst ha.tree.intact
  have htree := hj.tree
  rw [Function.update_idem] at htree
  have hdata : dataSectors s'.device d' = dataSectors s.device d ++ l := by rw [hj.data, hk.dataSectors]
  have hself : Function.update N i (some d') i = some d' := by simp
  -- The data of the inode lies neither in the free-map file nor among the blocks written.
  have hout : ∀ k ∈ dataSectors s'.device d', ¬ MapData (Function.update N i none) s k ∧
      k ∉ metaSectors s'.device i d' := by
    intro k hkd
    refine ⟨fun hm => ?_, fun hkm => List.disjoint_of_nodup_append (htree.nodup i d' hself) hkm hkd⟩
    obtain ⟨e, hE, hke⟩ := (mapData_update hi none k).mp hm
    rw [hdata, List.mem_append] at hkd
    rcases hkd with hkd | hkl
    · exact h.apart i d freeMapSector e hN hE hi (mem_sectorsOf.mpr (.inr hkd)) (mem_sectorsOf.mpr (.inr hke))
    · have := (h.used k).mpr (.inl ⟨freeMapSector, e, hE, mem_sectorsOf.mpr (.inr hke)⟩)
      simp [hfree k (List.mem_append_right m hkl)] at this
  have hkept : ∀ j e, j ≠ i → N j = some e → Kept s s' e := by
    intro j e hj' hNj
    have hN0 := update_none_eq_some.mpr ⟨hj', hNj⟩
    have hnot : ∀ k ∈ metaSectors s1.device j e, k ∉ metaSectors s'.device i d' := fun k hk hk' =>
      ha.tree.spare k ⟨j, e, hN0, mem_sectorsOf.mpr (.inl hk)⟩ (hj.mem hdib hk')
    refine (hst.kept j e hN0).trans ⟨fun _ => hj.built.device _ (hnot _ (mem_metaSectors.mpr (.inr (.inl rfl)))),
      fun k hk => hj.built.device k (hnot k (mem_metaSectors.mpr (.inr (.inr hk))))⟩
  have hind : indirectSectors s'.device d' = indirectSectors s.device d ++ m := by
    rw [hj.indirect, hk.indirectSectors]
  refine ⟨htree, hdir, hdib, ⟨m, hind, fun k hk => hfree k (List.mem_append_left l hk)⟩, hdata, fun k hk => hfree k (List.mem_append_right m hk), hkept, fun k hk hks => ?_,
    fun o b ho hb => ?_, fun k hd => ?_, fun k hk hc => ?_, by rw [hj.built.deviceSize, hst.calm.deviceSize],
    by rw [hj.built.freeMapFile, hst.calm.freeMapFile], fun hh => by rw [hj.built.heap, hst.calm.heap hh],
    fun hr hsn => ?_⟩
  · rw [hj.built.cell fun hm => hks (mem_sectorsOf.mpr (.inl hm))]
    exact hst.calm.cells k fun hm => hk ((mapData_update hi none k).mp hm)
  · rw [if_neg (by omega)] at hb
    obtain ⟨hmap, hmeta⟩ := hout _ (dataSector_mem ho)
    rw [hj.built.cell hmeta]
    exact (hst.calm.cells _ hmap).firm hb
  · rw [hj.built.dirty] at hd
    refine (hst.calm.dirty hd).imp_right fun hm => ?_
    obtain ⟨e, hE, hke⟩ := (mapData_update hi none k).mp hm
    refine ⟨freeMapSector, e, update_some_eq_some.mpr (.inr ⟨Ne.symm hi, hE⟩), ?_⟩
    rwa [(hkept freeMapSector e (Ne.symm hi) hE).dataSectors]
  · rw [hj.built.cell hk]
    exact hst.calm.coherent hc
  · rw [synced_update hi] at hs
    exact (synced_update hi none).mp (hs hr hsn)

/-- Bytes stored after the growth. -/
theorem Wrote.store {s1 : Fs} {size : Nat} (h : Wrote P N i d d' X l s offset 0 buffer s1)
    (hi : i ≠ freeMapSector) (hr : Ready s → Roomy N s1) (hw : WroteTo P (Function.update N i (some d')) X s1 d' offset size w buffer s') :
    Wrote P N i d d' X l s offset w buffer s' := by
  have hself : Function.update N i (some d') i = some d' := by simp
  have hD : ∀ k, k ∈ dataSectors s1.device d' → DataOf (Function.update N i (some d')) s1 k := fun k hk =>
    ⟨i, d', hself, hk⟩
  have hk : ∀ j e, Function.update N i (some d') j = some e → Kept s1 s' e := fun j e hj =>
    h.tree.kept hw.calm hw.tree.intact hD hj
  have hki := hk i d' hself
  refine ⟨hw.tree, h.isDir, h.double, by rw [hki.indirectSectors]; exact h.indirect, by rw [hki.dataSectors, h.data], h.fresh, fun j e hj hN => ?_, fun k hm hks => ?_,
    fun o b ho hb => ?_, fun k hd => ?_, fun k hkm hc => ?_, hw.calm.deviceSize.trans h.deviceSize,
    hw.calm.freeMapFile.trans h.freeMapFile, fun hh => hw.calm.heap (h.heap hh), fun hrd hs => ?_⟩
  · exact (h.kept j e hj hN).trans (hk j e (update_some_eq_some.mpr (.inr ⟨hj, hN⟩)))
  · rw [hki.sectorsOf] at hks
    exact (h.cells k hm hks).trans (hw.calm.cells k fun hkd => hks (mem_sectorsOf.mpr (.inr hkd)))
  · rw [hki.dataSector ho] at hb ⊢
    refine hw.put o b ho ?_
    split
    · rwa [if_pos ‹_›] at hb
    · rw [if_neg ‹_›] at hb
      exact h.put o b ho (by rwa [if_neg (by omega)])
  · rw [dataOf_congr hk]
    rcases hw.calm.dirty hd with hd | hkd
    · exact h.dirty k hd
    · exact .inr (hD k hkd)
  · rw [hki.metaSectors] at hkm
    exact hw.calm.coherent (h.coherent k hkm hc)
  · have hmap : ∀ e, N freeMapSector = some e → Function.update N i (some d') freeMapSector = some e :=
      fun e hE => update_some_eq_some.mpr (.inr ⟨Ne.symm hi, hE⟩)
    refine (h.synced hrd hs).of_drifts (hr hrd) hw.freeMap (fun e hE => hk _ e (hmap e hE)) ?_
    rintro k ⟨e, hE, hke⟩
    refine hw.calm.cells k fun hkd => ?_
    exact h.tree.apart i d' freeMapSector e hself (hmap e hE) hi (mem_sectorsOf.mpr (.inr hkd))
      (mem_sectorsOf.mpr (.inr hke))

/-- What `inode_write_at` leaves. -/
structure WriteAt (P : Prop) (N : Nat → Option Bytes) (i : Nat) (n : Inode) (d' : Bytes) (X l : List Nat) (s : Fs)
    (size : Int) (offset w : Nat) (buffer : Bytes) (s' : Fs) : Prop
    extends Wrote P N i n.data d' X l s offset w buffer s' where
  opens : s'.openInodes = (s.onInode i fun m => {m with data := d'}).openInodes
  le : w ≤ size.toNat
  within : w ≠ 0 → offset + w ≤ InodeDisk.size d'
  grown : d' = n.data ∨ InodeDisk.size n.data < InodeDisk.size d' ∧ (InodeDisk.size d' : Int) = offset + size
  denied : n.denyWriteCnt ≠ 0 → w = 0 ∧ d' = n.data
  enough : s.heap = [] → n.denyWriteCnt = 0 →
    newSectors n.data (offset + size.toNat) + newIndirectBlocks n.data (offset + size.toNat) ≤ freeCnt s →
    w = size.toNat
  clamped : s.heap = [] → n.denyWriteCnt = 0 → 0 ≤ size → w = size.toNat ∨
    d' = n.data ∧ InodeDisk.size n.data ≤ offset + size.toNat ∧ w = InodeDisk.size n.data - offset

/-- The range of a write that the assertions of `extend_inode_disk_to_size` let through. -/
def InRange (size : Int) (offset : Nat) : Prop := 0 ≤ offset + size ∧ offset + size < maxFileSize

theorem offT_outside {x : Int} (hlo : -2 ^ 31 ≤ x) (hhi : x < 2 ^ 32) (h : ¬ (0 ≤ x ∧ x < maxFileSize))
    (hle : offT x ≤ maxFileSize) : ¬ (0 ≤ offT x ∧ offT x < maxFileSize) := by
  have hmax : (maxFileSize : Int) = 8388608 := rfl
  unfold offT at hle ⊢
  rw [Int.bmod_def] at hle ⊢
  split at hle <;> split <;> omega

/-- The clamp of `inode_write_at` does not bring a range in. -/
theorem clamp_outside {size : Int} {offset : Nat} (hlo : -2 ^ 31 ≤ size) (hhi : size < 2 ^ 31) (hoff : offset < 2 ^ 31)
    (h : ¬ InRange size offset) :
    ¬ (0 ≤ offT (offset + if offT (size + offset) > maxFileSize then (maxFileSize : Int) - offset else size) ∧
      offT (offset + if offT (size + offset) > maxFileSize then (maxFileSize : Int) - offset else size) <
        maxFileSize) := by
  have hmax : (maxFileSize : Int) = 8388608 := rfl
  split
  · rw [show (offset : Int) + (maxFileSize - offset) = maxFileSize by omega, offT_eq (by omega) (by omega)]
    omega
  · rename_i hle
    rw [Int.add_comm] at hle
    exact offT_outside (by omega) (by omega) h (Int.not_lt.mp hle)

theorem extend_outside (bitmapWrite : FsM Bool) {size : Int} (h : ¬ (0 ≤ size ∧ size < maxFileSize))
    {Q : Bool × Bytes → Fs → Prop} {E : Panic → Fs → Prop} (hE : E .fileSize s) :
    Ends (extendInodeDiskToSize bitmapWrite i d size) s Q E := by
  unfold extendInodeDiskToSize
  simp only [ends_bind]
  refine ends_check_or (fun hlt => ends_check_or (fun h0 => absurd ⟨?_, ?_⟩ h) fun _ => hE) fun _ => hE
  · simpa using h0
  · simpa using hlt

/-- The growth before the bytes are stored: the inode as it was, or grown. -/
theorem grow_meets (h : Tree P N X s) (hN : N i = some d) (hi : i ≠ freeMapSector) (hw : Writable N s)
    {t : Nat} (hfc : P → newSectors d t = 0 ∨ FreeClean s) (ht : t < maxFileSize) {z : Int} (hz : (t : Int) = z) (offset : Nat)
    (buffer : Bytes) :
    Meets (Spoiled P) (extendInodeDiskToSize bitmapWrite i d z) s
      (fun r s' => s'.openInodes = s.openInodes ∧ ∃ l, Wrote P N i d r.2 X l s offset 0 buffer s' ∧
        (r.1 = true → InodeDisk.size r.2 = max (InodeDisk.size d) t) ∧ (r.1 = false → r.2 = d ∧ InodeDisk.size d ≤ t) ∧
        (r.2 = d ∨ InodeDisk.size d < t) ∧
        (r.1 = false → s.heap = [] → freeCnt s < newSectors d t + newIndirectBlocks d t) ∧
        (r.1 = true → InodeDisk.size d ≤ t → newSectors d t + newIndirectBlocks d t ≤ freeCnt s))
      (NoMapFile s) := by
  have hlen := h.length i d hN
  have hsize : InodeDisk.length d = (InodeDisk.size d : Int) := by
    rw [InodeDisk.size]
    omega
  by_cases hle : InodeDisk.size d ≤ t
  · refine Ends.mono (extend_meets (h.aside hN) (hw.update hi none) hfc hle ht hz) ?_ fun _ _ => id
    rintro ⟨ok, d'⟩ s' (hbad | hg)
    · exact .inl hbad
    cases ok with
    | true =>
      obtain ⟨hd, m, l, s1, hm, hl, hfree, hst, ha, hj⟩ := hg.done rfl
      have hd : d' = InodeDisk.setLength d t := hd
      have hopen : s'.openInodes = s.openInodes := by rw [hj.built.openInodes, hst.calm.openInodes]
      refine .inr ⟨hopen, l, .of_joined h hN hi hst ha hj ?_ ?_ hfree hg.synced offset buffer, fun _ => ?_, (by simp),
        ?_, (by simp), fun _ _ => ?_⟩
      · rw [hd, InodeDisk.doubleIndirectBlock_setLength]
      · rw [hd, InodeDisk.isDir_setLength]
      · rw [hd, InodeDisk.size_setLength d (by omega) (by omega), Int.toNat_natCast, Nat.max_eq_right hle]
      · rcases Nat.lt_or_eq_of_le hle with hlt | heq
        · exact .inr hlt
        · left
          rw [hd, ← heq, ← hsize, InodeDisk.setLength_length hlen.1]
      · have hnodup : (m ++ l).Nodup :=
          ha.tree.taken.sublist ((List.sublist_append_left _ X).trans (List.sublist_append_right _ _))
        have hcnt := le_freeCnt hnodup fun k hk => ⟨hfree k hk, hst.calm.deviceSize ▸
          ha.tree.taken_lt (List.mem_append_right _ (List.mem_append_left X hk))⟩
        rw [List.length_append] at hcnt
        omega
    | false =>
      obtain ⟨rfl, hst, ha⟩ := hg.failed rfl
      exact .inr ⟨hst.calm.openInodes, [], .of_steady h hN hi hst ha hg.synced offset buffer, (by simp),
        fun _ => ⟨rfl, hle⟩, .inl rfl, hg.full, (by simp)⟩
  · unfold extendInodeDiskToSize Meets
    simp only [ends_bind]
    rw [ends_check (by simp only [decide_eq_true_eq]; omega), ends_check (by simp only [decide_eq_true_eq]; omega),
      if_pos (by omega)]
    refine .inr ⟨rfl, [], .refl h hN offset buffer, fun _ => ?_, (by simp), .inl rfl, (by simp), fun _ hle' => absurd hle' hle⟩
    grind

theorem inodeWriteAt_meets (h : Tree P N X s) {n : Inode} (hn : findInode i s.openInodes = some n)
    (hN : N i = some n.data) (hl : (s.openInodes.map Inode.sector).Nodup) (hi : i ≠ freeMapSector)
    (hw : Writable N s) {size : Int} {offset : Nat}
    (hfc : P → newSectors n.data (offset + size).toNat = 0 ∨ FreeClean s) (hlo : -2 ^ 31 ≤ size)
    (hhi : size < 2 ^ 31) (hoff : offset < 2 ^ 31) (buffer : Bytes) :
    Meets (Spoiled P) (inodeWriteAt i buffer size offset) s
      (fun w s' => ∃ d' l, WriteAt P N i n d' X l s size offset w buffer s')
      (fun e s' => e = .fileSize ∧ ¬ InRange size offset ∨ NoMapFile s e s') := by
  obtain ⟨hmem, hsec⟩ := findInode_some hn
  have hsame : (s.onInode i fun m => {m with data := n.data}) = s := by
    apply onInode_self
    intro m hm hmi
    obtain rfl := eq_of_sector hl hm (hmi ▸ hn)
    rfl
  unfold inodeWriteAt inodeWriteAtWith Meets
  simp only [ends_bind]
  rw [ends_inodeAt hn]
  by_cases hdeny : n.denyWriteCnt = 0
  · rw [if_neg (by simp [hdeny])]
    by_cases hz : size = 0
    · rw [if_pos hz]
      refine .inr ⟨n.data, [], .refl h hN offset buffer, by rw [hsame], by omega, by omega, .inl rfl,
        fun hd => absurd hdeny hd, fun _ _ _ => by omega, fun _ _ _ => by omega⟩
    · rw [if_neg hz, ends_bind]
      by_cases hrange : InRange size offset
      · obtain ⟨h0, hmax⟩ := hrange
        obtain ⟨hclamp, htarget⟩ := @write_range size offset (by omega) (by omega)
        rw [hclamp, htarget, hsec]
        clear hclamp htarget
        generalize hz' : (offset : Int) + size = z at h0 hmax hfc ⊢
        have hz2 : ((z.toNat : Nat) : Int) = z := Int.toNat_of_nonneg h0
        refine Ends.mono (grow_meets h hN hi hw hfc (by omega) hz2 offset buffer) ?_
          fun _ _ => Or.imp_right .inr
        rintro ⟨ok, d'⟩ s1 (hbad | ⟨hopen, l, hwr, hok, hfail, hdd, hfull, -⟩)
        · exact meets_of_bad (spoiled_sticky P) hbad
        simp only [ends_bind, ends_modifyInode]
        have hn2 := findInode_onInode (f := fun m : Inode => {m with data := d'}) (fun _ => rfl) (hopen ▸ hn)
        have hwr2 := hwr.onInode i fun m => {m with data := d'}
        have hopens : (s1.onInode i fun m => {m with data := d'}).openInodes =
            (s.onInode i fun m => {m with data := d'}).openInodes := by
          rw [Fs.onInode, hopen]
          rfl
        generalize (s1.onInode i fun m => {m with data := d'}) = s2 at hn2 hwr2 hopens ⊢
        have hroom : Ready s → Roomy N s2 := by
          intro hr
          obtain ⟨n0, hm⟩ := hw.resolve_left hr.2
          exact hm.roomy.of_bitCnt (by rw [hwr2.tree.bitCnt, hwr2.deviceSize, h.bitCnt])
        have hgrown : d' = n.data ∨ InodeDisk.size n.data < InodeDisk.size d' ∧
            (InodeDisk.size d' : Int) = offset + size := by
          cases ok with
          | true =>
            grind
          | false => exact .inl (hfail rfl).1
        have hstore : ∀ size' : Int, size'.toNat ≤ size.toNat →
            (size'.toNat = 0 ∨ offset + size'.toNat ≤ InodeDisk.size d') →
            (ok = true → size' = size) →
            (ok = false → d' = n.data ∧ InodeDisk.size n.data ≤ z.toNat ∧ size'.toNat = InodeDisk.size n.data - offset) →
            Meets (Spoiled P) (writeSectors i buffer size' offset) s2
              (fun w s' => ∃ d' l, WriteAt P N i n d' X l s size offset w buffer s')
              (fun e s' => e = .fileSize ∧ ¬ InRange size offset ∨ NoMapFile s e s') := by
          intro size' hle hr hyes hno
          refine Ends.mono (writeSectors_meets hwr2.tree hn2 (by simp) buffer hr) ?_ fun _ _ => Or.imp_right False.elim
          rintro w s' (hbad | hwt)
          · exact .inl hbad
          · refine .inr ⟨d', l, hwr2.store hi hroom hwt, hwt.calm.openInodes.trans hopens,
              Nat.le_trans hwt.le hle, fun hw0 => ?_, hgrown, fun hd => absurd hdeny hd, fun hh _ hcnt => ?_,
              fun hh _ hpos => ?_⟩
            · have := hwt.le
              omega
            · have hle' := hwt.le
              rcases Int.lt_or_le size 0 with hneg | hpos
              · omega
              · have htn : offset + size.toNat = z.toNat := by omega
                rw [htn] at hcnt
                cases ok with
                | true =>
                  rw [hwt.eq (hwr2.heap hh), hyes rfl]
                | false =>
                  have := hfull rfl hh
                  omega
            · have hall := hwt.eq (hwr2.heap hh)
              cases ok with
              | true => exact .inl (hall.trans (by rw [hyes rfl]))
              | false =>
                obtain ⟨hd, hle, hcut⟩ := hno rfl
                exact .inr ⟨hd, by omega, hall.trans hcut⟩
        cases ok with
        | true =>
          simp only [if_true]
          have hs : InodeDisk.size d' = max (InodeDisk.size n.data) z.toNat := hok rfl
          exact hstore size (Nat.le_refl _) (by omega) (fun _ => rfl) (by simp)
        | false =>
          obtain ⟨hd', hle⟩ := hfail rfl
          obtain rfl : d' = n.data := hd'
          have hlen := h.length i n.data hN
          have hsize : InodeDisk.length n.data = (InodeDisk.size n.data : Int) := by
            rw [InodeDisk.size]
            omega
          simp only [Bool.false_eq_true, if_false]
          split
          · exact hstore _ (by omega) (by omega) (by simp) fun _ => ⟨rfl, hle, by omega⟩
          · refine .inr ⟨n.data, l, hwr2, hopens, by omega, by omega, .inl rfl, fun hd => absurd hdeny hd,
              fun hh _ hcnt => ?_, fun _ _ _ => .inr ⟨rfl, by omega, by omega⟩⟩
            grind
      · rw [hsec]
        exact extend_outside _ (clamp_outside hlo hhi hoff hrange) (.inr (.inl ⟨rfl, hrange⟩))
  · rw [if_pos (by simpa using hdeny)]
    exact .inr ⟨n.data, [], .refl h hN offset buffer, by rw [hsame], by omega, by omega, .inl rfl,
      fun _ => ⟨rfl, rfl⟩, fun _ hd => absurd hd hdeny, fun _ hd => absurd hd hdeny⟩

/-- A length out of range: a panic, unless the call fails before it comes to that. -/
theorem inodeCreate_outside (h : Tree P N X s) (hw : Writable N s) {length : Int}
    (hr : ¬ (0 ≤ length ∧ length < maxFileSize)) (isDir : Bool) :
    Meets (Spoiled P) (inodeCreate bitmapWrite i length isDir) s
      (fun ok s' => ok = false ∧ Steady N s s' ∧ Tree P N X s')
      (fun e _ => e = .createLength ∨ e = .fileSize) := by
  unfold inodeCreate Meets
  simp only [ends_bind]
  refine ends_check_or (fun _ => ?_) fun _ => .inr (.inl rfl)
  refine ends_malloc fun b heap hheap => ?_
  have hst0 : Steady N s {s with heap := heap} := .heap fun hh => (hheap hh).2
  cases b with
  | false => exact .inr ⟨rfl, hst0, h.heap heap⟩
  | true =>
    simp only [Bool.not_true, Bool.false_eq_true, if_false]
    refine Meets.bind (spoiled_sticky P) (Ends.mono (freeMapAllocate_meets (h.heap heap) (hst0.writable hw))
      (fun _ _ => id) fun _ _ => Or.imp_right False.elim) fun r s1 ht => ?_
    cases r with
    | none => exact meets_pure _ ⟨rfl, hst0.trans ht.steady, ht.tree⟩
    | some block =>
      unfold Meets
      simp only [ends_bind]
      exact extend_outside _ hr (.inr (.inr rfl))

end

end Pintos.Filesys
