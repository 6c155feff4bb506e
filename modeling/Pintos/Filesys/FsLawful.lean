import Pintos.Filesys.FsStore

/-! The inode layer is lawful: its functions do what the store says.

Memory does not run out here, and sectors are taken only while the cache holds no stale
copies of free ones. -/
namespace Pintos.Filesys
open Outcome WriteBack

/-- The sector serves as nothing yet, and has no dirty copy. -/
def FsFresh (s : Fs) (k : Nat) : Prop := lastRole s.trace k = none ∧ ¬ (s.cell k).Dirty

section
variable {N : Nat → Option Bytes} {X : List Nat} {t : Bool} {s s' : Fs} {a : Store} {i k : Nat} {d : Bytes}
  {f : Obj} {h : Handle} {n : Inode}

theorem FsRep.malloc (hr : FsRep t s a) :
    Ends malloc s (fun b s' => b = true ∧ FsRep t s' a) fun _ _ => False := by
  obtain ⟨N, X, hr⟩ := hr
  exact ends_malloc fun b heap hheap => ⟨(hheap hr.memory).1, N, X, hr.heap (hheap hr.memory).2⟩

theorem FsRep.inodeAt (hr : FsRep t s a) (hi : i ≠ freeMapSector) (hh : a.handles i = some h)
    (hf : a.files i = some f) :
    Ends (inodeAt i) s (fun n s' => FsRep t s' a ∧ n.sector = i ∧ n.openCnt = h.openCnt ∧
      InodeDisk.isDir n.data = f.isDir ∧ InodeDisk.length n.data = f.bytes.length) fun _ _ => False := by
  obtain ⟨N, X, hr⟩ := hr
  obtain ⟨n, hn, rfl⟩ := hr.find hh
  obtain ⟨d, hN, hrep⟩ := hr.file_iff hf
  obtain rfl := Option.some.inj ((hr.sound.node_of_find hn).symm.trans hN)
  rw [ends_inodeAt hn]
  refine ⟨⟨N, X, hr⟩, (findInode_some hn).2, rfl, hrep.isDir.symm, ?_⟩
  have := (hr.sound.tree.length i n.data hN).1
  rw [hrep.bytes hi, length_contents, InodeDisk.size]
  omega

/-- A change of one open inode that is no change of its block. -/
theorem FsRep.onInode (hr : FsRep t s a) (hi : i ≠ freeMapSector) (hn : findInode i s.openInodes = some n)
    {g : Inode → Inode} (hs : ∀ n, (g n).sector = n.sector) (hd : ∀ n, (g n).data = n.data) (hc : 0 < (g n).openCnt) :
    FsRep t (s.onInode i g) (a.setHandle i (some (g n).handle)) := by
  obtain ⟨N, X, hr⟩ := hr
  exact ⟨N, X, hr.onInode hn hi hs hd hc⟩

theorem FsRep.find (hr : FsRep t s a) (hh : a.handles i = some h) :
    ∃ n, findInode i s.openInodes = some n ∧ n.handle = h ∧ 0 < n.openCnt := by
  obtain ⟨N, X, hr⟩ := hr
  obtain ⟨n, hn, hnh⟩ := hr.find hh
  exact ⟨n, hn, hnh, hr.counted n (findInode_some hn).1⟩

theorem FsRep.inodeReopen (hr : FsRep t s a) (hi : i ≠ freeMapSector) (hh : a.handles i = some h) :
    Ends (inodeReopen (some i)) s (fun r s' => r = some i ∧ FsRep t s' (a.opened i)) fun _ _ => False := by
  obtain ⟨n, hn, rfl, -⟩ := hr.find hh
  simp only [Filesys.inodeReopen, ends_bind]
  rw [ends_inodeAt hn, ends_modifyInode, ends_pure]
  refine ⟨rfl, ?_⟩
  unfold Store.opened
  rw [hh]
  exact hr.onInode hi hn (g := fun m => {m with openCnt := m.openCnt + 1}) (fun _ => rfl) (fun _ => rfl)
    (Nat.succ_pos _)

theorem FsRep.inodeOpen (hr : FsRep t s a) (hi : i ≠ freeMapSector) (hf : a.files i = some f) :
    Ends (inodeOpen i) s (fun r s' => r = some i ∧ FsRep t s' (a.opened i)) fun _ _ => False := by
  obtain ⟨N, X, hr⟩ := hr
  obtain ⟨d, hN, -⟩ := hr.file_iff hf
  refine Ends.imp (inodeOpen_ends (hr.sound.tree.owned_lt ⟨i, d, hN, self_mem⟩)) fun r s' ho => ?_
  obtain ⟨hr', hrep⟩ := hr.opened hN hi ho
  exact ⟨hr', N, X, hrep⟩

theorem FsRep.inodeRemove (hr : FsRep t s a) (hi : i ≠ freeMapSector) (hh : a.handles i = some h) :
    Ends (inodeRemove i) s (fun _ s' => FsRep t s' (a.setHandle i (some {h with removed := true})))
      fun _ _ => False := by
  obtain ⟨n, hn, rfl, hc⟩ := hr.find hh
  simp only [Filesys.inodeRemove, ends_bind]
  rw [ends_inodeAt hn, ends_modifyInode]
  exact hr.onInode hi hn (g := fun m => {m with removed := true}) (fun _ => rfl) (fun _ => rfl) hc

theorem FsRep.inodeAllowWrite (hr : FsRep t s a) (hi : i ≠ freeMapSector) (hh : a.handles i = some h)
    (hpos : 0 < h.denyWriteCnt) (hle : h.denyWriteCnt ≤ h.openCnt) :
    Ends (inodeAllowWrite i) s
      (fun _ s' => FsRep t s' (a.setHandle i (some {h with denyWriteCnt := h.denyWriteCnt - 1})))
      fun _ _ => False := by
  obtain ⟨n, hn, rfl, hc⟩ := hr.find hh
  simp only [Filesys.inodeAllowWrite, ends_bind]
  rw [ends_inodeAt hn]
  refine (ends_check (decide_eq_true hpos)).mpr ((ends_check (decide_eq_true hle)).mpr ?_)
  rw [ends_modifyInode]
  exact hr.onInode hi hn (g := fun m => {m with denyWriteCnt := m.denyWriteCnt - 1}) (fun _ => rfl) (fun _ => rfl) hc

theorem FsRep.lockAcquire (hr : FsRep t s a) (hi : i ≠ freeMapSector) (hh : a.handles i = some h)
    (hl : h.locked = false) :
    Ends (lockAcquire i) s (fun _ s' => FsRep t s' (a.setHandle i (some {h with locked := true})))
      fun _ _ => False := by
  obtain ⟨n, hn, rfl, hc⟩ := hr.find hh
  rw [ends_lockAcquire hn hl]
  exact hr.onInode hi hn (g := fun m => {m with locked := true}) (fun _ => rfl) (fun _ => rfl) hc

theorem FsRep.lockRelease (hr : FsRep t s a) (hi : i ≠ freeMapSector) (hh : a.handles i = some h)
    (hl : h.locked = true) :
    Ends (lockRelease i) s (fun _ s' => FsRep t s' (a.setHandle i (some {h with locked := false})))
      fun _ _ => False := by
  obtain ⟨n, hn, rfl, hc⟩ := hr.find hh
  rw [ends_lockRelease hn hl]
  exact hr.onInode hi hn (g := fun m => {m with locked := false}) (fun _ => rfl) (fun _ => rfl) hc

/-! ### Reading and writing -/

/-- A read with memory for its buffers gets the whole range. -/
theorem readAt_fetches (h : Tree True N X s) (hn : findInode i s.openInodes = some n) (hN : N i = some n.data)
    (hmem : s.heap = []) (ahead : Bool) {size : Int} {offset : Nat} (hlo : -2 ^ 31 ≤ size)
    (hhi : size + offset < 2 ^ 31)
    (hfit : ahead = true → AheadFits s n.data offset (readLength (InodeDisk.length n.data) size offset)) :
    ∃ bytes s', (readAt ahead i size offset).run s = .ok bytes s' ∧
      bytes.length = readLength (InodeDisk.length n.data) size offset ∧ Fetched s n.data offset bytes ∧
      Quiet s s' ∧ Tree True N X s' := by
  have hends := (Meets.ends (readAt_meets h hn hN ahead (by omega) hhi) not_spoiled).mono
    (fun _ _ => id) fun _ _ he => he.2.2 (hfit he.1)
  obtain ⟨r, s', hrun, hread⟩ := hends.ok
  exact ⟨r, s', hrun, hread.length_eq hmem, hread.fetched, hread.quiet, hread.tree⟩

/-- What was read is a piece of the file. -/
theorem Fetched.eq_take {offset size : Nat} {l : List UInt8} (hr : Readable N s) (hN : N i = some d)
    (hl : l.length = min size (InodeDisk.size d - offset)) (hf : Fetched s d offset l) :
    l = ((contents s d).drop offset).take size := by
  apply List.ext_getElem?
  intro j
  rw [List.getElem?_take, List.getElem?_drop]
  by_cases hj : j < l.length
  · have hlt : offset + j < InodeDisk.size d := by omega
    rw [if_pos (by omega), getElem?_contents hlt]
    exact hf j _ hj (hr.firm hN hlt)
  · rw [List.getElem?_eq_none (by omega)]
    split
    · rw [List.getElem?_eq_none]
      rw [length_contents]
      omega
    · rfl

theorem FsRep.inodeReadAt {size offset : Nat} (hr : FsRep t s a) (hi : i ≠ freeMapSector) (hh : a.handles i = some h)
    (hf : a.files i = some f) (hlt : offset + size < 2 ^ 31) :
    Ends (inodeReadAt i (size : Nat) offset) s (fun r s' => r = (f.bytes.drop offset).take size ∧ FsRep t s' a)
      fun _ _ => False := by
  obtain ⟨N, X, hr⟩ := hr
  obtain ⟨n, hn, rfl⟩ := hr.find hh
  obtain ⟨d, hN, hrep⟩ := hr.file_iff hf
  obtain rfl := Option.some.inj ((hr.sound.node_of_find hn).symm.trans hN)
  have hlen := (hr.sound.tree.length i n.data hN).1
  refine Ends.mono (Meets.ends (readAt_meets hr.sound.tree hn hN false (by omega) (by omega)) not_spoiled)
    (fun r s' hread => ⟨?_, N, X, hr.quiet hread.quiet hread.tree.cache⟩) fun e _ he => nomatch he.1
  rw [hrep.bytes hi]
  refine Fetched.eq_take hr.readable hN ?_ hread.fetched
  rw [hread.length_eq hr.memory, readLength, InodeDisk.size]
  omega

theorem FsRep.inodeWriteAt {buffer : Bytes} {size offset : Nat} (hr : FsRep t s a) (hi : i ≠ freeMapSector)
    (hh : a.handles i = some h) (hf : a.files i = some f) (hdeny : h.denyWriteCnt = 0) (hs : size < 2 ^ 31)
    (ho : offset < 2 ^ 31) (hroom : t = true ∨ sectorCnt (offset + size) ≤ sectorCnt f.bytes.length) {z : Int}
    (hz : (size : Int) = z) :
    Ends (inodeWriteAt i buffer z offset) s
      (fun w s' => ∃ f' l, a.Written f f' l buffer size offset w ∧ FsRep t s' (a.grown i f' l))
      fun e _ => e = .fileSize ∧ maxFileSize ≤ offset + size := by
  obtain ⟨N, X, hr⟩ := hr
  obtain ⟨n, hn, rfl⟩ := hr.find hh
  subst hz
  obtain ⟨d, hN, hrep⟩ := hr.file_iff hf
  obtain rfl := Option.some.inj ((hr.sound.node_of_find hn).symm.trans hN)
  rw [hrep.bytes hi, length_contents, ← Nat.sub_eq_zero_iff_le] at hroom
  have hfc : True → newSectors n.data ((offset : Int) + (size : Int)).toNat = 0 ∨ FreeClean s := by
    intro _
    rcases hroom with ht | h0
    · exact .inr (hr.tidy ht).freeClean
    · exact .inl (by rw [← Int.natCast_add, Int.toNat_natCast]; exact h0)
  refine Ends.mono (Meets.ends (inodeWriteAt_meets hr.sound.tree hn (hr.sound.node_of_find hn) hr.sound.nodup hi
    hr.sound.writable hfc (by omega) (by omega) ho buffer) not_spoiled) ?_ ?_
  · rintro w s' ⟨d', l, hw⟩
    obtain ⟨f', l', hwritten, hrep⟩ := hr.wrote hroom hn hi hf hdeny hw
    exact ⟨f', l', hwritten, _, X, hrep⟩
  · rintro e s' (⟨rfl, hout⟩ | hno)
    · refine ⟨rfl, ?_⟩
      unfold InRange at hout
      omega
    · exact absurd hno.1 hr.sound.freeMapFile

/-! ### Taking sectors and giving them back -/

/-- The free map is as it was. -/
theorem Refines.steady_same (hr : Refines N X t s a) (hst : Steady N s s') (ht : Tree True N X s')
    (hsync : Synced N s') : Refines N X t s' a := by
  have hused : s'.freeMap.test = a.used := by
    funext k
    rw [hr.used, Bool.eq_iff_iff, hst.used ht, hr.sound.tree.used]
  have := hr.steady (Y := []) hst ht hsync
  rwa [hused] at this

theorem FsRep.freeMapAllocate (hr : FsRep t s a) :
    Ends (freeMapAllocate bitmapWrite 1) s
      (fun r s' => match r with
        | none => FsRep t s' a ∧ a.freeCnt = 0
        | some k => FsRep t s' (a.setUsed k true) ∧ a.used k = false ∧ k < a.size ∧ (t = true → FsFresh s' k))
      fun _ _ => False := by
  obtain ⟨N, X, hr⟩ := hr
  refine Ends.imp (Meets.ends (freeMapAllocate_meets hr.sound.tree hr.sound.writable) not_spoiled) fun r s' ht => ?_
  have hst := ht.steady
  have hsync := ht.synced hr.ready hr.synced
  cases r with
  | none =>
    refine ⟨⟨N, X, hr.steady_same hst ht.tree hsync⟩, ?_⟩
    rw [hr.freeCnt_eq, freeCnt, List.countP_eq_zero]
    intro k hk
    simp [ht.full hr.memory rfl k (List.mem_range.mp hk)]
  | some k =>
    obtain ⟨hfree, hlt⟩ := ht.fresh k rfl
    have hused : s'.freeMap.test = Function.update a.used k true := by
      funext j
      rw [Bool.eq_iff_iff, hst.used ht.tree]
      by_cases hj : j = k
      · simp [hj]
      · rw [Function.update_of_ne hj, hr.used, hr.sound.tree.used]
        simp [hj]
    have hrep := hr.steady hst ht.tree hsync
    rw [hused] at hrep
    refine ⟨⟨N, _, hrep⟩, by rw [hr.used, hfree], hr.size ▸ hlt, fun htd => ⟨?_, fun hd => ?_⟩⟩
    · rw [hst.calm.role]
      exact hr.sound.tree.role_free hfree
    · rcases hst.calm.dirty hd with hd | hm
      · exact (hr.tidy htd k hfree).1 hd
      · rw [(hr.sound.tree.used k).mpr (.inl hm.dataOf.owned)] at hfree
        cases hfree

theorem FsRep.inodeCreate {len : Nat} {isDir : Bool} (hr : FsRep true s a) (hfr : FsFresh s i)
    (hu : a.used i = true) (hl : a.Loose i) (hlen : len < maxFileSize) {z : Int} (hz : (len : Int) = z) :
    Ends (inodeCreate bitmapWrite i z isDir) s
      (fun r s' => if r then ∃ f l, FsRep true s' (a.grown i f l) ∧ a.Supply l ∧ f.isDir = isDir ∧
          f.bytes.length = len ∧ f.sectors = insert i l.toFinset ∧ l.length = blockCnt len + 1 ∧
          (FreeBlank s → ∀ c ∈ f.bytes, c = 0)
        else FsRep true s' a ∧ a.freeCnt < blockCnt len + 1) fun _ _ => False := by
  obtain ⟨N, X, hr⟩ := hr
  have hr := hr.perm (List.perm_cons_erase (hr.spare hu hl))
  have hfc : True → FreeClean s := fun _ => (hr.tidy rfl).freeClean
  refine Ends.mono (Meets.ends (inodeCreate_meets hr.sound.tree hr.sound.writable hfc hfr.1 (fun _ => hfr.2) hlen hz
    isDir) not_spoiled) (fun r s' hc => ?_) fun e s' hno => hr.sound.freeMapFile hno.1
  cases r with
  | true =>
    obtain ⟨f, l, ⟨N', hrep⟩, hrest⟩ := hr.created hc
    exact ⟨f, l, ⟨N', _, hrep⟩, hrest⟩
  | false =>
    obtain ⟨hst, ht⟩ := hc.failed rfl
    exact ⟨⟨N, _, hr.steady_same hst ht (hc.synced hr.ready hr.synced)⟩, hr.freeCnt_eq ▸ hc.full rfl hr.memory⟩

theorem FsRep.freeMapRelease (hr : FsRep t s a) (hu : a.used k = true) (hl : a.Loose k) :
    Ends (freeMapRelease bitmapWrite k 1) s (fun _ s' => FsRep false s' (a.setUsed k false)) fun _ _ => False := by
  obtain ⟨N, X, hr⟩ := hr
  have hr := hr.perm (List.perm_cons_erase (hr.spare hu hl))
  obtain ⟨n, hm⟩ := hr.sound.map
  have ht := hr.sound.tree
  refine Ends.imp (Meets.ends (freeMapRelease_file ht hm) not_spoiled) fun _ s' hg => ?_
  have hf : Freed N s s' := (freed_released N s k).trans hg.steady.freed
  refine ⟨N, _, hr.freed (fun _ _ => id) rfl hf (hr.sound.freed hf hg.tree) (hg.synced hr.memory) nofun rfl
    (fun j => ?_) (fun _ _ _ => rfl) hr.absent rfl⟩
  rw [Bool.eq_iff_iff, hg.tree.used, owned_congr hf.kept]
  simp only [Store.setUsed]
  by_cases hj : j = k
  · have hout : ¬ Owned N s k := fun hO => ht.spare k hO List.mem_cons_self
    simp [hj, hout, (List.nodup_cons.mp ht.taken).1]
  · rw [Function.update_of_ne hj, hr.used, ht.used, List.mem_cons]
    simp [hj]

/-! ### Closing -/

/-- The last opener of a removed inode goes, and the file with it. -/
theorem Refines.deallocate (hr : Refines N X t s a) (hN : N i = some d) (hi : i ≠ freeMapSector)
    (hnone : findInode i s.openInodes = none) (hf : a.files i = some f) :
    Ends (deallocate bitmapWrite i d) s (fun _ s' => FsRep false s' (a.erased i f)) fun _ _ => False := by
  obtain ⟨n, hm⟩ := hr.sound.map
  obtain ⟨d', hN', hrep⟩ := hr.file_iff hf
  obtain rfl := Option.some.inj (hN.symm.trans hN')
  refine Ends.mono (Meets.ends (deallocate_meets (hr.sound.tree.aside hN) (hm.update hi none)) not_spoiled)
    (fun _ s' hg => ?_) fun e s' he => he.2 hr.memory
  refine ⟨_, X, hr.freed (fun j e hj => (update_none_eq_some.mp hj).2) (Function.update_of_ne (Ne.symm hi) _ _)
    hg.freed (hr.sound.deallocated hnone hi hg.freed hg.tree)
    (hg.synced hr.memory ((synced_update hi none).mpr hr.synced)) nofun rfl (fun k => ?_) (fun j e hj => ?_)
    (fun j hj => ?_) rfl⟩
  · have hsect := hrep.sectors k
    have ht := (hr.sound.tree.aside hN).tree
    have hout : k ∈ sectorsOf s.device i d → ¬ (Owned (Function.update N i none) s k ∨ k ∈ X) := by
      rintro hk (hO | hX)
      · exact ht.spare k hO (List.mem_append_left _ hk)
      · exact List.disjoint_of_nodup_append ht.taken hk hX
    simp only [Store.erased]
    rw [Bool.eq_iff_iff, hg.tree.used, owned_congr hg.freed.kept, Bool.and_eq_true, hr.used, hr.sound.tree.used,
      owned_update_none hN, decide_eq_true_eq, hsect]
    tauto
  · exact Function.update_of_ne (update_none_eq_some.mp hj).1 _ _
  · simp only [Store.erased]
    by_cases hji : j = i
    · rw [hji, Function.update_self]
    · rw [Function.update_of_ne hji] at hj ⊢
      exact hr.absent j hj

theorem FsRep.inodeClose (hr : FsRep t s a) (hi : i ≠ freeMapSector) (hh : a.handles i = some h)
    (hf : a.files i = some f) (hl : h.locked = false) :
    Ends (inodeClose bitmapWrite (some i)) s
      (fun _ s' => FsRep (t && !(h.openCnt == 1 && h.removed)) s' (a.closed i f h)) fun _ _ => False := by
  obtain ⟨N, X, hr⟩ := hr
  obtain ⟨n, hn, rfl⟩ := hr.find hh
  have hdrop := hr.drop hi
  rw [ends_inodeClose bitmapWrite hn hl hr.sound.nodup, Store.closed]
  by_cases hc : n.openCnt = 1
  · rw [if_pos hc, if_pos (show n.handle.openCnt = 1 from hc)]
    refine ends_whenever (fun hrm => ?_) fun hrm => ?_
    · have hfalse : (t && !(n.handle.openCnt == 1 && n.handle.removed)) = false := by
        simp [Inode.handle, hc, hrm]
      rw [hfalse, if_pos (show n.handle.removed = true from hrm)]
      exact hdrop.deallocate (hr.sound.node_of_find hn) hi (findInode_dropInode s i) hf
    · have hsame : (t && !(n.handle.openCnt == 1 && n.handle.removed)) = t := by
        simp [Inode.handle, hrm]
      rw [hsame, if_neg (by simp [Inode.handle, hrm])]
      exact ⟨N, X, hdrop⟩
  · have hpos := hr.counted n (findInode_some hn).1
    rw [if_neg hc, if_neg (show n.handle.openCnt ≠ 1 from hc)]
    have hne : (n.handle.openCnt == 1) = false := beq_false_of_ne hc
    rw [hne, Bool.false_and, Bool.not_false, Bool.and_true]
    exact ⟨N, X, hr.onInode hn hi (f := fun m => {m with openCnt := m.openCnt - 1}) (fun _ => rfl) (fun _ => rfl)
      (by simp only; omega)⟩

/-- Every inode but the free map's may be worked on. -/
theorem fsLayer_lawful : Lawful fsLayer FsRep (· ≠ freeMapSector) FsFresh where
  weaken := fun ⟨N, X, hr⟩ => ⟨N, X, {hr with tidy := nofun}⟩
  wf := fun ⟨_, _, hr⟩ => hr.wf
  malloc := FsRep.malloc
  inodeAt := FsRep.inodeAt
  inodeCreate := fun hr hfr hu hl hlen => (hr.inodeCreate hfr hu hl hlen rfl).imp fun r s' hc => by
    cases r with
    | false => exact hc
    | true =>
      obtain ⟨f, l, hrep, hs, hd, hb, hsec, hlen', -⟩ := hc
      exact ⟨f, l, hrep, hs, hd, hb, hsec, hlen'⟩
  inodeOpen := FsRep.inodeOpen
  inodeReopen := FsRep.inodeReopen
  inodeClose_none := fun hr => hr
  inodeClose := FsRep.inodeClose
  inodeRemove := FsRep.inodeRemove
  inodeAllowWrite := FsRep.inodeAllowWrite
  inodeReadAt := FsRep.inodeReadAt
  inodeWriteAt := fun hr hi hh hf hd hs ho => hr.inodeWriteAt hi hh hf hd hs ho (.inl rfl) rfl
  lockAcquire := FsRep.lockAcquire
  lockRelease := FsRep.lockRelease

end

end Pintos.Filesys
