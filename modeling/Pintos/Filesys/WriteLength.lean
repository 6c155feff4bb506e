import Pintos.Filesys.Extend
import Pintos.Filesys.FsLawful

/-! The count that `inode_write_at` returns, and the length it leaves.

The inode grows to the end of the write before the buffers for the transfer are allocated. A request for
memory that fails in between leaves an inode that is longer than the write says. As long as that cannot
happen (the write does not make the file longer, the growth is bound to fail, or memory does not run out)
the bytes reported are the bytes stored, and the length is the old one or the end of what was stored. -/
namespace Pintos.Filesys
open Outcome WriteBack

section
variable {N : Nat → Option Bytes} {X : List Nat} {s s' : Fs} {i : Nat} {d d' : Bytes} {n : Inode} {size : Int}
  {offset w : Nat} {buffer : Bytes}

/-- The growth to a size is bound to fail: there are too few free sectors for it, or a request for memory fails before
the first sector is taken. -/
def CannotGrow (s : Fs) (d : Bytes) (size : Nat) : Prop :=
  freeCnt s < newSectors d size + newIndirectBlocks d size ∨
    0 < newSectors d size ∧ NoneTaken s.heap (newIndirectBlocks d size)

/-- Before the call: the inode will not grow and the transfer run out of memory then. -/
def GrowthCounted (s : Fs) (n : Inode) (size : Int) (offset : Nat) : Prop :=
  n.denyWriteCnt ≠ 0 ∨ offset + size ≤ InodeDisk.length n.data ∨ s.heap = [] ∨
    CannotGrow s n.data (offset + size.toNat)

theorem extend_of_cannotGrow (h : Tree True N X s) (hN : N i = some d) (hi : i ≠ freeMapSector) (hw : Writable N s)
    (hfc : FreeClean s) {t : Nat} (ht : t < maxFileSize) (hno : CannotGrow s d t) {z : Int} (hz : (t : Int) = z) :
    Ends (extendInodeDiskToSize bitmapWrite i d z) s (fun r _ => r.1 = false) fun _ _ => True := by
  have hle : InodeDisk.size d ≤ t := by
    by_contra hlt
    have hcnt := sectorCnt_mono (Nat.le_of_not_le hlt)
    have hicnt := indirectCnt_mono hcnt
    unfold CannotGrow newSectors newIndirectBlocks at hno
    omega
  rcases hno with hfull | ⟨hpos, hnone⟩
  · refine (Meets.ends (grow_meets h hN hi hw (fun _ => .inr hfc) ht hz 0 fun _ => 0) not_spoiled).mono (fun r s' hr => ?_)
      fun _ _ _ => trivial
    obtain ⟨-, l, -, -, -, -, -, hcnt⟩ := hr
    by_contra hok
    have := hcnt (by simpa using hok) hle
    omega
  · refine extend_fills bitmapWrite (h.length i d hN).1 hle ht hz ?_
    rw [if_neg (by omega)]
    refine (buildSectors_noneTaken bitmapWrite hnone).imp ?_
    intro ok s' hok
    rw [hok]
    exact rfl

/-- With memory for the transfer the whole range is stored, or the inode has not grown. -/
theorem write_whole_or_same (h : Sound True N X s) (hfc : FreeClean s) (hn : findInode i s.openInodes = some n)
    (hi : i ≠ freeMapSector) (hpos : 0 < size) (hmax : offset + size < maxFileSize)
    (hmem : s.heap = [] ∨ CannotGrow s n.data (offset + size.toNat)) :
    Ends (inodeWriteAt i buffer size offset) s (fun w s' => w = size.toNat ∨ s'.openInodes = s.openInodes)
      fun _ _ => True := by
  obtain ⟨hmem', hsec⟩ := findInode_some hn
  have hN := h.node_of_find hn
  have hsame : (s.onInode i fun m => {m with data := n.data}) = s := by
    apply onInode_self
    intro m hm hmi
    obtain rfl := eq_of_sector h.nodup hm (hmi ▸ hn)
    rfl
  have hmaxv : (maxFileSize : Int) = 8388608 := rfl
  unfold inodeWriteAt inodeWriteAtWith
  simp only [ends_bind]
  rw [ends_inodeAt hn]
  by_cases hdeny : n.denyWriteCnt = 0
  swap
  · rw [if_pos hdeny]
    exact .inr rfl
  rw [if_neg (by simpa using hdeny), if_neg (by omega), ends_bind]
  have hrange := @write_range size offset (by omega) (by omega)
  rw [hrange.1, hrange.2, hsec]
  clear hrange
  have hz : ((offset + size.toNat : Nat) : Int) = offset + size := by omega
  generalize (offset : Int) + size = z at hz ⊢
  have ht : offset + size.toNat < maxFileSize := by omega
  have hgrow := Meets.ends (grow_meets h.tree hN hi h.writable (fun _ => .inr hfc) ht hz offset buffer) not_spoiled
  have hmemory : Ends (extendInodeDiskToSize bitmapWrite i n.data z) s (fun r _ => s.heap = [] ∨ r.1 = false)
      fun _ _ => True := by
    rcases hmem with hheap | hno
    · exact (ends_self _ s).mono (fun _ _ _ => .inl hheap) fun _ _ _ => trivial
    · exact (extend_of_cannotGrow h.tree hN hi h.writable hfc ht hno hz).imp fun _ _ => .inr
  refine (hgrow.and hmemory).mono ?_ fun _ _ _ => trivial
  intro r s1 hr
  obtain ⟨⟨hopen, l, hwr, hok, hfail, -⟩, hmem⟩ := hr
  obtain ⟨ok, d'⟩ := r
  simp only [ends_bind, ends_modifyInode]
  have hn2 := findInode_onInode (f := fun m : Inode => {m with data := d'}) (fun _ => rfl) (hopen ▸ hn)
  have hwr2 := hwr.onInode i fun m => {m with data := d'}
  have hopens : (s1.onInode i fun m => {m with data := d'}).openInodes =
      (s.onInode i fun m => {m with data := d'}).openInodes := by
    rw [Fs.onInode, hopen]
    rfl
  generalize (s1.onInode i fun m => {m with data := d'}) = s2 at hn2 hwr2 hopens ⊢
  cases ok with
  | true =>
    have hheap : s2.heap = [] := hwr2.heap (hmem.resolve_right (by simp))
    have hs : InodeDisk.size d' = max (InodeDisk.size n.data) (offset + size.toNat) := hok rfl
    simp only [if_true]
    refine (Meets.ends (writeSectors_meets hwr2.tree hn2 (by simp) buffer ?_) not_spoiled).mono ?_ fun _ _ _ => trivial
    · grind
    · exact fun w s' hw => .inl (hw.eq hheap)
  | false =>
    obtain ⟨rfl, hle⟩ := hfail rfl
    rw [hsame] at hopens
    simp only [Bool.false_eq_true, if_false]
    split
    · refine (Meets.ends (writeSectors_meets hwr2.tree hn2 (by simp) buffer ?_) not_spoiled).mono ?_ fun _ _ _ => trivial
      · show (InodeDisk.length n.data - offset).toNat = 0 ∨
          offset + (InodeDisk.length n.data - offset).toNat ≤ InodeDisk.size n.data
        rw [InodeDisk.size]
        omega
      · exact fun w s' hw => .inr (hw.calm.openInodes.trans hopens)
    · exact .inr hopens

/-- The write is whole, or the inode is the one that was there. -/
theorem write_counted (h : Sound True N X s) (hfc : FreeClean s) (hn : findInode i s.openInodes = some n)
    (hi : i ≠ freeMapSector) (hpos : 0 < size) (hmax : offset + size < maxFileSize)
    (hmem : GrowthCounted s n size offset) :
    Ends (inodeWriteAt i buffer size offset) s
      (fun w s' => ∃ d' l, WriteAt True N i n d' X l s size offset w buffer s' ∧ (d' = n.data ∨ w = size.toNat))
      fun _ _ => False := by
  have hmaxv : (maxFileSize : Int) = 8388608 := rfl
  have hspec : Ends (inodeWriteAt i buffer size offset) s
      (fun w s' => ∃ d' l, WriteAt True N i n d' X l s size offset w buffer s') fun _ _ => False := by
    refine (Meets.ends (inodeWriteAt_meets h.tree hn (h.node_of_find hn) h.nodup hi h.writable (fun _ => .inr hfc)
      (by omega) (by omega) (by omega) buffer) not_spoiled).mono (fun _ _ => id) fun e s' he => ?_
    rcases he with he | he
    · exact he.2 ⟨by omega, hmax⟩
    · exact h.freeMapFile he.1
  rcases hmem with hdeny | hin | hmem
  · refine hspec.imp fun w s' hw => ?_
    obtain ⟨d', l, hw⟩ := hw
    exact ⟨d', l, hw, .inl (hw.denied hdeny).2⟩
  · refine hspec.imp fun w s' hw => ?_
    obtain ⟨d', l, hw⟩ := hw
    refine ⟨d', l, hw, .inl (hw.grown.resolve_right fun hg => ?_)⟩
    have hlt := hg.1
    rw [InodeDisk.size] at hlt
    omega
  · refine (hspec.and (write_whole_or_same h hfc hn hi hpos hmax hmem)).mono ?_ fun _ _ he => he.1
    intro w s' hw
    obtain ⟨⟨d', l, hw⟩, hall⟩ := hw
    refine ⟨d', l, hw, hall.symm.imp_left fun hsame => ?_⟩
    have hfind := findInode_onInode (f := fun m : Inode => {m with data := d'}) (fun _ => rfl) hn
    rw [← hw.opens, hsame, hn] at hfind
    exact (congrArg Inode.data (Option.some.inj hfind)).symm

end

end Pintos.Filesys
