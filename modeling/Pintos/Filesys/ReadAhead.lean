import Pintos.Filesys.FsLawful
import Pintos.Filesys.Metadata

/-! Reading with read-ahead against reading without.

`inode_read_at_ahead` differs from `inode_read_at` by the three sectors it brings into the cache after
a miss. They come after the sector on the device, whoever they belong to, and a clean copy of a sector
changes nothing that is read later. But nothing keeps them on the device: a miss on one of its last
three sectors runs into the assertion of `block_read`. -/
namespace Pintos.Filesys
open Outcome WriteBack

section
variable {P : Prop} {N : Nat → Option Bytes} {X : List Nat} {s s' : Fs} {i : Nat} {d : Bytes} {n : Inode} {offset : Nat}

/-- Moving the cache leaves what is read from a file. -/
theorem Quiet.contents (hq : Quiet s s') (hr : Readable N s) (h : Tree P N X s) (h' : Tree P N X s')
    (hN : N i = some d) : contents s' d = contents s d := by
  unfold Filesys.contents
  apply List.map_congr_left
  intro o ho
  have hj := div_lt_sectorCnt (List.mem_range.mp ho)
  unfold fileByte
  rw [(h.kept_quiet h' hq hN).dataSector hj]
  have hcoh := hr _ ⟨i, d, hN, dataSector_mem hj⟩
  rw [((hq.cells _ id).coherent hcoh).2]

theorem Quiet.readable (hq : Quiet s s') (hr : Readable N s) (h : Tree P N X s) (h' : Tree P N X s') :
    Readable N s' := by
  intro k hk
  refine ((hq.cells k id).coherent (hr k ?_)).1
  exact (dataOf_congr (fun _ _ hN => h.kept_quiet h' hq hN) k).mp hk

/-- What either way of reading gives. -/
theorem readAt_reads (h : Inv True s) (hn : findInode i s.openInodes = some n) (hmem : s.heap = [])
    (hr : Readable (node s.trace) s) {size : Int} (hlo : -2 ^ 31 ≤ size) (hhi : size + offset < 2 ^ 31) (ahead : Bool)
    (hfit : ahead = true → AheadFits s n.data offset (readLength (InodeDisk.length n.data) size offset)) :
    ∃ s', (readAt ahead i size offset).run s =
        .ok (((contents s n.data).drop offset).take size.toNat) s' ∧
      Readable (node s'.trace) s' ∧ s'.openInodes = s.openInodes ∧ node s'.trace = node s.trace ∧
      ∀ j d, node s.trace j = some d → contents s' d = contents s d := by
  have ht := h.sound.tree
  have hN := h.sound.node_of_find hn
  have hlen := (ht.length i n.data hN).1
  obtain ⟨r, s', hrun, hcount, hf, hq, ht'⟩ := readAt_fetches ht hn hN hmem ahead hlo hhi hfit
  have hnode := ht'.eq_node
  have hbytes : r = ((contents s n.data).drop offset).take size.toNat := by
    refine Fetched.eq_take hr hN ?_ hf
    rw [hcount, readLength, InodeDisk.size]
    omega
  refine ⟨s', hbytes ▸ hrun, hnode ▸ hq.readable hr ht ht', hq.openInodes, hnode.symm, ?_⟩
  intro j d hj
  exact hq.contents hr ht ht' hj

theorem read_ahead_reads_same {hist : List (Step × Reply)}
    (hrun : Run Step.exec (fun st s => Permitted st s ∧ Clean st s) Formatted hist s)
    (hn : findInode i s.openInodes = some n) (hmem : s.heap = []) (hr : Readable (node s.trace) s) {size : Int}
    (hlo : -2 ^ 31 ≤ size) (hhi : size + offset < 2 ^ 31)
    (hfit : AheadFits s n.data offset (readLength (InodeDisk.length n.data) size offset)) :
    ∃ bytes s1 s2, (inodeReadAt i size offset).run s = .ok bytes s1 ∧
      (inodeReadAtAhead i size offset).run s = .ok bytes s2 ∧
      Readable (node s2.trace) s2 ∧ s2.openInodes = s.openInodes ∧ node s2.trace = node s.trace ∧
      ∀ j d, node s.trace j = some d → contents s2 d = contents s d := by
  have hinv := inv_of_run hrun
  obtain ⟨s1, hplain, -⟩ := readAt_reads hinv hn hmem hr hlo hhi false (by simp)
  obtain ⟨s2, hahead, hafter⟩ := readAt_reads hinv hn hmem hr hlo hhi true fun _ => hfit
  exact ⟨_, s1, s2, hplain, hahead, hafter⟩

theorem read_ahead_reads_same_root : ∃ s n bytes s1 s2, RootOpen s n ∧
    (inodeReadAt rootDirSector 1 0).run s = .ok bytes s1 ∧ (inodeReadAtAhead rootDirSector 1 0).run s = .ok bytes s2 := by
  obtain ⟨s, n, hroot⟩ := exists_rootOpen
  obtain ⟨hist, hrun⟩ := hroot.run
  have hfit : AheadFits s n.data 0 (readLength (InodeDisk.length n.data) 1 0) := by
    rw [hroot.length]
    intro o _ ho
    obtain rfl : o = 0 := Nat.lt_one_iff.mp ho
    exact .inl hroot.ahead
  obtain ⟨bytes, s1, s2, h1, h2, -⟩ := read_ahead_reads_same hrun hroot.find hroot.memory hroot.readable
    (by decide) (by decide) hfit
  exact ⟨s, n, bytes, s1, s2, hroot, h1, h2⟩

/-- A device that is full to the last sector, which holds the data of a file of 100 bytes. -/
theorem read_ahead_past_end : ∃ hist s, Run Step.exec (fun st s => Permitted st s ∧ Clean st s) Formatted hist s ∧
    (∃ bytes s', (inodeReadAt 8 100 0).run s = .ok bytes s' ∧ bytes.length = 100) ∧
    ∃ s', (inodeReadAtAhead 8 100 0).run s = .error .pastEnd s' := by
  obtain ⟨hist, s, hr, hp⟩ := run_of_replay
    (p := fun _ s => (inodeReadAt 8 100 0).returns s (fun bytes _ => bytes.length == 100) &&
      (inodeReadAtAhead 8 100 0).stops s .pastEnd)
    cleanly_correct 12 [⟨[], .create 100 false⟩, ⟨[], .openInode 8⟩] (by decide +kernel)
  rw [Bool.and_eq_true] at hp
  obtain ⟨bytes, s', hread, hlen⟩ := run_of_returns hp.1
  exact ⟨hist, s, hr, ⟨bytes, s', hread, by simpa using hlen⟩, run_of_stops hp.2⟩

end

end Pintos.Filesys
