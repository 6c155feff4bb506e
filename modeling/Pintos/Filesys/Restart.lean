import Pintos.Filesys.Latest

/-! Starting again from the device.

`write_back_all_cache` leaves no dirty copy. Without removals every copy of a data sector is then
a copy of what the device holds, every inode in memory is the one on the device, and the pointer
blocks have been there all along: a file system that has lost its memory reads every file as
before. -/
namespace Pintos.Filesys
open Outcome WriteBack

section
variable {N : Nat → Option Bytes} {X : List Nat} {s s1 : Fs} {i : Nat} {d : Bytes} {size : Int} {offset : Nat}
  {h : List (Step × Reply)}

/-- The device as it is, with an empty cache and no open inodes. -/
def Fs.restarted (s : Fs) : Fs := {s with
  cachedBlocks := []
  cacheSize := 0
  cachePointer := none
  freeMapFile := none
  openInodes := []
  heap := []}

/-- The invariant is about the device. -/
theorem Tree.restarted (ht : Tree True N X s) : Tree True N X s.restarted where
  cache := by
    refine ⟨⟨List.Pairwise.nil, rfl, fun p hp => ?_, fun ca hca => ?_⟩, Nat.zero_le _⟩
    · cases hp
    · cases hca
  bitCnt := ht.bitCnt
  small := ht.small
  trimmed := ht.trimmed
  intact := ht.intact
  length := ht.length
  inode := ht.inode
  pointers := fun i d hN => ⟨(ht.pointers i d hN).double, (ht.pointers i d hN).empty, (ht.pointers i d hN).indirect⟩
  nodup := ht.nodup
  apart := ht.apart
  taken := ht.taken
  spare := ht.spare
  used := ht.used
  roles := ht.roles
  clean := fun _ k hd => by
    obtain ⟨e, he⟩ := hd
    cases he

/-- After a write-back the device holds what a read gets. -/
theorem contents_restarted (ht : Tree True N X s) (hc : ∀ k, ¬ MetaOf N s k → (s.cell k).Coherent)
    (hq : Quiet s s1) (ht1 : Tree True N X s1) (hclean : ∀ k, ¬ (s1.cell k).Dirty) (hN : N i = some d) :
    contents s1.restarted d = contents s d := by
  unfold contents
  apply List.map_congr_left
  intro o ho
  have hj := div_lt_sectorCnt (List.mem_range.mp ho)
  have hkept := ht.kept_quiet ht1 hq hN
  unfold fileByte
  show s1.device (dataSector s1.device d (o / blockSectorSize)) (o % blockSectorSize) = _
  rw [hkept.dataSector hj]
  have hdata : DataOf N s (dataSector s.device d (o / blockSectorSize)) := ⟨i, d, hN, dataSector_mem hj⟩
  have hcoh := hc _ (ht.not_meta_of_data hdata)
  obtain ⟨hcoh1, hcur⟩ := (hq.cells _ id).coherent hcoh
  rw [← hcur]
  exact (hcoh1.firm _).2 (hclean _)

theorem device_determines_files (hr : Run Step.exec (fun st s => Permitted st s ∧ st.op.Keeps) Formatted h s)
    (hN : node s.trace i = some d) (hlo : -2 ^ 31 ≤ size) (hhi : size + offset < 2 ^ 31) :
    ∃ s1 length bytes s2 s3, writeBackAllCache.run s = .ok () s1 ∧
      (openAndRead i size offset).run {s with heap := []} = .ok (length, bytes) s2 ∧
      (openAndRead i size offset).run s1.restarted = .ok (length, bytes) s3 := by
  have hJ := recalls_of_run hr
  have hsound := hJ.inv.sound
  obtain ⟨⟨⟩, s1, hflush, hq, hcache, hclean⟩ := (writeBackAllCache_ends hsound.tree.cache).ok
  have ht1 := ((hsound.tree.quiet hq hcache).resolve_left (not_spoiled s1))
  have hdata : ∀ n ∈ s1.restarted.openInodes, node s.trace n.sector = some n.data := fun n hn => by cases hn
  obtain ⟨bytes, s2, hrun, hlen, hf⟩ := openAndRead_fetches (hsound.heap []).tree (hsound.heap []).node hN rfl hlo hhi
  obtain ⟨bytes', s3, hrun', hlen', hf'⟩ := openAndRead_fetches ht1.restarted hdata hN rfl hlo hhi
  have hreadable : Readable (node s.trace) s := fun k hk => hJ.coherent k (hsound.tree.not_meta_of_data hk)
  have hreadable' : Readable (node s.trace) s1.restarted := fun k _ e he => by cases he
  have hcount : readLength (InodeDisk.length d) size offset = min size.toNat (InodeDisk.size d - offset) := by
    rw [readLength, InodeDisk.size]
    omega
  have heq : bytes = ((contents s d).drop offset).take size.toNat :=
    Fetched.eq_take hreadable hN (hlen.trans hcount) hf
  have heq' : bytes' = ((contents s1.restarted d).drop offset).take size.toNat :=
    Fetched.eq_take hreadable' hN (hlen'.trans hcount) hf'
  rw [contents_restarted hsound.tree hJ.coherent hq ht1 hclean hN, ← heq] at heq'
  exact ⟨s1, _, bytes, s2, s3, hflush, hrun, heq' ▸ hrun'⟩

/-- A file written twice, so that the cache holds the only copy of the second write. -/
theorem device_determines_files_twice : ∃ h s d s1 length bytes s2 s3,
    Run Step.exec (fun st s => Permitted st s ∧ st.op.Keeps) Formatted h s ∧ node s.trace 8 = some d ∧
      writeBackAllCache.run s = .ok () s1 ∧
      (openAndRead 8 5 0).run {s with heap := []} = .ok (length, bytes) s2 ∧
      (openAndRead 8 5 0).run s1.restarted = .ok (length, bytes) s3 := by
  have hc : ∀ (st : Step) s, decide (Permitted st s ∧ st.op.Keeps) = true → Permitted st s ∧ st.op.Keeps :=
    fun _ _ => of_decide_eq_true
  obtain ⟨h, s, hr, hp⟩ := run_of_replay (p := fun _ s => (node s.trace 8).isSome && s.cachedBlocks.any (·.isDirty)) hc 24
    (oneWrite ++ [⟨[], .write 8 (fun _ => 66) 5 0⟩]) (by decide +kernel)
  rw [Bool.and_eq_true] at hp
  obtain ⟨d, hd⟩ := Option.isSome_iff_exists.mp hp.1
  have hlo : -2 ^ 31 ≤ (5 : Int) := by decide
  have hhi : (5 : Int) + (0 : Nat) < 2 ^ 31 := by decide
  obtain ⟨s1, length, bytes, s2, s3, hflush, hread⟩ := device_determines_files hr hd hlo hhi
  exact ⟨h, s, d, s1, length, bytes, s2, s3, hr, hd, hflush, hread⟩

end

end Pintos.Filesys
