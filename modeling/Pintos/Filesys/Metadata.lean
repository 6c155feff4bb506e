import Pintos.Filesys.Runs

/-! The metadata on the device.

Inodes and pointer blocks go straight to the device, data goes through the cache, and the
sectors of a removed file go back to the free map with their dirty copies still cached. As
long as no such sector is taken again (`Clean`) the cache writes back to data sectors only,
and every inode and pointer block on the device is what the inode layer last wrote there. A
dirty copy that outlives its file ends up in the new owner's metadata. -/
namespace Pintos.Filesys
open Outcome WriteBack

section
variable {P : Prop} {N : Nat → Option Bytes} {X : List Nat} {s : Fs} {h : List (Step × Reply)} {k : Nat}

/-- A serving sector holds what it was last given. -/
theorem Tree.device_role (ht : Tree P N [] s) {w : Writer} {b : Bytes} (hr : lastRole s.trace k = some (w, b)) :
    s.device k = b := by
  obtain ⟨i, d, hN, hk⟩ := (ht.roles k (by simp [hr])).resolve_right (by simp)
  have hp := ht.pointers i d hN
  rcases mem_metaSectors.mp hk with rfl | rfl | hk
  · obtain ⟨hrole, hdev⟩ := ht.inode k d hN
    rw [hrole] at hr
    cases hr
    exact hdev
  · by_cases hz : sectorCnt (InodeDisk.size d) = 0
    · rw [hp.empty hz] at hr
      cases hr
    · rw [hp.double (by omega)] at hr
      cases hr
      rfl
  · rw [hp.indirect k hk] at hr
    cases hr
    rfl

theorem inv_of_run (hr : Run Step.exec (fun st s => Permitted st s ∧ Clean st s) Formatted h s) : Inv True s :=
  hr.invariant (J := fun _ s => Inv True s) (fun _ hs => hs.started.inv)
    fun _ _ _ hi ha => (Step.ends hi ha.1 ha.2).mono (fun _ _ hok => hok.inv) fun _ _ _ => trivial

/-- No write-back ever hits a serving sector, every serving sector is as it was last
written, and no inode or pointer block has a dirty copy that a write-back could use. -/
theorem metadata_kept (hr : Run Step.exec (fun st s => Permitted st s ∧ Clean st s) Formatted h s) :
    Intact s.trace ∧ (∀ k w b, lastRole s.trace k = some (w, b) → s.device k = b) ∧
      ∀ i d, node s.trace i = some d → ∀ k ∈ metaSectors s.device i d, ¬ (s.cell k).Dirty := by
  have ht := (inv_of_run hr).sound.tree
  exact ⟨ht.intact, fun k w b => ht.device_role, fun i d hN k hk hd => (ht.clean trivial k hd).2 ⟨i, d, hN, hk⟩⟩

/-- A file is written twice, removed and closed, and nothing is created after it. -/
def lifeOfAFile : List Step :=
  [⟨[], .create 100 false⟩, ⟨[], .openInode 8⟩, ⟨[], .write 8 (fun _ => 65) 5 0⟩, ⟨[], .write 8 (fun _ => 65) 5 0⟩,
    ⟨[], .remove 8⟩, ⟨[], .close 8⟩]

theorem metadata_kept_after_removal : ∃ h s, h.length = 6 ∧
    Run Step.exec (fun st s => Permitted st s ∧ Clean st s) Formatted h s ∧ Intact s.trace := by
  obtain ⟨h, s, hr, hp⟩ := run_of_replay (p := fun h _ => h.length == 6) cleanly_correct 24 lifeOfAFile (by decide +kernel)
  exact ⟨h, s, by simpa using hp, hr, (metadata_kept hr).1⟩

/-- Two more files take the sectors, the second with the dirty sector as its double-indirect
block, and the cache is written back. -/
def reuse : List Step := lifeOfAFile ++
  [⟨[], .create 0 false⟩, ⟨[], .create 100 false⟩, ⟨[], .writeBackAllCache⟩]

/-- Sector `k` was last written as a double-indirect block and holds something else. -/
def clobbered (s : Fs) (k : Nat) : Bool :=
  match lastRole s.trace k with
  | some (.doubleIndirect, b) => s.device k 0 != b 0
  | _ => false

theorem exists_of_clobbered (h : clobbered s k = true) :
    ∃ b, lastRole s.trace k = some (.doubleIndirect, b) ∧ s.device k ≠ b := by
  unfold clobbered at h
  grind

theorem metadata_overwritten : ∃ h s, Run Step.exec Permitted Formatted h s ∧ ¬ Intact s.trace ∧
    ∃ k b, lastRole s.trace k = some (.doubleIndirect, b) ∧ s.device k ≠ b := by
  have hc : ∀ (st : Step) s, decide (Permitted st s) = true → Permitted st s := fun _ _ => of_decide_eq_true
  obtain ⟨h, s, hr, hp⟩ := run_of_replay (p := fun _ s => !decide (Intact s.trace) && clobbered s 11) hc 24 reuse
    (by decide +kernel)
  rw [Bool.and_eq_true, Bool.not_eq_true', decide_eq_false_iff_not] at hp
  exact ⟨h, s, hr, hp.1, 11, exists_of_clobbered hp.2⟩

end

end Pintos.Filesys
