import Pintos.Filesys.Metadata

/-! Who owns a sector.

A file takes sectors in many calls, each of which may fail halfway, and gives them all back in one:
`inode_close` counts them from the length and finds them through the pointer blocks. As long as
nothing but the inode layer has written to the pointer blocks (`Intact`) no sector has two owners,
the free map marks the sectors that have one, and the last close of a removed inode gives back
exactly what the inode owns. -/
namespace Pintos.Filesys
open Outcome WriteBack

section
variable {s s' : Fs} {i k : Nat} {d : Bytes} {n : Inode} {h : List (Step × Reply)} {op : Op} {r : Reply}

theorem inv_of_intact (hr : Run Step.exec Permitted Formatted h s) (hi : Intact s.trace) : Inv False s := by
  have hinv : Spoiled False s ∨ Inv False s :=
    hr.meets (J := fun _ s => Inv False s) (spoiled_sticky False)
      (fun _ hs => (Formatted.started hs).inv.weaken False) fun _ _ _ hJ ha => 
        Ends.mono (Step.meets hJ ha False.elim) (fun _ _ => Or.imp_right StepOk.inv) fun _ _ _ => .inr trivial
  exact hinv.resolve_left fun hs => hs.2 hi

/-- The sectors an inode has after a call that takes sectors are its own, or were free. -/
theorem StepOk.sectors (hinv : Inv False s) (hok : StepOk False s op r s') (ht : op.Takes)
    (hN : node s'.trace i = some d) (hk : k ∈ sectorsOf s'.device i d) (hused : s.freeMap.test k = true) :
    ∃ e, node s.trace i = some e ∧ k ∈ sectorsOf s.device i e := by
  have hfrees : ¬ op.Frees s := by
    cases op with
    | close i => exact False.elim ht
    | _ => exact id
  obtain ⟨j, e, hNj, hkj⟩ := ((hinv.sound.tree.used k).mp hused).resolve_right (by simp)
  obtain ⟨e', hNj', hext⟩ := (hok.tame hfrees).files j e hNj
  obtain rfl := hok.inv.sound.tree.owner_unique hN hNj' hk (hext.sectorsOf hkj)
  exact ⟨e, hNj, hkj⟩

/-- What the last close of a removed inode gives back. -/
structure GaveBack (s : Fs) (i : Nat) (d : Bytes) (s' : Fs) : Prop where
  releases : ∃ l, l.Perm (sectorsOf s.device i d) ∧ releases s'.trace = l ++ releases s.trace
  freeMap : ∀ k, s'.freeMap.test k = true ↔ s.freeMap.test k = true ∧ k ∉ sectorsOf s.device i d

theorem close_gives_back (hinv : Inv False s) (hi : i ≠ freeMapSector) (hn : findInode i s.openInodes = some n)
    (hlast : n.openCnt = 1) (hrem : n.removed = true) :
    Meets (Spoiled False) (inodeClose bitmapWrite (some i)) s (fun _ s' => GaveBack s i n.data s')
      (fun e _ => e = .closeBuffers ∧ s.heap ≠ []) := by
  have hN := hinv.sound.node_of_find hn
  have hdrop := hinv.sound.drop hi
  obtain ⟨m, hm⟩ := hdrop.map
  unfold Meets
  rw [ends_inodeClose bitmapWrite hn (hinv.idle n (findInode_some hn).1).1 hinv.sound.nodup, if_pos hlast]
  refine ends_whenever (fun _ => ?_) fun hr => ?_
  · refine Ends.mono (deallocate_meets (hdrop.tree.aside hN) (hm.update hi none)) ?_ fun _ _ => id
    intro _ s' hg
    refine hg.imp_right fun hg => ⟨⟨_, ?_, hg.releases⟩, fun k => ?_⟩
    · exact ((releaseOrder_perm s.device i n.data).symm.trans (List.reverse_perm _).symm).symm
    · have hused : s.freeMap.test k = true ↔ Owned (node s.trace) s k := by
        rw [hinv.sound.tree.used]
        simp
      have hused' : s'.freeMap.test k = true ↔ Owned (Function.update (node s.trace) i none) s k := by
        rw [hg.tree.used, owned_congr hg.freed.kept]
        simp only [List.not_mem_nil, or_false]
        rfl
      rw [hused, hused']
      constructor
      · intro hO
        obtain ⟨j, e, hNj, hk⟩ := hO
        obtain ⟨hji, hNj⟩ := update_none_eq_some.mp hNj
        exact ⟨⟨j, e, hNj, hk⟩, fun hki => hji (hinv.sound.tree.owner_unique hNj hN hk hki)⟩
      · intro hO
        obtain ⟨⟨j, e, hNj, hk⟩, hnot⟩ := hO
        refine ⟨j, e, update_none_eq_some.mpr ⟨?_, hNj⟩, hk⟩
        grind
  · rw [hrem] at hr
    cases hr

theorem sectors_have_one_owner (hr : Run Step.exec Permitted Formatted h s) (hi : Intact s.trace) :
    (∀ i d, node s.trace i = some d → (sectorsOf s.device i d).Nodup) ∧
    (∀ i d j e, node s.trace i = some d → node s.trace j = some e → i ≠ j →
      (sectorsOf s.device i d).Disjoint (sectorsOf s.device j e)) ∧
    (∀ k, s.freeMap.test k = true ↔ Owned (node s.trace) s k) ∧
    Ends (freeMapAllocate bitmapWrite 1) s (fun r s' => Intact s'.trace → ∀ k, r = some k → ¬ Owned (node s.trace) s k)
      (fun _ s' => ¬ Intact s'.trace) ∧
    (∀ st, Permitted st s → st.op.Takes → Ends st.exec s (fun _ s' => Intact s'.trace → ∀ i d k,
        node s'.trace i = some d → k ∈ sectorsOf s'.device i d →
          (∃ e, node s.trace i = some e ∧ k ∈ sectorsOf s.device i e) ∨ ¬ Owned (node s.trace) s k)
      (fun e s' => Intact s'.trace → st.op.Fails e)) ∧
    ∀ i n, i ≠ freeMapSector → findInode i s.openInodes = some n → n.openCnt = 1 → n.removed = true →
      Ends (inodeClose bitmapWrite (some i)) s (fun _ s' => Intact s'.trace → GaveBack s i n.data s')
        (fun e s' => Intact s'.trace → e = .closeBuffers ∧ s.heap ≠ []) := by
  have hinv := inv_of_intact hr hi
  have ht := hinv.sound.tree
  have hused : ∀ k, s.freeMap.test k = true ↔ Owned (node s.trace) s k := fun k => by
    rw [ht.used]
    simp
  refine ⟨ht.nodup, ht.apart, hused, ?_, fun st ha htakes => ?_, fun i n hi0 hn hlast hrem => ?_⟩
  · refine Ends.mono (freeMapAllocate_meets ht hinv.sound.writable) (fun r s' hm hin k hk => ?_) fun e s' he hin => ?_
    · obtain ⟨hfree, -⟩ := (hm.resolve_left fun hs => hs.2 hin).fresh k hk
      rw [← hused, hfree]
      simp
    · exact he.elim (fun hs => hs.2 hin) id
  · refine Ends.mono (Step.meets hinv ha False.elim) (fun r s' hm hin i d k hN hk => ?_) fun e s' he hin =>
      he.resolve_left fun hs => hs.2 hin
    have hok := hm.resolve_left fun hs => hs.2 hin
    by_cases hfree : s.freeMap.test k = true
    · exact .inl (hok.sectors hinv htakes hN hk hfree)
    · rw [hused] at hfree
      exact .inr hfree
  · exact Ends.mono (close_gives_back hinv hi0 hn hlast hrem) (fun _ s' hm hin => hm.resolve_left fun hs => hs.2 hin)
      fun _ s' hm hin => hm.resolve_left fun hs => hs.2 hin

/-- A file of 100 bytes is written and removed, and is still open. -/
def removedOpen : List Step :=
  [⟨[], .create 100 false⟩, ⟨[], .openInode 8⟩, ⟨[], .write 8 (fun _ => 65) 5 0⟩, ⟨[], .remove 8⟩]

theorem sectors_have_one_owner_removed : ∃ h s n, Run Step.exec Permitted Formatted h s ∧ Intact s.trace ∧
    findInode 8 s.openInodes = some n ∧ n.removed = true ∧
    Ends (inodeClose bitmapWrite (some 8)) s (fun _ s' => Intact s'.trace → GaveBack s 8 n.data s')
      (fun e s' => Intact s'.trace → e = .closeBuffers ∧ s.heap ≠ []) := by
  have hc : ∀ (st : Step) s, decide (Permitted st s) = true → Permitted st s := fun _ _ => of_decide_eq_true
  obtain ⟨h, s, hr, hp⟩ := run_of_replay
    (p := fun _ s => decide (Intact s.trace) && (findInode 8 s.openInodes).any fun n => n.openCnt == 1 && n.removed)
    hc 24 removedOpen (by decide +kernel)
  rw [Bool.and_eq_true, decide_eq_true_eq] at hp
  obtain ⟨n, hn, hlast⟩ := (Option.any_eq_true ..).mp hp.2
  rw [Bool.and_eq_true, beq_iff_eq] at hlast
  obtain ⟨-, -, -, -, -, hclose⟩ := sectors_have_one_owner hr hp.1
  exact ⟨h, s, n, hr, hp.1, hn, hlast.2, hclose 8 n (by decide) hn hlast.1 hlast.2⟩

end

end Pintos.Filesys
