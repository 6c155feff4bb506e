import Pintos.Filesys.PointerProofs

/-! Growing an inode.

The inode is set aside from the tree (`Aside`), new sectors are taken, and the pointer
blocks and the inode are written; then it joins the tree again, with the new sectors after
the old ones (`extend_meets`). If memory or sectors run out, what was taken is given back
and nothing has been written. -/
namespace Pintos.Filesys
open Outcome WriteBack

section
variable {P : Prop} {N : Nat → Option Bytes} {X Y : List Nat} {s s' : Fs} {i j k : Nat} {d e : Bytes}

/-! ### Setting an inode aside -/

theorem update_none_eq_some :
    Function.update N i none j = some e ↔ j ≠ i ∧ N j = some e := by
  grind

theorem update_some_eq_some :
    Function.update N i (some d) j = some e ↔ (j = i ∧ d = e) ∨ (j ≠ i ∧ N j = some e) := by
  grind

/-- The inode `i` and its sectors are apart from the tree; only the inode's own sector is
left open, as it may not have been written yet. -/
structure Aside (P : Prop) (N : Nat → Option Bytes) (i : Nat) (d : Bytes) (X : List Nat) (s : Fs) :
    Prop where
  tree : Tree P N (sectorsOf s.device i d ++ X) s
  absent : N i = none
  length : 0 ≤ InodeDisk.length d ∧ InodeDisk.length d < maxFileSize
  pointers : PointersOk s d
  data : ∀ k ∈ dataSectors s.device d, lastRole s.trace k = none
  clean : P → ∀ k ∈ metaSectors s.device i d, ¬ (s.cell k).Dirty

theorem exists_update_none {S : Nat → Bytes → List Nat} (h : N i = some d) (k : Nat) :
    (∃ j e, N j = some e ∧ k ∈ S j e) ↔
      (∃ j e, Function.update N i none j = some e ∧ k ∈ S j e) ∨ k ∈ S i d := by
  constructor
  · rintro ⟨j, e, hj, hk⟩
    by_cases hji : j = i
    · grind
    · exact .inl ⟨j, e, update_none_eq_some.mpr ⟨hji, hj⟩, hk⟩
  · rintro (⟨j, e, hj, hk⟩ | hk)
    · exact ⟨j, e, (update_none_eq_some.mp hj).2, hk⟩
    · exact ⟨i, d, h, hk⟩

theorem owned_update_none (h : N i = some d) (k : Nat) :
    Owned N s k ↔ Owned (Function.update N i none) s k ∨ k ∈ sectorsOf s.device i d :=
  exists_update_none h k

theorem metaOf_update_none (h : N i = some d) (k : Nat) :
    MetaOf N s k ↔ MetaOf (Function.update N i none) s k ∨ k ∈ metaSectors s.device i d :=
  exists_update_none h k

theorem Tree.aside (h : Tree P N X s) (hN : N i = some d) :
    Aside P (Function.update N i none) i d X s := by
  have hsub : ∀ {j e}, Function.update N i none j = some e → N j = some e := fun hj =>
    (update_none_eq_some.mp hj).2
  have howned := owned_update_none (s := s) hN
  have hmeta := metaOf_update_none (s := s) hN
  refine ⟨⟨h.cache, h.bitCnt, h.small, h.trimmed, h.intact, fun j e hj => h.length j e (hsub hj),
    fun j e hj => h.inode j e (hsub hj), fun j e hj => h.pointers j e (hsub hj),
    fun j e hj => h.nodup j e (hsub hj), fun a b c f ha hc => h.apart a b c f (hsub ha) (hsub hc), ?_, ?_, ?_,
    ?_, ?_⟩, by simp, h.length i d hN, h.pointers i d hN, ?_, ?_⟩
  · exact List.nodup_append'.mpr ⟨h.nodup i d hN, h.taken, fun k hk => h.spare k ⟨i, d, hN, hk⟩⟩
  · rintro k ⟨j, e, hj, hk⟩ hmem
    obtain ⟨hne, hj⟩ := update_none_eq_some.mp hj
    rcases List.mem_append.mp hmem with hi | hX
    · exact h.apart i d j e hN hj hne.symm hi hk
    · exact h.spare k ⟨j, e, hj, hk⟩ hX
  · intro k
    rw [h.used, howned, List.mem_append, or_assoc]
  · intro k hr
    rw [List.mem_append]
    rcases h.roles k hr with hm | hX
    · rcases (hmeta k).mp hm with hm | hm
      · exact .inl hm
      · exact .inr (.inl (mem_sectorsOf.mpr (.inl hm)))
    · exact .inr (.inr hX)
  · exact fun hP k hd => ⟨(h.clean hP k hd).1, fun hm => (h.clean hP k hd).2 ((hmeta k).mpr (.inl hm))⟩
  · exact fun k hk => h.role_data ⟨i, d, hN, hk⟩
  · exact fun hP k hk hd => (h.clean hP k hd).2 ⟨i, d, hN, hk⟩

/-- Written sectors join the tree as the sectors of an inode. -/
theorem Tree.attach (h : Tree P N (Y ++ X) s) (hN : N i = none)
    (hb : Built (· ∈ metaSectors s'.device i d) s s') (hY : (sectorsOf s'.device i d).Perm Y)
    (hlen : 0 ≤ InodeDisk.length d ∧ InodeDisk.length d < maxFileSize)
    (hinode : lastRole s'.trace i = some (.inode, d) ∧ s'.device i = d) (hp : PointersOk s' d)
    (hdata : ∀ k ∈ dataSectors s'.device d, lastRole s'.trace k = none)
    (hclean : P → ∀ k ∈ metaSectors s'.device i d, ¬ (s'.cell k).Dirty) :
    Tree P (Function.update N i (some d)) X s' := by
  obtain ⟨hYn, hXn, hYX⟩ := List.nodup_append'.mp h.taken
  -- What others own is not among the sectors written.
  have hout : ∀ k, Owned N s k → k ∉ sectorsOf s'.device i d := fun k hk hmem =>
    h.spare k hk (List.mem_append_left X (hY.mem_iff.mp hmem))
  have hout' : ∀ k, Owned N s k → k ∉ metaSectors s'.device i d := fun k hk hmem =>
    hout k hk (mem_sectorsOf.mpr (.inl hmem))
  have hkept : ∀ j e, N j = some e → Kept s s' e := fun j e hj =>
    ⟨fun _ => hb.device _ (hout' _ ⟨j, e, hj, mem_sectorsOf.mpr (.inl (mem_metaSectors.mpr (.inr (.inl rfl))))⟩),
      fun k hk => hb.device k (hout' k ⟨j, e, hj, mem_sectorsOf.mpr (.inl (mem_metaSectors.mpr (.inr (.inr hk))))⟩)⟩
  have howned : ∀ k, Owned (Function.update N i (some d)) s' k ↔
      Owned N s k ∨ k ∈ sectorsOf s'.device i d := by
    intro k
    rw [owned_update_none (i := i) (d := d) (by simp), Function.update_idem,
      Function.update_eq_self_iff.mpr hN.symm, owned_congr hkept]
  have hmeta : ∀ k, MetaOf (Function.update N i (some d)) s' k ↔
      MetaOf N s k ∨ k ∈ metaSectors s'.device i d := by
    intro k
    rw [metaOf_update_none (i := i) (d := d) (by simp), Function.update_idem,
      Function.update_eq_self_iff.mpr hN.symm, metaOf_congr hkept]
  refine ⟨hb.cacheOk h.cache, by rw [hb.freeMap, hb.deviceSize, h.bitCnt], hb.deviceSize ▸ h.small,
    hb.freeMap ▸ h.trimmed, hb.intact h.intact, ?_, ?_, ?_, ?_, ?_, hXn, ?_, ?_, ?_, ?_⟩
  · intro j e hj
    rcases update_some_eq_some.mp hj with ⟨rfl, rfl⟩ | ⟨-, hj⟩
    · exact hlen
    · exact h.length j e hj
  · intro j e hj
    rcases update_some_eq_some.mp hj with ⟨rfl, rfl⟩ | ⟨-, hj⟩
    · exact hinode
    · have := hout' j ⟨j, e, hj, self_mem⟩
      rw [hb.role j this, hb.device j this]
      exact h.inode j e hj
  · intro j e hj
    rcases update_some_eq_some.mp hj with ⟨rfl, rfl⟩ | ⟨-, hj⟩
    · exact hp
    · have hm : ∀ k ∈ metaSectors s.device j e, lastRole s'.trace k = lastRole s.trace k := fun k hk =>
        hb.role k (hout' k ⟨j, e, hj, mem_sectorsOf.mpr (.inl hk)⟩)
      have hpe := h.pointers j e hj
      have hke := hkept j e hj
      have hdbl := hm _ (mem_metaSectors.mpr (.inr (.inl rfl)))
      refine ⟨fun hpos => ?_, fun hz => hdbl.trans (hpe.empty hz), fun k hk => ?_⟩
      · rw [hdbl, hke.double hpos, hpe.double hpos]
      · rw [hke.indirectSectors] at hk
        rw [hm k (mem_metaSectors.mpr (.inr (.inr hk))), hke.indirect k hk, hpe.indirect k hk]
  · intro j e hj
    rcases update_some_eq_some.mp hj with ⟨rfl, rfl⟩ | ⟨-, hj⟩
    · exact hY.nodup_iff.mpr hYn
    · rw [(hkept j e hj).sectorsOf j]
      exact h.nodup j e hj
  · intro a b c f ha hc hne k hk hk'
    rcases update_some_eq_some.mp ha with ⟨rfl, rfl⟩ | ⟨-, ha'⟩ <;>
      rcases update_some_eq_some.mp hc with ⟨hci, rfl⟩ | ⟨-, hc'⟩
    · exact hne hci.symm
    · rw [(hkept c f hc').sectorsOf c] at hk'
      exact hout k ⟨c, f, hc', hk'⟩ hk
    · rw [(hkept a b ha').sectorsOf a] at hk
      exact hout k ⟨a, b, ha', hk⟩ (hci ▸ hk')
    · rw [(hkept a b ha').sectorsOf a] at hk
      rw [(hkept c f hc').sectorsOf c] at hk'
      exact h.apart a b c f ha' hc' hne hk hk'
  · intro k hO hX
    rcases (howned k).mp hO with hO | hmem
    · exact h.spare k hO (List.mem_append_right Y hX)
    · exact hYX (hY.mem_iff.mp hmem) hX
  · intro k
    rw [hb.freeMap, h.used, howned, List.mem_append, hY.mem_iff, or_assoc]
  · intro k hr
    by_cases hk : k ∈ metaSectors s'.device i d
    · exact .inl ((hmeta k).mpr (.inr hk))
    · have hr' := hr
      rw [hb.role k hk] at hr'
      rcases h.roles k hr' with hm | hmem
      · exact .inl ((hmeta k).mpr (.inl hm))
      · rcases List.mem_append.mp hmem with hkY | hX
        · have := mem_sectorsOf.mp (hY.mem_iff.mpr hkY)
          exact absurd (hdata k (this.resolve_left hk)) hr
        · exact .inr hX
  · intro hP k hd
    have hk : k ∉ metaSectors s'.device i d := fun hk => hclean hP k hk hd
    obtain ⟨hr, hm⟩ := h.clean hP k ((hb.dirty k).mp hd)
    rw [hb.role k hk, hmeta]
    exact ⟨hr, fun h => h.elim hm hk⟩

/-- While the free map is written, an inode set aside stays as it is. -/
theorem Aside.kept (h : Aside P N i d X s) (hst : Steady N s s') (hi : Intact s'.trace) : Kept s s' d :=
  hst.calm.kept (i := i) hi h.pointers fun k hk hm =>
    h.tree.spare k hm.dataOf.owned (List.mem_append_left X (mem_sectorsOf.mpr (.inl hk)))

theorem Aside.steady (h : Aside P N i d X s) (hst : Steady N s s')
    (ht : Tree P N (sectorsOf s.device i d ++ Y) s') : Aside P N i d Y s' := by
  have hk := h.kept hst ht.intact
  refine ⟨(hk.sectorsOf i).symm ▸ ht, h.absent, h.length, hk.pointersOk h.pointers hst.calm.role, ?_, ?_⟩
  · intro k hmem
    rw [hk.dataSectors] at hmem
    rw [hst.calm.role, h.data k hmem]
  · intro hP k hmem hd
    rw [hk.metaSectors] at hmem
    rcases hst.calm.dirty hd with hd | hm
    · exact h.clean hP k hmem hd
    · exact h.tree.spare k hm.dataOf.owned (List.mem_append_left X (mem_sectorsOf.mpr (.inl hmem)))

/-- The inode joins the tree as it left it. -/
theorem Aside.join (h : Aside P N i d X s) (hi : lastRole s.trace i = some (.inode, d) ∧ s.device i = d) :
    Tree P (Function.update N i (some d)) X s :=
  h.tree.attach h.absent (.refl _ s) (.refl _) h.length hi h.pointers h.data h.clean

/-! ### Taking the sectors -/

theorem freeCnt_le_add (h : Tree P N X s) (hst : Steady N s s') (h' : Tree P N (Y ++ X) s') :
    freeCnt s ≤ freeCnt s' + Y.length := by
  have := freeCnt_le (s := s) (l := (List.range s'.deviceSize).filter (fun k => !s'.freeMap.test k) ++ Y) ?_
  · rwa [List.length_append, ← List.countP_eq_length_filter] at this
  · intro k hk hf
    rw [List.mem_append, List.mem_filter, List.mem_range, hst.calm.deviceSize]
    by_cases hf' : s'.freeMap.test k = true
    · right
      rcases (hst.used h' k).mp hf' with hO | hm
      · simp [(h.used k).mpr (.inl hO)] at hf
      · rcases List.mem_append.mp hm with hY | hX
        · exact hY
        · simp [(h.used k).mpr (.inr hX)] at hf
    · exact .inl ⟨hk, by simpa using hf'⟩

/-- A write past the cache leaves the free-map file alone. -/
theorem Built.synced {M : Nat → Prop} (hb : Built M s s') (hM : ∀ k, M k → ¬ Owned N s k) (hr : Roomy N s)
    (hs : Synced N s) : Synced N s' := by
  have hout : ∀ d, N freeMapSector = some d → ∀ k ∈ sectorsOf s.device freeMapSector d, ¬ M k :=
    fun d hN k hk hMk => hM k hMk ⟨freeMapSector, d, hN, hk⟩
  refine hs.of_drifts hr hb.freeMap (fun d hN => ⟨fun _ => ?_, fun k hk => ?_⟩) ?_
  · exact hb.device _ (hout d hN _ (mem_sectorsOf.mpr (.inl (mem_metaSectors.mpr (.inr (.inl rfl))))))
  · exact hb.device k (hout d hN k (mem_sectorsOf.mpr (.inl (mem_metaSectors.mpr (.inr (.inr hk))))))
  · rintro k ⟨d, hN, hk⟩
    rw [hb.cell (hout d hN k (mem_sectorsOf.mpr (.inr hk)))]
    exact .refl _

/-- What `buildSectors` leaves. -/
structure Filled (P : Prop) (N : Nat → Option Bytes) (i : Nat) (d : Bytes) (X : List Nat) (s : Fs)
    (newSectors newIndirectBlocks : Nat) (ok : Bool) (s' : Fs) : Prop where
  done : ok = true → ∃ m l s1, m.length = newIndirectBlocks ∧ l.length = newSectors ∧
    (∀ k ∈ m ++ l, s.freeMap.test k = false) ∧ Steady N s s1 ∧ Aside P N i d (m ++ l ++ X) s1 ∧
    Committed s1 i d m l s' ∧ (Ready s → Synced N s → Synced N s1)
  failed : ok = false → Steady N s s' ∧ Aside P N i d X s' ∧ (Ready s → Synced N s → Synced N s')
  full : ok = false → s.heap = [] → freeCnt s < newSectors + newIndirectBlocks

theorem allocateIndirect_meets (h : Tree P N X s) (hw : Writable N s) (cnt : Nat) :
    Meets (Spoiled P) (if 0 < cnt then allocateKSectors bitmapWrite cnt else pure (some [])) s
      (TookAll P N X s cnt) (NoMapFile s) := by
  split
  · exact allocateKSectors_meets h hw cnt
  · obtain rfl : cnt = 0 := by omega
    exact meets_pure _ ⟨.refl N s, h, by rintro l ⟨⟩; simp, nofun, fun _ => id⟩

/-- What was taken is given back. -/
theorem giveBack_meets {s1 : Fs} {l : List Nat} {newSectors newIndirectBlocks : Nat}
    (ha : Aside P N i d X s) (hw : Writable N s) (hst : Steady N s s1)
    (ht : Tree P N (l ++ (sectorsOf s.device i d ++ X)) s1) (hl : ∀ k ∈ l, s.freeMap.test k = false)
    (hsync : Ready s → Synced N s → Synced N s1)
    (hfull : s.heap = [] → freeCnt s < newSectors + newIndirectBlocks) :
    Meets (Spoiled P) (do freeBlockSectorArray bitmapWrite l; return false) s1
      (Filled P N i d X s newSectors newIndirectBlocks) (NoMapFile s) := by
  refine Meets.bind (spoiled_sticky P) (Ends.mono (freeBlockSectorArray_meets l ht (hst.writable hw) ?_)
    (fun _ _ => id) fun _ _ => Or.imp_right hst.noMapFile) fun _ s2 hg => ?_
  · intro k hk
    rw [hst.calm.role]
    exact ha.tree.role_free (hl k hk)
  · have hst2 := hst.trans hg.steady
    exact meets_pure _ ⟨nofun, fun _ => ⟨hst2, ha.steady hst2 hg.tree,
      fun hr hs => hg.synced (hst.ready hr) (hsync hr hs)⟩, fun _ => hfull⟩

/-- The sectors on their way can supply the inode. -/
theorem Aside.supply {m l : List Nat} (h : Aside P N i d (m ++ l ++ X) s)
    (hcount : indirectCnt (sectorCnt (InodeDisk.size d) + l.length) =
      indirectCnt (sectorCnt (InodeDisk.size d)) + m.length) : Supply s i d m l := by
  have hsub : List.Sublist (sectorsOf s.device i d ++ (m ++ l)) (sectorsOf s.device i d ++ (m ++ l ++ X)) :=
    List.Sublist.append_left (List.sublist_append_left _ X) _
  exact ⟨h.tree.taken.sublist hsub, fun k hk => h.tree.taken_lt (hsub.mem hk), h.tree.small, hcount⟩

theorem buildSectors_meets (ha : Aside P N i d X s) (hw : Writable N s) {newSectors newIndirectBlocks : Nat}
    (hpos : 0 < newSectors)
    (hcount : indirectCnt (sectorCnt (InodeDisk.size d) + newSectors) =
      indirectCnt (sectorCnt (InodeDisk.size d)) + newIndirectBlocks) :
    Meets (Spoiled P) (buildSectors bitmapWrite (InodeDisk.doubleIndirectBlock d)
        (sectorCnt (InodeDisk.size d)) (indirectCnt (sectorCnt (InodeDisk.size d))) newSectors
        newIndirectBlocks) s
      (Filled P N i d X s newSectors newIndirectBlocks) (NoMapFile s) := by
  unfold buildSectors
  refine Meets.bind (spoiled_sticky P) (allocateIndirect_meets ha.tree hw newIndirectBlocks) fun r s1 hm => ?_
  cases r with
  | none =>
    refine meets_pure _ ⟨nofun, fun _ => ⟨hm.steady, ha.steady hm.steady hm.tree, hm.synced⟩, fun _ hh => ?_⟩
    have := hm.full hh rfl
    omega
  | some m =>
    obtain ⟨hmlen, hmfree⟩ := hm.fresh m rfl
    have hfree := fun k hk => (hmfree k hk).1
    show Meets _ (do let b ← malloc; _) _ _ _
    unfold Meets
    rw [ends_bind]
    refine ends_malloc fun b heap hheap => ?_
    have hst2 : Steady N s {s1 with heap := heap} := hm.steady.trans (.heap fun hh => (hheap hh).2)
    have hsync2 : Ready s → Synced N s → Synced N {s1 with heap := heap} := hm.synced
    have hheap2 : s.heap = [] → b = true := fun hh => (hheap (hm.steady.calm.heap hh)).1
    have ht2 := hm.tree.heap heap
    cases b with
    | false =>
      exact giveBack_meets ha hw hst2 ht2 hfree hsync2 fun hh => absurd (hheap2 hh) nofun
    | true =>
      simp only [Bool.not_true, Bool.false_eq_true, if_false]
      refine Meets.bind (spoiled_sticky P) (Ends.mono (allocateKSectors_meets ht2 (hst2.writable hw) newSectors)
        (fun _ _ => id) fun _ _ => Or.imp_right hst2.noMapFile) fun r s3 hl => ?_
      have hst3 := hst2.trans hl.steady
      have hsync3 : Ready s → Synced N s → Synced N s3 := fun hr hs =>
        hl.synced (hst2.ready hr) (hsync2 hr hs)
      cases r with
      | none =>
        refine giveBack_meets ha hw hst3 hl.tree hfree hsync3 fun hh => ?_
        have hlt := hl.full (hst2.calm.heap hh) rfl
        have hle := freeCnt_le_add ha.tree hst2 ht2
        grind
      | some l =>
        obtain ⟨hllen, hlfree⟩ := hl.fresh l rfl
        have hlfree' : ∀ k ∈ l, s.freeMap.test k = false := fun k hk =>
          hst2.free_of_free ha.tree ht2 (hlfree k hk).1
        show Meets _ (do let b ← malloc; _) _ _ _
        unfold Meets
        rw [ends_bind]
        refine ends_malloc fun b heap' hheap' => ?_
        have hst4 : Steady N s {s3 with heap := heap'} := hst3.trans (.heap fun hh => (hheap' hh).2)
        have ht4 := hl.tree.heap heap'
        have hsync4 : Ready s → Synced N s → Synced N {s3 with heap := heap'} := hsync3
        cases b with
        | false =>
          have hroles : ∀ k ∈ l, lastRole s3.trace k = none := fun k hk => by
            rw [hst3.calm.role]
            exact ha.tree.role_free (hlfree' k hk)
          refine Meets.bind (spoiled_sticky P) (Ends.mono (freeBlockSectorArray_meets l ht4
            (hst4.writable hw) hroles) (fun _ _ => id) fun _ _ => Or.imp_right hst4.noMapFile) fun _ s5 hg => ?_
          exact giveBack_meets ha hw (hst4.trans hg.steady) hg.tree hfree
            (fun hr hs => hg.synced (hst4.ready hr) (hsync4 hr hs))
            fun hh => absurd (hheap' (hst3.calm.heap hh)).1 nofun
        | true =>
          have hperm : (l ++ (m ++ (sectorsOf s.device i d ++ X))).Perm
              (sectorsOf s.device i d ++ (m ++ l ++ X)) := by
            grind
          have ha4 : Aside P N i d (m ++ l ++ X) {s3 with heap := heap'} :=
            ha.steady hst4 (ht4.perm hperm)
          simp only [Bool.not_true, Bool.false_eq_true, if_false]
          refine Meets.bind (spoiled_sticky P) (Ends.meets (enterBlocks_ends (ha4.supply
            (by rw [hllen, hmlen, hcount])) ha4.pointers (by rintro rfl; simp at hllen; omega))) fun _ s5 hc => ?_
          have hall : ∀ k ∈ m ++ l, s.freeMap.test k = false := fun k hk =>
            (List.mem_append.mp hk).elim (hfree k) (hlfree' k)
          exact meets_pure _ ⟨fun _ => ⟨m, l, _, hmlen, hllen, hall, hst4, ha4, hc, hsync4⟩, nofun, nofun⟩

/-! ### Growing -/

/-- Nothing to enter. -/
theorem committed_nil (hp : PointersOk s d) : Committed s i d [] [] s := by
  have hind : ∀ d', InodeDisk.doubleIndirectBlock d' = InodeDisk.doubleIndirectBlock d →
      sectorCnt (InodeDisk.size d') = sectorCnt (InodeDisk.size d) →
      indirectSectors s.device d' = indirectSectors s.device d := by
    intro d' hd hn
    unfold indirectSectors indirectSector
    rw [hn, hd]
  refine ⟨.refl _ s, fun d' hd hn => by rw [hind d' hd hn, List.append_nil], fun d' hd hn => ?_,
    fun d' hd hn => ⟨fun hpos => ?_, fun hz => ?_, fun k hk => ?_⟩⟩
  · unfold dataSectors dataSector indirectSector
    rw [hn, hd, List.append_nil]
    rfl
  · rw [hd]
    exact hp.double (by rwa [hn] at hpos)
  · rw [hd]
    exact hp.empty (by rwa [hn] at hz)
  · exact hp.indirect k (hind d' hd hn ▸ hk)

/-- The inode has the sectors `m` and `l` on top of its own, taken in `s1`. -/
structure Joined (P : Prop) (N : Nat → Option Bytes) (i : Nat) (d d' : Bytes) (X m l : List Nat) (s1 s' : Fs) :
    Prop where
  tree : Tree P (Function.update N i (some d')) X s'
  built : Built (· ∈ metaSectors s'.device i d') s1 s'
  indirect : indirectSectors s'.device d' = indirectSectors s1.device d ++ m
  data : dataSectors s'.device d' = dataSectors s1.device d ++ l

/-- Only the inode's own blocks have been written. -/
theorem Joined.mem {d' : Bytes} {m l : List Nat} {s1 : Fs} (h : Joined P N i d d' X m l s1 s')
    (hdib : InodeDisk.doubleIndirectBlock d' = InodeDisk.doubleIndirectBlock d)
    (hk : k ∈ metaSectors s'.device i d') : k ∈ sectorsOf s1.device i d ++ (m ++ l ++ X) := by
  rw [mem_metaSectors, h.indirect, hdib, List.mem_append, ← or_assoc, ← or_assoc, or_assoc (a := k = i),
    ← mem_metaSectors] at hk
  rcases hk with hk | hk
  · exact List.mem_append_left _ (mem_sectorsOf.mpr (.inl hk))
  · simp [hk]

/-- The inode is written after its pointer blocks. -/
theorem Aside.joined {d' : Bytes} {m l : List Nat} {s1 s2 : Fs} (h : Aside P N i d (m ++ l ++ X) s1)
    (hc : Committed s1 i d m l s2) (hnew : ∀ k ∈ m ++ l, lastRole s1.trace k = none)
    (hdirty : P → ∀ k ∈ m ++ l, ¬ (s1.cell k).Dirty)
    (hdib : InodeDisk.doubleIndirectBlock d' = InodeDisk.doubleIndirectBlock d)
    (hcnt : sectorCnt (InodeDisk.size d') = sectorCnt (InodeDisk.size d) + l.length)
    (hlen : 0 ≤ InodeDisk.length d' ∧ InodeDisk.length d' < maxFileSize) :
    Joined P N i d d' X m l s1 (s2.put .inode i d') := by
  have hind2 := hc.indirect d' hdib hcnt
  have hdata2 := hc.data d' hdib hcnt
  have hput : Built (· = i) s2 (s2.put .inode i d') := built_put s2 rfl i d'
  have hperm2 : (sectorsOf s2.device i d').Perm (sectorsOf s1.device i d ++ (m ++ l)) := by
    unfold sectorsOf metaSectors
    grind
  have hnd : (sectorsOf s2.device i d').Nodup := by
    rw [hperm2.nodup_iff]
    refine List.Nodup.sublist ?_ h.tree.taken
    exact List.Sublist.append_left (List.sublist_append_left _ X) _
  -- The inode's sector is none of its pointer blocks.
  have hne : ∀ k, k = InodeDisk.doubleIndirectBlock d' ∨ k ∈ indirectSectors s2.device d' → k ≠ i := by
    rintro k hk rfl
    refine (List.nodup_cons.mp hnd).1 (List.mem_append_left _ ?_)
    grind
  have hkept : Kept s2 (s2.put .inode i d') d' :=
    ⟨fun _ => hput.device _ (hne _ (.inl rfl)), fun k hk => hput.device k (hne k (.inr hk))⟩
  have hp2 := hc.pointers d' hdib hcnt
  have hwritten : ∀ k, k = InodeDisk.doubleIndirectBlock d ∨ k ∈ indirectSectors s1.device d ++ m →
      k ∈ metaSectors (s2.put .inode i d').device i d' := by
    intro k hk
    rw [hkept.metaSectors, mem_metaSectors, hdib, hind2]
    exact .inr hk
  have hbuilt : Built (· ∈ metaSectors (s2.put .inode i d').device i d') s1 (s2.put .inode i d') :=
    (hc.built.mono hwritten).trans (hput.mono fun k hk => hk ▸ mem_metaSectors.mpr (.inl rfl))
  have hdataout : ∀ k ∈ dataSectors (s2.put .inode i d').device d',
      k ∉ metaSectors (s2.put .inode i d').device i d' := by
    intro k hk hk'
    rw [hkept.dataSectors] at hk
    rw [hkept.metaSectors] at hk'
    exact List.disjoint_of_nodup_append hnd hk' hk
  refine ⟨?_, hbuilt, hkept.indirectSectors.trans hind2, hkept.dataSectors.trans hdata2⟩
  have htree : Tree P N (sectorsOf s1.device i d ++ (m ++ l) ++ X) s1 := by
    have := h.tree
    rwa [List.append_assoc (sectorsOf s1.device i d)]
  refine htree.attach h.absent hbuilt ((hkept.sectorsOf i).symm ▸ hperm2) hlen ⟨?_, ?_⟩ ?_ ?_ ?_
  · simp [Fs.put, lastRole_write, Writer.isMeta]
  · simp [Fs.put]
  · refine ⟨fun hpos => ?_, fun hz => ?_, fun k hk => ?_⟩
    · rw [hput.role _ (hne _ (.inl rfl)), hkept.double hpos, hp2.double hpos]
    · rw [hput.role _ (hne _ (.inl rfl)), hp2.empty hz]
    · rw [hkept.indirectSectors] at hk
      rw [hput.role k (hne k (.inr hk)), hkept.indirect k hk, hp2.indirect k hk]
  · intro k hk
    rw [hbuilt.role k (hdataout k hk)]
    rw [hkept.dataSectors, hdata2, List.mem_append] at hk
    rcases hk with hk | hk
    · exact h.data k hk
    · exact hnew k (List.mem_append_right m hk)
  · intro hP k hk hd
    rw [hbuilt.dirty] at hd
    rw [hkept.metaSectors, mem_metaSectors, hdib, hind2, List.mem_append] at hk
    rcases hk with hk | hk | hk | hk
    · exact h.clean hP k (mem_metaSectors.mpr (.inl hk)) hd
    · exact h.clean hP k (mem_metaSectors.mpr (.inr (.inl hk))) hd
    · exact h.clean hP k (mem_metaSectors.mpr (.inr (.inr hk))) hd
    · exact hdirty hP k (List.mem_append_left l hk) hd

/-- The data sectors and the indirect blocks that a new size asks for. -/
def newSectors (d : Bytes) (size : Nat) : Nat := sectorCnt size - sectorCnt (InodeDisk.size d)
def newIndirectBlocks (d : Bytes) (size : Nat) : Nat :=
  indirectCnt (sectorCnt size) - indirectCnt (sectorCnt (InodeDisk.size d))

/-- The new sectors are taken and entered, if there are any. -/
theorem fill_meets (ha : Aside P N i d X s) (hw : Writable N s) {size : Nat} (hle : InodeDisk.size d ≤ size) :
    Meets (Spoiled P) (if newSectors d size = 0 then pure true else
        buildSectors bitmapWrite (InodeDisk.doubleIndirectBlock d) (sectorCnt (InodeDisk.size d))
          (indirectCnt (sectorCnt (InodeDisk.size d))) (newSectors d size) (newIndirectBlocks d size)) s
      (Filled P N i d X s (newSectors d size) (newIndirectBlocks d size)) (NoMapFile s) := by
  have hcnt := sectorCnt_mono hle
  have hicnt := indirectCnt_mono hcnt
  split
  · rename_i hz
    have hsame : sectorCnt size = sectorCnt (InodeDisk.size d) := by
      rw [newSectors] at hz
      omega
    refine meets_pure _ ⟨fun _ => ⟨[], [], s, ?_, by simpa using hz.symm, by simp, .refl N s, ha,
      committed_nil ha.pointers, fun _ => id⟩, nofun, nofun⟩
    simp [newIndirectBlocks, hsame]
  · rename_i hz
    refine buildSectors_meets ha hw (by omega) ?_
    rw [newSectors, newIndirectBlocks, Nat.add_sub_cancel' hcnt, Nat.add_sub_cancel' hicnt]

/-- A size from the length on: the new sectors, then the inode. -/
theorem extend_fills (bitmapWrite : FsM Bool) (h0 : 0 ≤ InodeDisk.length d) {size : Nat}
    (hle : InodeDisk.size d ≤ size) (hmax : size < maxFileSize) {z : Int} (hz : (size : Int) = z)
    {Q : Bool × Bytes → Fs → Prop} {E : Panic → Fs → Prop}
    (h : Ends (if newSectors d size = 0 then pure true else
        buildSectors bitmapWrite (InodeDisk.doubleIndirectBlock d) (sectorCnt (InodeDisk.size d))
          (indirectCnt (sectorCnt (InodeDisk.size d))) (newSectors d size) (newIndirectBlocks d size)) s
      (fun ok s' => if ok then Ends (blockWrite .inode i (InodeDisk.setLength d z)) s'
          (fun _ => Q (true, InodeDisk.setLength d z)) E else Q (false, d) s') E) :
    Ends (extendInodeDiskToSize bitmapWrite i d z) s Q E := by
  have hz2 := bytesToSectors_cast size
  rw [hz] at hz2
  have hlength : InodeDisk.length d = (InodeDisk.size d : Int) := by
    rw [InodeDisk.size]
    omega
  have hcnt := sectorCnt_mono hle
  have hicnt := indirectCnt_mono hcnt
  have hz1 : bytesToSectors (InodeDisk.length d) = (sectorCnt (InodeDisk.size d) : Int) := by
    rw [hlength, bytesToSectors_cast]
  unfold extendInodeDiskToSize
  simp only [ends_bind]
  rw [ends_check (by simp only [decide_eq_true_eq]; omega), ends_check (by simp only [decide_eq_true_eq]; omega),
    if_neg (by omega), hz1, hz2, sectorsToIndirectBlocks_cast, sectorsToIndirectBlocks_cast]
  simp only [ends_bind]
  rw [ends_check (by simp only [decide_eq_true_eq]; omega), ends_check (by simp only [decide_eq_true_eq]; omega)]
  have hn : (sectorCnt size : Int) - sectorCnt (InodeDisk.size d) = newSectors d size := by
    rw [newSectors]
    omega
  have hni : (indirectCnt (sectorCnt size) : Int) - indirectCnt (sectorCnt (InodeDisk.size d)) =
      newIndirectBlocks d size := by
    rw [newIndirectBlocks]
    omega
  simp only [hn, hni, Int.toNat_natCast, Int.natCast_eq_zero]
  refine h.imp ?_
  intro ok s' hok
  cases ok with
  | false => exact hok
  | true =>
    simp only [if_true, ends_bind] at hok ⊢
    exact hok

/-- What `extend_inode_disk_to_size` leaves of an inode that was set aside. -/
structure Grew (P : Prop) (N : Nat → Option Bytes) (i : Nat) (d : Bytes) (X : List Nat) (s : Fs) (size : Nat)
    (r : Bool × Bytes) (s' : Fs) : Prop where
  done : r.1 = true → r.2 = InodeDisk.setLength d size ∧ ∃ m l s1,
    m.length = newIndirectBlocks d size ∧ l.length = newSectors d size ∧
    (∀ k ∈ m ++ l, s.freeMap.test k = false) ∧ Steady N s s1 ∧ Aside P N i d (m ++ l ++ X) s1 ∧
    Joined P N i d r.2 X m l s1 s'
  failed : r.1 = false → r.2 = d ∧ Steady N s s' ∧ Aside P N i d X s'
  full : r.1 = false → s.heap = [] → freeCnt s < newSectors d size + newIndirectBlocks d size
  synced : Ready s → Synced N s → Synced N s'

theorem extend_meets (ha : Aside P N i d X s) (hw : Writable N s) {size : Nat}
    (hfc : P → newSectors d size = 0 ∨ FreeClean s) (hle : InodeDisk.size d ≤ size) (hmax : size < maxFileSize) {z : Int} (hz : (size : Int) = z) :
    Meets (Spoiled P) (extendInodeDiskToSize bitmapWrite i d z) s (Grew P N i d X s size)
      (NoMapFile s) := by
  have hi : i < s.deviceSize := ha.tree.taken_lt (List.mem_append_left _ self_mem)
  have hcnt := sectorCnt_mono hle
  refine extend_fills bitmapWrite ha.length.1 hle hmax hz (Ends.mono (fill_meets ha hw hle) ?_ fun _ _ => id)
  rintro ok s2 (hbad | hf)
  · cases ok with
    | false => exact .inl hbad
    | true => exact meets_of_bad (spoiled_sticky P) hbad
  cases ok with
  | false =>
    obtain ⟨hst, ha2, hsync⟩ := hf.failed rfl
    exact .inr ⟨(by simp), fun _ => ⟨rfl, hst, ha2⟩, fun _ => hf.full rfl, hsync⟩
  | true =>
    obtain ⟨m, l, s1, hm, hl, hfree, hst, ha1, hc, hsync⟩ := hf.done rfl
    have hi2 : i < s2.deviceSize := by rwa [hc.built.deviceSize, hst.calm.deviceSize]
    simp only [if_true]
    rw [ends_blockWrite hi2]
    have hdib := InodeDisk.doubleIndirectBlock_setLength d z
    have hclean : P → ∀ k ∈ m ++ l, ¬ (s1.cell k).Dirty := by
      intro hP k hk hd
      rcases hst.calm.dirty hd with hd | hmap
      · rcases hfc hP with h0 | hfc
        · have hsame : newIndirectBlocks d size = 0 := by
            rw [newSectors] at h0
            rw [newIndirectBlocks, Nat.le_antisymm (Nat.sub_eq_zero_iff_le.mp h0) hcnt, Nat.sub_self]
          rw [List.length_eq_zero_iff.mp (hm.trans hsame), List.length_eq_zero_iff.mp (hl.trans h0)] at hk
          cases hk
        · exact hfc k (hfree k hk) hd
      · have := (ha.tree.used k).mpr (.inl hmap.dataOf.owned)
        simp [hfree k hk] at this
    have hsize : InodeDisk.size (InodeDisk.setLength d z) = size := by
      rw [InodeDisk.size_setLength d (by omega) (by omega)]
      omega
    have hlen' : 0 ≤ InodeDisk.length (InodeDisk.setLength d z) ∧
        InodeDisk.length (InodeDisk.setLength d z) < maxFileSize := by
      rw [InodeDisk.length_setLength d (by omega) (by omega)]
      omega
    have hj : Joined P N i d (InodeDisk.setLength d z) X m l s1 (s2.put .inode i (InodeDisk.setLength d z)) := ha1.joined hc
      (fun k hk => by rw [hst.calm.role]; exact ha.tree.role_free (hfree k hk)) hclean hdib
      (by rw [hsize, hl, newSectors]; omega) hlen'
    refine .inr ⟨fun _ => ⟨hz ▸ rfl, m, l, s1, hm, hl, hfree, hst, ha1, hj⟩, (by simp), (by simp), fun hr hs => ?_⟩
    obtain ⟨n, hmap⟩ := (hst.writable hw).resolve_left (hst.ready hr).2
    exact hj.built.synced (fun k hk hO => ha1.tree.spare k hO (hj.mem hdib hk)) hmap.roomy (hsync hr hs)

/-! ### Creating -/

/-- The inode `inode_create` extends. -/
def newInode (isDir : Bool) (block : Nat) : Bytes := InodeDisk.setDoubleIndirectBlock (InodeDisk.fresh isDir) block

theorem size_newInode (isDir : Bool) (block : Nat) : InodeDisk.size (newInode isDir block) = 0 := by
  rw [InodeDisk.size, newInode, InodeDisk.length_fresh]
  rfl

theorem indirectSectors_newInode (dev : Nat → Bytes) (isDir : Bool) (block : Nat) :
    indirectSectors dev (newInode isDir block) = [] := by
  rw [indirectSectors, size_newInode]
  rfl

theorem dataSectors_newInode (dev : Nat → Bytes) (isDir : Bool) (block : Nat) :
    dataSectors dev (newInode isDir block) = [] := by
  rw [dataSectors, size_newInode]
  rfl

theorem metaSectors_newInode (dev : Nat → Bytes) (i : Nat) (isDir : Bool) {block : Nat} (h : block < 2 ^ 32) :
    metaSectors dev i (newInode isDir block) = [i, block] := by
  rw [metaSectors, indirectSectors_newInode, newInode, InodeDisk.doubleIndirectBlock_fresh isDir h]

theorem sectorsOf_newInode (dev : Nat → Bytes) (i : Nat) (isDir : Bool) {block : Nat} (h : block < 2 ^ 32) :
    sectorsOf dev i (newInode isDir block) = [i, block] := by
  rw [sectorsOf, metaSectors_newInode dev i isDir h, dataSectors_newInode]
  rfl

/-- A sector and a block that do not serve make an empty inode. -/
theorem Tree.newAside {block : Nat} (h : Tree P N (block :: i :: X) s) (isDir : Bool)
    (hrole : ∀ k ∈ [i, block], lastRole s.trace k = none) (hclean : P → ∀ k ∈ [i, block], ¬ (s.cell k).Dirty) :
    Aside P N i (newInode isDir block) X s := by
  have hb : block < 2 ^ 32 := Nat.lt_of_lt_of_le (h.taken_lt List.mem_cons_self) h.small
  refine ⟨?_, ?_, ?_, ⟨fun hpos => ?_, fun _ => ?_, fun k hk => ?_⟩, ?_, ?_⟩
  · rw [sectorsOf_newInode _ _ _ hb]
    exact h.perm (.swap i block X)
  · by_contra hne
    obtain ⟨d, hd⟩ := Option.ne_none_iff_exists'.mp hne
    exact h.spare i ⟨i, d, hd, self_mem⟩ (by simp)
  · rw [newInode, InodeDisk.length_fresh]
    exact ⟨Int.le_refl 0, by decide⟩
  · rw [size_newInode] at hpos
    exact absurd hpos (by decide)
  · rw [newInode, InodeDisk.doubleIndirectBlock_fresh isDir hb]
    exact hrole block (by simp)
  · rw [indirectSectors_newInode] at hk
    cases hk
  · intro k hk
    rw [dataSectors_newInode] at hk
    cases hk
  · intro hP k hk
    rw [metaSectors_newInode _ _ _ hb] at hk
    exact hclean hP k hk

/-- What `inode_create` leaves. -/
structure Created (P : Prop) (N : Nat → Option Bytes) (i : Nat) (X : List Nat) (s : Fs) (length : Nat)
    (isDir : Bool) (ok : Bool) (s' : Fs) : Prop where
  done : ok = true → ∃ d s1, InodeDisk.size d = length ∧ InodeDisk.isDir d = isDir ∧
    (∀ k ∈ sectorsOf s'.device i d, k = i ∨ s.freeMap.test k = false) ∧ Steady N s s1 ∧
    Built (· ∈ metaSectors s'.device i d) s1 s' ∧ Tree P (Function.update N i (some d)) X s'
  failed : ok = false → Steady N s s' ∧ Tree P N (i :: X) s'
  full : ok = false → s.heap = [] → freeCnt s < blockCnt length + 1
  synced : Ready s → Synced N s → Synced N s'

theorem inodeCreate_meets (h : Tree P N (i :: X) s) (hw : Writable N s) (hfc : P → FreeClean s)
    (hrole : lastRole s.trace i = none) (hclean : P → ¬ (s.cell i).Dirty) {length : Nat}
    (hmax : length < maxFileSize) {z : Int} (hz : (length : Int) = z) (isDir : Bool) :
    Meets (Spoiled P) (inodeCreate bitmapWrite i z isDir) s (Created P N i X s length isDir)
      (NoMapFile s) := by
  unfold inodeCreate Meets
  simp only [ends_bind]
  rw [ends_check (by simp only [decide_eq_true_eq]; omega)]
  refine ends_malloc fun b heap hheap => ?_
  have hst0 : Steady N s {s with heap := heap} := .heap fun hh => (hheap hh).2
  cases b with
  | false =>
    exact .inr ⟨(by simp), fun _ => ⟨hst0, h.heap heap⟩, fun _ hh => absurd (hheap hh).1 (by simp),
      fun hr => absurd (hheap hr.1).1 (by simp)⟩
  | true =>
    simp only [Bool.not_true, Bool.false_eq_true, if_false]
    refine Meets.bind (spoiled_sticky P) (Ends.mono (freeMapAllocate_meets (h.heap heap) (hst0.writable hw))
      (fun _ _ => id) fun _ _ => Or.imp_right False.elim) fun r s1 ht => ?_
    have hst1 := hst0.trans ht.steady
    have hsync1 : Ready s → Synced N s → Synced N s1 := fun hr hs => ht.synced (hst0.ready hr) hs
    cases r with
    | none =>
      refine meets_pure _ ⟨(by simp), fun _ => ⟨hst1, ht.tree⟩, fun _ hh => ?_, hsync1⟩
      have := freeCnt_le (s := s) (l := []) fun k hk hf => by
        have := ht.full (hst0.calm.heap hh) rfl k hk
        simp [hf] at this
      grind
    | some block =>
      obtain ⟨hfree, hlt⟩ := ht.fresh block rfl
      have hb : block < 2 ^ 32 := Nat.lt_of_lt_of_le hlt h.small
      have hmap : ∀ k, s.freeMap.test k = false ∨ k = i → ¬ MapData N s k := by
        rintro k (hk | rfl) hm
        · have := (h.used k).mpr (.inl hm.dataOf.owned)
          simp [hk] at this
        · exact h.spare k hm.dataOf.owned List.mem_cons_self
      have ha : Aside P N i (newInode isDir block) X s1 := by
        refine Tree.newAside ht.tree isDir (fun k hk => ?_) fun hP k hk hd => ?_
        · rw [hst1.calm.role]
          rcases List.mem_pair.mp hk with rfl | rfl
          · exact hrole
          · exact h.role_free hfree
        · rcases List.mem_pair.mp hk with rfl | rfl
          · exact hclean hP ((hst1.calm.dirty hd).resolve_right (hmap k (.inr rfl)))
          · exact hfc hP k hfree ((hst1.calm.dirty hd).resolve_right (hmap k (.inl hfree)))
      have hfc1 : P → FreeClean s1 := fun hP => (hfc hP).steady (Y := [block]) hst1 h ht.tree
      refine Meets.bind (spoiled_sticky P) (Ends.mono (extend_meets ha (hst1.writable hw) (fun hP => .inr (hfc1 hP))
        (by rw [size_newInode]; omega) hmax hz) (fun _ _ => id)
        fun _ _ => Or.imp_right hst1.noMapFile) fun r s2 hg => ?_
      obtain ⟨ok, d⟩ := r
      cases ok with
      | true =>
        obtain ⟨hd, m, l, s3, -, -, hml, hst3, -, hj⟩ := hg.done rfl
        have hd : d = InodeDisk.setLength (newInode isDir block) length := hd
        have hfree' : ∀ k ∈ m ++ l, s.freeMap.test k = false := fun k hk =>
          hst1.free_of_free (Y := [block]) h ht.tree (hml k hk)
        have hind : indirectSectors s2.device d = m := by
          rw [hj.indirect, indirectSectors_newInode, List.nil_append]
        have hdata : dataSectors s2.device d = l := by
          rw [hj.data, dataSectors_newInode, List.nil_append]
        refine .inr ⟨fun _ => ⟨d, s3, ?_, ?_, fun k hk => ?_, hst1.trans hst3, hj.built, hj.tree⟩, (by simp), (by simp),
          fun hr hs => hg.synced (hst1.ready hr) (hsync1 hr hs)⟩
        · rw [hd, InodeDisk.size_setLength _ (by omega) (by omega), Int.toNat_natCast]
        · rw [hd, InodeDisk.isDir_setLength, newInode, InodeDisk.isDir_fresh]
        · rw [mem_sectorsOf, mem_metaSectors, hind, hdata, hd, InodeDisk.doubleIndirectBlock_setLength, newInode,
            InodeDisk.doubleIndirectBlock_fresh isDir hb] at hk
          rcases hk with (rfl | rfl | hk) | hk
          · exact .inl rfl
          · exact .inr hfree
          · exact .inr (hfree' k (List.mem_append_left l hk))
          · exact .inr (hfree' k (List.mem_append_right m hk))
      | false =>
        obtain ⟨-, hst2, ha2⟩ := hg.failed rfl
        have ht2 : Tree P N (block :: i :: X) s2 := by
          have := ha2.tree
          rw [sectorsOf_newInode _ _ _ hb] at this
          exact this.perm (.swap block i X)
        have hst2' := hst1.trans hst2
        simp only [Bool.not_false, whenever, if_true]
        refine Meets.bind (spoiled_sticky P) (Ends.mono (freeMapRelease_meets ht2 (hst2'.writable hw))
          (fun _ _ => id) fun _ _ => Or.imp_right hst2'.noMapFile) fun _ s3 hgave => ?_
        have hst3 : Steady N s s3 := hst2'.trans ((steady_released (by
          rw [hst2'.calm.role]
          exact h.role_free hfree)).trans hgave.steady)
        refine meets_pure _ ⟨(by simp), fun _ => ⟨hst3, hgave.tree⟩, fun _ hh => ?_,
          fun hr _ => hgave.synced (hst2'.calm.heap hr.1)⟩
        have hlt := hg.full rfl (hst1.calm.heap hh)
        have hle := freeCnt_le_add (Y := [block]) h hst1 ht.tree
        simp only [newSectors, newIndirectBlocks, size_newInode, List.length_singleton] at hlt hle
        have h0 : sectorCnt 0 = 0 ∧ indirectCnt (sectorCnt 0) = 0 := by decide
        rw [blockCnt]
        omega

end

end Pintos.Filesys
