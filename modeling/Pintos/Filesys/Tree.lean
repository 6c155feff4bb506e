import Pintos.Filesys.Blocks
import Pintos.Filesys.CacheProofs
import Pintos.Kernel.BitmapProofs

/-! The invariant of the inode layer.

`Tree P N X s` says that the inodes of `N` own their sectors on the device of `s`: the
pointer blocks are what the inode layer last wrote, no sector has two owners, and the
free map marks exactly the owned sectors and the sectors of `X`, which are on their way
from the free map to an inode or back.

The cache can spoil a pointer block by writing an old dirty copy over it. Under `P` there
are no dirty copies of such sectors, so this does not happen; without `P` a run may end up
`Spoiled`, and what is proved is proved up to that. -/
namespace Pintos.Filesys
open Outcome WriteBack

/-- A write-back has hit a serving sector. -/
def Spoiled (P : Prop) (s : Fs) : Prop := ¬ P ∧ ¬ Intact s.trace

theorem spoiled_sticky (P : Prop) : Sticky Grows (Spoiled P) := by
  rintro s s' ⟨ev, hev⟩ ⟨hP, hi⟩
  exact ⟨hP, fun hi' => hi (intact_of_append (hev ▸ hi'))⟩

/-- The pointer blocks of an inode hold what was last written to them. -/
structure PointersOk (s : Fs) (d : Bytes) : Prop where
  double : 0 < sectorCnt (InodeDisk.size d) → lastRole s.trace (InodeDisk.doubleIndirectBlock d) =
    some (.doubleIndirect, s.device (InodeDisk.doubleIndirectBlock d))
  empty : sectorCnt (InodeDisk.size d) = 0 → lastRole s.trace (InodeDisk.doubleIndirectBlock d) = none
  indirect : ∀ k ∈ indirectSectors s.device d, lastRole s.trace k = some (.indirect, s.device k)

/-- The sector belongs to an inode. -/
def Owned (N : Nat → Option Bytes) (s : Fs) (k : Nat) : Prop :=
  ∃ i d, N i = some d ∧ k ∈ sectorsOf s.device i d

/-- The sector holds data of an inode. -/
def DataOf (N : Nat → Option Bytes) (s : Fs) (k : Nat) : Prop :=
  ∃ i d, N i = some d ∧ k ∈ dataSectors s.device d

/-- The sector is an inode or a pointer block. -/
def MetaOf (N : Nat → Option Bytes) (s : Fs) (k : Nat) : Prop :=
  ∃ i d, N i = some d ∧ k ∈ metaSectors s.device i d

structure Tree (P : Prop) (N : Nat → Option Bytes) (X : List Nat) (s : Fs) : Prop where
  cache : CacheOk s
  bitCnt : s.freeMap.bitCnt = s.deviceSize
  small : s.deviceSize ≤ 2 ^ 32
  trimmed : s.freeMap.Trimmed
  intact : Intact s.trace
  length : ∀ i d, N i = some d → 0 ≤ InodeDisk.length d ∧ InodeDisk.length d < maxFileSize
  inode : ∀ i d, N i = some d → lastRole s.trace i = some (.inode, d) ∧ s.device i = d
  pointers : ∀ i d, N i = some d → PointersOk s d
  nodup : ∀ i d, N i = some d → (sectorsOf s.device i d).Nodup
  apart : ∀ i d j e, N i = some d → N j = some e → i ≠ j →
    (sectorsOf s.device i d).Disjoint (sectorsOf s.device j e)
  taken : X.Nodup
  spare : ∀ k, Owned N s k → k ∉ X
  used : ∀ k, s.freeMap.test k = true ↔ Owned N s k ∨ k ∈ X
  roles : ∀ k, lastRole s.trace k ≠ none → MetaOf N s k ∨ k ∈ X
  clean : P → ∀ k, (s.cell k).Dirty → lastRole s.trace k = none ∧ ¬ MetaOf N s k

/-- No free sector has a dirty copy. -/
def FreeClean (s : Fs) : Prop := ∀ k, s.freeMap.test k = false → ¬ (s.cell k).Dirty

section
variable {P : Prop} {N : Nat → Option Bytes} {X Y : List Nat} {s s' : Fs} {i j k : Nat} {d e : Bytes}

theorem MetaOf.owned (h : MetaOf N s k) : Owned N s k := by
  obtain ⟨i, d, hN, hk⟩ := h
  exact ⟨i, d, hN, mem_sectorsOf.mpr (.inl hk)⟩

theorem DataOf.owned (h : DataOf N s k) : Owned N s k := by
  obtain ⟨i, d, hN, hk⟩ := h
  exact ⟨i, d, hN, mem_sectorsOf.mpr (.inr hk)⟩

namespace Tree

theorem used_lt (h : Tree P N X s) (hk : s.freeMap.test k = true) : k < s.deviceSize := by
  by_contra hge
  have := h.trimmed k (by rw [h.bitCnt]; omega)
  simp [this] at hk

theorem owned_lt (h : Tree P N X s) (hk : Owned N s k) : k < s.deviceSize :=
  h.used_lt ((h.used k).mpr (.inl hk))

theorem taken_lt (h : Tree P N X s) (hk : k ∈ X) : k < s.deviceSize :=
  h.used_lt ((h.used k).mpr (.inr hk))

/-- One sector, one owner. -/
theorem owner_unique (h : Tree P N X s) (hi : N i = some d) (hj : N j = some e)
    (hk : k ∈ sectorsOf s.device i d) (hk' : k ∈ sectorsOf s.device j e) : i = j := by
  by_contra hne
  exact h.apart i d j e hi hj hne hk hk'

theorem not_meta_of_data (h : Tree P N X s) (hk : DataOf N s k) : ¬ MetaOf N s k := by
  rintro ⟨j, e, hj, hm⟩
  obtain ⟨i, d, hi, hd⟩ := hk
  obtain rfl := h.owner_unique hi hj (mem_sectorsOf.mpr (.inr hd)) (mem_sectorsOf.mpr (.inl hm))
  obtain rfl : d = e := Option.some.inj (hi.symm.trans hj)
  exact List.disjoint_of_nodup_append (h.nodup i d hi) hm hd

theorem role_data (h : Tree P N X s) (hk : DataOf N s k) : lastRole s.trace k = none := by
  by_contra hr
  rcases h.roles k hr with hm | hX
  · exact h.not_meta_of_data hk hm
  · exact h.spare k hk.owned hX

theorem role_free (h : Tree P N X s) (hk : s.freeMap.test k = false) :
    lastRole s.trace k = none := by
  by_contra hr
  have : s.freeMap.test k = true := (h.used k).mpr ((h.roles k hr).imp_left MetaOf.owned)
  simp [this] at hk

theorem perm (h : Tree P N X s) (hp : X.Perm Y) : Tree P N Y s :=
  {h with
    taken := hp.nodup_iff.mp h.taken
    spare := fun k hk hY => h.spare k hk (hp.mem_iff.mpr hY)
    used := fun k => by rw [h.used, hp.mem_iff]
    roles := fun k hr => (h.roles k hr).imp_right hp.mem_iff.mp}

end Tree

/-! ### Sectors under a calm motion -/

/-- The device still holds the pointer blocks of an inode. -/
structure Kept (s s' : Fs) (d : Bytes) : Prop where
  double : 0 < sectorCnt (InodeDisk.size d) →
    s'.device (InodeDisk.doubleIndirectBlock d) = s.device (InodeDisk.doubleIndirectBlock d)
  indirect : ∀ k ∈ indirectSectors s.device d, s'.device k = s.device k

theorem Kept.indirectSectors (h : Kept s s' d) :
    indirectSectors s'.device d = indirectSectors s.device d := indirectSectors_congr h.double

theorem Kept.dataSectors (h : Kept s s' d) : dataSectors s'.device d = dataSectors s.device d :=
  dataSectors_congr h.double h.indirect

theorem Kept.dataSector (h : Kept s s' d) (hj : j < sectorCnt (InodeDisk.size d)) :
    dataSector s'.device d j = dataSector s.device d j :=
  dataSector_congr (h.double (by omega)) h.indirect hj

theorem Kept.metaSectors (h : Kept s s' d) (i : Nat) : metaSectors s'.device i d = metaSectors s.device i d := by
  unfold Filesys.metaSectors
  rw [h.indirectSectors]

theorem Kept.sectorsOf (h : Kept s s' d) (i : Nat) : sectorsOf s'.device i d = sectorsOf s.device i d := by
  unfold Filesys.sectorsOf
  rw [h.metaSectors, h.dataSectors]

theorem Kept.pointersOk (h : Kept s s' d) (hp : PointersOk s d)
    (hr : ∀ k, lastRole s'.trace k = lastRole s.trace k) : PointersOk s' d where
  double := fun hpos => by rw [hr, h.double hpos, hp.double hpos]
  empty := fun hz => by rw [hr, hp.empty hz]
  indirect := fun k hk => by
    rw [h.indirectSectors] at hk
    rw [hr, h.indirect k hk, hp.indirect k hk]

theorem owned_congr (h : ∀ i d, N i = some d → Kept s s' d) (k : Nat) :
    Owned N s' k ↔ Owned N s k :=
  exists₂_congr fun i d => and_congr_right fun hi => by rw [(h i d hi).sectorsOf i]

theorem metaOf_congr (h : ∀ i d, N i = some d → Kept s s' d) (k : Nat) :
    MetaOf N s' k ↔ MetaOf N s k :=
  exists₂_congr fun i d => and_congr_right fun hi => by rw [(h i d hi).metaSectors i]

theorem dataOf_congr (h : ∀ i d, N i = some d → Kept s s' d) (k : Nat) :
    DataOf N s' k ↔ DataOf N s k :=
  exists₂_congr fun i d => and_congr_right fun hi => by rw [(h i d hi).dataSectors]

variable {D : Nat → Prop}

/-- A calm motion keeps pointer blocks that it does not store data to. -/
theorem Calm.kept (hc : Calm D s s') (hi : Intact s'.trace) (hp : PointersOk s d)
    (hD : ∀ k ∈ metaSectors s.device i d, ¬ D k) : Kept s s' d where
  double := fun hpos => hc.device hi _ (hD _ (mem_metaSectors.mpr (.inr (.inl rfl))))
    (by rw [hp.double hpos]; simp)
  indirect := fun k hk => hc.device hi k (hD k (mem_metaSectors.mpr (.inr (.inr hk))))
    (by rw [hp.indirect k hk]; simp)

theorem Tree.kept (h : Tree P N X s) (hc : Calm D s s') (hi : Intact s'.trace)
    (hD : ∀ k, D k → DataOf N s k) (hN : N i = some d) : Kept s s' d := by
  refine hc.kept (i := i) hi (h.pointers i d hN) fun k hk hDk => ?_
  exact h.not_meta_of_data (hD k hDk) ⟨i, d, hN, hk⟩

/-- The invariant outlives a calm motion that stores to data sectors only. -/
theorem Tree.calm (h : Tree P N X s) (hc : Calm D s s') (hD : ∀ k, D k → DataOf N s k)
    (hcache : CacheOk s') (hmap : s'.freeMap = s.freeMap) : Spoiled P s' ∨ Tree P N X s' := by
  have hdirty : P → ∀ k, (s.cell k).Dirty ∨ D k → lastRole s.trace k = none ∧ ¬ MetaOf N s k := by
    rintro hP k (hk | hk)
    · exact h.clean hP k hk
    · exact ⟨h.role_data (hD k hk), h.not_meta_of_data (hD k hk)⟩
  by_cases hi : Intact s'.trace
  · right
    have hk : ∀ i d, N i = some d → Kept s s' d := fun i d hN => h.kept hc hi hD hN
    refine ⟨hcache, ?_, hc.deviceSize ▸ h.small, hmap ▸ h.trimmed, hi, h.length, fun i d hN => ?_, fun i d hN => ?_,
      fun i d hN => ?_, fun i d j e hN hN' hne => ?_, h.taken, fun k hO => ?_, fun k => ?_,
      fun k hr => ?_, fun hP k hd => ?_⟩
    · rw [hmap, hc.deviceSize, h.bitCnt]
    · obtain ⟨hr, hd⟩ := h.inode i d hN
      have hi' : s'.device i = s.device i := hc.device hi i
        (fun hDi => h.not_meta_of_data (hD i hDi) ⟨i, d, hN, List.mem_cons_self⟩) (by simp [hr])
      exact ⟨(hc.role i).trans hr, hi'.trans hd⟩
    · exact (hk i d hN).pointersOk (h.pointers i d hN) hc.role
    · rw [(hk i d hN).sectorsOf i]
      exact h.nodup i d hN
    · rw [(hk i d hN).sectorsOf i, (hk j e hN').sectorsOf j]
      exact h.apart i d j e hN hN' hne
    · exact h.spare k ((owned_congr hk k).mp hO)
    · rw [hmap, h.used, owned_congr hk]
    · rw [hc.role] at hr
      rw [metaOf_congr hk]
      exact h.roles k hr
    · rw [hc.role, metaOf_congr hk]
      exact hdirty hP k (hc.dirty hd)
  · left
    refine ⟨fun hP => hi (hc.intact h.intact fun k hk => (hdirty hP k hk).1), hi⟩

/-! ### Sectors in and out of the free map -/

theorem cacheOk_of_cells {s s' : Fs} (h : CacheOk s) (hb : s'.cachedBlocks = s.cachedBlocks)
    (hs : s'.cacheSize = s.cacheSize) (hp : s'.cachePointer = s.cachePointer)
    (hd : s'.deviceSize = s.deviceSize) : CacheOk s' := by
  refine ⟨⟨hb ▸ h.sorted, ?_, ?_, ?_⟩, hb ▸ h.small⟩
  · rw [hs, hb, h.size]
  · rw [hp, hb]
    exact h.hand
  · rw [hb, hd]
    exact h.onDevice

/-- A free sector is marked. -/
theorem Tree.take (h : Tree P N X s) (hk : s.freeMap.test k = false) (hlt : k < s.deviceSize) :
    Tree P N (k :: X) {s with freeMap := s.freeMap.put k true} := by
  have hfree : ¬ Owned N s k ∧ k ∉ X := by
    rw [← not_or, ← h.used, hk]
    simp
  have hcnt : k < s.freeMap.bitCnt := by rw [h.bitCnt]; exact hlt
  refine ⟨cacheOk_of_cells h.cache rfl rfl rfl rfl, ?_, h.small, Kernel.Bitmap.trimmed_put h.trimmed hcnt true,
    h.intact, h.length, h.inode, fun i d hN => ?_, h.nodup, h.apart, List.nodup_cons.mpr ⟨hfree.2, h.taken⟩,
    ?_, ?_, ?_, h.clean⟩
  · rw [Kernel.Bitmap.bitCnt_put, h.bitCnt]
  · exact ⟨(h.pointers i d hN).double, (h.pointers i d hN).empty, (h.pointers i d hN).indirect⟩
  · intro j hO hj
    rcases List.mem_cons.mp hj with rfl | hj
    · exact hfree.1 hO
    · exact h.spare j hO hj
  · intro j
    rw [Kernel.Bitmap.test_put hcnt, List.mem_cons]
    split
    · rename_i he
      simp [he]
    · rename_i hne
      rw [h.used]
      simp only [hne, false_or]
      rfl
  · intro j hr
    exact (h.roles j hr).imp_right (List.mem_cons_of_mem k)

/-- A marked sector that no inode owns is unmarked, and no longer serves. -/
theorem Tree.drop (h : Tree P N (k :: X) s) {t : List Event} (hi : Intact t)
    (hrole : ∀ j, j ≠ k → lastRole t j = lastRole s.trace j) (hk : lastRole t k = none) :
    Tree P N X {s with freeMap := s.freeMap.put k false, trace := t} := by
  obtain ⟨hkX, hX⟩ := List.nodup_cons.mp h.taken
  have hown : ¬ Owned N s k := fun hO => h.spare k hO List.mem_cons_self
  have hcnt : k < s.freeMap.bitCnt := by rw [h.bitCnt]; exact h.taken_lt List.mem_cons_self
  have hne : ∀ j, Owned N s j → j ≠ k := fun j hO he => hown (he ▸ hO)
  refine ⟨cacheOk_of_cells h.cache rfl rfl rfl rfl, ?_, h.small, Kernel.Bitmap.trimmed_put h.trimmed hcnt false,
    hi, h.length, fun i d hN => ?_, fun i d hN => ?_, h.nodup, h.apart, hX, ?_, ?_, ?_, ?_⟩
  · rw [Kernel.Bitmap.bitCnt_put, h.bitCnt]
  · rw [hrole i (hne i ⟨i, d, hN, self_mem⟩)]
    exact h.inode i d hN
  · have hp := h.pointers i d hN
    have hm : ∀ j ∈ metaSectors s.device i d, j ≠ k := fun j hj =>
      hne j ⟨i, d, hN, mem_sectorsOf.mpr (.inl hj)⟩
    have hdbl := hrole _ (hm _ (mem_metaSectors.mpr (.inr (.inl rfl))))
    refine ⟨fun hpos => hdbl.trans (hp.double hpos), fun hz => hdbl.trans (hp.empty hz), fun j hj => ?_⟩
    exact (hrole j (hm j (mem_metaSectors.mpr (.inr (.inr hj))))).trans (hp.indirect j hj)
  · exact fun j hO hj => h.spare j hO (List.mem_cons_of_mem k hj)
  · intro j
    rw [Kernel.Bitmap.test_put hcnt]
    split
    · rename_i he
      subst he
      simp only [Bool.false_eq_true, false_iff, not_or]
      exact ⟨hown, hkX⟩
    · rename_i hj
      rw [h.used, List.mem_cons]
      simp only [hj, false_or]
      rfl
  · intro j hr
    by_cases hj : j = k
    · exact absurd (hj ▸ hk) hr
    · rw [hrole j hj] at hr
      exact (h.roles j hr).imp_right fun hm => (List.mem_cons.mp hm).resolve_left hj
  · intro hP j hd
    obtain ⟨hr, hm⟩ := h.clean hP j hd
    refine ⟨?_, hm⟩
    grind

/-- A sector has been given back to the free map. -/
def Fs.released (s : Fs) (k : Nat) : Fs :=
  {s with freeMap := s.freeMap.put k false, trace := .release k :: s.trace}

theorem Tree.give (h : Tree P N (k :: X) s) : Tree P N X (s.released k) :=
  h.drop h.intact (fun j hj => by rw [lastRole_release, if_neg (Ne.symm hj)])
    (by rw [lastRole_release, if_pos rfl])

end

end Pintos.Filesys
