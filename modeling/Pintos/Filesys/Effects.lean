import Pintos.Filesys.Sound

/-! What an inode call does to the bytes of the files.

`Effect` says it for all files at once: a live file's data sectors are those it had, in
their places, followed by sectors that were free, and what the call has not written reads
as before. Copies of sectors that are not metadata stay coherent. `Tame` is what holds in addition unless sectors are given back. -/
namespace Pintos.Filesys
open Outcome WriteBack

/-- A file's data sectors are its old ones, or were free. -/
def FromBefore (s s' : Fs) (d' : Bytes) (old : Option Bytes) : Prop :=
  ∀ t < sectorCnt (InodeDisk.size d'),
    (∃ d, old = some d ∧ t < sectorCnt (InodeDisk.size d) ∧ dataSector s'.device d' t = dataSector s.device d t) ∨
      s.freeMap.test (dataSector s'.device d' t) = false

structure Effect (N N' : Nat → Option Bytes) (W : Nat → Nat → Option UInt8) (s s' : Fs) : Prop where
  sectors : ∀ j d', j ≠ freeMapSector → N' j = some d' → FromBefore s s' d' (N j)
  bytes : ∀ j d', j ≠ freeMapSector → N' j = some d' → ∀ o v, o / blockSectorSize < sectorCnt (InodeDisk.size d') →
    (match W j o with
      | some b => v = b
      | none => (s.cell (dataSector s'.device d' (o / blockSectorSize))).Firm (o % blockSectorSize) v) →
    (s'.cell (dataSector s'.device d' (o / blockSectorSize))).Firm (o % blockSectorSize) v
  coherent : ∀ k, ¬ MetaOf N' s' k → (s.cell k).Coherent → (s'.cell k).Coherent

/-- The inode has its sectors, in their places, and maybe more. -/
structure Extends (s s' : Fs) (i : Nat) (d d' : Bytes) : Prop where
  size : InodeDisk.size d ≤ InodeDisk.size d'
  data : ∀ t < sectorCnt (InodeDisk.size d), dataSector s'.device d' t = dataSector s.device d t
  metas : ∀ k ∈ metaSectors s.device i d, k ∈ metaSectors s'.device i d'

structure Tame (N N' : Nat → Option Bytes) (s s' : Fs) : Prop where
  files : ∀ i d, N i = some d → ∃ d', N' i = some d' ∧ Extends s s' i d d'
  used : ∀ k, s.freeMap.test k = true → s'.freeMap.test k = true
  dirty : ∀ k, (s'.cell k).Dirty → (s.cell k).Dirty ∨ DataOf N' s' k

/-- Nothing is written. -/
def noBytes : Nat → Nat → Option UInt8 := fun _ _ => none

section
variable {P : Prop} {N N' : Nat → Option Bytes} {X Y l : List Nat} {s s' : Fs} {i j k : Nat} {d d' : Bytes} {n : Inode}

theorem Kept.extends (h : Kept s s' d) (i : Nat) : Extends s s' i d d :=
  ⟨Nat.le_refl _, fun _ ht => h.dataSector ht, fun k hk => by rwa [h.metaSectors]⟩

theorem Extends.sectorsOf (h : Extends s s' i d d') (hk : k ∈ sectorsOf s.device i d) :
    k ∈ sectorsOf s'.device i d' := by
  rcases mem_sectorsOf.mp hk with hk | hk
  · exact mem_sectorsOf.mpr (.inl (h.metas k hk))
  · obtain ⟨t, ht, rfl⟩ := List.mem_map.mp hk
    have ht := List.mem_range.mp ht
    rw [← h.data t ht]
    exact mem_sectorsOf.mpr (.inr (dataSector_mem (Nat.lt_of_lt_of_le ht (sectorCnt_mono h.size))))

theorem Tame.meta (h : Tame N N' s s') (hk : MetaOf N s k) : MetaOf N' s' k := by
  obtain ⟨i, d, hN, hk⟩ := hk
  obtain ⟨d', hN', he⟩ := h.files i d hN
  exact ⟨i, d', hN', he.metas k hk⟩

theorem fromBefore_kept (h : Kept s s' d) : FromBefore s s' d (some d) := fun _ ht =>
  .inl ⟨d, rfl, ht, h.dataSector ht⟩

/-- Data of a file other than the free map's. -/
theorem Tree.not_mapData (h : Tree P N X s) (hN : N i = some d) (hi : i ≠ freeMapSector)
    (hk : k ∈ sectorsOf s.device i d) : ¬ MapData N s k := by
  rintro ⟨e, hE, hke⟩
  exact h.apart i d freeMapSector e hN hE hi hk (mem_sectorsOf.mpr (.inr hke))

/-- A motion that stores at most to the free-map file. -/
theorem effect_of_cells (h : Tree P N X s) (hk : ∀ j d, N' j = some d → N j = some d ∧ Kept s s' d)
    (hc : ∀ k, ¬ MapData N s k → (s.cell k).Drifts (s'.cell k))
    (hcoh : ∀ k, (s.cell k).Coherent → (s'.cell k).Coherent) : Effect N N' noBytes s s' where
  sectors := fun j d' _ hN' => by
    obtain ⟨hN, hkept⟩ := hk j d' hN'
    rw [hN]
    exact fromBefore_kept hkept
  bytes := fun j d' hj hN' o v ho hv => by
    obtain ⟨hN, hkept⟩ := hk j d' hN'
    rw [hkept.dataSector ho] at hv ⊢
    exact (hc _ (h.not_mapData hN hj (mem_sectorsOf.mpr (.inr (dataSector_mem ho))))).firm hv
  coherent := fun k _ => hcoh k

theorem Quiet.effect (hq : Quiet s s') (h : Tree P N X s) (h' : Tree P N X s') : Effect N N noBytes s s' :=
  effect_of_cells h (fun _ _ hN => ⟨hN, h.kept_quiet h' hq hN⟩) (fun k _ => hq.cells k id) fun _ => hq.coherent

theorem Quiet.tame (hq : Quiet s s') (h : Tree P N X s) (h' : Tree P N X s') : Tame N N s s' where
  files := fun i d hN => ⟨d, hN, (h.kept_quiet h' hq hN).extends i⟩
  used := fun k hk => by rwa [hq.freeMap]
  dirty := fun k hd => .inl ((hq.dirty hd).resolve_right id)

theorem Steady.effect (hst : Steady N s s') (h : Tree P N X s) : Effect N N noBytes s s' :=
  effect_of_cells h (fun j d hN => ⟨hN, hst.kept j d hN⟩) hst.calm.cells fun _ => hst.calm.coherent

theorem Steady.tame (hst : Steady N s s') (h : Tree P N X s) (h' : Tree P N (Y ++ X) s') : Tame N N s s' where
  files := fun i d hN => ⟨d, hN, (hst.kept i d hN).extends i⟩
  used := fun k hk => by
    rw [hst.used h', List.mem_append]
    exact ((h.used k).mp hk).imp_right .inr
  dirty := fun k hd => (hst.calm.dirty hd).imp_right fun hm => (dataOf_congr hst.kept k).mpr hm.dataOf

/-- The list of open inodes plays no part. -/
theorem effect_self (N : Nat → Option Bytes) (hd : s'.device = s.device) (hc : s'.cachedBlocks = s.cachedBlocks) :
    Effect N N noBytes s s' := by
  have hcell : ∀ k, s'.cell k = s.cell k := fun k => by rw [Fs.cell, Fs.cell, hd, hc]
  refine ⟨fun j d' _ hN' => ?_, fun j d' _ _ o v _ hv => ?_, fun k _ hc => hcell k ▸ hc⟩
  · rw [hN']
    exact fromBefore_kept ⟨fun _ => by rw [hd], fun _ _ => by rw [hd]⟩
  · rw [hcell]
    exact hv

theorem tame_self (N : Nat → Option Bytes) (hd : s'.device = s.device) (hc : s'.cachedBlocks = s.cachedBlocks)
    (hm : s'.freeMap = s.freeMap) : Tame N N s s' := by
  have hcell : ∀ k, s'.cell k = s.cell k := fun k => by rw [Fs.cell, Fs.cell, hd, hc]
  have hk : ∀ d, Kept s s' d := fun d => ⟨fun _ => by rw [hd], fun _ _ => by rw [hd]⟩
  exact ⟨fun i d hN => ⟨d, hN, (hk d).extends i⟩, fun k h => by rwa [hm], fun k h => .inl (hcell k ▸ h)⟩

/-- The bytes of a write to the inode `i`. -/
def writtenBytes (i : Nat) (buffer : Bytes) (offset w : Nat) : Nat → Nat → Option UInt8 := fun j o =>
  if j = i ∧ offset ≤ o ∧ o < offset + w then some (buffer (o - offset)) else none

theorem getElem?_dataSectors {dev : Nat → Bytes} {t : Nat} (ht : t < sectorCnt (InodeDisk.size d)) :
    (dataSectors dev d)[t]? = some (dataSector dev d t) := by
  simp [dataSectors, ht]

theorem length_dataSectors (dev : Nat → Bytes) (d : Bytes) :
    (dataSectors dev d).length = sectorCnt (InodeDisk.size d) := by
  simp [dataSectors]

section
variable {offset w : Nat} {buffer : Bytes}

/-- The data sectors after the old ones are new. -/
theorem Wrote.fromBefore (h : Wrote P N i d d' X l s offset w buffer s') : FromBefore s s' d' (some d) := by
  intro t ht
  have hget : (dataSectors s'.device d')[t]? = some (Filesys.dataSector s'.device d' t) := getElem?_dataSectors ht
  rw [h.data] at hget
  by_cases htd : t < sectorCnt (InodeDisk.size d)
  · rw [List.getElem?_append_left (by rwa [length_dataSectors]), getElem?_dataSectors htd] at hget
    exact .inl ⟨d, rfl, htd, (Option.some.inj hget).symm⟩
  · rw [List.getElem?_append_right (by rw [length_dataSectors]; omega)] at hget
    exact .inr (h.fresh _ (List.mem_of_getElem? hget))

theorem Wrote.dataSector (h : Wrote P N i d d' X l s offset w buffer s')
    (hle : sectorCnt (InodeDisk.size d) ≤ sectorCnt (InodeDisk.size d')) {t : Nat}
    (ht : t < sectorCnt (InodeDisk.size d)) : dataSector s'.device d' t = dataSector s.device d t := by
  have hget : (dataSectors s'.device d')[t]? = some (Filesys.dataSector s'.device d' t) :=
    getElem?_dataSectors (by omega)
  rw [h.data, List.getElem?_append_left (by rwa [length_dataSectors]), getElem?_dataSectors ht] at hget
  exact (Option.some.inj hget).symm

theorem Wrote.effect (h : Wrote P N i d d' X l s offset w buffer s') (hs : Tree P N X s) (hN : N i = some d) :
    Effect N (Function.update N i (some d')) (writtenBytes i buffer offset w) s s' := by
  refine ⟨fun j e hj hE => ?_, fun j e hj hE o v ho hv => ?_,
    fun k hk => h.coherent k fun hm => hk ⟨i, d', by simp, hm⟩⟩
  · rcases update_some_eq_some.mp hE with ⟨rfl, rfl⟩ | ⟨hji, hNj⟩
    · rw [hN]
      exact h.fromBefore
    · rw [hNj]
      exact fromBefore_kept (h.kept j e hji hNj)
  · rcases update_some_eq_some.mp hE with ⟨rfl, rfl⟩ | ⟨hji, hNj⟩
    · refine h.put o v ho ?_
      unfold writtenBytes at hv
      grind
    · have hnone : writtenBytes i buffer offset w j o = none := if_neg fun hc => hji hc.1
      rw [hnone] at hv
      have hk := h.kept j e hji hNj
      refine (h.cells _ ?_ fun hm => ?_).firm hv
      · rw [hk.dataSector ho]
        exact hs.not_mapData hNj hj (mem_sectorsOf.mpr (.inr (dataSector_mem ho)))
      · exact h.tree.apart i d' j e (by simp) hE (Ne.symm hji) hm (mem_sectorsOf.mpr (.inr (dataSector_mem ho)))

theorem Wrote.owned (h : Wrote P N i d d' X l s offset w buffer s') (hN : N i = some d) (hO : Owned N s k) :
    Owned (Function.update N i (some d')) s' k := by
  obtain ⟨j, e, hNj, hk⟩ := hO
  by_cases hji : j = i
  · subst hji
    obtain rfl : d = e := Option.some.inj (hN.symm.trans hNj)
    obtain ⟨m, hm, -⟩ := h.indirect
    refine ⟨j, d', by simp, ?_⟩
    rw [mem_sectorsOf, mem_metaSectors] at hk ⊢
    rw [h.double, hm, h.data, List.mem_append, List.mem_append]
    tauto
  · refine ⟨j, e, update_some_eq_some.mpr (.inr ⟨hji, hNj⟩), ?_⟩
    rwa [(h.kept j e hji hNj).sectorsOf]

theorem Wrote.extends (h : Wrote P N i d d' X l s offset w buffer s') (hle : InodeDisk.size d ≤ InodeDisk.size d') :
    Extends s s' i d d' := by
  refine ⟨hle, fun t ht => h.dataSector (sectorCnt_mono hle) ht, fun k hk => ?_⟩
  obtain ⟨m, hm, -⟩ := h.indirect
  rw [mem_metaSectors] at hk ⊢
  rw [h.double, hm, List.mem_append]
  tauto

theorem Wrote.tame (h : Wrote P N i d d' X l s offset w buffer s') (hs : Tree P N X s) (hN : N i = some d)
    (hle : InodeDisk.size d ≤ InodeDisk.size d') : Tame N (Function.update N i (some d')) s s' where
  files := fun j e hNj => by
    by_cases hji : j = i
    · subst hji
      obtain rfl : d = e := Option.some.inj (hN.symm.trans hNj)
      exact ⟨d', by simp, h.extends hle⟩
    · exact ⟨e, update_some_eq_some.mpr (.inr ⟨hji, hNj⟩), (h.kept j e hji hNj).extends j⟩
  used := fun k hk => by
    rw [h.tree.used]
    exact ((hs.used k).mp hk).imp_left (h.owned hN)
  dirty := h.dirty

end

section Created
variable {s1 : Fs} (hst : Steady N s s1) (hb : Built (· ∈ metaSectors s'.device i d) s1 s')
  (hout : ∀ k ∈ sectorsOf s'.device i d, ¬ Owned N s k)
include hst hb hout

/-- A new inode leaves the others alone. -/
theorem created_kept {e : Bytes} (hNj : N j = some e) : Kept s s' e := by
  have hmeta : ∀ k ∈ metaSectors s1.device j e, k ∉ metaSectors s'.device i d := by
    intro k hk hk'
    rw [(hst.kept j e hNj).metaSectors] at hk
    exact hout k (mem_sectorsOf.mpr (.inl hk')) ⟨j, e, hNj, mem_sectorsOf.mpr (.inl hk)⟩
  exact (hst.kept j e hNj).trans ⟨fun _ => hb.device _ (hmeta _ (mem_metaSectors.mpr (.inr (.inl rfl)))),
    fun k hk => hb.device k (hmeta k (mem_metaSectors.mpr (.inr (.inr hk))))⟩

theorem created_effect (hs : Tree P N Y s) (hN : N i = none)
    (ht : Tree P (Function.update N i (some d)) X s')
    (hfree : ∀ k ∈ dataSectors s'.device d, s.freeMap.test k = false) :
    Effect N (Function.update N i (some d)) noBytes s s' := by
  have hself : Function.update N i (some d) i = some d := by simp
  have hfirm : ∀ {k o v}, ¬ MapData N s k → k ∉ metaSectors s'.device i d → (s.cell k).Firm o v →
      (s'.cell k).Firm o v := fun {k o v} hm hk hv => by
    rw [hb.cell hk]
    exact (hst.calm.cells k hm).firm hv
  refine ⟨fun j e _ hE => ?_, fun j e hj hE o v ho hv => ?_, fun k hk hc => ?_⟩
  rotate_right
  · rw [hb.cell fun hm => hk ⟨i, d, hself, hm⟩]
    exact hst.calm.coherent hc
  · rcases update_some_eq_some.mp hE with ⟨rfl, rfl⟩ | ⟨hji, hNj⟩
    · exact fun t ht' => .inr (hfree _ (dataSector_mem ht'))
    · rw [hNj]
      exact fromBefore_kept (created_kept hst hb hout hNj)
  · rcases update_some_eq_some.mp hE with ⟨rfl, rfl⟩ | ⟨hji, hNj⟩
    · have hmem : dataSector s'.device d (o / blockSectorSize) ∈ dataSectors s'.device d := dataSector_mem ho
      refine hfirm (fun hm => ?_) (fun hk => ?_) hv
      · have := (hs.used _).mpr (.inl hm.dataOf.owned)
        simp [hfree _ hmem] at this
      · exact List.disjoint_of_nodup_append (ht.nodup _ _ hself) hk hmem
    · have hk := created_kept hst hb hout hNj
      have hmem : dataSector s.device e (o / blockSectorSize) ∈ sectorsOf s.device j e :=
        mem_sectorsOf.mpr (.inr (dataSector_mem ho))
      rw [hk.dataSector ho] at hv ⊢
      exact hfirm (hs.not_mapData hNj hj hmem)
        (fun hk' => hout _ (mem_sectorsOf.mpr (.inl hk')) ⟨j, e, hNj, hmem⟩) hv

theorem created_tame (hN : N i = none) (hs : Tree P N Y s) (hY : ∀ k ∈ Y, k ∈ sectorsOf s'.device i d ++ X)
    (ht : Tree P (Function.update N i (some d)) X s') : Tame N (Function.update N i (some d)) s s' := by
  have hup : ∀ {j e}, N j = some e → Function.update N i (some d) j = some e := fun {j e} hNj =>
    update_some_eq_some.mpr (.inr ⟨fun he => by rw [he, hN] at hNj; simp at hNj, hNj⟩)
  have hkept : ∀ j e, N j = some e → Kept s s' e := fun j e => created_kept hst hb hout
  refine ⟨fun j e hNj => ⟨e, hup hNj, (hkept j e hNj).extends j⟩, fun k hk => ?_, fun k hd => ?_⟩
  · rw [ht.used]
    rcases (hs.used k).mp hk with ⟨j, e, hNj, hk⟩ | hkY
    · exact .inl ⟨j, e, hup hNj, by rwa [(hkept j e hNj).sectorsOf]⟩
    · exact (List.mem_append.mp (hY k hkY)).imp_left fun hk => ⟨i, d, by simp, hk⟩
  · rw [hb.dirty] at hd
    refine (hst.calm.dirty hd).imp_right fun hm => ?_
    obtain ⟨j, e, hNj, hke⟩ := hm.dataOf
    exact ⟨j, e, hup hNj, by rwa [(hkept j e hNj).dataSectors]⟩

end Created

/-- The sectors of a closed inode have been given back. -/
theorem freed_effect (hf : Freed (Function.update N i none) s s') (hi : i ≠ freeMapSector) (h : Tree P N X s) :
    Effect N (Function.update N i none) noBytes s s' :=
  effect_of_cells h (fun j d hj => ⟨(update_none_eq_some.mp hj).2, hf.kept j d hj⟩)
    (fun k hk => hf.cells k fun hm => hk ((mapData_update hi none k).mp hm)) hf.coherent

end

end Pintos.Filesys
