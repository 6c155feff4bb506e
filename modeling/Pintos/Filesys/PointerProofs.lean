import Pintos.Filesys.FreeMapProofs

/-! Entering new sectors in the pointer blocks of an inode.

The pointer blocks go to the device past the cache (`Built`). After the two loops of
`extend_inode_disk_to_size` the inode has its old sectors followed by the new ones, and
every pointer block serves as it was last written (`enterBlocks_ends`). -/
namespace Pintos.Filesys
open Outcome WriteBack

/-! ### Writing past the cache -/

/-- Only sectors of `M` have been written, by the inode layer. -/
structure Built (M : Nat → Prop) (s s' : Fs) : Prop where
  same : s' = {s with device := s'.device, trace := s'.trace}
  device : ∀ k, ¬ M k → s'.device k = s.device k
  role : ∀ k, ¬ M k → lastRole s'.trace k = lastRole s.trace k
  intact : Intact s.trace → Intact s'.trace
  releases : releases s'.trace = releases s.trace

section Built
variable {M M' : Nat → Prop} {s s' s'' : Fs} {k : Nat}

theorem Built.refl (M : Nat → Prop) (s : Fs) : Built M s s :=
  ⟨rfl, fun _ _ => rfl, fun _ _ => rfl, id, rfl⟩

theorem Built.mono (h : Built M s s') (hM : ∀ k, M k → M' k) : Built M' s s' :=
  ⟨h.same, fun k hk => h.device k (hk ∘ hM k), fun k hk => h.role k (hk ∘ hM k), h.intact, h.releases⟩

theorem Built.trans (h : Built M s s') (h' : Built M s' s'') : Built M s s'' where
  same := by rw [h'.same, h.same]
  device := fun k hk => (h'.device k hk).trans (h.device k hk)
  role := fun k hk => (h'.role k hk).trans (h.role k hk)
  intact := fun hi => h'.intact (h.intact hi)
  releases := h'.releases.trans h.releases

theorem built_put (s : Fs) {w : Writer} (hw : w.isMeta = true) (k : Nat) (b : Bytes) :
    Built (· = k) s (s.put w k b) where
  same := rfl
  device := fun j hj => by simp [Fs.put, hj]
  role := fun j hj => by
    simp only [Fs.put]
    rw [lastRole_write, if_neg (by simp [Ne.symm hj])]
  intact := by
    intro hi
    cases w <;> first | exact hi | cases hw
  releases := rfl

theorem Built.deviceSize (h : Built M s s') : s'.deviceSize = s.deviceSize := by rw [h.same]
theorem Built.cachedBlocks (h : Built M s s') : s'.cachedBlocks = s.cachedBlocks := by rw [h.same]
theorem Built.freeMap (h : Built M s s') : s'.freeMap = s.freeMap := by rw [h.same]
theorem Built.freeMapFile (h : Built M s s') : s'.freeMapFile = s.freeMapFile := by rw [h.same]
theorem Built.openInodes (h : Built M s s') : s'.openInodes = s.openInodes := by rw [h.same]
theorem Built.heap (h : Built M s s') : s'.heap = s.heap := by rw [h.same]

theorem Built.cacheOk (h : Built M s s') (hc : CacheOk s) : CacheOk s' := by
  rw [h.same]
  exact cacheOk_of_cells hc rfl rfl rfl rfl

theorem Built.cell (h : Built M s s') (hk : ¬ M k) : s'.cell k = s.cell k := by
  unfold Fs.cell
  rw [h.device k hk, h.cachedBlocks]

theorem Built.dirty (h : Built M s s') (k : Nat) : (s'.cell k).Dirty ↔ (s.cell k).Dirty := by
  unfold Fs.cell Cell.Dirty
  rw [h.cachedBlocks]

end Built

/-! ### Entering pointers -/

theorem enterIndirectBlocks_old (l : List Nat) : ∀ (b : Bytes) {k j : Nat}, j < k →
    (enterIndirectBlocks b k l).word j = b.word j := by
  induction l with
  | nil => exact fun b k j _ => rfl
  | cons x l ih =>
    intro b k j hj
    rw [enterIndirectBlocks, ih _ (by omega), Bytes.word_setWord_ne b x (by omega)]

theorem enterIndirectBlocks_new (l : List Nat) : ∀ (b : Bytes) {k t x : Nat}, (∀ y ∈ l, y < 2 ^ 32) →
    l[t]? = some x → (enterIndirectBlocks b k l).word (k + t) = x := by
  induction l with
  | nil => exact fun b k t x _ h => by simp at h
  | cons y l ih =>
    intro b k t x hl h
    rw [enterIndirectBlocks]
    cases t with
    | zero =>
      simp only [List.getElem?_cons_zero, Option.some.injEq] at h
      rw [enterIndirectBlocks_old l _ (by omega), Nat.add_zero, Bytes.word_setWord _ _ (hl y List.mem_cons_self), h]
    | succ t =>
      grind

/-- The device with the sectors of `l` entered from file sector `k` on, `ptr` giving the
indirect blocks. -/
def entered (ptr : Nat → Nat) : Nat → List Nat → (Nat → Bytes) → Nat → Bytes
  | _, [], dev => dev
  | k, x :: l, dev => entered ptr (k + 1) l fun j =>
      if j = ptr (k / pointerBlockPointersCount) then (dev j).setWord (k % pointerBlockPointersCount) x
      else dev j

/-- An indirect block that gets an entry. -/
def Touched (ptr : Nat → Nat) (k : Nat) (l : List Nat) (q : Nat) : Prop :=
  ∃ t < l.length, q = ptr ((k + t) / pointerBlockPointersCount)

theorem touched_cons {ptr : Nat → Nat} {k x : Nat} {l : List Nat} {q : Nat} :
    Touched ptr k (x :: l) q ↔ q = ptr (k / pointerBlockPointersCount) ∨ Touched ptr (k + 1) l q := by
  constructor
  · rintro ⟨t, ht, rfl⟩
    cases t with
    | zero => exact .inl rfl
    | succ t => exact .inr ⟨t, by simpa using ht, by rw [Nat.add_assoc, Nat.add_comm 1 t]⟩
  · rintro (rfl | ⟨t, ht, rfl⟩)
    · exact ⟨0, by simp, rfl⟩
    · exact ⟨t + 1, by simpa using ht, by rw [Nat.add_assoc, Nat.add_comm 1 t]⟩

section Entered
variable {ptr : Nat → Nat} {n : Nat} (hinj : ∀ a b, a < n → b < n → ptr a = ptr b → a = b)
include hinj

/-- Entries made before stay. -/
theorem entered_old (l : List Nat) : ∀ {k : Nat} {dev : Nat → Bytes} {j : Nat}, j < k →
    indirectCnt (k + l.length) ≤ n →
    (entered ptr k l dev (ptr (j / pointerBlockPointersCount))).word (j % pointerBlockPointersCount) =
      (dev (ptr (j / pointerBlockPointersCount))).word (j % pointerBlockPointersCount) := by
  induction l with
  | nil => exact fun _ _ => rfl
  | cons x l ih =>
    intro k dev j hj hn
    rw [List.length_cons] at hn
    rw [entered, ih (by omega) (by rwa [Nat.add_assoc, Nat.add_comm 1])]
    split
    · rename_i heq
      have hlt : ∀ a, a < k + (l.length + 1) → a / pointerBlockPointersCount < n := fun a ha =>
        Nat.lt_of_lt_of_le (div_lt_indirectCnt ha) hn
      have hblock := hinj _ _ (hlt j (by omega)) (hlt k (by omega)) heq
      rw [Bytes.word_setWord_ne]
      unfold pointerBlockPointersCount at hblock ⊢
      omega
    · rfl

theorem entered_new (l : List Nat) : ∀ {k : Nat} {dev : Nat → Bytes} {t x : Nat}, (∀ y ∈ l, y < 2 ^ 32) →
    indirectCnt (k + l.length) ≤ n → l[t]? = some x →
    (entered ptr k l dev (ptr ((k + t) / pointerBlockPointersCount))).word
      ((k + t) % pointerBlockPointersCount) = x := by
  induction l with
  | nil => exact fun _ _ h => by simp at h
  | cons y l ih =>
    intro k dev t x hl hn h
    rw [List.length_cons] at hn
    have hn' : indirectCnt (k + 1 + l.length) ≤ n := by rwa [Nat.add_assoc, Nat.add_comm 1]
    rw [entered]
    cases t with
    | zero =>
      simp only [List.getElem?_cons_zero, Option.some.injEq] at h
      show (entered ptr (k + 1) l _ (ptr (k / _))).word (k % _) = x
      rw [entered_old hinj l (Nat.lt_add_one k) hn', if_pos rfl,
        Bytes.word_setWord _ _ (hl y List.mem_cons_self), h]
    | succ t =>
      simp only [List.getElem?_cons_succ] at h
      have hidx : k + (t + 1) = k + 1 + t := by omega
      rw [hidx]
      exact ih (fun z hz => hl z (List.mem_cons_of_mem y hz)) hn' h

end Entered

/-- What the buffer and the device together hold. -/
def buffered (ptr : Nat → Nat) (last : Option Nat) (buffer : Bytes) (dev : Nat → Bytes) : Nat → Bytes :=
  match last with
  | none => dev
  | some ind => fun q => if q = ptr ind then buffer else dev q

/-- The indirect block in the buffer. -/
def Held (ptr : Nat → Nat) (last : Option Nat) (q : Nat) : Prop := ∃ ind ∈ last, q = ptr ind

/-- The buffer reaches the device before another block is loaded and at the end, so the
device ends up with all entries, and every indirect block touched serves as written. -/
theorem enterSectors_ends (dd : Bytes) (l : List Nat) : ∀ {s : Fs} {k : Nat} {last : Option Nat}
    {buffer : Bytes} {E : Panic → Fs → Prop},
    (∀ q, Touched (pointer dd) k l q ∨ Held (pointer dd) last q → q < s.deviceSize) →
    Ends (enterSectors dd k l last buffer) s (fun _ s' =>
      Built (fun q => Touched (pointer dd) k l q ∨ Held (pointer dd) last q) s s' ∧
      s'.device = entered (pointer dd) k l (buffered (pointer dd) last buffer s.device) ∧
      ∀ q, Touched (pointer dd) k l q ∨ Held (pointer dd) last q →
        lastRole s'.trace q = some (.indirect, s'.device q)) E := by
  -- The write of the buffer, if it holds a block.
  have hflush : ∀ {s : Fs} {last : Option Nat} {buffer : Bytes} {E : Panic → Fs → Prop},
      (∀ q, Held (pointer dd) last q → q < s.deviceSize) →
      Ends (flushIndirect dd last buffer) s (fun _ s' => Built (Held (pointer dd) last) s s' ∧
        s'.device = buffered (pointer dd) last buffer s.device ∧
        ∀ q, Held (pointer dd) last q → lastRole s'.trace q = some (.indirect, s'.device q)) E := by
    intro s last buffer E hlt
    cases last with
    | none => exact ⟨.refl _ s, rfl, by rintro q ⟨ind, ⟨⟩, -⟩⟩
    | some ind =>
      refine (ends_blockWrite (hlt _ ⟨ind, rfl, rfl⟩)).mpr
        ⟨(built_put s rfl _ _).mono fun q hq => ⟨ind, rfl, hq⟩, rfl, ?_⟩
      rintro q ⟨_, ⟨⟩, rfl⟩
      simp [Fs.put, lastRole_write, Writer.isMeta]
  induction l with
  | nil =>
    intro s k last buffer E hlt
    refine (hflush fun q hq => hlt q (.inr hq)).imp ?_
    rintro - s' ⟨hb, hd, hr⟩
    have hnone : ∀ q, ¬ Touched (pointer dd) k [] q := by
      rintro q ⟨t, ht, -⟩
      simp at ht
    exact ⟨hb.mono fun q => .inr, hd, fun q hq => hr q (hq.resolve_left (hnone q))⟩
  | cons x l ih =>
    intro s k last buffer E hlt
    unfold enterSectors
    by_cases hlast : last = some (k / pointerBlockPointersCount)
    · -- The block is in the buffer.
      subst hlast
      have hiff : ∀ q, Touched (pointer dd) k (x :: l) q ∨
          Held (pointer dd) (some (k / pointerBlockPointersCount)) q ↔
          Touched (pointer dd) (k + 1) l q ∨ Held (pointer dd) (some (k / pointerBlockPointersCount)) q := by
        intro q
        rw [touched_cons]
        constructor
        · rintro ((hq | hq) | hq)
          · exact .inr ⟨_, rfl, hq⟩
          · exact .inl hq
          · exact .inr hq
        · exact Or.imp_left .inr
      simp only [hiff] at hlt ⊢
      rw [if_pos trivial, ends_bind, ends_pure]
      refine (ih hlt).imp ?_
      rintro - s' ⟨hb, hd, hr⟩
      refine ⟨hb, ?_, hr⟩
      rw [hd, entered]
      congr 1
      funext q
      by_cases hq : q = pointer dd (k / pointerBlockPointersCount) <;> simp [buffered, hq]
    · -- Another block is: it is written, and the new one read.
      simp only [ends_bind]
      rw [if_neg hlast]
      simp only [ends_bind]
      refine (hflush fun q hq => hlt q (.inr hq)).imp ?_
      rintro - s1 ⟨hb1, hd1, hr1⟩
      have hT : ∀ q, Touched (pointer dd) (k + 1) l q ∨
          Held (pointer dd) (some (k / pointerBlockPointersCount)) q → Touched (pointer dd) k (x :: l) q := by
        rintro q (hq | ⟨_, ⟨⟩, hq⟩)
        · exact touched_cons.mpr (.inr hq)
        · exact touched_cons.mpr (.inl hq)
      rw [ends_blockRead (by rw [hb1.deviceSize]; exact hlt _ (.inl (touched_cons.mpr (.inl rfl))))]
      refine (ih fun q hq => by rw [hb1.deviceSize]; exact hlt q (.inl (hT q hq))).imp ?_
      rintro - s' ⟨hb, hd, hr⟩
      refine ⟨(hb1.mono fun q => .inr).trans (hb.mono fun q hq => .inl (hT q hq)), ?_, fun q hq => ?_⟩
      · rw [hd, entered, ← hd1]
        congr 1
        funext q
        by_cases hq : q = pointer dd (k / pointerBlockPointersCount) <;> simp [buffered, hq]
      · by_cases hq' : Touched (pointer dd) (k + 1) l q ∨
            Held (pointer dd) (some (k / pointerBlockPointersCount)) q
        · exact hr q hq'
        · rw [hb.role q hq', hb.device q hq']
          refine hr1 q (hq.resolve_left fun hq => hq' ?_)
          exact (touched_cons.mp hq).elim (fun h => .inr ⟨_, rfl, h⟩) .inl

/-! ### The pointer blocks after growing -/

theorem map_range_append {f g : Nat → Nat} {m : Nat} {l : List Nat} (hold : ∀ j < m, f j = g j)
    (hnew : ∀ t x, l[t]? = some x → f (m + t) = x) :
    (List.range (m + l.length)).map f = (List.range m).map g ++ l := by
  apply List.ext_getElem?
  intro j
  by_cases hj : j < m
  · rw [List.getElem?_append_left (by simpa using hj)]
    simp [hj, hold j hj, Nat.lt_add_right l.length hj]
  · obtain ⟨t, rfl⟩ : ∃ t, j = m + t := ⟨j - m, by omega⟩
    rw [List.getElem?_append_right (by simp)]
    simp only [List.length_map, List.length_range, Nat.add_sub_cancel_left]
    cases hl : l[t]? with
    | none =>
      have : l.length ≤ t := List.getElem?_eq_none_iff.mp hl
      simp [this]
    | some x =>
      have : t < l.length := (List.getElem?_eq_some_iff.mp hl).1
      simp [this, hnew t x hl]

/-- New indirect blocks `m` and new data sectors `l` for the inode block `d`. -/
structure Supply (s : Fs) (i : Nat) (d : Bytes) (m l : List Nat) : Prop where
  nodup : (sectorsOf s.device i d ++ (m ++ l)).Nodup
  lt : ∀ k ∈ sectorsOf s.device i d ++ (m ++ l), k < s.deviceSize
  small : s.deviceSize ≤ 2 ^ 32
  count : indirectCnt (sectorCnt (InodeDisk.size d) + l.length) =
    indirectCnt (sectorCnt (InodeDisk.size d)) + m.length

/-- The pointer blocks written for a supply of sectors. -/
structure Committed (s : Fs) (i : Nat) (d : Bytes) (m l : List Nat) (s' : Fs) : Prop where
  built : Built (fun k => k = InodeDisk.doubleIndirectBlock d ∨ k ∈ indirectSectors s.device d ++ m) s s'
  indirect : ∀ d', InodeDisk.doubleIndirectBlock d' = InodeDisk.doubleIndirectBlock d →
    sectorCnt (InodeDisk.size d') = sectorCnt (InodeDisk.size d) + l.length →
    indirectSectors s'.device d' = indirectSectors s.device d ++ m
  data : ∀ d', InodeDisk.doubleIndirectBlock d' = InodeDisk.doubleIndirectBlock d →
    sectorCnt (InodeDisk.size d') = sectorCnt (InodeDisk.size d) + l.length →
    dataSectors s'.device d' = dataSectors s.device d ++ l
  pointers : ∀ d', InodeDisk.doubleIndirectBlock d' = InodeDisk.doubleIndirectBlock d →
    sectorCnt (InodeDisk.size d') = sectorCnt (InodeDisk.size d) + l.length → PointersOk s' d'

theorem enterBlocks_ends {s : Fs} {i : Nat} {d : Bytes} {m l : List Nat} (hs : Supply s i d m l)
    (hp : PointersOk s d) (hl : l ≠ []) {E : Panic → Fs → Prop} :
    Ends (enterBlocks (InodeDisk.doubleIndirectBlock d) (sectorCnt (InodeDisk.size d))
        (indirectCnt (sectorCnt (InodeDisk.size d))) m l) s
      (fun _ s' => Committed s i d m l s') E := by
  obtain ⟨hnd, hlt, hsmall, hcount⟩ := hs
  generalize hcur : sectorCnt (InodeDisk.size d) = cur at hcount
  generalize hdib : InodeDisk.doubleIndirectBlock d = dib
  have hdd : ∀ j, (s.device dib).word j = indirectSector s.device d j := fun j => by rw [← hdib]; rfl
  have hinds : (List.range (indirectCnt cur)).map (fun j => (s.device dib).word j) =
      indirectSectors s.device d := by
    unfold indirectSectors
    rw [hcur]
    exact List.map_congr_left fun j _ => hdd j
  have hm32 : ∀ y ∈ m, y < 2 ^ 32 := fun y hy =>
    Nat.lt_of_lt_of_le (hlt y (by simp [hy])) hsmall
  have hl32 : ∀ y ∈ l, y < 2 ^ 32 := fun y hy =>
    Nat.lt_of_lt_of_le (hlt y (by simp [hy])) hsmall
  generalize hdd' : enterIndirectBlocks (s.device dib) (indirectCnt cur) m = dd
  -- The pointers in the new double-indirect block.
  have hptr : (List.range (indirectCnt cur + m.length)).map (pointer dd) =
      indirectSectors s.device d ++ m := by
    rw [← hinds, ← hdd']
    exact map_range_append (fun j hj => enterIndirectBlocks_old m _ hj)
      fun t x ht => enterIndirectBlocks_new m _ hm32 ht
  have hsub : (dib :: (indirectSectors s.device d ++ m)).Nodup := by
    refine List.Nodup.sublist ?_ hnd
    rw [← hdib]
    unfold sectorsOf metaSectors
    refine List.Sublist.cons i ?_
    show List.Sublist _ (_ :: (indirectSectors s.device d ++ dataSectors s.device d ++ (m ++ l)))
    rw [List.append_assoc]
    exact (List.Sublist.append_left
      ((List.sublist_append_left m l).trans (List.sublist_append_right _ _)) _).cons_cons _
  obtain ⟨hdibm, hndm⟩ := List.nodup_cons.mp hsub
  have hmem : ∀ a < indirectCnt cur + m.length, pointer dd a ∈ indirectSectors s.device d ++ m := by
    intro a ha
    rw [← hptr]
    exact List.mem_map_of_mem (List.mem_range.mpr ha)
  have hinj : ∀ a b, a < indirectCnt cur + m.length → b < indirectCnt cur + m.length →
      pointer dd a = pointer dd b → a = b := by
    intro a b ha hb he
    rw [← hptr] at hndm
    exact List.inj_on_of_nodup_map hndm (List.mem_range.mpr ha) (List.mem_range.mpr hb) he
  have htouch : ∀ q, Touched (pointer dd) cur l q → q ∈ indirectSectors s.device d ++ m := by
    rintro q ⟨t, ht, rfl⟩
    exact hmem _ (hcount ▸ div_lt_indirectCnt (by omega))
  have hheld : ∀ q, ¬ Held (pointer dd) none q := by rintro q ⟨_, ⟨⟩, -⟩
  have hmeta : ∀ q, q = dib ∨ q ∈ indirectSectors s.device d ++ m → q < s.deviceSize := by
    rintro q (rfl | hq)
    · exact hlt q (by rw [← hdib]; simp [sectorsOf, metaSectors])
    · refine hlt q ?_
      rcases List.mem_append.mp hq with hq | hq
      · simp [sectorsOf, metaSectors, hq]
      · simp [hq]
  unfold enterBlocks
  simp only [ends_bind]
  rw [ends_blockRead (hmeta dib (.inl rfl)), ends_blockWrite (hmeta dib (.inl rfl)), hdd']
  refine (enterSectors_ends dd l (s := s.put .doubleIndirect dib dd)
    fun q hq => hmeta q (.inr (htouch q (hq.resolve_right (hheld q))))).imp ?_
  rintro - s' ⟨hb, hdev, hrole⟩
  have hbuilt : Built (fun k => k = dib ∨ k ∈ indirectSectors s.device d ++ m) s s' :=
    ((built_put s rfl dib dd).mono fun q => .inl).trans
      (hb.mono fun q hq => .inr (htouch q (hq.resolve_right (hheld q))))
  have hdibT : ¬ (Touched (pointer dd) cur l dib ∨ Held (pointer dd) none dib) := by
    rintro (hT | hH)
    · exact hdibm (htouch dib hT)
    · exact hheld _ hH
  have hdibdev : s'.device dib = dd := by
    rw [hb.device dib hdibT]
    simp [Fs.put]
  have hind : ∀ d', InodeDisk.doubleIndirectBlock d' = dib → sectorCnt (InodeDisk.size d') = cur + l.length →
      indirectSectors s'.device d' = indirectSectors s.device d ++ m := by
    intro d' hd' hn'
    unfold indirectSectors indirectSector
    rw [hn', hcount, hd', hdibdev]
    exact hptr
  refine ⟨hdib.symm ▸ hbuilt, fun d' hd' hn' => hind d' (hd'.trans hdib) (hcur ▸ hn'), ?_, ?_⟩ <;>
    intro d' hd' hn' <;> rw [hdib] at hd' <;> rw [hcur] at hn'
  · -- Old entries have stayed and the new sectors follow them.
    have hsec : ∀ j, dataSector s'.device d' j =
        (entered (pointer dd) cur l (s.put .doubleIndirect dib dd).device
          (pointer dd (j / pointerBlockPointersCount))).word (j % pointerBlockPointersCount) := by
      intro j
      unfold dataSector indirectSector
      rw [hd', hdibdev, hdev]
      rfl
    unfold dataSectors
    rw [hn', hcur]
    refine map_range_append (fun j hj => ?_) fun t x ht => ?_
    · have hold : indirectSector s.device d (j / pointerBlockPointersCount) =
          pointer dd (j / pointerBlockPointersCount) := by
        rw [← hdd, ← hdd']
        exact (enterIndirectBlocks_old m _ (div_lt_indirectCnt hj)).symm
      rw [hsec, entered_old hinj l hj (Nat.le_of_eq hcount)]
      unfold dataSector
      rw [hold, Fs.put]
      simp only
      rw [if_neg]
      · rfl
      · intro he
        refine hdibm (he ▸ hmem _ ?_)
        have := div_lt_indirectCnt hj
        omega
    · rw [hsec, entered_new hinj l hl32 (Nat.le_of_eq hcount) ht]
  refine ⟨fun _ => ?_, fun hz => ?_, fun q hq => ?_⟩
  · rw [hd', hdibdev, hb.role dib hdibT]
    simp [Fs.put, lastRole_write, Writer.isMeta]
  · have : l.length = 0 := by omega
    exact absurd (List.length_eq_zero_iff.mp this) hl
  · by_cases hT : Touched (pointer dd) cur l q
    · exact hrole q (.inl hT)
    · -- An old indirect block that has been left alone.
      have hT' : ¬ (Touched (pointer dd) cur l q ∨ Held (pointer dd) none q) := by
        rintro (h | h)
        · exact hT h
        · exact hheld _ h
      rw [hind d' hd' hn'] at hq
      have hqd : q ≠ dib := fun he => hdibm (he ▸ hq)
      have hqold : q ∈ indirectSectors s.device d := by
        rcases List.mem_append.mp hq with h | h
        · exact h
        · exfalso
          obtain ⟨t, ht⟩ := List.mem_iff_getElem?.mp h
          have htlt := (List.getElem?_eq_some_iff.mp ht).1
          have hqp : pointer dd (indirectCnt cur + t) = q := by
            rw [← hdd']
            exact enterIndirectBlocks_new m _ hm32 ht
          refine hT ⟨pointerBlockPointersCount * (indirectCnt cur + t) - cur, ?_, ?_⟩
          · unfold indirectCnt pointerBlockPointersCount at hcount ⊢
            omega
          · rw [← hqp]
            congr 1
            unfold indirectCnt pointerBlockPointersCount at hcount ⊢
            omega
      have hput : Built (· = dib) s (s.put .doubleIndirect dib dd) := built_put s rfl dib dd
      rw [hb.role q hT', hb.device q hT', hput.role q hqd, hput.device q hqd]
      exact hp.indirect q hqold

end Pintos.Filesys
