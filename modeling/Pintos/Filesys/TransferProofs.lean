import Pintos.Filesys.Tree

/-! Reading and writing the data of an inode.

A byte of a file is a byte of one of its data sectors, and reading it gives what its
cell holds (`readLoop_meets`). Writing stores into the cells of the file's sectors and
nowhere else (`writeLoop_meets`). Whether the cache served a sector or not makes no
difference to either. -/
namespace Pintos.Filesys
open Outcome WriteBack

section
variable {P : Prop} {N : Nat → Option Bytes} {X : List Nat} {s s' : Fs} {i : Nat} {d : Bytes}

theorem ends_getCache {k : Nat} {Q : Option Cache → Fs → Prop} {E : Panic → Fs → Prop} :
    Ends (getCache k) s Q E ↔ Q (findCache k s.cachedBlocks) s := Iff.rfl

/-- What a look-up or, on a miss, the device gives. -/
theorem current_of_some {k : Nat} {ca : Cache} (h : findCache k s.cachedBlocks = some ca) :
    (s.cell k).current = ca.data := by
  simp [Fs.cell, Cell.current, h]

theorem current_of_none {k : Nat} (h : findCache k s.cachedBlocks = none) :
    (s.cell k).current = s.device k := by
  simp [Fs.cell, Cell.current, h]

theorem cacheOk_heap (h : CacheOk s) (heap : List Bool) : CacheOk {s with heap := heap} :=
  cacheOk_of_cells h rfl rfl rfl rfl

/-! ### Read-ahead -/

theorem cacheSector_ends (h : CacheOk s) (k : Nat) :
    Ends (cacheSector k) s (fun _ s' => Quiet s s' ∧ CacheOk s')
      (fun e _ => e = .pastEnd ∧ s.deviceSize ≤ k) := by
  unfold cacheSector
  simp only [ends_bind, ends_getCache]
  cases hk : findCache k s.cachedBlocks with
  | some ca => exact ⟨.refl s, h⟩
  | none =>
    simp only [ends_bind]
    by_cases hlt : k < s.deviceSize
    · rw [ends_blockRead hlt]
      exact setCache_ends h hlt hk
    · exact ends_blockRead_or (fun hlt' => absurd hlt' hlt) ⟨rfl, Nat.not_lt.mp hlt⟩

theorem readAheadFrom_ends (index : Nat) : ∀ (left j : Nat) (s : Fs), CacheOk s →
    Ends (readAheadFrom index left j) s (fun _ s' => Quiet s s' ∧ CacheOk s')
      (fun e _ => e = .pastEnd ∧ ∃ t < j + left, s.deviceSize ≤ (index + t) % 2 ^ 32) := by
  intro left
  induction left with
  | zero => exact fun j s h => ⟨.refl s, h⟩
  | succ left ih =>
    intro j s h
    unfold readAheadFrom
    simp only [ends_bind]
    apply (cacheSector_ends h _).mono
    · rintro - s' ⟨hq, h'⟩
      apply (ih (j + 1) s' h').mono
      · rintro - s'' ⟨hq', h''⟩
        exact ⟨hq.trans hq', h''⟩
      · rintro e - ⟨he, t, ht, hpast⟩
        exact ⟨he, t, by omega, hq.deviceSize ▸ hpast⟩
    · exact fun e _ he => ⟨he.1, j, by omega, he.2⟩

/-! ### Finding the sector -/

theorem Tree.quiet (h : Tree P N X s) (hq : Quiet s s') (hc : CacheOk s') :
    Spoiled P s' ∨ Tree P N X s' :=
  h.calm hq.toCalm (fun _ => False.elim) hc hq.freeMap

theorem Tree.kept_quiet (h : Tree P N X s) (h' : Tree P N X s') (hq : Quiet s s')
    (hN : N i = some d) : Kept s s' d :=
  h.kept hq.toCalm h'.intact (fun _ => False.elim) hN

theorem Tree.heap (h : Tree P N X s) (heap : List Bool) : Tree P N X {s with heap := heap} :=
  {h with
    cache := cacheOk_heap h.cache heap
    pointers := fun i d hN => ⟨(h.pointers i d hN).double, (h.pointers i d hN).empty,
      (h.pointers i d hN).indirect⟩}

/-- The indirect block of file block `j`, in the buffer or not. -/
theorem loadIndirect_ends (h : Tree P N X s) (hN : N i = some d) {last : Option Nat} {buffer : Bytes}
    (hlast : ∀ l, last = some l → buffer = s.device (indirectSector s.device d l)) {j : Nat}
    (hj : j < sectorCnt (InodeDisk.size d)) {Q : Bytes → Fs → Prop} {E : Panic → Fs → Prop}
    (hQ : Q (s.device (indirectSector s.device d (j / pointerBlockPointersCount))) s) :
    Ends (loadIndirect (s.device (InodeDisk.doubleIndirectBlock d)) last
      (j / pointerBlockPointersCount) buffer) s Q E := by
  unfold loadIndirect
  split
  · rename_i hl
    rw [hlast _ hl]
    exact hQ
  · refine (ends_blockRead (h.owned_lt ⟨i, d, hN, ?_⟩)).mpr hQ
    exact mem_sectorsOf.mpr (.inl (mem_metaSectors.mpr
      (.inr (.inr (indirectSector_mem (div_lt_indirectCnt hj))))))

theorem Tree.data_lt (h : Tree P N X s) (hN : N i = some d) {j : Nat}
    (hj : j < sectorCnt (InodeDisk.size d)) : dataSector s.device d j < s.deviceSize :=
  h.owned_lt ⟨i, d, hN, mem_sectorsOf.mpr (.inr (dataSector_mem hj))⟩

theorem getElem?_slice (b : Bytes) (off : Nat) {n t : Nat} (h : t < n) :
    (slice b off n)[t]? = some (b (off + t)) := by
  simp [slice, h]

theorem length_slice (b : Bytes) (off n : Nat) : (slice b off n).length = n := by
  simp [slice]

/-! ### The read loop -/

theorem readSector_ends (h : CacheOk s) (k : Nat) (ahead : Bool) (off n : Nat) (sectorBuffer : Bool) :
    Ends (readSector ahead k off n sectorBuffer) s
      (fun r s' => Quiet s s' ∧ CacheOk s' ∧ (∀ b, r.1 = some b → b = (s.cell k).current) ∧
        (s.heap = [] → r.1 ≠ none))
      (fun e _ => e = .pastEnd ∧ (k < s.deviceSize → ahead = true ∧
        ∃ t ≤ readAheadSize, s.deviceSize ≤ (k + t) % 2 ^ 32)) := by
  unfold readSector
  simp only [ends_bind, ends_getCache]
  cases hca : findCache k s.cachedBlocks with
  | some ca =>
    refine ⟨.refl s, h, fun b hb => ?_, by simp⟩
    rw [current_of_some hca]
    exact (Option.some.inj hb).symm
  | none =>
    -- With the bounce buffer at hand, if it is needed, the sector is read and cached.
    have hmiss : ∀ (heap : List Bool) (sb : Bool), (s.heap = [] → heap = []) →
        Ends (do
          let block ← blockRead k
          setCache k block
          whenever ahead (inodeReadAhead k)
          return (some block, sb)) {s with heap := heap}
        (fun (r : Option Bytes × Bool) s' => Quiet s s' ∧ CacheOk s' ∧
          (∀ b, r.1 = some b → b = (s.cell k).current) ∧ (s.heap = [] → r.1 ≠ none))
        (fun e _ => e = .pastEnd ∧ (k < s.deviceSize → ahead = true ∧
          ∃ t ≤ readAheadSize, s.deviceSize ≤ (k + t) % 2 ^ 32)) := by
      intro heap sb hheap
      have hq0 : Quiet s {s with heap := heap} := quiet_heap hheap
      have hread : ∀ b, some (s.device k) = some b → b = (s.cell k).current := by
        rintro b ⟨⟩
        exact (current_of_none hca).symm
      by_cases hk : k < s.deviceSize
      · simp only [ends_bind]
        rw [ends_blockRead (s := {s with heap := heap}) hk]
        apply (setCache_ends (cacheOk_heap h heap) hk hca).imp
        rintro - s1 ⟨hq1, hc1⟩
        apply ends_whenever
        · intro hah
          apply (readAheadFrom_ends _ _ _ s1 hc1).mono
          · rintro - s2 ⟨hq2, hc2⟩
            exact ⟨hq0.trans (hq1.trans hq2), hc2, hread, by simp⟩
          · rintro e - ⟨he, t, ht, hpast⟩
            exact ⟨he, fun _ => ⟨hah, t, by omega, hq1.deviceSize ▸ hpast⟩⟩
        · exact fun _ => ⟨hq0.trans hq1, hc1, hread, by simp⟩
      · rw [ends_bind]
        exact ends_blockRead_or (fun hlt => absurd hlt hk) ⟨rfl, fun hlt => absurd hlt hk⟩
    simp only [ends_bind]
    generalize (decide (off = 0) && decide (n = blockSectorSize)) = whole
    cases whole with
    | true => exact hmiss s.heap sectorBuffer id
    | false =>
      cases sectorBuffer with
      | true => exact hmiss s.heap true id
      | false =>
        refine ends_malloc fun b heap hheap => ?_
        cases b with
        | true => exact hmiss heap true fun hh => (hheap hh).2
        | false =>
          exact ⟨quiet_heap fun hh => (hheap hh).2, cacheOk_heap h heap, (by simp),
            fun hh => absurd (hheap hh).1 (by decide)⟩

/-- `l` is what lies from byte `offset` of the file on, as far as that is certain. -/
def Fetched (s : Fs) (d : Bytes) (offset : Nat) (l : List UInt8) : Prop :=
  ∀ t b, t < l.length → (s.cell (dataSector s.device d ((offset + t) / blockSectorSize))).Firm
    ((offset + t) % blockSectorSize) b → l[t]? = some b

theorem fetched_nil (s : Fs) (d : Bytes) (offset : Nat) : Fetched s d offset [] :=
  fun t b ht => by simp at ht

/-- Bytes of one sector, followed by bytes read later. -/
theorem Fetched.append {offset n : Nat} (hn : offset % blockSectorSize + n ≤ blockSectorSize)
    (hk : ∀ j, j < sectorCnt (InodeDisk.size d) → dataSector s'.device d j = dataSector s.device d j)
    (hq : Quiet s s') {l : List UInt8} (hl : offset + n + l.length ≤ InodeDisk.size d)
    (h : Fetched s' d (offset + n) l) :
    Fetched s d offset
      (slice (s.cell (dataSector s.device d (offset / blockSectorSize))).current
        (offset % blockSectorSize) n ++ l) := by
  intro t b ht hb
  rw [List.length_append, length_slice] at ht
  by_cases htn : t < n
  · rw [List.getElem?_append_left (by rw [length_slice]; exact htn), getElem?_slice _ _ htn]
    have hdiv : (offset + t) / blockSectorSize = offset / blockSectorSize := by
      unfold blockSectorSize at hn ⊢
      omega
    have hmod : (offset + t) % blockSectorSize = offset % blockSectorSize + t := by
      unfold blockSectorSize at hn ⊢
      omega
    rw [hdiv, hmod] at hb
    exact congrArg some hb.current
  · rw [List.getElem?_append_right (by rw [length_slice]; omega), length_slice]
    have he : offset + n + (t - n) = offset + t := by omega
    apply h (t - n) b (by omega)
    rw [he, hk _ (div_lt_sectorCnt (by omega))]
    exact (hq.cells _ id).firm hb

/-- A sector that is cached is read without any change. -/
theorem readSector_hit (s : Fs) (k : Nat) (ahead : Bool) (off n : Nat) (sectorBuffer : Bool) :
    Ends (readSector ahead k off n sectorBuffer) s (fun _ s' => findCache k s.cachedBlocks ≠ none → s' = s)
      fun _ _ => findCache k s.cachedBlocks = none := by
  cases hca : findCache k s.cachedBlocks with
  | none => exact (ends_self _ s).mono (fun _ _ _ hne => absurd rfl hne) fun _ _ _ => rfl
  | some ca =>
    unfold readSector
    simp only [ends_bind, ends_getCache, hca]
    exact fun _ => rfl

/-- What the read loop leaves: `l` has been read after `bytes`. -/
structure ReadTo (P : Prop) (N : Nat → Option Bytes) (X : List Nat) (s : Fs) (d : Bytes)
    (offset size : Nat) (l : List UInt8) (s' : Fs) : Prop where
  quiet : Quiet s s'
  tree : Tree P N X s'
  length_le : l.length ≤ size
  length_eq : s.heap = [] → l.length = size
  fetched : Fetched s d offset l

theorem chunk_bounds (offset : Nat) {size : Nat} (h : size ≠ 0) :
    0 < min (blockSectorSize - offset % blockSectorSize) size ∧
      offset % blockSectorSize + min (blockSectorSize - offset % blockSectorSize) size ≤ blockSectorSize ∧
      min (blockSectorSize - offset % blockSectorSize) size ≤ size := by
  unfold blockSectorSize
  omega

/-- The indirect block in the buffer is still the one on the device. -/
theorem Kept.indirectBlock (h : Kept s s' d) {j : Nat} (hj : j < sectorCnt (InodeDisk.size d)) :
    s'.device (indirectSector s'.device d (j / pointerBlockPointersCount)) =
      s.device (indirectSector s.device d (j / pointerBlockPointersCount)) := by
  have he : indirectSector s'.device d (j / pointerBlockPointersCount) =
      indirectSector s.device d (j / pointerBlockPointersCount) := by
    unfold indirectSector
    rw [h.double (Nat.zero_lt_of_lt hj)]
  rw [he, h.indirect _ (indirectSector_mem (div_lt_indirectCnt hj))]

/-- The sectors that the read-ahead asks for, while the bytes are read, are on the device. It asks for none as long as
the sectors that are read are cached. -/
def AheadFits (s : Fs) (d : Bytes) (offset size : Nat) : Prop :=
  ∀ o, offset ≤ o → o < offset + size →
    dataSector s.device d (o / blockSectorSize) + readAheadSize < s.deviceSize ∨
      ∀ o', offset ≤ o' → o' ≤ o → findCache (dataSector s.device d (o' / blockSectorSize)) s.cachedBlocks ≠ none

/-- The rest of the bytes is read from where it was. -/
theorem AheadFits.rest {offset size n : Nat} (h : AheadFits s d offset size) (hle : n ≤ size)
    (hs : offset + size ≤ InodeDisk.size d) (hd : s'.deviceSize = s.deviceSize) (hk : Kept s s' d)
    (hhit : findCache (dataSector s.device d (offset / blockSectorSize)) s.cachedBlocks ≠ none → s' = s) :
    AheadFits s' d (offset + n) (size - n) := by
  intro o hlo hhi
  by_cases hfirst : findCache (dataSector s.device d (offset / blockSectorSize)) s.cachedBlocks = none
  · -- after a miss the sectors have to fit
    left
    rw [hk.dataSector (div_lt_sectorCnt (by omega)), hd]
    exact (h o (by omega) (by omega)).resolve_right fun hcached => hcached offset (Nat.le_refl _) (by omega) hfirst
  · rw [hhit hfirst]
    exact (h o (by omega) (by omega)).imp_right fun hcached o' ho' => hcached o' (by omega)

theorem readLoop_meets (hN : N i = some d) (ahead : Bool) : ∀ (rounds : Nat) {s : Fs}
    (_ : Tree P N X s) {size offset : Nat} {last : Option Nat} {indirect : Bytes}
    {sectorBuffer : Bool} {bytes : List UInt8}, size ≤ rounds → offset + size ≤ InodeDisk.size d →
    (∀ l, last = some l → indirect = s.device (indirectSector s.device d l)) →
    Meets (Spoiled P) (readLoop ahead (s.device (InodeDisk.doubleIndirectBlock d)) rounds size offset
        last indirect sectorBuffer bytes) s
      (fun r s' => ∃ l, r = bytes ++ l ∧ ReadTo P N X s d offset size l s')
      (fun e _ => ahead = true ∧ e = .pastEnd ∧ ¬ AheadFits s d offset size) := by
  intro rounds
  induction rounds with
  | zero =>
    intro s h size offset last indirect sb bytes hsize _ _
    exact meets_pure _ ⟨[], by simp, .refl s, h, by simp, fun _ => by simp; omega, fetched_nil s d offset⟩
  | succ rounds ih =>
    intro s h size offset last indirect sb bytes hsize hoff hlast
    unfold readLoop
    by_cases hz : size = 0
    · rw [if_pos hz]
      exact meets_pure _ ⟨[], by simp, .refl s, h, by simp, fun _ => by simp [hz], fetched_nil s d offset⟩
    rw [if_neg hz]
    have hj : offset / blockSectorSize < sectorCnt (InodeDisk.size d) := div_lt_sectorCnt (by omega)
    obtain ⟨hn0, hn, hns⟩ := chunk_bounds offset hz
    simp only
    generalize min (blockSectorSize - offset % blockSectorSize) size = n at hn0 hn hns ⊢
    unfold Meets
    simp only [ends_bind]
    refine loadIndirect_ends h hN hlast hj ?_
    apply ((readSector_ends h.cache _ ahead (offset % blockSectorSize) n sb).and
      (readSector_hit s _ ahead (offset % blockSectorSize) n sb)).mono
    · rintro ⟨b, sb'⟩ s1 ⟨⟨hq, hc, hb, hheap⟩, hhit⟩
      rcases h.quiet hq hc with hbad | h1
      · exact meets_of_bad (spoiled_sticky P) hbad
      cases b with
      | none =>
        exact meets_pure _ ⟨[], by simp, hq, h1, by simp, fun hh => absurd rfl (hheap hh),
          fetched_nil s d offset⟩
      | some b =>
        -- The rest of the loop reads from a file that is still where it was.
        have hk := h.kept_quiet h1 hq hN
        simp only
        rw [hb b rfl, ← hk.double (Nat.zero_lt_of_lt hj)]
        apply (ih h1 (by omega) (by omega) ?_).mono
        · rintro r s' (hbad | ⟨l, rfl, hl⟩)
          · exact .inl hbad
          have hle := hl.length_le
          refine .inr ⟨_, List.append_assoc _ _ _, hq.trans hl.quiet, hl.tree, ?_, fun hh => ?_, ?_⟩
          · rw [List.length_append, length_slice]
            omega
          · rw [List.length_append, length_slice, hl.length_eq (hq.heap hh)]
            omega
          · exact hl.fetched.append hn (fun j => hk.dataSector) hq (by omega)
        · rintro e s' (hbad | ⟨hah, he, hfit⟩)
          · exact .inl hbad
          · exact .inr ⟨hah, he, fun hf => hfit (hf.rest hns hoff hq.deviceSize hk hhit)⟩
        · rintro l ⟨⟩
          exact (hk.indirectBlock hj).symm
    · rintro e - ⟨⟨he, hpast⟩, hmiss⟩
      obtain ⟨hah, t, ht, hpast⟩ := hpast (h.data_lt hN hj)
      refine .inr ⟨hah, he, fun hf => ?_⟩
      have hlt := (hf offset (Nat.le_refl _) (by omega)).resolve_right fun hcached =>
        hcached offset (Nat.le_refl _) (Nat.le_refl _) hmiss
      have hsmall := h.small
      rw [dataSector] at hlt
      grind

/-- Wherever the pointers lead, reading only moves the cache, and with memory all the bytes are read. -/
theorem readLoop_quiet (ahead : Bool) (doubleIndirect : Bytes) : ∀ (rounds : Nat) {s : Fs} (_ : CacheOk s)
    (size offset : Nat) (last : Option Nat) (indirect : Bytes) (sectorBuffer : Bool)
    (bytes : List UInt8),
    Ends (readLoop ahead doubleIndirect rounds size offset last indirect sectorBuffer bytes) s
      (fun r s' => Quiet s s' ∧ CacheOk s' ∧ (s.heap = [] → size ≤ rounds → r.length = bytes.length + size))
      (fun e _ => e = .pastEnd) := by
  intro rounds
  induction rounds with
  | zero => exact fun {s} h size offset last indirect sb bytes => ⟨.refl s, h, by omega⟩
  | succ rounds ih =>
    intro s h size offset last indirect sb bytes
    unfold readLoop
    by_cases hz : size = 0
    · rw [if_pos hz]
      exact ⟨.refl s, h, by omega⟩
    rw [if_neg hz]
    obtain ⟨hn0, -, hns⟩ := chunk_bounds offset hz
    have hload : Ends (loadIndirect doubleIndirect last (offset / blockSectorSize / pointerBlockPointersCount)
        indirect) s (fun _ s' => s' = s) (fun e _ => e = .pastEnd) := by
      unfold loadIndirect
      split
      · exact rfl
      · exact ends_blockRead_or (fun _ => rfl) rfl
    simp only
    rw [ends_bind]
    apply hload.mono _ fun _ _ => id
    rintro indirect' _ rfl
    rw [ends_bind]
    apply (readSector_ends h _ _ _ _ _).mono
    · rintro ⟨b, sb'⟩ s1 ⟨hq, hc, -, hgot⟩
      cases b with
      | none => exact ⟨hq, hc, fun hh => absurd rfl (hgot hh)⟩
      | some b =>
        apply (ih hc _ _ _ _ _ _).imp
        rintro r s' ⟨hq', hc', hlen⟩
        refine ⟨hq.trans hq', hc', fun hh hle => ?_⟩
        rw [hlen (hq.heap hh) (by omega), List.length_append, length_slice]
        omega
    · exact fun e _ he => he.1

/-! ### The write loop -/

theorem writeSector_ends (h : CacheOk s) {k : Nat} (hk : k < s.deviceSize) (chunk : Bytes)
    {off n : Nat} (sectorBuffer : Bool) {E : Panic → Fs → Prop} :
    Ends (writeSector k chunk off n sectorBuffer) s
      (fun r s' => CacheOk s' ∧ (r.1 = true → Stored s s' k off n chunk) ∧
        (r.1 = false → Quiet s s') ∧ (s.heap = [] → r.1 = true)) E := by
  unfold writeSector
  simp only [ends_bind, ends_getCache]
  cases hca : findCache k s.cachedBlocks with
  | some ca =>
    simp only [ends_bind]
    apply (updateCache_ends h hca chunk off n).imp
    rintro - s' ⟨hs, hc⟩
    exact ⟨hc, fun _ => hs, (by simp), fun _ => rfl⟩
  | none =>
    -- The block goes to the device and from there into the cache.
    have hput : ∀ {s0 : Fs} (f : Bytes → Bytes) {sb : Bool}, Quiet s s0 → CacheOk s0 →
        findCache k s0.cachedBlocks = none → s0.device k = s.device k → s0.cell k = s.cell k →
        (∀ e o, o < blockSectorSize → f e o = e.patch off n chunk o) →
        Ends (do
          blockWrite .data k (f (s.device k))
          setCache k (f (s.device k))
          return (true, sb)) s0
        (fun (r : Bool × Bool) s' => CacheOk s' ∧ (r.1 = true → Stored s s' k off n chunk) ∧
          (r.1 = false → Quiet s s') ∧ (s.heap = [] → r.1 = true)) E := by
      intro s0 f sb hq hc hnone hdev hcell hf
      have hk0 : k < s0.deviceSize := by rw [hq.deviceSize]; exact hk
      have hstored := put_stored hnone f hf
      have hget : (s0.put .data k (f (s.device k))).device k = f (s.device k) := by simp [Fs.put]
      simp only [ends_bind]
      rw [ends_blockWrite hk0]
      have hset := setCache_ends (E := E) (cacheOk_put hc .data k (f (s.device k))) hk0 hnone
      rw [hget] at hset
      apply hset.imp
      rintro - s' ⟨hq', hc'⟩
      rw [hdev] at hstored
      have hs' := hstored.quiet hq'
      refine ⟨hc', fun _ => ⟨(hq.calm _).trans hs'.calm, hs'.freeMap.trans hq.freeMap,
        hs'.releases.trans hq.releases, ?_⟩,
        (by simp), fun _ => rfl⟩
      rw [← hcell]
      exact hs'.cell
    by_cases hw : (decide (off = 0) && decide (n = blockSectorSize)) = true
    · rw [if_pos hw]
      simp only [Bool.and_eq_true, decide_eq_true_eq] at hw
      refine hput (fun _ => chunk) (.refl s) h hca rfl rfl fun e o ho => ?_
      rw [Bytes.patch_inside e chunk (by omega) (by omega), hw.1, Nat.sub_zero]
    · rw [if_neg hw]
      have hpart : ∀ (heap : List Bool), (s.heap = [] → heap = []) →
          Ends (do
            let block ← blockRead k
            let block := block.patch off n chunk
            blockWrite .data k block
            setCache k block
            return (true, true)) {s with heap := heap}
          (fun (r : Bool × Bool) s' => CacheOk s' ∧ (r.1 = true → Stored s s' k off n chunk) ∧
            (r.1 = false → Quiet s s') ∧ (s.heap = [] → r.1 = true)) E := by
        intro heap hheap
        rw [ends_bind, ends_blockRead (s := {s with heap := heap}) hk]
        exact hput (fun e => e.patch off n chunk) (quiet_heap hheap) (cacheOk_heap h heap) hca rfl rfl
          fun _ _ _ => rfl
      simp only [ends_bind]
      cases sectorBuffer with
      | true => exact hpart s.heap id
      | false =>
        refine ends_malloc fun b heap hheap => ?_
        cases b with
        | true => exact hpart heap fun hh => (hheap hh).2
        | false =>
          exact ⟨cacheOk_heap h heap, (by simp), fun _ => quiet_heap fun hh => (hheap hh).2,
            fun hh => (hheap hh).1⟩

/-- Bytes `offset .. offset + n - 1` of the file are those of `src`, the others as before. -/
def Put (s s' : Fs) (d : Bytes) (offset n : Nat) (src : Bytes) : Prop :=
  ∀ o b, o / blockSectorSize < sectorCnt (InodeDisk.size d) →
    (if offset ≤ o ∧ o < offset + n then b = src (o - offset)
      else (s.cell (dataSector s.device d (o / blockSectorSize))).Firm (o % blockSectorSize) b) →
    (s'.cell (dataSector s.device d (o / blockSectorSize))).Firm (o % blockSectorSize) b

theorem Quiet.put (h : Quiet s s') (offset : Nat) (src : Bytes) : Put s s' d offset 0 src := by
  intro o b _ hb
  rw [if_neg (by omega)] at hb
  exact (h.cells _ id).firm hb

/-- A chunk of one sector, followed by what is written later. -/
theorem Put.step {s1 : Fs} {offset n m : Nat} {src : Bytes}
    (hn : offset % blockSectorSize + n ≤ blockSectorSize) (hpos : 0 < n)
    (hlt : offset / blockSectorSize < sectorCnt (InodeDisk.size d))
    (hinj : ∀ j j', j < sectorCnt (InodeDisk.size d) → j' < sectorCnt (InodeDisk.size d) →
      dataSector s.device d j = dataSector s.device d j' → j = j')
    (hst : Stored s s1 (dataSector s.device d (offset / blockSectorSize)) (offset % blockSectorSize) n src)
    (hk : ∀ j, j < sectorCnt (InodeDisk.size d) → dataSector s1.device d j = dataSector s.device d j)
    (h : Put s1 s' d (offset + n) m fun t => src (n + t)) : Put s s' d offset (n + m) src := by
  intro o b ho hb
  have h := h o b ho
  rw [hk _ ho] at h
  apply h
  have hmod : o % blockSectorSize < blockSectorSize := Nat.mod_lt _ (by decide)
  by_cases hlater : offset + n ≤ o ∧ o < offset + n + m
  · rw [if_pos (by omega)] at hb
    rw [if_pos hlater, hb]
    congr 1
    omega
  rw [if_neg hlater]
  by_cases hsame : o / blockSectorSize = offset / blockSectorSize
  · rw [hsame] at hb ⊢
    by_cases hin : offset ≤ o ∧ o < offset + n
    · rw [if_pos (by omega)] at hb
      have he : o % blockSectorSize - offset % blockSectorSize = o - offset := by
        unfold blockSectorSize at hsame ⊢
        omega
      have := hst.firm_inside hmod (by unfold blockSectorSize at hsame ⊢; omega)
        (by unfold blockSectorSize at hsame ⊢; omega)
      grind
    · rw [if_neg (by omega)] at hb
      refine hst.firm_outside hmod ?_ hb
      unfold blockSectorSize at hsame ⊢
      omega
  · have hout : ¬ (offset ≤ o ∧ o < offset + (n + m)) := by
      unfold blockSectorSize at hsame hn
      omega
    rw [if_neg hout] at hb
    exact (hst.calm.cells _ fun he => hsame (hinj _ _ ho hlt he)).firm hb

/-- What the write loop leaves: `n` bytes of `src` have been written from `offset` on. -/
structure WroteTo (P : Prop) (N : Nat → Option Bytes) (X : List Nat) (s : Fs) (d : Bytes)
    (offset size n : Nat) (src : Bytes) (s' : Fs) : Prop where
  calm : Calm (· ∈ dataSectors s.device d) s s'
  freeMap : s'.freeMap = s.freeMap
  releases : releases s'.trace = releases s.trace
  tree : Tree P N X s'
  le : n ≤ size
  eq : s.heap = [] → n = size
  put : Put s s' d offset n src

theorem Tree.dataSector_inj (h : Tree P N X s) (hN : N i = some d) {j j' : Nat}
    (hj : j < sectorCnt (InodeDisk.size d)) (hj' : j' < sectorCnt (InodeDisk.size d))
    (he : dataSector s.device d j = dataSector s.device d j') : j = j' :=
  Filesys.dataSector_inj (List.Nodup.of_append_right (h.nodup i d hN)) hj hj' he

theorem writeLoop_meets (hN : N i = some d) (buffer : Bytes) : ∀ (rounds : Nat) {s : Fs}
    (_ : Tree P N X s) {size offset : Nat} {last : Option Nat} {indirect : Bytes}
    {sectorBuffer : Bool} {written : Nat}, size ≤ rounds → offset + size ≤ InodeDisk.size d →
    (∀ l, last = some l → indirect = s.device (indirectSector s.device d l)) →
    Meets (Spoiled P) (writeLoop (s.device (InodeDisk.doubleIndirectBlock d)) buffer rounds size offset
        last indirect sectorBuffer written) s
      (fun r s' => ∃ n, r = written + n ∧
        WroteTo P N X s d offset size n (fun t => buffer (written + t)) s')
      (fun _ _ => False) := by
  intro rounds
  induction rounds with
  | zero =>
    intro s h size offset last indirect sb written hsize _ _
    exact meets_pure _ ⟨0, rfl, .refl _ s, rfl, rfl, h, by omega, fun _ => by omega, (Quiet.refl s).put _ _⟩
  | succ rounds ih =>
    intro s h size offset last indirect sb written hsize hoff hlast
    unfold writeLoop
    by_cases hz : size = 0
    · rw [if_pos hz]
      exact meets_pure _ ⟨0, rfl, .refl _ s, rfl, rfl, h, by omega, fun _ => hz.symm, (Quiet.refl s).put _ _⟩
    rw [if_neg hz]
    have hj : offset / blockSectorSize < sectorCnt (InodeDisk.size d) := div_lt_sectorCnt (by omega)
    obtain ⟨hn0, hn, hns⟩ := chunk_bounds offset hz
    simp only
    generalize min (blockSectorSize - offset % blockSectorSize) size = n at hn0 hn hns ⊢
    unfold Meets
    simp only [ends_bind]
    refine loadIndirect_ends h hN hlast hj ?_
    apply (writeSector_ends h.cache (h.data_lt hN hj) _ sb).imp
    rintro ⟨b, sb'⟩ s1 ⟨hc, hst, hqu, hheap⟩
    cases b with
    | false =>
      have hq := hqu rfl
      rcases h.quiet hq hc with hbad | h1
      · exact meets_of_bad (spoiled_sticky P) hbad
      exact meets_pure _ ⟨0, rfl, hq.calm _, hq.freeMap, hq.releases, h1, by omega,
        fun hh => absurd (hheap hh) nofun, hq.put _ _⟩
    | true =>
      have hst := hst rfl
      have hmem : dataSector s.device d _ ∈ dataSectors s.device d := dataSector_mem hj
      have hcalm : Calm (· ∈ dataSectors s.device d) s s1 := hst.calm.mono fun k hk => hk ▸ hmem
      have hD : ∀ k, k ∈ dataSectors s.device d → DataOf N s k := fun k hk => ⟨i, d, hN, hk⟩
      rcases h.calm hcalm hD hc hst.freeMap with hbad | h1
      · exact meets_of_bad (spoiled_sticky P) hbad
      -- The rest of the loop writes to a file that is still where it was.
      have hk := h.kept hcalm h1.intact hD hN
      simp only
      rw [← hk.double (Nat.zero_lt_of_lt hj)]
      apply (ih h1 (by omega) (by omega) ?_).imp
      · rintro r s' ⟨m, rfl, hw⟩
        have hcalm' := hw.calm
        rw [hk.dataSectors] at hcalm'
        have hle := hw.le
        refine ⟨n + m, by omega, hcalm.trans hcalm', hw.freeMap.trans hst.freeMap,
          hw.releases.trans hst.releases, hw.tree, by omega, fun hh => ?_, ?_⟩
        · have := hw.eq (hcalm.heap hh)
          omega
        · refine Put.step hn hn0 hj (fun j j' => h.dataSector_inj hN) hst (fun j => hk.dataSector) ?_
          have hput := hw.put
          grind
      · rintro l ⟨⟩
        exact (hk.indirectBlock hj).symm

/-! ### The calls -/

theorem findInode_some {l : List Inode} {n : Inode} (h : findInode i l = some n) :
    n ∈ l ∧ n.sector = i :=
  ⟨List.mem_of_find?_eq_some h, by simpa using List.find?_some h⟩

theorem ends_inodeAt {n : Inode} (h : findInode i s.openInodes = some n) {Q : Inode → Fs → Prop}
    {E : Panic → Fs → Prop} : Ends (inodeAt i) s Q E ↔ Q n s := by
  unfold inodeAt
  simp only [ends_bind, ends_get, h, ends_pure]

theorem offT_eq {x : Int} (h : -2 ^ 31 ≤ x) (h' : x < 2 ^ 31) : offT x = x := by
  unfold offT Int.bmod
  simp only
  split <;> omega

/-- A range that ends below the maximal size is written as it is. -/
theorem write_range {size : Int} {offset : Nat} (hlo : 0 ≤ size + offset)
    (hhi : size + offset < maxFileSize) :
    (if offT (size + offset) > maxFileSize then (maxFileSize : Int) - offset else size) = size ∧
      offT (offset + size) = offset + size := by
  have hmax : (maxFileSize : Int) = 8388608 := rfl
  constructor
  · rw [offT_eq (by omega) (by omega), if_neg (by omega)]
  · rw [offT_eq (by omega) (by omega)]

theorem Tree.doubleIndirect_lt (h : Tree P N X s) (hN : N i = some d) :
    InodeDisk.doubleIndirectBlock d < s.deviceSize :=
  h.owned_lt ⟨i, d, hN, mem_sectorsOf.mpr (.inl (mem_metaSectors.mpr (.inr (.inl rfl))))⟩

theorem readAt_quiet (h : CacheOk s) {n : Inode} (hn : findInode i s.openInodes = some n)
    (ahead : Bool) (size : Int) (offset : Nat) :
    Ends (readAt ahead i size offset) s
      (fun r s' => Quiet s s' ∧ CacheOk s' ∧ (s.heap = [] → (offset : Int) ≤ InodeDisk.length n.data →
        r.length = (if offT (size + offset) > InodeDisk.length n.data then InodeDisk.length n.data - offset
          else size).toNat))
      (fun e _ => e = .pastEnd) := by
  unfold readAt
  simp only [ends_bind]
  rw [ends_inodeAt hn]
  split
  · exact ⟨.refl s, h, by omega⟩
  rw [ends_bind]
  refine ends_two_mallocs ?_ fun heap hheap => ?_
  · intro hne heap
    exact ⟨quiet_heap fun hh => absurd hh hne, cacheOk_heap h heap, fun hh => absurd hh hne⟩
  · rw [ends_bind]
    refine ends_blockRead_or (fun _ => ?_) rfl
    apply (readLoop_quiet ahead _ _ (cacheOk_heap h heap) _ _ _ _ _ _).imp
    rintro r s' ⟨hq, hc, hlen⟩
    refine ⟨(quiet_heap hheap).trans hq, hc, fun hh _ => ?_⟩
    rw [hlen (hheap hh) (Nat.le_refl _), List.length_nil, Nat.zero_add]

/-- The length of what is read, as long as the end of the range is an `off_t`. -/
def readLength (length size : Int) (offset : Nat) : Nat := (min size (length - offset)).toNat

theorem readAt_meets (h : Tree P N X s) {n : Inode} (hn : findInode i s.openInodes = some n)
    (hN : N i = some n.data) (ahead : Bool) {size : Int} {offset : Nat} (hlo : -2 ^ 31 ≤ size + offset)
    (hhi : size + offset < 2 ^ 31) :
    Meets (Spoiled P) (readAt ahead i size offset) s
      (fun r s' => ReadTo P N X s n.data offset (readLength (InodeDisk.length n.data) size offset) r s')
      (fun e _ => ahead = true ∧ e = .pastEnd ∧
        ¬ AheadFits s n.data offset (readLength (InodeDisk.length n.data) size offset)) := by
  obtain ⟨hlen0, -⟩ := h.length i n.data hN
  have hsize : InodeDisk.size n.data = (InodeDisk.length n.data).toNat := rfl
  unfold readAt Meets
  simp only [ends_bind]
  rw [ends_inodeAt hn, offT_eq hlo hhi]
  split
  · have hz : readLength (InodeDisk.length n.data) size offset = 0 := by unfold readLength; omega
    exact .inr ⟨.refl s, h, by simp, fun _ => by simp [hz], fetched_nil s n.data offset⟩
  have hwant : (if size + offset > InodeDisk.length n.data then InodeDisk.length n.data - offset
      else size).toNat = readLength (InodeDisk.length n.data) size offset := by
    unfold readLength
    split <;> omega
  rw [hwant]
  rw [ends_bind]
  refine ends_two_mallocs ?_ fun heap hheap => ?_
  · intro hne heap
    exact .inr ⟨quiet_heap fun hh => absurd hh hne, h.heap heap, by simp, fun hh => absurd hh hne,
      fetched_nil s n.data offset⟩
  · have hq := quiet_heap hheap
    rw [ends_bind, ends_blockRead (s := {s with heap := heap}) (h.doubleIndirect_lt hN)]
    by_cases hz : readLength (InodeDisk.length n.data) size offset = 0
    · rw [hz]
      exact .inr ⟨hq, h.heap heap, by simp, fun _ => rfl, fetched_nil s n.data offset⟩
    · have hle : offset + readLength (InodeDisk.length n.data) size offset ≤ InodeDisk.size n.data := by
        unfold readLength at hz ⊢
        omega
      apply Ends.imp (readLoop_meets hN ahead _ (h.heap heap) (Nat.le_refl _) hle (by simp))
      rintro r s' (hbad | ⟨l, rfl, hl⟩)
      · exact .inl hbad
      · exact .inr ⟨hq.trans hl.quiet, hl.tree, hl.length_le, fun hh => hl.length_eq (hheap hh), hl.fetched⟩

theorem writeSectors_meets (h : Tree P N X s) {n : Inode} (hn : findInode i s.openInodes = some n)
    (hN : N i = some n.data) (buffer : Bytes) {size : Int} {offset : Nat}
    (hr : size.toNat = 0 ∨ offset + size.toNat ≤ InodeDisk.size n.data) :
    Meets (Spoiled P) (writeSectors i buffer size offset) s
      (fun w s' => WroteTo P N X s n.data offset size.toNat w buffer s') (fun _ _ => False) := by
  unfold writeSectors Meets
  simp only [ends_bind]
  rw [ends_inodeAt hn]
  refine ends_two_mallocs ?_ fun heap hheap => ?_
  · intro hne heap
    have hq : Quiet s {s with heap := heap} := quiet_heap fun hh => absurd hh hne
    exact .inr ⟨hq.calm _, rfl, rfl, h.heap heap, by omega, fun hh => absurd hh hne, hq.put _ _⟩
  · have hq := quiet_heap hheap
    rw [ends_bind, ends_blockRead (s := {s with heap := heap}) (h.doubleIndirect_lt hN)]
    rcases hr with hz | hle
    · rw [hz]
      exact .inr ⟨hq.calm _, rfl, rfl, h.heap heap, by omega, fun _ => rfl, hq.put _ _⟩
    · apply Ends.imp (writeLoop_meets hN buffer _ (h.heap heap) (Nat.le_refl _) hle (by simp))
      rintro w s' (hbad | ⟨m, rfl, hw⟩)
      · exact .inl hbad
      · rw [Nat.zero_add]
        have hput := hw.put
        simp only [Nat.zero_add] at hput
        exact .inr ⟨(hq.calm _).trans hw.calm, hw.freeMap, hw.releases, hw.tree, hw.le,
          fun hh => hw.eq (hheap hh), hput⟩

end

end Pintos.Filesys
