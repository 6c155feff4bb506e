import Pintos.Filesys.CacheList

/-! Which blocks the clock spares.

A block enters the cache with its mark set, and `set_cache` runs the clock with the new block
already in the list. The hand takes the new block when it starts on it and every block is marked:
it then takes all the marks off and comes back. -/
namespace Pintos.Filesys
open Outcome Steps

section
variable {s s' : Fs} {k : Nat} {buf : Bytes} {ca : Cache}

/-! ### The block just entered -/

theorem index_ne_of_findCache (ho : Ordered s) (hnew : findCache k s.cachedBlocks = none) (hca : ca ∈ s.cachedBlocks) :
    ca.index ≠ k := by
  rintro rfl
  simp [findCache_of_mem ho.sorted hca] at hnew

/-- The hand is on the new block only if it was null or at the tail and the block is the first of the list. -/
theorem hand_inserted (hpos : s.cachedBlocks ≠ []) (h : (s.inserted k buf).hand = insertPosition k s.cachedBlocks) :
    (s.cachePointer = none ∨ s.cachePointer = some s.cachedBlocks.length) ∧ insertPosition k s.cachedBlocks = 0 := by
  have hle := insertPosition_le k s.cachedBlocks
  have hlen := length_inserted s k buf
  have hne := List.length_pos_iff.mpr hpos
  cases hp : s.cachePointer with
  | none =>
    have hhand : (s.inserted k buf).hand = 0 := by simp [Fs.hand, Fs.inserted, hp]
    exact ⟨.inl rfl, h.symm.trans hhand⟩
  | some p =>
    have hptr : (s.inserted k buf).cachePointer =
        some (if insertPosition k s.cachedBlocks ≤ p then p + 1 else p) := by
      simp [Fs.inserted, hp]
    rw [Fs.hand, hptr] at h
    grind

theorem lt_of_insertPosition (hl : Sorted s.cachedBlocks) (h : insertPosition k s.cachedBlocks = 0)
    (hca : ca ∈ s.cachedBlocks) : k < ca.index := by
  cases hcs : s.cachedBlocks with
  | nil => simp [hcs] at hca
  | cons c rest =>
    rw [hcs] at h hca hl
    unfold insertPosition at h
    split at h
    · rcases List.mem_cons.mp hca with rfl | hca
      · assumption
      · have := (List.pairwise_cons.mp hl).1 ca hca
        omega
    · omega

/-- The block at the hand is an old one, unless the hand is on the new one. -/
theorem old_of_hand (h : (s.inserted k buf).hand ≠ insertPosition k s.cachedBlocks)
    (hca : (s.inserted k buf).cachedBlocks[(s.inserted k buf).hand]? = some ca) : ca ∈ s.cachedBlocks := by
  change (s.cachedBlocks.insertIdx _ _)[_]? = _ at hca
  grind

/-- What lets a new block survive the clock that its own entering may set off: the cache has room, a block in it has
no mark, a block comes before the new one, or the hand is on a block. -/
def Spared (s : Fs) (k : Nat) : Prop :=
  s.cachedBlocks.length < cacheBlockSize ∨ (∃ ca ∈ s.cachedBlocks, ca.isUsed = false) ∨
    (∃ ca ∈ s.cachedBlocks, ca.index < k) ∨ ∃ p < s.cachedBlocks.length, s.cachePointer = some p

theorem mem_inserted : ca ∈ (s.inserted k buf).cachedBlocks ↔ ca = ⟨k, false, true, buf⟩ ∨ ca ∈ s.cachedBlocks :=
  List.mem_insertIdx (insertPosition_le _ _)

/-- The hand does not start a full turn on the new block. -/
theorem hand_spares_new (h : Ordered s) (hfull : s.cachedBlocks.length = cacheBlockSize) (hs : Spared s k)
    (hall : ∀ ca ∈ s.cachedBlocks, ca.isUsed = true) :
    (s.inserted k buf).hand ≠ insertPosition k s.cachedBlocks := by
  intro hhand
  have hne : s.cachedBlocks ≠ [] := by
    intro hnil
    rw [hnil] at hfull
    cases hfull
  obtain ⟨hptr, hzero⟩ := hand_inserted hne hhand
  rcases hs with hroom | ⟨ca, hca, hun⟩ | ⟨ca, hca, hlt⟩ | ⟨p, hp, hsp⟩
  · omega
  · rw [hall ca hca] at hun
    cases hun
  · have := lt_of_insertPosition h.sorted hzero hca
    omega
  · grind

theorem ring_head (ho : Ordered s) {rest : List Cache} (h : s.ring = ca :: rest) : s.cachedBlocks[s.hand]? = some ca := by
  have hne : s.cachedBlocks ≠ [] := by
    intro hnil
    simp [Fs.ring, hnil] at h
  obtain ⟨c, hc⟩ : ∃ c, s.cachedBlocks[s.hand]? = some c := ⟨_, List.getElem?_eq_getElem (hand_lt ho hne)⟩
  rw [Fs.ring, rotate_eq hc] at h
  cases h
  exact hc

/-- The clock that runs with the new block in a full list leaves the block there. -/
theorem clock_spares_new (h : CacheOk s) (hk : k < s.deviceSize) (hnew : findCache k s.cachedBlocks = none)
    (hfull : s.cachedBlocks.length = cacheBlockSize) (hs : Spared s k) {E : Panic → Fs → Prop} :
    Ends applyClockAlgorithm (s.inserted k buf)
      (fun _ s' => ∃ ca, findCache k s'.cachedBlocks = some ca ∧ ca.data = buf) E := by
  have ho := ordered_inserted h.toOrdered hk hnew buf
  obtain ⟨before, victim, later, s', hring, hrun, hends⟩ :=
    clock_evicts ho (List.ne_nil_of_length_eq_add_one (length_inserted s k buf))
  rw [ends_ok hrun]
  have hmem : ∀ ca, ca ∈ before ++ victim :: later ↔ ca ∈ (s.inserted k buf).cachedBlocks := by
    intro ca
    rw [← hring]
    exact List.mem_rotate
  have hnewmem := (hmem _).mpr (mem_inserted.mpr (.inl rfl))
  -- the list that is left has the block, or the block without its mark
  obtain ⟨left, ho', hperm, ca, hca, rfl, hdata⟩ : ∃ left, Ordered s' ∧ s'.cachedBlocks.Perm left ∧
      ∃ ca ∈ left, ca.index = k ∧ ca.data = buf := by
    rcases hends with ⟨-, hun, hev⟩ | ⟨hall, rfl, hev⟩
    · refine ⟨_, hev.ordered, hev.blocks, ?_⟩
      rcases List.mem_append.mp hnewmem with hb | hb
      · exact ⟨_, List.mem_append_right _ (List.mem_map_of_mem hb), rfl, rfl⟩
      · rcases List.mem_cons.mp hb with rfl | hb
        · cases hun
        · exact ⟨_, List.mem_append_left _ hb, rfl, rfl⟩
    · refine ⟨_, hev.ordered, hev.blocks, ?_⟩
      rcases List.mem_cons.mp hnewmem with hv | hb
      · have hused : ∀ ca ∈ s.cachedBlocks, ca.isUsed = true := fun ca hca =>
          hall ca (hring ▸ (hmem ca).mpr (mem_inserted.mpr (.inr hca)))
        have hat := ring_head ho hring
        exact absurd (congrArg Cache.index hv.symm) (index_ne_of_findCache h.toOrdered hnew
          (old_of_hand (hand_spares_new h.toOrdered hfull hs hused) hat))
      · exact ⟨_, List.mem_map_of_mem hb, rfl, rfl⟩
  exact ⟨ca, findCache_of_mem ho'.sorted (hperm.mem_iff.mpr hca), hdata⟩

/-- Without any of this the hand starts on the new block, and every block has its mark. -/
theorem hand_of_not_spared (buf : Bytes) (h : Ordered s) (hfull : s.cachedBlocks.length = cacheBlockSize)
    (hnew : findCache k s.cachedBlocks = none) (hs : ¬ Spared s k) :
    (s.inserted k buf).hand = 0 ∧ (s.inserted k buf).cachedBlocks = ⟨k, false, true, buf⟩ :: s.cachedBlocks ∧
      ∀ ca ∈ s.cachedBlocks, ca.isUsed = true := by
  unfold Spared at hs
  push Not at hs
  obtain ⟨-, hused, hlarger, hptr⟩ := hs
  have hzero : insertPosition k s.cachedBlocks = 0 := by
    cases hcs : s.cachedBlocks with
    | nil => rfl
    | cons c rest =>
      have hc : c ∈ s.cachedBlocks := hcs ▸ List.mem_cons_self
      have hne := index_ne_of_findCache h hnew hc
      have hge := hlarger c hc
      rw [insertPosition, if_pos (by omega)]
  refine ⟨?_, by rw [Fs.inserted, hzero]; rfl, fun ca hca => by simpa using hused ca hca⟩
  cases hp : s.cachePointer with
  | none => simp [Fs.hand, Fs.inserted, hp]
  | some p =>
    have hle := h.hand p hp
    have hend : p = s.cachedBlocks.length := by
      by_contra hne
      exact hptr p (by omega) hp
    simp [Fs.hand, Fs.inserted, hp, hzero, hend]

/-- The clock that runs then takes the new block out again. -/
theorem clock_drops_new (h : CacheOk s) (hk : k < s.deviceSize) (hnew : findCache k s.cachedBlocks = none)
    (hfull : s.cachedBlocks.length = cacheBlockSize) (hs : ¬ Spared s k) {E : Panic → Fs → Prop} :
    Ends applyClockAlgorithm (s.inserted k buf) (fun _ s' => findCache k s'.cachedBlocks = none) E := by
  have ho := ordered_inserted h.toOrdered hk hnew buf
  obtain ⟨hhand, hblocks, hused⟩ := hand_of_not_spared buf h.toOrdered hfull hnew hs
  obtain ⟨before, victim, later, s', hring, hrun, hends⟩ :=
    clock_evicts ho (List.ne_nil_of_length_eq_add_one (length_inserted s k buf))
  rw [ends_ok hrun]
  have hblock : (s.inserted k buf).ring = ⟨k, false, true, buf⟩ :: s.cachedBlocks := by
    rw [Fs.ring, hhand, List.rotate_zero, hblocks]
  rw [hblock] at hring
  rcases hends with ⟨-, hun, -⟩ | ⟨-, rfl, hev⟩
  · have hmem : victim ∈ (⟨k, false, true, buf⟩ :: s.cachedBlocks : List Cache) := by
      rw [hring]
      exact List.mem_append_right _ List.mem_cons_self
    rcases List.mem_cons.mp hmem with rfl | hold
    · cases hun
    · rw [hused victim hold] at hun
      cases hun
  · cases hring
    by_contra hne
    obtain ⟨ca, hca⟩ := Option.ne_none_iff_exists'.mp hne
    obtain ⟨hmem, hindex⟩ := findCache_mem hca
    obtain ⟨c, hc, rfl⟩ := List.mem_map.mp (hev.blocks.mem_iff.mp hmem)
    exact index_ne_of_findCache h.toOrdered hnew hc hindex

/-- With memory for it, a new block is there after `set_cache` exactly if it is spared. -/
theorem setCache_new (h : CacheOk s) (hk : k < s.deviceSize) (hnew : findCache k s.cachedBlocks = none)
    (hheap : s.heap = []) (buf : Bytes) {E : Panic → Fs → Prop} :
    Ends (setCache k buf) s (fun _ s' => (Spared s k → ∃ ca, findCache k s'.cachedBlocks = some ca ∧ ca.data = buf) ∧
      (¬ Spared s k → findCache k s'.cachedBlocks = none)) E := by
  have hsize := h.size
  have hsmall := h.small
  have hok : ∀ heap, CacheOk {s with heap := heap} := fun _ => cacheOk_beside h
  refine setCache_outcomes k buf (fun hne => absurd hheap hne) ?_ ?_
  · intro heap hroom
    refine ⟨fun _ => ⟨⟨k, false, true, buf⟩, ?_, rfl⟩, fun hs => absurd (.inl (by omega)) hs⟩
    exact findCache_of_mem (ordered_inserted (hok heap).toOrdered hk hnew buf).sorted (mem_inserted.mpr (.inl rfl))
  · intro heap hgt
    have hfull : s.cachedBlocks.length = cacheBlockSize := by omega
    by_cases hs : Spared s k
    · exact (clock_spares_new (hok heap) hk hnew hfull hs).imp fun _ _ hca => ⟨fun _ => hca, absurd hs⟩
    · exact (clock_drops_new (hok heap) hk hnew hfull hs).imp fun _ _ hno => ⟨fun h => absurd h hs, fun _ => hno⟩

end

namespace CacheList

variable {l : CacheList} {a k : Nat}

/-- `Spared` of the list as the kernel links it. -/
def Spares (l : CacheList) (k : Nat) : Prop :=
  l.cacheSize < cacheBlockSize ∨ (∃ e ∈ l.entries, e.2.isUsed = false) ∨ (∃ e ∈ l.entries, e.2.index < k) ∨
    ∃ a, l.cachePointer = some (.entry a)

theorem Shows.spared {s : Fs} (h : Shows l s) (hok : CacheOk s) : Spared s k ↔ Spares l k := by
  have hmem : ∀ e ∈ l.entries, e.2 ∈ s.cachedBlocks := fun e he => h.blocks ▸ List.mem_map_of_mem he
  have hentry : ∀ ca ∈ s.cachedBlocks, ∃ e ∈ l.entries, e.2 = ca := by
    intro ca hca
    rw [h.blocks] at hca
    exact List.mem_map.mp hca
  constructor
  · rintro (hroom | ⟨ca, hca, hun⟩ | ⟨ca, hca, hlt⟩ | ⟨p, hp, hsp⟩)
    · exact .inl (by rw [← h.size, hok.size]; exact hroom)
    · obtain ⟨e, he, rfl⟩ := hentry ca hca
      exact .inr (.inl ⟨e, he, hun⟩)
    · obtain ⟨e, he, rfl⟩ := hentry ca hca
      exact .inr (.inr (.inl ⟨e, he, hlt⟩))
    · cases hptr : l.cachePointer with
      | none =>
        rw [h.null hptr] at hsp
        cases hsp
      | some e =>
        obtain ⟨q, hq, front, back, he, rfl, rfl⟩ := h.hand e hptr
        cases hsp.symm.trans hq
        rw [h.length, he, List.length_append] at hp
        cases back with
        | nil => simp at hp
        | cons x back => exact .inr (.inr (.inr ⟨x.1, hptr⟩))
  intro hs
  rcases hs with hroom | ⟨e, he, hun⟩ | ⟨e, he, hlt⟩ | ⟨a, ha⟩
  · exact .inl (by rw [← hok.size, h.size]; exact hroom)
  · exact .inr (.inl ⟨e.2, hmem e he, hun⟩)
  · exact .inr (.inr (.inl ⟨e.2, hmem e he, hlt⟩))
  · obtain ⟨p, hp, front, back, he, rfl, hb⟩ := h.hand _ ha
    refine .inr (.inr (.inr ⟨front.length, ?_, hp⟩))
    cases back with
    | nil => cases hb
    | cons e back =>
      rw [h.length, he, List.length_append, List.length_cons]
      omega

/-- After `set_cache` of a sector that was not cached, with memory for it, `get_cache` finds the block, unless the
cache was full of marked blocks with larger indices and the hand was null or at the tail: then it finds nothing. -/
theorem get_cache_after_set_cache (hr : Reach Use.step Use.Allowed (· = initCache) l)
    (hk : getCache k l.entries = none) (ha : a ∉ l.addresses) (buf : Bytes) : ∃ l', l.setCache a k buf = .ok l' ∧
      (Spares l k → ∃ e, getCache k l'.entries = some e ∧ e.2.data = buf) ∧
      (¬ Spares l k → getCache k l'.entries = none) := by
  obtain ⟨s, hshow, hok, hlt, hheap⟩ := (linked_reach hr).roomy k
  have hfind := hshow.getCache_none.mp hk
  have hfound := setCache_new hok hlt hfind hheap buf (E := fun _ _ => False)
  rw [hshow.spared hok] at hfound
  have hboth := (setCache_linked hshow hok hlt hfind buf ha (E := fun _ _ => False)).and hfound
  obtain ⟨_, s', -, ⟨-, hl⟩, hyes, hno⟩ := (hboth.mono (fun _ _ => id) fun _ _ hE => hE.1).ok
  rcases hl with ⟨hne, -⟩ | ⟨l', hl', hshow'⟩
  · exact absurd hheap hne
  · refine ⟨l', hl', fun hs => ?_, fun hs => hshow'.getCache_none.mpr (hno hs)⟩
    obtain ⟨ca, hca, hdata⟩ := hyes hs
    rw [hshow'.blocks, blocks, ← getCache_block] at hca
    obtain ⟨e, he, rfl⟩ := Option.map_eq_some_iff.mp hca
    exact ⟨e, he, hdata⟩

/-- Loads of sectors `10`, `11` and so on, each at an address of its own. -/
def loads (n : Nat) : List Use := (List.range n).map fun i => .miss (16 * i) (i + 10) fun _ => 0

theorem get_cache_after_set_cache_full : ∃ l, Reach Use.step Use.Allowed (· = initCache) l ∧ l.cacheSize = 64 ∧
    ∃ l' e, l.setCache 1024 80 (fun _ => 7) = .ok l' ∧ getCache 80 l'.entries = some e ∧ e.2.data = fun _ => 7 := by
  obtain ⟨l, hr, hsize, hnone, hfresh, hsmaller⟩ : ∃ l, Reach Use.step Use.Allowed (· = initCache) l ∧
      l.cacheSize = 64 ∧ getCache 80 l.entries = none ∧ 1024 ∉ l.addresses ∧ ∃ e ∈ l.entries, e.2.index < 80 := by
    refine Reach.of_after (s := initCache) ?_ (loads 64) ?_
    · rfl
    · decide +kernel
  obtain ⟨l', hl', hspared, -⟩ := get_cache_after_set_cache hr hnone hfresh fun _ => 7
  obtain ⟨e, he, hdata⟩ := hspared (.inr (.inr (.inl hsmaller)))
  exact ⟨l, hr, hsize, l', e, hl', he, hdata⟩

/-- A full cache of marked blocks drops a block of a smaller index as soon as it is entered. -/
theorem new_block_dropped : ∃ l, Reach Use.step Use.Allowed (· = initCache) l ∧ getCache 9 l.entries = none ∧
    1024 ∉ l.addresses ∧ ∃ l', l.setCache 1024 9 (fun _ => 7) = .ok l' ∧ getCache 9 l'.entries = none := by
  obtain ⟨l, hr, hnone, hfresh, hdrop⟩ : ∃ l, Reach Use.step Use.Allowed (· = initCache) l ∧
      getCache 9 l.entries = none ∧ 1024 ∉ l.addresses ∧
      (l.setCache 1024 9 fun _ => 7).toOption.any (fun l' => (getCache 9 l'.entries).isNone) = true := by
    refine Reach.of_after (s := initCache) ?_ (loads 64) ?_
    · rfl
    · decide +kernel
  refine ⟨l, hr, hnone, hfresh, ?_⟩
  cases hset : l.setCache 1024 9 fun _ => 7 with
  | error e => simp [hset, Except.toOption] at hdrop
  | ok l' => exact ⟨l', rfl, by simpa [hset, Except.toOption] using hdrop⟩

/-! ### Blocks that were hit -/

/-- The blocks the loop of the clock comes to, in their order. -/
def visits : Nat → Elem → CacheList → List Nat
  | turns + 1, .entry a, l =>
    match l.entries.lookup a, listNext a l.entries with
    | some ca, some next =>
      if ca.isUsed then
        let l := {l with entries := change a Cache.passed l.entries}
        a :: visits turns (if next = .tail then listBegin l.entries else next) l
      else [a]
    | _, _ => []
  | _, _, _ => []

section
variable {front back : List (Nat × Cache)} {ca : Cache} {e : Elem}

theorem visits_entry (turns : Nat) (hn : l.addresses.Nodup) (he : l.entries = front ++ (a, ca) :: back) :
    visits (turns + 1) (.entry a) l =
      if ca.isUsed then
        a :: visits turns (if listBegin back = .tail then listBegin (front ++ (a, ca.passed) :: back) else listBegin back)
          {l with entries := front ++ (a, ca.passed) :: back}
      else [a] := by
  have hf := not_mem_front hn he
  rw [visits, he, lookup_append hf, listNext_append hf]
  simp only [change_append hf]

/-- The loop comes at least once to a block that it drops, and twice to one that was marked. A block that it does not
come to is left as it was. -/
theorem visits_of_clockLoop : ∀ (turns : Nat) {l l' : CacheList} {e : Elem}, l.addresses.Nodup →
    clockLoop turns e l = .ok l' →
    (∀ x ∈ l.entries, x.1 ∉ l'.addresses → (if x.2.isUsed then 2 else 1) ≤ (visits turns e l).count x.1) ∧
      ∀ y ∈ l'.entries, y.1 ∉ visits turns e l → y ∈ l.entries
  | 0, _, _, _, _, h => by cases h
  | _ + 1, _, _, .tail, _, h => by cases h
  | turns + 1, l, l', .entry a, hn, h => by
    obtain ⟨ca, hca⟩ : ∃ ca, l.entries.lookup a = some ca := by
      cases hl : l.entries.lookup a with
      | some ca => exact ⟨ca, rfl⟩
      | none =>
        rw [clockLoop, hl] at h
        cases h
    obtain ⟨front, back, he, -⟩ := List.lookup_eq_some_iff.mp hca
    rw [clockLoop_entry turns hn he] at h
    rw [visits_entry turns hn he]
    cases hu : ca.isUsed with
    | false =>
      simp only [hu, Bool.false_eq_true, if_false, Except.ok.injEq] at h ⊢
      subst h
      refine ⟨?_, ?_⟩
      · intro x hx hgone
        rw [he, List.perm_middle.mem_iff, List.mem_cons] at hx
        rcases hx with rfl | hx
        · simp [hu]
        · exact absurd (List.mem_map_of_mem hx) hgone
      · grind
    | true =>
      simp only [hu, if_true] at h ⊢
      have hn' : (CacheList.addresses {l with entries := front ++ (a, ca.passed) :: back}).Nodup := by
        simpa [addresses, he] using hn
      obtain ⟨hdrop, hleft⟩ := visits_of_clockLoop turns hn' h
      refine ⟨?_, ?_⟩
      · intro x hx hgone
        rw [he, List.perm_middle.mem_iff, List.mem_cons] at hx
        rcases hx with rfl | hx
        · -- the mark is off when the loop comes to the block again
          have hagain := hdrop (a, ca.passed) (List.mem_append_right _ List.mem_cons_self) hgone
          grind
        · grind
      · intro y hy hun
        grind

end

/-- The blocks that the clock comes to, if the use sets it off. -/
def visited : Use → CacheList → List Nat
  | .miss address index buf, l =>
    match getCache index l.entries with
    | some _ => []
    | none =>
      let l := l.inserted address index buf
      if l.cacheSize > cacheBlockSize then visits (l.entries.length + 1) l.hand l else []
  | .hit _ _ _ _, _ => []

/-- The cache with a history: the blocks that were hit since the hand last passed them. -/
structure Watched where
  list : CacheList
  hits : List Nat

/-- A block is read where it is, or the cache is used in one of the ways of `Use`. -/
inductive Access where
  | read (index : Nat)
  | use (u : Use)

/-- The block an access is served from, if there is one. -/
def Access.served (l : CacheList) : Access → List Nat
  | .read index | .use (.hit index _ _ _) => (getCache index l.entries).toList.map Prod.fst
  | .use (.miss _ _ _) => []

/-- `inode_read_at` copies from a block that is cached and leaves it alone. -/
def Access.step : Access → Watched → Except Stray Watched
  | .read index, w => return ⟨w.list, (Access.read index).served w.list ++ w.hits⟩
  | .use u, w => do
    let list ← u.step w.list
    return ⟨list, (Access.use u).served w.list ++ w.hits.filter (· ∉ visited u w.list)⟩

/-- `malloc` gives out fresh addresses, and a block that is read has its mark. -/
def Access.Marked : Access → Watched → Prop
  | .read index, w => ∀ e, getCache index w.list.entries = some e → e.2.isUsed = true
  | .use u, w => u.Allowed w.list

def Access.Allowed : Access → Watched → Prop
  | .read _, _ => True
  | .use u, w => u.Allowed w.list

/-- Blocks that were hit are marked. -/
def HitsMarked (w : Watched) : Prop := Linked w.list ∧ ∀ e ∈ w.list.entries, e.1 ∈ w.hits → e.2.isUsed = true

section
variable {w w' : Watched} {e : Nat × Cache} {index : Nat} {buf : Bytes}

theorem Linked.nodup (h : Linked l) : l.addresses.Nodup := by
  obtain ⟨s, hs, -⟩ := h
  exact hs.nodup

theorem eq_of_address (hn : l.addresses.Nodup) {x y : Nat × Cache} (hx : x ∈ l.entries) (hy : y ∈ l.entries)
    (h : x.1 = y.1) : x = y := List.inj_on_of_nodup_map hn hx hy h

theorem mem_inserted_list : e ∈ (l.inserted a k buf).entries ↔ e = (a, ⟨k, false, true, buf⟩) ∨ e ∈ l.entries := by
  obtain ⟨front, back, he, -, hins⟩ := listInsertOrdered_eq (a, ⟨k, false, true, buf⟩) l.entries
  rw [inserted, hins, List.perm_middle.mem_iff, List.mem_cons, ← he]

theorem nodup_inserted (hn : l.addresses.Nodup) (ha : a ∉ l.addresses) (k : Nat) (buf : Bytes) :
    (l.inserted a k buf).addresses.Nodup := by
  obtain ⟨front, back, he, -, hins⟩ := listInsertOrdered_eq (a, ⟨k, false, true, buf⟩) l.entries
  rw [addresses, he] at hn ha
  rw [addresses, inserted, hins, List.map_append, List.map_cons, List.nodup_middle, ← List.map_append]
  exact List.nodup_cons.mpr ⟨ha, hn⟩

/-- An access is served from the block that `get_cache` finds. -/
theorem mem_served (h : a ∈ (getCache index l.entries).toList.map Prod.fst) :
    ∃ ca, getCache index l.entries = some (a, ca) ∧ (a, ca) ∈ l.entries := by
  obtain ⟨⟨a, ca⟩, he, rfl⟩ := List.mem_map.mp h
  rw [Option.mem_toList] at he
  obtain ⟨front, back, hl, -⟩ := getCache_split he
  exact ⟨ca, he, hl ▸ List.mem_append_right _ List.mem_cons_self⟩

theorem HitsMarked.read (h : HitsMarked w) (hm : ∀ e, getCache index w.list.entries = some e → e.2.isUsed = true) :
    HitsMarked ⟨w.list, (Access.read index).served w.list ++ w.hits⟩ := by
  refine ⟨h.1, ?_⟩
  intro e he hhit
  rcases List.mem_append.mp hhit with hs | hs
  · obtain ⟨ca, hg, hmem⟩ := mem_served hs
    rw [eq_of_address h.1.nodup he hmem rfl]
    exact hm _ hg
  · exact h.2 e he hs

/-- A write marks its block. -/
theorem HitsMarked.update (h : HitsMarked w) {offset size : Nat} {x : Nat × Cache}
    (hg : getCache index w.list.entries = some x) (hlinked : Linked (w.list.updateCache x.1 buf offset size))
    (he : e ∈ (w.list.updateCache x.1 buf offset size).entries)
    (hhit : e.1 ∈ (Access.use (.hit index buf offset size)).served w.list ++ w.hits) : e.2.isUsed = true := by
  obtain ⟨a, ca⟩ := x
  obtain ⟨front, back, hl, -⟩ := getCache_split hg
  have hf := not_mem_front h.1.nodup hl
  have hentries : (w.list.updateCache a buf offset size).entries = front ++
      (a, {ca with data := ca.data.patch offset size buf, isDirty := true, isUsed := true}) :: back := by
    rw [updateCache, hl]
    exact change_append hf _
  have hnew : (a, {ca with data := ca.data.patch offset size buf, isDirty := true, isUsed := true}) ∈
      (w.list.updateCache a buf offset size).entries := hentries ▸ List.mem_append_right _ List.mem_cons_self
  by_cases hea : e.1 = a
  · rw [eq_of_address hlinked.nodup he hnew hea]
  · rw [hentries, List.perm_middle.mem_iff, List.mem_cons] at he
    have hold : e ∈ w.list.entries := by
      grind
    rcases List.mem_append.mp hhit with hs | hs
    · obtain ⟨ca', hg', -⟩ := mem_served hs
      grind
    · exact h.2 e hold hs

/-- Blocks that the clock did not come to keep their marks. -/
theorem HitsMarked.enter (h : HitsMarked w) {l' : CacheList} (ha : a ∉ w.list.addresses)
    (hg : getCache index w.list.entries = none) (hl' : w.list.setCache a index buf = .ok l') (he : e ∈ l'.entries)
    (hhit : e.1 ∈ w.hits.filter (· ∉ visited (.miss a index buf) w.list)) : e.2.isUsed = true := by
  obtain ⟨hhits, hunvisited⟩ := List.mem_filter.mp hhit
  have hold : e ∈ (w.list.inserted a index buf).entries := by
    simp only [visited, hg] at hunvisited
    unfold setCache at hl'
    simp only at hl'
    split at hl'
    · rename_i hfull
      rw [if_pos hfull] at hunvisited
      exact (visits_of_clockLoop _ (nodup_inserted h.1.nodup ha index buf) hl').2 e he (of_decide_eq_true hunvisited)
    · cases hl'
      exact he
  rcases mem_inserted_list.mp hold with rfl | hmem
  · rfl
  · exact h.2 e hmem hhits

theorem HitsMarked.step_ok {x : Access} (h : HitsMarked w) (hm : x.Marked w) (hx : x.step w = .ok w') : HitsMarked w' := by
  cases x with
  | read index =>
    cases hx
    exact h.read hm
  | use u =>
    obtain ⟨list, hu, hw⟩ := bind_ok.mp hx
    cases hw
    obtain ⟨list', hlist', hlinked⟩ := h.1.step_ok hm
    rw [hu] at hlist'
    cases hlist'
    refine ⟨hlinked, ?_⟩
    intro e he hhit
    cases u with
    | hit index buf offset size =>
      have hhit' : e.1 ∈ (Access.use (.hit index buf offset size)).served w.list ++ w.hits := by
        grind
      cases hg : getCache index w.list.entries with
      | none =>
        simp only [Use.step, hg] at hu
        cases hu
        simp only [Access.served, hg, Option.toList_none, List.map_nil, List.nil_append] at hhit'
        exact h.2 e he hhit'
      | some x =>
        simp only [Use.step, hg] at hu
        cases hu
        exact h.update hg hlinked he hhit'
    | miss address index buf =>
      cases hg : getCache index w.list.entries with
      | some x =>
        simp only [Use.step, hg] at hu
        cases hu
        exact h.2 e he (List.mem_of_mem_filter hhit)
      | none =>
        simp only [Use.step, hg] at hu
        exact h.enter hm hg hu he hhit

theorem hitsMarked_reach (hr : Reach Access.step Access.Marked (· = ⟨initCache, []⟩) w) : HitsMarked w := by
  refine hr.invariant (J := HitsMarked) ?_ ?_
  · rintro _ rfl
    exact ⟨linked_initCache, by simp⟩
  · intro w x w' hw hm hx
    exact hw.step_ok hm hx

/-- A block that was hit since the hand last passed it, every read having found its block marked, is dropped only when
the hand comes to it for the second time. -/
theorem hit_gets_second_chance (hr : Reach Access.step Access.Marked (· = ⟨initCache, []⟩) w)
    (ha : a ∉ w.list.addresses) (hg : getCache index w.list.entries = none) {l' : CacheList}
    (hl' : w.list.setCache a index buf = .ok l') :
    ∀ e ∈ w.list.entries, e.1 ∈ w.hits → e.1 ∉ l'.addresses →
      2 ≤ (visited (.miss a index buf) w.list).count e.1 := by
  intro e he hhit hgone
  have h := hitsMarked_reach hr
  simp only [visited, hg]
  unfold setCache at hl'
  simp only at hl'
  split at hl'
  · rename_i hfull
    rw [if_pos hfull]
    have hin : e ∈ (w.list.inserted a index buf).entries := mem_inserted_list.mpr (.inr he)
    have hcount := (visits_of_clockLoop _ (nodup_inserted h.1.nodup ha index buf) hl').1 e hin hgone
    rwa [h.2 e he hhit, if_pos rfl] at hcount
  · cases hl'
    exact absurd (List.mem_map_of_mem (mem_inserted_list.mpr (.inr he))) hgone

instance (w : Watched) : ∀ x : Access, Decidable (x.Marked w)
  | .read index => decidable_of_iff ((getCache index w.list.entries).all (·.2.isUsed) = true)
      (by cases hg : getCache index w.list.entries <;> simp [Access.Marked, hg])
  | .use u => inferInstanceAs (Decidable (u.Allowed w.list))

instance (w : Watched) : ∀ x : Access, Decidable (x.Allowed w)
  | .read _ => inferInstanceAs (Decidable True)
  | .use u => inferInstanceAs (Decidable (u.Allowed w.list))

theorem hit_gets_second_chance_full_turn : ∃ w, Reach Access.step Access.Marked (· = ⟨initCache, []⟩) w ∧
    0 ∈ w.hits ∧ ∃ l', w.list.setCache 1024 80 (fun _ => 7) = .ok l' ∧ 0 ∉ l'.addresses ∧
      2 ≤ (visited (.miss 1024 80 fun _ => 7) w.list).count 0 := by
  obtain ⟨w, hr, hhit, hnone, hfresh, hin, hdrop⟩ : ∃ w, Reach Access.step Access.Marked (· = ⟨initCache, []⟩) w ∧
      0 ∈ w.hits ∧ getCache 80 w.list.entries = none ∧ 1024 ∉ w.list.addresses ∧ 0 ∈ w.list.addresses ∧
      (w.list.setCache 1024 80 fun _ => 7).toOption.any (fun l' => 0 ∉ l'.addresses) = true := by
    refine Reach.of_after (s := ⟨initCache, []⟩) ?_ ((loads 64).map .use ++ [.read 10]) ?_
    · rfl
    · decide +kernel
  cases hset : w.list.setCache 1024 80 fun _ => 7 with
  | error e => simp [hset, Except.toOption] at hdrop
  | ok l' =>
    have hgone : 0 ∉ l'.addresses := by simpa [hset, Except.toOption] using hdrop
    obtain ⟨e, he, h0⟩ := List.mem_map.mp hin
    refine ⟨w, hr, hhit, l', hset, hgone, ?_⟩
    rw [← h0] at hhit hgone ⊢
    exact hit_gets_second_chance hr hfresh hnone hset e he hhit hgone

/-- A block that lost its mark to the clock and was read since is dropped as soon as the hand comes to it. -/
theorem read_block_dropped : ∃ w, Reach Access.step Access.Allowed (· = ⟨initCache, []⟩) w ∧
    16 ∈ w.hits ∧ 16 ∈ w.list.addresses ∧ getCache 80 w.list.entries = none ∧ 2048 ∉ w.list.addresses ∧
    ∃ l', w.list.setCache 2048 80 (fun _ => 7) = .ok l' ∧ 16 ∉ l'.addresses ∧
      (visited (.miss 2048 80 fun _ => 7) w.list).count 16 = 1 := by
  obtain ⟨w, hr, hhit, hin, hnone, hfresh, hdrop, hcount⟩ : ∃ w,
      Reach Access.step Access.Allowed (· = ⟨initCache, []⟩) w ∧
      16 ∈ w.hits ∧ 16 ∈ w.list.addresses ∧ getCache 80 w.list.entries = none ∧ 2048 ∉ w.list.addresses ∧
      (w.list.setCache 2048 80 fun _ => 7).toOption.any (fun l' => 16 ∉ l'.addresses) = true ∧
      (visited (.miss 2048 80 fun _ => 7) w.list).count 16 = 1 := by
    refine Reach.of_after (s := ⟨initCache, []⟩) ?_ ((loads 65).map .use ++ [.read 11]) ?_
    · rfl
    · decide +kernel
  refine ⟨w, hr, hhit, hin, hnone, hfresh, ?_⟩
  cases hset : w.list.setCache 2048 80 fun _ => 7 with
  | error e => simp [hset, Except.toOption] at hdrop
  | ok l' => exact ⟨l', rfl, by simpa [hset, Except.toOption] using hdrop, hcount⟩

end

end CacheList

end Pintos.Filesys
