import Pintos.Filesys.CacheCalls
import Pintos.Library.Steps

/-! The cache as the kernel links it (`filesys/cache.c`).

`Cache` has the hand as a position in a list of blocks. In the kernel every block has an address
that `malloc` gave it, the hand is a pointer to one of them, and `remove_cache` frees the block the
hand has just been on: here a block is found by its address, and a step that follows a pointer to
no block of the list, or reads the tail as a block, is a fault. `Shows` relates the two, and with
it whatever the file system does to its cache is a run of calls on linked blocks. -/
namespace Pintos.Filesys
open Outcome Steps

/-- A `struct list_elem` of `cached_blocks`. -/
inductive Elem where
  | tail
  | entry (address : Nat)
deriving DecidableEq

/-- The variables of `cache.c`: the blocks in list order with their addresses, their number, and the hand. -/
structure CacheList where
  entries : List (Nat × Cache)
  cacheSize : Nat
  cachePointer : Option Elem

inductive Stray where
  /-- A pointer to no block of the list is followed. -/
  | freed
  /-- The loop of the clock goes on. -/
  | endless

namespace CacheList

def initCache : CacheList := ⟨[], 0, none⟩

def addresses (l : CacheList) : List Nat := l.entries.map Prod.fst

def blocks (l : CacheList) : List Cache := l.entries.map Prod.snd

def listBegin : List (Nat × Cache) → Elem
  | [] => .tail
  | (a, _) :: _ => .entry a

@[simp] theorem listBegin_nil : listBegin [] = .tail := rfl

@[simp] theorem listBegin_cons (e : Nat × Cache) (rest : List (Nat × Cache)) :
    listBegin (e :: rest) = .entry e.1 := rfl

/-- The element after the block at an address, which the list may not have. -/
def listNext (address : Nat) : List (Nat × Cache) → Option Elem
  | [] => none
  | (a, _) :: rest => if a = address then some (listBegin rest) else listNext address rest

def listInsertOrdered (new : Nat × Cache) : List (Nat × Cache) → List (Nat × Cache)
  | [] => [new]
  | e :: rest => if new.2.index < e.2.index then new :: e :: rest else e :: listInsertOrdered new rest

def listRemove (address : Nat) : List (Nat × Cache) → List (Nat × Cache)
  | [] => []
  | e :: rest => if e.1 = address then rest else e :: listRemove address rest

/-- The block at an address is changed. -/
def change (address : Nat) (f : Cache → Cache) : List (Nat × Cache) → List (Nat × Cache)
  | [] => []
  | (a, ca) :: rest => if a = address then (a, f ca) :: rest else (a, ca) :: change address f rest

/-- The address `get_cache` returns, with its block. The search stops at the first larger index. -/
def getCache (index : Nat) : List (Nat × Cache) → Option (Nat × Cache)
  | [] => none
  | e :: rest => if e.2.index = index then some e else if e.2.index > index then none else getCache index rest

def removeCache (address : Nat) (l : CacheList) : CacheList :=
  {l with entries := listRemove address l.entries, cacheSize := l.cacheSize - 1}

/-- The loop of `apply_clock_algorithm` with the hand at an element. What `write_back` writes is left out. -/
def clockLoop : Nat → Elem → CacheList → Except Stray CacheList
  | 0, _, _ => throw .endless
  | _ + 1, .tail, _ => throw .freed
  | turns + 1, .entry a, l => do
    match l.entries.lookup a, listNext a l.entries with
    | some ca, some next =>
      let l := if ca.isDirty then {l with entries := change a (fun ca => {ca with isDirty := false}) l.entries} else l
      if !ca.isUsed then
        return removeCache a {l with cachePointer := some next}
      else
        let l := {l with entries := change a (fun ca => {ca with isUsed := false}) l.entries}
        clockLoop turns (if next = .tail then listBegin l.entries else next) l
    | _, _ => throw .freed

/-- Where the loop starts. -/
def hand (l : CacheList) : Elem :=
  if l.cachePointer = none ∨ l.cachePointer = some .tail then listBegin l.entries else l.cachePointer.getD .tail

def applyClockAlgorithm (l : CacheList) : Except Stray CacheList := clockLoop (l.entries.length + 1) l.hand l

/-- A new block at an address. -/
def inserted (address index : Nat) (buf : Bytes) (l : CacheList) : CacheList :=
  {l with
    entries := listInsertOrdered (address, ⟨index, false, true, buf⟩) l.entries
    cacheSize := l.cacheSize + 1}

/-- `set_cache` with memory for the block at an address. -/
def setCache (address index : Nat) (buf : Bytes) (l : CacheList) : Except Stray CacheList :=
  let l := l.inserted address index buf
  if l.cacheSize > cacheBlockSize then applyClockAlgorithm l else return l

/-- `update_cache` of the block at an address. -/
def updateCache (address : Nat) (buf : Bytes) (offset size : Nat) (l : CacheList) : CacheList :=
  let update := fun ca : Cache => {ca with data := ca.data.patch offset size buf, isDirty := true, isUsed := true}
  {l with entries := change address update l.entries}

end CacheList

/-! ### Calls -/

/-- A use of the cache by `inode_read_at`, `inode_read_at_ahead` or `inode_write_at`. A sector that `get_cache` did not
find is entered, at the address `malloc` gives; one that it found is updated. Reading a block, or doing without one
for want of memory, changes nothing. -/
inductive Use where
  | miss (address index : Nat) (buf : Bytes)
  | hit (index : Nat) (buf : Bytes) (offset size : Nat)

/-- `malloc` returns no address that is in use. -/
def Use.Allowed : Use → CacheList → Prop
  | .miss address _ _, l => address ∉ l.addresses
  | _, _ => True

def Use.step : Use → CacheList → Except Stray CacheList
  | .miss address index buf, l =>
    match CacheList.getCache index l.entries with
    | some _ => return l
    | none => l.setCache address index buf
  | .hit index buf offset size, l =>
    match CacheList.getCache index l.entries with
    | some e => return l.updateCache e.1 buf offset size
    | none => return l

/-! ### Addresses and positions -/

namespace CacheList

section
variable {front back entries : List (Nat × Cache)} {a : Nat} {ca : Cache} (hf : a ∉ front.map Prod.fst)
include hf

theorem lookup_append : (front ++ (a, ca) :: back).lookup a = some ca := by
  induction front with
  | nil => exact List.lookup_cons_self
  | cons e front ih =>
    grind

theorem listNext_append : listNext a (front ++ (a, ca) :: back) = some (listBegin back) := by
  induction front with
  | nil => exact if_pos rfl
  | cons e front ih =>
    obtain ⟨hne, hf⟩ := not_or.mp (List.mem_cons.not.mp hf)
    exact (if_neg (Ne.symm hne)).trans (ih hf)

theorem listRemove_append : listRemove a (front ++ (a, ca) :: back) = front ++ back := by
  induction front with
  | nil => exact if_pos rfl
  | cons e front ih =>
    obtain ⟨hne, hf⟩ := not_or.mp (List.mem_cons.not.mp hf)
    exact (if_neg (Ne.symm hne)).trans (congrArg _ (ih hf))

theorem change_append (f : Cache → Cache) :
    change a f (front ++ (a, ca) :: back) = front ++ (a, f ca) :: back := by
  induction front with
  | nil => exact if_pos rfl
  | cons e front ih =>
    obtain ⟨hne, hf⟩ := not_or.mp (List.mem_cons.not.mp hf)
    exact (if_neg (Ne.symm hne)).trans (congrArg _ (ih hf))

end

/-- An element of the list and its position, the tail being after the last block. -/
def At (entries : List (Nat × Cache)) (e : Elem) (p : Nat) : Prop :=
  ∃ front back, entries = front ++ back ∧ front.length = p ∧ listBegin back = e

section
variable {entries front back : List (Nat × Cache)} {e : Elem} {a p : Nat} {ca : Cache} {l : CacheList} {s : Fs}

theorem At.entry_mem (h : At entries (.entry a) p) : a ∈ entries.map Prod.fst := by
  obtain ⟨front, back, rfl, -, hb⟩ := h
  cases back with
  | nil => cases hb
  | cons x back =>
    cases hb
    simp

theorem listBegin_of_addresses {l l' : List (Nat × Cache)} (h : l.map Prod.fst = l'.map Prod.fst) :
    listBegin l = listBegin l' := by
  cases l with
  | nil =>
    rw [List.map_eq_nil_iff.mp h.symm]
  | cons e l =>
    obtain ⟨e', l'', rfl, he, -⟩ := List.map_eq_cons_iff.mp h.symm
    rw [listBegin_cons, listBegin_cons, he]

/-- Positions do not depend on what the blocks hold. -/
theorem At.of_addresses {entries' : List (Nat × Cache)} (h : At entries e p)
    (ha : entries'.map Prod.fst = entries.map Prod.fst) : At entries' e p := by
  obtain ⟨front, back, rfl, rfl, he⟩ := h
  have hlen : front.length ≤ entries'.length := by
    have := congrArg List.length ha
    grind
  refine ⟨entries'.take front.length, entries'.drop front.length, (List.take_append_drop _ _).symm, ?_, ?_⟩
  · rw [List.length_take, Nat.min_eq_left hlen]
  · rw [← he]
    apply listBegin_of_addresses
    rw [List.map_drop, ha, ← List.map_drop, List.drop_left]

/-- Where `list_insert_ordered` puts a block. -/
theorem listInsertOrdered_eq (new : Nat × Cache) (entries : List (Nat × Cache)) : ∃ front back,
    entries = front ++ back ∧ front.length = insertPosition new.2.index (entries.map Prod.snd) ∧
      listInsertOrdered new entries = front ++ new :: back := by
  induction entries with
  | nil => exact ⟨[], [], rfl, rfl, rfl⟩
  | cons e rest ih =>
    by_cases hlt : new.2.index < e.2.index
    · exact ⟨[], e :: rest, rfl, by simp [insertPosition, hlt], if_pos hlt⟩
    · obtain ⟨front, back, hrest, hlen, hins⟩ := ih
      refine ⟨e :: front, back, congrArg _ hrest, ?_, ?_⟩
      · simp [insertPosition, hlt, hlen]
      · exact (if_neg hlt).trans (congrArg _ hins)

/-- The hand stays on its element when a block is put in. -/
theorem At.insert (h : At (front ++ back) e p) (new : Nat × Cache) :
    At (front ++ new :: back) e (if front.length ≤ p then p + 1 else p) := by
  obtain ⟨pre, post, heq, rfl, he⟩ := h
  rcases List.append_eq_append_iff.mp heq with ⟨mid, rfl, rfl⟩ | ⟨mid, rfl, rfl⟩
  · refine ⟨front ++ new :: mid, post, by simp, ?_, he⟩
    rw [if_pos (by simp), List.length_append, List.length_cons, List.length_append, Nat.add_assoc]
  · cases mid with
    | nil =>
      refine ⟨pre ++ [new], back, by simp, ?_, he⟩
      simp
    | cons x mid =>
      refine ⟨pre, x :: mid ++ new :: back, by simp, ?_, he⟩
      rw [if_neg (by simp)]

/-- The blocks of the list, in the file system's own terms. -/
structure Shows (l : CacheList) (s : Fs) : Prop where
  nodup : l.addresses.Nodup
  blocks : s.cachedBlocks = l.blocks
  size : s.cacheSize = l.cacheSize
  null : l.cachePointer = none → s.cachePointer = none
  hand : ∀ e, l.cachePointer = some e → ∃ p, s.cachePointer = some p ∧ At l.entries e p

theorem not_mem_front (hn : l.addresses.Nodup) (he : l.entries = front ++ (a, ca) :: back) :
    a ∉ front.map Prod.fst := by
  rw [addresses, he, List.map_append, List.map_cons] at hn
  grind

theorem modify_append (f : Cache → Cache) (l l' : List Cache) (ca : Cache) :
    (l ++ ca :: l').modify l.length f = l ++ f ca :: l' := by
  induction l with
  | nil => rfl
  | cons c l ih => exact congrArg _ ih

theorem insertIdx_append (l l' : List Cache) (ca : Cache) : (l ++ l').insertIdx l.length ca = l ++ ca :: l' := by
  induction l with
  | nil => rfl
  | cons c l ih => exact congrArg _ ih

/-- A round of the loop. -/
theorem clockLoop_entry (turns : Nat) (hn : l.addresses.Nodup) (he : l.entries = front ++ (a, ca) :: back) :
    clockLoop (turns + 1) (.entry a) l =
      if ca.isUsed then
        clockLoop turns (if listBegin back = .tail then listBegin (front ++ (a, ca.passed) :: back) else listBegin back)
          {l with entries := front ++ (a, ca.passed) :: back}
      else
        .ok {l with
          entries := front ++ back
          cacheSize := l.cacheSize - 1
          cachePointer := some (listBegin back)} := by
  have hf := not_mem_front hn he
  obtain ⟨index, isDirty, isUsed, data⟩ := ca
  rw [clockLoop, he, lookup_append hf, listNext_append hf]
  cases isUsed with
  | false =>
    cases isDirty with
    | false => simp [removeCache, he, listRemove_append hf]; rfl
    | true => simp [removeCache, change_append hf, listRemove_append hf]; rfl
  | true =>
    cases isDirty with
    | false => simp [he, change_append hf, Cache.passed]
    | true => simp [change_append hf, Cache.passed]

/-- The two loops run alike. -/
theorem clockLoop_shows {E : Panic → Fs → Prop} (hE : ∀ s, E .diverges s) : ∀ (turns : Nat) {l : CacheList} {s : Fs}
    {front back : List (Nat × Cache)} {a : Nat} {ca : Cache}, Ordered s → l.addresses.Nodup →
    s.cachedBlocks = l.blocks → s.cacheSize = l.cacheSize → l.entries = front ++ (a, ca) :: back →
    Ends (Filesys.clockLoop turns front.length) s
      (fun _ s' => ∃ l', clockLoop turns (.entry a) l = .ok l' ∧ Shows l' s') E
  | 0, _, s, _, _, _, _, _, _, _, _, _ => hE s
  | turns + 1, l, s, front, back, a, ca, ho, hn, hb, hsize, he => by
    have hat : s.cachedBlocks[front.length]? = some ca := by
      rw [hb, blocks, he]
      simp
    rw [clockLoop_entry turns hn he]
    cases hu : ca.isUsed with
    | false =>
      refine (clockLoop_unused turns ho hat hu).imp ?_
      intro _ s' hs'
      subst hs'
      refine ⟨_, rfl, ?_⟩
      rw [Fs.evict, hat]
      refine ⟨?_, ?_, ?_, by simp, ?_⟩
      · exact hn.sublist (by simp [addresses, he])
      · show s.cachedBlocks.eraseIdx front.length = _
        rw [hb, blocks, he, List.map_append, List.eraseIdx_append_of_length_le (by simp)]
        simp [blocks]
      · grind
      · intro e hel
        cases hel
        exact ⟨_, rfl, front, back, rfl, rfl, rfl⟩
    | true =>
      refine clockLoop_used turns ho hat hu ?_
      have hn' : (CacheList.addresses {l with entries := front ++ (a, ca.passed) :: back}).Nodup := by
        simpa [addresses, he] using hn
      have hb' : (s.pass front.length).cachedBlocks =
          CacheList.blocks {l with entries := front ++ (a, ca.passed) :: back} := by
        rw [pass_cachedBlocks, hb, blocks, he, List.map_append, ← List.length_map Prod.snd]
        exact (modify_append _ _ _ _).trans (by simp [blocks])
      have hsize' : (s.pass front.length).cacheSize = l.cacheSize := (pass_cacheSize _ _).trans hsize
      have hlen : s.cachedBlocks.length = front.length + 1 + back.length := by
        simp only [hb, blocks, he, List.length_map, List.length_append, List.length_cons]
        omega
      cases back with
      | nil =>
        -- the hand goes back to the first block
        have hafter : s.after front.length = 0 := if_pos (by simpa using hlen.symm)
        obtain ⟨b, cb, rest, hrest⟩ : ∃ b cb rest, front ++ [(a, ca.passed)] = [] ++ (b, cb) :: rest := by
          cases front with
          | nil => exact ⟨_, _, _, rfl⟩
          | cons e front => exact ⟨_, _, _, rfl⟩
        rw [hrest] at hn' hb'
        simp only [hafter, listBegin, if_true, hrest]
        exact clockLoop_shows hE turns (ordered_pass ho front.length) hn' hb' hsize' rfl
      | cons e back =>
        have hafter : s.after front.length = (front ++ [(a, ca.passed)]).length := by
          rw [Fs.after, if_neg (by simp [hlen]), List.length_append]
          rfl
        simp only [hafter, listBegin, reduceCtorEq, if_false, if_true]
        exact clockLoop_shows hE turns (ordered_pass ho front.length) hn' hb' hsize' (List.append_cons front _ _)

theorem Shows.length (h : Shows l s) : s.cachedBlocks.length = l.entries.length := by
  rw [h.blocks, CacheList.blocks, List.length_map]

/-- The clock starts at the same block. -/
theorem Shows.hand_entry (h : Shows l s) (hne : l.entries ≠ []) : ∃ front a ca back, l.entries = front ++ (a, ca) :: back ∧
    front.length = s.hand ∧ l.hand = .entry a := by
  unfold CacheList.hand
  obtain ⟨⟨a, ca⟩, rest, hcons⟩ := List.exists_cons_of_ne_nil hne
  have hbegin : listBegin l.entries = .entry a := by rw [hcons]; rfl
  have hlen := h.length
  cases hp : l.cachePointer with
  | none =>
    refine ⟨[], a, ca, rest, hcons, ?_, ?_⟩
    · rw [Fs.hand, h.null hp]
      rfl
    · simpa using hbegin
  | some e =>
    obtain ⟨p, hsp, front, back, he, rfl, hb⟩ := h.hand e hp
    cases back with
    | nil =>
      cases hb
      refine ⟨[], a, ca, rest, hcons, ?_, ?_⟩
      · have hall : front.length = s.cachedBlocks.length := by rw [hlen, he, List.append_nil]
        simp [Fs.hand, hsp, hall]
      · simpa using hbegin
    | cons x back =>
      cases hb
      refine ⟨front, x.1, x.2, back, he, ?_, by simp⟩
      have hlt : front.length ≠ s.cachedBlocks.length := by
        grind
      simp [Fs.hand, hsp, hlt]

theorem applyClockAlgorithm_shows (h : Shows l s) (ho : Ordered s) (hne : l.entries ≠ []) :
    Ends Filesys.applyClockAlgorithm s (fun _ s' => ∃ l', l.applyClockAlgorithm = .ok l' ∧ Shows l' s')
      fun _ _ => True := by
  obtain ⟨front, a, ca, back, he, hhand, hstart⟩ := h.hand_entry hne
  have hloop := clockLoop_shows (E := fun _ _ => True) (fun _ => trivial) (l.entries.length + 1) ho h.nodup h.blocks
    h.size he
  rw [hhand, ← h.length] at hloop
  refine Ends.imp hloop ?_
  intro _ s' hx
  obtain ⟨l', hl', hshow⟩ := hx
  refine ⟨l', ?_, hshow⟩
  rw [applyClockAlgorithm, hstart, ← h.length, hl']

/-- A new block, in the list and in the file system. -/
theorem Shows.inserted (h : Shows l s) (hnew : a ∉ l.addresses) (k : Nat) (buf : Bytes) :
    Shows (l.inserted a k buf) (s.inserted k buf) := by
  obtain ⟨front, back, he, hlen, hins⟩ := listInsertOrdered_eq (a, ⟨k, false, true, buf⟩) l.entries
  change front.length = insertPosition k l.blocks at hlen
  rw [CacheList.inserted, hins]
  refine ⟨?_, ?_, ?_, ?_, ?_⟩
  · have hn := h.nodup
    rw [addresses, he] at hn hnew
    rw [addresses, List.map_append, List.map_cons, List.nodup_middle, ← List.map_append]
    exact List.nodup_cons.mpr ⟨hnew, hn⟩
  · show s.cachedBlocks.insertIdx (insertPosition k s.cachedBlocks) _ = _
    rw [h.blocks, ← hlen, CacheList.blocks, he, List.map_append, ← List.length_map Prod.snd, insertIdx_append]
    simp [CacheList.blocks]
  · exact congrArg (· + 1) h.size
  · intro hp
    show s.cachePointer.map _ = none
    rw [h.null hp]
    rfl
  · intro e hp
    obtain ⟨p, hsp, hat⟩ := h.hand e hp
    rw [he] at hat
    refine ⟨_, ?_, hat.insert _⟩
    show s.cachePointer.map _ = some _
    rw [hsp, h.blocks, ← hlen]
    rfl

/-- `set_cache` on both sides. -/
theorem setCache_shows (h : Shows l s) (hok : CacheOk s) {k : Nat} (hk : k < s.deviceSize)
    (hfind : findCache k s.cachedBlocks = none) (buf : Bytes) (hnew : a ∉ l.addresses) :
    Ends (Filesys.setCache k buf) s
      (fun _ s' => s.heap ≠ [] ∧ Shows l s' ∨ ∃ l', l.setCache a k buf = .ok l' ∧ Shows l' s') fun _ _ => True := by
  have hheap : ∀ heap, Shows l {s with heap := heap} := fun heap => ⟨h.nodup, h.blocks, h.size, h.null, h.hand⟩
  refine setCache_outcomes k buf (fun hne heap => .inl ⟨hne, hheap heap⟩) ?_ ?_
  · intro heap hle
    refine .inr ⟨_, ?_, (hheap heap).inserted hnew k buf⟩
    rw [setCache, if_neg]
    · rfl
    · rw [h.size] at hle
      exact Nat.not_lt.mpr hle
  · intro heap hgt
    have ho : Ordered {s with heap := heap} := (cacheOk_beside hok).toOrdered
    have hshow := (hheap heap).inserted hnew k buf
    refine (applyClockAlgorithm_shows hshow (ordered_inserted ho hk hfind buf) ?_).imp ?_
    · intro hnil
      have hlen := hshow.length
      rw [length_inserted, hnil] at hlen
      cases hlen
    · intro _ s' hx
      obtain ⟨l', hl', hshow'⟩ := hx
      refine .inr ⟨l', ?_, hshow'⟩
      rw [setCache, if_pos, hl']
      rw [h.size] at hgt
      exact hgt

theorem setCache_linked (h : Shows l s) (hok : CacheOk s) {k : Nat} (hk : k < s.deviceSize)
    (hfind : findCache k s.cachedBlocks = none) (buf : Bytes) (hnew : a ∉ l.addresses) {E : Panic → Fs → Prop} :
    Ends (Filesys.setCache k buf) s (fun _ s' => CacheOk s' ∧
      (s.heap ≠ [] ∧ Shows l s' ∨ ∃ l', l.setCache a k buf = .ok l' ∧ Shows l' s')) E :=
  ((setCache_cacheOk hok hk hfind buf (E := fun _ _ => False)).and (setCache_shows h hok hk hfind buf hnew)).mono
    (fun _ _ => id) fun _ _ hE => hE.1.elim

/-- The block that `get_cache` finds, and where it is. -/
theorem getCache_split {index : Nat} {e : Nat × Cache} (h : getCache index entries = some e) : ∃ front back,
    entries = front ++ e :: back ∧ e.2.index = index ∧ ∀ x ∈ front, x.2.index ≠ index := by
  induction entries with
  | nil => cases h
  | cons x rest ih =>
    unfold getCache at h
    split at h
    · rename_i hx
      cases h
      exact ⟨[], rest, rfl, hx, by simp⟩
    · rename_i hx
      split at h
      · cases h
      · grind

theorem getCache_block (index : Nat) (entries : List (Nat × Cache)) :
    (getCache index entries).map Prod.snd = findCache index (entries.map Prod.snd) := by
  induction entries with
  | nil => rfl
  | cons e rest ih =>
    unfold getCache
    rw [List.map_cons, findCache]
    grind

/-- `update_cache` on both sides. -/
theorem updateCache_shows (h : Shows l s) {index : Nat} {e : Nat × Cache} (he : getCache index l.entries = some e)
    (buf : Bytes) (offset size : Nat) {E : Panic → Fs → Prop} :
    Ends (Filesys.updateCache index buf offset size) s
      (fun _ s' => Shows (l.updateCache e.1 buf offset size) s') E := by
  obtain ⟨a, ca⟩ := e
  obtain ⟨front, back, hl, hi, hfront⟩ := getCache_split he
  have hblocks : s.cachedBlocks = front.map Prod.snd ++ ca :: back.map Prod.snd := by
    rw [h.blocks, blocks, hl]
    simp
  have hidx : s.cachedBlocks.findIdx (fun ca => ca.index == index) = (front.map Prod.snd).length := by
    grind
  have hf := not_mem_front h.nodup hl
  unfold Filesys.updateCache
  rw [ends_modify, hidx, hblocks, modify_append]
  rw [updateCache, hl, change_append hf]
  refine ⟨?_, by simp [blocks], h.size, h.null, ?_⟩
  · simpa [addresses, hl] using h.nodup
  · intro e hp
    obtain ⟨p, hsp, hat⟩ := h.hand e hp
    exact ⟨p, hsp, hat.of_addresses (by simp [hl])⟩

theorem updateCache_linked (h : Shows l s) (hok : CacheOk s) {index : Nat} {e : Nat × Cache}
    (he : getCache index l.entries = some e) (buf : Bytes) (offset size : Nat) {E : Panic → Fs → Prop} :
    Ends (Filesys.updateCache index buf offset size) s
      (fun _ s' => CacheOk s' ∧ Shows (l.updateCache e.1 buf offset size) s') E := by
  have hca : findCache index s.cachedBlocks = some e.2 := by
    rw [h.blocks, blocks, ← getCache_block, he]
    rfl
  exact ((updateCache_cacheOk hok hca buf offset size (E := fun _ _ => False)).and
    (updateCache_shows h he buf offset size (E := fun _ _ => False))).mono (fun _ _ => id) fun _ _ hE => hE.1.elim

/-! ### Every run of calls -/

/-- The list of a cache in order. -/
def Linked (l : CacheList) : Prop := ∃ s, Shows l s ∧ CacheOk s

theorem shows_initCache (hb : s.cachedBlocks = []) (hsize : s.cacheSize = 0) (hp : s.cachePointer = none) :
    Shows initCache s :=
  ⟨List.nodup_nil, hb, hsize, fun _ => hp, by simp [initCache]⟩

theorem cacheOk_initCache (hb : s.cachedBlocks = []) (hsize : s.cacheSize = 0) (hp : s.cachePointer = none) :
    CacheOk s := by
  refine ⟨⟨?_, ?_, ?_, ?_⟩, ?_⟩ <;> simp [hb, hsize, hp, Sorted]

theorem linked_initCache : Linked initCache :=
  ⟨⟨fun _ _ => 0, 0, [], 0, none, Kernel.Bitmap.create 0, none, [], [], []⟩, shows_initCache rfl rfl rfl,
    cacheOk_initCache rfl rfl rfl⟩

theorem Shows.getCache_none (h : Shows l s) {index : Nat} :
    getCache index l.entries = none ↔ findCache index s.cachedBlocks = none := by
  rw [h.blocks, CacheList.blocks, ← getCache_block, Option.map_eq_none_iff]

/-- Any device that has the sectors will do, and any memory. -/
theorem Linked.roomy (h : Linked l) (index : Nat) :
    ∃ s, Shows l s ∧ CacheOk s ∧ index < s.deviceSize ∧ s.heap = [] := by
  obtain ⟨s, hs, hok⟩ := h
  refine ⟨{s with deviceSize := s.deviceSize + index + 1, heap := []},
    ⟨hs.nodup, hs.blocks, hs.size, hs.null, hs.hand⟩, ⟨⟨hok.sorted, hok.size, hok.hand, ?_⟩, hok.small⟩, ?_, rfl⟩
  · intro ca hca
    have := hok.onDevice ca hca
    grind
  · grind

/-- A use that `malloc` allows follows no stray pointer, and leaves the list in order. -/
theorem Linked.step_ok {u : Use} (h : Linked l) (ha : u.Allowed l) : ∃ l', u.step l = .ok l' ∧ Linked l' := by
  cases u with
  | miss address index buf =>
    cases hg : getCache index l.entries with
    | some e => exact ⟨l, by simp only [Use.step, hg]; rfl, h⟩
    | none =>
      obtain ⟨s, hs, hok, hlt, hheap⟩ := h.roomy index
      obtain ⟨_, s', -, hok', hshow⟩ := (setCache_linked hs hok hlt (hs.getCache_none.mp hg) buf ha).ok
      rcases hshow with ⟨hne, -⟩ | ⟨l', hl', hshow⟩
      · exact absurd hheap hne
      · exact ⟨l', by simp only [Use.step, hg]; exact hl', s', hshow, hok'⟩
  | hit index buf offset size =>
    cases hg : getCache index l.entries with
    | none => exact ⟨l, by simp only [Use.step, hg]; rfl, h⟩
    | some e =>
      obtain ⟨s, hs, hok⟩ := h
      obtain ⟨_, s', -, hok', hshow⟩ := (updateCache_linked hs hok hg buf offset size).ok
      exact ⟨l.updateCache e.1 buf offset size, by simp only [Use.step, hg]; rfl, s', hshow, hok'⟩

/-- The list between two uses: strictly increasing, as long as `cache_size` says, no longer than allowed, with the
hand null, at the tail or on a block that is there; and `get_cache` finds what there is. -/
structure InOrder (l : CacheList) : Prop where
  sorted : l.entries.Pairwise fun x y => x.2.index < y.2.index
  size : l.cacheSize = l.entries.length
  small : l.cacheSize ≤ cacheBlockSize
  hand : l.cachePointer = none ∨ l.cachePointer = some .tail ∨ ∃ e ∈ l.entries, l.cachePointer = some (.entry e.1)
  found : ∀ index e, getCache index l.entries = some e ↔ e ∈ l.entries ∧ e.2.index = index

theorem getCache_of_mem (hl : entries.Pairwise fun x y => x.2.index < y.2.index) {x : Nat × Cache} (hx : x ∈ entries) :
    getCache x.2.index entries = some x := by
  induction entries with
  | nil => cases hx
  | cons y rest ih =>
    obtain ⟨hy, hrest⟩ := List.pairwise_cons.mp hl
    rcases List.mem_cons.mp hx with rfl | hx
    · exact if_pos rfl
    · have hlt := hy x hx
      rw [getCache, if_neg (by omega), if_neg (by omega)]
      exact ih hrest hx

theorem Linked.inOrder (h : Linked l) : InOrder l := by
  obtain ⟨s, hs, hok⟩ := h
  have hsorted : l.entries.Pairwise fun x y => x.2.index < y.2.index := by
    have := hok.sorted
    rw [hs.blocks] at this
    exact (List.pairwise_map (R := fun x y : Cache => x.index < y.index)).mp this
  have hlen : l.cacheSize = l.entries.length := by rw [← hs.size, hok.size, hs.length]
  refine ⟨hsorted, hlen, ?_, ?_, ?_⟩
  · rw [hlen, ← hs.length]
    exact hok.small
  · cases hp : l.cachePointer with
    | none => exact .inl rfl
    | some e =>
      cases e with
      | tail => exact .inr (.inl rfl)
      | entry a =>
        obtain ⟨p, -, hat⟩ := hs.hand _ hp
        obtain ⟨x, hx, rfl⟩ := List.mem_map.mp hat.entry_mem
        exact .inr (.inr ⟨x, hx, rfl⟩)
  · intro index x
    constructor
    · intro hg
      obtain ⟨front, back, he, hi, -⟩ := getCache_split hg
      exact ⟨he ▸ List.mem_append_right _ List.mem_cons_self, hi⟩
    · rintro ⟨hx, rfl⟩
      exact getCache_of_mem hsorted hx

theorem linked_reach (hr : Reach Use.step Use.Allowed (· = initCache) l) : Linked l := by
  refine hr.invariant (J := Linked) ?_ ?_
  · rintro _ rfl
    exact linked_initCache
  · intro l u l' hl ha hstep
    obtain ⟨l'', hl'', hlinked⟩ := hl.step_ok ha
    grind

/-! ### The calls of the file system -/

/-- The cache of a file system is what some run of uses leaves. -/
def Used (s : Fs) : Prop := CacheOk s ∧ ∃ l, Reach Use.step Use.Allowed (· = initCache) l ∧ Shows l s

theorem exists_fresh (l : CacheList) : ∃ a, a ∉ l.addresses := by
  obtain ⟨a, ha⟩ := Infinite.exists_notMem_finset l.addresses.toFinset
  exact ⟨a, by simpa using ha⟩

theorem used_kept : CacheKept Used where
  ok h := h.1
  beside := by
    intro s _ _ _ _ _ _ hx
    obtain ⟨hok, l, hr, hs⟩ := hx
    exact ⟨cacheOk_beside hok, l, hr, hs.nodup, hs.blocks, hs.size, hs.null, hs.hand⟩
  enter := by
    intro s k hx hk hfind buf
    obtain ⟨hok, l, hr, hs⟩ := hx
    obtain ⟨a, ha⟩ := exists_fresh l
    refine (setCache_linked hs hok hk hfind buf ha).imp ?_
    intro _ s' hx
    obtain ⟨hok', hshow⟩ := hx
    rcases hshow with ⟨-, hshow⟩ | ⟨l', hl', hshow⟩
    · exact ⟨hok', l, hr, hshow⟩
    · refine ⟨hok', l', .step hr (a := .miss a k buf) ha ?_, hshow⟩
      simp only [Use.step, hs.getCache_none.mpr hfind]
      exact hl'
  update := by
    intro s k ca hx hca buf off n
    obtain ⟨hok, l, hr, hs⟩ := hx
    obtain ⟨e, he⟩ : ∃ e, getCache k l.entries = some e := by
      cases hg : getCache k l.entries with
      | none => simp [hs.getCache_none.mp hg] at hca
      | some e => exact ⟨e, rfl⟩
    refine (updateCache_linked hs hok he buf off n).imp ?_
    intro _ s' hx
    obtain ⟨hok', hshow⟩ := hx
    refine ⟨hok', _, .step hr (a := .hit k buf off n) trivial ?_, hshow⟩
    simp only [Use.step, he]
    rfl

theorem used_reach (hr : Reach CacheCall.step (fun _ _ => True) CacheStarted s) : Used s := by
  refine hr.invariant (J := Used) ?_ ?_
  · rintro _ ⟨s0, hs0⟩
    cases hs0
    exact ⟨cacheOk_initCache rfl rfl rfl, initCache, .start rfl, shows_initCache rfl rfl rfl⟩
  · intro s c s' hs _ hc
    exact used_kept.step hs hc

/-- Whatever uses the cache is put to, its list is in order between them, and no use follows a stray pointer; and
after any calls of `inode_read_at`, `inode_read_at_ahead` and `inode_write_at` the cache is one of these. -/
theorem cache_in_order :
    (∀ l, Reach Use.step Use.Allowed (· = initCache) l →
      InOrder l ∧ ∀ u : Use, u.Allowed l → ∃ l', u.step l = .ok l') ∧
    (∀ s, Reach CacheCall.step (fun _ _ => True) CacheStarted s →
      ∃ l, Reach Use.step Use.Allowed (· = initCache) l ∧ Shows l s) := by
  refine ⟨?_, ?_⟩
  · intro l hr
    refine ⟨(linked_reach hr).inOrder, ?_⟩
    intro u ha
    obtain ⟨l', hl', -⟩ := (linked_reach hr).step_ok ha
    exact ⟨l', hl'⟩
  · intro s hr
    exact (used_reach hr).2

instance : ∀ (u : Use) (l : CacheList), Decidable (u.Allowed l)
  | .miss address _ _, l => inferInstanceAs (Decidable (address ∉ l.addresses))
  | .hit _ _ _ _, _ => inferInstanceAs (Decidable True)

theorem cache_in_order_after_misses : ∃ l, Reach Use.step Use.Allowed (· = initCache) l ∧
    l.addresses = [16, 48, 32] ∧ InOrder l := by
  obtain ⟨l, hr, hl⟩ : ∃ l, Reach Use.step Use.Allowed (· = initCache) l ∧ l.addresses = [16, 48, 32] := by
    refine Reach.of_after (s := initCache) ?_
      [.miss 16 5 fun _ => 0, .miss 32 9 fun _ => 0, .hit 5 (fun _ => 1) 0 4, .miss 48 7 fun _ => 0] ?_
    · rfl
    · decide +kernel
  exact ⟨l, hr, hl, (cache_in_order.1 l hr).1⟩

end

end CacheList

end Pintos.Filesys
