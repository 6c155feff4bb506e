import Pintos.Filesys.Cache
import Pintos.Filesys.History
import Pintos.Library.WriteBack

/-! What the cache does to a sector.

A sector with its cached copy is a write-back cell (`Fs.cell`). The cache's own motion,
eviction included, only lets cells drift (`Quiet`), and every sector it writes had a
dirty copy. -/
namespace Pintos.Filesys
open Outcome WriteBack

/-! ### The cached blocks as a map -/

def Sorted (l : List Cache) : Prop := l.Pairwise fun a b => a.index < b.index

section
variable {c : Cache} {l : List Cache} {index : Nat}

theorem findCache_nil : findCache index [] = none := rfl

theorem findCache_cons : findCache index (c :: l) =
    if c.index = index then some c else if c.index > index then none else findCache index l := rfl

theorem insertPosition_cons : insertPosition index (c :: l) =
    if index < c.index then 0 else insertPosition index l + 1 := rfl

/-- A search that goes on from a block and finds nothing. -/
theorem findCache_cons_none (h : findCache index (c :: l) = none) (hge : ¬ index < c.index) :
    c.index ≠ index ∧ findCache index l = none := by
  rw [findCache_cons] at h
  grind

end

theorem findCache_mem {k : Nat} {l : List Cache} {ca : Cache} (h : findCache k l = some ca) :
    ca ∈ l ∧ ca.index = k := by
  induction l with
  | nil => cases h
  | cons c l ih =>
    rw [findCache_cons] at h
    grind

theorem findCache_of_mem {l : List Cache} (hl : Sorted l) {ca : Cache} (h : ca ∈ l) :
    findCache ca.index l = some ca := by
  induction l with
  | nil => cases h
  | cons c l ih =>
    obtain ⟨hc, hl⟩ := List.pairwise_cons.mp hl
    rcases List.mem_cons.mp h with rfl | h
    · exact if_pos rfl
    · have := hc ca h
      rw [findCache_cons, if_neg (by omega), if_neg (by omega)]
      exact ih hl h

theorem findCache_modify {l : List Cache} (hl : Sorted l) (f : Cache → Cache)
    (hf : ∀ ca, (f ca).index = ca.index) {p : Nat} {ca : Cache} (hp : l[p]? = some ca) (k : Nat) :
    findCache k (l.modify p f) = if ca.index = k then some (f ca) else findCache k l := by
  induction l generalizing p with
  | nil => simp at hp
  | cons c l ih =>
    obtain ⟨hc, hl⟩ := List.pairwise_cons.mp hl
    cases p with
    | zero =>
      simp only [List.getElem?_cons_zero, Option.some.injEq] at hp
      subst hp
      simp only [List.modify_zero_cons, findCache_cons, hf]
      split <;> rfl
    | succ p =>
      simp only [List.getElem?_cons_succ] at hp
      simp only [List.modify_succ_cons, findCache_cons]
      have := hc ca (List.mem_of_getElem? hp)
      rw [ih hl hp]
      grind

theorem map_index_modify (l : List Cache) (f : Cache → Cache)
    (hf : ∀ ca, (f ca).index = ca.index) (p : Nat) :
    (l.modify p f).map Cache.index = l.map Cache.index := by
  induction l generalizing p with
  | nil => simp
  | cons c l ih => cases p <;> simp [hf, ih]

theorem sorted_modify {l : List Cache} (hl : Sorted l) (f : Cache → Cache)
    (hf : ∀ ca, (f ca).index = ca.index) (p : Nat) : Sorted (l.modify p f) := by
  have := List.pairwise_map.mpr hl
  rw [← map_index_modify l f hf p] at this
  exact List.pairwise_map.mp this

theorem mem_modify_index {l : List Cache} {f : Cache → Cache} (hf : ∀ ca, (f ca).index = ca.index)
    {p : Nat} {ca : Cache} (h : ca ∈ l.modify p f) : ∃ c ∈ l, c.index = ca.index := by
  have : ca.index ∈ (l.modify p f).map Cache.index := List.mem_map_of_mem h
  rw [map_index_modify l f hf p] at this
  exact List.mem_map.mp this

theorem findCache_eraseIdx {l : List Cache} (hl : Sorted l) {p : Nat} {ca : Cache}
    (hp : l[p]? = some ca) (k : Nat) :
    findCache k (l.eraseIdx p) = if ca.index = k then none else findCache k l := by
  induction l generalizing p with
  | nil => simp at hp
  | cons c l ih =>
    obtain ⟨hc, hl⟩ := List.pairwise_cons.mp hl
    cases p with
    | zero =>
      simp only [List.getElem?_cons_zero, Option.some.injEq] at hp
      subst hp
      simp only [List.eraseIdx_cons_zero, findCache_cons]
      cases hk : findCache k l with
      | none => simp
      | some d =>
        obtain ⟨hd, rfl⟩ := findCache_mem hk
        grind
    | succ p =>
      simp only [List.getElem?_cons_succ] at hp
      have := hc ca (List.mem_of_getElem? hp)
      simp only [List.eraseIdx_cons_succ, findCache_cons, ih hl hp]
      grind

theorem sorted_eraseIdx {l : List Cache} (hl : Sorted l) (p : Nat) : Sorted (l.eraseIdx p) :=
  List.Pairwise.sublist (List.eraseIdx_sublist l p) hl

theorem insertPosition_le (k : Nat) (l : List Cache) : insertPosition k l ≤ l.length := by
  induction l with
  | nil => exact Nat.le_refl 0
  | cons c l ih => rw [insertPosition_cons, List.length_cons]; split <;> omega

theorem findCache_insert {l : List Cache} (hl : Sorted l) (new : Cache)
    (hnew : findCache new.index l = none) (k : Nat) :
    findCache k (l.insertIdx (insertPosition new.index l) new) =
      if new.index = k then some new else findCache k l := by
  induction l with
  | nil => exact findCache_cons.trans (by rw [findCache_nil, ite_self])
  | cons c l ih =>
    obtain ⟨hc, hl⟩ := List.pairwise_cons.mp hl
    by_cases hlt : new.index < c.index
    · simp only [insertPosition_cons, hlt, if_true, List.insertIdx_zero, findCache_cons]
      grind
    · obtain ⟨hne, hnew'⟩ := findCache_cons_none hnew hlt
      simp only [insertPosition_cons, hlt, if_false, List.insertIdx_succ_cons, findCache_cons, ih hl hnew']
      grind

theorem sorted_insert {l : List Cache} (hl : Sorted l) {new : Cache}
    (hnew : findCache new.index l = none) :
    Sorted (l.insertIdx (insertPosition new.index l) new) := by
  induction l with
  | nil => exact List.pairwise_singleton _ _
  | cons c l ih =>
    obtain ⟨hc, hl'⟩ := List.pairwise_cons.mp hl
    by_cases hlt : new.index < c.index
    · simp only [insertPosition_cons, hlt, if_true, List.insertIdx_zero]
      refine List.pairwise_cons.mpr ⟨fun d hd => ?_, hl⟩
      grind
    · obtain ⟨hne, hnew'⟩ := findCache_cons_none hnew hlt
      simp only [insertPosition_cons, hlt, if_false, List.insertIdx_succ_cons]
      refine List.pairwise_cons.mpr ⟨fun d hd => ?_, ih hl' hnew'⟩
      rcases (List.mem_insertIdx (insertPosition_le _ _)).mp hd with rfl | hd
      · omega
      · exact hc d hd

/-! ### Cells and their motion -/

/-- A sector and its cached copy. -/
def Fs.cell (s : Fs) (k : Nat) : Cell Nat UInt8 :=
  ⟨s.device k, (findCache k s.cachedBlocks).map fun ca => (ca.isDirty, ca.data)⟩

/-- The list, its length, the hand and the sectors on it are in order. -/
structure Ordered (s : Fs) : Prop where
  sorted : Sorted s.cachedBlocks
  size : s.cacheSize = s.cachedBlocks.length
  hand : ∀ p, s.cachePointer = some p → p ≤ s.cachedBlocks.length
  onDevice : ∀ ca ∈ s.cachedBlocks, ca.index < s.deviceSize

/-- The cache between calls. -/
structure CacheOk (s : Fs) : Prop extends Ordered s where
  small : s.cachedBlocks.length ≤ cacheBlockSize

/-- The file system has moved, but not its structure: outside the sectors of `D`, where data
may be stored, cells have only drifted, every sector serves as it did, and as long as the
history is intact the serving sectors hold what they held. -/
structure Calm (D : Nat → Prop) (s s' : Fs) : Prop where
  deviceSize : s'.deviceSize = s.deviceSize
  freeMapFile : s'.freeMapFile = s.freeMapFile
  openInodes : s'.openInodes = s.openInodes
  heap : s.heap = [] → s'.heap = []
  cells : ∀ k, ¬ D k → (s.cell k).Drifts (s'.cell k)
  stored : ∀ k, D k → (s.cell k).Coherent → (s'.cell k).Coherent
  events : ∃ ev, s'.trace = ev ++ s.trace ∧
    ∀ e ∈ ev, Harmless s.trace (fun k => (s.cell k).Dirty ∨ D k) D e
  device : Intact s'.trace → ∀ k, ¬ D k → lastRole s.trace k ≠ none → s'.device k = s.device k

namespace Calm

variable {D D' : Nat → Prop} {a b c s s' : Fs}

theorem refl (D : Nat → Prop) (s : Fs) : Calm D s s :=
  ⟨rfl, rfl, rfl, id, fun _ _ => .refl _, fun _ _ => id, ⟨[], rfl, by simp⟩, fun _ _ _ _ => rfl⟩

theorem role (h : Calm D s s') (k : Nat) :
    lastRole s'.trace k = lastRole s.trace k := by
  obtain ⟨ev, hev, hharm⟩ := h.events
  rw [hev, lastRole_harmless hharm]

theorem intact_before (h : Calm D s s') (hi : Intact s'.trace) : Intact s.trace := by
  obtain ⟨ev, hev, -⟩ := h.events
  exact intact_of_append (hev ▸ hi)

theorem dirty (h : Calm D s s') {k : Nat} (hk : (s'.cell k).Dirty) : (s.cell k).Dirty ∨ D k := by
  by_cases hD : D k
  · exact .inr hD
  · exact .inl ((h.cells k hD).dirty hk)

/-- Without dirty copies on serving sectors the history stays intact. -/
theorem intact (h : Calm D s s') (hi : Intact s.trace)
    (hd : ∀ k, (s.cell k).Dirty ∨ D k → lastRole s.trace k = none) : Intact s'.trace := by
  obtain ⟨ev, hev, hharm⟩ := h.events
  exact hev ▸ intact_harmless hharm hd hi

theorem coherent (h : Calm D s s') {k : Nat} (hk : (s.cell k).Coherent) : (s'.cell k).Coherent := by
  by_cases hD : D k
  · exact h.stored k hD hk
  · exact ((h.cells k hD).coherent hk).1

theorem mono (h : Calm D s s') (hD : ∀ k, D k → D' k) : Calm D' s s' := by
  obtain ⟨ev, hev, hharm⟩ := h.events
  refine ⟨h.deviceSize, h.freeMapFile, h.openInodes, h.heap, fun k hk => h.cells k (hk ∘ hD k),
    fun _ _ => h.coherent, ⟨ev, hev, fun e he => (hharm e he).mono (fun k => Or.imp_right (hD k)) hD⟩,
    fun hi k hk => h.device hi k (hk ∘ hD k)⟩

theorem trans (h : Calm D a b) (h' : Calm D b c) : Calm D a c := by
  obtain ⟨ev, hev, hharm⟩ := h.events
  obtain ⟨ev', hev', hharm'⟩ := h'.events
  refine ⟨h'.deviceSize.trans h.deviceSize, h'.freeMapFile.trans h.freeMapFile,
    h'.openInodes.trans h.openInodes, fun hh => h'.heap (h.heap hh),
    fun k hk => (h.cells k hk).trans (h'.cells k hk), fun _ _ hk => h'.coherent (h.coherent hk),
    ⟨ev' ++ ev, by rw [hev', hev, List.append_assoc], fun e he => ?_⟩, fun hi k hk hr => ?_⟩
  · rcases List.mem_append.mp he with he | he
    · have := (hharm' e he).congr fun k => h.role k
      exact this.mono (fun k hk => hk.elim h.dirty .inr) fun _ => id
    · exact hharm e he
  · rw [h'.device hi k hk (by rwa [h.role]), h.device (h'.intact_before hi) k hk hr]

end Calm

/-- Only the cache has moved. -/
structure Quiet (s s' : Fs) : Prop extends Calm (fun _ => False) s s' where
  freeMap : s'.freeMap = s.freeMap
  releases : releases s'.trace = releases s.trace

theorem Quiet.refl (s : Fs) : Quiet s s := ⟨.refl _ s, rfl, rfl⟩

theorem Quiet.trans {a b c : Fs} (h : Quiet a b) (h' : Quiet b c) : Quiet a c :=
  ⟨h.toCalm.trans h'.toCalm, h'.freeMap.trans h.freeMap, h'.releases.trans h.releases⟩

theorem Quiet.calm {s s' : Fs} (h : Quiet s s') (D : Nat → Prop) : Calm D s s' :=
  h.toCalm.mono fun _ => False.elim

/-! ### The clock -/

theorem cell_of_getElem? {s : Fs} (h : Ordered s) {p : Nat} {ca : Cache}
    (hp : s.cachedBlocks[p]? = some ca) :
    s.cell ca.index = ⟨s.device ca.index, some (ca.isDirty, ca.data)⟩ := by
  simp [Fs.cell, findCache_of_mem h.sorted (List.mem_of_getElem? hp)]

theorem ordered_modify {s : Fs} (h : Ordered s) (p : Nat) (f : Cache → Cache)
    (hf : ∀ ca, (f ca).index = ca.index) :
    Ordered {s with cachedBlocks := s.cachedBlocks.modify p f} where
  sorted := sorted_modify h.sorted f hf p
  size := by simpa using h.size
  hand := by simpa using h.hand
  onDevice := by
    intro ca hca
    obtain ⟨c, hc, he⟩ := mem_modify_index hf hca
    exact he ▸ h.onDevice c hc

theorem cell_modify {s : Fs} (h : Ordered s) {p : Nat} {ca : Cache}
    (hp : s.cachedBlocks[p]? = some ca) (f : Cache → Cache) (hf : ∀ ca, (f ca).index = ca.index)
    (k : Nat) :
    Fs.cell {s with cachedBlocks := s.cachedBlocks.modify p f} k =
      if ca.index = k then ⟨s.device k, some ((f ca).isDirty, (f ca).data)⟩ else s.cell k := by
  simp only [Fs.cell, findCache_modify h.sorted f hf hp]
  split <;> rfl

/-- A dirty block written back: its cell takes one step. -/
theorem writeBack_ends {s : Fs} (h : Ordered s) {p : Nat} {ca : Cache}
    (hp : s.cachedBlocks[p]? = some ca) (hd : ca.isDirty = true) {E : Panic → Fs → Prop} :
    Ends (writeBack p) s (fun _ s' => Quiet s s' ∧ Ordered s' ∧
      s'.cachedBlocks = s.cachedBlocks.modify p (fun ca => {ca with isDirty := false}) ∧
      s'.cachePointer = s.cachePointer ∧ s'.cacheSize = s.cacheSize) E := by
  have hlt := h.onDevice ca (List.mem_of_getElem? hp)
  unfold writeBack
  simp only [ends_bind, ends_get, hp, ends_blockWrite hlt, ends_modify]
  have hput : Ordered (s.put .writeBack ca.index ca.data) := ⟨h.sorted, h.size, h.hand, h.onDevice⟩
  have hcell := cell_modify hput hp (fun ca => {ca with isDirty := false}) (fun _ => rfl)
  refine ⟨⟨⟨rfl, rfl, rfl, id, fun k _ => ?_, fun _ => False.elim,
    ⟨[.write .writeBack ca.index ca.data], rfl, ?_⟩, ?_⟩, rfl, rfl⟩,
    ordered_modify hput p _ (fun _ => rfl), rfl, rfl, rfl⟩
  · rw [hcell]
    split
    · rename_i hk
      subst hk
      rw [cell_of_getElem? h hp, hd]
      simp only [Fs.put, if_true]
      exact (Cell.Step.writeBack _ _).drifts
    · have : (s.put .writeBack ca.index ca.data).cell k = s.cell k := by
        simp [Fs.cell, Fs.put, Ne.symm ‹_›]
      rw [this]
      exact .refl _
  · intro e he
    simp only [List.mem_singleton] at he
    subst he
    exact .inl ⟨ca.data, by rw [cell_of_getElem? h hp, hd]⟩
  · intro hi k _ hr
    have hk : k ≠ ca.index := by
      rintro rfl
      exact hr hi.1
    simp [Fs.put, hk]

/-- A clean block dropped: its cell takes one step. -/
theorem removeCache_ends {s : Fs} (h : Ordered s) {p : Nat} {ca : Cache}
    (hp : s.cachedBlocks[p]? = some ca) (hd : ca.isDirty = false) {E : Panic → Fs → Prop} :
    Ends (removeCache p) s (fun _ s' => Quiet s s' ∧ Ordered s' ∧
      s'.cachedBlocks.length + 1 = s.cachedBlocks.length) E := by
  obtain ⟨hlt, -⟩ := List.getElem?_eq_some_iff.mp hp
  have hlen := List.length_eraseIdx_of_lt hlt
  unfold removeCache
  simp only [ends_modify]
  refine ⟨⟨⟨rfl, rfl, rfl, id, fun k _ => ?_, fun _ => False.elim, ⟨[], rfl, by simp⟩,
    fun _ _ _ _ => rfl⟩, rfl, rfl⟩, ⟨sorted_eraseIdx h.sorted p, ?_, ?_, ?_⟩, by simp only [hlen]; omega⟩
  · simp only [Fs.cell, findCache_eraseIdx h.sorted hp]
    split
    · rename_i hk
      subst hk
      rw [findCache_of_mem h.sorted (List.mem_of_getElem? hp)]
      simp only [Option.map_some, hd, Option.map_none]
      exact (Cell.Step.drop _ _).drifts
    · exact .refl _
  · simp only [h.size, hlen]
  · grind
  · intro c hc
    exact h.onDevice c (List.mem_of_mem_eraseIdx hc)

/-- Taking off a used mark moves no cell. -/
theorem unuse_quiet {s : Fs} (h : Ordered s) {p : Nat} {ca : Cache}
    (hp : s.cachedBlocks[p]? = some ca) :
    Quiet s {s with cachedBlocks := s.cachedBlocks.modify p fun ca => {ca with isUsed := false}} := by
  refine ⟨⟨rfl, rfl, rfl, id, fun k _ => ?_, fun _ => False.elim, ⟨[], rfl, by simp⟩,
    fun _ _ _ _ => rfl⟩, rfl, rfl⟩
  rw [cell_modify h hp (fun ca => {ca with isUsed := false}) (fun _ => rfl)]
  split
  · rename_i hk
    subst hk
    rw [cell_of_getElem? h hp]
    exact .refl _
  · exact .refl _

theorem countP_unuse {l : List Cache} {p : Nat} {ca : Cache} (hp : l[p]? = some ca)
    (hu : ca.isUsed = true) :
    (l.modify p fun ca => {ca with isUsed := false}).countP (·.isUsed) + 1 = l.countP (·.isUsed) := by
  induction l generalizing p with
  | nil => simp at hp
  | cons c l ih =>
    cases p with
    | zero =>
      grind
    | succ p =>
      grind

theorem countP_clean (l : List Cache) (p : Nat) :
    (l.modify p fun ca => {ca with isDirty := false}).countP (·.isUsed) = l.countP (·.isUsed) := by
  induction l generalizing p with
  | nil => simp
  | cons c l ih => cases p <;> simp [List.countP_cons, ih]

/-- One round at the hand: the block there is clean from now on, and is either dropped or
loses its used mark. -/
theorem clockLoop_ends (turns : Nat) : ∀ (s : Fs) (p : Nat), Ordered s → p < s.cachedBlocks.length →
    s.cachedBlocks.countP (·.isUsed) < turns → ∀ {E : Panic → Fs → Prop},
    Ends (clockLoop turns p) s (fun _ s' => Quiet s s' ∧ Ordered s' ∧
      s'.cachedBlocks.length + 1 = s.cachedBlocks.length) E := by
  induction turns with
  | zero => intro s p _ _ h; omega
  | succ turns ih =>
    intro s p ho hp hu E
    obtain ⟨ca, hca⟩ : ∃ ca, s.cachedBlocks[p]? = some ca := ⟨_, List.getElem?_eq_getElem hp⟩
    -- After the write-back, if any, the block at the hand is clean and nothing else moved.
    have hclean : Ends (whenever ca.isDirty (writeBack p)) s
        (fun _ s' => Quiet s s' ∧ Ordered s' ∧ s'.cachedBlocks.length = s.cachedBlocks.length ∧
          s'.cachedBlocks.countP (·.isUsed) = s.cachedBlocks.countP (·.isUsed) ∧
          s'.cachedBlocks[p]? = some {ca with isDirty := false}) E := by
      apply ends_whenever
      · intro hd
        apply (writeBack_ends ho hca hd).imp
        rintro - s' ⟨hq, ho', hl, -, -⟩
        refine ⟨hq, ho', by rw [hl, List.length_modify], by rw [hl, countP_clean], ?_⟩
        grind
      · intro hd
        exact ⟨Quiet.refl s, ho, rfl, rfl, by rw [hca, ← hd]⟩
    unfold clockLoop
    simp only [ends_bind, ends_get, hca]
    apply hclean.imp
    rintro - s' ⟨hq, ho', hlen, hcnt, hget⟩
    cases hused : ca.isUsed with
    | false =>
      simp only [Bool.not_false, if_true]
      apply (removeCache_ends ho' hget rfl).imp
      rintro - s'' ⟨hq', ho'', hl⟩
      exact ⟨hq.trans hq', ho'', by omega⟩
    | true =>
      simp only [Bool.not_true, Bool.false_eq_true, if_false, ends_bind, ends_modify, ends_get]
      have ho'' := ordered_modify ho' p (fun ca => {ca with isUsed := false}) (fun _ => rfl)
      have hq' := unuse_quiet ho' hget
      have hcnt' := countP_unuse hget hused
      apply (ih _ _ ho'' ?_ ?_).imp
      · rintro - t ⟨hq'', hot, hl⟩
        refine ⟨hq.trans (hq'.trans hq''), hot, ?_⟩
        grind
      · grind
      · grind

theorem applyClockAlgorithm_ends {s : Fs} (h : Ordered s) (hne : s.cachedBlocks ≠ [])
    {E : Panic → Fs → Prop} :
    Ends applyClockAlgorithm s (fun _ s' => Quiet s s' ∧ Ordered s' ∧
      s'.cachedBlocks.length + 1 = s.cachedBlocks.length) E := by
  have hpos := List.length_pos_iff.mpr hne
  have hcnt := List.countP_le_length (p := fun ca : Cache => ca.isUsed) (l := s.cachedBlocks)
  unfold applyClockAlgorithm
  simp only [ends_bind, ends_get]
  apply clockLoop_ends _ _ _ h
  · split
    · exact hpos
    · rename_i p hp
      have := h.hand p hp
      split <;> omega
  · omega

/-! ### Entering, updating and flushing blocks -/

theorem quiet_heap {s : Fs} {heap : List Bool} (h : s.heap = [] → heap = []) :
    Quiet s {s with heap := heap} :=
  ⟨⟨rfl, rfl, rfl, h, fun _ _ => .refl _, fun _ => False.elim, ⟨[], rfl, by simp⟩,
    fun _ _ _ _ => rfl⟩, rfl, rfl⟩

/-- The list with a clean copy of sector `k` put in its place. -/
def Fs.inserted (s : Fs) (k : Nat) (buf : Bytes) : Fs := {s with
  cachedBlocks := s.cachedBlocks.insertIdx (insertPosition k s.cachedBlocks)
    {index := k, isDirty := false, isUsed := true, data := buf}
  cachePointer := s.cachePointer.map fun p =>
    if insertPosition k s.cachedBlocks ≤ p then p + 1 else p
  cacheSize := s.cacheSize + 1}

theorem length_inserted (s : Fs) (k : Nat) (buf : Bytes) :
    (s.inserted k buf).cachedBlocks.length = s.cachedBlocks.length + 1 :=
  List.length_insertIdx_of_le_length (insertPosition_le _ _) _

theorem ordered_inserted {s : Fs} (h : Ordered s) {k : Nat} (hk : k < s.deviceSize)
    (hnew : findCache k s.cachedBlocks = none) (buf : Bytes) : Ordered (s.inserted k buf) where
  sorted := sorted_insert h.sorted hnew
  size := by
    rw [length_inserted]
    exact congrArg (· + 1) h.size
  hand := by
    intro p hp
    obtain ⟨q, hq, rfl⟩ := Option.map_eq_some_iff.mp hp
    have := h.hand q hq
    rw [length_inserted]
    split <;> omega
  onDevice := by
    intro ca hca
    rcases (List.mem_insertIdx (insertPosition_le _ _)).mp hca with rfl | hca
    · exact hk
    · exact h.onDevice ca hca

/-- A copy of what the device holds is entered: the cell takes one step. -/
theorem quiet_inserted {s : Fs} (h : Ordered s) {k : Nat}
    (hnew : findCache k s.cachedBlocks = none) : Quiet s (s.inserted k (s.device k)) := by
  refine ⟨⟨rfl, rfl, rfl, id, fun j _ => ?_, fun _ => False.elim, ⟨[], rfl, by simp⟩,
    fun _ _ _ _ => rfl⟩, rfl, rfl⟩
  have hfind := findCache_insert h.sorted ⟨k, false, true, s.device k⟩ hnew j
  simp only [Fs.cell, Fs.inserted, hfind]
  split
  · rename_i hj
    subst hj
    rw [hnew]
    exact (Cell.Step.load _).drifts
  · exact .refl _

theorem setCache_ends {s : Fs} (h : CacheOk s) {k : Nat} (hk : k < s.deviceSize)
    (hnew : findCache k s.cachedBlocks = none) {E : Panic → Fs → Prop} :
    Ends (setCache k (s.device k)) s (fun _ s' => Quiet s s' ∧ CacheOk s') E := by
  unfold setCache
  simp only [ends_bind]
  have ho : ∀ heap, Ordered {s with heap := heap} := fun _ => ⟨h.sorted, h.size, h.hand, h.onDevice⟩
  have hsmall := h.small
  refine ends_two_mallocs (fun hne heap => ⟨quiet_heap fun hs => absurd hs hne, ho heap, h.small⟩) ?_
  intro heap hheap
  simp only [ends_bind, ends_modify, ends_get]
  have hq := (quiet_heap hheap).trans (quiet_inserted (ho heap) hnew)
  have ho' := ordered_inserted (ho heap) hk hnew (s.device k)
  have hlen := length_inserted {s with heap := heap} k (s.device k)
  split
  · apply (applyClockAlgorithm_ends ho' (List.ne_nil_of_length_eq_add_one hlen)).imp
    rintro - s' ⟨hq', ho'', hl⟩
    refine ⟨hq.trans hq', ho'', ?_⟩
    grind
  · rename_i hle
    refine ⟨hq, ho', ?_⟩
    have := ho'.size
    simp only [Fs.inserted] at this hle ⊢
    omega

/-! ### Storing data -/

/-- Data has gone to sector `k`: `n` bytes of `src` at offset `off`. -/
structure Stored (s s' : Fs) (k off n : Nat) (src : Bytes) : Prop where
  calm : Calm (· = k) s s'
  freeMap : s'.freeMap = s.freeMap
  releases : releases s'.trace = releases s.trace
  cell : ∃ f : Bytes → Bytes, (∀ e o, o < blockSectorSize → f e o = e.patch off n src o) ∧
    ((s.cell k).write f).Drifts (s'.cell k)

section Stored
variable {s s' s'' : Fs} {k off n : Nat} {src : Bytes}

theorem Stored.quiet (h : Stored s s' k off n src) (hq : Quiet s' s'') : Stored s s'' k off n src := by
  obtain ⟨f, hf, hd⟩ := h.cell
  exact ⟨h.calm.trans (hq.calm _), hq.freeMap.trans h.freeMap, hq.releases.trans h.releases,
    f, hf, hd.trans (hq.cells k id)⟩

theorem Stored.firm_inside (h : Stored s s' k off n src) {o : Nat} (ho : o < blockSectorSize)
    (h1 : off ≤ o) (h2 : o < off + n) : (s'.cell k).Firm o (src (o - off)) := by
  obtain ⟨f, hf, hd⟩ := h.cell
  refine hd.firm (Cell.write_firm ?_)
  rw [hf _ o ho, Bytes.patch_inside _ src h1 h2]

theorem Stored.firm_outside (h : Stored s s' k off n src) {o : Nat} {v : UInt8}
    (ho : o < blockSectorSize) (h1 : ¬ (off ≤ o ∧ o < off + n)) (hv : (s.cell k).Firm o v) :
    (s'.cell k).Firm o v := by
  obtain ⟨f, hf, hd⟩ := h.cell
  refine hd.firm (Cell.write_firm ?_)
  rw [hf _ o ho, Bytes.patch_outside _ src h1]
  exact hv.current

end Stored

theorem findCache_findIdx {l : List Cache} {k : Nat} {ca : Cache} (h : findCache k l = some ca) :
    l[l.findIdx fun ca => ca.index == k]? = some ca := by
  induction l with
  | nil => cases h
  | cons c l ih =>
    rw [findCache_cons] at h
    rw [List.findIdx_cons]
    split at h
    · rename_i hc
      simpa [hc] using h
    · grind

theorem updateCache_ends {s : Fs} (h : CacheOk s) {k : Nat} {ca : Cache}
    (hk : findCache k s.cachedBlocks = some ca) (src : Bytes) (off n : Nat)
    {E : Panic → Fs → Prop} :
    Ends (updateCache k src off n) s (fun _ s' => Stored s s' k off n src ∧ CacheOk s') E := by
  unfold updateCache
  simp only [ends_modify]
  have hp := findCache_findIdx hk
  generalize s.cachedBlocks.findIdx (fun ca => ca.index == k) = p at hp ⊢
  obtain ⟨-, rfl⟩ := findCache_mem hk
  let f := fun ca : Cache =>
    {ca with data := ca.data.patch off n src, isDirty := true, isUsed := true}
  have hf : ∀ ca, (f ca).index = ca.index := fun _ => rfl
  have hcell := cell_modify h.toOrdered hp f hf
  have hwrite : (s.cell ca.index).write (fun e => Bytes.patch e off n src) =
      ⟨s.device ca.index, some (true, ca.data.patch off n src)⟩ := by
    rw [cell_of_getElem? h.toOrdered hp]
    rfl
  refine ⟨⟨⟨rfl, rfl, rfl, id, fun j hj => ?_, fun j hj _ => ?_, ⟨[], rfl, by simp⟩,
    fun _ _ _ _ => rfl⟩, rfl, rfl, fun e => e.patch off n src, fun _ _ _ => rfl, ?_⟩,
    ordered_modify h.toOrdered p f hf, by simpa using h.small⟩
  · rw [hcell, if_neg (Ne.symm hj)]
    exact .refl _
  · subst hj
    rw [hcell, if_pos rfl]
    intro e he
    simp [f] at he
  · rw [hcell, if_pos rfl, hwrite]
    exact .refl _

/-- A sector that is not cached is written through. -/
theorem put_stored {s : Fs} {k : Nat} (hk : findCache k s.cachedBlocks = none) {off n : Nat}
    {src : Bytes} (f : Bytes → Bytes)
    (hf : ∀ e o, o < blockSectorSize → f e o = e.patch off n src o) :
    Stored s (s.put .data k (f (s.device k))) k off n src := by
  have hcell : ∀ j, j ≠ k → (s.put .data k (f (s.device k))).cell j = s.cell j := by
    intro j hj
    simp [Fs.cell, Fs.put, hj]
  have hcellk : (s.put .data k (f (s.device k))).cell k = (s.cell k).write f := by
    simp [Fs.cell, Fs.put, hk, Cell.write]
  refine ⟨⟨rfl, rfl, rfl, id, fun j hj => ?_, fun j hj _ => ?_, ⟨[.write .data k _], rfl, ?_⟩,
    fun _ j hj _ => ?_⟩, rfl, rfl, f, hf, ?_⟩
  · rw [hcell j hj]
    exact .refl _
  · subst hj
    rw [hcellk]
    exact Cell.write_coherent _ _
  · intro e he
    simp only [List.mem_singleton] at he
    subst he
    rfl
  · simp [Fs.put, hj]
  · rw [hcellk]
    exact .refl _

theorem cacheOk_put {s : Fs} (h : CacheOk s) (w : Writer) (k : Nat) (b : Bytes) :
    CacheOk (s.put w k b) :=
  ⟨⟨h.sorted, h.size, h.hand, h.onDevice⟩, h.small⟩

/-! ### Flushing -/

theorem writeBackFrom_ends (left : Nat) : ∀ (s : Fs) (p : Nat), CacheOk s →
    p + left = s.cachedBlocks.length → (∀ q ca, q < p → s.cachedBlocks[q]? = some ca → ca.isDirty = false) →
    ∀ {E : Panic → Fs → Prop}, Ends (writeBackFrom left p) s (fun _ s' => Quiet s s' ∧ CacheOk s' ∧
      ∀ k, ¬ (s'.cell k).Dirty) E := by
  induction left with
  | zero =>
    intro s p h hp hclean E
    refine ⟨.refl s, h, fun k => ?_⟩
    rintro ⟨e, he⟩
    obtain ⟨ca, hca, hd⟩ := Option.map_eq_some_iff.mp he
    obtain ⟨hmem, -⟩ := findCache_mem hca
    obtain ⟨q, hq⟩ := List.mem_iff_getElem?.mp hmem
    grind
  | succ left ih =>
    intro s p h hp hclean E
    have hlt : p < s.cachedBlocks.length := by omega
    obtain ⟨ca, hca⟩ : ∃ ca, s.cachedBlocks[p]? = some ca := ⟨_, List.getElem?_eq_getElem hlt⟩
    unfold writeBackFrom
    simp only [ends_bind, ends_get, hca]
    apply ends_whenever
    · intro hd
      apply (writeBack_ends h.toOrdered hca hd).imp
      rintro - s' ⟨hq, ho, hl, -, -⟩
      have hlen : s'.cachedBlocks.length = s.cachedBlocks.length := by rw [hl, List.length_modify]
      apply (ih s' (p + 1) ⟨ho, hlen ▸ h.small⟩ (by omega) ?_).imp
      · rintro - s'' ⟨hq', hok, hnone⟩
        exact ⟨hq.trans hq', hok, hnone⟩
      · grind
    · intro hd
      apply ih s (p + 1) h (by omega)
      grind

/-- After `write_back_all_cache` no copy is dirty. -/
theorem writeBackAllCache_ends {s : Fs} (h : CacheOk s) {E : Panic → Fs → Prop} :
    Ends writeBackAllCache s (fun _ s' => Quiet s s' ∧ CacheOk s' ∧ ∀ k, ¬ (s'.cell k).Dirty) E := by
  unfold writeBackAllCache
  simp only [ends_bind, ends_get]
  exact writeBackFrom_ends _ s 0 h (by omega) (fun q ca hq => by omega)

end Pintos.Filesys
