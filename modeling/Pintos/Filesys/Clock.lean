import Pintos.Filesys.CacheProofs

/-! What the clock leaves behind.

The hand passes blocks as long as they are marked used, in list order and round the end of the list,
and drops the first one it comes to without a mark. Passing a block writes it back if it is dirty and
takes its mark off, so that after a full turn the hand drops the block it started from. `Fs.sweep`
is a number of passes and `Fs.evict` the end of it; the loop of `apply_clock_algorithm` is the one
followed by the other. -/
namespace Pintos.Filesys
open Outcome

/-- A block once the hand has passed it. -/
def Cache.passed (ca : Cache) : Cache := {ca with isDirty := false, isUsed := false}

/-- The position after `p`, round the end of the list. -/
def Fs.after (s : Fs) (p : Nat) : Nat := if p + 1 = s.cachedBlocks.length then 0 else p + 1

/-- A block on the device as it is in the cache. -/
def Fs.flushed (s : Fs) (ca : Cache) : Fs := if ca.isDirty then s.put .writeBack ca.index ca.data else s

/-- The hand passes the block at `p`. -/
def Fs.pass (s : Fs) (p : Nat) : Fs :=
  match s.cachedBlocks[p]? with
  | none => s
  | some ca => {s.flushed ca with cachedBlocks := s.cachedBlocks.modify p Cache.passed}

/-- The hand passes a number of blocks from `p` on. -/
def Fs.sweep (s : Fs) : Nat → Nat → Fs
  | 0, _ => s
  | k + 1, p => (s.pass p).sweep k (s.after p)

/-- The hand drops the block at `p`. -/
def Fs.evict (s : Fs) (p : Nat) : Fs :=
  match s.cachedBlocks[p]? with
  | none => s
  | some ca => {s.flushed ca with
    cachedBlocks := s.cachedBlocks.eraseIdx p
    cacheSize := s.cacheSize - 1
    cachePointer := some p}

/-- Blocks written back one after the other. -/
def Fs.stored (s : Fs) (blocks : List Cache) : Fs := blocks.foldl Fs.flushed s

/-- Where the clock starts. -/
def Fs.hand (s : Fs) : Nat :=
  match s.cachePointer with
  | none => 0
  | some p => if p = s.cachedBlocks.length then 0 else p

/-- The blocks in the order the hand comes to them. -/
def Fs.ring (s : Fs) : List Cache := s.cachedBlocks.rotate s.hand

/-- How many blocks the hand passes: those before the first one without a mark, or all of them. -/
def Fs.passes (s : Fs) : Nat := s.ring.findIdx fun ca => !ca.isUsed

section
variable {s s' : Fs} {p q k r : Nat} {ca : Cache} {E : Panic → Fs → Prop}

/-! ### One pass -/

theorem flushed_cachedBlocks (s : Fs) (ca : Cache) : (s.flushed ca).cachedBlocks = s.cachedBlocks := by
  unfold Fs.flushed
  split <;> rfl

theorem flushed_cacheSize (s : Fs) (ca : Cache) : (s.flushed ca).cacheSize = s.cacheSize := by
  unfold Fs.flushed
  split <;> rfl

theorem pass_eq (h : s.cachedBlocks[p]? = some ca) :
    s.pass p = {s.flushed ca with cachedBlocks := s.cachedBlocks.modify p Cache.passed} := by
  rw [Fs.pass, h]

theorem pass_cachedBlocks (s : Fs) (p : Nat) : (s.pass p).cachedBlocks = s.cachedBlocks.modify p Cache.passed := by
  unfold Fs.pass
  split
  · rename_i h
    rw [List.modify_eq_set_getElem?, h]
    rfl
  · rfl

theorem pass_length (s : Fs) (p : Nat) : (s.pass p).cachedBlocks.length = s.cachedBlocks.length := by
  rw [pass_cachedBlocks, List.length_modify]

theorem pass_cacheSize (s : Fs) (p : Nat) : (s.pass p).cacheSize = s.cacheSize := by
  unfold Fs.pass
  split
  · rfl
  · exact flushed_cacheSize s _

theorem after_lt (h : p < s.cachedBlocks.length) : s.after p < s.cachedBlocks.length := by
  unfold Fs.after
  split <;> omega

/-- The write-back at the hand. -/
theorem flush_ends (ho : Ordered s) (h : s.cachedBlocks[p]? = some ca) :
    Ends (whenever ca.isDirty (writeBack p)) s (fun _ s' => s' =
      {s.flushed ca with cachedBlocks := s.cachedBlocks.modify p fun ca => {ca with isDirty := false}}) E := by
  have hlt := ho.onDevice ca (List.mem_of_getElem? h)
  apply ends_whenever
  · intro hd
    unfold writeBack
    simp only [ends_bind, ends_get, h, ends_blockWrite hlt, ends_modify, Fs.flushed, hd, if_true]
    rfl
  · intro hd
    have hsame : s.cachedBlocks.modify p (fun ca => {ca with isDirty := false}) = s.cachedBlocks := by
      apply List.ext_getElem?
      intro q
      rw [List.getElem?_modify]
      split
      · rename_i hq
        rw [← hq, h]
        simp [← hd]
      · simp
    simp only [hsame, Fs.flushed, hd]
    rfl

theorem ordered_flushed (ho : Ordered s) (ca : Cache) : Ordered (s.flushed ca) := by
  unfold Fs.flushed
  split
  · exact ⟨ho.sorted, ho.size, ho.hand, ho.onDevice⟩
  · exact ho

theorem ordered_pass (ho : Ordered s) (p : Nat) : Ordered (s.pass p) := by
  unfold Fs.pass
  split
  · exact ho
  · rename_i ca _
    have := ordered_modify (ordered_flushed ho ca) p Cache.passed fun _ => rfl
    rwa [flushed_cachedBlocks] at this

theorem after_eq (h : p < s.cachedBlocks.length) : s.after p = (p + 1) % s.cachedBlocks.length := by
  unfold Fs.after
  split
  · rename_i he
    rw [he, Nat.mod_self]
  · rw [Nat.mod_eq_of_lt (by omega)]

theorem mod_succ_add (h : p < s.cachedBlocks.length) (k : Nat) :
    (s.after p + k) % s.cachedBlocks.length = (p + (k + 1)) % s.cachedBlocks.length := by
  rw [after_eq h, Nat.mod_add_mod, Nat.add_assoc, Nat.add_comm 1 k]

theorem add_mod_ne {n i : Nat} (hp : p < n) (hi : 0 < i) (hin : i < n) : (p + i) % n ≠ p := by
  intro h
  have hmod : (p + i) % n = p + i ∨ n ≤ p + i ∧ (p + i) % n = p + i - n := by
    by_cases hlt : p + i < n
    · exact .inl (Nat.mod_eq_of_lt hlt)
    · rw [Nat.mod_eq_sub_mod (by omega), Nat.mod_eq_of_lt (by omega)]
      exact .inr ⟨by omega, rfl⟩
  rw [h] at hmod
  omega

/-- Two changes of the block at the hand are one. -/
theorem modify_passed (l : List Cache) (p : Nat) :
    (l.modify p fun ca => {ca with isDirty := false}).modify p (fun ca => {ca with isUsed := false}) =
      l.modify p Cache.passed := by
  rw [List.modify_modify_eq]
  rfl

/-! ### The loop -/

/-- A round of the loop at a block that is marked used. -/
theorem clockLoop_used (turns : Nat) (ho : Ordered s) (h : s.cachedBlocks[p]? = some ca) (hu : ca.isUsed = true)
    {Q : Unit → Fs → Prop} (hrest : Ends (clockLoop turns (s.after p)) (s.pass p) Q E) :
    Ends (clockLoop (turns + 1) p) s Q E := by
  unfold clockLoop
  simp only [ends_bind, ends_get, h]
  apply (flush_ends ho h).imp
  intro _ s1 hs1
  subst hs1
  simp only [hu, Bool.not_true, Bool.false_eq_true, if_false, ends_bind, ends_modify, ends_get, modify_passed,
    List.length_modify]
  rw [pass_eq h] at hrest
  exact hrest

/-- The round at a block without a mark. -/
theorem clockLoop_unused (turns : Nat) (ho : Ordered s) (h : s.cachedBlocks[p]? = some ca) (hu : ca.isUsed = false) :
    Ends (clockLoop (turns + 1) p) s (fun _ s' => s' = s.evict p) E := by
  unfold clockLoop
  simp only [ends_bind, ends_get, h]
  apply (flush_ends ho h).imp
  intro _ s1 hs1
  subst hs1
  simp only [hu, Bool.not_false, if_true, removeCache, ends_modify, List.eraseIdx_modify_of_eq, flushed_cacheSize]
  rw [Fs.evict, h]

/-- The loop passes the blocks that are marked, and drops the one it comes to next: one without a mark, or after
a full turn the one it passed first. -/
theorem clockLoop_sweep : ∀ (k turns : Nat) {s : Fs} {p : Nat}, Ordered s → p < s.cachedBlocks.length → k < turns →
    (∀ i < k, ∀ ca, s.cachedBlocks[(p + i) % s.cachedBlocks.length]? = some ca → ca.isUsed = true) →
    k ≤ s.cachedBlocks.length →
    (k < s.cachedBlocks.length → ∀ ca, s.cachedBlocks[(p + k) % s.cachedBlocks.length]? = some ca → ca.isUsed = false) →
    Ends (clockLoop turns p) s
      (fun _ s' => s' = (s.sweep k p).evict ((p + k) % s.cachedBlocks.length)) E
  | 0, turns + 1, s, p, ho, hp, _, _, _, hend => by
    obtain ⟨ca, hca⟩ : ∃ ca, s.cachedBlocks[p]? = some ca := ⟨_, List.getElem?_eq_getElem hp⟩
    have hmod : (p + 0) % s.cachedBlocks.length = p := by rw [Nat.add_zero, Nat.mod_eq_of_lt hp]
    rw [hmod] at hend ⊢
    exact clockLoop_unused turns ho hca (hend (by omega) ca hca)
  | k + 1, turns + 1, s, p, ho, hp, hlt, hused, hle, hend => by
    obtain ⟨ca, hca⟩ : ∃ ca, s.cachedBlocks[p]? = some ca := ⟨_, List.getElem?_eq_getElem hp⟩
    have hu : ca.isUsed = true := hused 0 (by omega) ca (by rwa [Nat.add_zero, Nat.mod_eq_of_lt hp])
    refine clockLoop_used turns ho hca hu ?_
    have hrest := clockLoop_sweep k turns (ordered_pass ho p) (s := s.pass p) (p := s.after p)
      (by rw [pass_length]; exact after_lt hp) (by omega) ?_ (by rw [pass_length]; omega) ?_
    · rw [pass_length, mod_succ_add hp] at hrest
      exact hrest
    · intro i hi c hc
      rw [pass_length, mod_succ_add hp, pass_cachedBlocks,
        List.getElem?_modify_ne _ _ (add_mod_ne hp (by omega) (by omega)).symm] at hc
      exact hused (i + 1) (by omega) c hc
    · intro hk c hc
      rw [pass_length, mod_succ_add hp, pass_cachedBlocks] at hc
      by_cases hlast : k + 1 < s.cachedBlocks.length
      · rw [List.getElem?_modify_ne _ _ (add_mod_ne hp (by omega) hlast).symm] at hc
        exact hend hlast c hc
      · -- a full turn: the hand is back at the block it passed first
        have hfull : k + 1 = s.cachedBlocks.length := by omega
        rw [hfull, Nat.add_mod_right, Nat.mod_eq_of_lt hp, List.getElem?_modify_eq, hca] at hc
        cases hc
        rfl

/-! ### The order of the hand -/

theorem rotate_eq (h : s.cachedBlocks[p]? = some ca) :
    s.cachedBlocks.rotate p = ca :: (s.cachedBlocks.drop (p + 1) ++ s.cachedBlocks.take p) := by
  obtain ⟨hlt, rfl⟩ := List.getElem?_eq_some_iff.mp h
  rw [List.rotate_eq_drop_append_take hlt.le, List.drop_eq_getElem_cons hlt, List.cons_append]

theorem rotate_after {l : List Cache} (hl : l.length = s.cachedBlocks.length) (hp : p < s.cachedBlocks.length) :
    l.rotate (s.after p) = l.rotate (p + 1) := by
  rw [after_eq hp, ← hl, List.rotate_mod]

/-- After a pass the hand sees the block it passed last. -/
theorem rotate_pass (h : s.cachedBlocks[p]? = some ca) :
    (s.pass p).cachedBlocks.rotate (s.after p) = (s.cachedBlocks.rotate p).tail ++ [ca.passed] := by
  have hlt := (List.getElem?_eq_some_iff.mp h).1
  have hmod : (s.pass p).cachedBlocks = s.cachedBlocks.take p ++ ca.passed :: s.cachedBlocks.drop (p + 1) := by
    rw [pass_cachedBlocks, List.modify_eq_take_cons_drop hlt, (List.getElem?_eq_some_iff.mp h).2]
  have htake : (s.cachedBlocks.take p ++ [ca.passed]).length = p + 1 := by
    simp [Nat.min_eq_left hlt.le]
  rw [rotate_after (pass_length s p) hlt, hmod, rotate_eq h, List.tail_cons, List.append_cons, ← htake,
    List.rotate_append_length_eq, List.append_assoc]

theorem sweep_length (s : Fs) : ∀ (k p : Nat), (s.sweep k p).cachedBlocks.length = s.cachedBlocks.length := by
  intro k
  induction k generalizing s with
  | zero => intro _; rfl
  | succ k ih =>
    intro p
    rw [Fs.sweep, ih, pass_length]

/-- After some passes the hand sees the other blocks first, and then the ones it passed. -/
theorem rotate_sweep : ∀ (k : Nat) {s : Fs} {p : Nat}, p < s.cachedBlocks.length → k ≤ s.cachedBlocks.length →
    (s.sweep k p).cachedBlocks.rotate (p + k) =
      (s.cachedBlocks.rotate p).drop k ++ ((s.cachedBlocks.rotate p).take k).map Cache.passed
  | 0, s, p, _, _ => by simp [Fs.sweep]
  | k + 1, s, p, hp, hk => by
    obtain ⟨ca, hca⟩ : ∃ ca, s.cachedBlocks[p]? = some ca := ⟨_, List.getElem?_eq_getElem hp⟩
    have hlen : (s.sweep (k + 1) p).cachedBlocks.length = s.cachedBlocks.length := sweep_length s (k + 1) p
    have hrest := rotate_sweep k (s := s.pass p) (p := s.after p) (by rw [pass_length]; exact after_lt hp)
      (by rw [pass_length]; omega)
    have hpos : (s.sweep (k + 1) p).cachedBlocks.rotate (p + (k + 1)) =
        (s.sweep (k + 1) p).cachedBlocks.rotate (s.after p + k) := by
      rw [← List.rotate_mod, ← List.rotate_mod _ (s.after p + k), hlen, mod_succ_add hp]
    have htail : (s.cachedBlocks.rotate p).tail.length + 1 = s.cachedBlocks.length := by
      rw [List.length_tail, List.length_rotate]
      omega
    rw [hpos]
    show ((s.pass p).sweep k (s.after p)).cachedBlocks.rotate _ = _
    rw [hrest, rotate_pass hca, List.drop_append_of_le_length (by omega), List.take_append_of_le_length (by omega)]
    rw [rotate_eq hca]
    simp

/-! ### What is written -/

theorem flushed_on (s : Fs) (l : List Cache) (ca : Cache) :
    Fs.flushed {s with cachedBlocks := l} ca = {s.flushed ca with cachedBlocks := l} := by
  unfold Fs.flushed
  split <;> rfl

theorem stored_on (l blocks : List Cache) : ∀ (s : Fs),
    Fs.stored {s with cachedBlocks := l} blocks = {s.stored blocks with cachedBlocks := l} := by
  induction blocks with
  | nil => intro _; rfl
  | cons ca blocks ih =>
    intro s
    rw [Fs.stored, List.foldl_cons, flushed_on]
    exact ih _

/-- The passes write the blocks passed, in the order of the hand, and change nothing else but the marks. -/
theorem sweep_eq : ∀ (k : Nat) {s : Fs} {p : Nat}, p < s.cachedBlocks.length → k ≤ s.cachedBlocks.length →
    s.sweep k p = {s.stored ((s.cachedBlocks.rotate p).take k) with cachedBlocks := (s.sweep k p).cachedBlocks}
  | 0, s, p, _, _ => rfl
  | k + 1, s, p, hp, hk => by
    obtain ⟨ca, hca⟩ : ∃ ca, s.cachedBlocks[p]? = some ca := ⟨_, List.getElem?_eq_getElem hp⟩
    have hrest := sweep_eq k (s := s.pass p) (p := s.after p) (by rw [pass_length]; exact after_lt hp)
      (by rw [pass_length]; omega)
    have htail : (s.cachedBlocks.rotate p).tail.length + 1 = s.cachedBlocks.length := by
      rw [List.length_tail, List.length_rotate]
      omega
    rw [rotate_pass hca, List.take_append_of_le_length (by omega), pass_eq hca, stored_on] at hrest
    rw [rotate_eq hca, List.tail_cons, ← pass_eq hca] at hrest
    rw [rotate_eq hca, List.take_succ_cons]
    exact hrest

theorem trace_stored (blocks : List Cache) : ∀ (s : Fs), (s.stored blocks).trace =
    ((blocks.filter (·.isDirty)).reverse.map fun ca => .write .writeBack ca.index ca.data) ++ s.trace := by
  induction blocks with
  | nil => intro _; rfl
  | cons ca blocks ih =>
    intro s
    rw [Fs.stored, List.foldl_cons]
    refine (ih _).trans ?_
    cases hd : ca.isDirty with
    | true => simp [Fs.flushed, Fs.put, hd]
    | false => simp [Fs.flushed, hd]

theorem device_stored_other {blocks : List Cache} : ∀ {s : Fs},
    (∀ ca ∈ blocks, ca.isDirty = true → ca.index ≠ k) → (s.stored blocks).device k = s.device k := by
  induction blocks with
  | nil => intro _ _; rfl
  | cons ca blocks ih =>
    intro s h
    rw [Fs.stored, List.foldl_cons]
    refine (ih fun c hc => h c (List.mem_cons_of_mem _ hc)).trans ?_
    unfold Fs.flushed
    split
    · rename_i hd
      exact if_neg (h ca List.mem_cons_self hd).symm
    · rfl

theorem device_stored {blocks : List Cache} : ∀ {s : Fs}, (blocks.map Cache.index).Nodup →
    ∀ ca ∈ blocks, ca.isDirty = true → (s.stored blocks).device ca.index = ca.data := by
  induction blocks with
  | nil => intro _ _ ca hca; cases hca
  | cons c blocks ih =>
    intro s hn ca hca hd
    obtain ⟨hfresh, hn⟩ := List.nodup_cons.mp hn
    rw [Fs.stored, List.foldl_cons]
    rcases List.mem_cons.mp hca with rfl | hca
    · refine (device_stored_other ?_).trans ?_
      · grind
      · simp [Fs.flushed, hd, Fs.put]
    · exact ih hn ca hca hd

/-! ### The clock -/

theorem hand_lt (ho : Ordered s) (hne : s.cachedBlocks ≠ []) : s.hand < s.cachedBlocks.length := by
  have hpos := List.length_pos_iff.mpr hne
  unfold Fs.hand
  split
  · exact hpos
  · rename_i p hp
    have := ho.hand p hp
    split <;> omega

theorem ring_length (s : Fs) : s.ring.length = s.cachedBlocks.length := List.length_rotate ..

theorem passes_le (s : Fs) : s.passes ≤ s.cachedBlocks.length := by
  rw [← ring_length]
  exact List.findIdx_le_length

theorem ring_getElem? (hk : k < s.cachedBlocks.length) :
    s.ring[k]? = s.cachedBlocks[(s.hand + k) % s.cachedBlocks.length]? := by
  rw [Fs.ring, List.getElem?_rotate hk, Nat.add_comm]

/-- Any number of rounds above the passes does. -/
theorem clockLoop_ends_at (ho : Ordered s) (hne : s.cachedBlocks ≠ []) {turns : Nat} (ht : s.passes < turns) :
    Ends (clockLoop turns s.hand) s (fun _ s' => s' =
      (s.sweep s.passes s.hand).evict ((s.hand + s.passes) % s.cachedBlocks.length)) E := by
  refine clockLoop_sweep s.passes turns ho (hand_lt ho hne) ht ?_ (passes_le s) ?_
  · intro i hi ca hca
    have hlt : i < s.cachedBlocks.length := Nat.lt_of_lt_of_le hi (passes_le s)
    rw [← ring_getElem? hlt] at hca
    obtain ⟨hir, rfl⟩ := List.getElem?_eq_some_iff.mp hca
    have := List.not_of_lt_findIdx hi
    simpa using this
  · intro hlt ca hca
    rw [← ring_getElem? hlt] at hca
    obtain ⟨hir, rfl⟩ := List.getElem?_eq_some_iff.mp hca
    have hun : (!s.ring[s.passes].isUsed) = true :=
      List.findIdx_getElem (p := fun ca : Cache => !ca.isUsed) (w := hir)
    simpa using hun

theorem ends_eq {m : FsM Unit} {t : Fs} (h : Ends m s (fun _ s' => s' = t) fun _ _ => False) : m.run s = .ok () t := by
  obtain ⟨_, s', hrun, rfl⟩ := h.ok
  exact hrun

/-- A run of the clock: the blocks of `met` were written back where they were dirty, in their order, and those
of `left` are what the cache holds after it. -/
structure Evicted (s s' : Fs) (met left : List Cache) : Prop where
  ordered : Ordered s'
  blocks : s'.cachedBlocks.Perm left
  size : s'.cacheSize + 1 = s.cacheSize
  trace : s'.trace =
    ((met.filter (·.isDirty)).reverse.map fun ca => .write .writeBack ca.index ca.data) ++ s.trace
  stored : ∀ ca ∈ met, ca.isDirty = true → s'.device ca.index = ca.data
  others : ∀ k, (∀ ca ∈ met, ca.isDirty = true → ca.index ≠ k) → s'.device k = s.device k

theorem evict_eq {rest : List Cache} (h : s.cachedBlocks.rotate p = ca :: rest) :
    s.evict (p % s.cachedBlocks.length) = {s.flushed ca with
      cachedBlocks := s.cachedBlocks.eraseIdx (p % s.cachedBlocks.length)
      cacheSize := s.cacheSize - 1
      cachePointer := some (p % s.cachedBlocks.length)} ∧
    (s.cachedBlocks.eraseIdx (p % s.cachedBlocks.length)).Perm rest := by
  have hne : s.cachedBlocks ≠ [] := by
    intro hnil
    simp [hnil] at h
  have hlt := Nat.mod_lt p (List.length_pos_iff.mpr hne)
  obtain ⟨c, hc⟩ : ∃ c, s.cachedBlocks[p % s.cachedBlocks.length]? = some c := ⟨_, List.getElem?_eq_getElem hlt⟩
  rw [← List.rotate_mod, rotate_eq hc] at h
  cases h
  refine ⟨by rw [Fs.evict, hc], ?_⟩
  rw [List.eraseIdx_eq_take_drop_succ]
  exact List.perm_append_comm

theorem stored_append (s : Fs) (l l' : List Cache) : s.stored (l ++ l') = (s.stored l).stored l' := List.foldl_append

theorem stored_cacheSize (s : Fs) (l : List Cache) : (s.stored l).cacheSize = s.cacheSize := by
  induction l generalizing s with
  | nil => rfl
  | cons ca l ih => exact (ih _).trans (flushed_cacheSize s ca)

theorem ring_nodup (ho : Ordered s) : (s.ring.map Cache.index).Nodup := by
  rw [Fs.ring, List.map_rotate, List.nodup_rotate]
  exact (List.pairwise_map.mpr ho.sorted).imp Nat.ne_of_lt

/-- The end of the clock after `k` passes, at the block `victim`. -/
theorem evicted_of {met left : List Cache} {victim : Cache} (ho : Ordered s) (hne : s.cachedBlocks ≠ [])
    (hk : k ≤ s.cachedBlocks.length) (hring : s.ring.drop k ++ (s.ring.take k).map Cache.passed = victim :: left)
    (hmet : (s.stored (s.ring.take k)).flushed victim = s.stored met) (hsub : met.Sublist s.ring)
    (ho' : Ordered ((s.sweep k s.hand).evict ((s.hand + k) % s.cachedBlocks.length))) :
    Evicted s ((s.sweep k s.hand).evict ((s.hand + k) % s.cachedBlocks.length)) met left := by
  have hp := hand_lt ho hne
  have hsweep : (s.sweep k s.hand).cachedBlocks.rotate (s.hand + k) =
      s.ring.drop k ++ (s.ring.take k).map Cache.passed := rotate_sweep k hp hk
  have hstored : s.sweep k s.hand =
      {s.stored (s.ring.take k) with cachedBlocks := (s.sweep k s.hand).cachedBlocks} := sweep_eq k hp hk
  obtain ⟨heq, hperm⟩ := evict_eq (hsweep.trans hring)
  rw [sweep_length] at heq hperm
  have hflush : (s.sweep k s.hand).flushed victim =
      {s.stored met with cachedBlocks := (s.sweep k s.hand).cachedBlocks} := by
    rw [hstored, flushed_on, hmet]
  have hsize : (s.sweep k s.hand).cacheSize = s.cacheSize := by
    rw [hstored]
    exact stored_cacheSize s _
  have hpos := List.length_pos_iff.mpr hne
  have hlen := ho.size
  rw [hflush, hsize] at heq
  rw [heq] at ho' ⊢
  refine ⟨ho', hperm, ?_, trace_stored met s, ?_, ?_⟩
  · grind
  · exact device_stored ((ring_nodup ho).sublist (hsub.map _))
  · intro j hj
    exact device_stored_other hj

theorem used_of_passed (h : ca ∈ s.ring.take s.passes) : ca.isUsed = true := by
  have htake : s.ring.takeWhile (·.isUsed) = s.ring.take s.passes := List.takeWhile_eq_take_findIdx_not ..
  rw [← htake] at h
  exact List.mem_takeWhile_imp h

/-- The first block without a mark, if there is one. -/
theorem ring_unused (hlt : s.passes < s.cachedBlocks.length) : ∃ victim,
    s.ring.drop s.passes = victim :: s.ring.drop (s.passes + 1) ∧ victim.isUsed = false := by
  rw [← ring_length] at hlt
  have hun : (!s.ring[s.passes].isUsed) = true := List.findIdx_getElem (p := fun ca : Cache => !ca.isUsed) (w := hlt)
  exact ⟨_, List.drop_eq_getElem_cons hlt, by simpa using hun⟩

theorem flushed_passed (s : Fs) (ca : Cache) : s.flushed ca.passed = s := rfl

theorem applyClockAlgorithm_eq (s : Fs) :
    applyClockAlgorithm.run s = (clockLoop (s.cachedBlocks.length + 1) s.hand).run s := rfl

theorem clockLoop_run (ho : Ordered s) (hne : s.cachedBlocks ≠ []) {turns : Nat} (ht : s.cachedBlocks.length < turns) :
    (clockLoop turns s.hand).run s =
      .ok () ((s.sweep s.passes s.hand).evict ((s.hand + s.passes) % s.cachedBlocks.length)) := by
  have hle := passes_le s
  exact ends_eq (clockLoop_ends_at ho hne (by omega))

/-- What the clock drops, and what becomes of the others. -/
theorem clock_evicts (ho : Ordered s) (hne : s.cachedBlocks ≠ []) :
    ∃ before victim later s', s.ring = before ++ victim :: later ∧ applyClockAlgorithm.run s = .ok () s' ∧
      ((∀ ca ∈ before, ca.isUsed = true) ∧ victim.isUsed = false ∧
          Evicted s s' (before ++ [victim]) (later ++ before.map Cache.passed) ∨
        (∀ ca ∈ s.ring, ca.isUsed = true) ∧ before = [] ∧ Evicted s s' s.ring (later.map Cache.passed)) := by
  have hle := passes_le s
  have happly := clockLoop_run ho hne (Nat.lt_succ_self _)
  rw [← applyClockAlgorithm_eq] at happly
  have ho' := ((ends_ok happly).mp (applyClockAlgorithm_ends ho hne (E := fun _ _ => False))).2.1
  rcases Nat.lt_or_ge s.passes s.cachedBlocks.length with hlt | hge
  · -- some block has no mark
    obtain ⟨victim, hdrop, hun⟩ := ring_unused hlt
    have hring : s.ring = s.ring.take s.passes ++ victim :: s.ring.drop (s.passes + 1) := by
      rw [← hdrop, List.take_append_drop]
    refine ⟨s.ring.take s.passes, victim, s.ring.drop (s.passes + 1), _, hring, happly,
      .inl ⟨fun _ => used_of_passed, hun, ?_⟩⟩
    refine evicted_of ho hne hle (by rw [hdrop]; rfl) ?_ ?_ ho'
    · rw [stored_append]
      rfl
    · conv => rhs; rw [hring, List.append_cons]
      exact List.sublist_append_left _ _
  · -- a full turn
    have hall : s.ring.take s.passes = s.ring := List.take_of_length_le (by rw [ring_length]; exact hge)
    have hnone : s.ring.drop s.passes = [] := List.drop_of_length_le (by rw [ring_length]; exact hge)
    obtain ⟨victim, later, hring⟩ : ∃ victim later, s.ring = victim :: later := by
      apply List.exists_cons_of_ne_nil
      rwa [← List.length_pos_iff, ring_length, List.length_pos_iff]
    refine ⟨[], victim, later, _, hring, happly, .inr ⟨?_, rfl, ?_⟩⟩
    · intro ca hca
      rw [← hall] at hca
      exact used_of_passed hca
    · have hswept : s.ring.drop s.passes ++ (s.ring.take s.passes).map Cache.passed =
          victim.passed :: later.map Cache.passed := by
        rw [hnone, hall, List.nil_append, hring, List.map_cons]
      exact evicted_of ho hne hle hswept (by rw [hall, flushed_passed]) (List.Sublist.refl _) ho'

/-- The clock drops the first block from the hand on, round the end of the list, that has no mark, or the block at
the hand if all have one. It takes at most one round more than there are blocks. Each block it comes to goes to its
sector if it is dirty, no other sector is written, and the blocks that stay keep their sectors and their data. -/
theorem clock_drops_first_unused (ho : Ordered s) (hfull : s.cachedBlocks.length = cacheBlockSize + 1) :
    ∃ before victim later s', s.ring = before ++ victim :: later ∧
      applyClockAlgorithm.run s = .ok () s' ∧
      (∀ turns, cacheBlockSize + 2 ≤ turns → (clockLoop turns s.hand).run s = .ok () s') ∧
      ((∀ ca ∈ before, ca.isUsed = true) ∧ victim.isUsed = false ∧
          Evicted s s' (before ++ [victim]) (later ++ before.map Cache.passed) ∨
        (∀ ca ∈ s.ring, ca.isUsed = true) ∧ before = [] ∧ Evicted s s' s.ring (later.map Cache.passed)) := by
  have hne : s.cachedBlocks ≠ [] := List.ne_nil_of_length_eq_add_one hfull
  obtain ⟨before, victim, later, s', hring, hrun, hends⟩ := clock_evicts ho hne
  refine ⟨before, victim, later, s', hring, hrun, ?_, hends⟩
  intro turns ht
  rw [← hrun, applyClockAlgorithm_eq, clockLoop_run ho hne (Nat.lt_succ_self _), clockLoop_run ho hne (by omega)]

end

/-- A cache with one block too many, the hand near its end, two blocks out of three marked and every other one
dirty. -/
def crowded : Fs where
  device _ _ := 0
  deviceSize := 65
  cachedBlocks := (List.range 65).map fun i => ⟨i, i % 2 == 0, i % 3 != 2, fun _ => 0⟩
  cacheSize := 65
  cachePointer := some 63
  freeMap := Kernel.Bitmap.create 65
  freeMapFile := none
  openInodes := []
  heap := []
  trace := []

theorem ordered_crowded : Ordered crowded where
  sorted := (List.pairwise_map (R := fun x y : Cache => x.index < y.index)).mpr List.pairwise_lt_range
  size := by simp [crowded]
  hand := by
    intro p hp
    cases hp
    simp [crowded]
  onDevice := by
    intro ca hca
    obtain ⟨i, hi, rfl⟩ := List.mem_map.mp hca
    exact List.mem_range.mp hi

theorem clock_drops_first_unused_crowded : ∃ s', applyClockAlgorithm.run crowded = .ok () s' ∧ s'.cacheSize = 64 := by
  obtain ⟨before, victim, later, s', -, hrun, -, hends⟩ := clock_drops_first_unused ordered_crowded rfl
  refine ⟨s', hrun, ?_⟩
  rcases hends with ⟨-, -, hev⟩ | ⟨-, -, hev⟩
  · exact Nat.succ.inj hev.size
  · exact Nat.succ.inj hev.size

end Pintos.Filesys
