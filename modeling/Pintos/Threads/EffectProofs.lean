import Pintos.Threads.Effects

/-! What holds of all effects.

An act changes the stack of the running thread and of no other one, so a number that depends on
the threads' stacks, summed over all of them, changes as that one stack does. `Masked` is kept
by every act. With `run_effects` an invariant of all runs is proved by cases on `Effect`. -/
namespace Pintos.Threads
open Kernel Outcome

section
variable {s s1 s' : State} {f : Frame} {fs rest : List Frame} {l : LockId} {t : Tid} {d : Deed}

/-! ### Stacks of other threads -/

/-- Only the stack of the running thread has changed, and new threads are at their start. -/
def Others (s s' : State) : Prop := ∀ t ∈ s'.allList, t ≠ s.current →
  t ∈ s.allList ∧ (s'.thread t).frames = (s.thread t).frames ∨
    t ∉ s.allList ∧ (s'.thread t).frames = [.kernelThread]

theorem Goes.others (h : Goes fs s1 s') (hc : s1.current = s.current) (hal : s1.allList = s.allList)
    (hfr : ∀ t, t ≠ s.current → (s1.thread t).frames = (s.thread t).frames) : Others s s' := by
  intro t ht htc
  rw [h.moves.allList, hal] at ht
  left
  refine ⟨ht, ?_⟩
  rw [h.moves.frames_of_ne (hc ▸ htc), hfr t htc]

@[simp] theorem enqueued_thread (k : SemaId) (s : State) : (enqueued k s).thread = s.thread := rfl

@[simp] theorem semaTake_thread (k : SemaId) (s : State) : (semaTake k s).thread = s.thread := rfl

@[simp] theorem locked_frames (l : LockId) (links : Intrusive.Links Node) (s : State) (t : Tid) :
    ((locked l links s).thread t).frames = (s.thread t).frames := by
  by_cases ht : t = s.current <;> simp [locked, State.setHolder, State.mapThread, ht]

@[simp] theorem setEff_frames (s : State) (u : Tid) (p : Int) (t : Tid) :
    ((s.setEff u p).thread t).frames = (s.thread t).frames := by
  by_cases ht : t = u <;> simp [State.setEff, State.mapThread, ht]

@[simp] theorem upped_frames (k : SemaId) (s : State) (t : Tid) :
    ((upped k s).thread t).frames = (s.thread t).frames := by
  simp only [upped]
  split <;> rfl

@[simp] theorem released_frames (l : LockId) (s : State) (t : Tid) :
    ((released l s).thread t).frames = (s.thread t).frames :=
  upped_frames _ _ t

@[simp] theorem awoken_frames (s : State) (t : Tid) : ((awoken s).thread t).frames = (s.thread t).frames := by
  simp only [awoken, popped]
  split <;> rfl

theorem setFrames_frames (ht : t ≠ s.current) : ((s.setFrames fs).thread t).frames = (s.thread t).frames := by
  simp [State.setFrames, State.mapThread, ht]

theorem donation_raised {p : Int} {n : Nat} {u : Option Tid} {s2 : State}
    (h : comparePriorityAndUpdate p n u (wanting l (s.setFrames rest)) = .ok s2) :
    Raised (wanting l (s.setFrames rest)) s2 := by
  have hr := comparePriorityAndUpdate_raised p n u (wanting l (s.setFrames rest))
  rwa [h, gives_ok] at hr

theorem donation_frames {p : Int} {n : Nat} {u : Option Tid} {s2 : State}
    (h : comparePriorityAndUpdate p n u (wanting l (s.setFrames rest)) = .ok s2) (ht : t ≠ s.current) :
    (s2.thread t).frames = (s.thread t).frames := by
  obtain ⟨eff, rfl⟩ := donation_raised h
  simp [wanting, State.mapThread, State.setIntr, State.setFrames, ht]

theorem donation_allList {p : Int} {n : Nat} {u : Option Tid} {s2 : State}
    (h : comparePriorityAndUpdate p n u (wanting l (s.setFrames rest)) = .ok s2) :
    s2.allList = s.allList ∧ s2.current = s.current := by
  obtain ⟨eff, rfl⟩ := donation_raised h
  exact ⟨rfl, rfl⟩

theorem Effect.others (h : Effect s d s') : Others s s' := by
  cases h with
  | quiet _ hg | wait _ _ _ hg | take _ _ _ hg | tryAcquire _ _ _ hg | setHolder _ hg | condWait _ _ hg
  | signal _ _ _ hg | pushBlock _ hg => exact hg.others rfl rfl fun _ _ => rfl
  | setPriority _ _ hg => exact hg.others rfl rfl fun t ht => by simp [State.mapThread, ht]
  | calculate _ _ hg => exact hg.others rfl rfl fun t _ => setEff_frames _ _ _ t
  | acquireWait _ _ hd _ _ hg =>
    obtain ⟨hal, hc⟩ := donation_allList hd
    refine hg.others hc hal fun t ht => ?_
    rw [enqueued_thread, donation_frames hd ht]
  | acquireTake _ _ hd _ _ hg =>
    obtain ⟨hal, hc⟩ := donation_allList hd
    refine hg.others hc hal fun t ht => ?_
    rw [locked_frames, semaTake_thread, donation_frames hd ht]
  | acquireAgain _ _ _ hg => exact hg.others rfl rfl fun t _ => locked_frames _ _ _ t
  | releaseYield _ _ _ hg =>
    exact hg.others rfl rfl fun t ht => (released_frames _ _ t).trans (setFrames_frames ht)
  | releaseDone _ _ _ _ _ _ hg =>
    refine hg.others rfl rfl fun t ht => ?_
    rw [setEff_frames]
    exact (released_frames _ _ t).trans (setFrames_frames ht)
  | unlink _ _ _ _ hg =>
    refine hg.others rfl rfl fun t ht => ?_
    rw [setEff_frames]
    exact setFrames_frames ht
  | up _ _ hg => exact hg.others rfl rfl fun t ht => (upped_frames _ _ t).trans (setFrames_frames ht)
  | device _ hg => exact hg.others rfl rfl fun t _ => upped_frames _ _ t
  | @create _ _ p u rest _ hl _ _ hg =>
    intro t ht htc
    have hframes := hg.moves.frames_of_ne (t := t) htc
    rw [hg.moves.allList] at ht
    rcases List.mem_append.mp ht with ht | ht
    · have htu : t ≠ u := fun e => hl (e ▸ ht)
      left
      refine ⟨ht, ?_⟩
      rw [hframes]
      simp [newThread, htu]
    · rw [List.mem_singleton.mp ht] at hframes ⊢
      right
      refine ⟨hl, ?_⟩
      rw [hframes]
      simp [newThread]
  | exit _ hg =>
    intro t ht htc
    rw [hg.moves.allList] at ht
    exact .inl ⟨List.mem_of_mem_erase ht, hg.moves.frames_of_ne htc⟩
  | sleep _ hg => exact hg.others rfl rfl fun t ht => by simp [State.mapThread, State.record, ht]
  | tick _ hg => exact hg.others rfl rfl fun t _ => awoken_frames _ t

/-! ### Sums over all threads -/

/-- A number that depends on a stack, summed over all threads. -/
def total (weight : List Frame → Nat) (s : State) : Nat := (s.allList.map fun t => weight (s.thread t).frames).sum

theorem total_zero {weight : List Frame → Nat} (h : ∀ t ∈ s.allList, weight (s.thread t).frames = 0) : total weight s = 0 := by
  apply List.sum_eq_zero
  grind

theorem le_total (weight : List Frame → Nat) (ht : t ∈ s.allList) : weight (s.thread t).frames ≤ total weight s :=
  List.single_le_sum (by simp) _ (List.mem_map_of_mem ht)

/-- Two threads count both. -/
theorem add_le_total (weight : List Frame → Nat) {u : Tid} (hn : s.allList.Nodup) (ht : t ∈ s.allList)
    (hu : u ∈ s.allList) (hne : t ≠ u) :
    weight (s.thread t).frames + weight (s.thread u).frames ≤ total weight s := by
  have hmem : u ∈ s.allList.erase t := hn.mem_erase_iff.mpr ⟨Ne.symm hne, hu⟩
  have hsum : total weight s = weight (s.thread t).frames +
      ((s.allList.erase t).map fun v => weight (s.thread v).frames).sum := by
    unfold total
    rw [((List.perm_cons_erase ht).map _).sum_eq, List.map_cons, List.sum_cons]
  have hle : weight (s.thread u).frames ≤ ((s.allList.erase t).map fun v => weight (s.thread v).frames).sum :=
    List.single_le_sum (by simp) _ (List.mem_map_of_mem hmem)
  omega

theorem weights_change (weight : List Frame → Nat) {l : List Tid} {c : Tid} (hn : l.Nodup) (hc : c ∈ l)
    (h : ∀ t ∈ l, t ≠ c → (s'.thread t).frames = (s.thread t).frames) :
    (l.map fun t => weight (s'.thread t).frames).sum + weight (s.thread c).frames =
      (l.map fun t => weight (s.thread t).frames).sum + weight (s'.thread c).frames := by
  have hperm := List.perm_cons_erase hc
  have hrest : (l.erase c).map (fun t => weight (s'.thread t).frames) =
      (l.erase c).map fun t => weight (s.thread t).frames := by
    apply List.map_congr_left
    grind
  rw [(hperm.map _).sum_eq, (hperm.map fun t => weight (s.thread t).frames).sum_eq, List.map_cons, List.map_cons,
    List.sum_cons, List.sum_cons, hrest]
  omega

/-- Only the stack of the running thread changes its weight. -/
theorem Effect.total_change (h : Effect s d s') (weight : List Frame → Nat) (ht : Tidy s) (h0 : weight [] = 0)
    (hk : weight [.kernelThread] = 0) :
    total weight s' + weight s.frames = total weight s + weight (s'.thread s.current).frames := by
  have ho := h.others
  have hold : ∀ t ∈ s.allList, t ∈ s'.allList → t ≠ s.current → (s'.thread t).frames = (s.thread t).frames := by
    intro t htl htl' htc
    rcases ho t htl' htc with ⟨-, he⟩ | ⟨hout, -⟩
    · exact he
    · exact absurd htl hout
  have hsame : s'.allList = s.allList →
      total weight s' + weight s.frames = total weight s + weight (s'.thread s.current).frames := by
    intro hal
    unfold total
    rw [hal]
    exact weights_change weight ht.nodup ht.live fun t htl htc => hold t htl (hal ▸ htl) htc
  cases h with
  | quiet _ hg | setPriority _ _ hg | calculate _ _ hg | wait _ _ _ hg | take _ _ _ hg | acquireAgain _ _ _ hg
  | tryAcquire _ _ _ hg | setHolder _ hg | releaseYield _ _ _ hg | releaseDone _ _ _ _ _ _ hg | unlink _ _ _ _ hg
  | up _ _ hg | device _ hg | condWait _ _ hg | signal _ _ _ hg | sleep _ hg | pushBlock _ hg | tick _ hg =>
    exact hsame hg.moves.allList
  | acquireWait _ _ hd _ _ hg | acquireTake _ _ hd _ _ hg =>
    exact hsame (hg.moves.allList.trans (donation_allList hd).1)
  | @create _ _ p u rest _ hl _ _ hg =>
    have hal : s'.allList = s.allList ++ [u] := hg.moves.allList
    have hu : (s'.thread u).frames = [.kernelThread] := by
      have huc : u ≠ s.current := fun e => hl (e ▸ ht.live)
      rcases ho u (by simp [hal]) huc with ⟨hin, -⟩ | ⟨-, he⟩
      · exact absurd hin hl
      · exact he
    have hsum := weights_change weight ht.nodup ht.live fun t htl htc => hold t htl (by simp [hal, htl]) htc
    unfold total
    rw [hal, List.map_append, List.sum_append]
    simp only [List.map_cons, List.map_nil, List.sum_cons, List.sum_nil, hu, hk]
    exact hsum
  | exit hf hg =>
    have hal : s'.allList = s.allList.erase s.current := hg.moves.allList
    have hperm := List.perm_cons_erase ht.live
    have hframes : (s'.thread s.current).frames = [] := hg.moves.frames_current
    have hmap : (s.allList.erase s.current).map (fun t => weight (s'.thread t).frames) =
        (s.allList.erase s.current).map (fun t => weight (s.thread t).frames) := by
      apply List.map_congr_left
      intro t htl
      rw [hold t (List.mem_of_mem_erase htl) (hal ▸ htl) (ht.nodup.mem_erase_iff.mp htl).1]
    have hcur : weight (s.thread s.current).frames = 0 := by
      have hf : (s.thread s.current).frames = [] := hf
      rw [hf, h0]
    unfold total
    rw [hal, hmap, hframes, h0, hf, h0, (hperm.map _).sum_eq, List.map_cons, List.sum_cons, hcur]
    omega

theorem Effect.total_same {weight : List Frame → Nat} (h : Effect s d s') (ht : Tidy s) (h0 : weight [] = 0)
    (hk : weight [.kernelThread] = 0) (hw : weight (s'.thread s.current).frames = weight s.frames) :
    total weight s' = total weight s := by
  have hsum := h.total_change weight ht h0 hk
  omega

/-! ### When interrupts are off -/

/-- No frame of the stack is parked. -/
def Unparked (fs : List Frame) : Prop := ∀ f ∈ fs, f.parked = false

theorem Masked.goes (hm : Masked s) (ho : Others s s') (hg : Goes fs s1 s') (hc : s1.current = s.current)
    (htail : Unparked fs.tail) : Masked s' := by
  have hcur : (s'.thread s.current).frames = fs := hc ▸ hg.moves.frames_current
  refine ⟨?_, ?_⟩
  · intro f hf hp
    by_contra hi
    have hstay := hg.stays (eq_true_of_ne_false hi)
    rw [State.frames, hstay, hc, hcur] at hf
    exact hi (hg.top f hf hp)
  · intro t ht f hf
    by_cases htc : t = s.current
    · rw [htc, hcur] at hf
      exact htail f hf
    · rcases ho t ht htc with ⟨hl, he⟩ | ⟨-, he⟩
      · rw [he] at hf
        exact hm.below t hl f hf
      · rw [he] at hf
        cases hf

theorem Unparked.cons (hf : f.parked = false) (h : Unparked fs) : Unparked (f :: fs) := by
  intro g hg
  rcases List.mem_cons.mp hg with rfl | hg
  · exact hf
  · exact h g hg

theorem Awake.unparked (h : Awake fs) (ht : Unparked fs.tail) : Unparked fs := by
  cases fs with
  | nil => exact ht
  | cons f fs => exact ht.cons (h f rfl)

theorem parked_tear (f : Frame) : f.tear.parked = f.parked := by
  cases f <;> rfl

theorem Unparked.modifyHead (h : Unparked fs) : Unparked (fs.modifyHead Frame.tear) := by
  cases fs with
  | nil => exact h
  | cons f fs =>
    exact Unparked.cons ((parked_tear f).trans (h f List.mem_cons_self)) fun g hg => h g (List.mem_cons_of_mem _ hg)

theorem Unparked.tail (h : Unparked fs) : Unparked fs.tail := fun f hf => h f (List.mem_of_mem_tail hf)

theorem Quiet.unparked {fs' : List Frame} (h : Quiet fs fs') (ht : Unparked fs.tail) : Unparked fs'.tail := by
  cases h with
  | same => exact ht
  | push _ _ hc => exact hc.awake.unparked ht
  | pop _ => exact ht.tail
  | swap _ _ _ => exact ht

theorem Interrupted.unparked {switch : Prop} (h : Interrupted switch s s' fs) (ht : Unparked s.frames.tail) :
    Unparked fs.tail := by
  obtain ⟨ha, ⟨rfl, -⟩ | ⟨-, rfl⟩⟩ := h
  · exact ht
  · exact (ha.unparked ht).modifyHead

theorem Starts.unparked {before : List Frame} (h : Starts f before rest) (ht : Unparked before.tail) : Unparked rest := by
  rcases h with ⟨-, rfl⟩ | rfl
  · intro g hg
    cases hg
  · exact ht

theorem StartsAcquire.unparked {before : List Frame} (h : StartsAcquire l before rest) (ht : Unparked before.tail) :
    Unparked rest := by
  rcases h with h | ⟨-, p, -, rfl⟩
  · exact h.unparked ht
  · exact .cons rfl (.cons rfl fun g hg => by cases hg)

theorem Settles.unparked (h : Settles rest fs) (ht : Unparked rest) : Unparked fs.tail := by
  rcases h with rfl | ⟨on, rfl⟩
  · exact ht.tail
  · exact ht

theorem Effect.masked (h : Effect s d s') (hm : Masked s) (hl : s.current ∈ s.allList) : Masked s' := by
  have hb : Unparked s.frames.tail := hm.below _ hl
  have hnil : Unparked [] := fun g hg => by cases hg
  have ho := h.others
  cases h with
  | quiet hq hg => exact hm.goes ho hg rfl (hq.unparked hb)
  | setPriority _ _ hg => exact hm.goes ho hg rfl (hnil.cons rfl)
  | calculate hf _ hg | acquireAgain hf _ _ hg | setHolder hf hg =>
    rw [hf] at hb
    exact hm.goes ho hg rfl hb.tail
  | wait _ _ hst hg =>
    refine hm.goes ho hg rfl ?_
    rcases hst with hf | ⟨-, -, hst⟩
    · rw [hf] at hb
      exact hb
    · exact hst.unparked hb
  | take _ _ hst hg =>
    refine hm.goes ho hg rfl (Unparked.tail ?_)
    rcases hst with hst | ⟨on, hf⟩
    · exact hst.unparked hb
    · rw [hf] at hb
      exact hb
  | acquireWait hst _ hd _ _ hg => exact hm.goes ho hg (donation_allList hd).2 (hst.unparked hb)
  | acquireTake hst _ hd _ _ hg => exact hm.goes ho hg (donation_allList hd).2 (hst.unparked hb).tail
  | tryAcquire _ _ _ hg | exit _ hg | sleep _ hg => exact hm.goes ho hg rfl hnil
  | releaseYield hst _ _ hg | up hst _ hg => exact hm.goes ho hg rfl (hst.unparked hb)
  | releaseDone hst _ _ _ _ hs hg => exact hm.goes ho hg rfl (hs.unparked (hst.unparked hb))
  | unlink hf _ _ hs hg =>
    rw [hf] at hb
    exact hm.goes ho hg rfl (hs.unparked hb)
  | device hi hg | tick hi hg => exact hm.goes ho hg rfl (hi.unparked hb)
  | condWait _ _ hg => exact hm.goes ho hg rfl (.cons rfl (.cons rfl hnil))
  | signal hf _ _ hg | pushBlock hf hg =>
    rw [hf] at hb
    exact hm.goes ho hg rfl hb
  | create hf _ _ _ hg =>
    rw [hf] at hb
    exact hm.goes ho hg rfl (.cons rfl (.cons rfl (.cons rfl hb)))

theorem booted_masked (h : Booted s) : Masked s := by
  obtain ⟨values, condLock, rfl⟩ := h
  refine ⟨?_, ?_⟩
  · intro f hf
    cases hf
  · intro t ht f hf
    have ht : t = 0 ∨ t = 1 := by simpa [booted] using ht
    rcases ht with rfl | rfl
    · cases hf
    · rw [List.mem_singleton.mp hf]
      rfl

/-! ### Runs -/

/-- An invariant of all effects, with what is known of every state. -/
theorem run_effects {cond : Act → State → Prop} {init J : State → Prop} {h : List (Act × Unit)}
    (hr : Run Act.exec (fun a s => a.Enabled s ∧ cond a s) init h s) (hi : ∀ s, init s → Booted s)
    (h0 : ∀ s, init s → J s)
    (hs : ∀ s s' a, Reachable s → Tidy s → Masked s → J s → a.Enabled s → cond a s → a.step s = .ok s' →
      Tidy s' → Effect s (a.deed s) s' → J s') : J s := by
  have h : (Reachable s ∧ Masked s) ∧ J s := by
    apply run_invariant hr
    · intro s hs
      have hb := hi s hs
      exact ⟨⟨⟨[], .start hb⟩, booted_masked hb⟩, h0 s hs⟩
    · intro s a hJ ha hca
      have ht := hJ.1.1.tidy
      have heff := step_effect ht hJ.1.2 ha
      cases hx : a.step s with
      | error e => trivial
      | ok s' =>
        have hr' := hJ.1.1.step ha hx
        rw [hx, gives_ok] at heff
        exact ⟨⟨hr', heff.masked hJ.1.2 ht.live⟩, hs s s' a hJ.1.1 ht hJ.1.2 hJ.2 ha hca hx hr'.tidy heff⟩
  exact h.2

theorem ReachableUnder.effects {cond : Act → State → Prop} {J : State → Prop} (hr : ReachableUnder cond s)
    (h0 : ∀ s, Booted s → J s)
    (hs : ∀ s s' a, Reachable s → Tidy s → Masked s → J s → a.Enabled s → cond a s → a.step s = .ok s' →
      Tidy s' → Effect s (a.deed s) s' → J s') : J s := by
  obtain ⟨h, hr⟩ := hr
  exact run_effects hr (fun _ => id) h0 hs

end

end Pintos.Threads
