import Pintos.Threads.SchedulingProofs
import Pintos.Threads.Fairness

/-! The recursion of `compare_priority_and_update`.

It goes from a thread to the holder of the lock that thread waits for, as long as it meets no thread of
strictly higher priority. A thread that it has raised has the donated priority and does not stop it when
it comes by again, so a cycle of waiting threads is walked for ever; without a cycle the recursion ends,
as only finitely many threads wait. -/
namespace Pintos.Threads
open Outcome

/-- `u` is met on the way from `start`: no thread before it has more than the donated priority. -/
inductive Chain (p : Int) (s : State) : Option Tid → Tid → Prop where
  | here {t : Tid} : Chain p s (some t) t
  | next {t u : Tid} : s.eff t ≤ p → Chain p s (creditor s t) u → Chain p s (some t) u

/-- No thread on the way is met again behind itself. -/
def Loopless (p : Int) (s : State) (start : Option Tid) : Prop :=
  ∀ t, Chain p s start t → s.eff t ≤ p → ¬ Chain p s (creditor s t) t

section
variable {s s' : State} {p : Int} {t u v : Tid} {start : Option Tid}

/-- Raising a thread to the donated priority leaves the way as it is. -/
theorem chain_setEff (hv : s.eff v ≤ p) : Chain p (s.setEff v p) start u ↔ Chain p s start u := by
  have hle : ∀ t, (s.setEff v p).eff t ≤ p ↔ s.eff t ≤ p := by
    intro t
    rw [eff_setEff]
    grind
  constructor
  · intro h
    induction h with
    | here => exact .here
    | next ht _ ih => exact .next ((hle _).mp ht) (by rwa [creditor_setEff] at ih)
  · intro h
    induction h with
    | here => exact .here
    | next ht _ ih => exact .next ((hle _).mpr ht) (by rwa [creditor_setEff])

theorem Loopless.setEff (h : Loopless p s (some v)) (hv : s.eff v ≤ p) :
    Loopless p (s.setEff v p) (creditor s v) := by
  intro t ht hle hback
  rw [chain_setEff hv] at ht
  rw [creditor_setEff, chain_setEff hv] at hback
  refine h t (.next hv ht) ?_ hback
  rw [eff_setEff] at hle
  grind

/-- A chain without a loop, all of whose waiting threads are in `w`, is walked to its end. -/
theorem comparePriorityAndUpdate_ends (w : Finset Tid) : ∀ (start : Option Tid) (s : State),
    (∀ t, Chain p s start t → creditor s t ≠ none → t ∈ w) → Loopless p s start →
    ∃ n s2, (∀ m, n ≤ m → comparePriorityAndUpdate p m start s = .ok s2) ∧ ∀ t, Chain p s start t → p ≤ s2.eff t := by
  induction w using Finset.strongInduction with
  | H w ih =>
    intro start s hw hloop
    cases start with
    | none =>
      refine ⟨0, s, fun m _ => by cases m <;> rfl, fun t ht => ?_⟩
      cases ht
    | some v =>
      by_cases hv : s.eff v > p
      · refine ⟨1, s, fun m hm => ?_, fun t ht => ?_⟩
        · obtain ⟨m, rfl⟩ := Nat.exists_eq_add_of_le' hm
          rw [comparePriorityAndUpdate_some, if_pos hv]
        · cases ht with
          | here => exact hv.le
          | next hle _ => omega
      · have hv : s.eff v ≤ p := not_lt.mp hv
        -- the rest of the chain waits in `w` without `v`
        obtain ⟨n, s2, hrun, hhigh⟩ : ∃ n s2,
            (∀ m, n ≤ m → comparePriorityAndUpdate p m (creditor s v) (s.setEff v p) = .ok s2) ∧
            ∀ t, Chain p (s.setEff v p) (creditor s v) t → p ≤ s2.eff t := by
          by_cases hc : creditor s v = none
          · rw [hc]
            refine ⟨0, s.setEff v p, fun m _ => by cases m <;> rfl, fun t ht => ?_⟩
            cases ht
          · refine ih (w.erase v) (Finset.erase_ssubset (hw v .here hc)) _ _ (fun t ht hct => ?_) (hloop.setEff hv)
            rw [chain_setEff hv] at ht
            rw [creditor_setEff] at hct
            refine Finset.mem_erase.mpr ⟨fun htv => ?_, hw t (.next hv ht) hct⟩
            subst htv
            exact hloop t .here hv ht
        refine ⟨n + 1, s2, fun m hm => ?_, fun t ht => ?_⟩
        · obtain ⟨m, rfl⟩ := Nat.exists_eq_add_of_le' (show 1 ≤ m by omega)
          rw [comparePriorityAndUpdate_some, if_neg (not_lt.mpr hv)]
          exact hrun m (by omega)
        · cases ht with
          | here =>
            have hbound := donation_bound p n (creditor s v) (s.setEff v p)
            rw [hrun n (Nat.le_refl n), gives_ok, eff_setEff] at hbound
            grind
          | next _ ht => exact hhigh t ((chain_setEff hv).mpr ht)

/-- Threads that wait for one another, none above the donated priority, are walked for ever. -/
theorem comparePriorityAndUpdate_diverges (loop : Set Tid) (n : Nat) : ∀ (s : State) (t : Tid), t ∈ loop →
    (∀ t ∈ loop, s.eff t ≤ p ∧ ∃ u ∈ loop, creditor s t = some u) →
    comparePriorityAndUpdate p n (some t) s = .error .diverges := by
  induction n with
  | zero => exact fun _ _ _ _ => rfl
  | succ n ih =>
    intro s t ht hloop
    obtain ⟨hle, u, hu, hc⟩ := hloop t ht
    rw [comparePriorityAndUpdate_some, if_neg (not_lt.mpr hle), hc]
    refine ih _ u hu fun v hv => ?_
    rw [eff_setEff, creditor_setEff]
    grind

/-- A chain with a loop leads into it. -/
theorem comparePriorityAndUpdate_loops (h : ¬ Loopless p s start) (n : Nat) :
    comparePriorityAndUpdate p n start s = .error .diverges := by
  unfold Loopless at h
  push Not at h
  obtain ⟨t, hstart, hle, hback⟩ := h
  -- the threads from which the way leads to `t`
  have hway : ∀ {x}, Chain p s x t → ∃ u ∈ {u | s.eff u ≤ p ∧ Chain p s (creditor s u) t}, x = some u := by
    intro x hx
    cases hx with
    | here => exact ⟨t, ⟨hle, hback⟩, rfl⟩
    | next hu hx => exact ⟨_, ⟨hu, hx⟩, rfl⟩
  obtain ⟨u, hu, rfl⟩ := hway hstart
  exact comparePriorityAndUpdate_diverges _ n s u hu fun v hv => ⟨hv.1, hway hv.2⟩

/-! ### Finitely many threads wait -/

theorem setEff_waitingLock (s : State) (u : Tid) (p : Int) (t : Tid) :
    ((s.setEff u p).thread t).waitingLock = (s.thread t).waitingLock := by
  by_cases ht : t = u <;> simp [State.setEff, State.mapThread, ht]

theorem upped_waitingLock (k : SemaId) (s : State) (t : Tid) :
    ((upped k s).thread t).waitingLock = (s.thread t).waitingLock := by
  simp only [upped]
  split <;> rfl

theorem released_waitingLock (l : LockId) (s : State) (t : Tid) :
    ((released l s).thread t).waitingLock = (s.thread t).waitingLock :=
  upped_waitingLock _ _ t

theorem awoken_waitingLock (s : State) (t : Tid) : ((awoken s).thread t).waitingLock = (s.thread t).waitingLock := by
  simp only [awoken, popped]
  split <;> rfl

theorem setFrames_waitingLock (s : State) (fs : List Frame) (t : Tid) :
    ((s.setFrames fs).thread t).waitingLock = (s.thread t).waitingLock := by
  by_cases ht : t = s.current <;> simp [State.setFrames, State.mapThread, ht]

theorem locked_waitingLock {l : LockId} {links : Intrusive.Links Node} (ht : t ≠ s.current) :
    ((locked l links s).thread t).waitingLock = (s.thread t).waitingLock := by
  simp [locked, State.setHolder, State.mapThread, ht]

theorem donation_waitingLock {l : LockId} {n : Nat} {rest : List Frame} {s2 : State}
    (h : comparePriorityAndUpdate p n start (wanting l (s.setFrames rest)) = .ok s2) (ht : t ≠ s.current) :
    (s2.thread t).waitingLock = (s.thread t).waitingLock := by
  obtain ⟨eff, rfl⟩ := donation_raised h
  simp [wanting, State.mapThread, State.setIntr, State.setFrames, ht]

/-- Only the running thread starts to wait. -/
theorem Effect.waits {d : Deed} (h : Effect s d s') (ht : t ≠ s.current) (hw : (s'.thread t).waitingLock ≠ none) :
    (s.thread t).waitingLock ≠ none := by
  cases h with
  | quiet _ hg | wait _ _ _ hg | take _ _ _ hg | tryAcquire _ _ _ hg | setHolder _ hg | condWait _ _ hg
  | signal _ _ _ hg | exit _ hg | pushBlock _ hg => rwa [hg.moves.waitingLock] at hw
  | setPriority _ _ hg => simpa [hg.moves.waitingLock, State.mapThread, ht] using hw
  | calculate _ _ hg => rwa [hg.moves.waitingLock, setEff_waitingLock] at hw
  | acquireWait _ _ hd _ _ hg => rwa [hg.moves.waitingLock, enqueued_thread, donation_waitingLock hd ht] at hw
  | acquireTake _ _ hd _ _ hg =>
    have hc := (donation_allList hd).2
    rwa [hg.moves.waitingLock, locked_waitingLock (by exact hc ▸ ht), semaTake_thread, donation_waitingLock hd ht] at hw
  | acquireAgain _ _ _ hg => rwa [hg.moves.waitingLock, locked_waitingLock (by exact ht), semaTake_thread] at hw
  | releaseYield _ _ _ hg => rwa [hg.moves.waitingLock, released_waitingLock, setFrames_waitingLock] at hw
  | @releaseDone _ _ l _ rest _ _ _ _ _ _ _ _ _ hg =>
    rw [hg.moves.waitingLock, setEff_waitingLock] at hw
    have hsame := released_waitingLock l (s.setFrames rest) t
    rw [setFrames_waitingLock] at hsame
    rwa [← hsame]
  | unlink _ _ _ _ hg =>
    rw [hg.moves.waitingLock, setEff_waitingLock] at hw
    rwa [← setFrames_waitingLock s s.frames.tail t]
  | up _ _ hg => rwa [hg.moves.waitingLock, upped_waitingLock, setFrames_waitingLock] at hw
  | device _ hg => rwa [hg.moves.waitingLock, upped_waitingLock] at hw
  | @create _ _ p u rest _ _ _ _ hg =>
    rw [hg.moves.waitingLock] at hw
    by_cases htu : t = u
    · simp [newThread, htu] at hw
    · simpa [newThread, htu] using hw
  | sleep _ hg => simpa [hg.moves.waitingLock, State.mapThread, State.record, ht] using hw
  | tick _ hg =>
    rw [hg.moves.waitingLock, awoken_waitingLock] at hw
    exact hw

def Waiting (s : State) : Set Tid := {t | (s.thread t).waitingLock ≠ none}

theorem waiting_finite (hr : Reachable s) : (Waiting s).Finite := by
  refine hr.effects (J := fun s => (Waiting s).Finite) ?_ ?_
  · intro s hb
    obtain ⟨values, condLock, rfl⟩ := hb
    have hnone : Waiting (booted values condLock) = ∅ := by
      ext t
      simp only [Waiting, booted, Set.mem_ofPred_eq, Set.mem_empty_iff_false, iff_false, not_not]
      split <;> rfl
    rw [hnone]
    exact Set.finite_empty
  · intro s s' a _ _ _ hfin _ _ _ _ he
    refine (hfin.insert s.current).subset fun t ht => ?_
    by_cases htc : t = s.current
    · exact .inl htc
    · exact .inr (he.waits htc ht)

/-! ### The donation of `lock_acquire` -/

/-- A `lock_acquire` in any state of any run, whose chain of holders has no loop: its donation comes to an end, and leaves
no thread of the chain below the donated priority. With a loop it comes to no end. -/
theorem donation_ends (hr : Reachable s) (l : LockId) :
    (Loopless (s.eff s.current) (wanting l s) (s.holder l) → ∃ n s2,
      (∀ m, n ≤ m → comparePriorityAndUpdate (s.eff s.current) m (s.holder l) (wanting l s) = .ok s2) ∧
        ∀ t, Chain (s.eff s.current) (wanting l s) (s.holder l) t → s.eff s.current ≤ s2.eff t) ∧
    (¬ Loopless (s.eff s.current) (wanting l s) (s.holder l) → ∀ n,
      comparePriorityAndUpdate (s.eff s.current) n (s.holder l) (wanting l s) = .error .diverges) := by
  refine ⟨fun hloop => ?_, comparePriorityAndUpdate_loops⟩
  have hfin := (waiting_finite hr).insert s.current
  refine comparePriorityAndUpdate_ends hfin.toFinset _ _ (fun t _ hc => ?_) hloop
  rw [Set.Finite.mem_toFinset]
  by_cases htc : t = s.current
  · exact .inl htc
  · right
    intro hnone
    refine hc ?_
    simp [creditor, wanting, State.mapThread, State.setIntr, htc, hnone]

end

/-- Main and a second thread, each with a lock; the second one waits for the lock of main. -/
def crossing : List Act :=
  [.call (.lockAcquire 0) 1] ++ creation 40 2 ++ [.go 0, .call (.lockAcquire 1) 1, .call (.lockAcquire 0) 2, .go 0]

/-- A third thread asks for the lock of the second one and donates to both. -/
theorem donation_ends_at_main : ∃ s, Reachable s ∧ s.current = 3 ∧ s.eff 3 = 50 ∧ s.eff 0 = 40 ∧
    ∃ n s2, (∀ m, n ≤ m → comparePriorityAndUpdate 50 m (some 2) (wanting (.user 1) s) = .ok s2) ∧ 50 ≤ s2.eff 0 := by
  obtain ⟨s, hr, hc, h0, h1, hw, hw0, he3, he0, he2⟩ := reachable_of_after (fun _ _ => True)
    (crossing ++ creation 50 3 ++ [.go 0])
    (fun s => s.current = 3 ∧ s.holder (.user 0) = some 0 ∧ s.holder (.user 1) = some 2 ∧
      (s.thread 2).waitingLock = some (.user 0) ∧ (s.thread 0).waitingLock = none ∧ s.eff 3 = 50 ∧ s.eff 0 = 40 ∧
      s.eff 2 = 40) (by decide +kernel)
  have hcred2 : creditor (wanting (.user 1) s) 2 = some 0 := by
    simp [creditor, wanting, State.mapThread, State.setIntr, hc, h0, hw]
  have hcred0 : creditor (wanting (.user 1) s) 0 = none := by
    simp [creditor, wanting, State.mapThread, State.setIntr, hc, hw0]
  have heff2 : (wanting (.user 1) s).eff 2 = 40 := by
    simpa [wanting, State.eff, State.mapThread, State.setIntr, hc] using he2
  have hnone : ∀ t, ¬ Chain 50 (wanting (.user 1) s) none t := by
    intro t h
    cases h
  have hchain0 : ∀ t, Chain 50 (wanting (.user 1) s) (some 0) t → t = 0 := by
    intro t h
    cases h with
    | here => rfl
    | next _ h => exact absurd (hcred0 ▸ h) (hnone t)
  have hloop : Loopless (s.eff s.current) (wanting (.user 1) s) (s.holder (.user 1)) := by
    rw [h1, hc, he3]
    intro t ht _ hback
    cases ht with
    | here =>
      rw [hcred2] at hback
      cases hchain0 2 hback
    | next _ ht =>
      rw [hcred2] at ht
      obtain rfl := hchain0 t ht
      exact hnone 0 (hcred0 ▸ hback)
  obtain ⟨n, s2, hrun, hhigh⟩ := (donation_ends hr (.user 1)).1 hloop
  rw [h1, hc, he3] at hrun hhigh
  exact ⟨s, hr, hc, he3, he0, n, s2, hrun, hhigh 0 (.next (by omega) (hcred2 ▸ .here))⟩

/-- Main asks for the lock of the second thread instead, and the donation goes round for ever. -/
theorem donation_goes_round : ∃ s, Reachable s ∧ s.frames = [] ∧ s.holder (.user 1) ≠ some s.current ∧
    ∀ n, comparePriorityAndUpdate (s.eff s.current) n (s.holder (.user 1)) (wanting (.user 1) s) = .error .diverges := by
  obtain ⟨s, hr, hc, -, hf, h0, h1, hw, he0, he2⟩ := reachable_of_after (fun _ _ => True) crossing
    (fun s => s.current = 0 ∧ s.intr = true ∧ s.frames = [] ∧ s.holder (.user 0) = some 0 ∧ s.holder (.user 1) = some 2 ∧
      (s.thread 2).waitingLock = some (.user 0) ∧ s.eff 0 = 40 ∧ s.eff 2 = 40) (by decide +kernel)
  refine ⟨s, hr, hf, by rw [h1, hc]; decide, fun n => ?_⟩
  rw [h1, hc, he0]
  refine comparePriorityAndUpdate_diverges {0, 2} n _ 2 (.inr rfl) fun t ht => ?_
  rcases ht with rfl | rfl
  · exact ⟨by simp [wanting, State.eff, State.mapThread, State.setIntr, hc]; exact he0.le, 2, .inr rfl, by
      simp [creditor, wanting, State.mapThread, State.setIntr, hc, h1]⟩
  · exact ⟨by simp [wanting, State.eff, State.mapThread, State.setIntr, hc]; exact he2.le, 0, .inl rfl, by
      simp [creditor, wanting, State.mapThread, State.setIntr, hc, h0, hw]⟩

end Pintos.Threads
