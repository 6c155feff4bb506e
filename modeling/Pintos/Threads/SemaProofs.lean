import Pintos.Threads.EffectProofs

/-! Semaphores lose no unit and no wake-up (`threads/synch.c`).

A woken thread does not own the unit it was woken for. What is kept is a count over all
threads: while a semaphore has waiters, its value and its waiters together are no more than the
threads inside `sema_down` on it (`backed`), so as many threads are on their way to take a unit
as there are units. Each lock has one unit: in its semaphore, with its holder, or with a thread
that has taken it in `lock_try_acquire` and not yet said so (`single`). -/
namespace Pintos.Threads
open Kernel Outcome

def downs (k : SemaId) (s : State) : Nat := s.trace.count (.down k)

def ups (k : SemaId) (s : State) : Nat := s.trace.count (.up k)

/-- One if the top frame of a stack waits on the semaphore. -/
def pends (k : SemaId) (fs : List Frame) : Nat := if fs.head?.bind Frame.waitsOn = some k then 1 else 0

/-- How often a stack still has to store itself as the holder of a lock. -/
def claims (l : LockId) (fs : List Frame) : Nat := fs.count (.setHolder l)

structure Sound (init : SemaId → Nat) (s : State) : Prop where
  counted : ∀ k, (s.sema k).value + downs k s ≤ init k + ups k s
  backed : ∀ k, (s.sema k).waiters ≠ [] → (s.sema k).value + (s.sema k).waiters.length ≤ total (pends k) s
  single : ∀ l, (s.sema (.lock l)).value + (s.holder l).toList.length + total (claims l) s = 1

section
variable {s s' s1 : State} {f : Frame} {fs fs' rest : List Frame} {k : SemaId} {l : LockId} {t : Tid}
  {init : SemaId → Nat}

/-! ### Weights -/

theorem pends_cons : pends k (f :: fs) = if f.waitsOn = some k then 1 else 0 := rfl

theorem parked_of_waitsOn (h : f.waitsOn = some k) : f.parked = true := by
  cases f <;> first | rfl | cases h

theorem pends_of_awake (h : Awake fs) : pends k fs = 0 := by
  cases fs with
  | nil => rfl
  | cons f fs =>
    rw [pends_cons, if_neg]
    intro hk
    have hp := h f rfl
    rw [parked_of_waitsOn hk] at hp
    cases hp

theorem pends_of_waitsOn (h : f.waitsOn = none) : pends k (f :: fs) = 0 := by
  rw [pends_cons, h]
  rfl

theorem waitsOn_of_light (h : f.light = true) : f.waitsOn = none := by
  cases f <;> first | rfl | cases h

theorem claims_cons (h : f ≠ .setHolder l) : claims l (f :: fs) = claims l fs := List.count_cons_of_ne h

theorem claims_of_light (h : f.light = true) : claims l (f :: fs) = claims l fs := by
  apply claims_cons
  rintro rfl
  cases h

theorem claims_tear (fs : List Frame) : claims l (fs.modifyHead Frame.tear) = claims l fs := by
  cases fs with
  | nil => rfl
  | cons f fs => cases f <;> simp [claims, Frame.tear, List.modifyHead, List.count_cons]

theorem Unparked.awake (h : Unparked fs) : Awake fs := fun f hf => h f (List.mem_of_head? hf)

theorem Quiet.pends (h : Quiet fs fs') (hb : Unparked fs.tail) : pends k fs = 0 ∧ pends k fs' = 0 := by
  cases h with
  | same => exact ⟨rfl, rfl⟩
  | push hl _ hc => exact ⟨pends_of_awake hc.awake, pends_of_waitsOn (waitsOn_of_light hl)⟩
  | pop hl => exact ⟨pends_of_waitsOn (waitsOn_of_light hl), pends_of_awake hb.awake⟩
  | swap hl hl' _ => exact ⟨pends_of_waitsOn (waitsOn_of_light hl), pends_of_waitsOn (waitsOn_of_light hl')⟩

theorem Quiet.claims (h : Quiet fs fs') : claims l fs' = claims l fs := by
  cases h with
  | same => rfl
  | push hl _ _ => exact claims_of_light hl
  | pop hl => exact (claims_of_light hl).symm
  | swap hl hl' _ => exact (claims_of_light hl').trans (claims_of_light hl).symm

/-! ### Threads inside `sema_down` -/

/-- The thread is in the loop of a `sema_down` on the semaphore. -/
def inDown (k : SemaId) (s : State) (t : Tid) : Bool := (s.thread t).frames.head?.bind Frame.waitsOn = some k

/-- The threads woken from a semaphore that have not yet looked at its value again. -/
def woken (k : SemaId) (s : State) : List Tid :=
  s.allList.filter fun t => inDown k s t && (s.thread t).status != .blocked

theorem total_pends (k : SemaId) (s : State) : total (pends k) s = s.allList.countP (inDown k s) := by
  unfold total
  induction s.allList with
  | nil => rfl
  | cons t ts ih =>
    rw [List.map_cons, List.sum_cons, ih, List.countP_cons]
    simp only [pends, inDown, decide_eq_true_eq]
    omega

theorem Tidy.waiters_perm (h : Tidy s) (k : SemaId) :
    (s.sema k).waiters.Perm (s.allList.filter fun t => inDown k s t && (s.thread t).status == .blocked) := by
  rw [List.perm_ext_iff_of_nodup (h.waitersNodup k) (h.nodup.filter _)]
  intro t
  rw [h.waiters k t, List.mem_filter, Bool.and_eq_true, beq_iff_eq]
  simp only [BlockedAt, inDown, decide_eq_true_eq, Option.bind_eq_some_iff]
  tauto

/-- A thread inside `sema_down` waits or has been woken. -/
theorem Tidy.total_pends_eq (h : Tidy s) (k : SemaId) :
    total (pends k) s = (s.sema k).waiters.length + (woken k s).length := by
  rw [total_pends, (h.waiters_perm k).length_eq, woken, ← List.countP_eq_length_filter,
    ← List.countP_eq_length_filter, List.countP_eq_countP_filter_add _ _ fun t => (s.thread t).status == .blocked,
    List.countP_filter, List.countP_filter]
  rfl

/-! ### What the operations do to the counts -/

/-- Nothing about semaphores and holders has changed. -/
theorem Sound.still (h : Sound init s) (hsema : s'.sema = s.sema) (hh : s'.holder = s.holder)
    (htrace : ∀ k, downs k s' = downs k s ∧ ups k s' = ups k s) (hp : ∀ k, total (pends k) s' = total (pends k) s)
    (hc : ∀ l, total (claims l) s' = total (claims l) s) : Sound init s' := by
  refine ⟨?_, ?_, ?_⟩
  · intro k
    rw [hsema, (htrace k).1, (htrace k).2]
    exact h.counted k
  · intro k
    rw [hsema, hp]
    exact h.backed k
  · intro l
    rw [hsema, hh, hc]
    exact h.single l

theorem downs_cons (h : s'.trace = .down k :: s.trace) (k' : SemaId) :
    downs k' s' = downs k' s + (if k' = k then 1 else 0) ∧ ups k' s' = ups k' s := by
  unfold downs ups
  grind

theorem ups_cons (h : s'.trace = .up k :: s.trace) (k' : SemaId) :
    ups k' s' = ups k' s + (if k' = k then 1 else 0) ∧ downs k' s' = downs k' s := by
  unfold downs ups
  grind

/-- The running thread takes a unit. If it was inside `sema_down`, it was so on this semaphore. -/
theorem Sound.take (h : Sound init s) (hv : (s.sema k).value ≠ 0) (hsema : s'.sema = (semaTake k s).sema)
    (htrace : s'.trace = .down k :: s.trace)
    (hp : ∀ k', total (pends k') s ≤ total (pends k') s' + if k' = k then 1 else 0)
    (hs : ∀ l, (s'.sema (.lock l)).value + (s'.holder l).toList.length + total (claims l) s' = 1) : Sound init s' := by
  have hvalue : (s'.sema k).value = (s.sema k).value - 1 := by simp [hsema, semaTake, State.mapSema, State.record]
  have hother : ∀ k', k' ≠ k → s'.sema k' = s.sema k' := by
    intro k' hk
    simp [hsema, semaTake, State.mapSema, State.record, hk]
  have hwait : ∀ k', (s'.sema k').waiters = (s.sema k').waiters := by
    intro k'
    by_cases hk : k' = k
    · simp [hsema, semaTake, State.mapSema, State.record, hk]
    · rw [hother k' hk]
  refine ⟨?_, ?_, hs⟩
  · intro k'
    have hc := h.counted k'
    obtain ⟨hd, hu⟩ := downs_cons htrace k'
    grind
  · intro k' hne
    have hb := h.backed k' (hwait k' ▸ hne)
    have hp := hp k'
    rw [hwait k']
    grind

/-- A unit is given back, and one waiter is woken if there are any. -/
theorem Sound.give {x : Semaphore} (h : Sound init s) (hsema : s'.sema = Function.update s.sema k x)
    (hv : x.value ≤ (s.sema k).value + 1) (hw : x.waiters.length = (s.sema k).waiters.length - 1)
    (htrace : s'.trace = .up k :: s.trace) (hp : ∀ k', total (pends k') s' = total (pends k') s)
    (hs : ∀ l, (s'.sema (.lock l)).value + (s'.holder l).toList.length + total (claims l) s' = 1) : Sound init s' := by
  have hself : s'.sema k = x := by rw [hsema, Function.update_self]
  have hother : ∀ k', k' ≠ k → s'.sema k' = s.sema k' := by
    intro k' hk
    rw [hsema, Function.update_of_ne hk]
  refine ⟨?_, ?_, hs⟩
  · intro k'
    have hc := h.counted k'
    obtain ⟨hu, hd⟩ := ups_cons htrace k'
    grind
  · intro k' hne
    rw [hp]
    by_cases hk : k' = k
    · subst hk
      rw [hself] at hne ⊢
      have hlen := List.length_pos_iff.mpr hne
      have hold : (s.sema k').waiters ≠ [] := List.length_pos_iff.mp (by omega)
      have hb := h.backed k' hold
      omega
    · rw [hother k' hk] at hne ⊢
      exact h.backed k' hne

theorem upped_waiters (k : SemaId) (s : State) :
    ((s.sema k).waiters.diff (wokenBy k s).toList).length = (s.sema k).waiters.length - 1 := by
  cases hm : wokenBy k s with
  | none =>
    have hnil : (s.sema k).waiters = [] := listMax_eq_none.mp hm
    simp [hnil]
  | some t =>
    have hmem : t ∈ (s.sema k).waiters := mem_of_listMax hm
    simp [List.length_erase_of_mem hmem]

/-- `sema_up`, which changes no stack but that of the running thread. -/
theorem Sound.upped (h : Sound init s) (s2 : State) (h2 : s2.sema = s.sema) (ht2 : s2.trace = s.trace)
    (hsema : s'.sema = (upped k s2).sema) (htrace : s'.trace = (upped k s2).trace)
    (hp : ∀ k', total (pends k') s' = total (pends k') s)
    (hs : ∀ l, (s'.sema (.lock l)).value + (s'.holder l).toList.length + total (claims l) s' = 1) : Sound init s' := by
  refine h.give (k := k) (x := ⟨((s2.sema k).value + 1) % 2 ^ 32, (s2.sema k).waiters.diff (wokenBy k s2).toList⟩)
    ?_ ?_ ?_ ?_ hp hs
  · rw [hsema, Threads.upped, ← h2]
  · rw [← h2]
    exact Nat.mod_le _ _
  · rw [← h2]
    exact upped_waiters k s2
  · rw [htrace, Threads.upped, ht2]

/-- The running thread finds the value zero and waits. -/
theorem Sound.wait (h : Sound init s) (ht : Tidy s') (hv : (s.sema k).value = 0)
    (hsema : s'.sema = (enqueued k s).sema) (hh : s'.holder = s.holder) (htrace : s'.trace = s.trace)
    (hp : ∀ k', k' ≠ k → total (pends k') s' = total (pends k') s)
    (hc : ∀ l, total (claims l) s' = total (claims l) s) : Sound init s' := by
  have hvalue : ∀ k', (s'.sema k').value = (s.sema k').value := by
    intro k'
    by_cases hk : k' = k <;> simp [hsema, enqueued, State.mapSema, hk]
  have hother : ∀ k', k' ≠ k → s'.sema k' = s.sema k' := by
    intro k' hk
    simp [hsema, enqueued, State.mapSema, hk]
  refine ⟨?_, ?_, ?_⟩
  · intro k'
    unfold downs ups
    rw [hvalue, htrace]
    exact h.counted k'
  · intro k' hne
    by_cases hk : k' = k
    · subst hk
      rw [hvalue, hv, ht.total_pends_eq]
      omega
    · rw [hother k' hk] at hne ⊢
      rw [hp k' hk]
      exact h.backed k' hne
  · intro l
    rw [hvalue, hh, hc]
    exact h.single l

/-! ### Every act -/

theorem donation_kept {p : Int} {n : Nat} {u : Option Tid} {s2 : State}
    (h : comparePriorityAndUpdate p n u (wanting l (s.setFrames rest)) = .ok s2) :
    s2.sema = s.sema ∧ s2.holder = s.holder ∧ s2.trace = s.trace ∧ s2.current = s.current := by
  obtain ⟨eff, rfl⟩ := donation_raised h
  exact ⟨rfl, rfl, rfl, rfl⟩

theorem Starts.weights {before : List Frame} (h : Starts f before rest) (hf : f.waitsOn = none)
    (hl : ∀ l, f ≠ .setHolder l) : pends k before = 0 ∧ claims l before = claims l rest := by
  rcases h with ⟨rfl, rfl⟩ | rfl
  · exact ⟨rfl, rfl⟩
  · exact ⟨pends_of_waitsOn hf, claims_cons (hl l)⟩

theorem StartsAcquire.weights {before : List Frame} {l' : LockId} (h : StartsAcquire l' before rest) :
    pends k before = 0 ∧ claims l before = claims l rest := by
  rcases h with h | ⟨rfl, p, -, rfl⟩
  · exact h.weights rfl (by simp)
  · exact ⟨rfl, rfl⟩

/-- The stack before a unit is taken from a semaphore that is in no lock. -/
theorem take_weights {before : List Frame} (k' : SemaId)
    (h : Starts (.semaDown k) before fs ∨ ∃ on, before = .down k on :: fs) :
    (pends k' before ≤ if k' = k then 1 else 0) ∧ claims l before = claims l fs := by
  rcases h with h | ⟨on, rfl⟩
  · obtain ⟨hp, hc⟩ := h.weights (k := k') (l := l) rfl (by simp)
    exact ⟨by omega, hc⟩
  · refine ⟨?_, claims_cons (by simp)⟩
    rw [pends_cons]
    by_cases hk : k' = k
    · subst hk
      simp [Frame.waitsOn]
    · simp [Frame.waitsOn, hk, Ne.symm hk]

theorem Interrupted.weights {switch : Prop} (h : Interrupted switch s s' fs) :
    pends k fs = pends k s.frames ∧ claims l fs = claims l s.frames := by
  obtain ⟨ha, ⟨rfl, -⟩ | ⟨-, rfl⟩⟩ := h
  · exact ⟨rfl, rfl⟩
  · exact ⟨(pends_of_awake ha).symm, (claims_of_light rfl).trans (claims_tear _)⟩

theorem Settles.weights (h : Settles rest fs) (hb : Unparked rest) : pends k fs = 0 ∧ claims l fs = claims l rest := by
  rcases h with rfl | ⟨on, rfl⟩
  · exact ⟨pends_of_awake hb.awake, rfl⟩
  · exact ⟨rfl, claims_of_light rfl⟩

/-- The unit of a lock and its holder, before and after. -/
theorem Sound.alone (h : Sound init s) (hv : (s.sema (.lock l)).value ≠ 0) :
    (s.sema (.lock l)).value = 1 ∧ s.holder l = none ∧ total (claims l) s = 0 := by
  have hs := h.single l
  refine ⟨by omega, ?_, by omega⟩
  rw [← Option.toList_eq_nil_iff, ← List.length_eq_zero_iff]
  omega

theorem Sound.held (h : Sound init s) (hh : s.holder l = some t) :
    (s.sema (.lock l)).value = 0 ∧ total (claims l) s = 0 := by
  have hs := h.single l
  grind

/-- The running thread takes the unit of a lock and stores itself as the holder. -/
theorem Sound.lockTake (h : Sound init s) (hv : (s.sema (.lock l)).value ≠ 0)
    (hsema : s'.sema = (semaTake (.lock l) s).sema) (hh : s'.holder = Function.update s.holder l (some t))
    (htrace : s'.trace = .down (.lock l) :: s.trace)
    (hp : ∀ k', total (pends k') s ≤ total (pends k') s' + if k' = .lock l then 1 else 0)
    (hc : ∀ l, total (claims l) s' = total (claims l) s) : Sound init s' := by
  refine h.take hv hsema htrace hp ?_
  intro l'
  rw [hc, hsema, hh]
  by_cases hl : l' = l
  · subst hl
    obtain ⟨hone, -, hz⟩ := h.alone hv
    simp [semaTake, State.mapSema, State.record, hone, hz]
  · simpa [semaTake, State.mapSema, State.record, hl] using h.single l'

/-- The holder gives the unit of a lock back. -/
theorem Sound.lockGive (h : Sound init s) (hh : s.holder l = some t) (s2 : State) (h2 : s2.sema = s.sema)
    (ht2 : s2.trace = s.trace) (hsema : s'.sema = (Threads.upped (.lock l) s2).sema)
    (htrace : s'.trace = (Threads.upped (.lock l) s2).trace) (hn : s'.holder = Function.update s.holder l none)
    (hp : ∀ k', total (pends k') s' = total (pends k') s) (hc : ∀ l, total (claims l) s' = total (claims l) s) :
    Sound init s' := by
  refine h.upped s2 h2 ht2 hsema htrace hp ?_
  intro l'
  rw [hc, hsema, hn]
  by_cases hl : l' = l
  · subst hl
    obtain ⟨hz, hz'⟩ := h.held hh
    simp [Threads.upped, h2, hz, hz']
  · simpa [Threads.upped, h2, hl] using h.single l'

/-- The thread that has the unit of a lock stores itself as the holder. -/
theorem Sound.storeHolder (h : Sound init s) (hsema : s'.sema = s.sema)
    (hn : s'.holder = Function.update s.holder l (some t)) (htrace : s'.trace = s.trace)
    (hp : ∀ k, total (pends k) s' = total (pends k) s) (hc : total (claims l) s' + 1 = total (claims l) s)
    (hc' : ∀ l', l' ≠ l → total (claims l') s' = total (claims l') s) : Sound init s' := by
  refine ⟨?_, ?_, ?_⟩
  · intro k
    unfold downs ups
    rw [hsema, htrace]
    exact h.counted k
  · intro k
    rw [hsema, hp]
    exact h.backed k
  · intro l'
    have hs := h.single l'
    rw [hsema, hn]
    grind

/-- `cond_wait` sets up the semaphore of its waiter. -/
theorem Sound.reset (h : Sound init s) (hk : ∀ l, k ≠ .lock l)
    (hsema : s'.sema = (s.mapSema k fun _ => ⟨0, []⟩).sema) (hh : s'.holder = s.holder) (htrace : s'.trace = s.trace)
    (hp : ∀ k, total (pends k) s' = total (pends k) s) (hc : ∀ l, total (claims l) s' = total (claims l) s) :
    Sound init s' := by
  have hself : s'.sema k = ⟨0, []⟩ := by simp [hsema, State.mapSema]
  have hother : ∀ k', k' ≠ k → s'.sema k' = s.sema k' := by
    intro k' hne
    simp [hsema, State.mapSema, hne]
  refine ⟨?_, ?_, ?_⟩
  · intro k'
    have hcount := h.counted k'
    unfold downs ups at hcount ⊢
    rw [htrace]
    by_cases hkk : k' = k
    · grind
    · rw [hother k' hkk]
      exact hcount
  · intro k' hne
    by_cases hkk : k' = k
    · grind
    · rw [hother k' hkk] at hne ⊢
      rw [hp]
      exact h.backed k' hne
  · intro l
    rw [hother _ (Ne.symm (hk l)), hh, hc]
    exact h.single l

/-- The trace a timer interrupt leaves has no new downs and ups. -/
theorem awoken_trace (s : State) (k : SemaId) :
    downs k (awoken (ticked s)) = downs k s ∧ ups k (awoken (ticked s)) = ups k s := by
  have hwake : ∀ (e : Event) (ts : List Tid), (∀ t, e ≠ .wake t) → (ts.map Event.wake).reverse.count e = 0 := by
    intro e ts he
    rw [List.count_eq_zero]
    grind
  constructor
  · show List.count _ (_ ++ Event.tick :: s.trace) = _
    rw [List.count_append, hwake _ _ (by simp), List.count_cons_of_ne (by simp), Nat.zero_add]
    rfl
  · show List.count _ (_ ++ Event.tick :: s.trace) = _
    rw [List.count_append, hwake _ _ (by simp), List.count_cons_of_ne (by simp), Nat.zero_add]
    rfl

theorem Effect.sound {d : Deed} (h : Effect s d s') (hs : Sound init s) (ht : Tidy s) (ht' : Tidy s') (hm : Masked s) :
    Sound init s' := by
  have hb : Unparked s.frames.tail := hm.below _ ht.live
  have hp := fun k => h.total_change (pends k) ht rfl rfl
  have hc := fun l => h.total_change (claims l) ht rfl rfl
  -- a change of the stack that no count sees
  have hstill : ∀ {fs : List Frame} {s1 : State}, Goes fs s1 s' → s1.current = s.current → s1.sema = s.sema →
      s1.holder = s.holder → (∀ k, downs k s1 = downs k s ∧ ups k s1 = ups k s) →
      (∀ k, pends k s.frames = pends k fs) → (∀ l, claims l s.frames = claims l fs) → Sound init s' := by
    intro fs s1 hg hcur hsema hh htrace hpf hcf
    have hfs : (s'.thread s.current).frames = fs := hcur ▸ hg.moves.frames_current
    rw [hfs] at hp hc
    refine hs.still (hg.moves.sema.trans hsema) (hg.moves.holder.trans hh) ?_ ?_ ?_
    · intro k
      unfold downs ups
      rw [hg.moves.trace]
      exact htrace k
    · grind
    · grind
  have hsame : ∀ k, downs k s = downs k s ∧ ups k s = ups k s := fun _ => ⟨rfl, rfl⟩
  cases h with
  | quiet hq hg =>
    exact hstill hg rfl rfl rfl hsame (fun k => (hq.pends hb).1.trans (hq.pends hb).2.symm) fun l => hq.claims.symm
  | setPriority hf _ hg | exit hf hg =>
    rw [hf] at hstill
    exact hstill hg rfl rfl rfl hsame (fun _ => rfl) fun _ => rfl
  | calculate hf _ hg =>
    rw [hf] at hstill hb
    exact hstill hg rfl rfl rfl hsame (fun _ => (pends_of_awake hb.awake).symm) fun _ => claims_cons (by simp)
  | @wait _ _ k f fs hw hv hst hg =>
    have hfs : (s'.thread s.current).frames = f :: fs := hg.moves.frames_current
    rw [hfs] at hp hc
    have hother : ∀ k', k' ≠ k → pends k' (f :: fs) = 0 := by
      intro k' hk
      simp [pends_cons, hw, Ne.symm hk]
    have hclaim : ∀ l, claims l (f :: fs) = claims l fs := by
      intro l
      apply claims_cons
      rintro rfl
      cases hw
    refine hs.wait ht' hv hg.moves.sema hg.moves.holder hg.moves.trace ?_ ?_
    · intro k' hk
      have hpk := hp k'
      rcases hst with hf | ⟨-, -, hst⟩
      · rw [hf] at hpk
        omega
      · rw [hother k' hk, (hst.weights (k := k') (l := .tid) rfl (by simp)).1] at hpk
        exact hpk
    · intro l
      have hcl := hc l
      rcases hst with hf | ⟨-, -, hst⟩
      · rw [hf] at hcl
        omega
      · rw [hclaim, (hst.weights (k := k) (l := l) rfl (by simp)).2] at hcl
        omega
  | @take _ _ k fs hv hk hst hg =>
    have hfs : (s'.thread s.current).frames = fs := hg.moves.frames_current
    rw [hfs] at hp hc
    have hclaim : ∀ l, total (claims l) s' = total (claims l) s := by
      intro l
      have hcl := hc l
      rw [(take_weights k hst).2] at hcl
      omega
    refine hs.take hv hg.moves.sema hg.moves.trace ?_ ?_
    · intro k'
      have hpk := hp k'
      have hle := (take_weights (l := .tid) k' hst).1
      omega
    · intro l
      rw [hclaim, hg.moves.sema, hg.moves.holder]
      simpa [semaTake, State.mapSema, State.record, Ne.symm (hk.1 l)] using hs.single l
  | @acquireWait _ s2 l n rest hst hh hd _ hv hg =>
    obtain ⟨hsema, hholder, htrace, hcur⟩ := donation_kept hd
    have hfs : (s'.thread s.current).frames = .acquire l s.intr :: rest := by
      rw [← hcur]
      exact hg.moves.frames_current
    rw [hfs] at hp hc
    refine hs.wait ht' hv ?_ (hg.moves.holder.trans hholder) (hg.moves.trace.trans htrace) ?_ ?_
    · rw [hg.moves.sema]
      simp [enqueued, State.mapSema, hsema, hcur]
    · intro k' hk
      have hpk := hp k'
      rw [(hst.weights (k := k') (l := l)).1, pends_cons, if_neg (by simpa [Frame.waitsOn] using Ne.symm hk)] at hpk
      exact hpk
    · intro l'
      have hcl := hc l'
      rw [(hst.weights (k := .lock l) (l := l')).2, claims_cons (by simp)] at hcl
      omega
  | @acquireTake _ s2 l n rest links hst hh hd hv hl hg =>
    obtain ⟨hsema, hholder, htrace, hcur⟩ := donation_kept hd
    have hfs : (s'.thread s.current).frames = rest := by
      rw [← hcur]
      exact hg.moves.frames_current
    rw [hfs] at hp hc
    refine hs.lockTake (t := s.current) hv ?_ ?_ ?_ ?_ ?_
    · rw [hg.moves.sema]
      simp [locked, State.mapThread, State.setHolder, semaTake, State.mapSema, State.record, hsema]
    · rw [hg.moves.holder]
      simp [locked, State.mapThread, State.setHolder, semaTake, State.mapSema, State.record, hholder, hcur]
    · rw [hg.moves.trace]
      simp [locked, State.mapThread, State.setHolder, semaTake, State.mapSema, State.record, htrace]
    · intro k'
      have hpk := hp k'
      rw [(hst.weights (k := k') (l := l)).1] at hpk
      omega
    · intro l'
      have hcl := hc l'
      rw [(hst.weights (k := .lock l) (l := l')).2] at hcl
      omega
  | @acquireAgain _ l on fs links hf hv _ hg =>
    have hfs : (s'.thread s.current).frames = fs := hg.moves.frames_current
    rw [hf, hfs] at hp hc
    refine hs.lockTake hv hg.moves.sema hg.moves.holder hg.moves.trace ?_ ?_
    · intro k'
      have hpk := hp k'
      have hle := (take_weights (k := .lock l) (l := l) k' (.inr ⟨on, rfl⟩) : _ ∧ claims l (.down _ on :: fs) = _).1
      have hsame : pends k' (.acquire l on :: fs) = pends k' (.down (.lock l) on :: fs) := rfl
      omega
    · intro l'
      have hcl := hc l'
      rw [claims_cons (by simp)] at hcl
      omega
  | @tryAcquire _ l hf hh hv hg =>
    have hfs : (s'.thread s.current).frames = [.setHolder l] := hg.moves.frames_current
    rw [hf, hfs] at hp hc
    refine hs.take (by omega) hg.moves.sema hg.moves.trace ?_ ?_
    · intro k'
      have hpk : total (pends k') s' + 0 = total (pends k') s + 0 := hp k'
      omega
    · intro l'
      have hcl := hc l'
      rw [hg.moves.sema, hg.moves.holder]
      by_cases hl : l' = l
      · subst hl
        obtain ⟨hone, hnone, hz⟩ := hs.alone (l := l') (by omega)
        have hclaim : claims l' [.setHolder l'] = 1 := by simp [claims]
        have hnil : claims l' [] = 0 := rfl
        simp [semaTake, State.mapSema, State.record, hone, hnone]
        omega
      · have hclaim : claims l' [.setHolder l] = claims l' [] := claims_cons (by simp [Ne.symm hl])
        have hsl := hs.single l'
        simp [semaTake, State.mapSema, State.record, hl]
        omega
  | @setHolder _ _ l fs hf hg =>
    have hfs : (s'.thread s.current).frames = fs := hg.moves.frames_current
    rw [hf, hfs] at hp hc
    rw [hf] at hb
    refine hs.storeHolder hg.moves.sema hg.moves.holder hg.moves.trace ?_ ?_ ?_
    · intro k
      have hpk : total (pends k) s' + 0 = _ := hp k
      have hz : pends k fs = 0 := pends_of_awake (Unparked.awake hb)
      rwa [hz] at hpk
    · have hcl := hc l
      have hclaim : claims l (.setHolder l :: fs) = claims l fs + 1 := List.count_cons_self
      omega
    · intro l' hl
      have hcl := hc l'
      rw [claims_cons (by simp [Ne.symm hl])] at hcl
      omega
  | @releaseYield _ _ l rest hst hh _ hg =>
    have hfs : (s'.thread s.current).frames = .unlink l s.intr :: rest := hg.moves.frames_current
    rw [hfs] at hp hc
    refine hs.lockGive hh (((s.setFrames rest).setIntr false).setHolder l none) rfl rfl hg.moves.sema hg.moves.trace
      hg.moves.holder ?_ ?_
    · intro k
      have hpk := hp k
      rw [(hst.weights (l := l) rfl (by simp)).1, pends_of_waitsOn rfl] at hpk
      exact hpk
    · intro l'
      have hcl := hc l'
      rw [(hst.weights (k := .lock l) (l := l') rfl (by simp)).2, claims_cons (by simp)] at hcl
      omega
  | @releaseDone _ _ l fuel rest fs links p hst hh _ _ _ hset hg =>
    have hfs : (s'.thread s.current).frames = fs := hg.moves.frames_current
    rw [hfs] at hp hc
    refine hs.lockGive hh (((s.setFrames rest).setIntr false).setHolder l none) rfl rfl hg.moves.sema hg.moves.trace
      hg.moves.holder ?_ ?_
    · intro k
      have hpk := hp k
      rw [(hst.weights (l := l) rfl (by simp)).1, (hset.weights (l := l) (hst.unparked hb)).1] at hpk
      exact hpk
    · intro l'
      have hcl := hc l'
      rw [(hst.weights (k := .lock l) (l := l') rfl (by simp)).2,
        (hset.weights (k := .lock l) (hst.unparked hb)).2] at hcl
      omega
  | unlink hf _ _ hset hg =>
    rw [hf] at hstill hb
    exact hstill hg rfl rfl rfl hsame (fun _ => (hset.weights (l := .tid) hb).1.symm) fun l =>
      (claims_cons (by simp)).trans (hset.weights (k := .lock l) hb).2.symm
  | @up _ _ k rest hst hk hg =>
    have hfs : (s'.thread s.current).frames = .yieldIf false :: rest := hg.moves.frames_current
    rw [hfs] at hp hc
    refine hs.upped (k := k) (s.setFrames rest) rfl rfl hg.moves.sema hg.moves.trace ?_ ?_
    · intro k'
      have hpk := hp k'
      rw [(hst.weights (l := .tid) rfl (by simp)).1, pends_of_waitsOn rfl] at hpk
      exact hpk
    · intro l
      have hcl := hc l
      rw [(hst.weights (k := k) (l := l) rfl (by simp)).2, claims_cons (by simp)] at hcl
      have hsl := hs.single l
      have hsema : (s'.sema (.lock l)).value = (s.sema (.lock l)).value := by
        rw [hg.moves.sema]
        simp [Threads.upped, Ne.symm (hk.1 l), State.setFrames, State.mapThread]
      have hholder : s'.holder l = s.holder l := congrFun hg.moves.holder l
      rw [hsema, hholder]
      omega
  | @device _ n fs hi hg =>
    have hfs : (s'.thread s.current).frames = fs := hg.moves.frames_current
    rw [hfs] at hp hc
    refine hs.upped (k := .user n) s rfl rfl hg.moves.sema hg.moves.trace ?_ ?_
    · intro k'
      have hpk := hp k'
      rw [(hi.weights (l := .tid)).1] at hpk
      omega
    · intro l
      have hcl := hc l
      rw [(hi.weights (k := .user n)).2] at hcl
      have hsl := hs.single l
      have hsema : (s'.sema (.lock l)).value = (s.sema (.lock l)).value := by
        rw [hg.moves.sema]
        simp [Threads.upped]
      have hholder : s'.holder l = s.holder l := congrFun hg.moves.holder l
      rw [hsema, hholder]
      omega
  | @condWait _ _ c hf _ hg =>
    have hfs : (s'.thread s.current).frames =
      [.lockRelease (s.condLock c), .semaDown (.waiter s.current), .lockAcquire (s.condLock c)] := hg.moves.frames_current
    rw [hf, hfs] at hp hc
    exact hs.reset (by simp) hg.moves.sema hg.moves.holder hg.moves.trace hp hc
  | signal hf _ _ hg | pushBlock hf hg =>
    rw [hf] at hstill
    exact hstill hg rfl rfl rfl hsame (fun _ => rfl) fun l =>
      (claims_cons (by simp)).trans (claims_cons (by simp)).symm
  | create hf _ _ _ hg =>
    rw [hf] at hstill
    refine hstill hg rfl rfl rfl hsame (fun _ => rfl) fun l => ?_
    simp [claims]
  | sleep hf hg =>
    rw [hf] at hstill
    refine hstill hg rfl rfl rfl ?_ (fun _ => rfl) fun _ => rfl
    intro k
    exact ⟨List.count_cons_of_ne (by simp), List.count_cons_of_ne (by simp)⟩
  | tick hi hg =>
    exact hstill hg rfl rfl rfl (awoken_trace s) (fun k => (hi.weights (l := .tid)).1.symm) fun l =>
      (hi.weights (k := .lock l)).2.symm

/-! ### Every run -/

theorem booted_sound (values : Nat → Nat) (condLock : Nat → LockId) :
    Sound (fun k => ((booted values condLock).sema k).value) (booted values condLock) := by
  refine ⟨fun k => le_refl _, ?_, ?_⟩
  · intro k hne
    cases k <;> exact absurd rfl hne
  · intro l
    have hz : total (claims l) (booted values condLock) = 0 := by
      apply total_zero
      intro t ht
      have ht : t = 0 ∨ t = 1 := by simpa [booted] using ht
      rcases ht with rfl | rfl <;> rfl
    rw [hz]
    rfl

theorem ReachableFrom.sound {values : Nat → Nat} {condLock : Nat → LockId} (hr : ReachableFrom (booted values condLock) s) :
    Tidy s ∧ Sound (fun k => ((booted values condLock).sema k).value) s := by
  obtain ⟨h, hr⟩ := hr
  have hboot : ∀ s, s = booted values condLock → Booted s := fun _ e => ⟨values, condLock, e⟩
  refine run_effects (J := fun s => Tidy s ∧ Sound (fun k => ((booted values condLock).sema k).value) s) hr hboot ?_ ?_
  · rintro _ rfl
    exact ⟨booted_tidy (hboot _ rfl), booted_sound values condLock⟩
  · intro s s' a _ ht hm hs _ _ _ ht' he
    exact ⟨ht', he.sound hs.2 ht ht' hm⟩

theorem Reachable.sound (hr : Reachable s) : ∃ init, Sound init s := by
  apply hr.effects
  · rintro _ ⟨values, condLock, rfl⟩
    exact ⟨_, booted_sound values condLock⟩
  · rintro s s' a _ ht hm ⟨init, hs⟩ _ _ _ ht' he
    exact ⟨init, he.sound hs ht ht' hm⟩

/-- The thread has the unit of the lock, and has said so or is about to. -/
def Owns (s : State) (t : Tid) (l : LockId) : Prop :=
  s.holder l = some t ∨ t ∈ s.allList ∧ .setHolder l ∈ (s.thread t).frames

theorem Sound.owner_unique {u : Tid} (h : Sound init s) (hn : s.allList.Nodup) (ht : Owns s t l) (hu : Owns s u l) :
    t = u := by
  have hclaim : ∀ {v : Tid}, .setHolder l ∈ (s.thread v).frames → 1 ≤ claims l (s.thread v).frames :=
    fun hm => List.count_pos_iff.mpr hm
  have hone := h.single l
  rcases ht with ht | ⟨htl, ht⟩ <;> rcases hu with hu | ⟨hul, hu⟩
  · exact Option.some.inj (ht.symm.trans hu)
  · have := hclaim hu
    have := le_total (claims l) hul
    have := (h.held ht).2
    omega
  · have := hclaim ht
    have := le_total (claims l) htl
    have := (h.held hu).2
    omega
  · by_contra hne
    have := hclaim ht
    have := hclaim hu
    have := add_le_total (claims l) hn htl hul hne
    omega

/-- What a run of semaphore operations from the state `s0` keeps. -/
structure SemaphoresSound (s0 s : State) : Prop where
  /-- Completed downs never exceed the initial value and completed ups. -/
  counted : ∀ k, downs k s ≤ (s0.sema k).value + ups k s
  /-- While threads wait, every unit has a woken thread on its way to take it. -/
  noLostWakeup : ∀ k, (s.sema k).waiters ≠ [] → (s.sema k).value ≤ (woken k s).length
  /-- No two threads hold a lock. -/
  exclusive : ∀ l t u, Owns s t l → Owns s u l → t = u
  /-- A lock that nobody holds has a contender that is awake, if it has any. -/
  contended : ∀ l, (∀ t, ¬ Owns s t l) → (s.sema (.lock l)).waiters ≠ [] → woken (.lock l) s ≠ []

theorem semaphores_sound {values : Nat → Nat} {condLock : Nat → LockId}
    (hr : ReachableFrom (booted values condLock) s) : SemaphoresSound (booted values condLock) s := by
  obtain ⟨ht, hs⟩ := hr.sound
  have hlost : ∀ k, (s.sema k).waiters ≠ [] → (s.sema k).value ≤ (woken k s).length := by
    intro k hne
    have hb := hs.backed k hne
    rw [ht.total_pends_eq] at hb
    omega
  refine ⟨?_, hlost, fun l t u => hs.owner_unique ht.nodup, ?_⟩
  · intro k
    have hc := hs.counted k
    omega
  · intro l hfree hne hnil
    have hv := hlost _ hne
    have hone := hs.single l
    have hholder : s.holder l = none := by
      cases hh : s.holder l with
      | none => rfl
      | some t => exact absurd (.inl hh) (hfree t)
    have hz : total (claims l) s = 0 := by
      apply total_zero
      intro t htl
      rw [claims, List.count_eq_zero]
      exact fun hm => hfree t (.inr ⟨htl, hm⟩)
    simp only [hnil, List.length_nil, hz, hholder, Option.toList_none] at hv hone
    omega

/-- Two threads wait, and an up has woken the first of them. -/
theorem semaphores_sound_after_up : ∃ s, ReachableFrom zeroed s ∧
    ((s.sema (.user 0)).value = 1 ∧ (s.sema (.user 0)).waiters = [3] ∧ woken (.user 0) s = [2]) ∧
    SemaphoresSound zeroed s := by
  let acts : List (List Act) := [creation 31 2, creation 31 3, [.call .threadYield 0, .go 0, .call (.semaDown 0) 0],
    [.go 0, .call (.semaDown 0) 0], [.go 0, .call (.semaUp 0) 0]]
  obtain ⟨h, s, hr, hs⟩ := run_of_after (fun _ _ => True) acts.flatten
    (fun s => (s.sema (.user 0)).value = 1 ∧ (s.sema (.user 0)).waiters = [3] ∧ woken (.user 0) s = [2]) (by decide +kernel)
  exact ⟨s, ⟨h, hr⟩, hs, semaphores_sound ⟨h, hr⟩⟩

end

end Pintos.Threads
