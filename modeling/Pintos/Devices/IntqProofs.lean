import Pintos.Devices.Intq

/-! Bytes leave an interrupt queue in the order they came, and no waiter is lost.

The thread that sleeps in `wait` is the one that holds the lock, so its slot is its own. The only assertion that
can fail is the one of `wait`: a thread that had to sleep for the lock tests the queue before it sleeps and not
after, so a byte that comes in the meantime stops the system. -/
namespace Pintos.Intq

open Steps

structure Inv (s : State) : Prop where
  bytes : ∃ xs, Ring.Holds bufsize s.q.buf s.q.head s.q.tail xs ∧ s.given = s.taken ++ xs
  recorded : ∀ slot t, s.q.waiter slot = some t ↔ s.blocked t = true ∧ ∃ c, s.place t = .waiting c ∧ c.needs = slot
  holder : ∀ t, s.q.lock.holder = some t ↔ ∃ c, s.place t = .waiting c
  value : s.q.lock.value = if s.q.lock.holder = none then 1 else 0
  queued : ∀ t ∈ s.q.lock.waiters, s.blocked t = true ∧ ∃ c, s.place t = .locking c
  distinct : s.q.lock.waiters.Nodup

/-- Ends in a good state, unless the act could not be taken. -/
def Sound : Except Fault State → Prop
  | .ok s => Inv s
  | .error e => e = .notReady

variable {s s' : State} {t woken : Tid} {c : Call} {slot : Slot}

theorem Sound.not_stopped {r : Except Fault State} (h : Sound r) : r ≠ .error .assert ∧ r ≠ .error .bounds := by
  constructor
  · rintro rfl
    cases h
  · rintro rfl
    cases h

theorem Inv.start (h : Start s) : Inv s := by
  obtain ⟨⟨buf, hq⟩, hplace, hgiven, htaken⟩ := h
  refine ⟨⟨[], ?_, by rw [hgiven, htaken]; rfl⟩, ?_, ?_, ?_, ?_, ?_⟩
  · rw [hq]
    exact Ring.Holds.empty (show 0 < bufsize by decide)
  · intro slot t
    simp [hq, intqInit, hplace]
  · intro t
    simp [hq, intqInit, hplace]
  · rw [hq]
    rfl
  · intro t ht
    rw [hq] at ht
    cases ht
  · rw [hq]
    exact .nil

/-! ### Waking -/

/-- A thread that nothing but its own call concerns. -/
theorem Inv.setPlace (h : Inv s) (hrun : s.blocked t = false) (hold : ∀ c, s.place t ≠ .waiting c) {p : Place}
    (hnew : ∀ c, p ≠ .waiting c) : Inv (setPlace t p s) where
  bytes := h.bytes
  recorded slot t' := by
    by_cases ht : t' = t
    · subst ht
      have hnot : s.q.waiter slot ≠ some t' := by
        intro hw
        have hb := ((h.recorded slot t').mp hw).1
        rw [hrun] at hb
        cases hb
      simp [Intq.setPlace, hnot, hrun]
    · simpa [Intq.setPlace, Function.update_of_ne ht] using h.recorded slot t'
  holder t' := by
    by_cases ht : t' = t
    · subst ht
      have hnot := mt (h.holder t').mp (by simpa using hold)
      simpa [Intq.setPlace, hnew] using hnot
    · simpa [Intq.setPlace, Function.update_of_ne ht] using h.holder t'
  value := h.value
  queued t' ht' := by
    have hne : t' ≠ t := by
      intro he
      have hb := (h.queued t' ht').1
      rw [he, hrun] at hb
      cases hb
    simpa [Intq.setPlace, Function.update_of_ne hne] using h.queued t' ht'
  distinct := h.distinct

/-- A blocked thread that is unblocked leaves the slot it is recorded in. -/
theorem Inv.awake (h : Inv s) (hw : s.q.waiter slot = some t) :
    Inv (setWaiter slot none { s with blocked := Function.update s.blocked t false }) := by
  obtain ⟨hb, c, hplace, hneeds⟩ := (h.recorded slot t).mp hw
  refine ⟨h.bytes, ?_, h.holder, h.value, ?_, h.distinct⟩
  · intro slot' t'
    by_cases ht : t' = t
    · -- `t` sleeps no longer, and it was recorded in this slot only
      subst ht
      have hnot : Function.update s.q.waiter slot none slot' ≠ some t' := by
        intro hw'
        by_cases hs : slot' = slot
        · grind
        · rw [Function.update_of_ne hs] at hw'
          obtain ⟨-, c', hplace', hneeds'⟩ := (h.recorded slot' t').mp hw'
          grind
      simp [setWaiter, hnot]
    · have hold := h.recorded slot' t'
      by_cases hs : slot' = slot
      · subst hs
        rw [hw, Option.some.injEq] at hold
        simpa [setWaiter, Function.update_of_ne ht, Ne.symm ht] using hold
      · simpa [setWaiter, Function.update_of_ne ht, Function.update_of_ne hs] using hold
  · intro t' ht'
    obtain ⟨hb', c', hplace'⟩ := h.queued t' ht'
    have hne : t' ≠ t := by
      grind
    exact ⟨by simpa [setWaiter, Function.update_of_ne hne] using hb', c', hplace'⟩

theorem signal_sound (h : Inv s) (hslot : holds s.q slot = true) : Sound (signal slot s) := by
  rw [signal, check, if_pos hslot, ok_bind]
  cases hw : s.q.waiter slot with
  | none => exact h
  | some t =>
    have hb := ((h.recorded slot t).mp hw).1
    simp only [threadUnblock, check, hb, if_true, ok_bind]
    exact h.awake hw

/-! ### Bytes -/

theorem finish_sound (h : Inv s) (hneeds : holds s.q c.needs = true) : Sound (finish c s) := by
  obtain ⟨xs, hring, hgiven⟩ := h.bytes
  cases c with
  | getc =>
    rw [finish, if_pos hring.tail_lt]
    have hne : xs ≠ [] := by
      intro hnil
      simp [Call.needs, holds, intqEmpty, hring.head_eq_tail_iff.mpr hnil] at hneeds
    obtain ⟨x, xs, rfl⟩ := List.exists_cons_of_ne_nil hne
    obtain ⟨hx, hring'⟩ := hring.pop
    apply signal_sound
    · refine ⟨⟨xs, hring', ?_⟩, h.recorded, h.holder, h.value, h.queued, h.distinct⟩
      simp [hgiven, hx]
    · have hfull := mt hring'.full_iff.mp (by have := hring.length_lt; rw [List.length_cons] at this; omega)
      show (!decide (Ring.next bufsize s.q.head = Ring.next bufsize s.q.tail)) = true
      rw [decide_eq_false hfull, Bool.not_false]
  | putc byte =>
    rw [finish, if_pos hring.head_lt]
    have hroom : next s.q.head ≠ s.q.tail := by simpa [Call.needs, holds, intqFull] using hneeds
    have hring' := hring.push hroom byte
    apply signal_sound
    · refine ⟨⟨xs ++ [byte], hring', ?_⟩, h.recorded, h.holder, h.value, h.queued, h.distinct⟩
      simp [hgiven]
    · have hempty := mt hring'.head_eq_tail_iff.mp (by simp)
      show (!decide (Ring.next bufsize s.q.head = s.q.tail)) = true
      rw [decide_eq_false hempty, Bool.not_false]

/-! ### The lock -/

/-- A thread that sleeps for the lock. -/
theorem Inv.sleep (h : Inv s) (hrun : s.blocked t = false) (hold : ∀ c, s.place t ≠ .waiting c) :
    Inv (Intq.setPlace t (.locking c)
      (threadBlock t (setLock { s.q.lock with waiters := s.q.lock.waiters ++ [t] } s))) := by
  have hplaced := h.setPlace hrun hold (p := .locking c) (by simp)
  have hnew : t ∉ s.q.lock.waiters := by
    intro ht
    have hb := (h.queued t ht).1
    rw [hrun] at hb
    cases hb
  refine ⟨h.bytes, ?_, hplaced.holder, h.value, ?_, ?_⟩
  · intro slot t'
    have hrec := hplaced.recorded slot t'
    by_cases ht : t' = t
    · subst ht
      simpa [Intq.setPlace, threadBlock, setLock, hrun] using hrec
    · simpa [Intq.setPlace, threadBlock, setLock, Function.update_of_ne ht] using hrec
  · intro t' ht'
    by_cases ht : t' = t
    · subst ht
      exact ⟨by simp [Intq.setPlace, threadBlock, setLock], c, by simp [Intq.setPlace]⟩
    · have hmem : t' ∈ s.q.lock.waiters := by simpa [Intq.setPlace, threadBlock, setLock, ht] using ht'
      simpa [Intq.setPlace, threadBlock, setLock, Function.update_of_ne ht] using h.queued t' hmem
  · show (s.q.lock.waiters ++ [t]).Nodup
    rw [← List.concat_eq_append]
    exact h.distinct.concat hnew

/-- A thread that takes the lock while its condition is not met, and sleeps in `wait`. -/
theorem Inv.wait (h : Inv s) (hrun : s.blocked t = false) (hvalue : s.q.lock.value ≠ 0) :
    Inv (Intq.setPlace t (.waiting c) (threadBlock t (setWaiter c.needs (some t)
      (setLock { s.q.lock with value := s.q.lock.value - 1, holder := some t } s)))) := by
  have hholder : s.q.lock.holder = none := by
    by_contra hne
    exact hvalue (by rw [h.value, if_neg hne])
  have hone : s.q.lock.value = 1 := by rw [h.value, if_pos hholder]
  have hnobody : ∀ t' c', s.place t' ≠ .waiting c' := by
    intro t' c' hp
    have hheld := (h.holder t').mpr ⟨c', hp⟩
    rw [hholder] at hheld
    cases hheld
  have hempty : ∀ slot, s.q.waiter slot = none := by
    intro slot
    by_contra hne
    obtain ⟨t', ht'⟩ := Option.ne_none_iff_exists'.mp hne
    obtain ⟨-, c', hp, -⟩ := (h.recorded slot t').mp ht'
    exact hnobody t' c' hp
  refine ⟨h.bytes, ?_, ?_, ?_, ?_, h.distinct⟩
  · intro slot t'
    by_cases ht : t' = t
    · subst ht
      by_cases hs : slot = c.needs
      · simp [Intq.setPlace, threadBlock, setWaiter, setLock, hs]
      · simp [Intq.setPlace, threadBlock, setWaiter, setLock, hs, hempty, Ne.symm hs]
    · by_cases hs : slot = c.needs
      · simp [Intq.setPlace, threadBlock, setWaiter, setLock, hs, ht, Ne.symm ht, hnobody]
      · simp [Intq.setPlace, threadBlock, setWaiter, setLock, hs, ht, hempty, hnobody]
  · intro t'
    by_cases ht : t' = t
    · simp [Intq.setPlace, threadBlock, setWaiter, setLock, ht]
    · simp [Intq.setPlace, threadBlock, setWaiter, setLock, ht, Ne.symm ht, hnobody]
  · show s.q.lock.value - 1 = if some t = none then 1 else 0
    rw [hone, if_neg (by simp)]
  · intro t' ht'
    obtain ⟨hb, c', hp⟩ := h.queued t' ht'
    have hne : t' ≠ t := by
      grind
    simp [Intq.setPlace, threadBlock, setWaiter, setLock, hne, hb, hp]

theorem lockLoop_sound (h : Inv s) (hrun : s.blocked t = false) (hold : ∀ c, s.place t ≠ .waiting c)
    (hcond : s.q.lock.value ≠ 0 → holds s.q c.needs = false) : Sound (lockLoop t c s) := by
  unfold lockLoop
  split
  · exact h.sleep hrun hold
  · rename_i hvalue
    have hcheck : (!holds s.q c.needs) = true := by rw [hcond hvalue, Bool.not_false]
    rw [Intq.wait, check]
    exact (if_pos hcheck).symm ▸ h.wait hrun hvalue

theorem loop_sound (h : Inv s) (hrun : s.blocked t = false) (hold : ∀ c, s.place t ≠ .waiting c) :
    Sound (loop t c s) := by
  unfold loop
  split
  · rename_i hneeds
    exact finish_sound (h.setPlace hrun hold (by simp)) hneeds
  · rename_i hneeds
    have hholder : s.q.lock.holder ≠ some t := by
      intro hheld
      obtain ⟨c', hp⟩ := (h.holder t).mp hheld
      exact hold c' hp
    rw [lockAcquire, check, if_pos (by simpa using hholder), ok_bind]
    exact lockLoop_sound h hrun hold fun _ => Bool.eq_false_iff.mpr hneeds

/-- The thread that held the lock, after `lock_release`. -/
theorem Inv.released (h : Inv s) (hrun : s.blocked t = false) (hplace : s.place t = .waiting c)
    {waiters : List Tid} {blocked : Tid → Bool} (hsub : waiters.Sublist s.q.lock.waiters)
    (hblocked : ∀ t' ∈ waiters, blocked t' = true) :
    Inv (Intq.setPlace t (.released c)
      (setLock ⟨none, s.q.lock.value + 1, waiters⟩ { s with blocked := blocked })) := by
  have hholder := (h.holder t).mpr ⟨c, hplace⟩
  have hvalue : s.q.lock.value = 0 := by rw [h.value, hholder, if_neg (by simp)]
  have honly : ∀ t' c', s.place t' = .waiting c' → t' = t := by
    intro t' c' hp
    have hheld := (h.holder t').mpr ⟨c', hp⟩
    grind
  have hnobody : ∀ t' c', Function.update s.place t (.released c) t' ≠ .waiting c' := by
    grind
  have hempty : ∀ slot, s.q.waiter slot = none := by
    intro slot
    by_contra hne
    obtain ⟨t', ht'⟩ := Option.ne_none_iff_exists'.mp hne
    obtain ⟨hb, c', hp, -⟩ := (h.recorded slot t').mp ht'
    rw [honly t' c' hp, hrun] at hb
    cases hb
  refine ⟨h.bytes, ?_, ?_, ?_, ?_, hsub.nodup h.distinct⟩
  · intro slot t'
    simp [Intq.setPlace, setLock, hempty, hnobody]
  · intro t'
    simp [Intq.setPlace, setLock, hnobody]
  · show s.q.lock.value + 1 = if (none : Option Tid) = none then 1 else 0
    rw [hvalue, if_pos rfl]
  · intro t' ht'
    obtain ⟨hb, c', hp⟩ := h.queued t' (hsub.subset ht')
    have hne : t' ≠ t := by
      grind
    exact ⟨hblocked t' ht', c', by simpa [Intq.setPlace, setLock, hne] using hp⟩

theorem leaveWait_sound (h : Inv s) (hrun : s.blocked t = false) (hplace : s.place t = .waiting c) :
    Sound (leaveWait t woken c s) := by
  have hholder := (h.holder t).mpr ⟨c, hplace⟩
  rw [leaveWait, lockRelease, check, if_pos (by simpa using hholder), ok_bind]
  by_cases hnil : s.q.lock.waiters = []
  · rw [if_pos hnil]
    exact h.released hrun hplace (List.nil_sublist _) (by simp)
  rw [if_neg hnil]
  by_cases hmem : woken ∈ s.q.lock.waiters
  · rw [if_pos hmem]
    have hb := (h.queued woken hmem).1
    simp only [threadUnblock, check, hb, if_true, ok_bind]
    apply h.released hrun hplace List.erase_sublist
    intro t' ht'
    obtain ⟨hne, ht'⟩ := (h.distinct.mem_erase_iff).mp ht'
    rw [Function.update_of_ne hne]
    exact (h.queued t' ht').1
  · rw [if_neg hmem]
    rfl

/-! ### Runs -/

/-- What a thread that slept for the lock waits for has not come about when it gets the lock. -/
def Unchanged (a : Act) (s : State) : Prop :=
  ∀ t woken c, a = .resume t woken → s.place t = .locking c → s.q.lock.value ≠ 0 → holds s.q c.needs = false

theorem step_sound {a : Act} (h : Inv s) (hallowed : allowed a s) (hsame : Unchanged a s) : Sound (step a s) := by
  cases a with
  | call t c =>
    rw [step]
    split
    · rename_i hready
      exact loop_sound h hready.1 (by simp [hready.2])
    · rfl
  | resume t woken =>
    rw [step]
    cases hb : s.blocked t with
    | true => rfl
    | false =>
      rw [if_neg Bool.false_ne_true]
      cases hp : s.place t with
      | outside => rfl
      | locking c => exact lockLoop_sound h hb (by simp [hp]) (hsame t woken c rfl hp)
      | waiting c => exact leaveWait_sound h hb hp
      | released c => exact loop_sound h hb (by simp [hp])
  | interrupt c =>
    have hneeds : holds s.q c.needs = true := hallowed
    rw [step, if_pos hneeds]
    exact finish_sound h hneeds

/-- A thread that slept for the lock and finds its condition met stops the system, once it is ready. -/
theorem step_changed {a : Act} (hsame : ¬Unchanged a s) : step a s = .error .notReady ∨ step a s = .error .assert := by
  unfold Unchanged at hsame
  push Not at hsame
  obtain ⟨t, woken, c, rfl, hplace, hvalue, hneeds⟩ := hsame
  rw [step]
  split
  · exact .inl rfl
  · right
    have hcheck : ¬(!holds s.q c.needs) = true := by simpa using hneeds
    rw [hplace]
    simp only [lockLoop, if_neg hvalue, wait, check]
    exact congrArg (· >>= _) (if_neg hcheck)

theorem Inv.step {a : Act} (h : Inv s) (hallowed : allowed a s) (hx : step a s = .ok s') : Inv s' := by
  by_cases hsame : Unchanged a s
  · have hsound := step_sound h hallowed hsame
    rwa [hx] at hsound
  · rcases step_changed hsame with he | he <;> cases he.symm.trans hx

/-- In every run of calls by threads and handlers, bytes come out in the order they went in, the positions stay in
the buffer with one cell free, and the recorded waiters are exactly the threads that sleep in `wait`. No
assertion fails, unless a thread that slept for the lock finds that what it waits for is there, and then one does. -/
theorem intq_runs (hr : Reach Intq.step allowed Start s) :
    s.taken <+: s.given ∧ s.given.length ≤ s.taken.length + (bufsize - 1) ∧
    s.q.head < bufsize ∧ s.q.tail < bufsize ∧
    (∀ slot t, s.q.waiter slot = some t ↔ s.blocked t = true ∧ ∃ c, s.place t = .waiting c ∧ c.needs = slot) ∧
    ∀ a, allowed a s →
      (Unchanged a s → Intq.step a s ≠ .error .assert ∧ Intq.step a s ≠ .error .bounds) ∧
      (¬ Unchanged a s → Intq.step a s = .error .notReady ∨ Intq.step a s = .error .assert) := by
  have h : Inv s := hr.invariant (fun _ => Inv.start) fun _ _ _ h ha hx => h.step ha hx
  obtain ⟨xs, hring, hgiven⟩ := h.bytes
  refine ⟨⟨xs, hgiven.symm⟩, ?_, hring.head_lt, hring.tail_lt, h.recorded, ?_⟩
  · have hlen := hring.length_lt
    rw [hgiven, List.length_append]
    omega
  · intro a hallowed
    refine ⟨fun hsame => (step_sound h hallowed hsame).not_stopped, step_changed⟩

/-- Threads that are ready, and an empty queue. -/
def ready : State := ⟨intqInit fun _ => 0, fun _ => false, fun _ => .outside, [], []⟩

instance (a : Act) (s : State) : Decidable (allowed a s) :=
  match a with
  | .interrupt c => inferInstanceAs (Decidable (holds s.q c.needs = true))
  | .call _ _ => isTrue trivial
  | .resume _ _ => isTrue trivial

/-- A thread waits for a byte, and takes the one that a handler puts in. -/
theorem intq_runs_one : ∃ s, Reach Intq.step allowed Start s ∧ s.taken = [7] ∧ s.taken <+: s.given := by
  obtain ⟨s, hr, htaken⟩ : ∃ s, Reach Intq.step allowed Start s ∧ s.taken = [7] :=
    Reach.of_after (s := ready) ⟨⟨_, rfl⟩, fun _ => rfl, rfl, rfl⟩
      [.call 1 .getc, .interrupt (.putc 7), .resume 1 0, .resume 1 0] (by decide)
  exact ⟨s, hr, htaken, (intq_runs hr).1⟩

/-! ### One thread at a time -/

/-- A thread calls only while no other is in a call. -/
def Alone (a : Act) (s : State) : Prop := ∀ t c, a = .call t c → ∀ t', t' ≠ t → s.place t' = .outside

/-- At most one thread is in a call, and it does not sleep for the lock. -/
structure Single (s : State) : Prop extends Inv s where
  free : ∀ t c, s.place t ≠ .locking c
  one : ∀ t t', s.place t ≠ .outside → s.place t' ≠ .outside → t' = t

theorem Single.move (h : Single s) (hinv : Inv s') {p : Place} (hplace : s'.place = Function.update s.place t p)
    (hp : ∀ c, p ≠ .locking c) (hothers : ∀ t', t' ≠ t → s.place t' = .outside) : Single s' := by
  refine ⟨hinv, ?_, ?_⟩
  · intro t' c
    rw [hplace]
    by_cases ht : t' = t
    · rw [ht, Function.update_self]
      exact hp c
    · rw [Function.update_of_ne ht]
      exact h.free t' c
  · have honly : ∀ t', s'.place t' ≠ .outside → t' = t := by
      intro t' hin
      by_contra ht
      rw [hplace, Function.update_of_ne ht] at hin
      exact hin (hothers t' ht)
    intro t1 t2 h1 h2
    rw [honly t1 h1, honly t2 h2]

theorem signal_place (hx : signal slot s = .ok s') : s'.place = s.place := by
  obtain ⟨_, -, hx⟩ := bind_ok.mp hx
  split at hx
  · obtain ⟨s1, h1, hx⟩ := bind_ok.mp hx
    obtain ⟨_, -, h1⟩ := bind_ok.mp h1
    cases h1
    cases hx
    rfl
  · cases hx
    rfl

theorem finish_place (hx : finish c s = .ok s') : s'.place = s.place := by
  unfold finish at hx
  split at hx
  all_goals
    split at hx
    · have hplace := signal_place hx
      exact hplace
    · cases hx

theorem lockRelease_place {woken : Tid} (hx : lockRelease t woken s = .ok s') : s'.place = s.place := by
  obtain ⟨_, -, hx⟩ := bind_ok.mp hx
  split at hx
  · cases hx
    rfl
  · split at hx
    · obtain ⟨s1, h1, hx⟩ := bind_ok.mp hx
      obtain ⟨_, -, h1⟩ := bind_ok.mp h1
      cases h1
      cases hx
      rfl
    · cases hx

/-- Without another thread the lock is free. -/
theorem Single.loop (h : Single s) (ht : ∀ c, s.place t ≠ .waiting c) (hothers : ∀ t', t' ≠ t → s.place t' = .outside)
    (hinv : Inv s') (hx : Intq.loop t c s = .ok s') : Single s' := by
  unfold Intq.loop at hx
  split at hx
  · exact h.move hinv (finish_place hx) (by simp) hothers
  · obtain ⟨_, -, hx⟩ := bind_ok.mp hx
    have hholder : s.q.lock.holder = none := by
      by_contra hne
      obtain ⟨t', ht'⟩ := Option.ne_none_iff_exists'.mp hne
      obtain ⟨c', hp⟩ := (h.holder t').mp ht'
      by_cases htt : t' = t
      · exact ht c' (htt ▸ hp)
      · rw [hothers t' htt] at hp
        cases hp
    have hvalue : s.q.lock.value ≠ 0 := by simp [h.value, hholder]
    rw [lockLoop, if_neg hvalue] at hx
    obtain ⟨_, -, hx⟩ := bind_ok.mp hx
    cases hx
    exact h.move hinv rfl (by simp) hothers

theorem Single.step {a : Act} (h : Single s) (hallowed : allowed a s) (halone : Alone a s)
    (hx : Intq.step a s = .ok s') : Single s' := by
  have hinv := h.toInv.step hallowed hx
  cases a with
  | call t c =>
    rw [Intq.step] at hx
    split at hx
    · rename_i hready
      exact h.loop (by simp [hready.2]) (halone t c rfl) hinv hx
    · cases hx
  | resume t woken =>
    have hothers : s.place t ≠ .outside → ∀ t', t' ≠ t → s.place t' = .outside := by
      intro ht t' hne
      by_contra hin
      exact hne (h.one t t' ht hin)
    rw [Intq.step] at hx
    split at hx
    · cases hx
    · cases hp : s.place t with
      | outside =>
        rw [hp] at hx
        cases hx
      | locking c => exact absurd hp (h.free t c)
      | waiting c =>
        rw [hp] at hx hothers
        obtain ⟨s1, h1, hx⟩ := bind_ok.mp hx
        have hsame := lockRelease_place h1
        cases hx
        refine h.move hinv (p := .released c) ?_ (by simp) (hothers (by simp))
        rw [Intq.setPlace, hsame]
      | released c =>
        rw [hp] at hx hothers
        exact h.loop (by simp [hp]) (hothers (by simp)) hinv hx
  | interrupt c =>
    rw [Intq.step] at hx
    split at hx
    · have hplace := finish_place hx
      exact ⟨hinv, by rw [hplace]; exact h.free, by rw [hplace]; exact h.one⟩
    · cases hx

/-- While at most one thread at a time is in the queue, whatever the handlers do, no assertion fails. -/
theorem one_caller_goes_on (hr : Reach Intq.step (fun a s => allowed a s ∧ Alone a s) Start s) {a : Act}
    (hallowed : allowed a s) : Intq.step a s ≠ .error .assert ∧ Intq.step a s ≠ .error .bounds := by
  have h : Single s := by
    refine hr.invariant (fun s hs => ?_) fun _ _ _ h ha hx => h.step ha.1 ha.2 hx
    exact ⟨.start hs, fun t c => by simp [hs.2.1], fun t t' ht => absurd (hs.2.1 t) ht⟩
  refine (step_sound h.toInv hallowed ?_).not_stopped
  intro t woken c _ hp
  exact absurd hp (h.free t c)

def stops (a : Act) (s : State) : Bool :=
  match Intq.step a s with
  | .error .assert => true
  | _ => false

theorem stops_iff {a : Act} : stops a s = true ↔ Intq.step a s = .error .assert := by
  unfold stops
  split <;> simp_all

/-- Two threads wait for a byte, the second one for the lock; two bytes come before the first has released it. -/
theorem second_reader_stops : ∃ s a,
    Reach Intq.step allowed Start s ∧ allowed a s ∧ Intq.step a s = .error .assert := by
  obtain ⟨s, hr, hstops⟩ : ∃ s, Reach Intq.step allowed Start s ∧ stops (.resume 2 0) s = true :=
    Reach.of_after (s := ready) ⟨⟨_, rfl⟩, fun _ => rfl, rfl, rfl⟩
      [.call 1 .getc, .call 2 .getc, .interrupt (.putc 7), .interrupt (.putc 8), .resume 1 2, .resume 1 0]
      (by decide)
  exact ⟨s, .resume 2 0, hr, trivial, stops_iff.mp hstops⟩

end Pintos.Intq
