import Pintos.Threads.Fairness

/-! Priority donation along whole runs (`lock_acquire`, `lock_release` and `thread_set_priority`).

Between the release of a lock and the moment the woken thread takes it the lock has no holder:
what its waiters receive in that time goes no further, and if another thread takes it first,
the woken thread goes back to wait and donates nothing. `Fair` is kept if the thread that takes
a lock is no lower than those that wait for it and these are all asleep, and if no switch falls
into the walk of `thread_set_priority`. -/
namespace Pintos.Threads
open Kernel Outcome Intrusive Donation

section
variable {s s' s1 : State} {f : Frame} {fs rest : List Frame} {l : LockId} {t u : Tid} {p : Int}

/-! ### Stacks of the effects -/

def NoWalk (fs : List Frame) : Prop := ∀ f ∈ fs, f.isCalculate = false

theorem noWalk_nil : NoWalk [] := by
  intro f hf
  cases hf

theorem noWalk_cons : NoWalk (f :: fs) ↔ f.isCalculate = false ∧ NoWalk fs := List.forall_mem_cons

theorem NoWalk.turns (hn : NoWalk fs) : Turns s s' fs := by
  refine ⟨fun f hf => hn f (List.mem_of_mem_tail hf), ?_⟩
  intro torn htop
  have hf := hn _ (List.mem_of_head? htop)
  cases hf

theorem calls_noWalk (h : Calls fs) (hb : NoWalk fs.tail) : NoWalk fs := by
  rcases h with rfl | ⟨c, rest, rfl⟩
  · exact noWalk_nil
  · exact noWalk_cons.mpr ⟨rfl, hb⟩

theorem isCalculate_of_light (h : f.light = true) : f.isCalculate = false :=
  isCalculate_of_settling (settling_of_light h)

theorem Quiet.noWalk {fs' : List Frame} (h : Quiet fs fs') (hb : NoWalk fs.tail) : NoWalk fs' := by
  cases h with
  | same => exact noWalk_nil
  | push hl _ hc => exact noWalk_cons.mpr ⟨isCalculate_of_light hl, calls_noWalk hc hb⟩
  | pop _ => exact hb
  | swap _ hl _ => exact noWalk_cons.mpr ⟨isCalculate_of_light hl, hb⟩

theorem Quiet.settled {fs' : List Frame} (h : Quiet fs fs') (hs : Settled fs') : Settled fs := by
  cases h with
  | same => exact hs
  | push _ _ _ => exact (settled_cons.mp hs).2
  | pop hl => exact settled_cons.mpr ⟨settling_of_light hl, hs⟩
  | swap hl _ _ => exact settled_cons.mpr ⟨settling_of_light hl, (settled_cons.mp hs).2⟩

theorem Quiet.acquiring {fs' : List Frame} (h : Quiet fs fs') (hb : Unparked fs.tail) :
    acquiring fs = none ∧ acquiring fs' = none := by
  cases h with
  | same => exact ⟨rfl, rfl⟩
  | push hl _ hc => exact ⟨acquiring_of_awake hc.awake, acquires_of_light hl⟩
  | pop hl => exact ⟨acquires_of_light hl, acquiring_of_awake hb.awake⟩
  | swap hl hl' _ => exact ⟨acquires_of_light hl, acquires_of_light hl'⟩

/-- A function is called on a stack, and has `rest` below it. -/
theorem Starts.turns {before : List Frame} (h : Starts f before rest) (hf : f.settling = false) (hacq : f.acquires = none)
    (hb : NoWalk before.tail) :
    NoWalk rest ∧ (Settled rest → Settled before) ∧ acquiring before = none := by
  rcases h with ⟨rfl, rfl⟩ | rfl
  · exact ⟨noWalk_nil, id, rfl⟩
  · exact ⟨hb, fun hs => settled_cons.mpr ⟨hf, hs⟩, hacq⟩

theorem StartsAcquire.turns {before : List Frame} (h : StartsAcquire l before rest) (hb : NoWalk before.tail) :
    NoWalk rest ∧ (Settled rest → Settled before) ∧ acquiring before = none := by
  rcases h with h | ⟨rfl, p, -, rfl⟩
  · exact h.turns rfl rfl hb
  · exact ⟨noWalk_cons.mpr ⟨rfl, noWalk_cons.mpr ⟨rfl, noWalk_nil⟩⟩, fun _ => settled_nil, rfl⟩

theorem Settles.turns (h : Settles rest fs) (hb : NoWalk rest) (hu : Unparked rest) :
    NoWalk fs ∧ Settled fs ∧ acquiring fs = none := by
  have hs := settled_of_unparked hu hb
  rcases h with rfl | ⟨on, rfl⟩
  · exact ⟨hb, hs, acquiring_of_awake hu.awake⟩
  · exact ⟨noWalk_cons.mpr ⟨rfl, hb⟩, settled_cons.mpr ⟨rfl, hs⟩, rfl⟩

theorem tear_noWalk (h : NoWalk fs) : NoWalk (fs.modifyHead Frame.tear) := by
  cases fs with
  | nil => exact h
  | cons f fs =>
    obtain ⟨hf, hfs⟩ := noWalk_cons.mp h
    refine noWalk_cons.mpr ⟨?_, hfs⟩
    cases f <;> first | rfl | cases hf

theorem settled_of_tear (h : Settled (fs.modifyHead Frame.tear)) : Settled fs := by
  cases fs with
  | nil => exact h
  | cons f fs =>
    obtain ⟨hf, hfs⟩ := settled_cons.mp h
    refine settled_cons.mpr ⟨?_, hfs⟩
    cases f <;> first | rfl | cases hf

/-- The handler of an interrupt, which does not switch in a walk. -/
theorem Interrupted.turns {switch : Prop} (h : Interrupted switch s s' fs)
    (hsw : switch → ∀ torn, s.frames.head? ≠ some (.calculate torn)) (hb : NoWalk s.frames.tail)
    (hwalk : ∀ torn, s.frames.head? = some (.calculate torn) → torn = false) :
    Turns s s' fs ∧ (Settled fs → Settled s.frames) ∧ acquiring fs = acquiring s.frames := by
  obtain ⟨ha, ⟨rfl, hcur⟩ | ⟨hs, rfl⟩⟩ := h
  · exact ⟨⟨hb, fun torn htop => ⟨hcur, hwalk torn htop⟩⟩, id, rfl⟩
  · have hn : NoWalk s.frames := by
      cases hf : s.frames with
      | nil => exact noWalk_nil
      | cons f rest =>
        rw [hf] at hb hsw
        refine noWalk_cons.mpr ⟨?_, hb⟩
        cases f with
        | calculate torn => exact absurd rfl (hsw hs torn)
        | _ => rfl
    refine ⟨NoWalk.turns (noWalk_cons.mpr ⟨rfl, tear_noWalk hn⟩), ?_, (acquiring_of_awake ha).symm⟩
    intro hset
    exact settled_of_tear (settled_cons.mp hset).2

/-! ### Every act -/

/-- A lock whose semaphore is at zero has a holder, if nobody is about to become it. -/
theorem Sound.holder_of_zero {init : SemaId → Nat} (hs : Sound init s) (hv : (s.sema (.lock l)).value = 0)
    (hz : total (claims l) s = 0) : s.holder l ≠ none := by
  intro hx
  have hone := hs.single l
  rw [hv, hz, hx] at hone
  cases hone

/-- A lock is taken only by a thread that is no lower than those that wait for it, which are all
asleep, and no switch falls into the walk of `thread_set_priority`. -/
structure Heeds (s : State) (d : Deed) : Prop where
  acquire : ∀ l, d = .acquire l → (s.sema (.lock l)).value ≠ 0 → ∀ t ∈ s.allList, t ≠ s.current →
    (s.thread t).waitingLock = some l → t ∈ (s.sema (.lock l)).waiters ∧ s.eff t ≤ s.eff s.current
  tick : d = .tick → timeSlice ≤ s.threadTicks + 1 → ∀ torn, s.frames.head? ≠ some (.calculate torn)
  device : ∀ n, d = .device n → yields (upped (.user n) s) = true → ∀ torn, s.frames.head? ≠ some (.calculate torn)

/-- The threads are as they were. -/
theorem Goes.ledger_from (hg : Goes fs s1 s') (ht : s1.thread = s.thread) (hal : s1.allList = s.allList)
    (hh : s1.holder = s.holder) (hq : ∀ l, (s1.sema (.lock l)).waiters = (s.sema (.lock l)).waiters) : Ledger s s' := by
  have hl : Ledger s s1 := ⟨hal, hh, fun t => by rw [ht], by unfold State.own; rw [ht], by unfold State.eff; rw [ht], hq⟩
  exact hl.trans hg.ledger

theorem ledger_setFrames (s : State) (fs : List Frame) : Ledger s (s.setFrames fs) where
  allList := rfl
  holder := rfl
  waiting := (moves_setFrames s fs).waitingLock
  own := funext (moves_setFrames s fs).priority
  eff := funext (moves_setFrames s fs).eff
  waiters := fun _ => rfl

theorem upped_thread (k : SemaId) (s : State) (t : Tid) :
    ((upped k s).thread t).waitingLock = (s.thread t).waitingLock ∧
      ((upped k s).thread t).priority = (s.thread t).priority ∧
      ((upped k s).thread t).effectivePriority = (s.thread t).effectivePriority := by
  simp only [upped]
  split <;> exact ⟨rfl, rfl, rfl⟩

theorem ledger_upped (s : State) {k : SemaId} (hk : ∀ l, k ≠ .lock l) : Ledger s (upped k s) where
  allList := rfl
  holder := rfl
  waiting := fun t => (upped_thread k s t).1
  own := funext fun t => (upped_thread k s t).2.1
  eff := funext fun t => (upped_thread k s t).2.2
  waiters := fun l => by simp [upped, Function.update_of_ne (Ne.symm (hk l))]

/-- What a release does to the threads. -/
theorem released_thread (l : LockId) (s : State) (rest : List Frame) (t : Tid) :
    ((released l (s.setFrames rest)).thread t).waitingLock = (s.thread t).waitingLock ∧
      (released l (s.setFrames rest)).own t = s.own t ∧ (released l (s.setFrames rest)).eff t = s.eff t := by
  have hl := ledger_setFrames s rest
  obtain ⟨hw, hown, heff⟩ := upped_thread (.lock l) (((s.setFrames rest).setIntr false).setHolder l none) t
  exact ⟨hw.trans (hl.waiting t), hown.trans (congrFun hl.own t), heff.trans (congrFun hl.eff t)⟩

theorem released_waiters {l l' : LockId} (hl : l' ≠ l) (s : State) (rest : List Frame) :
    ((released l (s.setFrames rest)).sema (.lock l')).waiters = (s.sema (.lock l')).waiters := by
  simp [released, upped, State.setHolder, State.setIntr, State.setFrames, State.mapThread, hl]

/-- What the start of `lock_acquire` does to the threads. -/
theorem wanting_thread (l : LockId) (s : State) (rest : List Frame) :
    (∀ t, t ≠ s.current → ((wanting l (s.setFrames rest)).thread t).waitingLock = (s.thread t).waitingLock) ∧
      ((wanting l (s.setFrames rest)).thread s.current).waitingLock = some l ∧
      (wanting l (s.setFrames rest)).own = s.own := by
  refine ⟨?_, ?_, ?_⟩
  · intro t htc
    simp [wanting, State.mapThread, State.setIntr, State.setFrames, htc]
  · simp [wanting, State.mapThread, State.setIntr, State.setFrames]
  · funext t
    by_cases htc : t = s.current <;> simp [State.own, wanting, State.mapThread, State.setIntr, State.setFrames, htc]

/-- What the end of `lock_acquire` does to the threads. -/
theorem locked_thread (l : LockId) (links : Links Node) (s : State) :
    (∀ t, t ≠ s.current → ((locked l links s).thread t).waitingLock = (s.thread t).waitingLock) ∧
      ((locked l links s).thread s.current).waitingLock = none ∧ (locked l links s).own = s.own ∧
      (locked l links s).eff = s.eff := by
  refine ⟨?_, ?_, ?_, ?_⟩
  · intro t htc
    simp [locked, State.setHolder, State.mapThread, htc]
  · simp [locked, State.setHolder, State.mapThread]
  · funext t
    by_cases htc : t = s.current <;> simp [State.own, locked, State.setHolder, State.mapThread, htc]
  · funext t
    by_cases htc : t = s.current <;> simp [State.eff, locked, State.setHolder, State.mapThread, htc]

theorem setEff_thread (s : State) (u : Tid) (p : Int) :
    (∀ t, ((s.setEff u p).thread t).waitingLock = (s.thread t).waitingLock) ∧ ∀ t, (s.setEff u p).own t = s.own t := by
  constructor
  · intro t
    by_cases htu : t = u <;> simp [State.setEff, State.mapThread, htu]
  · intro t
    by_cases htu : t = u <;> simp [State.own, State.setEff, State.mapThread, htu]

theorem semaTake_waiters (k k' : SemaId) (s : State) : ((semaTake k s).sema k').waiters = (s.sema k').waiters := by
  by_cases hk : k' = k <;> simp [semaTake, State.mapSema, State.record, hk]

theorem ledger_awoken (s : State) : Ledger s (awoken (ticked s)) := by
  have hthread : ∀ t, ((awoken (ticked s)).thread t).waitingLock = (s.thread t).waitingLock ∧
      ((awoken (ticked s)).thread t).priority = (s.thread t).priority ∧
      ((awoken (ticked s)).thread t).effectivePriority = (s.thread t).effectivePriority := by
    intro t
    simp only [awoken, popped]
    split <;> exact ⟨rfl, rfl, rfl⟩
  exact ⟨rfl, rfl, fun t => (hthread t).1, funext fun t => (hthread t).2.1, funext fun t => (hthread t).2.2,
    fun _ => rfl⟩

theorem Effect.fair {d : Deed} {locks locks' : Tid → List LockId} {init : SemaId → Nat} (he : Effect s d s')
    (h : Fair s) (hold : Holding s locks) (hold' : Holding s' locks') (hs : Sound init s) (ht : Tidy s)
    (hm : Masked s) (hmind : Minds s d) (hheed : Heeds s d) : Fair s' := by
  have hb : Unparked s.frames.tail := hm.below _ ht.live
  have hn : NoWalk s.frames.tail := h.below _ ht.live
  have hwalk : ∀ torn, s.frames.head? = some (.calculate torn) → torn = false :=
    fun torn htop => (h.walks _ ht.live torn htop).2
  cases id he with
  | quiet hq hg =>
    obtain ⟨ha, ha'⟩ := hq.acquiring hb
    exact h.still he hg.moves.frames_current (hq.noWalk hn).turns hq.settled ht.live hg.ledger (ha'.trans ha.symm)
  | @setPriority _ _ p hf hcur hg =>
    have hl := hg.ledger
    have hthread : ∀ t, ((s.mapThread s.current fun x => {x with priority := p}).thread t).waitingLock =
        (s.thread t).waitingLock ∧ (s.mapThread s.current fun x => {x with priority := p}).eff t = s.eff t := by
      intro t
      by_cases htc : t = s.current <;> simp [State.mapThread, State.eff, htc]
    have hcred : creditor s' = creditor s := by
      rw [hl.creditor]
      funext t
      rw [creditor, (hthread t).1]
      rfl
    refine h.settle he hg.moves.frames_current ⟨?_, ?_⟩ ht.live hl.allList
      (fun t => (hl.waiting t).trans (hthread t).1) rfl (by rw [hf]; rfl) ?_ ?_ (fun t u hx => hcred ▸ hx)
      (fun t u _ hx => hcred ▸ hx) (fun l hx => ⟨hl.holder ▸ hx, hl.waiters l⟩) ?_
    · exact noWalk_cons.mpr ⟨rfl, noWalk_nil⟩
    · rintro torn ⟨⟩
      exact ⟨hcur, rfl⟩
    · intro t htc
      rw [hl.own]
      simp [State.own, State.mapThread, htc]
    · exact fun t _ => (congrFun hl.eff t).trans (hthread t).2
    · intro hx
      cases (settled_cons.mp hx).1
  | @calculate _ _ torn fs p hf hp hg =>
    have hl := hg.ledger
    obtain ⟨fuel, hp⟩ := hp (hwalk torn (by rw [hf]; rfl))
    have hb : Unparked fs := by
      rw [hf] at hb
      exact hb
    have hn : NoWalk fs := by
      rw [hf] at hn
      exact hn
    have hacq0 : acquiring s.frames = none := by rw [hf]; rfl
    have hsetEff := setEff_thread s s.current p
    have hw : ∀ t, (s'.thread t).waitingLock = (s.thread t).waitingLock :=
      fun t => (hl.waiting t).trans (hsetEff.1 t)
    have hown : s'.own = s.own := hl.own.trans (funext hsetEff.2)
    have heff : s'.eff = Function.update s.eff s.current p := hl.eff.trans (eff_setEff s s.current p)
    have hcred : creditor s' = creditor s := hl.creditor.trans (creditor_setEff s s.current p)
    have hpop := ledger_setFrames s s.frames.tail
    have hframes : (s'.thread s.current).frames = fs := hg.moves.frames_current
    have hal : s'.allList = s.allList := hl.allList
    have hlive : s.current ∈ s'.allList := by
      rw [hal]
      exact ht.live
    have hlinks : s.pop.links = s'.links := hg.moves.links.symm
    refine h.settle he hframes hn.turns ht.live hal hw (acquiring_of_awake hb.awake) hacq0
      (fun t _ => congrFun hown t) ?_ (fun t u hx => hcred ▸ hx) (fun t u _ hx => hcred ▸ hx)
      (fun l hx => ⟨hl.holder ▸ hx, hl.waiters l⟩) ?_
    · intro t htc
      rw [heff, Function.update_of_ne htc]
    · intro _
      refine h.recalculated ht hold' hlive hp rfl hlinks hal hw ?_ hacq0 ?_ ?_ ?_
      · intro l
        rw [hframes, releasing_of_unparked hb]
      · exact fun l hx => ⟨hl.holder ▸ hx, rfl⟩
      · rw [hown, ← hpop.own]
        rfl
      · rw [heff, ← hpop.eff]
        rfl
  | @wait _ _ k f fs hw hv hst hg =>
    have hcase : (∀ l, k ≠ .lock l) ∧ f.settling = false ∧ f.isCalculate = false ∧ f.acquires = none := by
      cases f with
      | acquire l on =>
        -- a woken thread finds the lock free: nobody else has taken it
        cases hw
        have hf : s.frames = .acquire l on :: fs := by
          rcases hst with hf | ⟨⟨_, hx⟩, -⟩
          · exact hf
          · cases hx
        have hwait : (s.thread s.current).waitingLock = some l := by
          rw [h.waits _ ht.live]
          exact congrArg acquiring hf
        have hin := h.queued _ ht.live l hwait (hs.holder_of_zero hv (hold.stored l))
        have hblocked := ((ht.waiters _ _).mp hin).2.1
        rw [ht.status_current] at hblocked
        cases hblocked
      | down k' on =>
        cases hw
        refine ⟨?_, rfl, rfl, rfl⟩
        rcases hst with hf | ⟨-, ⟨hk, -⟩, -⟩
        · exact fun l => (ht.owned_frames (.down k on) (by simp [hf]) l 0).1
        · exact hk
      | _ => cases hw
    obtain ⟨hk, hset, hcalc, hacq⟩ := hcase
    have hl : Ledger s s' := hg.ledger_from rfl rfl rfl fun l => by
      simp [enqueued, State.mapSema, Function.update_of_ne (Ne.symm (hk l))]
    rcases hst with hf | ⟨-, -, hst⟩
    · rw [hf] at hn
      exact h.still he hg.moves.frames_current (NoWalk.turns (noWalk_cons.mpr ⟨hcalc, hn⟩)) (fun hx => hf ▸ hx) ht.live hl
        (by rw [hf])
    · obtain ⟨hnr, hsr, hacq0⟩ := hst.turns rfl rfl hn
      exact h.still he hg.moves.frames_current (NoWalk.turns (noWalk_cons.mpr ⟨hcalc, hnr⟩))
        (fun hx => hsr (settled_cons.mp hx).2) ht.live hl (hacq.trans hacq0.symm)
  | @take _ _ k fs hv hu hst hg =>
    have hl : Ledger s s' := hg.ledger_from rfl rfl rfl fun l => by
      simp [semaTake, State.mapSema, State.record, Function.update_of_ne (Ne.symm (hu.1 l))]
    rcases hst with hst | ⟨on, hf⟩
    · obtain ⟨hnr, hsr, hacq0⟩ := hst.turns rfl rfl hn
      exact h.still he hg.moves.frames_current hnr.turns hsr ht.live hl
        ((acquiring_of_awake (hst.unparked hb).awake).trans hacq0.symm)
    · rw [hf] at hn hb
      refine h.still he hg.moves.frames_current (NoWalk.turns hn) ?_ ht.live hl ?_
      · intro hx
        rw [hf]
        exact settled_cons.mpr ⟨rfl, hx⟩
      · rw [hf]
        exact acquiring_of_awake (Unparked.awake hb)
  | @acquireWait _ s2 l n rest hst hne hd _ hv hg =>
    obtain ⟨hnr, hsr, hacq0⟩ := hst.turns hn
    obtain ⟨h0, hheld⟩ := Option.ne_none_iff_exists'.mp (hs.holder_of_zero hv (hold.stored l))
    rw [hheld] at hd
    obtain ⟨hw, hwc, hown⟩ := wanting_thread l s rest
    have hl := hg.ledger
    obtain ⟨eff, hs2⟩ := donation_raised hd
    have hframes : (s'.thread s.current).frames = .acquire l s.intr :: rest := by
      rw [hs2] at hg
      exact hg.moves.frames_current
    refine h.donate he hframes (NoWalk.turns (noWalk_cons.mpr ⟨rfl, hnr⟩)) ?_ ht.live hold.live
      hacq0 rfl hheld ?_ hd ?_ ?_ ?_ hl.eff ?_ ?_ ?_ ?_
    · exact fun hx => hsr (settled_cons.mp hx).2
    · rintro rfl
      exact hne hheld
    · rw [hl.allList, hs2]
      rfl
    · rw [hl.holder, hs2]
      rfl
    · rw [hl.own, hs2]
      exact hown
    · intro t htc
      rw [hl.waiting, hs2]
      exact hw t htc
    · rw [hl.waiting, hs2]
      exact hwc
    · intro l' t hin
      rw [hl.waiters, hs2]
      by_cases hll : l' = l
      · subst hll
        simp only [enqueued, State.mapSema, Function.update_self]
        exact List.mem_append_left _ hin
      · have hk : SemaId.lock l' ≠ .lock l := by simpa using hll
        simp only [enqueued, State.mapSema, Function.update_of_ne hk]
        exact hin
    · rw [hl.waiters, hs2]
      simp only [enqueued, State.mapSema, Function.update_self]
      exact List.mem_append_right _ (List.mem_singleton.mpr rfl)
  | @acquireTake _ s2 l n rest links hst hne hd hv _ hg =>
    obtain ⟨hnr, hsr, hacq0⟩ := hst.turns hn
    obtain ⟨-, hfree, -⟩ := hs.alone hv
    -- there is nobody to donate to
    have hs2 : s2 = wanting l (s.setFrames rest) := by
      rw [hfree] at hd
      cases n <;> exact (Except.ok.inj hd).symm
    subst hs2
    obtain ⟨hw, -, hown⟩ := wanting_thread l s rest
    have hl := hg.ledger
    have hthread := locked_thread l links (semaTake (.lock l) (wanting l (s.setFrames rest)))
    have hcred : creditor s s.current = none := by
      rw [creditor, h.waits _ ht.live]
      exact congrArg (Option.bind · s.holder) hacq0
    have hframes : (s'.thread s.current).frames = rest := hg.moves.frames_current
    have hal : s'.allList = s.allList := hl.allList
    have hholder : s'.holder = Function.update s.holder l (some s.current) := hl.holder
    have hwc : (s'.thread s.current).waitingLock = none := (hl.waiting _).trans hthread.2.1
    refine h.take he hframes hnr.turns hsr ht.live hal ?_ hwc (acquiring_of_awake (hst.unparked hb).awake) hcred hfree
      hholder ?_ ?_ ?_ (hheed.acquire l rfl hv)
    · exact fun t htc => (hl.waiting t).trans ((hthread.1 t htc).trans (hw t htc))
    · exact hl.own.trans (hthread.2.2.1.trans hown)
    · exact hl.eff.trans (hthread.2.2.2.trans (wanting_eff l s rest))
    · exact fun l' => (hl.waiters l').trans (semaTake_waiters _ _ _)
  | @acquireAgain _ l on fs links hf hv _ hg =>
    obtain ⟨-, hfree, -⟩ := hs.alone hv
    have hl := hg.ledger
    have hthread := locked_thread l links (semaTake (.lock l) s)
    have hwait : (s.thread s.current).waitingLock = some l := by
      rw [h.waits _ ht.live]
      exact congrArg acquiring hf
    have hcred : creditor s s.current = none := by rw [creditor, hwait, Option.bind_some, hfree]
    rw [hf] at hn hb
    have hframes : (s'.thread s.current).frames = fs := hg.moves.frames_current
    have hal : s'.allList = s.allList := hl.allList
    have hholder : s'.holder = Function.update s.holder l (some s.current) := hl.holder
    have hwc : (s'.thread s.current).waitingLock = none := (hl.waiting _).trans hthread.2.1
    refine h.take he hframes (NoWalk.turns hn) ?_ ht.live hal ?_ hwc (acquiring_of_awake (Unparked.awake hb)) hcred hfree
      hholder ?_ ?_ ?_ (hheed.acquire l rfl hv)
    · intro hx
      rw [hf]
      exact settled_cons.mpr ⟨rfl, hx⟩
    · exact fun t htc => (hl.waiting t).trans (hthread.1 t htc)
    · exact hl.own.trans hthread.2.2.1
    · exact hl.eff.trans hthread.2.2.2
    · exact fun l' => (hl.waiters l').trans (semaTake_waiters _ _ _)
  | @tryAcquire _ l _ _ hv _ =>
    have hz := hmind.tryAcquire l rfl
    omega
  | @setHolder _ _ l fs hf hg =>
    have hz := hold.stored l
    have hle : claims l s.frames ≤ total (claims l) s := le_total (claims l) ht.live
    have hone : claims l s.frames = claims l fs + 1 := by
      rw [hf]
      exact List.count_cons_self
    omega
  | @releaseYield _ _ l rest hst hheld _ hg =>
    obtain ⟨hnr, -, hacq0⟩ := hst.turns rfl rfl hn
    have hthread := released_thread l s rest
    have hl := hg.ledger
    refine h.giveUp he hg.moves.frames_current (NoWalk.turns (noWalk_cons.mpr ⟨rfl, hnr⟩)) ht.live hl.allList
      (fun t => (hl.waiting t).trans (hthread t).1) rfl hacq0 (fun t => (congrFun hl.own t).trans (hthread t).2.1)
      (fun t _ => (congrFun hl.eff t).trans (hthread t).2.2) hheld hl.holder
      (fun l' hne => (hl.waiters l').trans (released_waiters hne s rest)) ?_
    intro hx
    cases (settled_cons.mp hx).1
  | @releaseDone _ _ l fuel rest fs links p hst hheld _ _ hp hset hg =>
    obtain ⟨hnr, -, hacq0⟩ := hst.turns rfl rfl hn
    have hrest := hst.unparked hb
    obtain ⟨hnf, hsf, hacq⟩ := hset.turns hnr hrest
    have hthread := released_thread l s rest
    have hl := hg.ledger
    have hframes : (s'.thread s.current).frames = fs := hg.moves.frames_current
    have hal : s'.allList = s.allList := hl.allList
    have hlive : s.current ∈ s'.allList := by
      rw [hal]
      exact ht.live
    have hsetEff := setEff_thread {released l (s.setFrames rest) with links := links} s.current p
    have hw : ∀ t, (s'.thread t).waitingLock = (s.thread t).waitingLock :=
      fun t => (hl.waiting t).trans ((hsetEff.1 t).trans (hthread t).1)
    have hown : ∀ t, s'.own t = s.own t := fun t => (congrFun hl.own t).trans ((hsetEff.2 t).trans (hthread t).2.1)
    have heff : s'.eff = Function.update (released l (s.setFrames rest)).eff s.current p :=
      hl.eff.trans (eff_setEff {released l (s.setFrames rest) with links := links} s.current p)
    have hholder : s'.holder = Function.update s.holder l none := hl.holder
    have hlinks : links = s'.links := hg.moves.links.symm
    refine h.giveUp he hframes hnf.turns ht.live hal hw hacq hacq0 hown ?_ hheld hholder
      (fun l' hne => (hl.waiters l').trans (released_waiters hne s rest)) ?_
    · intro t htc
      rw [heff, Function.update_of_ne htc, (hthread t).2.2]
    · intro _
      refine h.recalculated ht hold' hlive hp rfl hlinks hal hw ?_ hacq0 ?_ ?_ heff
      · intro l'
        rw [hframes, hset.releasing, releasing_of_unparked hrest]
      · intro l' hx
        have hne : l' ≠ l := by
          rintro rfl
          rw [hholder, Function.update_self] at hx
          cases hx
        rw [hholder, Function.update_of_ne hne] at hx
        exact ⟨hx, released_waiters hne s rest⟩
      · exact (hown _).trans (hthread _).2.1.symm
  | @unlink _ _ l on fuel rest fs links p hf _ hp hset hg =>
    have hrest : Unparked rest := by
      rw [hf] at hb
      exact hb
    have hnr : NoWalk rest := by
      rw [hf] at hn
      exact hn
    obtain ⟨hnf, hsf, hacq⟩ := hset.turns hnr hrest
    have hl := hg.ledger
    have hpop := ledger_setFrames s s.frames.tail
    have hframes : (s'.thread s.current).frames = fs := hg.moves.frames_current
    have hal : s'.allList = s.allList := hl.allList
    have hlive : s.current ∈ s'.allList := by
      rw [hal]
      exact ht.live
    have hsetEff := setEff_thread {s.pop with links := links} s.current p
    have hw : ∀ t, (s'.thread t).waitingLock = (s.thread t).waitingLock :=
      fun t => (hl.waiting t).trans ((hsetEff.1 t).trans (hpop.waiting t))
    have hown : s'.own = s.own := hl.own.trans ((funext hsetEff.2).trans hpop.own)
    have heff : s'.eff = Function.update s.pop.eff s.current p :=
      hl.eff.trans (eff_setEff {s.pop with links := links} s.current p)
    have hcred : creditor s' = creditor s := by
      funext t
      rw [creditor, creditor, hw, hl.holder]
      rfl
    have hacq0 : acquiring s.frames = none := by rw [hf]; rfl
    have hlinks : links = s'.links := hg.moves.links.symm
    refine h.settle he hframes hnf.turns ht.live hal hw hacq hacq0 (fun t _ => congrFun hown t) ?_
      (fun t u hx => hcred ▸ hx) (fun t u _ hx => hcred ▸ hx) (fun l hx => ⟨hl.holder ▸ hx, hl.waiters l⟩) ?_
    · intro t htc
      rw [heff, Function.update_of_ne htc]
      exact congrFun hpop.eff t
    · intro _
      refine h.recalculated ht hold' hlive hp rfl hlinks hal hw ?_ hacq0 ?_ ?_ heff
      · intro l'
        rw [hframes, hset.releasing, releasing_of_unparked hrest]
      · exact fun l hx => ⟨hl.holder ▸ hx, rfl⟩
      · rw [hown, ← hpop.own]
        rfl
  | @up _ _ k rest hst hu hg =>
    obtain ⟨hnr, hset, hacq⟩ := hst.turns rfl rfl hn
    exact h.still he hg.moves.frames_current (NoWalk.turns (noWalk_cons.mpr ⟨rfl, hnr⟩))
      (fun hx => hset (settled_cons.mp hx).2) ht.live
      (((ledger_setFrames s rest).trans (ledger_upped _ hu.1)).trans hg.ledger) hacq.symm
  | device hi hg =>
    obtain ⟨hturn, hset, hacq⟩ := hi.turns (hheed.device _ rfl) hn hwalk
    exact h.still he hg.moves.frames_current hturn hset ht.live ((ledger_upped s (by simp)).trans hg.ledger) hacq
  | condWait hf _ hg =>
    refine h.still he hg.moves.frames_current ?_ ?_ ht.live (hg.ledger_from rfl rfl rfl fun l => ?_) (by rw [hf]; rfl)
    · exact NoWalk.turns (noWalk_cons.mpr ⟨rfl, noWalk_cons.mpr ⟨rfl, noWalk_cons.mpr ⟨rfl, noWalk_nil⟩⟩⟩)
    · rw [hf]
      exact fun _ => settled_nil
    · simp [State.mapSema]
  | signal hf _ _ hg | pushBlock hf hg =>
    rw [hf] at hn
    refine h.still he hg.moves.frames_current (NoWalk.turns (noWalk_cons.mpr ⟨rfl, hn⟩)) ?_ ht.live
      (hg.ledger_from rfl rfl rfl fun _ => rfl) ?_
    · intro hx
      rw [hf]
      exact settled_cons.mpr ⟨rfl, (settled_cons.mp hx).2⟩
    · rw [hf]
      rfl
  | @create _ _ p u rest hf hu _ _ hg =>
    have hl := hg.ledger
    have hnr : NoWalk rest := by
      rw [hf] at hn
      exact hn
    refine h.create he ht.live hg.moves.frames_current ?_ ?_ hu hold.live hl.allList hl.holder ?_ ?_ ?_ ?_ ?_ rfl
      (by rw [hf]; rfl) hl.waiters
    · exact NoWalk.turns (noWalk_cons.mpr ⟨rfl, noWalk_cons.mpr ⟨rfl, noWalk_cons.mpr ⟨rfl, noWalk_cons.mpr ⟨rfl, hnr⟩⟩⟩⟩)
    · intro hx
      rw [hf]
      exact settled_cons.mpr ⟨rfl, fun f hfm => hx f (by simp [hfm])⟩
    · intro t htu
      rw [hl.waiting]
      simp [newThread, htu]
    · rw [hl.waiting]
      simp [newThread]
    · intro t htu
      rw [hl.own]
      simp [State.own, newThread, htu]
    · intro t htu
      rw [hl.eff]
      simp [State.eff, newThread, htu]
    · rw [hl.eff, hl.own]
      simp [State.own, State.eff, newThread]
  | exit hf hg =>
    have hl := hg.ledger
    exact h.exit he ht hf hl.allList hl.holder hl.waiting hl.own hl.eff hl.waiters
  | @sleep _ _ n hf hg =>
    have hl : Ledger s ((s.mapThread s.current fun x => {x with targetTicks := n + s.ticks}).record
        (.sleep s.current s.ticks n)) := by
      refine ⟨rfl, rfl, ?_, ?_, ?_, fun _ => rfl⟩
      · intro t
        by_cases htc : t = s.current <;> simp [State.mapThread, State.record, htc]
      · funext t
        by_cases htc : t = s.current <;> simp [State.own, State.mapThread, State.record, htc]
      · funext t
        by_cases htc : t = s.current <;> simp [State.eff, State.mapThread, State.record, htc]
    refine h.still he hg.moves.frames_current (NoWalk.turns (noWalk_cons.mpr ⟨rfl, noWalk_nil⟩)) ?_ ht.live
      (hl.trans hg.ledger) (by rw [hf]; rfl)
    rw [hf]
    exact fun _ => settled_nil
  | tick hi hg =>
    obtain ⟨hturn, hset, hacq⟩ := hi.turns (hheed.tick rfl) hn hwalk
    exact h.still he hg.moves.frames_current hturn hset ht.live ((ledger_awoken s).trans hg.ledger) hacq

/-! ### Every run -/

/-- A careful act that takes a lock only from threads that are asleep and no higher, and does not
switch in the walk of `thread_set_priority`. -/
def Orderly (a : Act) (s : State) : Prop :=
  Careful a s ∧
    match a.deed s with
    | .acquire l => (s.sema (.lock l)).value ≠ 0 → ∀ t ∈ s.allList, t ≠ s.current → (s.thread t).waitingLock = some l →
        t ∈ (s.sema (.lock l)).waiters ∧ s.eff t ≤ s.eff s.current
    | .tick => timeSlice ≤ s.threadTicks + 1 → ∀ f ∈ s.frames.head?, f.isCalculate = false
    | .device n => yields (upped (.user n) s) = true → ∀ f ∈ s.frames.head?, f.isCalculate = false
    | _ => True

instance (a : Act) (s : State) : Decidable (Orderly a s) :=
  @instDecidableAnd _ _ inferInstance (match a.deed s with
    | .acquire _ => inferInstance
    | .tryAcquire _ => inferInstance
    | .exit => inferInstance
    | .tick => inferInstance
    | .device _ => inferInstance
    | .other => inferInstance)

theorem Orderly.heeds {a : Act} (h : Orderly a s) : Heeds s (a.deed s) := by
  have hcalc : (∀ f ∈ s.frames.head?, f.isCalculate = false) → ∀ torn, s.frames.head? ≠ some (.calculate torn) := by
    intro hx torn htop
    cases hx _ htop
  obtain ⟨-, h⟩ := h
  refine ⟨?_, ?_, ?_⟩
  · intro l hd
    rw [hd] at h
    exact h
  · intro hd hs
    rw [hd] at h
    exact hcalc (h hs)
  · intro n hd hs
    rw [hd] at h
    exact hcalc (h hs)

theorem booted_fair (h : Booted s) : Fair s := by
  obtain ⟨values, condLock, rfl⟩ := h
  have hmem : ∀ {t : Tid}, t ∈ (booted values condLock).allList → t = 0 ∨ t = 1 := by
    intro t ht
    simpa [booted] using ht
  have hcred : ∀ {t : Tid}, t ∈ (booted values condLock).allList → creditor (booted values condLock) t = none := by
    intro t ht
    rcases hmem ht with rfl | rfl <;> rfl
  constructor
  · intro t ht
    rcases hmem ht with rfl | rfl <;> rfl
  · intro t ht l hwl
    rcases hmem ht with rfl | rfl <;> cases hwl
  · intro t ht hx
    rw [hcred ht] at hx
    cases hx
  · intro t ht f hf
    rcases hmem ht with rfl | rfl
    · cases hf
    · rw [List.mem_singleton.mp hf]
      rfl
  · intro t ht torn htop
    rcases hmem ht with rfl | rfl <;> cases htop
  · intro t ht _
    apply pays_alone
    · rcases hmem ht with rfl | rfl <;> rfl
    · rintro w ⟨hw, hx⟩
      rw [hcred hw] at hx
      cases hx

theorem ReachableUnder.fair (hr : ReachableUnder Orderly s) : Fair s := by
  have h : (∃ locks, Holding s locks) ∧ Fair s := by
    apply hr.effects
    · intro s hb
      exact ⟨⟨_, booted_holding hb⟩, booted_fair hb⟩
    · rintro s s' a hr ht hm ⟨⟨locks, hold⟩, hf⟩ _ ho _ _ he
      obtain ⟨init, hs⟩ := hr.sound
      obtain ⟨locks', hold'⟩ := he.holding hold hs ht hm ho.1.minds
      exact ⟨⟨locks', hold'⟩, he.fair hf hold hold' hs ht hm ho.1.minds ho.heeds⟩
  exact h.2

/-- The frames of the lock functions and of `calculate_priority_and_yield`. -/
def Frame.inLocks : Frame → Bool
  | .acquire _ _ => true
  | .unlink _ _ => true
  | .setHolder _ => true
  | .calculate _ => true
  | _ => false

/-- Every thread that is not inside `lock_release` has the greatest of its own priority and the
effective priorities of the threads that wait for locks whose holder it is. -/
def DonationExact (s : State) : Prop :=
  ∀ t ∈ s.allList, (∀ f ∈ (s.thread t).frames, f.inRelease = false) →
    IsGreatest (insert (s.thread t).priority (s.eff '' {w | ∃ l, s.holder l = some t ∧ w ∈ (s.sema (.lock l)).waiters}))
      (s.eff t)

theorem donation_exact (hr : ReachableUnder Orderly s) (ho : ∀ f ∈ s.frames, f.inLocks = false) : DonationExact s := by
  have h := hr.fair
  have ht := hr.reachable.tidy
  intro t htl hrel
  have hset : Settled (s.thread t).frames := by
    intro f hf
    have hcalc : f.isCalculate = false := by
      cases hfr : (s.thread t).frames with
      | nil =>
        rw [hfr] at hf
        cases hf
      | cons g fs =>
        rw [hfr] at hf
        rcases List.mem_cons.mp hf with rfl | hf
        · cases f with
          | calculate torn =>
            -- only the running thread can be in the walk, and it is not
            have hcur := (h.walks t htl torn (by rw [hfr]; rfl)).1
            have hin : Frame.calculate torn ∈ s.frames := by
              rw [State.frames, ← hcur, hfr]
              exact List.mem_cons_self
            cases ho _ hin
          | _ => rfl
        · have hb := h.below t htl
          rw [hfr] at hb
          exact hb f hf
    rw [Frame.settling, hrel f hf, hcalc]
    rfl
  have hbacks : ∀ w, Backs s w t ↔ ∃ l, s.holder l = some t ∧ w ∈ (s.sema (.lock l)).waiters := by
    intro w
    constructor
    · rintro ⟨hwl, hx⟩
      obtain ⟨l, hwait, hh⟩ := Option.bind_eq_some_iff.mp hx
      exact ⟨l, hh, (h.waiter_iff ht (by simp [hh]) w).mpr ⟨hwl, hwait⟩⟩
    · rintro ⟨l, hh, hw⟩
      obtain ⟨hwl, hwait⟩ := (h.waiter_iff ht (by simp [hh]) w).mp hw
      exact ⟨hwl, Option.bind_eq_some_iff.mpr ⟨l, hwait, hh⟩⟩
  have hpay := h.pays t htl hset
  have hsame : {w | Backs s w t} = {w | ∃ l, s.holder l = some t ∧ w ∈ (s.sema (.lock l)).waiters} := Set.ext hbacks
  rw [Pays, dues, hsame] at hpay
  exact hpay

/-- A donation along a chain of two locks. -/
theorem donation_exact_of_chain : ∃ s, ReachableUnder Orderly s ∧ (s.frames = [] ∧ s.current = 0 ∧ s.eff 0 = 50) ∧
    DonationExact s := by
  let acts : List (List Act) := [[.call (.lockAcquire 0) 1], creation 40 2,
    [.go 0, .call (.lockAcquire 1) 1, .call (.lockAcquire 0) 2, .go 0], creation 50 3,
    [.go 0, .call (.lockAcquire 1) 3, .go 0]]
  obtain ⟨s, hr, hs⟩ := reachable_of_after Orderly acts.flatten (fun s => s.frames = [] ∧ s.current = 0 ∧ s.eff 0 = 50)
    (by decide +kernel)
  refine ⟨s, hr, hs, donation_exact hr ?_⟩
  rw [hs.1]
  intro f hf
  cases hf

/-- A thread takes a lock again before the thread it has woken does, and lowers its priority: the
woken thread goes back to wait and donates nothing. -/
theorem donation_lost : ∃ s, Reachable s ∧ s.frames = [] ∧ ¬ DonationExact s := by
  let acts : List (List Act) := [[.call (.lockAcquire 0) 1], creation 40 2, [.go 0, .call (.lockAcquire 0) 2, .go 0],
    [.call (.threadSetPriority 50) 0, .go 3, .go 0], [.call (.lockRelease 0) 3, .call (.lockAcquire 0) 1],
    [.call (.threadSetPriority 31) 0, .go 3, .go 0], [.go 0, .go 0]]
  obtain ⟨s, hr, hf, hl, hfr, hh, hw, heff⟩ := reachable_of_after (fun _ _ => True) acts.flatten
    (fun s => s.frames = [] ∧ 0 ∈ s.allList ∧ (s.thread 0).frames = [] ∧ s.holder (.user 0) = some 0 ∧
      2 ∈ (s.sema (.lock (.user 0))).waiters ∧ s.eff 0 < s.eff 2) (by decide +kernel)
  refine ⟨s, hr, hf, ?_⟩
  intro hx
  have hgreat := hx 0 hl (by rw [hfr]; intro f hf; cases hf)
  have hle : s.eff 2 ≤ s.eff 0 := hgreat.2 (.inr ⟨2, ⟨_, hh, hw⟩, rfl⟩)
  omega

end

end Pintos.Threads
