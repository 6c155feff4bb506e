import Pintos.Library.Donation
import Pintos.Threads.HoldingProofs

/-! Priority donation: what the operations on locks do to it.

A thread that waits for a lock backs the thread that holds it, and every thread's effective
priority is to be what `Donation.Pays` says. `compare_priority_and_update` donates along the
chain of holders once, when a thread starts to wait (`Fair.donate`);
`calculate_priority_and_yield` looks at the waiters of the held locks when a lock is released or
a priority is set (`Fair.recalculated`). Nothing donates when a lock changes hands: the thread
that takes it must be no lower than those that wait for it (`Fair.take`). -/
namespace Pintos.Threads
open Kernel Outcome Intrusive Donation

/-- The lock whose `lock_acquire` a frame is in. -/
def Frame.acquires : Frame → Option LockId
  | .acquire l _ => some l
  | _ => none

def Frame.isCalculate : Frame → Bool
  | .calculate _ => true
  | _ => false

/-- The thread has given up a lock or changed its priority, and its effective priority is not
yet what it will be. -/
def Frame.settling (f : Frame) : Bool := f.inRelease || f.isCalculate

def Settled (fs : List Frame) : Prop := ∀ f ∈ fs, f.settling = false

def State.own (s : State) (t : Tid) : Int := (s.thread t).priority

/-- The lock whose `lock_acquire` a stack is in. -/
def acquiring (fs : List Frame) : Option LockId := fs.head?.bind Frame.acquires

/-- The thread that holds the lock `t` waits for. -/
def creditor (s : State) (t : Tid) : Option Tid := (s.thread t).waitingLock.bind s.holder

def Backs (s : State) (w t : Tid) : Prop := w ∈ s.allList ∧ creditor s w = some t

structure Fair (s : State) : Prop where
  waits : ∀ t ∈ s.allList, (s.thread t).waitingLock = acquiring (s.thread t).frames
  queued : ∀ t ∈ s.allList, ∀ l, (s.thread t).waitingLock = some l → s.holder l ≠ none → t ∈ (s.sema (.lock l)).waiters
  selfless : ∀ t ∈ s.allList, creditor s t ≠ some t
  below : ∀ t ∈ s.allList, ∀ f ∈ (s.thread t).frames.tail, f.isCalculate = false
  walks : ∀ t ∈ s.allList, ∀ torn, (s.thread t).frames.head? = some (.calculate torn) → t = s.current ∧ torn = false
  pays : ∀ t ∈ s.allList, Settled (s.thread t).frames → Pays s.own (Backs s) s.eff t

section
variable {s s' s1 : State} {f : Frame} {fs rest : List Frame} {l : LockId} {t u : Tid} {p : Int}

/-! ### The donation -/

theorem eff_setEff (s : State) (t : Tid) (p : Int) : (s.setEff t p).eff = Function.update s.eff t p := by
  funext u
  by_cases h : u = t <;> simp [State.eff, State.setEff, State.mapThread, h]

theorem creditor_setEff (s : State) (t : Tid) (p : Int) : creditor (s.setEff t p) = creditor s := by
  funext u
  by_cases h : u = t <;> simp [creditor, State.setEff, State.mapThread, h]

/-- The donation stops at a thread of higher priority, or raises the thread and goes on to the
holder of the lock it waits for. -/
theorem comparePriorityAndUpdate_some (p : Int) (n : Nat) (t : Tid) (s : State) :
    comparePriorityAndUpdate p (n + 1) (some t) s =
      if s.eff t > p then .ok s else comparePriorityAndUpdate p n (creditor s t) (s.setEff t p) := by
  rw [comparePriorityAndUpdate]
  have hw : ((s.setEff t p).thread t).waitingLock = (s.thread t).waitingLock := by
    simp [State.setEff, State.mapThread]
  simp only [hw, creditor]
  split
  · rfl
  · cases (s.thread t).waitingLock with
    | none => cases n <;> rfl
    | some l => rfl

/-- Everybody pays but the next thread of the chain, which pays up to the donation. After the
donation everybody pays. -/
theorem donation_pays {own : Tid → Int} {D : Tid → Prop} {live : Tid → Prop} {next : Tid → Option Tid}
    (hself : ∀ t, live t → next t ≠ some t) (hnext : ∀ t u, next t = some u → live u) :
    ∀ (n : Nat) (u : Option Tid) (s s2 : State), comparePriorityAndUpdate p n u s = .ok s2 → creditor s = next →
      (∀ t, u = some t → live t) →
      (∀ t, D t → u ≠ some t → Pays own (fun w t => live w ∧ next w = some t) s.eff t) →
      (∀ t, D t → u = some t → PaysUpTo p own (fun w t => live w ∧ next w = some t) s.eff t) →
      ∀ t, D t → Pays own (fun w t => live w ∧ next w = some t) s2.eff t := by
  intro n
  induction n with
  | zero =>
    intro u s s2 h _ _ hpay _ t ht
    cases u with
    | none =>
      cases h
      exact hpay t ht (by simp)
    | some v => cases h
  | succ n ih =>
    intro u s s2 h hs hu hpay hnow t ht
    cases u with
    | none =>
      cases h
      exact hpay t ht (by simp)
    | some v =>
      have hv := hu v rfl
      rw [comparePriorityAndUpdate_some] at h
      split at h
      · -- the chain ends at a higher thread
        rename_i hgt
        cases h
        by_cases htv : v = t
        · subst htv
          exact (hnow v ht rfl).pays hgt
        · exact hpay t ht (by simpa using htv)
      · rename_i hle
        rw [not_lt] at hle
        rw [hs] at h
        apply ih _ _ _ h ((creditor_setEff s v p).trans hs) (fun t => hnext v t) _ _ t ht
        · intro t ht hne
          rw [eff_setEff]
          by_cases htv : t = v
          · subst htv
            exact (hnow t ht rfl).raise hle fun hb => hself t hb.1 hb.2
          · have hb : ¬ (live v ∧ next v = some t) := fun hb => hne hb.2
            exact (hpay t ht (by simpa using Ne.symm htv)).other_raised hb htv
        · intro t ht he
          have htv : t ≠ v := fun e => hself v hv (e ▸ he)
          rw [eff_setEff]
          exact (hpay t ht (by simpa using Ne.symm htv)).backer_raised ⟨hv, he⟩ hle htv

theorem wanting_eff (l : LockId) (s : State) (rest : List Frame) : (wanting l (s.setFrames rest)).eff = s.eff := by
  funext t
  by_cases htc : t = s.current <;> simp [State.eff, wanting, State.mapThread, State.setFrames, State.setIntr, htc]

/-! ### The recalculation -/

theorem mapM_lockOfNode (held : List LockId) : (held.map Node.elem).mapM lockOfNode = some held := by
  induction held with
  | nil => rfl
  | cons l held ih => simp [lockOfNode, ih]

/-- The loop of `calculate_priority_and_yield` meets the locks of the list. -/
theorem holdingLocks_eq {held locks : List LockId} {fuel : Nat} (hl : s.links.Linked (spine t held))
    (h : holdingLocks fuel t s = some locks) : locks = held := by
  obtain ⟨e, ns, hns⟩ : ∃ e ns, held.map Node.elem ++ [.tail t] = e :: ns := List.exists_cons_of_ne_nil (by simp)
  have hspine : spine t held = .head t :: e :: ns := by rw [spine, List.cons_append, hns]
  have hdrop : (e :: ns).dropLast = held.map .elem := by rw [← hns, List.dropLast_concat]
  rw [hspine, linked_cons] at hl
  simp only [holdingLocks, hl.1.1, Option.bind_eq_bind, Option.bind_some, Option.bind_eq_some_iff] at h
  obtain ⟨nodes, hw, hm⟩ := h
  have hlast : (e :: ns).getLast? = some (.tail t) := by rw [← hns, List.getLast?_concat]
  have hstop : Node.tail t ∉ (e :: ns).dropLast := by
    rw [hdrop]
    simp
  rw [walk_linked hl.2 hlast hstop hw, hdrop, mapM_lockOfNode] at hm
  exact (Option.some.inj hm).symm

theorem greatest_of_calculate {held : List LockId} {fuel : Nat} (hl : s.links.Linked (spine s.current held))
    (h : calculatePriority fuel s = some p) :
    IsGreatest (insert (s.own s.current) (s.eff '' {w | ∃ l ∈ held, w ∈ (s.sema (.lock l)).waiters})) p := by
  obtain ⟨locks, hlocks, hp⟩ := Option.map_eq_some_iff.mp h
  rw [holdingLocks_eq hl hlocks] at hp
  have hfold : held.foldl (raiseByWaiters s) (s.thread s.current).priority =
      (held.flatMap fun l => (s.sema (.lock l)).waiters).foldl (fun p t => if s.eff t > p then s.eff t else p)
        (s.own s.current) := by
    rw [List.foldl_flatMap]
    rfl
  have hset : {w | ∃ l ∈ held, w ∈ (s.sema (.lock l)).waiters} = {w | w ∈ held.flatMap fun l => (s.sema (.lock l)).waiters} := by
    ext w
    simp
  rw [← hp, hfold, hset]
  exact greatest_foldl s.eff _ _

/-! ### Stacks -/

theorem acquiring_of_awake (h : Awake fs) : acquiring fs = none := by
  cases fs with
  | nil => rfl
  | cons f fs =>
    have hp := h f rfl
    cases f <;> first | rfl | cases hp

theorem acquires_of_light (h : f.light = true) : f.acquires = none := by
  cases f <;> first | rfl | cases h

theorem settling_of_light (h : f.light = true) : f.settling = false := by
  cases f <;> first | rfl | cases h

theorem isCalculate_of_settling (h : f.settling = false) : f.isCalculate = false := by
  cases f <;> first | rfl | cases h

theorem settled_nil : Settled [] := by
  intro f hf
  cases hf

theorem settled_cons : Settled (f :: fs) ↔ f.settling = false ∧ Settled fs := List.forall_mem_cons

theorem settled_of_unparked (h : Unparked fs) (hc : ∀ f ∈ fs, f.isCalculate = false) : Settled fs := by
  intro f hf
  have hp := h f hf
  have hcf := hc f hf
  cases f <;> first | rfl | (cases hp; done) | cases hcf

/-- A turn of the running thread from the stack of `s` to `fs`. Only the walk of
`thread_set_priority` that has not been torn may be left on top of it. -/
structure Turns (s s' : State) (fs : List Frame) : Prop where
  below : ∀ f ∈ fs.tail, f.isCalculate = false
  walks : ∀ torn, fs.head? = some (.calculate torn) → s'.current = s.current ∧ torn = false

/-- Nothing that donations depend on has changed. -/
structure Ledger (s s' : State) : Prop where
  allList : s'.allList = s.allList
  holder : s'.holder = s.holder
  waiting : ∀ t, (s'.thread t).waitingLock = (s.thread t).waitingLock
  own : s'.own = s.own
  eff : s'.eff = s.eff
  waiters : ∀ l, (s'.sema (.lock l)).waiters = (s.sema (.lock l)).waiters

theorem Goes.ledger (hg : Goes fs s1 s') : Ledger s1 s' where
  allList := hg.moves.allList
  holder := hg.moves.holder
  waiting := hg.moves.waitingLock
  own := funext hg.moves.priority
  eff := funext hg.moves.eff
  waiters := fun l => by rw [hg.moves.sema]

theorem Ledger.trans (h : Ledger s s1) (h' : Ledger s1 s') : Ledger s s' where
  allList := h'.allList.trans h.allList
  holder := h'.holder.trans h.holder
  waiting := fun t => (h'.waiting t).trans (h.waiting t)
  own := h'.own.trans h.own
  eff := h'.eff.trans h.eff
  waiters := fun l => (h'.waiters l).trans (h.waiters l)

theorem Ledger.creditor (h : Ledger s s') : creditor s' = creditor s := by
  funext t
  rw [Threads.creditor, Threads.creditor, h.waiting, h.holder]

theorem Ledger.backs (h : Ledger s s') : Backs s' = Backs s := by
  funext w t
  rw [Backs, Backs, h.allList, h.creditor]

section
variable {d : Deed} (h : Fair s) (he : Effect s d s') (hfs : (s'.thread s.current).frames = fs)
  (hturn : Turns s s' fs)
include h he hfs hturn

/-- The stacks after a turn; locks and priorities are left to the caller. -/
theorem Fair.turn (hal : s'.allList = s.allList)
    (hw : ∀ t ∈ s.allList, t ≠ s.current → (s'.thread t).waitingLock = (s.thread t).waitingLock)
    (hwc : (s'.thread s.current).waitingLock = acquiring fs)
    (hq : ∀ t ∈ s.allList, ∀ l, (s'.thread t).waitingLock = some l → s'.holder l ≠ none →
      t ∈ (s'.sema (.lock l)).waiters)
    (hself : ∀ t ∈ s.allList, creditor s' t ≠ some t)
    (hpay : ∀ t ∈ s.allList, (t ≠ s.current → Settled (s.thread t).frames) → (t = s.current → Settled fs) →
      Pays s'.own (Backs s') s'.eff t) : Fair s' := by
  have hother : ∀ t ∈ s.allList, t ≠ s.current → (s'.thread t).frames = (s.thread t).frames :=
    fun t ht htc => he.frames_other (hal ▸ ht) ht htc
  constructor <;> rw [hal]
  · intro t ht
    by_cases htc : t = s.current
    · rw [htc, hwc, hfs]
    · rw [hw t ht htc, hother t ht htc]
      exact h.waits t ht
  · exact hq
  · exact hself
  · intro t ht
    by_cases htc : t = s.current
    · rw [htc, hfs]
      exact hturn.below
    · rw [hother t ht htc]
      exact h.below t ht
  · intro t ht torn htop
    by_cases htc : t = s.current
    · rw [htc, hfs] at htop
      obtain ⟨hcur, htorn⟩ := hturn.walks torn htop
      exact ⟨htc.trans hcur.symm, htorn⟩
    · rw [hother t ht htc] at htop
      exact absurd (h.walks t ht torn htop).1 htc
  · grind

theorem Fair.still (hset : Settled fs → Settled s.frames) (hc : s.current ∈ s.allList) (hl : Ledger s s')
    (hacq : acquiring fs = acquiring s.frames) : Fair s' := by
  apply h.turn he hfs hturn hl.allList
  · exact fun t _ _ => hl.waiting t
  · rw [hl.waiting, h.waits _ hc, hacq]
    rfl
  · intro t ht l hwl hh
    rw [hl.waiting] at hwl
    rw [hl.holder] at hh
    rw [hl.waiters]
    exact h.queued t ht l hwl hh
  · rw [hl.creditor]
    exact h.selfless
  · intro t ht hother hcur
    rw [hl.own, hl.backs, hl.eff]
    apply h.pays t ht
    by_cases htc : t = s.current
    · rw [htc]
      exact hset (hcur htc)
    · exact hother htc

/-- The running thread, which waits for no lock, changes what it holds and its own priorities. -/
theorem Fair.settle (hc : s.current ∈ s.allList) (hal : s'.allList = s.allList)
    (hw : ∀ t, (s'.thread t).waitingLock = (s.thread t).waitingLock) (hacq : acquiring fs = none)
    (hacq0 : acquiring s.frames = none) (hown : ∀ t, t ≠ s.current → s'.own t = s.own t)
    (heff : ∀ t, t ≠ s.current → s'.eff t = s.eff t) (hless : ∀ t u, creditor s' t = some u → creditor s t = some u)
    (hkeep : ∀ t u, u ≠ s.current → creditor s t = some u → creditor s' t = some u)
    (hq : ∀ l, s'.holder l ≠ none → s.holder l ≠ none ∧ (s'.sema (.lock l)).waiters = (s.sema (.lock l)).waiters)
    (hpay : Settled fs → Pays s'.own (Backs s') s'.eff s.current) : Fair s' := by
  have hnone : (s.thread s.current).waitingLock = none := (h.waits _ hc).trans hacq0
  apply h.turn he hfs hturn hal (fun t _ _ => hw t)
  · rw [hw, hnone, hacq]
  · intro t ht l hwl hh
    obtain ⟨hh, hwait⟩ := hq l hh
    rw [hwait]
    exact h.queued t ht l (hw t ▸ hwl) hh
  · exact fun t ht hx => h.selfless t ht (hless t t hx)
  · intro t ht hset hsetc
    by_cases htc : t = s.current
    · rw [htc]
      exact hpay (hsetc htc)
    · apply (h.pays t ht (hset htc)).congr (hown t htc) _ _ (heff t htc)
      · intro w
        rw [Backs, Backs, hal]
        exact and_congr_right fun _ => ⟨hless w t, hkeep w t htc⟩
      · rintro w ⟨-, hcw⟩
        apply heff w
        rintro rfl
        rw [creditor, hnone] at hcw
        cases hcw

end

/-- The running thread gives up a lock. -/
theorem Fair.giveUp {d : Deed} (h : Fair s) (he : Effect s d s') (hfs : (s'.thread s.current).frames = fs)
    (hturn : Turns s s' fs) (hc : s.current ∈ s.allList) (hal : s'.allList = s.allList)
    (hw : ∀ t, (s'.thread t).waitingLock = (s.thread t).waitingLock) (hacq : acquiring fs = none)
    (hacq0 : acquiring s.frames = none) (hown : ∀ t, s'.own t = s.own t)
    (heff : ∀ t, t ≠ s.current → s'.eff t = s.eff t) (hheld : s.holder l = some s.current)
    (hh : s'.holder = Function.update s.holder l none)
    (hq : ∀ l', l' ≠ l → (s'.sema (.lock l')).waiters = (s.sema (.lock l')).waiters)
    (hpay : Settled fs → Pays s'.own (Backs s') s'.eff s.current) : Fair s' := by
  have hother : ∀ l', s'.holder l' ≠ none → l' ≠ l ∧ s'.holder l' = s.holder l' := by
    intro l' hx
    have hl : l' ≠ l := by
      rintro rfl
      rw [hh, Function.update_self] at hx
      exact hx rfl
    rw [hh, Function.update_of_ne hl]
    exact ⟨hl, rfl⟩
  apply h.settle he hfs hturn hc hal hw hacq hacq0 (fun t _ => hown t) heff _ _ _ hpay
  · intro t u hx
    obtain ⟨l', hwait, hhl⟩ := Option.bind_eq_some_iff.mp hx
    rw [(hother l' (by simp [hhl])).2] at hhl
    exact Option.bind_eq_some_iff.mpr ⟨l', hw t ▸ hwait, hhl⟩
  · intro t u hu hx
    obtain ⟨l', hwait, hhl⟩ := Option.bind_eq_some_iff.mp hx
    have hl : l' ≠ l := by
      grind
    exact Option.bind_eq_some_iff.mpr ⟨l', (hw t).trans hwait, by rw [hh, Function.update_of_ne hl, hhl]⟩
  · grind

/-- The threads on the waiters list of a lock that is held are those that wait for it. -/
theorem Fair.waiter_iff (h : Fair s) (ht : Tidy s) (hh : s.holder l ≠ none) (w : Tid) :
    w ∈ (s.sema (.lock l)).waiters ↔ w ∈ s.allList ∧ (s.thread w).waitingLock = some l := by
  constructor
  · intro hw
    obtain ⟨hl, -, f, hf, hk⟩ := (ht.waiters _ w).mp hw
    refine ⟨hl, ?_⟩
    rw [h.waits w hl, acquiring, hf]
    have hown := ht.owned w hl f (List.mem_of_head? hf)
    cases f with
    | acquire l' on => simpa [Frame.waitsOn, Frame.acquires] using hk
    | down k on =>
      rw [Frame.waitsOn, Option.some.injEq] at hk
      exact absurd hk (hown l 0).1
    | _ => cases hk
  · rintro ⟨hl, hw⟩
    exact h.queued w hl l hw hh

/-- What `calculate_priority_and_yield` stores in the state `x` is what the running thread has
to pay. -/
theorem Fair.recalculated {x : State} {fuel : Nat} {locks : Tid → List LockId} (h : Fair s) (ht : Tidy s)
    (hold : Holding s' locks) (hc : s.current ∈ s'.allList) (hx : calculatePriority fuel x = some p)
    (hcur : x.current = s.current) (hlinks : x.links = s'.links) (hal : s'.allList = s.allList)
    (hw : ∀ t, (s'.thread t).waitingLock = (s.thread t).waitingLock)
    (hrel : ∀ l, releasing l (s'.thread s.current).frames = 0) (hacq0 : acquiring s.frames = none)
    (hheld : ∀ l, s'.holder l = some s.current → s.holder l = some s.current ∧
      (x.sema (.lock l)).waiters = (s.sema (.lock l)).waiters)
    (hown : s'.own s.current = x.own s.current) (heff : s'.eff = Function.update x.eff s.current p) :
    Pays s'.own (Backs s') s'.eff s.current := by
  have hnone : (s.thread s.current).waitingLock = none := (h.waits _ ht.live).trans hacq0
  have hspine : x.links.Linked (spine x.current (locks s.current)) := by
    rw [hcur, hlinks]
    exact hold.linked _ hc
  have hmem : ∀ l, l ∈ locks s.current ↔ s'.holder l = some s.current := by
    intro l
    rw [hold.mem _ hc l, hrel l]
    simp
  have hgreat := greatest_of_calculate hspine hx
  rw [hcur] at hgreat
  have hbacks : ∀ w, Backs s' w s.current ↔ ∃ l ∈ locks s.current, w ∈ (x.sema (.lock l)).waiters := by
    intro w
    constructor
    · rintro ⟨hwl, hcw⟩
      obtain ⟨l, hwait, hh⟩ := Option.bind_eq_some_iff.mp hcw
      obtain ⟨hh0, hwaiters⟩ := hheld l hh
      refine ⟨l, (hmem l).mpr hh, ?_⟩
      rw [hwaiters, h.waiter_iff ht (by simp [hh0]), ← hw, ← hal]
      exact ⟨hwl, hwait⟩
    · rintro ⟨l, hl, hwx⟩
      have hh := (hmem l).mp hl
      obtain ⟨hh0, hwaiters⟩ := hheld l hh
      rw [hwaiters, h.waiter_iff ht (by simp [hh0]), ← hw, ← hal] at hwx
      exact ⟨hwx.1, Option.bind_eq_some_iff.mpr ⟨l, hwx.2, hh⟩⟩
  have hdues : dues s'.own (Backs s') s'.eff s.current =
      insert (x.own s.current) (x.eff '' {w | ∃ l ∈ locks s.current, w ∈ (x.sema (.lock l)).waiters}) := by
    rw [dues, hown]
    have hset : {w | Backs s' w s.current} = {w | ∃ l ∈ locks s.current, w ∈ (x.sema (.lock l)).waiters} := Set.ext hbacks
    congr 1
    rw [← hset]
    apply Set.image_congr
    rintro w ⟨-, hcw⟩
    have hwc : w ≠ s.current := by
      rintro rfl
      rw [creditor, hw, hnone] at hcw
      cases hcw
    rw [heff, Function.update_of_ne hwc]
  unfold Pays
  rw [hdues, heff, Function.update_self]
  exact hgreat

section
variable {d : Deed} (h : Fair s) (he : Effect s d s') (hfs : (s'.thread s.current).frames = fs)
  (hturn : Turns s s' fs)
include h he hfs hturn

/-- The running thread takes a lock. The threads that wait for it are all asleep, and none is
higher. -/
theorem Fair.take (hset0 : Settled fs → Settled s.frames) (hc : s.current ∈ s.allList) (hal : s'.allList = s.allList)
    (hw : ∀ t, t ≠ s.current → (s'.thread t).waitingLock = (s.thread t).waitingLock)
    (hwc : (s'.thread s.current).waitingLock = none) (hacq : acquiring fs = none)
    (hcred : creditor s s.current = none) (hfree : s.holder l = none)
    (hh : s'.holder = Function.update s.holder l (some s.current)) (hown : s'.own = s.own) (heff : s'.eff = s.eff)
    (hq : ∀ l, (s'.sema (.lock l)).waiters = (s.sema (.lock l)).waiters)
    (hcond : ∀ t ∈ s.allList, t ≠ s.current → (s.thread t).waitingLock = some l →
      t ∈ (s.sema (.lock l)).waiters ∧ s.eff t ≤ s.eff s.current) : Fair s' := by
  have hnone : creditor s' s.current = none := by rw [creditor, hwc]; rfl
  -- who waits for another lock than this one is where he was
  have hsame : ∀ w u, u ≠ s.current → (creditor s' w = some u ↔ creditor s w = some u) := by
    intro w u hu
    by_cases hwc' : w = s.current
    · rw [hwc', hnone, hcred]
    · rw [creditor, creditor, hw w hwc', Option.bind_eq_some_iff, Option.bind_eq_some_iff, hh]
      grind
  apply h.turn he hfs hturn hal (fun t _ htc => hw t htc)
  · rw [hwc, hacq]
  · intro t ht l' hwl hhl
    rw [hq]
    by_cases htc : t = s.current
    · rw [htc, hwc] at hwl
      cases hwl
    · rw [hw t htc] at hwl
      by_cases hl : l' = l
      · grind
      · rw [hh, Function.update_of_ne hl] at hhl
        exact h.queued t ht l' hwl hhl
  · intro t ht hx
    by_cases htc : t = s.current
    · rw [htc, hnone] at hx
      cases hx
    · exact h.selfless t ht ((hsame t t htc).mp hx)
  · intro t ht hset hsetc
    rw [hown, heff]
    by_cases htc : t = s.current
    · subst htc
      have hpay := h.pays _ hc (hset0 (hsetc rfl))
      have hless : ∀ w, Backs s w s.current → w ≠ s.current := by
        rintro w ⟨-, hcw⟩ rfl
        rw [hcred] at hcw
        cases hcw
      apply hpay.more
      · rintro w ⟨hwl, hcw⟩
        have hwc' := hless w ⟨hwl, hcw⟩
        refine ⟨hal ▸ hwl, ?_⟩
        obtain ⟨l', hwait, hhl⟩ := Option.bind_eq_some_iff.mp hcw
        have hl : l' ≠ l := by
          grind
        rw [creditor, hw w hwc', hwait, Option.bind_some, hh, Function.update_of_ne hl, hhl]
      · rintro w ⟨hwl, hcw⟩
        have hwc' : w ≠ s.current := by
          grind
        rw [hal] at hwl
        obtain ⟨l', hwait, hhl⟩ := Option.bind_eq_some_iff.mp hcw
        rw [hw w hwc'] at hwait
        by_cases hl : l' = l
        · grind
        · rw [hh, Function.update_of_ne hl] at hhl
          exact hpay.2 (.inr ⟨w, ⟨hwl, Option.bind_eq_some_iff.mpr ⟨l', hwait, hhl⟩⟩, rfl⟩)
    · apply (h.pays t ht (hset htc)).congr rfl _ (fun _ _ => rfl) rfl
      intro w
      rw [Backs, Backs, hal, hsame w t htc]

/-- The running thread starts to wait for a lock and donates. -/
theorem Fair.donate {s2 : State} {n : Nat} {h0 : Tid} (hset0 : Settled fs → Settled s.frames) (hc : s.current ∈ s.allList)
    (hlive : ∀ l t, s.holder l = some t → t ∈ s.allList) (hacq0 : acquiring s.frames = none)
    (hacq : acquiring fs = some l) (hheld : s.holder l = some h0) (hne : h0 ≠ s.current)
    (hd : comparePriorityAndUpdate (s.eff s.current) n (some h0) (wanting l (s.setFrames rest)) = .ok s2)
    (hal : s'.allList = s.allList) (hh : s'.holder = s.holder) (hown : s'.own = s.own) (heff : s'.eff = s2.eff)
    (hw : ∀ t, t ≠ s.current → (s'.thread t).waitingLock = (s.thread t).waitingLock)
    (hwc : (s'.thread s.current).waitingLock = some l)
    (hq : ∀ l' t, t ∈ (s.sema (.lock l')).waiters → t ∈ (s'.sema (.lock l')).waiters)
    (hqc : s.current ∈ (s'.sema (.lock l)).waiters) : Fair s' := by
  have hnone : creditor s s.current = none := by
    rw [creditor, h.waits _ hc]
    exact congrArg (Option.bind · s.holder) hacq0
  have hcur : creditor s' s.current = some h0 := by rw [creditor, hwc, hh, Option.bind_some, hheld]
  have hsame : ∀ t, t ≠ s.current → creditor s' t = creditor s t := by
    intro t htc
    rw [creditor, creditor, hw t htc, hh]
  have hself : ∀ t ∈ s.allList, creditor s' t ≠ some t := by
    intro t ht hx
    by_cases htc : t = s.current
    · grind
    · exact h.selfless t ht (hsame t htc ▸ hx)
  -- the donation finds the locks that threads wait for as they are afterwards
  have hwanting : creditor (wanting l (s.setFrames rest)) = creditor s' := by
    funext t
    by_cases htc : t = s.current
    · rw [htc, hcur, ← hheld]
      simp [creditor, wanting, State.mapThread, State.setFrames, State.setIntr]
    · rw [hsame t htc]
      simp [creditor, wanting, State.mapThread, State.setFrames, State.setIntr, htc]
  have heff0 := wanting_eff l s rest
  have hold : ∀ t ∈ s.allList, (t ≠ s.current → Settled (s.thread t).frames) → (t = s.current → Settled fs) →
      Pays s.own (Backs s) s.eff t := by
    intro t ht hset hsetc
    apply h.pays t ht
    by_cases htc : t = s.current
    · rw [htc]
      exact hset0 (hsetc htc)
    · exact hset htc
  apply h.turn he hfs hturn hal (fun t _ htc => hw t htc)
  · rw [hwc, hacq]
  · intro t ht l' hwl hhl
    by_cases htc : t = s.current
    · grind
    · exact hq l' t (h.queued t ht l' (hw t htc ▸ hwl) (hh ▸ hhl))
  · exact hself
  · intro t ht hset hsetc
    have hbacks : Backs s' = fun w t => w ∈ s.allList ∧ creditor s' w = some t := by
      funext w t
      rw [Backs, hal]
    rw [hown, heff, hbacks]
    refine donation_pays (D := fun t => t ∈ s.allList ∧ (t ≠ s.current → Settled (s.thread t).frames) ∧
      (t = s.current → Settled fs)) hself ?_ n _ _ _ hd hwanting ?_ ?_ ?_ t ⟨ht, hset, hsetc⟩
    · intro t u hx
      obtain ⟨l', -, hhl⟩ := Option.bind_eq_some_iff.mp hx
      exact hlive l' u (hh ▸ hhl)
    · grind
    · rintro t ⟨ht, hset, hsetc⟩ hth
      rw [heff0]
      apply (hold t ht hset hsetc).congr rfl _ (fun _ _ => rfl) rfl
      intro w
      refine and_congr_right fun _ => ?_
      grind
    · rintro t ⟨ht, hset, hsetc⟩ ⟨⟩
      rw [heff0]
      apply (hold _ ht hset hsetc).joined
      intro w
      by_cases hwc' : w = s.current
      · rw [hwc', hcur]
        simp [hc]
      · rw [hsame w hwc', Backs]
        simp [hwc']

end

/-- A new thread. -/
theorem Fair.create {d : Deed} (h : Fair s) (he : Effect s d s') (hc : s.current ∈ s.allList)
    (hfs : (s'.thread s.current).frames = fs) (hturn : Turns s s' fs) (hset0 : Settled fs → Settled s.frames)
    (hu : u ∉ s.allList)
    (hlive : ∀ l t, s.holder l = some t → t ∈ s.allList) (hal : s'.allList = s.allList ++ [u])
    (hh : s'.holder = s.holder) (hw : ∀ t, t ≠ u → (s'.thread t).waitingLock = (s.thread t).waitingLock)
    (hwu : (s'.thread u).waitingLock = none) (hown : ∀ t, t ≠ u → s'.own t = s.own t)
    (heff : ∀ t, t ≠ u → s'.eff t = s.eff t) (hpay : s'.eff u = s'.own u) (hacq : acquiring fs = none)
    (hacq0 : acquiring s.frames = none) (hq : ∀ l, (s'.sema (.lock l)).waiters = (s.sema (.lock l)).waiters) :
    Fair s' := by
  have huc : u ≠ s.current := fun e => hu (e ▸ hc)
  have hnew : (s'.thread u).frames = [.kernelThread] := by
    rcases he.others u (by simp [hal]) huc with ⟨hin, -⟩ | ⟨-, hx⟩
    · exact absurd hin hu
    · exact hx
  have hcases : ∀ {t : Tid}, t ∈ s'.allList → t ∈ s.allList ∧ t ≠ u ∨ t = u := by
    grind
  have hcred : ∀ t, t ≠ u → creditor s' t = creditor s t := by
    intro t htu
    rw [creditor, creditor, hw t htu, hh]
  have hcredu : creditor s' u = none := by rw [creditor, hwu]; rfl
  have hframes : ∀ t ∈ s.allList, t ≠ s.current → (s'.thread t).frames = (s.thread t).frames :=
    fun t ht htc => he.frames_other (by simp [hal, ht]) ht htc
  constructor
  · intro t ht
    rcases hcases ht with ⟨hin, htu⟩ | rfl
    · by_cases htc : t = s.current
      · rw [htc, hw _ (Ne.symm huc), h.waits _ hc, hfs, hacq]
        exact hacq0
      · rw [hw t htu, hframes t hin htc]
        exact h.waits t hin
    · rw [hwu, hnew]
      rfl
  · intro t ht l hwl hhl
    rcases hcases ht with ⟨hin, htu⟩ | rfl
    · rw [hq]
      exact h.queued t hin l (hw t htu ▸ hwl) (hh ▸ hhl)
    · rw [hwu] at hwl
      cases hwl
  · intro t ht hx
    rcases hcases ht with ⟨hin, htu⟩ | rfl
    · exact h.selfless t hin (hcred t htu ▸ hx)
    · rw [hcredu] at hx
      cases hx
  · intro t ht
    rcases hcases ht with ⟨hin, htu⟩ | rfl
    · by_cases htc : t = s.current
      · rw [htc, hfs]
        exact hturn.below
      · rw [hframes t hin htc]
        exact h.below t hin
    · rw [hnew]
      intro f hf
      cases hf
  · intro t ht torn htop
    rcases hcases ht with ⟨hin, htu⟩ | rfl
    · by_cases htc : t = s.current
      · rw [htc, hfs] at htop
        obtain ⟨hcur, htorn⟩ := hturn.walks torn htop
        exact ⟨htc.trans hcur.symm, htorn⟩
      · rw [hframes t hin htc] at htop
        exact absurd (h.walks t hin torn htop).1 htc
    · rw [hnew] at htop
      cases htop
  · intro t ht hset
    rcases hcases ht with ⟨hin, htu⟩ | rfl
    · have hset0 : Settled (s.thread t).frames := by
        by_cases htc : t = s.current
        · rw [htc] at hset ⊢
          rw [hfs] at hset
          exact hset0 hset
        · rwa [hframes t hin htc] at hset
      apply (h.pays t hin hset0).congr (hown t htu) _ _ (heff t htu)
      · intro w
        by_cases hwu' : w = u
        · rw [Backs, Backs, hwu', hcredu]
          simp [hu]
        · rw [Backs, Backs, hcred w hwu', hal]
          simp [hwu']
      · rintro w ⟨hwl, -⟩
        exact heff w fun e => hu (e ▸ hwl)
    · apply pays_alone hpay
      rintro w ⟨hwl, hcw⟩
      rcases hcases hwl with ⟨-, hwt⟩ | rfl
      · rw [hcred w hwt] at hcw
        obtain ⟨l, -, hhl⟩ := Option.bind_eq_some_iff.mp hcw
        exact hu (hlive l t hhl)
      · rw [hcredu] at hcw
        cases hcw

/-- A thread that holds no lock exits. -/
theorem Fair.exit {d : Deed} (h : Fair s) (he : Effect s d s') (ht : Tidy s) (hf : s.frames = [])
    (hal : s'.allList = s.allList.erase s.current) (hh : s'.holder = s.holder) (hw : ∀ t, (s'.thread t).waitingLock = (s.thread t).waitingLock)
    (hown : s'.own = s.own) (heff : s'.eff = s.eff)
    (hq : ∀ l, (s'.sema (.lock l)).waiters = (s.sema (.lock l)).waiters) : Fair s' := by
  have hmem : ∀ {t : Tid}, t ∈ s'.allList → t ≠ s.current ∧ t ∈ s.allList := by
    intro t htl
    rw [hal] at htl
    exact ht.nodup.mem_erase_iff.mp htl
  have hframes : ∀ {t : Tid}, t ∈ s'.allList → (s'.thread t).frames = (s.thread t).frames :=
    fun htl => he.frames_other htl (hmem htl).2 (hmem htl).1
  have hcred : creditor s' = creditor s := by
    funext t
    rw [creditor, creditor, hw, hh]
  have hnone : creditor s s.current = none := by
    rw [creditor, h.waits _ ht.live]
    exact congrArg (fun fs => (acquiring fs).bind s.holder) hf
  constructor
  · intro t htl
    rw [hw, hframes htl]
    exact h.waits t (hmem htl).2
  · intro t htl l
    rw [hw, hh, hq]
    exact h.queued t (hmem htl).2 l
  · intro t htl
    rw [hcred]
    exact h.selfless t (hmem htl).2
  · intro t htl
    rw [hframes htl]
    exact h.below t (hmem htl).2
  · intro t htl torn htop
    rw [hframes htl] at htop
    exact absurd (h.walks t (hmem htl).2 torn htop).1 (hmem htl).1
  · intro t htl hset
    rw [hframes htl] at hset
    rw [hown, heff]
    apply (h.pays t (hmem htl).2 hset).congr rfl _ (fun _ _ => rfl) rfl
    intro w
    rw [Backs, Backs, hcred, hal, ht.nodup.mem_erase_iff]
    constructor
    · grind
    · grind

end

end Pintos.Threads
