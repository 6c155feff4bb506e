import Pintos.Threads.SemaProofs

/-! `cond_signal` takes the waiter of highest priority (`threads/synch.c`).

Each thread in `cond_wait` is due one up of its semaphore. As long as it is on the list of a
condition the up is still to come; `cond_signal` takes it off the list and then owes the up; the
up leaves a unit in the semaphore, which the thread's `sema_down` takes (`Tokens`). So a thread
that is still listed and has got as far as its `sema_down` is asleep in it, alone, and comparing
the threads found in the semaphores compares the waiters. -/
namespace Pintos.Threads
open Kernel Outcome

/-- A frame of the `cond_wait` of thread `w`, up to the return of its `sema_down`. -/
def Frame.awaits (w : Tid) : Frame → Bool
  | .semaDown k => k = .waiter w
  | .down k _ => k = .waiter w
  | _ => false

/-- How often a stack is in the `cond_wait` of thread `w`, its `sema_down` not done. -/
def awaiting (w : Tid) (fs : List Frame) : Nat := fs.countP (Frame.awaits w)

/-- How often a stack is in the `sema_down` of that `cond_wait`. -/
def downing (w : Tid) (fs : List Frame) : Nat := fs.countP fun f => f.waitsOn = some (.waiter w)

/-- How many ups a stack owes to thread `w`. -/
def owed (w : Tid) (fs : List Frame) : Nat := fs.count (.semaUp (.waiter w))

structure Token (w : Tid) (s : State) : Prop where
  alone : ∀ c c', w ∈ s.cond c → w ∈ s.cond c' → c = c'
  listed : ∀ c, w ∈ s.cond c → 0 < total (awaiting w) s ∧ total (owed w) s + (s.sema (.waiter w)).value = 0
  spent : total (owed w) s + (s.sema (.waiter w)).value ≤ total (awaiting w) s
  once : total (awaiting w) s ≤ 1
  asleep : total (downing w) s ≤ (s.sema (.waiter w)).waiters.length + (s.sema (.waiter w)).value

structure Tokens (s : State) : Prop where
  nodup : ∀ c, (s.cond c).Nodup
  token : ∀ w, Token w s

section
variable {s s' s1 : State} {f : Frame} {fs fs' rest : List Frame} {k : SemaId} {l : LockId} {t v w : Tid} {c : Nat}
  {d : Deed}

/-! ### Weights -/

/-- The frames that use the semaphore of the waiter. -/
def uses (w : Tid) (fs : List Frame) : List Frame := fs.filter fun f => f.onSema = some (.waiter w)

theorem countP_uses {p : Frame → Bool} (hp : ∀ f, p f = true → f.onSema = some (.waiter w)) (fs : List Frame) :
    (uses w fs).countP p = fs.countP p := by
  rw [uses, List.countP_filter]
  apply List.countP_congr
  intro f _
  simp only [Bool.and_eq_true, decide_eq_true_eq]
  exact ⟨fun h => h.1, fun h => ⟨h, hp f h⟩⟩

theorem eq_down_of_waitsOn (h : f.waitsOn = some (.waiter w)) : ∃ on, f = .down (.waiter w) on := by
  cases f with
  | down k on =>
    cases h
    exact ⟨on, rfl⟩
  | _ => cases h

theorem onSema_of_awaits (h : f.awaits w = true) : f.onSema = some (.waiter w) := by
  cases f with
  | down k on | semaDown k => exact congrArg some (of_decide_eq_true h)
  | _ => cases h

theorem weights_of_uses (h : uses w fs' = uses w fs) :
    awaiting w fs' = awaiting w fs ∧ downing w fs' = downing w fs ∧ owed w fs' = owed w fs := by
  have hcount : ∀ p : Frame → Bool, (∀ f, p f = true → f.onSema = some (.waiter w)) → fs'.countP p = fs.countP p := by
    intro p hp
    rw [← countP_uses hp fs', h, countP_uses hp]
  refine ⟨hcount _ fun f => onSema_of_awaits, hcount _ ?_, hcount _ ?_⟩
  · intro f hf
    obtain ⟨on, rfl⟩ := eq_down_of_waitsOn (of_decide_eq_true hf)
    rfl
  · intro f hf
    rw [eq_of_beq hf]
    rfl

theorem uses_cons_of_ne (h : f.onSema ≠ some (.waiter w)) : uses w (f :: fs) = uses w fs := by
  simp [uses, h]

theorem uses_cons (h : f.onSema = none) : uses w (f :: fs) = uses w fs := uses_cons_of_ne (by simp [h])

theorem onSema_of_light (h : f.light = true) : f.onSema = none := by
  cases f <;> first | rfl | cases h

theorem Quiet.uses (h : Quiet fs fs') : uses w fs' = uses w fs := by
  cases h with
  | same => rfl
  | push hl _ _ => exact uses_cons (onSema_of_light hl)
  | pop hl => exact (uses_cons (onSema_of_light hl)).symm
  | swap hl hl' _ => exact (uses_cons (onSema_of_light hl')).trans (uses_cons (onSema_of_light hl)).symm

theorem uses_tear (fs : List Frame) : uses w (fs.modifyHead Frame.tear) = uses w fs := by
  cases fs with
  | nil => rfl
  | cons f fs => cases f <;> simp [Threads.uses, Frame.tear, List.modifyHead, Frame.onSema]

theorem Interrupted.uses {switch : Prop} (h : Interrupted switch s s' fs) : uses w fs = uses w s.frames := by
  obtain ⟨-, ⟨rfl, -⟩ | ⟨-, rfl⟩⟩ := h
  · rfl
  · exact (uses_cons rfl).trans (uses_tear _)

theorem Settles.uses (h : Settles rest fs) : uses w fs = uses w rest := by
  rcases h with rfl | ⟨on, rfl⟩
  · rfl
  · exact uses_cons rfl

theorem Starts.uses {before : List Frame} (h : Starts f before rest) (hf : f.onSema = none) :
    uses w rest = uses w before := by
  rcases h with ⟨rfl, rfl⟩ | rfl
  · rfl
  · exact (uses_cons hf).symm

theorem StartsAcquire.uses {before : List Frame} (h : StartsAcquire l before rest) : uses w rest = uses w before := by
  rcases h with h | ⟨rfl, p, -, rfl⟩
  · exact h.uses rfl
  · rfl

theorem total_mono {weight weight' : List Frame → Nat} (h : ∀ fs, weight fs ≤ weight' fs) (s : State) :
    total weight s ≤ total weight' s :=
  List.sum_le_sum fun t _ => h (s.thread t).frames

theorem downing_le (w : Tid) (s : State) : total (downing w) s ≤ total (awaiting w) s := by
  apply total_mono
  intro fs
  apply List.countP_mono_left
  intro f _ hf
  obtain ⟨on, rfl⟩ := eq_down_of_waitsOn (of_decide_eq_true hf)
  exact decide_eq_true rfl

/-- Only the thread itself is in its `cond_wait`. -/
theorem Tidy.awaits_self (h : Tidy s) (ht : t ∈ s.allList) (hf : f ∈ (s.thread t).frames) (ha : f.awaits w = true) :
    t = w := by
  have hp := h.owned t ht f hf
  cases f with
  | down k on | semaDown k => exact ((hp .tid w).2 (by simpa [Frame.awaits] using ha)).symm
  | _ => cases ha

theorem Tidy.awaiting_zero (h : Tidy s) (hw : awaiting w (s.thread w).frames = 0) : total (awaiting w) s = 0 := by
  apply total_zero
  intro t ht
  by_cases htw : t = w
  · rw [htw, hw]
  · rw [awaiting, List.countP_eq_zero]
    intro f hf ha
    exact htw (h.awaits_self ht hf ha)

/-! ### What the operations do to a token -/

/-- Only the stack of the running thread changes the counts. -/
theorem Effect.weights (he : Effect s d s') (ht : Tidy s) (hfs : (s'.thread s.current).frames = fs) (w : Tid) :
    total (awaiting w) s' + awaiting w s.frames = total (awaiting w) s + awaiting w fs ∧
      total (downing w) s' + downing w s.frames = total (downing w) s + downing w fs ∧
      total (owed w) s' + owed w s.frames = total (owed w) s + owed w fs := by
  subst hfs
  exact ⟨he.total_change _ ht rfl rfl, he.total_change _ ht rfl rfl, he.total_change _ ht rfl rfl⟩

theorem Token.same (h : Token w s) (he : Effect s d s') (ht : Tidy s) (hfs : (s'.thread s.current).frames = fs)
    (hcond : ∀ c, w ∈ s'.cond c → w ∈ s.cond c) (hsema : s'.sema (.waiter w) = s.sema (.waiter w))
    (hu : uses w fs = uses w s.frames) : Token w s' := by
  obtain ⟨ha, hd, ho⟩ := he.weights ht hfs w
  obtain ⟨hau, hdu, hou⟩ := weights_of_uses hu
  have ha : total (awaiting w) s' = total (awaiting w) s := by omega
  have hd : total (downing w) s' = total (downing w) s := by omega
  have ho : total (owed w) s' = total (owed w) s := by omega
  refine ⟨fun c c' hc hc' => h.alone c c' (hcond c hc) (hcond c' hc'), ?_, ?_, ?_, ?_⟩
  · intro c hc
    rw [ha, ho, hsema]
    exact h.listed c (hcond c hc)
  · rw [ha, ho, hsema]
    exact h.spent
  · rw [ha]
    exact h.once
  · rw [hd, hsema]
    exact h.asleep

/-- What one thread does to one semaphore leaves the other tokens alone. -/
theorem Tokens.turn (h : Tokens s) (he : Effect s d s') (ht : Tidy s) (hfs : (s'.thread s.current).frames = fs)
    (hnodup : ∀ c, (s'.cond c).Nodup) (hcond : ∀ c w, w ≠ v → w ∈ s'.cond c → w ∈ s.cond c)
    (hsema : ∀ w, w ≠ v → s'.sema (.waiter w) = s.sema (.waiter w)) (hu : ∀ w, w ≠ v → uses w fs = uses w s.frames)
    (hv : Token v s') : Tokens s' := by
  refine ⟨hnodup, ?_⟩
  intro w
  by_cases hw : w = v
  · exact hw ▸ hv
  · exact (h.token w).same he ht hfs (fun c => hcond c w hw) (hsema w hw) (hu w hw)

theorem Tokens.still (h : Tokens s) (he : Effect s d s') (ht : Tidy s) (hg : Goes fs s1 s')
    (hcur : s1.current = s.current) (hcond : s1.cond = s.cond)
    (hsema : ∀ w, s1.sema (.waiter w) = s.sema (.waiter w)) (hu : ∀ w, uses w fs = uses w s.frames) : Tokens s' := by
  have hc : s'.cond = s.cond := hg.moves.cond.trans hcond
  have hfs : (s'.thread s.current).frames = fs := hcur ▸ hg.moves.frames_current
  refine ⟨fun c => hc ▸ h.nodup c, fun w => (h.token w).same he ht hfs (fun c hw => hc ▸ hw) ?_ (hu w)⟩
  rw [hg.moves.sema]
  exact hsema w

theorem weights_cons (w : Tid) (f : Frame) (fs : List Frame) :
    awaiting w (f :: fs) = awaiting w fs + (f.awaits w).toNat ∧
      downing w (f :: fs) = downing w fs + (decide (f.waitsOn = some (.waiter w))).toNat ∧
      owed w (f :: fs) = owed w fs + (decide (f = .semaUp (.waiter w))).toNat := by
  refine ⟨?_, ?_, ?_⟩
  · rw [awaiting, List.countP_cons]
    cases f.awaits w <;> rfl
  · rw [downing, List.countP_cons]
    cases hd : decide (f.waitsOn = some (.waiter w)) <;> simp_all [downing]
  · rw [owed, List.count_cons]
    by_cases hf : f = .semaUp (.waiter w) <;> simp [hf, owed]

/-- A thread in its own code is in no `cond_wait`. -/
theorem Usable.cons (h : Usable (.waiter v) s.frames) (hst : Starts f s.frames rest) : s.frames = f :: rest := by
  rcases hst with ⟨hf, -⟩ | hf
  · exact absurd rfl (h.2 hf v)
  · exact hf

/-- The thread of a `cond_wait` goes to sleep in its `sema_down`. -/
theorem Tokens.wait (h : Tokens s) (he : Effect s d s') (ht : Tidy s) (hw : f.waitsOn = some k)
    (hst : s.frames = f :: fs ∨ (∃ on, f = .down k on) ∧ Usable k s.frames ∧ Starts (.semaDown k) s.frames fs)
    (hg : Goes (f :: fs) (enqueued k s) s') : Tokens s' := by
  have hfs : (s'.thread s.current).frames = f :: fs := hg.moves.frames_current
  have hcond : s'.cond = s.cond := hg.moves.cond
  have hsema : s'.sema = (enqueued k s).sema := hg.moves.sema
  cases k with
  | waiter v =>
    have hsv : s'.sema (.waiter v) = ⟨(s.sema (.waiter v)).value, (s.sema (.waiter v)).waiters ++ [s.current]⟩ := by
      simp [hsema, enqueued, State.mapSema]
    obtain ⟨on, rfl⟩ := eq_down_of_waitsOn hw
    have hf : s.frames = .down (.waiter v) on :: fs ∨ s.frames = .semaDown (.waiter v) :: fs := by
      rcases hst with hf | ⟨-, hu, hst⟩
      · exact .inl hf
      · exact .inr (hu.cons hst)
    refine h.turn (v := v) he ht hfs (fun c => hcond ▸ h.nodup c) (fun c w _ hw => hcond ▸ hw) ?_ ?_ ?_
    · intro w hw
      simp [hsema, enqueued, State.mapSema, hw]
    · intro w hw
      have hd : uses w (.down (.waiter v) on :: fs) = uses w fs := uses_cons_of_ne (by simp [Frame.onSema, Ne.symm hw])
      have hs : uses w (.semaDown (.waiter v) :: fs) = uses w fs := uses_cons_of_ne (by simp [Frame.onSema, Ne.symm hw])
      grind
    · obtain ⟨ha, hd, ho⟩ := he.weights ht hfs v
      have hnum : awaiting v s.frames = awaiting v fs + 1 ∧ owed v s.frames = owed v fs := by
        rcases hf with hf | hf <;> simp [hf, weights_cons, Frame.awaits]
      simp only [weights_cons, Frame.awaits, Frame.waitsOn, decide_true, Bool.toNat_true, reduceCtorEq, decide_false,
        Bool.toNat_false, Nat.add_zero, hnum] at ha hd ho
      have hdown : downing v fs ≤ downing v s.frames := by
        rcases hf with hf | hf <;> simp [hf, weights_cons]
      have hv := h.token v
      refine ⟨hcond ▸ hv.alone, ?_, ?_, ?_, ?_⟩
      · intro c hc
        have hl := hv.listed c (hcond ▸ hc)
        rw [hsv]
        simp only
        omega
      · rw [hsv]
        have hsp := hv.spent
        simp only
        omega
      · have ho := hv.once
        omega
      · rw [hsv]
        have has := hv.asleep
        grind
  | _ =>
    refine h.still he ht hg rfl rfl (fun w => by simp [enqueued, State.mapSema]) fun w => ?_
    have hfu : f.onSema ≠ some (.waiter w) := by
      cases f with
      | down k on =>
        cases hw
        simp [Frame.onSema]
      | acquire l on => simp [Frame.onSema]
      | _ => cases hw
    rcases hst with hf | ⟨-, -, hst⟩
    · rw [hf]
    · rw [uses_cons_of_ne hfu]
      rcases hst with ⟨hf, rfl⟩ | hf
      · rw [hf]
      · rw [hf, uses_cons_of_ne (by simp [Frame.onSema])]

/-- The thread of a `cond_wait` takes the unit it was woken with. -/
theorem Tokens.take (h : Tokens s) (he : Effect s d s') (ht : Tidy s) (hv : (s.sema k).value ≠ 0)
    (hu : Usable k s.frames) (hst : Starts (.semaDown k) s.frames fs ∨ ∃ on, s.frames = .down k on :: fs)
    (hg : Goes fs (semaTake k s) s') : Tokens s' := by
  have hfs : (s'.thread s.current).frames = fs := hg.moves.frames_current
  have hcond : s'.cond = s.cond := hg.moves.cond
  have hsema : s'.sema = (semaTake k s).sema := hg.moves.sema
  cases k with
  | waiter v =>
    have hf : s.frames = .semaDown (.waiter v) :: fs ∨ ∃ on, s.frames = .down (.waiter v) on :: fs :=
      hst.imp hu.cons id
    refine h.turn (v := v) he ht hfs (fun c => hcond ▸ h.nodup c) (fun c w _ hw => hcond ▸ hw) ?_ ?_ ?_
    · intro w hw
      simp [hsema, semaTake, State.mapSema, State.record, hw]
    · intro w hw
      have hne : SemaId.waiter v ≠ .waiter w := by simpa using Ne.symm hw
      rcases hf with hf | ⟨on, hf⟩ <;> rw [hf, uses_cons_of_ne (by simpa [Frame.onSema] using hne)]
    · have hsv : s'.sema (.waiter v) = ⟨(s.sema (.waiter v)).value - 1, (s.sema (.waiter v)).waiters⟩ := by
        simp [hsema, semaTake, State.mapSema, State.record]
      obtain ⟨ha, -, ho⟩ := he.weights ht hfs v
      have hnum : awaiting v s.frames = awaiting v fs + 1 ∧ owed v s.frames = owed v fs := by
        rcases hf with hf | ⟨on, hf⟩ <;> simp [hf, weights_cons, Frame.awaits]
      have hle := downing_le v s'
      have htok := h.token v
      have hspent := htok.spent
      have honce := htok.once
      refine ⟨hcond ▸ htok.alone, ?_, ?_, by omega, by omega⟩
      · intro c hc
        have hl := htok.listed c (hcond ▸ hc)
        omega
      · rw [hsv]
        simp only
        omega
  | _ =>
    refine h.still he ht hg rfl rfl (fun w => by simp [semaTake, State.mapSema, State.record]) fun w => ?_
    rcases hst with (⟨hf, rfl⟩ | hf) | ⟨on, hf⟩
    · rw [hf]
    · rw [hf, uses_cons_of_ne (by simp [Frame.onSema])]
    · rw [hf, uses_cons_of_ne (by simp [Frame.onSema])]

/-- The up that `cond_signal` owes. -/
theorem Tokens.up (h : Tokens s) (he : Effect s d s') (ht : Tidy s) (hu : Usable k s.frames)
    (hst : Starts (.semaUp k) s.frames rest) (hg : Goes (.yieldIf false :: rest) (upped k (s.setFrames rest)) s') :
    Tokens s' := by
  have hfs : (s'.thread s.current).frames = .yieldIf false :: rest := hg.moves.frames_current
  have hcond : s'.cond = s.cond := hg.moves.cond
  have hsema : s'.sema = (upped k (s.setFrames rest)).sema := hg.moves.sema
  cases k with
  | waiter v =>
    have hf := hu.cons hst
    refine h.turn (v := v) he ht hfs (fun c => hcond ▸ h.nodup c) (fun c w _ hw => hcond ▸ hw) ?_ ?_ ?_
    · intro w hw
      simp [hsema, upped, State.setFrames, State.mapThread, hw]
    · intro w hw
      rw [uses_cons rfl, hf, uses_cons_of_ne (by simpa [Frame.onSema] using Ne.symm hw)]
    · have hvalue : (s'.sema (.waiter v)).value = ((s.sema (.waiter v)).value + 1) % 2 ^ 32 := by
        simp [hsema, upped, State.setFrames, State.mapThread]
      have hwait : (s'.sema (.waiter v)).waiters.length = (s.sema (.waiter v)).waiters.length - 1 := by
        rw [hsema]
        simp only [upped, Function.update_self]
        exact upped_waiters (.waiter v) (s.setFrames rest)
      obtain ⟨ha, hd, ho⟩ := he.weights ht hfs v
      simp only [hf, weights_cons, Frame.awaits, Frame.waitsOn, reduceCtorEq, decide_false, decide_true, Bool.toNat_false,
        Bool.toNat_true, Nat.add_zero] at ha hd ho
      have htok := h.token v
      have hspent := htok.spent
      have honce := htok.once
      have hasleep := htok.asleep
      rw [Nat.mod_eq_of_lt (by omega)] at hvalue
      refine ⟨hcond ▸ htok.alone, ?_, by omega, by omega, by omega⟩
      intro c hc
      have hl := htok.listed c (hcond ▸ hc)
      omega
  | _ =>
    refine h.still he ht hg rfl rfl (fun w => by simp [upped, State.setFrames, State.mapThread]) fun w => ?_
    rw [uses_cons rfl]
    rcases hst with ⟨hf, rfl⟩ | hf
    · rw [hf]
    · rw [hf, uses_cons_of_ne (by simp [Frame.onSema])]

/-- A thread puts itself on the list of a condition. -/
theorem Tokens.list (h : Tokens s) (he : Effect s d s') (ht : Tidy s) (hf : s.frames = [])
    (hg : Goes [.lockRelease (s.condLock c), .semaDown (.waiter s.current), .lockAcquire (s.condLock c)]
      {s.mapSema (.waiter s.current) (fun _ => ⟨0, []⟩) with
        cond := Function.update s.cond c (s.cond c ++ [s.current])} s') : Tokens s' := by
  have hfs := hg.moves.frames_current
  have hcond : s'.cond = Function.update s.cond c (s.cond c ++ [s.current]) := hg.moves.cond
  have hsema : s'.sema = (s.mapSema (.waiter s.current) fun _ => ⟨0, []⟩).sema := hg.moves.sema
  have hzero : total (awaiting s.current) s = 0 := by
    apply ht.awaiting_zero
    have hf : (s.thread s.current).frames = [] := hf
    rw [hf]
    rfl
  have htok := h.token s.current
  have hout : ∀ c', s.current ∉ s.cond c' := by
    intro c' hc
    have hl := (htok.listed c' hc).1
    omega
  have hmem : ∀ c' w, w ∈ s'.cond c' ↔ w ∈ s.cond c' ∨ c' = c ∧ w = s.current := by
    intro c' w
    rw [hcond]
    grind
  refine h.turn (v := s.current) he ht hfs ?_ ?_ ?_ ?_ ?_
  · intro c'
    rw [hcond]
    by_cases hc : c' = c
    · rw [hc, Function.update_self, List.nodup_append]
      refine ⟨h.nodup c, by simp, ?_⟩
      grind
    · rw [Function.update_of_ne hc]
      exact h.nodup c'
  · grind
  · intro w hw
    simp [hsema, State.mapSema, hw]
  · intro w hw
    simp [hf, uses, Frame.onSema, Ne.symm hw]
  · have hsv : s'.sema (.waiter s.current) = ⟨0, []⟩ := by simp [hsema, State.mapSema]
    obtain ⟨ha, hd, ho⟩ := he.weights ht hfs s.current
    simp only [hf, weights_cons, Frame.awaits, Frame.waitsOn, reduceCtorEq, decide_false, decide_true, Bool.toNat_false,
      Bool.toNat_true, Nat.add_zero] at ha hd ho
    have hspent := htok.spent
    have hle := downing_le s.current s
    have hnil : awaiting s.current [] = 0 ∧ downing s.current [] = 0 ∧ owed s.current [] = 0 := ⟨rfl, rfl, rfl⟩
    refine ⟨?_, ?_, ?_, by omega, by omega⟩
    · grind
    · grind
    · rw [hsv]
      simp only
      omega

/-- `cond_signal` takes a thread off the list and owes it an up. -/
theorem Tokens.signal (h : Tokens s) (he : Effect s d s') (ht : Tidy s) {torn : Bool} (hf : s.frames = .signal c torn :: rest)
    (hv : v ∈ s.cond c)
    (hg : Goes (.semaUp (.waiter v) :: rest) {s with cond := Function.update s.cond c ((s.cond c).erase v)} s') :
    Tokens s' := by
  have hfs := hg.moves.frames_current
  have hcond : s'.cond = Function.update s.cond c ((s.cond c).erase v) := hg.moves.cond
  have hsema : s'.sema = s.sema := hg.moves.sema
  have htok := h.token v
  have hmem : ∀ c' w, w ∈ s'.cond c' → w ∈ s.cond c' := by
    intro c' w hw
    rw [hcond] at hw
    grind
  have hgone : ∀ c', v ∉ s'.cond c' := by
    intro c' hc
    have heq : c' = c := htok.alone c' c (hmem c' v hc) hv
    rw [heq, hcond, Function.update_self] at hc
    exact (h.nodup c).not_mem_erase hc
  refine h.turn (v := v) he ht hfs ?_ (fun c' w _ => hmem c' w) (fun w _ => by rw [hsema]) ?_ ?_
  · intro c'
    rw [hcond]
    by_cases hc : c' = c
    · rw [hc, Function.update_self]
      exact (h.nodup c).erase v
    · rw [Function.update_of_ne hc]
      exact h.nodup c'
  · intro w hw
    rw [hf, uses_cons (f := .signal c torn) rfl, uses_cons_of_ne (by simpa [Frame.onSema] using Ne.symm hw)]
  · obtain ⟨ha, hd, ho⟩ := he.weights ht hfs v
    simp only [hf, weights_cons, Frame.awaits, Frame.waitsOn, reduceCtorEq, decide_false, decide_true, Bool.toNat_false,
      Bool.toNat_true, Nat.add_zero] at ha hd ho
    have hl := htok.listed c hv
    have honce := htok.once
    have hasleep := htok.asleep
    refine ⟨fun c1 _ h1 _ => absurd h1 (hgone c1), fun c' hc => absurd hc (hgone c'), ?_, by omega, ?_⟩
    · rw [hsema]
      omega
    · rw [hsema]
      omega

/-! ### Every act -/

theorem mem_of_nextSemaForCond {torn : Bool} {choice : Nat} (h : nextSemaForCond c torn choice s = some w) :
    w ∈ s.cond c := by
  unfold nextSemaForCond at h
  split at h
  · exact mem_of_listMax h
  · exact List.mem_of_getElem? h

theorem donation_cond {p : Int} {n : Nat} {u : Option Tid} {s2 : State}
    (h : comparePriorityAndUpdate p n u (wanting l (s.setFrames rest)) = .ok s2) : s2.cond = s.cond := by
  obtain ⟨eff, rfl⟩ := donation_raised h
  rfl

theorem released_waiter (l : LockId) (s : State) (w : Tid) :
    (released l s).sema (.waiter w) = s.sema (.waiter w) := by
  simp [released, upped, State.setIntr, State.setHolder]

theorem Effect.tokens (he : Effect s d s') (h : Tokens s) (ht : Tidy s) : Tokens s' := by
  cases id he with
  | quiet hq hg => exact h.still he ht hg rfl rfl (fun _ => rfl) fun _ => hq.uses
  | setPriority hf _ hg | sleep hf hg | pushBlock hf hg =>
    exact h.still he ht hg rfl rfl (fun _ => rfl) fun _ => by rw [hf]; rfl
  | calculate hf _ hg | setHolder hf hg =>
    exact h.still he ht hg rfl rfl (fun _ => rfl) fun _ => by rw [hf, uses_cons rfl]
  | wait hw _ hst hg => exact h.wait he ht hw hst hg
  | take hv hu hst hg => exact h.take he ht hv hu hst hg
  | acquireWait hst _ hd _ _ hg =>
    obtain ⟨hsema, -, -, hcur⟩ := donation_kept hd
    have hcond := donation_cond hd
    refine h.still he ht hg hcur hcond (fun w => ?_) fun _ => (uses_cons rfl).trans hst.uses
    simp [enqueued, State.mapSema, hsema]
  | acquireTake hst _ hd _ _ hg =>
    obtain ⟨hsema, -, -, hcur⟩ := donation_kept hd
    have hcond := donation_cond hd
    refine h.still he ht hg hcur hcond (fun w => ?_) fun _ => hst.uses
    simp [locked, semaTake, State.mapSema, State.record, State.mapThread, State.setHolder, hsema]
  | acquireAgain hf _ _ hg =>
    refine h.still he ht hg rfl rfl (fun w => ?_) fun _ => by rw [hf, uses_cons rfl]
    simp [locked, semaTake, State.mapSema, State.record, State.mapThread, State.setHolder]
  | tryAcquire hf _ _ hg =>
    refine h.still he ht hg rfl rfl (fun w => ?_) fun _ => by rw [hf]; rfl
    simp [semaTake, State.mapSema, State.record]
  | releaseYield hst _ _ hg =>
    exact h.still he ht hg rfl rfl (released_waiter _ _) fun _ => (uses_cons rfl).trans (hst.uses rfl)
  | @releaseDone _ _ l _ rest _ _ _ hst _ _ _ _ hset hg =>
    exact h.still he ht hg rfl rfl (released_waiter l (s.setFrames rest)) fun _ => hset.uses.trans (hst.uses rfl)
  | unlink hf _ _ hset hg =>
    exact h.still he ht hg rfl rfl (fun _ => rfl) fun _ => hset.uses.trans (by rw [hf, uses_cons rfl])
  | up hst hu hg => exact h.up he ht hu hst hg
  | device hi hg => exact h.still he ht hg rfl rfl (fun w => by simp [upped]) fun _ => hi.uses
  | condWait hf _ hg => exact h.list he ht hf hg
  | signal hf _ hn hg => exact h.signal he ht hf (mem_of_nextSemaForCond hn) hg
  | create hf _ _ _ hg => exact h.still he ht hg rfl rfl (fun _ => rfl) fun _ => by simp [hf, uses, Frame.onSema]
  | exit hf hg => exact h.still he ht hg rfl rfl (fun _ => rfl) fun _ => by rw [hf]
  | tick hi hg => exact h.still he ht hg rfl rfl (fun _ => rfl) fun _ => hi.uses

theorem booted_tokens (h : Booted s) : Tokens s := by
  obtain ⟨values, condLock, rfl⟩ := h
  have hzero : ∀ weight : List Frame → Nat, weight [] = 0 → weight [.setLevel true, .idleBlock] = 0 →
      total weight (booted values condLock) = 0 := by
    intro weight h0 h1
    simp [total, booted, h0, h1]
  refine ⟨fun c => List.nodup_nil, fun w => ⟨?_, ?_, ?_, ?_, ?_⟩⟩
  · intro c c' hc
    cases hc
  · intro c hc
    cases hc
  · rw [hzero (owed w) rfl rfl]
    exact Nat.zero_le _
  · rw [hzero (awaiting w) rfl rfl]
    exact Nat.zero_le _
  · rw [hzero (downing w) rfl rfl]
    exact Nat.zero_le _

theorem Reachable.tokens (hr : Reachable s) : Tokens s :=
  hr.effects (fun _ => booted_tokens) fun _ _ _ _ ht _ h _ _ _ _ he => he.tokens h ht

/-! ### `cond_signal` -/

/-- A listed thread that has come to its `sema_down` is asleep in it, and nobody else is. -/
theorem Tokens.sleeper (h : Tokens s) (ht : Tidy s) (hw : w ∈ s.cond c)
    (hreach : Frame.semaDown (.waiter w) ∉ (s.thread w).frames) : sleeper s w = some w := by
  have htok := h.token w
  obtain ⟨hpos, hzero⟩ := htok.listed c hw
  have hframe : ∃ on, Frame.down (.waiter w) on ∈ (s.thread w).frames ∧ w ∈ s.allList := by
    have hne : awaiting w (s.thread w).frames ≠ 0 := by
      intro hz
      rw [ht.awaiting_zero hz] at hpos
      exact absurd hpos (by omega)
    obtain ⟨f, hf, ha⟩ := List.countP_pos_iff.mp (Nat.pos_of_ne_zero hne)
    have hl : w ∈ s.allList := by
      by_contra hout
      have hz : total (awaiting w) s = 0 := by
        apply total_zero
        intro t htl
        rw [awaiting, List.countP_eq_zero]
        intro g hg hga
        exact hout (ht.awaits_self htl hg hga ▸ htl)
      omega
    cases f with
    | down k on =>
      have hk : k = .waiter w := by simpa [Frame.awaits] using ha
      exact ⟨on, hk ▸ hf, hl⟩
    | semaDown k =>
      have hk : k = .waiter w := by simpa [Frame.awaits] using ha
      exact absurd (hk ▸ hf) hreach
    | _ => cases ha
  obtain ⟨on, hdown, hl⟩ := hframe
  have hone : 0 < downing w (s.thread w).frames := List.countP_pos_iff.mpr ⟨_, hdown, by simp [Frame.waitsOn]⟩
  have hle := le_total (downing w) hl
  have hasleep := htok.asleep
  have hne : (s.sema (.waiter w)).waiters ≠ [] := List.length_pos_iff.mp (by omega)
  obtain ⟨t, ts, hts⟩ := List.exists_cons_of_ne_nil hne
  obtain ⟨htl, -, f, hf, hfw⟩ := (ht.waiters (.waiter w) t).mp (by simp [hts])
  have hself : f.awaits w = true := by
    obtain ⟨on, rfl⟩ := eq_down_of_waitsOn hfw
    exact decide_eq_true rfl
  rw [Threads.sleeper, hts, List.head?_cons, ht.awaits_self htl (List.mem_of_head? hf) hself]

/-- When `cond_signal` looks at two threads or more, all of them have come to their `sema_down`
and no other thread has run since it began to look. -/
def Arrived (c : Nat) (torn : Bool) (s : State) : Prop :=
  (s.cond c).length ≤ 1 ∨ torn = false ∧ ∀ w ∈ s.cond c, Frame.semaDown (.waiter w) ∉ (s.thread w).frames

/-- The step from `s` to `s'` takes `w`, and no other thread, off the list of the condition, owes
its semaphore an up, and no thread on the list has a higher priority. -/
structure Signals (c : Nat) (w : Tid) (s s' : State) : Prop where
  taken : (s.cond c).Perm (w :: s'.cond c)
  gone : w ∉ s'.cond c
  others : ∀ c', c' ≠ c → s'.cond c' = s.cond c'
  up : s'.current = s.current ∧ s'.frames = .semaUp (.waiter w) :: s.frames.tail
  highest : ∀ u ∈ s.cond c, s.eff u ≤ s.eff w

theorem comparable_of_arrived (ht : Tidy s) (h : Tokens s) {torn : Bool} (ha : Arrived c torn s)
    (htwo : 2 ≤ (s.cond c).length) : torn = false ∧ ∀ w ∈ s.cond c, sleeper s w = some w := by
  rcases ha with hone | ⟨htorn, hreach⟩
  · omega
  · exact ⟨htorn, fun w hw => h.sleeper ht hw (hreach w hw)⟩

/-- The waiter taken has the highest priority. -/
theorem highest_of_next (ht : Tidy s) (h : Tokens s) {torn : Bool} {choice : Nat} (ha : Arrived c torn s)
    (hn : nextSemaForCond c torn choice s = some w) : ∀ u ∈ s.cond c, s.eff u ≤ s.eff w := by
  have hw := mem_of_nextSemaForCond hn
  by_cases htwo : 2 ≤ (s.cond c).length
  · obtain ⟨rfl, hsleep⟩ := comparable_of_arrived ht h ha htwo
    have hcomp : comparable s (s.cond c) = true := by
      simp only [comparable, Bool.or_eq_true, List.all_eq_true]
      grind
    rw [nextSemaForCond, hcomp] at hn
    intro u hu
    have hle := le_listMax hn u hu
    simpa [hsleep u hu, hsleep w hw] using hle
  · intro u hu
    obtain ⟨x, hx⟩ : ∃ x, s.cond c = [x] := by
      rw [← List.length_eq_one_iff]
      grind
    grind

/-- The state after `cond_signal` has taken `w`. -/
def signalled (c : Nat) (w : Tid) (s : State) : State :=
  ({s with cond := Function.update s.cond c ((s.cond c).erase w)}.pop).push (.semaUp (.waiter w))

theorem signal_step {torn : Bool} (choice : Int) (hf : s.frames = .signal c torn :: rest) (hne : s.cond c ≠ []) :
    (Act.go choice).step s = match nextSemaForCond c torn choice.toNat s with
      | none => .error .diverges
      | some w => .ok (signalled c w s) := by
  simp only [Act.step, hf, resume, condSignal, if_neg hne]
  rfl

theorem nextSemaForCond_zero (torn : Bool) (hne : s.cond c ≠ []) : ∃ w, nextSemaForCond c torn 0 s = some w := by
  obtain ⟨x, xs, hx⟩ := List.exists_cons_of_ne_nil hne
  unfold nextSemaForCond
  rw [hx]
  split
  · exact ⟨_, rfl⟩
  · exact ⟨x, rfl⟩

/-- `cond_signal` at a condition with waiters, in any run: it compares only threads asleep on
their semaphores, it takes one, and that has the highest priority. -/
theorem signal_takes_highest {torn : Bool} (hr : Reachable s) (hf : s.frames = .signal c torn :: rest)
    (hne : s.cond c ≠ []) (ha : Arrived c torn s) :
    (2 ≤ (s.cond c).length → ∀ w ∈ s.cond c, sleeper s w = some w) ∧
      (∃ choice s', (Act.go choice).step s = .ok s') ∧
      ∀ choice s', (Act.go choice).step s = .ok s' → ∃ w ∈ s.cond c, Signals c w s s' := by
  have ht := hr.tidy
  have hk := hr.tokens
  refine ⟨fun htwo => (comparable_of_arrived ht hk ha htwo).2, ?_, ?_⟩
  · obtain ⟨w, hw⟩ := nextSemaForCond_zero torn hne
    refine ⟨0, signalled c w s, ?_⟩
    rw [signal_step 0 hf hne, Int.toNat_zero, hw]
  · intro choice s' hs
    rw [signal_step choice hf hne] at hs
    split at hs
    · cases hs
    · rename_i w hn
      cases hs
      have hw := mem_of_nextSemaForCond hn
      have hcond : (signalled c w s).cond = Function.update s.cond c ((s.cond c).erase w) := rfl
      refine ⟨w, hw, ?_, ?_, ?_, ⟨rfl, ?_⟩, highest_of_next ht hk ha hn⟩
      · rw [hcond, Function.update_self]
        exact List.perm_cons_erase hw
      · rw [hcond, Function.update_self]
        exact (hk.nodup c).not_mem_erase
      · intro c' hc
        rw [hcond, Function.update_of_ne hc]
      · simp [signalled, State.push, State.pop, State.setFrames, State.mapThread, State.frames]

instance (c : Nat) (torn : Bool) (s : State) : Decidable (Arrived c torn s) := by
  unfold Arrived
  infer_instance

/-- Two threads, of priorities 40 and 41, are asleep in `cond_wait`, and the main thread signals. -/
theorem signal_takes_highest_of_two :
    ∃ s, Reachable s ∧ s.frames = [.signal 0 false] ∧ s.cond 0 = [2, 3] ∧ Arrived 0 false s ∧
      ∀ choice s', (Act.go choice).step s = .ok s' → ∃ w ∈ s.cond 0, Signals 0 w s s' := by
  let wait : List Act := [.go 0, .call (.lockAcquire 0) 1, .call (.condWait 0) 0, .go 2, .go 0]
  let acts : List (List Act) :=
    [creation 40 2, wait, [.go 0], creation 41 3, wait, [.go 0, .call (.lockAcquire 0) 1, .call (.condSignal 0) 0]]
  obtain ⟨s, hr, hf, hc, ha⟩ := reachable_of_after (fun _ _ => True) acts.flatten
    (fun s => s.frames = [.signal 0 false] ∧ s.cond 0 = [2, 3] ∧ Arrived 0 false s) (by decide +kernel)
  exact ⟨s, hr, hf, hc, ha, (signal_takes_highest hr hf (by simp [hc]) ha).2.2⟩

/-- Thread 3 loses the processor between the `lock_release` and the `sema_down` of its
`cond_wait`. The `cond_signal` of the main thread then compares two waiters, and there is no
thread in the semaphore of the second. -/
theorem signal_compares_empty :
    ∃ s, Reachable s ∧ s.frames = [.signal 0 false] ∧ s.cond 0 = [2, 3] ∧ (s.sema (.waiter 3)).waiters = [] := by
  let acts : List (List Act) :=
    [creation 40 2, [.go 0, .call (.lockAcquire 0) 1, .call (.condWait 0) 0, .go 2, .go 0], [.go 0], creation 31 3,
      [.call .threadYield 0, .go 0, .call (.lockAcquire 0) 1, .call (.condWait 0) 0, .go 2, .tick, .tick, .tick, .tick],
      [.go 0, .call (.lockAcquire 0) 1, .call (.condSignal 0) 0]]
  exact reachable_of_after (fun _ _ => True) acts.flatten
    (fun s => s.frames = [.signal 0 false] ∧ s.cond 0 = [2, 3] ∧ (s.sema (.waiter 3)).waiters = []) (by decide +kernel)

end

end Pintos.Threads
