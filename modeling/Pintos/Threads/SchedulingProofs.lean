import Pintos.Library.Donation
import Pintos.Threads.EffectProofs

/-! Who runs (`schedule` and `thread_yield_if_necessery`).

`schedule` picks a ready thread that no other one exceeds (`served_schedule`), so a thread that
has just been switched to is as high as any. After that a function that readies a thread or
lowers the running one has to look at the ready list before it returns: it has the call of
`thread_yield_if_necessery` on its stack (`Due`), or tests in place. Only `thread_tick` does
neither, unless the time slice is over. -/
namespace Pintos.Threads
open Kernel Outcome

/-- The running thread is the idle thread, or no ready thread is higher. -/
def Served (s : State) : Prop := s.current = s.idleThread ∨ ∀ t ∈ s.readyList, s.eff t ≤ s.eff s.current

/-- The running thread is served, or will look at the ready list before it returns to its own
code. -/
def Due (s : State) : Prop := .yieldIf false ∈ s.frames ∨ Served s

/-- The frames after which the running thread may no longer be the highest. -/
def Frame.opens : Frame → Bool
  | .calculate _ => true
  | .unblock _ => true
  | _ => false

/-- Such a frame lies on a call of `thread_yield_if_necessery`. -/
def Paired (fs : List Frame) : Prop := ∀ f rest, f :: rest <:+ fs → f.opens = true → rest.head? = some (.yieldIf false)

section
variable {s s' s1 : State} {f : Frame} {fs fs' rest : List Frame} {k : SemaId} {l : LockId} {t : Tid} {d : Deed}
  {n : Nat} {choice : Int} {E : Panic → Prop}

/-! ### Stacks -/

theorem paired_nil : Paired [] := by
  intro f rest h
  simp at h

theorem paired_cons (hf : f.opens = false) (h : Paired fs) : Paired (f :: fs) := by
  intro g rest hs hg
  rcases List.suffix_cons_iff.mp hs with he | hs
  · cases he
    rw [hf] at hg
    cases hg
  · exact h g rest hs hg

theorem paired_check (h : Paired (.yieldIf false :: fs)) (f : Frame) : Paired (f :: .yieldIf false :: fs) := by
  intro g rest hs hg
  rcases List.suffix_cons_iff.mp hs with he | hs
  · cases he
    rfl
  · exact h g rest hs hg

theorem Paired.tail (h : Paired (f :: fs)) : Paired fs :=
  fun g rest hs hg => h g rest (hs.trans (List.suffix_cons f fs)) hg

theorem Paired.head (h : Paired (f :: fs)) (hf : f.opens = true) : .yieldIf false ∈ fs :=
  List.mem_of_head? (h f fs (List.suffix_refl _) hf)

theorem opens_tear (f : Frame) : f.tear.opens = f.opens := by
  cases f <;> rfl

theorem Paired.modifyHead (h : Paired fs) : Paired (fs.modifyHead Frame.tear) := by
  cases fs with
  | nil => exact h
  | cons f fs =>
    intro g rest hs hg
    rcases List.suffix_cons_iff.mp hs with he | hs
    · cases he
      rw [opens_tear] at hg
      exact h f fs (List.suffix_refl _) hg
    · exact h.tail g rest hs hg

theorem opens_of_waitsOn (h : f.waitsOn = some k) : f.opens = false := by
  cases f <;> first | rfl | cases h

theorem Starts.paired {before : List Frame} (h : Starts f before rest) (hp : Paired before) : Paired rest := by
  rcases h with ⟨-, rfl⟩ | rfl
  · exact paired_nil
  · exact hp.tail

theorem StartsAcquire.paired {before : List Frame} (h : StartsAcquire l before rest) (hp : Paired before) : Paired rest := by
  rcases h with h | ⟨-, p, -, rfl⟩
  · exact h.paired hp
  · exact paired_cons rfl (paired_cons rfl paired_nil)

theorem Settles.paired (h : Settles rest fs) (hp : Paired rest) : Paired fs := by
  rcases h with rfl | ⟨on, rfl⟩
  · exact hp
  · exact paired_cons rfl hp

theorem Interrupted.paired {switch : Prop} (h : Interrupted switch s s' fs) (hp : Paired s.frames) : Paired fs := by
  obtain ⟨-, ⟨rfl, -⟩ | ⟨-, rfl⟩⟩ := h
  · exact hp
  · exact paired_cons rfl hp.modifyHead

theorem opens_of_light (h : f.light = true) (hb : f.births = none) : f.opens = false := by
  cases f <;> first | rfl | (cases h; done) | cases hb

theorem Quiet.paired (h : Quiet fs fs') (hp : Paired fs) : Paired fs' := by
  cases h with
  | same => exact hp
  | push hl hb _ => exact paired_cons (opens_of_light hl hb) hp
  | pop _ => exact hp.tail
  | swap _ hl hb => exact paired_cons (opens_of_light hl hb) hp.tail

theorem Goes.paired (hg : Goes fs s1 s') (hc : s1.current = s.current) (hp : Paired fs) :
    Paired (s'.thread s.current).frames := by
  rw [← hc, hg.moves.frames_current]
  exact hp

theorem Effect.paired (he : Effect s d s') (hc : s.current ∈ s.allList)
    (hp : ∀ t ∈ s.allList, Paired (s.thread t).frames) : ∀ t ∈ s'.allList, Paired (s'.thread t).frames := by
  have hcur : Paired s.frames := hp _ hc
  have hnew : Paired (s'.thread s.current).frames := by
    cases he with
    | quiet hq hg => exact hg.paired rfl (hq.paired hcur)
    | setPriority _ _ hg => exact hg.paired rfl (paired_check (paired_cons rfl paired_nil) _)
    | calculate hf _ hg | acquireAgain hf _ _ hg | setHolder hf hg => exact hg.paired rfl (Paired.tail (hf ▸ hcur))
    | wait hw _ hst hg =>
      apply hg.paired rfl
      rcases hst with hf | ⟨-, -, hst⟩
      · exact hf ▸ hcur
      · exact paired_cons (opens_of_waitsOn hw) (hst.paired hcur)
    | take _ _ hst hg =>
      apply hg.paired rfl
      rcases hst with hst | ⟨on, hf⟩
      · exact hst.paired hcur
      · exact Paired.tail (hf ▸ hcur)
    | acquireWait hst _ hd _ _ hg =>
      exact hg.paired (donation_allList hd).2 (paired_cons rfl (hst.paired hcur))
    | acquireTake hst _ hd _ _ hg =>
      exact hg.paired (donation_allList hd).2 (hst.paired hcur)
    | tryAcquire _ _ _ hg | sleep _ hg => exact hg.paired rfl (paired_cons rfl paired_nil)
    | releaseYield hst _ _ hg | up hst _ hg => exact hg.paired rfl (paired_cons rfl (hst.paired hcur))
    | releaseDone hst _ _ _ _ hs hg => exact hg.paired rfl (hs.paired (hst.paired hcur))
    | unlink hf _ _ hs hg => exact hg.paired rfl (hs.paired (Paired.tail (hf ▸ hcur)))
    | device hi hg | tick hi hg => exact hg.paired rfl (hi.paired hcur)
    | condWait _ _ hg => exact hg.paired rfl (paired_cons rfl (paired_cons rfl (paired_cons rfl paired_nil)))
    | signal hf _ _ hg | pushBlock hf hg => exact hg.paired rfl (paired_cons rfl (Paired.tail (hf ▸ hcur)))
    | create hf _ _ _ hg =>
      exact hg.paired rfl
        (paired_cons rfl (paired_cons rfl (paired_check (paired_cons rfl (Paired.tail (hf ▸ hcur))) _)))
    | exit _ hg => exact hg.paired rfl (paired_nil)
  intro t ht
  by_cases htc : t = s.current
  · rw [htc]
    exact hnew
  · rcases he.others t ht htc with ⟨hin, heq⟩ | ⟨-, heq⟩
    · rw [heq]
      exact hp t hin
    · rw [heq]
      exact paired_cons rfl paired_nil

/-! ### The ready list -/

theorem eff_setStatus (s : State) (t : Tid) (st : Status) : (s.setStatus t st).eff = s.eff := by
  funext u
  by_cases h : u = t <;> simp [State.eff, State.setStatus, State.mapThread, h]

/-- `schedule` switches to a thread that no ready one exceeds. -/
theorem served_schedule (s : State) : Served (schedule s) := by
  unfold schedule
  cases hm : listMax (threadPriorityLess s) s.readyList with
  | none => exact .inl rfl
  | some t =>
    right
    intro u hu
    have heff : (switchTo t {s with readyList := s.readyList.erase t}).eff = s.eff :=
      eff_setStatus {s with readyList := s.readyList.erase t} t .running
    show (switchTo t {s with readyList := s.readyList.erase t}).eff u ≤
      (switchTo t {s with readyList := s.readyList.erase t}).eff t
    rw [heff]
    exact le_listMax hm u (List.mem_of_mem_erase hu)

theorem served_of_yields (h : yields s = false) : Served s := by
  right
  intro t ht
  have hle : s.eff t ≤ getHighestPriority s := (Donation.greatest_foldl s.eff s.readyList priMin).2 (.inr ⟨t, ht, rfl⟩)
  have hn : ¬ getHighestPriority s > s.eff s.current := by simpa [yields] using h
  omega

/-- Nothing that decides who runs has changed. -/
structure Stays (s s' : State) : Prop where
  current : s'.current = s.current
  idleThread : s'.idleThread = s.idleThread
  readyList : s'.readyList = s.readyList
  eff : s'.eff = s.eff

theorem stays_setFrames (s : State) (fs : List Frame) : Stays s (s.setFrames fs) :=
  ⟨rfl, rfl, rfl, funext (moves_setFrames s fs).eff⟩

theorem Served.stay (h : Served s) (hs : Stays s s') : Served s' := by
  unfold Served
  rw [hs.current, hs.idleThread, hs.readyList, hs.eff]
  exact h

theorem Due.stay (h : Due s) (hs : Stays s s') (hf : .yieldIf false ∈ s.frames → .yieldIf false ∈ s'.frames) : Due s' :=
  h.imp hf fun hx => hx.stay hs

/-- The frame on top has been popped. -/
theorem Due.popped (h : Due s) (hf : s.frames = f :: fs) (hne : f ≠ .yieldIf false) (hs : Stays s s')
    (hf' : s'.frames = fs) : Due s' := by
  apply h.stay hs
  grind

theorem Due.pop (h : Due s) (hf : s.frames = f :: fs) (hne : f ≠ .yieldIf false) : Due s.pop := by
  apply h.popped hf hne (stays_setFrames s _)
  show (s.setFrames s.frames.tail).frames = fs
  rw [frames_setFrames, hf]
  rfl

/-- Frames have been pushed. -/
theorem Due.push (h : Due s) (f : Frame) : Due (s.push f) := by
  apply h.stay (stays_setFrames s _)
  intro hm
  rw [frames_setFrames]
  exact List.mem_cons_of_mem _ hm

theorem Due.same (h : Due s) (hs : Stays s s') (hf : s'.frames = s.frames) : Due s' :=
  h.stay hs fun hm => hf ▸ hm

/-! ### Functions -/

/-- A unit has been taken, and the frame of the loop is gone. -/
theorem Due.taken (h : Due s) (hf : s.frames = f :: fs) (hne : f ≠ .yieldIf false) : Due (semaTake k s).pop := by
  have hs : Stays s (semaTake k s).pop := ⟨rfl, rfl, rfl, (stays_setFrames (semaTake k s) _).eff⟩
  apply h.popped hf hne hs
  show ((semaTake k s).setFrames s.frames.tail).frames = fs
  rw [frames_setFrames, hf]
  rfl

theorem due_downLoop {on : Bool} (h : Due s) (hf : s.frames = .down k on :: fs) : Due (downLoop k on s) := by
  unfold downLoop
  split
  · exact .inr (served_schedule _)
  · exact h.taken hf (by simp)

theorem due_semaDown (h : Due s) : Due (semaDown k s) := by
  have hp : Due ((s.push (.down k s.intr)).setIntr false) := h.push _
  exact due_downLoop hp (frames_push s _)

theorem due_lockTake {on : Bool} (h : Due s) (hE : ∀ e, e ≠ .notBlocked → E e) : Gives (lockTake l on s) Due E := by
  apply gives_lockTake hE
  intro links _
  have heff : ∀ t, ((locked l links s).thread t).effectivePriority = (s.thread t).effectivePriority := by
    intro t
    by_cases htc : t = s.current <;> simp [locked, State.setHolder, State.mapThread, htc]
  have hs : Stays s ((locked l links s).setIntr on) := ⟨rfl, rfl, rfl, funext heff⟩
  exact h.same hs (locked_frames l links s s.current)

theorem due_acquireLoop {on : Bool} (h : Due s) (hf : s.frames = .acquire l on :: fs) (hE : ∀ e, e ≠ .notBlocked → E e) :
    Gives (acquireLoop l on s) Due E := by
  apply gives_acquireLoop
  · intro _
    exact .inr (served_schedule _)
  · intro _
    exact due_lockTake (h.taken hf (by simp)) hE

/-- A donation raises nobody above the donor. -/
theorem donation_bound (p : Int) : ∀ (n : Nat) (u : Option Tid) (s : State),
    Gives (comparePriorityAndUpdate p n u s) (fun s2 => ∀ t, s2.eff t = s.eff t ∨ s2.eff t = p) fun _ => True := by
  intro n
  induction n with
  | zero =>
    intro u s
    cases u with
    | none => exact fun t => .inl rfl
    | some t => trivial
  | succ n ih =>
    intro u s
    cases u with
    | none => exact fun t => .inl rfl
    | some v =>
      have hset : ∀ t, (s.setEff v p).eff t = s.eff t ∨ (s.setEff v p).eff t = p := by
        intro t
        by_cases htv : t = v
        · right
          simp [State.eff, State.setEff, State.mapThread, htv]
        · left
          simp [State.eff, State.setEff, State.mapThread, htv]
      unfold comparePriorityAndUpdate
      split
      · exact fun t => .inl rfl
      · simp only
        split
        · exact hset
        · apply (ih _ (s.setEff v p)).imp
          grind

theorem due_lockAcquire (h : Due s) : Gives (lockAcquire l n s) Due fun _ => True := by
  apply gives_lockAcquire fun _ _ => trivial
  intro _ s1
  have hraised := comparePriorityAndUpdate_raised (s.eff s.current) n (s.holder l) s1
  have hbound := donation_bound (s.eff s.current) n (s.holder l) s1
  cases hx : comparePriorityAndUpdate (s.eff s.current) n (s.holder l) s1 with
  | error e => trivial
  | ok s2 =>
    rw [hx, gives_ok] at hraised hbound
    rw [gives_ok]
    intro _
    have heff1 : s1.eff = s.eff := by
      funext t
      by_cases htc : t = s.current <;> simp [s1, State.eff, State.mapThread, State.setIntr, htc]
    have hframes : s2.frames = s.frames := by
      rw [hraised.frames]
      exact frames_wanting l s
    have hrest : s2.current = s.current ∧ s2.idleThread = s.idleThread ∧ s2.readyList = s.readyList := by
      obtain ⟨eff, rfl⟩ := hraised
      exact ⟨rfl, rfl, rfl⟩
    rw [heff1] at hbound
    have hdue : Due s2 := by
      refine h.imp (fun hm => hframes ▸ hm) ?_
      intro hserved
      unfold Served
      rw [hrest.1, hrest.2.1, hrest.2.2]
      refine hserved.imp_right fun hle t ht => ?_
      grind
    exact due_acquireLoop (hdue.push _) (frames_push s2 _) fun _ _ => trivial

/-- The end of `lock_release` tests in place. -/
theorem served_lockUnlink {on : Bool} {fuel : Nat} : Gives (lockUnlink l on fuel s) Served fun _ => True := by
  apply gives_lockUnlink fun _ _ => trivial
  intro links p _ _ s1
  constructor
  · intro _
    exact served_schedule _
  · intro hy
    exact (served_of_yields hy).stay ⟨rfl, rfl, rfl, rfl⟩

theorem served_lockRelease {fuel : Nat} (hb : ∀ t ∈ (s.sema (.lock l)).waiters, (s.thread t).status = .blocked) :
    Gives (lockRelease l fuel s) Served fun _ => True := by
  apply gives_lockRelease (fun _ _ => trivial) hb
  intro _
  constructor
  · intro _
    exact served_schedule _
  · intro _
    exact served_lockUnlink

theorem due_semaUp : Gives (semaUp k s) Due fun _ => True := by
  unfold semaUp
  cases hx : semaUpValue k s with
  | error e => trivial
  | ok s1 =>
    left
    rw [frames_push]
    exact List.mem_cons_self

theorem due_check (s : State) : Due (s.push (.yieldIf false)) := by
  left
  rw [frames_push]
  exact List.mem_cons_self

theorem due_of_served {x : Except Panic State} (h : Gives x Served E) : Gives x Due E := h.imp fun _ => .inr

/-! ### Every act -/

theorem startCall_due (ht : Tidy s) (h : Due s) (g : Call) : Gives (startCall choice s g) Due fun _ => True := by
  have hblocked : ∀ k, ∀ t ∈ (s.sema k).waiters, (s.thread t).status = .blocked :=
    fun k t hm => ((ht.waiters k t).mp hm).2.1
  cases g with
  | threadCreate p => exact due_lockAcquire ((h.push _).push _)
  | threadYield | threadExit => exact .inr (served_schedule _)
  | threadSetPriority p => exact (due_check _).push _
  | semaDown n => exact due_semaDown h
  | semaTryDown n =>
    show Due (semaTryDown _ s)
    unfold semaTryDown
    split
    · exact h.same ⟨rfl, rfl, rfl, rfl⟩ rfl
    · exact h
  | semaUp n => exact due_semaUp
  | lockAcquire n => exact due_lockAcquire h
  | lockTryAcquire n =>
    apply gives_lockTryAcquire fun _ _ => trivial
    · intro _ _
      have hs : Due (semaTake (.lock (.user n)) s) := h.same ⟨rfl, rfl, rfl, rfl⟩ rfl
      exact hs.push _
    · exact fun _ => h
  | lockRelease n => exact due_of_served (served_lockRelease (hblocked _))
  | condWait c =>
    apply gives_condWait fun _ _ => trivial
    intro _ s1
    have hs : Due {s1 with cond := Function.update s.cond c (s.cond c ++ [s.current])} :=
      h.same ⟨rfl, rfl, rfl, rfl⟩ rfl
    exact ((hs.push _).push _).push _
  | condSignal c =>
    simp only [startCall]
    split
    · exact h.push _
    · trivial
  | condBroadcast c => exact h.push _
  | timerSleep n =>
    have hframes : ((s.mapThread s.current fun x => {x with targetTicks := n + s.ticks}).record
        (.sleep s.current s.ticks n)).frames = s.frames := by
      simp [State.frames, State.mapThread, State.record]
    have heff : ((s.mapThread s.current fun x => {x with targetTicks := n + s.ticks}).record
        (.sleep s.current s.ticks n)).eff = s.eff := by
      funext t
      by_cases htc : t = s.current <;> simp [State.eff, State.mapThread, State.record, htc]
    have hs : Due ((s.mapThread s.current fun x => {x with targetTicks := n + s.ticks}).record
        (.sleep s.current s.ticks n)) := h.same ⟨rfl, rfl, rfl, heff⟩ hframes
    exact hs.push _

theorem resume_due (ht : Tidy s) (h : Due s) (hp : Paired s.frames) (hf : s.frames = f :: fs) :
    Gives (resume choice s f) Due fun _ => True := by
  have hblocked : ∀ k, ∀ t ∈ (s.pop.sema k).waiters, (s.pop.thread t).status = .blocked := by
    intro k t hm
    have hb := ((ht.waiters k t).mp hm).2.1
    by_cases htc : t = s.current <;> simpa [State.pop, State.setFrames, State.mapThread, htc] using hb
  have hpop : s.pop.frames = fs := by
    rw [pop_eq hf, frames_setFrames]
  -- a frame that opens lies on the call of `thread_yield_if_necessery`
  have hcheck : f.opens = true → .yieldIf false ∈ fs := (hf ▸ hp : Paired (f :: fs)).head
  cases f with
  | setLevel on => exact h.pop hf (by simp)
  | kernelThread => exact h.pop hf (by simp)
  | sleeping on => exact h.pop hf (by simp)
  | down k on => exact due_downLoop h hf
  | acquire l on => exact due_acquireLoop h hf fun _ _ => trivial
  | unlink l on => exact due_of_served served_lockUnlink
  | setHolder l =>
    have hd : Due s.pop := h.pop hf (by simp)
    exact hd.same ⟨rfl, rfl, rfl, rfl⟩ rfl
  | yieldIf torn =>
    apply yieldIf_cases (Q := fun s' => Gives (.ok s') Due _)
    · exact .inr (served_schedule _)
    · intro hy
      cases torn with
      | false => exact .inr (served_of_yields (hy rfl))
      | true => exact h.pop hf (by simp)
  | calculate torn =>
    have hleft : ∀ p, Due (s.pop.setEff s.pop.current p) := by
      intro p
      left
      have hfr : (s.pop.setEff s.pop.current p).frames = s.pop.frames := setEff_frames _ _ _ _
      rw [hfr, hpop]
      exact hcheck rfl
    apply gives_calculate fun _ _ => trivial
    · exact fun _ => hleft _
    · exact fun p _ _ => hleft p
  | pushBlock | idleBlock => exact .inr (served_schedule _)
  | initThread p =>
    apply gives_createThread fun _ _ => trivial
    · exact fun _ => h.pop hf (by simp)
    · intro _ _ _
      exact (((due_check _).push _).push _).push _
  | unblock t =>
    apply gives_threadUnblock trivial
    intro _
    left
    have hfr : ({s.pop with readyList := s.pop.readyList ++ [t]}.setStatus t .ready).frames = s.pop.frames := by
      by_cases htc : s.pop.current = t <;> simp [State.frames, State.setStatus, State.mapThread, htc]
    rw [hfr, hpop]
    exact hcheck rfl
  | signal c torn =>
    have hd : Due s.pop := h.pop hf (by simp)
    apply gives_condSignal fun _ _ => trivial
    · exact fun _ => hd
    · intro w _ _
      have hs : Due {s with cond := Function.update s.cond c ((s.cond c).erase w)}.pop :=
        hd.same ⟨rfl, rfl, rfl, rfl⟩ rfl
      exact hs.push _
  | broadcast c =>
    apply gives_condBroadcast fun _ _ => trivial
    · exact fun _ => h.pop hf (by simp)
    · exact fun _ _ => h.push _
  | semaDown k => exact due_semaDown (h.pop hf (by simp))
  | semaUp k => exact due_semaUp
  | lockAcquire l => exact due_lockAcquire (h.pop hf (by simp))
  | lockRelease l => exact due_of_served (served_lockRelease (hblocked _))
  | idleHalt =>
    have hd : Due s.pop := h.pop hf (by simp)
    exact (hd.push .idleBlock).same ⟨rfl, rfl, rfl, rfl⟩ rfl

/-- A timer interrupt that does not end the time slice wakes no thread that the running one does
not look out for. -/
def Attended (a : Act) (s : State) : Prop :=
  a = .tick → s.threadTicks + 1 < timeSlice → s.current ≠ s.idleThread → .yieldIf false ∉ s.frames →
    ∀ t ∈ dueOf (ticked s) s.sleepThreadsList, s.eff t ≤ s.eff s.current

instance (a : Act) (s : State) : Decidable (Attended a s) := by
  unfold Attended
  infer_instance

theorem eff_awoken (s : State) : (awoken (ticked s)).eff = s.eff := by
  funext t
  simp only [awoken, popped, State.eff]
  split <;> rfl

theorem timerInterrupt_due (ht : Tidy s) (h : Due s) (ha : Attended .tick s) :
    Gives (timerInterrupt s) Due fun _ => True := by
  rw [ht.timerInterrupt, gives_ok]
  split
  · exact .inr (served_schedule _)
  · rename_i hslice
    by_cases hm : .yieldIf false ∈ s.frames
    · left
      rw [frames_awoken]
      exact hm
    · right
      rcases h.resolve_left hm with hidle | hle
      · exact .inl hidle
      · by_cases hidle : s.current = s.idleThread
        · exact .inl hidle
        · right
          intro t hin
          rw [eff_awoken]
          rcases List.mem_append.mp hin with hin | hin
          · exact hle t hin
          · exact ha rfl (by omega) hidle hm t hin

theorem deviceInterrupt_due (ht : Tidy s) : Gives (deviceInterrupt n s) Due fun _ => True := by
  unfold deviceInterrupt
  simp only [ht.semaUpValue, gives_bind, gives_ok, gives_pure]
  split
  · exact .inr (served_schedule _)
  · rename_i hy
    exact .inr (served_of_yields (eq_false_of_ne_true hy))

/-! ### Every run -/

theorem ReachableUnder.due (hr : ReachableUnder Attended s) : Due s := by
  have h : (∀ t ∈ s.allList, Paired (s.thread t).frames) ∧ Due s := by
    apply hr.effects
    · rintro _ ⟨values, condLock, rfl⟩
      refine ⟨?_, .inr (.inr fun t ht => by cases ht)⟩
      intro t ht
      have ht : t = 0 ∨ t = 1 := by simpa [booted] using ht
      rcases ht with rfl | rfl
      · exact paired_nil
      · exact paired_cons rfl (paired_cons rfl paired_nil)
    · intro s s' a _ ht _ hJ ha hcond hx _ he
      refine ⟨he.paired ht.live hJ.1, ?_⟩
      have hd : Gives (a.step s) Due fun _ => True := by
        apply gives_step ha
        · rintro g choice rfl _ _
          exact startCall_due ht hJ.2 g
        · rintro choice f fs rfl hf
          exact resume_due ht hJ.2 (hJ.1 _ ht.live) hf
        · rintro rfl _
          exact timerInterrupt_due ht hJ.2 hcond
        · rintro n rfl _
          exact deviceInterrupt_due ht
      rwa [hx, gives_ok] at hd
  exact h.2

/-- A thread that is not the idle thread runs its own code. -/
def OwnCode (s : State) : Prop := s.frames = [] ∧ s.current ≠ s.idleThread

instance (s : State) : Decidable (OwnCode s) := by
  unfold OwnCode
  infer_instance

theorem highest_runs (hr : ReachableUnder Attended s) (ho : OwnCode s) :
    ∀ t ∈ s.readyList, s.eff t ≤ s.eff s.current := by
  rcases hr.due with hm | hidle | hle
  · rw [ho.1] at hm
    cases hm
  · exact absurd hidle ho.2
  · exact hle

/-- A thread has been woken by a semaphore, and its equal runs on. -/
theorem highest_runs_after_up : ∃ s, ReachableUnder Attended s ∧ (OwnCode s ∧ s.readyList = [2]) ∧
    ∀ t ∈ s.readyList, s.eff t ≤ s.eff s.current := by
  let acts : List (List Act) := [creation 31 2, [.call .threadYield 0, .go 0, .call (.semaDown 0) 0],
    [.go 0, .call (.semaUp 0) 0, .go 0]]
  obtain ⟨s, hr, hs⟩ := reachable_of_after Attended acts.flatten (fun s => OwnCode s ∧ s.readyList = [2])
    (by decide +kernel)
  exact ⟨s, hr, hs, highest_runs hr hs.1⟩

/-- The timer wakes a higher thread within a time slice, and the running thread goes on. -/
theorem higher_thread_waits : ∃ s, Reachable s ∧ OwnCode s ∧ ∃ t ∈ s.readyList, s.eff s.current < s.eff t := by
  let acts : List (List Act) := [creation 40 2, [.go 0, .call (.timerSleep 1) 0, .go 0], [.go 0, .tick]]
  exact reachable_of_after (fun _ _ => True) acts.flatten
    (fun s => OwnCode s ∧ ∃ t ∈ s.readyList, s.eff s.current < s.eff t) (by decide +kernel)

end

end Pintos.Threads
