import Pintos.Threads.SemaProofs

/-! The lists of held locks (`lock_acquire`, `lock_try_acquire` and `lock_release`).

A thread's `holding_locks_list` runs from the head in the thread through `holder_elem` of the
locks to the tail. `lock_release` gives a lock up before it unlinks it, and can lose the
processor in between: in that window the lock is in the list of a thread that does not hold it.
`Holding` is kept by all acts but three: `lock_try_acquire` takes a lock and does not link it,
another thread that takes a lock in the window links it a second time, and a thread that exits
takes its list with it. In runs without these the lists are exact whenever no thread is in the
window. -/
namespace Pintos.Threads
open Kernel Outcome Intrusive

/-- The nodes of the list of thread `t`, if it holds `locks`. -/
def spine (t : Tid) (locks : List LockId) : List Node := .head t :: locks.map .elem ++ [.tail t]

def Frame.unlinks (l : LockId) : Frame → Bool
  | .unlink l' _ => l' = l
  | _ => false

/-- How often a stack is in the window of `lock_release` on the lock. -/
def releasing (l : LockId) (fs : List Frame) : Nat := fs.countP (Frame.unlinks l)

/-- The lists hold the locks `locks`: those of their thread, and those it is in the window of. -/
structure Holding (s : State) (locks : Tid → List LockId) : Prop where
  linked : ∀ t ∈ s.allList, s.links.Linked (spine t (locks t))
  nodup : ∀ t ∈ s.allList, (locks t).Nodup
  mem : ∀ t ∈ s.allList, ∀ l, l ∈ locks t ↔ s.holder l = some t ∨ releasing l (s.thread t).frames ≠ 0
  live : ∀ l t, s.holder l = some t → t ∈ s.allList
  once : ∀ l, (s.holder l).toList.length + total (releasing l) s ≤ 1
  stored : ∀ l, total (claims l) s = 0

section
variable {s s' s1 : State} {f : Frame} {fs fs' rest : List Frame} {l : LockId} {t u : Tid} {locks : Tid → List LockId}
  {held : List LockId} {links links' : Links Node}

/-! ### Spines -/

theorem mem_spine {y : Node} : y ∈ spine t held ↔ y = .head t ∨ (∃ l ∈ held, y = .elem l) ∨ y = .tail t := by
  simp [spine, eq_comm]

theorem spine_nodup (h : held.Nodup) : (spine t held).Nodup := by
  have hmap : (held.map Node.elem).Nodup := h.map fun _ _ he => Node.elem.inj he
  unfold spine
  rw [List.cons_append, List.nodup_cons, List.nodup_append']
  refine ⟨by simp, hmap, by simp, ?_⟩
  intro y hy hy'
  grind

theorem linked_empty (h : links.Linked (spine t held)) (hn : links.next (.head t) = some (.tail t)) : held = [] := by
  cases held with
  | nil => rfl
  | cons l rest =>
    have hj : links.Joins (.head t) (.elem l) := (linked_cons.mp h).1
    have hne := hj.1.symm.trans hn
    cases hne

/-- The element of a lock enters a list at its end. -/
theorem insert_spine (h : links.Linked (spine t held)) (hn : held.Nodup) (hl : l ∉ held)
    (hi : links.insert (.tail t) (.elem l) = some links') :
    links'.Linked (spine t (held ++ [l])) ∧
      ∀ ns, links.Linked ns → (∀ y ∈ ns, y ∉ spine t held ∧ y ≠ .elem l) → links'.Linked ns := by
  have hx : Node.elem l ∉ spine t held := by
    rw [mem_spine]
    simp [hl]
  obtain ⟨L, hL, hlinked, hother⟩ := insert_last h (spine_nodup hn) hx
  cases hi.symm.trans hL
  refine ⟨by simpa [spine] using hlinked, fun ns hns hd => ?_⟩
  exact linked_frame hns (fun y hy => (hother y (hd y hy).1 (hd y hy).2).1) fun y hy => (hother y (hd y hy).1 (hd y hy).2).2

/-- The element of a lock leaves the list it is in. -/
theorem remove_spine (h : links.Linked (spine t held)) (hn : held.Nodup) (hl : l ∈ held)
    (hr : links.remove (.elem l) = some links') :
    links'.Linked (spine t (held.erase l)) ∧
      ∀ ns, links.Linked ns → (∀ y ∈ ns, y ∉ spine t held) → links'.Linked ns := by
  obtain ⟨L, hL, hlinked, hother⟩ := remove_mem h (spine_nodup hn) (List.mem_map_of_mem hl)
  cases hr.symm.trans hL
  rw [← List.map_erase fun _ _ => Node.elem.inj] at hlinked
  exact ⟨hlinked, fun ns hns hd => linked_frame hns (fun y hy => (hother y (hd y hy)).1) fun y hy => (hother y (hd y hy)).2⟩

/-! ### Weights -/

theorem releasing_cons (h : f.unlinks l = false) : releasing l (f :: fs) = releasing l fs :=
  List.countP_cons_of_neg (by simp [h])

theorem releasing_unlink (l l' : LockId) (on : Bool) (fs : List Frame) :
    releasing l' (.unlink l on :: fs) = releasing l' fs + if l' = l then 1 else 0 := by
  by_cases h : l' = l
  · simp [releasing, Frame.unlinks, h]
  · simp [releasing, Frame.unlinks, h, Ne.symm h]

theorem unlinks_of_light (h : f.light = true) : f.unlinks l = false := by
  cases f <;> first | rfl | cases h

theorem unlinks_of_waitsOn {k : SemaId} (h : f.waitsOn = some k) : f.unlinks l = false := by
  cases f <;> first | rfl | cases h

theorem releasing_of_unparked (h : Unparked fs) : releasing l fs = 0 := by
  rw [releasing, List.countP_eq_zero]
  intro f hf hu
  have hp := h f hf
  cases f <;> first | cases hu | cases hp

theorem releasing_tear (fs : List Frame) : releasing l (fs.modifyHead Frame.tear) = releasing l fs := by
  cases fs with
  | nil => rfl
  | cons f fs => cases f <;> simp [releasing, Frame.tear, Frame.unlinks, List.modifyHead]

theorem Quiet.releasing (h : Quiet fs fs') : releasing l fs' = releasing l fs := by
  cases h with
  | same => rfl
  | push hl _ _ => exact releasing_cons (unlinks_of_light hl)
  | pop hl => exact (releasing_cons (unlinks_of_light hl)).symm
  | swap hl hl' _ => exact (releasing_cons (unlinks_of_light hl')).trans (releasing_cons (unlinks_of_light hl)).symm

theorem Interrupted.releasing {switch : Prop} (h : Interrupted switch s s' fs) :
    releasing l fs = releasing l s.frames := by
  obtain ⟨-, ⟨rfl, -⟩ | ⟨-, rfl⟩⟩ := h
  · rfl
  · exact (releasing_cons rfl).trans (releasing_tear _)

theorem Settles.releasing (h : Settles rest fs) : releasing l fs = releasing l rest := by
  rcases h with rfl | ⟨on, rfl⟩
  · rfl
  · exact releasing_cons rfl

theorem Starts.releasing {before : List Frame} (h : Starts f before rest) (hf : ∀ l, f.unlinks l = false) :
    releasing l before = releasing l rest := by
  rcases h with ⟨rfl, rfl⟩ | rfl
  · rfl
  · exact releasing_cons (hf l)

theorem StartsAcquire.releasing {before : List Frame} {l' : LockId} (h : StartsAcquire l' before rest) :
    releasing l before = releasing l rest := by
  rcases h with h | ⟨rfl, p, -, rfl⟩
  · exact h.releasing fun _ => rfl
  · rfl

/-! ### Lists of different threads -/

theorem Holding.unique (h : Holding s locks) (hn : s.allList.Nodup) (ht : t ∈ s.allList) (hu : u ∈ s.allList)
    (hlt : l ∈ locks t) (hlu : l ∈ locks u) : t = u := by
  have honce := h.once l
  have hlen : ∀ {v : Tid}, s.holder l = some v → (s.holder l).toList.length = 1 := by
    intro v hv
    rw [hv]
    rfl
  rcases (h.mem t ht l).mp hlt with ha | ha <;> rcases (h.mem u hu l).mp hlu with hb | hb
  · exact Option.some.inj (ha.symm.trans hb)
  · have := hlen ha
    have := le_total (releasing l) hu
    omega
  · have := hlen hb
    have := le_total (releasing l) ht
    omega
  · by_contra hne
    have := add_le_total (releasing l) hn ht hu hne
    omega

theorem Holding.apart (h : Holding s locks) (hn : s.allList.Nodup) (ht : t ∈ s.allList) (hu : u ∈ s.allList)
    (hne : u ≠ t) {y : Node} (hy : y ∈ spine u (locks u)) : y ∉ spine t (locks t) := by
  rw [mem_spine] at hy ⊢
  rcases hy with rfl | ⟨l, hl, rfl⟩ | rfl
  · simp [hne]
  · simp only [reduceCtorEq, Node.elem.injEq, false_or, or_false, not_exists, not_and]
    rintro l' hl' rfl
    exact hne (h.unique hn hu ht hl hl')
  · simp [hne]

/-! ### What the operations do to the lists -/

/-- The frames of a thread that was there before and is not the running one. -/
theorem Effect.frames_other {d : Deed} (h : Effect s d s') (hal : t ∈ s'.allList) (hin : t ∈ s.allList)
    (hne : t ≠ s.current) : (s'.thread t).frames = (s.thread t).frames := by
  rcases h.others t hal hne with ⟨-, he⟩ | ⟨hout, -⟩
  · exact he
  · exact absurd hin hout

theorem Effect.releasing_same {d : Deed} (h : Effect s d s') (hal : s'.allList = s.allList)
    (hr : ∀ l, releasing l (s'.thread s.current).frames = releasing l s.frames) :
    ∀ t ∈ s.allList, ∀ l, releasing l (s'.thread t).frames = releasing l (s.thread t).frames := by
  intro t htl l
  by_cases htc : t = s.current
  · rw [htc, hr l]
    rfl
  · rw [h.frames_other (hal ▸ htl) htl htc]

section
variable {d : Deed} (h : Holding s locks) (he : Effect s d s') (ht : Tidy s) (hfs : (s'.thread s.current).frames = fs)
include h he ht hfs

/-- A change of the stack that leaves locks alone. -/
theorem Holding.still (hal : s'.allList = s.allList) (hlinks : s'.links = s.links) (hh : s'.holder = s.holder)
    (hr : ∀ l, releasing l fs = releasing l s.frames) (hc : ∀ l, claims l fs = claims l s.frames) :
    Holding s' locks := by
  have hframes := he.releasing_same hal fun l => hfs ▸ hr l
  refine ⟨?_, ?_, ?_, ?_, ?_, ?_⟩
  · rw [hal, hlinks]
    exact h.linked
  · rw [hal]
    exact h.nodup
  · intro t htl l
    rw [hal] at htl
    rw [hh, hframes t htl]
    exact h.mem t htl l
  · rw [hh, hal]
    exact h.live
  · intro l
    rw [hh, he.total_same ht rfl rfl (hfs ▸ hr l)]
    exact h.once l
  · intro l
    rw [he.total_same ht rfl rfl (hfs ▸ hc l)]
    exact h.stored l

/-- The running thread takes a lock that is in no list. -/
theorem Holding.take (hal : s'.allList = s.allList) (hi : s.links.insert (.tail s.current) (.elem l) = some s'.links)
    (hh : s'.holder = Function.update s.holder l (some s.current)) (hfree : s.holder l = none)
    (hnone : total (releasing l) s = 0) (hr : ∀ l, releasing l fs = releasing l s.frames)
    (hc : ∀ l, claims l fs = claims l s.frames) :
    Holding s' (Function.update locks s.current (locks s.current ++ [l])) := by
  have hout : ∀ t ∈ s.allList, l ∉ locks t := by
    intro t htl hm
    rcases (h.mem t htl l).mp hm with hx | hx
    · rw [hfree] at hx
      cases hx
    · have := le_total (releasing l) htl
      omega
  have hframes := he.releasing_same hal fun l => hfs ▸ hr l
  obtain ⟨hspine, hothers⟩ := insert_spine (h.linked _ ht.live) (h.nodup _ ht.live) (hout _ ht.live) hi
  refine ⟨?_, ?_, ?_, ?_, ?_, ?_⟩
  · intro t htl
    rw [hal] at htl
    by_cases htc : t = s.current
    · grind
    · rw [Function.update_of_ne htc]
      apply hothers _ (h.linked t htl)
      intro y hy
      refine ⟨h.apart ht.nodup ht.live htl htc hy, ?_⟩
      rintro rfl
      rw [mem_spine] at hy
      grind
  · intro t htl
    rw [hal] at htl
    by_cases htc : t = s.current
    · subst htc
      rw [Function.update_self]
      rw [← List.concat_eq_append]
      exact (h.nodup _ htl).concat (hout _ htl)
    · rw [Function.update_of_ne htc]
      exact h.nodup t htl
  · intro t htl l'
    rw [hal] at htl
    rw [hh, hframes t htl]
    have hm := h.mem t htl l'
    by_cases hl : l' = l
    · grind
    · grind
  · intro l' t hx
    rw [hal]
    rw [hh] at hx
    by_cases hl : l' = l
    · subst hl
      rw [Function.update_self] at hx
      cases hx
      exact ht.live
    · rw [Function.update_of_ne hl] at hx
      exact h.live l' t hx
  · intro l'
    rw [hh, he.total_same ht rfl rfl (hfs ▸ hr l')]
    by_cases hl : l' = l
    · grind
    · rw [Function.update_of_ne hl]
      exact h.once l'
  · intro l'
    rw [he.total_same ht rfl rfl (hfs ▸ hc l')]
    exact h.stored l'

/-- The running thread gives a lock up and enters the window. -/
theorem Holding.giveUp (hal : s'.allList = s.allList) (hlinks : s'.links = s.links)
    (hheld : s.holder l = some s.current) (hh : s'.holder = Function.update s.holder l none)
    (hr : ∀ l', releasing l' fs = releasing l' s.frames + if l' = l then 1 else 0)
    (hc : ∀ l, claims l fs = claims l s.frames) : Holding s' locks := by
  have hcur : (s'.thread s.current).frames = fs := hfs
  refine ⟨?_, ?_, ?_, ?_, ?_, ?_⟩
  · rw [hal, hlinks]
    exact h.linked
  · rw [hal]
    exact h.nodup
  · intro t htl l'
    rw [hal] at htl
    have hm := h.mem t htl l'
    rw [hh]
    by_cases htc : t = s.current
    · subst htc
      have hF : releasing l' (s.thread s.current).frames = releasing l' s.frames := rfl
      grind
    · rw [he.frames_other (hal ▸ htl) htl htc]
      grind
  · intro l' t hx
    rw [hal]
    rw [hh] at hx
    by_cases hl : l' = l
    · subst hl
      simp at hx
    · rw [Function.update_of_ne hl] at hx
      exact h.live l' t hx
  · intro l'
    have hsum := he.total_change (releasing l') ht rfl rfl
    have honce := h.once l'
    rw [hcur, hr l'] at hsum
    rw [hh]
    by_cases hl : l' = l
    · grind
    · grind
  · intro l'
    rw [he.total_same ht rfl rfl (hcur ▸ hc l')]
    exact h.stored l'

/-- The running thread takes a lock it has given up out of its list. -/
theorem Holding.remove (hal : s'.allList = s.allList) (hmem : l ∈ locks s.current)
    (hi : s.links.remove (.elem l) = some s'.links) (hfree : s'.holder l = none)
    (hh : ∀ l', l' ≠ l → s'.holder l' = s.holder l') (hr0 : releasing l fs = 0)
    (hr : ∀ l', l' ≠ l → releasing l' fs = releasing l' s.frames) (hc : ∀ l, claims l fs = claims l s.frames) :
    Holding s' (Function.update locks s.current ((locks s.current).erase l)) := by
  have hcur : (s'.thread s.current).frames = fs := hfs
  have hnodup := h.nodup _ ht.live
  obtain ⟨hspine, hothers⟩ := remove_spine (h.linked _ ht.live) hnodup hmem hi
  refine ⟨?_, ?_, ?_, ?_, ?_, ?_⟩
  · intro t htl
    rw [hal] at htl
    by_cases htc : t = s.current
    · grind
    · rw [Function.update_of_ne htc]
      exact hothers _ (h.linked t htl) fun y hy => h.apart ht.nodup ht.live htl htc hy
  · intro t htl
    rw [hal] at htl
    by_cases htc : t = s.current
    · grind
    · rw [Function.update_of_ne htc]
      exact h.nodup t htl
  · intro t htl l'
    rw [hal] at htl
    have hm := h.mem t htl l'
    by_cases htc : t = s.current
    · subst htc
      rw [hcur, Function.update_self, hnodup.mem_erase_iff]
      by_cases hl : l' = l
      · subst hl
        simp [hfree, hr0]
      · rw [hh l' hl, hr l' hl]
        simpa [hl, State.frames] using hm
    · rw [he.frames_other (hal ▸ htl) htl htc, Function.update_of_ne htc]
      by_cases hl : l' = l
      · subst hl
        -- the lock was in no other list
        have hout : l' ∉ locks t := fun hx => htc (h.unique ht.nodup htl ht.live hx hmem)
        grind
      · rw [hh l' hl]
        exact hm
  · intro l' t hx
    rw [hal]
    by_cases hl : l' = l
    · rw [hl, hfree] at hx
      cases hx
    · rw [hh l' hl] at hx
      exact h.live l' t hx
  · intro l'
    have hsum := he.total_change (releasing l') ht rfl rfl
    have honce := h.once l'
    rw [hcur] at hsum
    by_cases hl : l' = l
    · grind
    · grind
  · intro l'
    rw [he.total_same ht rfl rfl (hcur ▸ hc l')]
    exact h.stored l'

/-- A new thread holds no lock. -/
theorem Holding.create (hal : s'.allList = s.allList ++ [u]) (hu : u ∉ s.allList)
    (hlinks : s'.links = s.links.init (.head u) (.tail u)) (hh : s'.holder = s.holder)
    (hr : ∀ l, releasing l fs = releasing l s.frames) (hc : ∀ l, claims l fs = claims l s.frames) :
    Holding s' (Function.update locks u []) := by
  have hcur : (s'.thread s.current).frames = fs := hfs
  have huc : u ≠ s.current := fun e => hu (e ▸ ht.live)
  have hnew : (s'.thread u).frames = [.kernelThread] := by
    rcases he.others u (by simp [hal]) huc with ⟨hin, -⟩ | ⟨-, hx⟩
    · exact absurd hin hu
    · exact hx
  have hcases : ∀ {t : Tid}, t ∈ s'.allList → t ∈ s.allList ∧ t ≠ u ∨ t = u := by
    grind
  refine ⟨?_, ?_, ?_, ?_, ?_, ?_⟩
  · intro t htl
    rw [hlinks]
    rcases hcases htl with ⟨htl, htu⟩ | rfl
    · rw [Function.update_of_ne htu]
      apply init_frame (h.linked t htl)
      intro y hy
      rw [mem_spine] at hy
      rcases hy with rfl | ⟨l, -, rfl⟩ | rfl <;> simp [htu]
    · rw [Function.update_self]
      exact linked_init _ (by simp)
  · intro t htl
    rcases hcases htl with ⟨htl, htu⟩ | rfl
    · rw [Function.update_of_ne htu]
      exact h.nodup t htl
    · grind
  · intro t htl l
    rw [hh]
    rcases hcases htl with ⟨hin, htu⟩ | rfl
    · rw [Function.update_of_ne htu, h.mem t hin l]
      by_cases htc : t = s.current
      · subst htc
        rw [hcur, hr l]
        rfl
      · rw [he.frames_other htl hin htc]
    · have hne : s.holder l ≠ some t := fun hx => hu (h.live l t hx)
      rw [Function.update_self, hnew]
      simp [hne, releasing, Frame.unlinks]
  · intro l t hx
    rw [hh] at hx
    rw [hal]
    exact List.mem_append_left _ (h.live l t hx)
  · intro l
    rw [hh, he.total_same ht rfl rfl (hcur ▸ hr l)]
    exact h.once l
  · intro l
    rw [he.total_same ht rfl rfl (hcur ▸ hc l)]
    exact h.stored l

/-- A thread that holds no lock exits. -/
theorem Holding.exit (hal : s'.allList = s.allList.erase s.current) (hlinks : s'.links = s.links)
    (hh : s'.holder = s.holder) (hempty : locks s.current = []) (hr : ∀ l, releasing l fs = releasing l s.frames)
    (hc : ∀ l, claims l fs = claims l s.frames) : Holding s' locks := by
  have hcur : (s'.thread s.current).frames = fs := hfs
  have hmem : ∀ {t : Tid}, t ∈ s'.allList → t ≠ s.current ∧ t ∈ s.allList := by
    intro t htl
    rw [hal] at htl
    exact ht.nodup.mem_erase_iff.mp htl
  refine ⟨?_, fun t htl => h.nodup t (hmem htl).2, ?_, ?_, ?_, ?_⟩
  · intro t htl
    rw [hlinks]
    exact h.linked t (hmem htl).2
  · intro t htl l
    obtain ⟨htc, hin⟩ := hmem htl
    rw [hh, he.frames_other htl hin htc]
    exact h.mem t hin l
  · intro l t hx
    rw [hh] at hx
    have htc : t ≠ s.current := by
      rintro rfl
      have hin := (h.mem _ ht.live l).mpr (.inl hx)
      rw [hempty] at hin
      cases hin
    rw [hal]
    exact ht.nodup.mem_erase_iff.mpr ⟨htc, h.live l t hx⟩
  · intro l
    rw [hh, he.total_same ht rfl rfl (hcur ▸ hr l)]
    exact h.once l
  · intro l
    rw [he.total_same ht rfl rfl (hcur ▸ hc l)]
    exact h.stored l

end

/-! ### Every act -/

/-- An act that takes no lock by `lock_try_acquire`, takes none that another thread is still
releasing, and does not end a thread that holds one. -/
def Careful (a : Act) (s : State) : Prop :=
  match a.deed s with
  | .acquire l => (s.sema (.lock l)).value ≠ 0 → ∀ t ∈ s.allList, releasing l (s.thread t).frames = 0
  | .tryAcquire l => (s.sema (.lock l)).value = 0
  | .exit => s.links.next (.head s.current) = some (.tail s.current)
  | _ => True

instance (a : Act) (s : State) : Decidable (Careful a s) := by
  unfold Careful
  split <;> infer_instance

/-- What `Careful` asks of an act that does `d`. -/
structure Minds (s : State) (d : Deed) : Prop where
  acquire : ∀ l, d = .acquire l → (s.sema (.lock l)).value ≠ 0 → total (releasing l) s = 0
  tryAcquire : ∀ l, d = .tryAcquire l → (s.sema (.lock l)).value = 0
  exit : d = .exit → s.links.next (.head s.current) = some (.tail s.current)

theorem Careful.minds {a : Act} (h : Careful a s) : Minds s (a.deed s) := by
  unfold Careful at h
  refine ⟨?_, ?_, ?_⟩
  · intro l hd hv
    rw [hd] at h
    exact total_zero (h hv)
  · intro l hd
    rw [hd] at h
    exact h
  · intro hd
    rw [hd] at h
    exact h

theorem Effect.holding {d : Deed} (he : Effect s d s') (h : Holding s locks) {init : SemaId → Nat} (hs : Sound init s)
    (ht : Tidy s) (hm : Masked s) (hd : Minds s d) : ∃ locks', Holding s' locks' := by
  have hb : Unparked s.frames.tail := hm.below _ ht.live
  cases id he with
  | quiet hq hg =>
    exact ⟨_, h.still he ht hg.moves.frames_current hg.moves.allList hg.moves.links hg.moves.holder
      (fun _ => hq.releasing) fun _ => hq.claims⟩
  | setPriority hf _ hg | condWait hf _ hg | sleep hf hg =>
    exact ⟨_, h.still he ht hg.moves.frames_current hg.moves.allList hg.moves.links hg.moves.holder
      (fun _ => by rw [hf]; rfl) fun _ => by rw [hf]; rfl⟩
  | calculate hf _ hg =>
    exact ⟨_, h.still he ht hg.moves.frames_current hg.moves.allList hg.moves.links hg.moves.holder
      (fun _ => by rw [hf, releasing_cons rfl]) fun _ => by rw [hf, claims_cons (by simp)]⟩
  | wait hw hv hst hg =>
    refine ⟨_, h.still he ht hg.moves.frames_current hg.moves.allList hg.moves.links hg.moves.holder ?_ ?_⟩
    · intro l
      rcases hst with hf | ⟨-, -, hst⟩
      · rw [hf]
      · rw [hst.releasing fun _ => rfl, releasing_cons (unlinks_of_waitsOn hw)]
    · intro l
      rcases hst with hf | ⟨-, -, hst⟩
      · rw [hf]
      · rw [(hst.weights (k := .lock l) rfl (by simp)).2, claims_cons]
        rintro rfl
        cases hw
  | @take _ _ k fs hv hk hst hg =>
    refine ⟨_, h.still he ht hg.moves.frames_current hg.moves.allList hg.moves.links hg.moves.holder ?_ ?_⟩
    · intro l
      rcases hst with hst | ⟨on, hf⟩
      · rw [hst.releasing fun _ => rfl]
      · rw [hf, releasing_cons rfl]
    · intro l
      exact (take_weights k hst).2.symm
  | @acquireWait _ s2 l n rest hst _ hx _ _ hg =>
    obtain ⟨eff, rfl⟩ := donation_raised hx
    refine ⟨_, h.still he ht hg.moves.frames_current hg.moves.allList hg.moves.links hg.moves.holder ?_ ?_⟩
    · intro l'
      rw [hst.releasing, releasing_cons rfl]
    · intro l'
      rw [(hst.weights (k := .lock l)).2, claims_cons (by simp)]
  | @acquireTake _ s2 l n rest links hst _ hx hv hl hg =>
    obtain ⟨eff, rfl⟩ := donation_raised hx
    have hlinks : s'.links = links := hg.moves.links
    refine ⟨_, h.take he ht hg.moves.frames_current hg.moves.allList (hlinks ▸ hl) hg.moves.holder (hs.alone hv).2.1
      (hd.acquire l rfl hv) ?_ ?_⟩
    · intro l'
      rw [hst.releasing]
    · intro l'
      rw [(hst.weights (k := .lock l)).2]
  | @acquireAgain _ l on fs links hf hv hl hg =>
    have hlinks : s'.links = links := hg.moves.links
    refine ⟨_, h.take he ht hg.moves.frames_current hg.moves.allList (hlinks ▸ hl) hg.moves.holder (hs.alone hv).2.1
      (hd.acquire l rfl hv) ?_ ?_⟩
    · intro l'
      rw [hf, releasing_cons rfl]
    · intro l'
      rw [hf, claims_cons (by simp)]
  | @tryAcquire _ l _ _ hv _ =>
    have hz := hd.tryAcquire l rfl
    omega
  | @setHolder _ _ l fs hf hg =>
    -- nobody has to store himself as a holder
    have hz := h.stored l
    have hle : claims l s.frames ≤ total (claims l) s := le_total (claims l) ht.live
    have hone : claims l s.frames = claims l fs + 1 := by
      rw [hf]
      exact List.count_cons_self
    omega
  | @releaseYield _ _ l rest hst hheld _ hg =>
    refine ⟨_, h.giveUp he ht hg.moves.frames_current hg.moves.allList hg.moves.links hheld hg.moves.holder ?_ ?_⟩
    · intro l'
      rw [hst.releasing fun _ => rfl, releasing_unlink]
    · intro l'
      rw [(hst.weights (k := .lock l) rfl (by simp)).2, claims_cons (by simp)]
  | @releaseDone _ _ l fuel rest fs links p hst hheld _ hl _ hset hg =>
    have hlinks : s'.links = links := hg.moves.links
    have hholder : s'.holder = Function.update s.holder l none := hg.moves.holder
    have hrest : releasing l fs = 0 := by rw [hset.releasing, releasing_of_unparked (hst.unparked hb)]
    refine ⟨_, h.remove he ht hg.moves.frames_current hg.moves.allList ((h.mem _ ht.live l).mpr (.inl hheld))
      (hlinks ▸ hl) (by simp [hholder]) ?_ hrest ?_ ?_⟩
    · intro l' hne
      rw [hholder, Function.update_of_ne hne]
    · intro l' _
      rw [hset.releasing, hst.releasing fun _ => rfl]
    · intro l'
      rw [(hset.weights (k := .lock l) (hst.unparked hb)).2, (hst.weights (k := .lock l) rfl (by simp)).2]
  | @unlink _ _ l on fuel rest fs links p hf hl _ hset hg =>
    have hlinks : s'.links = links := hg.moves.links
    have hholder : s'.holder = s.holder := hg.moves.holder
    have hb : Unparked rest := by
      rw [hf] at hb
      exact hb
    have hrest : releasing l fs = 0 := by rw [hset.releasing, releasing_of_unparked hb]
    have hpos : releasing l s.frames = releasing l rest + 1 := by simp [hf, releasing_unlink]
    have hin : l ∈ locks s.current := (h.mem _ ht.live l).mpr (.inr (by rw [← State.frames, hpos]; omega))
    have hfree : s.holder l = none := by
      have honce := h.once l
      have hle : releasing l s.frames ≤ total (releasing l) s := le_total (releasing l) ht.live
      rw [← Option.toList_eq_nil_iff, ← List.length_eq_zero_iff]
      omega
    refine ⟨_, h.remove he ht hg.moves.frames_current hg.moves.allList hin (hlinks ▸ hl) (hholder ▸ hfree) ?_ hrest ?_ ?_⟩
    · intro l' _
      rw [hholder]
    · intro l' hne
      rw [hset.releasing, hf, releasing_unlink, if_neg hne]
      rfl
    · intro l'
      rw [(hset.weights (k := .lock l) hb).2, hf, claims_cons (by simp)]
  | @up _ _ k rest hst hk hg =>
    refine ⟨_, h.still he ht hg.moves.frames_current hg.moves.allList hg.moves.links hg.moves.holder ?_ ?_⟩
    · intro l
      rw [hst.releasing fun _ => rfl, releasing_cons rfl]
    · intro l
      rw [(hst.weights (k := k) rfl (by simp)).2, claims_cons (by simp)]
  | device hi hg | tick hi hg =>
    exact ⟨_, h.still he ht hg.moves.frames_current hg.moves.allList hg.moves.links hg.moves.holder
      (fun _ => hi.releasing) fun l => (hi.weights (k := .lock l)).2⟩
  | signal hf _ _ hg | pushBlock hf hg =>
    exact ⟨_, h.still he ht hg.moves.frames_current hg.moves.allList hg.moves.links hg.moves.holder
      (fun _ => by rw [hf, releasing_cons rfl, releasing_cons rfl])
      fun _ => by rw [hf, claims_cons (by simp), claims_cons (by simp)]⟩
  | create hf hu _ _ hg =>
    refine ⟨_, h.create he ht hg.moves.frames_current hg.moves.allList hu hg.moves.links hg.moves.holder ?_ ?_⟩
    · intro l
      rw [hf]
      simp [releasing, Frame.unlinks]
    · intro l
      rw [hf]
      simp [claims]
  | exit hf hg =>
    exact ⟨_, h.exit he ht hg.moves.frames_current hg.moves.allList hg.moves.links hg.moves.holder
      (linked_empty (h.linked _ ht.live) (hd.exit rfl)) (fun _ => by rw [hf]) fun _ => by rw [hf]⟩

/-! ### Every run -/

theorem booted_holding (h : Booted s) : Holding s fun _ => [] := by
  obtain ⟨values, condLock, rfl⟩ := h
  have hmem : ∀ {t : Tid}, t ∈ (booted values condLock).allList → t = 0 ∨ t = 1 := by
    intro t ht
    simpa [booted] using ht
  have hzero : ∀ {weight : List Frame → Nat}, weight [] = 0 → weight [.setLevel true, .idleBlock] = 0 →
      total weight (booted values condLock) = 0 := by
    intro weight h0 h1
    apply total_zero
    intro t ht
    rcases hmem ht with rfl | rfl
    · exact h0
    · exact h1
  refine ⟨?_, fun _ _ => List.nodup_nil, ?_, ?_, ?_, fun l => hzero rfl rfl⟩
  · intro t ht
    rcases hmem ht with rfl | rfl
    · exact init_frame (linked_init _ (by decide)) (by decide)
    · exact linked_init _ (by decide)
  · intro t ht l
    rcases hmem ht with rfl | rfl <;> simp [booted, releasing, Frame.unlinks]
  · intro l t hx
    cases hx
  · intro l
    rw [hzero rfl rfl]
    exact Nat.zero_le _

theorem ReachableUnder.holding {cond : Act → State → Prop} (hc : ∀ a s, cond a s → Careful a s)
    (hr : ReachableUnder cond s) : ∃ locks, Holding s locks := by
  apply hr.effects
  · intro s hb
    exact ⟨_, booted_holding hb⟩
  · rintro s s' a hr ht hm ⟨locks, h⟩ _ hca _ _ he
    obtain ⟨init, hs⟩ := hr.sound
    exact he.holding h hs ht hm (hc a s hca).minds

def Frame.inRelease : Frame → Bool
  | .unlink _ _ => true
  | _ => false

/-- No thread is between giving a lock up and unlinking it in `lock_release`. -/
def NoRelease (s : State) : Prop := ∀ t ∈ s.allList, ∀ f ∈ (s.thread t).frames, f.inRelease = false

instance (s : State) : Decidable (NoRelease s) := by
  unfold NoRelease
  infer_instance

/-- Each thread's `holding_locks_list` holds the locks whose holder it is, each once, and no lock
is in two lists. -/
def ListsExact (s : State) : Prop :=
  ∃ locks : Tid → List LockId,
    (∀ t ∈ s.allList, s.links.Linked (spine t (locks t)) ∧ (locks t).Nodup ∧
      ∀ l, l ∈ locks t ↔ s.holder l = some t) ∧
    ∀ t ∈ s.allList, ∀ u ∈ s.allList, ∀ l, l ∈ locks t → l ∈ locks u → t = u

theorem holding_lists_exact (hr : ReachableUnder Careful s) (hn : NoRelease s) : ListsExact s := by
  obtain ⟨locks, h⟩ := hr.holding fun _ _ => id
  refine ⟨locks, ?_, fun t ht u hu l => h.unique hr.reachable.tidy.nodup ht hu⟩
  intro t ht
  refine ⟨h.linked t ht, h.nodup t ht, ?_⟩
  intro l
  have hz : releasing l (s.thread t).frames = 0 := by
    rw [releasing, List.countP_eq_zero]
    intro f hf hu
    have hr := hn t ht f hf
    cases f <;> first | cases hu | cases hr
  rw [h.mem t ht l]
  simp [hz]

/-- Two threads hold a lock each, and one waits for the other's. -/
theorem holding_lists_exact_after_acquire : ∃ s, ReachableUnder Careful s ∧
    (s.holder (.user 0) = some 0 ∧ s.holder (.user 1) = some 2 ∧ NoRelease s) ∧ ListsExact s := by
  let acts : List (List Act) := [[.call (.lockAcquire 0) 1], creation 40 2,
    [.go 0, .call (.lockAcquire 1) 1, .call (.lockAcquire 0) 2]]
  obtain ⟨s, hr, hs⟩ := reachable_of_after Careful acts.flatten
    (fun s => s.holder (.user 0) = some 0 ∧ s.holder (.user 1) = some 2 ∧ NoRelease s) (by decide +kernel)
  exact ⟨s, hr, hs, holding_lists_exact hr hs.2.2⟩

/-- `lock_try_acquire` stores the holder and leaves its list empty. -/
theorem try_acquire_not_linked : ∃ s, Reachable s ∧ NoRelease s ∧ ¬ ListsExact s := by
  obtain ⟨s, hr, hn, ht, hh, hnext⟩ := reachable_of_after (fun _ _ => True) [.call (.lockTryAcquire 0) 0, .go 0]
    (fun s => NoRelease s ∧ 0 ∈ s.allList ∧ s.holder (.user 0) = some 0 ∧ s.links.next (.head 0) = some (.tail 0))
    (by decide +kernel)
  refine ⟨s, hr, hn, ?_⟩
  rintro ⟨locks, hl, -⟩
  obtain ⟨hlinked, -, hmem⟩ := hl 0 ht
  have hin := (hmem _).mpr hh
  rw [linked_empty hlinked hnext] at hin
  cases hin

end

end Pintos.Threads
