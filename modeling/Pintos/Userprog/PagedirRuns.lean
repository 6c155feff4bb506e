import Pintos.Userprog.PagedirProofs

/-! A page directory in use.

After `paging_init` and `pagedir_create`, pages are set and cleared in any order while the processor marks
entries and the owner of the mapped pages writes to them. The directory then is the map that the
successful calls make, its kernel half stays that of `init_page_dir`, and `pagedir_destroy` gives back each
of its pages once. -/
namespace Pintos.Pagedir

open UserMemory (pgSize physBase pgOfs ptNo pdNo isUserVaddr ptov)
open Steps

/-! ### The kernel's directory -/

/-- What `paging_init` leaves: no user entries, and kernel entries that point to page tables. -/
structure KernelDir (ramPages initPageDir : Nat) (s : State) : Prop where
  page : IsPage ramPages initPageDir ∧ initPageDir ∈ s.used
  user : ∀ i < 768, s.word (initPageDir + 4 * i) = 0
  tables : ∀ i < 1024, s.word (initPageDir + 4 * i) = 0 ∨
    ∃ t, s.word (initPageDir + 4 * i) = pdeCreate t ∧ IsPage ramPages t ∧ t ∈ s.used ∧ t ≠ initPageDir

section
variable {ramPages initPageDir pt t i j v : Nat} {s s' : State} {answer : Option Nat}

/-- Memory may change outside the directory. -/
theorem KernelDir.congr (h : KernelDir ramPages initPageDir s) (hmem : ∀ a, InPage initPageDir a → s'.mem a = s.mem a)
    (hused : s.used ⊆ s'.used) : KernelDir ramPages initPageDir s' := by
  refine ⟨⟨h.page.1, hused h.page.2⟩, fun i hi => ?_, fun i hi => ?_⟩
  · rw [word_congr (by omega) hmem]
    exact h.user i hi
  · rw [word_congr hi hmem]
    refine (h.tables i hi).imp id fun ht => ?_
    grind

/-- A new page table for a kernel entry. -/
theorem KernelDir.newTable (h : KernelDir ramPages initPageDir s) (hram : ramPages ≤ 2 ^ 18) (hi : 768 ≤ i) (hi' : i < 1024)
    (hpt : IsPage ramPages pt) (hfree : pt ∉ s.used) :
    KernelDir ramPages initPageDir ((s.take true pt).store (initPageDir + 4 * i) (pdeCreate pt)) := by
  have hne : initPageDir ≠ pt := fun e => hfree (e ▸ h.page.2)
  have htake : KernelDir ramPages initPageDir (s.take true pt) :=
    h.congr (fun a ha => mem_take (ha.apart h.page.1.1 hpt.1 hne)) (Finset.subset_insert ..)
  obtain ⟨-, -, hlt, -⟩ := readable_pdeCreate hram hpt
  have hal := h.page.1.1
  refine ⟨htake.page, fun k hk => ?_, fun k hk => ?_⟩
  · rw [word_store_apart (words_apart hal hal (by omega) (by omega) (.inr (by omega)))]
    exact htake.user k hk
  · by_cases he : k = i
    · subst he
      exact .inr ⟨pt, word_store hlt, hpt, Finset.mem_insert_self .., hne.symm⟩
    · rw [word_store_apart (words_apart hal hal (by omega) (by omega) (.inr (Ne.symm he)))]
      exact htake.tables k hk

/-- The table that the rounds of `paging_init` write to. -/
def TableReady (ramPages initPageDir pt : Nat) (s : State) : Prop :=
  IsPage ramPages pt ∧ pt ∈ s.used ∧ pt ≠ initPageDir

theorem kernelTable_ok {r : Nat × State} (hram : ramPages ≤ 2 ^ 18) (h : KernelDir ramPages initPageDir s) (hi : 768 ≤ i)
    (hi' : i < 1024) (hpt : s.word (initPageDir + 4 * i) = 0 ∨ TableReady ramPages initPageDir pt s)
    (hx : kernelTable ramPages (initPageDir + 4 * i) answer pt s = .ok r) :
    KernelDir ramPages initPageDir r.2 ∧ TableReady ramPages initPageDir r.1 r.2 := by
  unfold kernelTable at hx
  split at hx
  · obtain ⟨⟨page, s1⟩, hget, hrest⟩ := bind_ok.mp hx
    obtain ⟨rfl, rfl⟩ | ⟨p, rfl, hpage, hfree, rfl⟩ := pallocGetPage_ok hget
    · cases hrest
    · cases hrest
      have hne : p ≠ initPageDir := fun e => hfree (e ▸ h.page.2)
      exact ⟨h.newTable hram hi hi' hpage hfree, hpage, Finset.mem_insert_self .., hne⟩
  · grind

theorem kernel_index {page : Nat} (hram : ramPages ≤ 2 ^ 18) (hp : page < ramPages) :
    768 ≤ pdNo (ptov (page * pgSize)) ∧ pdNo (ptov (page * pgSize)) < 1024 ∧ ptNo (ptov (page * pgSize)) < 1024 := by
  unfold pdNo ptNo ptov physBase pgSize
  omega

/-- A store to an entry of such a table. -/
theorem KernelDir.store (h : KernelDir ramPages initPageDir s) (hready : TableReady ramPages initPageDir pt s)
    (hj : j < 1024) :
    KernelDir ramPages initPageDir (s.store (pt + 4 * j) v) ∧
      TableReady ramPages initPageDir pt (s.store (pt + 4 * j) v) := by
  have hdir : KernelDir ramPages initPageDir (s.store (pt + 4 * j) v) :=
    h.congr (fun a ha => mem_store_page ha h.page.1.1 hready.1.1 hready.2.2.symm hj) (Finset.Subset.refl s.used)
  exact ⟨hdir, hready⟩

theorem pagingRound_ok {writable : Nat → Bool} {answers : Nat → Option Nat} {page : Nat} {r r' : Nat × State}
    (hram : ramPages ≤ 2 ^ 18) (hp : page < ramPages) (h : KernelDir ramPages initPageDir r.2)
    (hpt : (∀ i < 1024, r.2.word (initPageDir + 4 * i) = 0) ∨ TableReady ramPages initPageDir r.1 r.2)
    (hx : pagingRound ramPages initPageDir writable answers r page = .ok r') :
    KernelDir ramPages initPageDir r'.2 ∧ TableReady ramPages initPageDir r'.1 r'.2 := by
  obtain ⟨hlo, hhi, hj⟩ := kernel_index hram hp
  unfold pagingRound at hx
  generalize ptov (page * pgSize) = vaddr at *
  obtain ⟨r1, hr1, hx⟩ := bind_ok.mp hx
  obtain ⟨hdir, hready⟩ := kernelTable_ok hram h hlo hhi (hpt.imp (fun hz => hz _ hhi) id) hr1
  cases hx
  exact hdir.store hready hj

theorem pagingInit_ok {writable : Nat → Bool} {answers : Nat → Option Nat} (hram : ramPages ≤ 2 ^ 18)
    (h : pagingInit ramPages writable answer answers s = .ok (initPageDir, s')) : KernelDir ramPages initPageDir s' := by
  obtain ⟨⟨p, s1⟩, hget, hrest⟩ := bind_ok.mp h
  obtain ⟨rfl, rfl⟩ | ⟨p, rfl, hpage, hfree, rfl⟩ := pallocGetPage_ok hget
  · cases hrest
  · obtain ⟨r, hloop, hend⟩ := bind_ok.mp hrest
    cases hend
    have hzero : ∀ i < 1024, (s.take true initPageDir).word (initPageDir + 4 * i) = 0 := fun i hi => word_take_zero hi
    have hstart : KernelDir ramPages initPageDir (s.take true initPageDir) :=
      ⟨⟨hpage, Finset.mem_insert_self ..⟩, fun i hi => hzero i (by omega), fun i hi => .inl (hzero i hi)⟩
    refine (foldlM_invariant (J := fun r => KernelDir ramPages initPageDir r.2 ∧
      ((∀ i < 1024, r.2.word (initPageDir + 4 * i) = 0) ∨ TableReady ramPages initPageDir r.1 r.2))
      (fun r page r' hp hJ hx => ?_) ⟨hstart, .inl hzero⟩ hloop).1
    obtain ⟨hdir, hready⟩ := pagingRound_ok hram (List.mem_range.mp hp) hJ.1 hJ.2 hx
    exact ⟨hdir, .inr hready⟩

end

/-! ### Runs -/

/-- A call that has changed the map. -/
inductive Event where
  | set (upage kpage : Nat)
  | clear (upage : Nat)
deriving Repr, DecidableEq

def Event.upage : Event → Nat
  | .set upage _ => upage
  | .clear upage => upage

/-- The kernel page of a user page, by its number: that of the last set that no clear came after. -/
def lastSet : List Event → Nat → Option Nat
  | [], _ => none
  | .set upage kpage :: log, v => if v = upage / pgSize then some kpage else lastSet log v
  | .clear upage :: log, v => if v = upage / pgSize then none else lastSet log v

/-- The state with the pages that the user of the directory has asked for, and the calls so far. -/
structure Session where
  state : State
  own : Finset Nat
  log : List Event

inductive Act where
  /-- The user of the directory asks for a page. -/
  | get (zero : Bool) (answer : Option Nat)
  | set (upage kpage : Nat) (writable : Bool) (answer : Option Nat)
  | clear (upage : Nat)
  /-- The processor uses an address. -/
  | touch (uaddr : Nat) (dirty : Bool)
  /-- A byte is stored in a page of the user of the directory. -/
  | write (a : Nat) (byte : UInt8)

/-- The user page that an act is about. -/
def Act.upage : Act → Option Nat
  | .set upage _ _ _ => some upage
  | .clear upage => some upage
  | _ => none

section
variable (ramPages initPageDir pd : Nat)

instance (p a : Nat) : Decidable (InPage p a) := inferInstanceAs (Decidable (_ ∧ _))

def step : Act → Session → Except Fault Session
  | .get zero answer, s => do
    let (page, state) ← pallocGetPage ramPages zero answer s.state
    return { s with state, own := s.own ∪ page.toFinset }
  | .set upage kpage writable answer, s => do
    let (ok, state) ← pagedirSetPage ramPages initPageDir pd upage kpage writable answer s.state
    return { s with state, log := if ok then .set upage kpage :: s.log else s.log }
  | .clear upage, s => do
    let state ← pagedirClearPage ramPages pd upage s.state
    return { s with state, log := .clear upage :: s.log }
  | .touch uaddr dirty, s => do
    let state ← touch ramPages pd uaddr dirty s.state
    return { s with state }
  | .write a byte, s =>
    if ∃ p ∈ s.own, InPage p a then .ok { s with state.mem := s.state.mem.patch a 1 fun _ => byte } else .error .unable

end

/-- A directory has just been created. -/
def Begins (state : State) (s : Session) : Prop := s = ⟨state, ∅, []⟩

/-- A page that is set is one of the user's, and is not mapped already. -/
def MapsOnce : Act → Session → Prop
  | .set upage kpage _ _, s => kpage ∈ s.own ∧ lastSet s.log (upage / pgSize) = none ∧
      ∀ e ∈ s.log, lastSet s.log (e.upage / pgSize) ≠ some kpage
  | _, _ => True

instance : ∀ (a : Act) (s : Session), Decidable (MapsOnce a s)
  | .set .., _ => inferInstanceAs (Decidable (_ ∧ _ ∧ _))
  | .get .., _ => .isTrue trivial
  | .clear .., _ => .isTrue trivial
  | .touch .., _ => .isTrue trivial
  | .write .., _ => .isTrue trivial

/-- What `lookup_page` finds for a kernel address: the entry in the table of the directory, if there is one. -/
def kernelEntry (s : State) (pd va : Nat) : Option Nat :=
  if s.word (pd + 4 * pdNo va) = 0 then none else some (s.word (pdeGetPt (s.word (pd + 4 * pdNo va)) + 4 * ptNo va))

/-- A page of the kernel's page directory: the directory itself or one of its tables. -/
def KernelPage (initPageDir : Nat) (s : State) (t : Nat) : Prop :=
  t = initPageDir ∨ ∃ i < 1024, s.word (initPageDir + 4 * i) ≠ 0 ∧ pdeGetPt (s.word (initPageDir + 4 * i)) = t

/-- Whatever has happened since `paging_init`, the pages of the kernel's page directory are as it has left them. -/
def Booted (ramPages initPageDir : Nat) (s : State) : Prop :=
  ∃ writable answer answers s0 s1, pagingInit ramPages writable answer answers s0 = .ok (initPageDir, s1) ∧
    s1.used ⊆ s.used ∧ ∀ t, KernelPage initPageDir s1 t → ∀ a, InPage t a → s.mem a = s1.mem a

section
variable {ramPages initPageDir pd p t v k : Nat} {σ σ' : Space} {s0 st st' : State} {s s' : Session}

theorem lastSet_set (log : List Event) (upage kpage : Nat) :
    lastSet (.set upage kpage :: log) = Function.update (lastSet log) (upage / pgSize) (some kpage) := by
  funext v
  rw [Function.update_apply]
  rfl

theorem lastSet_clear (log : List Event) (upage : Nat) :
    lastSet (.clear upage :: log) = Function.update (lastSet log) (upage / pgSize) none := by
  funext v
  rw [Function.update_apply]
  rfl

theorem lastSet_cons_ne {e : Event} {log : List Event} (h : v ≠ e.upage / pgSize) : lastSet (e :: log) v = lastSet log v := by
  cases e <;> exact if_neg h

theorem lastSet_event {log : List Event} (h : lastSet log v = some k) : ∃ e ∈ log, e.upage / pgSize = v := by
  induction log with
  | nil => cases h
  | cons e log ih =>
    by_cases hv : v = e.upage / pgSize
    · exact ⟨e, List.mem_cons_self, hv.symm⟩
    · rw [lastSet_cons_ne hv] at h
      grind

theorem Booted.kernelDir (hram : ramPages ≤ 2 ^ 18) (h : Booted ramPages initPageDir s0) :
    KernelDir ramPages initPageDir s0 := by
  obtain ⟨_, _, _, _, s1, hinit, hused, hsame⟩ := h
  exact (pagingInit_ok hram hinit).congr (hsame _ (.inl rfl)) hused

theorem KernelDir.kernelPage (hram : ramPages ≤ 2 ^ 18) (h : KernelDir ramPages initPageDir s0)
    (ht : KernelPage initPageDir s0 t) : IsPage ramPages t ∧ t ∈ s0.used := by
  obtain rfl | ⟨i, hi, hne, hget⟩ := ht
  · exact h.page
  · obtain hzero | ⟨t', hword, hpage, hused, -⟩ := h.tables i hi
    · exact absurd hzero hne
    · rw [hword, (readable_pdeCreate hram hpage).2.1] at hget
      exact hget ▸ ⟨hpage, hused⟩

/-- The state of a run, against the state `s0` in which the directory was created. -/
structure Sane (ramPages initPageDir pd : Nat) (s0 : State) (σ : Space) (s : Session) : Prop where
  holds : Holds ramPages pd σ s.state
  page : σ.page = lastSet s.log
  own : ∀ p ∈ s.own, IsPage ramPages p ∧ p ∈ s.state.used ∧ p ≠ pd ∧ ∀ i, σ.table i ≠ some p
  mapped : ∀ v k, σ.page v = some k → k ∈ s.own
  kernel : ∀ t, KernelPage initPageDir s0 t → IsPage ramPages t ∧ t ∈ s.state.used ∧ t ≠ pd ∧
    (∀ i, σ.table i ≠ some t) ∧ t ∉ s.own
  same : ∀ t, KernelPage initPageDir s0 t → ∀ a, InPage t a → s.state.mem a = s0.mem a
  half : ∀ i, 768 ≤ i → i < 1024 → s.state.word (pd + 4 * i) = s0.word (initPageDir + 4 * i)

/-- A function of the page directory keeps what is not about the map. -/
theorem Sane.within {log : List Event} (h : Sane ramPages initPageDir pd s0 σ s) (hh : Holds ramPages pd σ' st')
    (hw : Within pd σ σ' s.state st') (hpage : σ'.page = lastSet log) (hmapped : ∀ v k, σ'.page v = some k → k ∈ s.own) :
    Sane ramPages initPageDir pd s0 σ' ⟨st', s.own, log⟩ := by
  -- a page that was in use has not become a table
  have hnew : ∀ p, p ∈ s.state.used → (∀ i, σ.table i ≠ some p) → ∀ i, σ'.table i ≠ some p := by
    intro p hp hno i hi
    exact absurd hp ((hw.new i p hi).resolve_left (hno i))
  refine ⟨hh, hpage, fun p hp => ?_, hmapped, fun t ht => ?_, fun t ht a ha => ?_, fun i hlo hhi => ?_⟩
  · obtain ⟨h1, h2, h3, h4⟩ := h.own p hp
    exact ⟨h1, hw.used h2, h3, hnew p h2 h4⟩
  · obtain ⟨h1, h2, h3, h4, h5⟩ := h.kernel t ht
    exact ⟨h1, hw.used h2, h3, hnew t h2 h4, h5⟩
  · obtain ⟨h1, h2, h3, h4, -⟩ := h.kernel t ht
    refine (hw.mem a (ha.apart h1.1 hh.pd_page.1.1 h3) fun i pt hpt => ?_).trans (h.same t ht a ha)
    exact ha.apart h1.1 (hh.table_page hpt).1.1 fun e => hnew t h2 h4 i (e ▸ hpt)
  · exact (hw.kernel i hlo hhi).trans (h.half i hlo hhi)

/-- Memory changes in pages that are neither the directory's nor the kernel's, and a page may have been handed out. -/
theorem Sane.elsewhere {own : Finset Nat} (h : Sane ramPages initPageDir pd s0 σ s) (p : Nat) (hp : IsPage ramPages p)
    (hpd : p ≠ pd) (htab : ∀ i, σ.table i ≠ some p) (hker : ¬ KernelPage initPageDir s0 p)
    (hmem : ∀ a, ¬ InPage p a → st'.mem a = s.state.mem a) (hused : st'.used = insert p s.state.used)
    (hown : own = insert p s.own) : Sane ramPages initPageDir pd s0 σ ⟨st', own, s.log⟩ := by
  have hsub : s.state.used ⊆ st'.used := hused ▸ Finset.subset_insert ..
  have hpdal := h.holds.pd_page.1.1
  have hdir : ∀ a, InPage pd a → st'.mem a = s.state.mem a := fun a ha => hmem a (ha.apart hpdal hp.1 hpd.symm)
  refine ⟨h.holds.congr hdir (fun i pt ht a ha => ?_) hsub, h.page, fun q hq => ?_, fun v k hk => ?_, fun t ht => ?_,
    fun t ht a ha => ?_, fun i hlo hhi => ?_⟩
  · exact hmem a (ha.apart (h.holds.table_page ht).1.1 hp.1 fun e => htab i (e ▸ ht))
  · rw [hown, Finset.mem_insert] at hq
    rcases hq with rfl | hq
    · exact ⟨hp, hused ▸ Finset.mem_insert_self .., hpd, htab⟩
    · obtain ⟨h1, h2, h3, h4⟩ := h.own q hq
      exact ⟨h1, hsub h2, h3, h4⟩
  · exact hown ▸ Finset.mem_insert_of_mem (h.mapped v k hk)
  · obtain ⟨h1, h2, h3, h4, h5⟩ := h.kernel t ht
    grind
  · obtain ⟨h1, -⟩ := h.kernel t ht
    exact (hmem a (ha.apart h1.1 hp.1 fun e => hker (e ▸ ht))).trans (h.same t ht a ha)
  · exact (word_congr hhi hdir).trans (h.half i hlo hhi)

theorem check_ok {cond : Bool} {r : Unit} (h : check cond = .ok r) : cond = true := by
  cases cond with
  | true => rfl
  | false => cases h

theorem check_user {r : Unit} (h : check (isUserVaddr v) = .ok r) : v < physBase := by
  have h := check_ok h
  rw [isUserVaddr, decide_eq_true_eq] at h
  exact h

theorem check_aligned {r : Unit} (h : check (pgOfs v = 0) = .ok r) : pgOfs v = 0 := by
  have h := check_ok h
  rwa [decide_eq_true_eq] at h

theorem setPage_user {upage kpage : Nat} {writable : Bool} {answer : Option Nat} {r : Bool × State}
    (h : pagedirSetPage ramPages initPageDir pd upage kpage writable answer st = .ok r) :
    pgOfs upage = 0 ∧ upage < physBase := by
  obtain ⟨_, h1, h⟩ := bind_ok.mp h
  obtain ⟨_, -, h⟩ := bind_ok.mp h
  obtain ⟨_, h3, -⟩ := bind_ok.mp h
  exact ⟨check_aligned h1, check_user h3⟩

theorem clearPage_user {upage : Nat} (h : pagedirClearPage ramPages pd upage st = .ok st') :
    pgOfs upage = 0 ∧ upage < physBase := by
  obtain ⟨_, h1, h⟩ := bind_ok.mp h
  obtain ⟨_, h2, -⟩ := bind_ok.mp h
  exact ⟨check_aligned h1, check_user h2⟩

theorem Sane.place_ne (h : Sane ramPages initPageDir pd s0 σ s) (hp : p ∈ s.own) (hno : ∀ v, σ.page v ≠ some p) (x : Place) :
    σ.at pd x ≠ some p := by
  obtain ⟨-, -, hpd, htab⟩ := h.own p hp
  cases x with
  | dir => exact fun e => hpd (Option.some.inj e).symm
  | table i => exact htab i
  | page v => exact hno v

/-- Setting a page of the user's that is not mapped, at a user page that is not mapped. -/
theorem Sane.set {upage kpage : Nat} (writable : Bool) (answer : Option Nat) (h : Sane ramPages initPageDir pd s0 σ s)
    (hram : ramPages ≤ 2 ^ 18) (hofs : pgOfs upage = 0) (hu : upage < physBase)
    (hc : MapsOnce (.set upage kpage writable answer) s) :
    (pagedirSetPage ramPages initPageDir pd upage kpage writable answer s.state = .error .unable ∧
      Illegal ramPages answer s.state) ∨
    (pagedirSetPage ramPages initPageDir pd upage kpage writable answer s.state = .ok (false, s.state) ∧ answer = none) ∨
    ∃ σ' st', pagedirSetPage ramPages initPageDir pd upage kpage writable answer s.state = .ok (true, st') ∧
      Holds ramPages pd σ' st' ∧ σ'.page = Function.update σ.page (upage / pgSize) (some kpage) ∧
      Within pd σ σ' s.state st' := by
  obtain ⟨hown, hfree, hunmapped⟩ := hc
  obtain ⟨hkp, hkused, -, -⟩ := h.own kpage hown
  have hno : ∀ v, σ.page v ≠ some kpage := by
    intro v hv
    rw [h.page] at hv
    obtain ⟨e, he, hev⟩ := lastSet_event hv
    exact hunmapped e he (hev ▸ hv)
  have hinit : pd ≠ initPageDir := ((h.kernel _ (.inl rfl)).2.2.1).symm
  exact h.holds.set writable answer hram hu hofs hinit hkp hkused (h.place_ne hown hno) (by rw [h.page]; exact hfree)

theorem sane_step {act : Act} (hram : ramPages ≤ 2 ^ 18) (h : Sane ramPages initPageDir pd s0 σ s) (hc : MapsOnce act s)
    (hx : step ramPages initPageDir pd act s = .ok s') : ∃ σ', Sane ramPages initPageDir pd s0 σ' s' := by
  cases act with
  | get zero answer =>
    obtain ⟨⟨page, st'⟩, hget, hx⟩ := bind_ok.mp hx
    cases hx
    obtain ⟨rfl, rfl⟩ | ⟨q, rfl, hq, hfree, rfl⟩ := pallocGetPage_ok hget
    · refine ⟨σ, ?_⟩
      simpa using h
    · refine ⟨σ, h.elsewhere q hq (fun e => hfree (e ▸ h.holds.pd_page.2)) (fun i e => hfree (h.holds.table_page e).2)
        (fun e => hfree (h.kernel q e).2.1) (fun a ha => mem_take ha) rfl ?_⟩
      rw [Finset.insert_eq, Finset.union_comm]
      rfl
  | set upage kpage writable answer =>
    obtain ⟨⟨ok, st'⟩, hset, hx⟩ := bind_ok.mp hx
    cases hx
    obtain ⟨hofs, hu⟩ := setPage_user hset
    obtain ⟨hs, -⟩ | ⟨hs, -⟩ | ⟨σ', st1, hs, hh, hpage, hw⟩ := h.set writable answer hram hofs hu hc
    · rw [hs] at hset
      cases hset
    · rw [hs] at hset
      cases hset
      exact ⟨σ, h⟩
    · rw [hs] at hset
      cases hset
      refine ⟨σ', h.within hh hw ?_ fun v k hk => ?_⟩
      · rw [if_pos rfl, lastSet_set, hpage, h.page]
      · rw [hpage, Function.update_apply] at hk
        split at hk
        · exact Option.some.inj hk ▸ hc.1
        · exact h.mapped v k hk
  | clear upage =>
    obtain ⟨st', hclear, hx⟩ := bind_ok.mp hx
    cases hx
    obtain ⟨hofs, hu⟩ := clearPage_user hclear
    obtain ⟨st1, hs, hh, hw⟩ := h.holds.clear hram hu hofs
    rw [hs] at hclear
    cases hclear
    refine ⟨_, h.within hh hw ?_ fun v k hk => ?_⟩
    · rw [lastSet_clear, ← h.page]
      rfl
    · rw [Space.page_setPage] at hk
      split at hk
      · cases hk
      · exact h.mapped v k hk
  | touch uaddr dirty =>
    obtain ⟨st', htouch, hx⟩ := bind_ok.mp hx
    cases hx
    have hu : uaddr < physBase := by
      obtain ⟨_, h1, -⟩ := bind_ok.mp htouch
      exact check_user h1
    obtain ⟨st1, hs, hh, hw⟩ := h.holds.touch dirty hram hu
    rw [hs] at htouch
    cases htouch
    exact ⟨σ, h.within hh hw h.page h.mapped⟩
  | write a byte =>
    simp only [step] at hx
    split at hx
    · rename_i hin
      cases hx
      obtain ⟨p, hp, ha⟩ := hin
      obtain ⟨hpage, hused, hpd, htab⟩ := h.own p hp
      refine ⟨σ, h.elsewhere p hpage hpd htab (fun e => (h.kernel p e).2.2.2.2 hp) (fun b hb => ?_)
        (Finset.insert_eq_self.mpr hused).symm (Finset.insert_eq_self.mpr hp).symm⟩
      have hne : ¬ (a ≤ b ∧ b < a + 1) := fun hab => hb ((show b = a by omega) ▸ ha)
      exact Bytes.patch_outside s.state.mem (fun _ => byte) hne
    · cases hx

/-- `pagedir_create` copies the kernel's page directory. -/
theorem pagedirCreate_some {answer : Option Nat}
    (h : pagedirCreate ramPages initPageDir answer s0 = .ok (some pd, st)) :
    IsPage ramPages pd ∧ pd ∉ s0.used ∧ st.used = insert pd s0.used ∧ (∀ a, ¬ InPage pd a → st.mem a = s0.mem a) ∧
      ∀ i < 1024, st.word (pd + 4 * i) = s0.word (initPageDir + 4 * i) := by
  obtain ⟨⟨page, s1⟩, hget, hrest⟩ := bind_ok.mp h
  obtain ⟨rfl, rfl⟩ | ⟨q, rfl, hq, hfree, rfl⟩ := pallocGetPage_ok hget
  · cases hrest
  · cases hrest
    refine ⟨hq, hfree, rfl, fun a ha => ?_, fun i hi => ?_⟩
    · exact Bytes.patch_outside s0.mem (fun k => s0.mem (initPageDir + k)) ha
    have hbyte : ∀ k, k < 4 → s0.mem.patch pd pgSize (fun k => s0.mem (initPageDir + k)) (pd + 4 * i + k) =
        s0.mem (initPageDir + 4 * i + k) := by
      intro k hk
      rw [Bytes.patch_inside s0.mem _ (by omega) (by unfold pgSize; omega)]
      congr 1
      omega
    exact Bytes.wordAt_shift hbyte

/-- The space of a new directory. -/
def Space.empty : Space := ⟨fun _ => none, fun _ => none⟩

theorem Space.empty_at {x : Place} (h : Space.empty.at pd x = some p) : x = .dir ∧ p = pd := by
  cases x with
  | dir => exact ⟨rfl, (Option.some.inj h).symm⟩
  | table i => cases h
  | page v => cases h

theorem sane_create {answer : Option Nat} (hram : ramPages ≤ 2 ^ 18) (hb : Booted ramPages initPageDir s0)
    (h : pagedirCreate ramPages initPageDir answer s0 = .ok (some pd, st)) :
    Sane ramPages initPageDir pd s0 .empty ⟨st, ∅, []⟩ := by
  obtain ⟨hpd, hfree, hused, hmem, hword⟩ := pagedirCreate_some h
  have hk := hb.kernelDir hram
  have hin : pd ∈ st.used := hused ▸ Finset.mem_insert_self ..
  have hholds : Holds ramPages pd .empty st := by
    refine ⟨fun i hi => (hword i (by omega)).trans (hk.user i hi), fun _ _ ht => (by cases ht), fun _ _ _ _ => rfl,
      fun _ _ ht => (by cases ht), fun x p hx => ?_, fun x y p hx hy => ?_⟩
    · exact (Space.empty_at hx).2 ▸ ⟨hpd, hin⟩
    · exact (Space.empty_at hx).1.trans (Space.empty_at hy).1.symm
  have hpage : ∀ t, KernelPage initPageDir s0 t → IsPage ramPages t ∧ t ∈ st.used ∧ t ≠ pd := by
    intro t ht
    obtain ⟨h1, h2⟩ := hk.kernelPage hram ht
    exact ⟨h1, hused ▸ Finset.mem_insert_of_mem h2, fun e => hfree (e ▸ h2)⟩
  constructor
  case holds => exact hholds
  case page => rfl
  case own => exact fun p hp => absurd hp (Finset.notMem_empty p)
  case mapped => exact fun v k hk => by cases hk
  case kernel =>
    intro t ht
    obtain ⟨h1, h2, h3⟩ := hpage t ht
    exact ⟨h1, h2, h3, fun i hi => (by cases hi), Finset.notMem_empty t⟩
  case same =>
    intro t ht a ha
    obtain ⟨h1, -, h3⟩ := hpage t ht
    exact hmem a (ha.apart h1.1 hpd.1 h3)
  case half => exact fun i _ hi => hword i hi

theorem sane_reach {answer : Option Nat} (hram : ramPages ≤ 2 ^ 18) (hb : Booted ramPages initPageDir s0)
    (h : pagedirCreate ramPages initPageDir answer s0 = .ok (some pd, st))
    (hr : Reach (step ramPages initPageDir pd) MapsOnce (Begins st) s) :
    ∃ σ, Sane ramPages initPageDir pd s0 σ s := by
  refine hr.invariant (J := fun s => ∃ σ, Sane ramPages initPageDir pd s0 σ s) (fun s hs => ?_) fun s a s' hJ hc hx => ?_
  · exact ⟨.empty, (show s = _ from hs) ▸ sane_create hram hb h⟩
  · obtain ⟨σ, hσ⟩ := hJ
    exact sane_step hram hσ hc hx

/-! ### The map, the kernel half, and the end -/

/-- A step about one user page says nothing of the others. -/
theorem lastSet_step {act : Act} {v : Nat} (hx : step ramPages initPageDir pd act s = .ok s')
    (hv : ∀ u, act.upage = some u → v ≠ u / pgSize) : lastSet s'.log v = lastSet s.log v := by
  cases act with
  | get zero answer =>
    obtain ⟨r, -, hx⟩ := bind_ok.mp hx
    cases hx
    rfl
  | set upage kpage writable answer =>
    obtain ⟨⟨ok, st'⟩, -, hx⟩ := bind_ok.mp hx
    cases hx
    cases ok with
    | true => exact lastSet_cons_ne (hv upage rfl)
    | false => rfl
  | clear upage =>
    obtain ⟨st', -, hx⟩ := bind_ok.mp hx
    cases hx
    exact lastSet_cons_ne (hv upage rfl)
  | touch uaddr dirty =>
    obtain ⟨st', -, hx⟩ := bind_ok.mp hx
    cases hx
    rfl
  | write a byte =>
    simp only [step] at hx
    split at hx
    · cases hx
      rfl
    · cases hx

theorem Sane.kernelEntry {va : Nat} (h : Sane ramPages initPageDir pd s0 σ s) (hlo : physBase ≤ va) (hhi : va < 2 ^ 32) :
    Pagedir.kernelEntry s.state pd va = Pagedir.kernelEntry s0 initPageDir va := by
  have hi : 768 ≤ pdNo va ∧ pdNo va < 1024 ∧ ptNo va < 1024 := by
    unfold physBase at hlo
    unfold pdNo ptNo
    omega
  have hword := h.half (pdNo va) hi.1 hi.2.1
  unfold Pagedir.kernelEntry
  rw [hword]
  split
  · rfl
  · rename_i hne
    rw [word_congr hi.2.2 (h.same _ (.inr ⟨pdNo va, hi.2.1, hne, rfl⟩))]

/-- Where the pages of the directory are found: itself, the tables of its user entries, the mapped pages. -/
theorem Sane.mem_pages (h : Sane ramPages initPageDir pd s0 σ s) (hram : ramPages ≤ 2 ^ 18) :
    p ∈ σ.pages pd ↔ p = pd ∨
      (∃ i < 768, s.state.word (pd + 4 * i) ≠ 0 ∧ pdeGetPt (s.state.word (pd + 4 * i)) = p) ∨
      ∃ v, lastSet s.log v = some p := by
  have htable : (∃ i, σ.table i = some p) ↔
      ∃ i < 768, s.state.word (pd + 4 * i) ≠ 0 ∧ pdeGetPt (s.state.word (pd + 4 * i)) = p := by
    refine exists_congr fun i => ⟨fun ht => ?_, fun hi => ?_⟩
    · have hlt := h.holds.below i p ht
      have hword := h.holds.dir i hlt
      obtain ⟨-, hget, -, hne⟩ := readable_pdeCreate hram (h.holds.table_page ht).1
      grind
    · obtain ⟨hlt, hne, hget⟩ := hi
      have hword := h.holds.dir i hlt
      cases ht : σ.table i with
      | none =>
        grind
      | some t =>
        rw [ht, Option.elim_some] at hword
        rw [hword, (readable_pdeCreate hram (h.holds.table_page ht).1).2.1] at hget
        rw [hget]
  rw [h.holds.mem_pages, ← htable, ← h.page]
  constructor
  · intro hx
    obtain ⟨x, hx⟩ := hx
    cases x with
    | dir => exact .inl (Option.some.inj hx).symm
    | table i => exact .inr (.inl ⟨i, hx⟩)
    | page v => exact .inr (.inr ⟨v, hx⟩)
  · intro hp
    rcases hp with rfl | ⟨i, hi⟩ | ⟨v, hv⟩
    · exact ⟨.dir, rfl⟩
    · exact ⟨.table i, hi⟩
    · exact ⟨.page v, hv⟩

/-- Whatever pages have been set and cleared, and whatever page allocation has answered: setting a page succeeds unless
there is no page for a page table, clearing one succeeds, `pagedir_get_page` finds the last
page set, a step about one user page changes no other, the kernel half is still that of `init_page_dir`, and
`pagedir_destroy` frees the directory, its page tables and the pages mapped in it, each once and nothing else. -/
theorem pagedir_is_map {answer : Option Nat} (hram : ramPages ≤ 2 ^ 18) (hb : Booted ramPages initPageDir s0)
    (hc : pagedirCreate ramPages initPageDir answer s0 = .ok (some pd, st))
    (hr : Reach (step ramPages initPageDir pd) MapsOnce (Begins st) s) :
    (∀ upage < physBase, pgOfs upage = 0 →
      (∀ kpage writable answer, MapsOnce (.set upage kpage writable answer) s →
        (∀ p ∈ answer, IsPage ramPages p ∧ p ∉ s.state.used) →
        ∃ s', step ramPages initPageDir pd (.set upage kpage writable answer) s = .ok s' ∧
          (s'.log = .set upage kpage :: s.log ∨ answer = none ∧ s' = s)) ∧
      ∃ s', step ramPages initPageDir pd (.clear upage) s = .ok s' ∧ s'.log = .clear upage :: s.log) ∧
    (∀ uaddr < physBase, pagedirGetPage ramPages pd uaddr s.state =
      .ok ((lastSet s.log (uaddr / pgSize)).map (· + pgOfs uaddr))) ∧
    (∀ act s', MapsOnce act s → step ramPages initPageDir pd act s = .ok s' → ∀ uaddr < physBase,
      (∀ upage, act.upage = some upage → uaddr / pgSize ≠ upage / pgSize) →
      pagedirGetPage ramPages pd uaddr s'.state = pagedirGetPage ramPages pd uaddr s.state) ∧
    (∀ va, physBase ≤ va → va < 2 ^ 32 → kernelEntry s.state pd va = kernelEntry s0 initPageDir va) ∧
    ∃ (s' : State) (pages : List Nat), pagedirDestroy initPageDir pd s.state = .ok s' ∧
      s'.freed = pages.reverse ++ s.state.freed ∧ (∀ p, p ∈ s'.used ↔ p ∈ s.state.used ∧ p ∉ pages) ∧ pages.Nodup ∧
      ∀ p, p ∈ pages ↔ p = pd ∨
        (∃ i < 768, s.state.word (pd + 4 * i) ≠ 0 ∧ pdeGetPt (s.state.word (pd + 4 * i)) = p) ∨
        ∃ v, lastSet s.log v = some p := by
  obtain ⟨σ, h⟩ := sane_reach hram hb hc hr
  refine ⟨fun upage hu hofs => ⟨fun kpage writable answer ha hlegal => ?_, ?_⟩, fun uaddr hu => ?_,
    fun act s' ha hx uaddr hu hne => ?_, fun va => h.kernelEntry, ?_⟩
  · obtain ⟨-, hbad⟩ | ⟨hs, hnone⟩ | ⟨σ', st', hs, -⟩ := h.set writable answer hram hofs hu ha
    · obtain ⟨p, hp, hnot⟩ := hbad
      exact absurd (hlegal p hp) hnot
    · exact ⟨s, by simp only [step, hs]; rfl, .inr ⟨hnone, rfl⟩⟩
    · exact ⟨_, by simp only [step, hs]; rfl, .inl rfl⟩
  · obtain ⟨st', hs, -⟩ := h.holds.clear hram hu hofs
    exact ⟨_, by simp only [step, hs]; rfl, rfl⟩
  · rw [h.holds.get hram hu, h.page]
  · obtain ⟨σ', h'⟩ := sane_step hram h ha hx
    rw [h'.holds.get hram hu, h.holds.get hram hu, h'.page, h.page, lastSet_step hx hne]
  · have hinit : pd ≠ initPageDir := ((h.kernel _ (.inl rfl)).2.2.1).symm
    exact ⟨_, σ.pages pd, h.holds.destroy hram hinit, freed_dropAll .., fun p => used_dropAll, h.holds.nodup_pages,
      fun p => h.mem_pages hram⟩

end

/-- The page of memory with the number `n`. -/
def pageAt (n : Nat) : Nat := physBase + n * pgSize

/-- A machine with eight pages, the kernel's page directory on page 1 and its page table on page 2. -/
def smallBoot : Except Fault (Nat × State) :=
  pagingInit 8 (fun page => page != 0) (some (pageAt 1)) (fun _ => some (pageAt 2)) ⟨fun _ => 0xcc, {pageAt 0}, []⟩

def smallState : State := (smallBoot.toOption.getD (0, ⟨fun _ => 0, ∅, []⟩)).2

theorem toOption_eq {α β : Type} {x : Except Fault (α × β)} {a : α} (d : α × β) (h : x.toOption.map Prod.fst = some a) :
    x = .ok (a, (x.toOption.getD d).2) := by
  cases x with
  | error e => cases h
  | ok r =>
    cases h
    rfl

theorem smallBoot_booted : Booted 8 (pageAt 1) smallState :=
  ⟨_, _, _, _, smallState, toOption_eq _ (by decide +kernel), Finset.Subset.refl _, fun _ _ _ _ => rfl⟩

def smallCreate : Except Fault (Option Nat × State) := pagedirCreate 8 (pageAt 1) (some (pageAt 3)) smallState

/-- Its first page directory is on page 3. -/
def smallCreated : State := (smallCreate.toOption.getD (none, smallState)).2

/-- Page 4 is mapped at one address and then at another; for page 6 there is no page table. -/
theorem pagedir_is_map_twice :
    ∃ s, Reach (step 8 (pageAt 1) (pageAt 3)) MapsOnce (Begins smallCreated) s ∧
    s.log = [.set 0x8049000 (pageAt 4), .clear 0x8048000, .set 0x8048000 (pageAt 4)] ∧
    pagedirGetPage 8 (pageAt 3) 0x8049123 s.state = .ok (some (pageAt 4 + 0x123)) ∧
    pagedirGetPage 8 (pageAt 3) 0x8048123 s.state = .ok none := by
  have hc : smallCreate = .ok (some (pageAt 3), smallCreated) := toOption_eq (none, smallState) (by decide +kernel)
  have hstart : Begins smallCreated ⟨smallCreated, ∅, []⟩ := rfl
  obtain ⟨s, hr, hlog⟩ : ∃ s, Reach (step 8 (pageAt 1) (pageAt 3)) MapsOnce (Begins smallCreated) s ∧
      s.log = [.set 0x8049000 (pageAt 4), .clear 0x8048000, .set 0x8048000 (pageAt 4)] :=
    Reach.of_after hstart [.get true (some (pageAt 4)), .set 0x8048000 (pageAt 4) true (some (pageAt 5)),
      .write (pageAt 4) 7, .touch 0x8048000 true, .get false (some (pageAt 6)), .set 0x40000000 (pageAt 6) true none,
      .clear 0x8048000, .set 0x8049000 (pageAt 4) false none] (by decide +kernel)
  have hget := (pagedir_is_map (by decide) smallBoot_booted hc hr).2.1
  refine ⟨s, hr, hlog, ?_, ?_⟩
  · rw [hget 0x8049123 (by decide), hlog]
    rfl
  · rw [hget 0x8048123 (by decide), hlog]
    rfl

end Pintos.Pagedir
