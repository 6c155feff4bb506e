import Pintos.Userprog.Load
import Pintos.Userprog.PagedirRuns

/-! Whose the pages are while an executable is loaded.

`Ledger` is a conservation law: since a state `s0`, the pages obtained are those given back and those that are in use
besides the ones of `s0`. `Moved` says what a part of `load` that works on the page directory leaves: what is
in use is what was in use and what the directory shows now, and pages that were in use keep their contents
unless they belong to the directory. -/
namespace Pintos.Load

open UserMemory (pgSize physBase pgOfs isUserVaddr)
open Pagedir
open Steps

/-! ### The ledger -/

structure Ledger (s0 : State) (r : Loader) : Prop where
  sub : s0.used ⊆ r.state.used
  balance : ∃ gone : List Nat, r.state.freed = gone ++ s0.freed ∧
    (r.taken : Multiset Nat) = gone + (r.state.used \ s0.used).val

section
variable {ramPages initPageDir pd p kpage upage : Nat} {s0 st : State} {r r' : Loader} {writable : Bool} {answer : Option Nat}

/-- The ledger is not about the contents of memory, nor about the position in the file. -/
theorem Ledger.congr (h : Ledger s0 r) (hused : r'.state.used = r.state.used) (hfreed : r'.state.freed = r.state.freed)
    (htaken : r'.taken = r.taken) : Ledger s0 r' := by
  obtain ⟨gone, hgone, hbalance⟩ := h.balance
  exact ⟨hused ▸ h.sub, gone, hfreed ▸ hgone, by rw [htaken, hused]; exact hbalance⟩

/-- What a function that may take a page does with its answer. -/
def Takes (answer : Option Nat) (s s' : State) : Prop :=
  s'.used = s.used ∨ ∃ p, answer = some p ∧ p ∉ s.used ∧ s'.used = insert p s.used

theorem newPage_same {s s' : State} (h : s'.used = s.used) : newPage answer s s' = [] := by
  rw [newPage, List.filter_eq_nil_iff]
  grind

theorem newPage_insert {s s' : State} (hp : p ∉ s.used) (h : s'.used = insert p s.used) :
    newPage (some p) s s' = [p] := by
  have hin : p ∈ s'.used := h ▸ Finset.mem_insert_self ..
  simp [newPage, hp, hin]

theorem Ledger.next (h : Ledger s0 r) (ht : Takes (r.answers.headD none) r.state st) (hfreed : st.freed = r.state.freed) :
    Ledger s0 (r.next st) := by
  obtain ⟨gone, hgone, hbalance⟩ := h.balance
  obtain hsame | ⟨p, hanswer, hp, hinsert⟩ := ht
  · exact h.congr hsame hfreed (by rw [Loader.next, newPage_same hsame]; rfl)
  · have hp0 : p ∉ s0.used := fun e => hp (h.sub e)
    have htaken : (r.next st).taken = p :: r.taken := by
      rw [Loader.next, hanswer, newPage_insert hp hinsert]
      rfl
    refine ⟨?_, gone, hfreed.trans hgone, ?_⟩
    · exact (h.sub.trans (Finset.subset_insert ..)).trans_eq hinsert.symm
    · have hval : ((r.next st).state.used \ s0.used).val = p ::ₘ (r.state.used \ s0.used).val := by
        show (st.used \ s0.used).val = _
        rw [hinsert, Finset.insert_sdiff_of_notMem _ hp0, Finset.insert_val_of_notMem]
        exact fun e => hp (Finset.mem_sdiff.mp e).1
      rw [htaken, hval, ← Multiset.cons_coe, hbalance, Multiset.add_cons]

/-- A page that was obtained since `s0` is given back. -/
theorem Ledger.drop (h : Ledger s0 r) (hp : p ∈ r.state.used) (hp0 : p ∉ s0.used) :
    Ledger s0 { r with state := r.state.drop p } := by
  obtain ⟨gone, hgone, hbalance⟩ := h.balance
  refine ⟨fun q hq => Finset.mem_erase.mpr ⟨fun e => hp0 (e ▸ hq), h.sub hq⟩, p :: gone, ?_, ?_⟩
  · show p :: r.state.freed = _
    rw [hgone]
    rfl
  · have hin : p ∈ r.state.used \ s0.used := Finset.mem_sdiff.mpr ⟨hp, hp0⟩
    show (r.taken : Multiset Nat) = _ + ((r.state.used.erase p) \ s0.used).val
    rw [hbalance, Finset.erase_sdiff_comm, Finset.erase_val, ← Multiset.cons_coe, Multiset.cons_add,
      ← Multiset.add_cons, Multiset.cons_erase hin]

/-! ### What takes a page -/

theorem takes_pallocGetPage {zero : Bool} {page : Option Nat} {s s' : State}
    (h : pallocGetPage ramPages zero answer s = .ok (page, s')) : Takes answer s s' ∧ s'.freed = s.freed := by
  obtain ⟨hget, -⟩ | ⟨hget, -⟩ | ⟨p, hget, rfl, -, hfree⟩ := pallocGetPage_cases ramPages zero answer s
  all_goals
    rw [hget] at h
    cases h
  · exact ⟨.inl rfl, rfl⟩
  · exact ⟨.inr ⟨p, rfl, hfree, rfl⟩, rfl⟩

theorem entryOf_state {pde vaddr : Nat} {s s' : State} {pte : Option Nat} (h : entryOf s pde vaddr = .ok (pte, s')) :
    s' = s := by
  obtain ⟨_, -, h⟩ := bind_ok.mp h
  cases h
  rfl

theorem takes_lookupPage {vaddr : Nat} {create : Bool} {pte : Option Nat} {s s' : State}
    (h : lookupPage ramPages pd vaddr create answer s = .ok (pte, s')) : Takes answer s s' ∧ s'.freed = s.freed := by
  obtain ⟨_, -, h⟩ := bind_ok.mp h
  obtain ⟨_, -, h⟩ := bind_ok.mp h
  dsimp only at h
  split at h
  · split at h
    · obtain ⟨⟨page, s1⟩, hget, hrest⟩ := bind_ok.mp h
      obtain ⟨ht, hfreed⟩ := takes_pallocGetPage hget
      cases page with
      | none =>
        cases hrest
        exact ⟨ht, hfreed⟩
      | some pt =>
        rw [entryOf_state hrest]
        exact ⟨ht, hfreed⟩
    · cases h
      exact ⟨.inl rfl, rfl⟩
  · rw [entryOf_state h]
    exact ⟨.inl rfl, rfl⟩

theorem takes_pagedirSetPage {ok : Bool} {s s' : State}
    (h : pagedirSetPage ramPages initPageDir pd upage kpage writable answer s = .ok (ok, s')) :
    Takes answer s s' ∧ s'.freed = s.freed := by
  obtain ⟨_, -, h⟩ := bind_ok.mp h
  obtain ⟨_, -, h⟩ := bind_ok.mp h
  obtain ⟨_, -, h⟩ := bind_ok.mp h
  obtain ⟨_, -, h⟩ := bind_ok.mp h
  obtain ⟨_, -, h⟩ := bind_ok.mp h
  obtain ⟨⟨pte, s1⟩, hlook, hrest⟩ := bind_ok.mp h
  have ht := takes_lookupPage hlook
  cases pte with
  | none =>
    cases hrest
    exact ht
  | some pte =>
    obtain ⟨_, -, hrest⟩ := bind_ok.mp hrest
    cases hrest
    exact ht

end

/-! ### The page directory -/

/-- What a part of `load` leaves that works on the directory `pd`. -/
structure Moved (ramPages pd : Nat) (σ σ' : Space) (r r' : Loader) : Prop where
  used : r'.state.used = r.state.used ∪ (σ'.pages pd).toFinset
  tables : ∀ i pt, σ.table i = some pt → σ'.table i = some pt
  pages : ∀ v k, σ.page v = some k → σ'.page v = some k
  new : ∀ x p, σ'.at pd x = some p → σ.at pd x = some p ∨ p ∉ r.state.used
  mem : ∀ p, IsPage ramPages p → p ∈ r.state.used → p ≠ pd → (∀ i, σ.table i ≠ some p) → ∀ a, InPage p a →
    r'.state.mem a = r.state.mem a
  booked : ∀ s0, Ledger s0 r → Ledger s0 r'

/-- `r1` is `r` with one more page, which is not in the directory. -/
structure Extra (ramPages pd : Nat) (σ : Space) (kpage : Nat) (r r1 : Loader) : Prop where
  page : IsPage ramPages kpage ∧ kpage ∉ r.state.used
  used : r1.state.used = insert kpage r.state.used
  holds : Holds ramPages pd σ r1.state
  mem : ∀ a, ¬ InPage kpage a → r1.state.mem a = r.state.mem a
  booked : ∀ s0, Ledger s0 r → Ledger s0 r1

section
variable {ramPages initPageDir pd p kpage upage : Nat} {σ σ' σ'' : Space} {s0 st : State} {r r' r'' r1 : Loader}
  {writable zero : Bool}

theorem Moved.same (hh : Holds ramPages pd σ r.state) (hused : r'.state.used = r.state.used)
    (hmem : ∀ p, IsPage ramPages p → p ∈ r.state.used → ∀ a, InPage p a → r'.state.mem a = r.state.mem a)
    (hb : ∀ s0, Ledger s0 r → Ledger s0 r') : Moved ramPages pd σ σ r r' where
  used := by
    refine (hused.trans (Finset.union_eq_left.mpr fun p hp => ?_).symm)
    obtain ⟨x, hx⟩ := hh.mem_pages.mp (List.mem_toFinset.mp hp)
    exact (hh.inUse x p hx).2
  tables := fun _ _ => id
  pages := fun _ _ => id
  new := fun _ _ => .inl
  mem := fun p hp hu _ _ => hmem p hp hu
  booked := hb

theorem Moved.refl (hh : Holds ramPages pd σ r.state) : Moved ramPages pd σ σ r r :=
  .same hh rfl (fun _ _ _ _ _ => rfl) fun _ => id

theorem Moved.at_mono (h : Moved ramPages pd σ σ' r r') {x : Place} (hx : σ.at pd x = some p) : σ'.at pd x = some p := by
  cases x with
  | dir => exact hx
  | table i => exact h.tables i p hx
  | page v => exact h.pages v p hx

theorem Moved.trans (h : Moved ramPages pd σ σ' r r') (h' : Moved ramPages pd σ' σ'' r' r'')
    (hh' : Holds ramPages pd σ' r'.state) (hh'' : Holds ramPages pd σ'' r''.state) : Moved ramPages pd σ σ'' r r'' where
  used := by
    have hsub : (σ'.pages pd).toFinset ⊆ (σ''.pages pd).toFinset := by
      intro p hp
      obtain ⟨x, hx⟩ := hh'.mem_pages.mp (List.mem_toFinset.mp hp)
      exact List.mem_toFinset.mpr (hh''.mem_pages.mpr ⟨x, h'.at_mono hx⟩)
    rw [h'.used, h.used, Finset.union_assoc, Finset.union_eq_right.mpr hsub]
  tables := fun i pt ht => h'.tables i pt (h.tables i pt ht)
  pages := fun v k hk => h'.pages v k (h.pages v k hk)
  new := by
    intro x p hx
    rcases h'.new x p hx with hx' | hnot
    · exact h.new x p hx'
    · refine .inr fun hin => hnot ?_
      rw [h.used]
      exact Finset.mem_union_left _ hin
  mem := by
    intro p hp hin hpd htab a ha
    have hin' : p ∈ r'.state.used := by
      rw [h.used]
      exact Finset.mem_union_left _ hin
    have htab' : ∀ i, σ'.table i ≠ some p := fun i hi => (h.new (.table i) p hi).elim (htab i) fun hnot => hnot hin
    exact (h'.mem p hp hin' hpd htab' a ha).trans (h.mem p hp hin hpd htab a ha)
  booked := fun s0 hs0 => h'.booked s0 (h.booked s0 hs0)

/-- A request for a page: none, an answer that is none, or one more page. -/
theorem getPage_cases (zero : Bool) (hh : Holds ramPages pd σ r.state) :
    (getPage ramPages zero r = .ok (none, r.next r.state) ∧ r.answers.headD none = none ∧
      Moved ramPages pd σ σ r (r.next r.state)) ∨
    (getPage ramPages zero r = .error .unable ∧ Illegal ramPages (r.answers.headD none) r.state) ∨
    ∃ kpage, getPage ramPages zero r = .ok (some kpage, r.next (r.state.take zero kpage)) ∧
      r.answers.headD none = some kpage ∧
      Extra ramPages pd σ kpage r (r.next (r.state.take zero kpage)) := by
  obtain ⟨hget, hnone⟩ | ⟨hget, hbad⟩ | ⟨p, hget, hanswer, hp, hfree⟩ :=
    pallocGetPage_cases ramPages zero (r.answers.headD none) r.state
  · refine .inl ⟨?_, hnone, .same hh rfl (fun _ _ _ _ _ => rfl) fun s0 hs0 => hs0.next (.inl rfl) rfl⟩
    rw [getPage, hget]
    rfl
  · refine .inr (.inl ⟨?_, hbad⟩)
    rw [getPage, hget]
    rfl
  · refine .inr (.inr ⟨p, ?_, hanswer, ⟨hp, hfree⟩, rfl, ?_, fun a ha => mem_take ha, fun s0 hs0 => ?_⟩)
    · rw [getPage, hget]
      rfl
    · refine hh.congr (fun a ha => mem_take ?_) (fun i pt ht a ha => mem_take ?_) (Finset.subset_insert ..)
      · exact ha.apart hh.pd_page.1.1 hp.1 fun e => hfree (e ▸ hh.pd_page.2)
      · exact ha.apart (hh.table_page ht).1.1 hp.1 fun e => hfree (e ▸ (hh.table_page ht).2)
    · exact hs0.next (.inr ⟨p, hanswer, hfree, rfl⟩) rfl

namespace Extra

/-- Whatever is stored in the page. -/
theorem store (r' : Loader) (h : Extra ramPages pd σ kpage r r1) (hh : Holds ramPages pd σ r.state)
    (hused : r'.state.used = r1.state.used) (hfreed : r'.state.freed = r1.state.freed) (htaken : r'.taken = r1.taken)
    (hmem : ∀ a, ¬ InPage kpage a → r'.state.mem a = r1.state.mem a) : Extra ramPages pd σ kpage r r' where
  page := h.page
  used := hused.trans h.used
  holds := by
    obtain ⟨hp, hfree⟩ := h.page
    refine h.holds.congr (fun a ha => hmem a ?_) (fun i pt ht a ha => hmem a ?_) hused.symm.subset
    · exact ha.apart hh.pd_page.1.1 hp.1 fun e => hfree (e ▸ hh.pd_page.2)
    · exact ha.apart (hh.table_page ht).1.1 hp.1 fun e => hfree (e ▸ (hh.table_page ht).2)
  mem := fun a ha => (hmem a ha).trans (h.mem a ha)
  booked := fun s0 hs0 => (h.booked s0 hs0).congr hused hfreed htaken

/-- The page is given back. -/
theorem free (h : Extra ramPages pd σ kpage r r1) (hh : Holds ramPages pd σ r.state) :
    freePage (some kpage) r1 = .ok { r1 with state := r1.state.drop kpage } ∧
      Moved ramPages pd σ σ r { r1 with state := r1.state.drop kpage } ∧
      Holds ramPages pd σ (r1.state.drop kpage) := by
  obtain ⟨hp, hfree⟩ := h.page
  have hin : kpage ∈ r1.state.used := h.used ▸ Finset.mem_insert_self ..
  have hused : (r1.state.drop kpage).used = r.state.used := by
    show r1.state.used.erase kpage = _
    rw [h.used, Finset.erase_insert hfree]
  have hmem : ∀ a, ¬ InPage kpage a → (r1.state.drop kpage).mem a = r.state.mem a :=
    fun a ha => (mem_drop ha).trans (h.mem a ha)
  have hout : ∀ p, IsPage ramPages p → p ∈ r.state.used → ∀ a, InPage p a → ¬ InPage kpage a :=
    fun p hpp hpu a ha => ha.apart hpp.1 hp.1 fun e => hfree (e ▸ hpu)
  refine ⟨?_, .same hh hused (fun p hpp hpu a ha => hmem a (hout p hpp hpu a ha)) fun s0 hs0 => ?_, ?_⟩
  · rw [freePage, pallocFreePage_ok hp hin]
    rfl
  · exact (h.booked s0 hs0).drop hin fun e => hfree (hs0.sub e)
  · refine hh.congr (fun a ha => hmem a ?_) (fun i pt ht a ha => hmem a ?_) hused.symm.subset
    · exact hout pd hh.pd_page.1 hh.pd_page.2 a ha
    · exact hout pt (hh.table_page ht).1 (hh.table_page ht).2 a ha

/-- The page is put in the directory, with its contents. -/
theorem install (h : Extra ramPages pd σ kpage r r1) (hh : Holds ramPages pd σ r.state) (hram : ramPages ≤ 2 ^ 18)
    (hinit : pd ≠ initPageDir) (writable : Bool) (hu : upage < physBase) (hofs : pgOfs upage = 0) :
    (installPage ramPages initPageDir pd upage kpage writable r1 = .error .unable ∧
      Illegal ramPages (r1.answers.headD none) r1.state) ∨
    (∃ r2, installPage ramPages initPageDir pd upage kpage writable r1 = .ok (false, r2) ∧
      (σ.page (upage / pgSize) = none → r1.answers.headD none = none) ∧ Extra ramPages pd σ kpage r r2) ∨
    ∃ σ' r2, installPage ramPages initPageDir pd upage kpage writable r1 = .ok (true, r2) ∧
      Moved ramPages pd σ σ' r r2 ∧ Holds ramPages pd σ' r2.state ∧ r2.pos = r1.pos ∧
      σ.page (upage / pgSize) = none ∧ σ'.page = Function.update σ.page (upage / pgSize) (some kpage) ∧
      ∀ a, InPage kpage a → r2.state.mem a = r1.state.mem a := by
  obtain ⟨hp, hfree⟩ := h.page
  have hget := h.holds.get hram hu
  unfold installPage
  cases hpage : σ.page (upage / pgSize) with
  | some k =>
    rw [hpage] at hget
    refine .inr (.inl ⟨r1, ?_, fun h => (by cases h), h⟩)
    rw [hget]
    rfl
  | none =>
    rw [hpage] at hget
    rw [hget, ok_bind]
    dsimp only [Option.map_none]
    have hin : kpage ∈ r1.state.used := h.used ▸ Finset.mem_insert_self ..
    have hplace : ∀ x, σ.at pd x ≠ some kpage := fun x hx => hfree (hh.inUse x kpage hx).2
    obtain ⟨hs, hbad⟩ | ⟨hs, hnone⟩ | ⟨σ', s2, hs, hh', hpage', hw⟩ :=
      h.holds.set writable (r1.answers.headD none) hram hu hofs hinit hp hin hplace hpage
    · refine .inl ⟨?_, hbad⟩
      rw [hs]
      rfl
    · refine .inr (.inl ⟨r1.next r1.state, ?_, fun _ => hnone, h.page, h.used, h.holds, h.mem, fun s0 hs0 => ?_⟩)
      · rw [hs]
        rfl
      · exact (h.booked s0 hs0).next (.inl rfl) rfl
    · refine .inr (.inr ⟨σ', r1.next s2, by rw [hs]; rfl, ?_, hh', rfl, rfl, hpage', fun a ha => ?_⟩)
      · obtain ⟨htakes, hfreed⟩ := takes_pagedirSetPage hs
        have hnew : ∀ i pt, σ'.table i = some pt → σ.table i = some pt ∨ pt ∉ r.state.used := by
          intro i pt ht
          refine (hw.new i pt ht).imp id fun hnot hpt => hnot ?_
          rw [h.used]
          exact Finset.mem_insert_of_mem hpt
        refine ⟨?_, hw.kept, fun v k hk => ?_, fun x p hx => ?_, fun p hpp hpu hpd htab a ha => ?_, fun s0 hs0 => ?_⟩
        · ext q
          show q ∈ s2.used ↔ _
          rw [Finset.mem_union, List.mem_toFinset, hh'.mem_pages]
          constructor
          · intro hq
            by_cases hq1 : q ∈ r1.state.used
            · rw [h.used, Finset.mem_insert] at hq1
              refine hq1.symm.imp id fun e => ⟨.page (upage / pgSize), ?_⟩
              show σ'.page _ = _
              rw [hpage', e, Function.update_self]
            · obtain ⟨i, hi⟩ := hw.fresh q hq hq1
              exact .inr ⟨.table i, hi⟩
          · intro hq
            rcases hq with hq | ⟨x, hx⟩
            · refine hw.used ?_
              rw [h.used]
              exact Finset.mem_insert_of_mem hq
            · exact (hh'.inUse x q hx).2
        · rw [hpage', Function.update_apply, if_neg]
          · exact hk
          · grind
        · cases x with
          | dir => exact .inl hx
          | table i => exact hnew i p hx
          | page v =>
            rw [Space.at, hpage', Function.update_apply] at hx
            split at hx
            · cases hx
              exact .inr hfree
            · exact .inl hx
        · refine (hw.mem a (ha.apart hpp.1 hh.pd_page.1.1 hpd) fun i pt ht => ?_).trans ?_
          · refine ha.apart hpp.1 (hh'.table_page ht).1.1 fun e => ?_
            exact (hnew i pt ht).elim (fun hold => htab i (e ▸ hold)) fun hnot => hnot (e ▸ hpu)
          · exact h.mem a (ha.apart hpp.1 hp.1 fun e => hfree (e ▸ hpu))
        · exact (h.booked s0 hs0).next htakes hfreed
      · refine hw.mem a (ha.apart hp.1 hh.pd_page.1.1 fun e => hplace .dir (e ▸ rfl)) fun i pt ht => ?_
        refine ha.apart hp.1 (hh'.table_page ht).1.1 fun e => ?_
        exact (hw.new i pt ht).elim (fun hold => hplace (.table i) (e ▸ hold)) fun hnot => hnot (e ▸ hin)

end Extra

end

end Pintos.Load
