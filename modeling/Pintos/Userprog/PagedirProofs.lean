import Pintos.Userprog.Pagedir

/-! What a page directory stands for.

`Space` is the abstract state: the page table of each directory index and the kernel page of each user
page. `Holds` says that memory shows it, and that the directory, its tables and the mapped pages are all
different pages in use. Each function of `pagedir.c` has one lemma against `Holds`. -/
namespace Pintos.Pagedir

open UserMemory (pgSize physBase pgOfs ptNo pdNo isUserVaddr ptov)
open Steps

/-! ### Words -/

section
variable {s s' : State} {a b v w x f i j p q ramPages : Nat}

theorem or_flags (hx : x % pgSize = 0) (hf : f < pgSize) : x ||| f = x + f := by
  obtain ⟨y, rfl⟩ := Nat.dvd_of_mod_eq_zero hx
  exact (Nat.two_pow_add_eq_or_of_lt (i := 12) hf y).symm

theorem and_pteP (w : Nat) : w &&& pteP = w % 2 := Nat.and_one_is_mod w

/-- The address bits of a word. -/
theorem and_pteAddr (hw : w < 2 ^ 32) : w &&& pteAddr = w / pgSize * pgSize := by
  have hmask : pteAddr = (2 ^ 20 - 1) <<< 12 := rfl
  rw [hmask]
  apply Nat.eq_of_testBit_eq
  intro i
  rw [Nat.testBit_and, Nat.testBit_shiftLeft, Nat.testBit_two_pow_sub_one, Nat.mul_comm, show pgSize = 2 ^ 12 from rfl,
    Nat.testBit_two_pow_mul, Nat.testBit_div_two_pow]
  by_cases h12 : 12 ≤ i
  · by_cases h32 : i < 32
    · simp [h12, show i - 12 < 20 by omega, Nat.sub_add_cancel h12]
    · have hhigh : w.testBit i = false :=
        Nat.testBit_lt_two_pow (lt_of_lt_of_le hw (Nat.pow_le_pow_right (by decide) (by omega)))
      simp [h12, hhigh, Nat.sub_add_cancel h12]
  · simp [h12]

/-- The entry of a page, taken apart again. -/
theorem flags_entry (hram : ramPages ≤ 2 ^ 18) (hp : IsPage ramPages p) (hf : f < pgSize) (hodd : f % 2 = 1) :
    vtop p ||| f < 2 ^ 32 ∧ (vtop p ||| f) &&& pteP ≠ 0 ∧ (vtop p ||| f) &&& pteAddr = vtop p := by
  obtain ⟨hal, hlo, hhi⟩ := hp
  have hx : vtop p % pgSize = 0 := by
    unfold vtop physBase pgSize at *
    omega
  rw [or_flags hx hf]
  have hlt : vtop p + f < 2 ^ 32 := by
    unfold vtop physBase pgSize at *
    omega
  refine ⟨hlt, ?_, ?_⟩
  · rw [and_pteP]
    unfold vtop physBase pgSize at *
    omega
  · rw [and_pteAddr hlt]
    unfold pgSize at *
    omega

theorem pdeCreate_eq (p : Nat) : pdeCreate p = vtop p ||| 7 := by
  unfold pdeCreate
  rw [Nat.lor_assoc, Nat.lor_assoc]
  rfl

theorem pteCreateUser_eq (p : Nat) (writable : Bool) :
    pteCreateUser p writable = vtop p ||| if writable then 7 else 5 := by
  unfold pteCreateUser pteCreateKernel
  rw [Nat.lor_assoc, Nat.lor_assoc]
  cases writable <;> rfl

theorem ptov_vtop (hp : IsPage ramPages p) : ptov (vtop p) = p := Nat.sub_add_cancel hp.2.1

theorem word_store (hv : v < 2 ^ 32) : (s.store a v).word a = v := Bytes.wordAt_setWordAt hv

theorem word_store_apart (h : a + 4 ≤ b ∨ b + 4 ≤ a) : (s.store a v).word b = s.word b := Bytes.wordAt_setWordAt_apart h

/-- The words of two pages. -/
theorem words_apart (hp : p % pgSize = 0) (hq : q % pgSize = 0) (hi : i < 1024) (hj : j < 1024) (hne : p ≠ q ∨ i ≠ j) :
    p + 4 * i + 4 ≤ q + 4 * j ∨ q + 4 * j + 4 ≤ p + 4 * i := by
  unfold pgSize at *
  omega

/-- An address in a page. -/
def InPage (p a : Nat) : Prop := p ≤ a ∧ a < p + pgSize

theorem InPage.apart (h : InPage p a) (hp : p % pgSize = 0) (hq : q % pgSize = 0) (hne : p ≠ q) : ¬ InPage q a := by
  unfold InPage pgSize at *
  omega

theorem mem_take {zero : Bool} (h : ¬ InPage p a) : (s.take zero p).mem a = s.mem a := by
  cases zero with
  | false => rfl
  | true => exact Bytes.patch_outside s.mem (fun _ => 0) h

theorem mem_drop (h : ¬ InPage p a) : (s.drop p).mem a = s.mem a :=
  Bytes.patch_outside s.mem (fun _ => 0xcc) h

theorem word_take_zero (hj : j < 1024) : (s.take true p).word (p + 4 * j) = 0 := by
  have hzero : ∀ o, p + 4 * j ≤ o → o < p + 4 * j + 4 → (s.take true p).mem o = 0 :=
    fun o ho ho' => Bytes.patch_inside s.mem (fun _ => 0) (by omega) (by unfold pgSize; omega)
  have hcongr := Bytes.wordAt_congr (m := fun _ => 0) hzero
  exact hcongr

theorem word_congr (hi : i < 1024) (h : ∀ a, InPage p a → s'.mem a = s.mem a) :
    s'.word (p + 4 * i) = s.word (p + 4 * i) := by
  apply Bytes.wordAt_congr
  intro o ho ho'
  exact h o ⟨by omega, by unfold pgSize; omega⟩

theorem pallocGetPage_ok {zero : Bool} {answer page : Option Nat} (h : pallocGetPage ramPages zero answer s = .ok (page, s')) :
    (page = none ∧ s' = s) ∨ ∃ p, page = some p ∧ IsPage ramPages p ∧ p ∉ s.used ∧ s' = s.take zero p := by
  cases answer with
  | none =>
    cases h
    exact .inl ⟨rfl, rfl⟩
  | some p =>
    unfold pallocGetPage at h
    grind

theorem check_pos {cond : Prop} [Decidable cond] (h : cond) : check (decide cond) = .ok () :=
  if_pos (decide_eq_true h)

/-- An answer that page allocation cannot give. -/
def Illegal (ramPages : Nat) (answer : Option Nat) (s : State) : Prop :=
  ∃ p, answer = some p ∧ ¬ (IsPage ramPages p ∧ p ∉ s.used)

/-- A request for a page: none is answered, or a page that is not in use, or the answer is no answer. -/
theorem pallocGetPage_cases (ramPages : Nat) (zero : Bool) (answer : Option Nat) (s : State) :
    (pallocGetPage ramPages zero answer s = .ok (none, s) ∧ answer = none) ∨
    (pallocGetPage ramPages zero answer s = .error .unable ∧ Illegal ramPages answer s) ∨
    ∃ p, pallocGetPage ramPages zero answer s = .ok (some p, s.take zero p) ∧ answer = some p ∧ IsPage ramPages p ∧
      p ∉ s.used := by
  cases answer with
  | none => exact .inl ⟨rfl, rfl⟩
  | some p =>
    by_cases h : IsPage ramPages p ∧ p ∉ s.used
    · exact .inr (.inr ⟨p, if_pos h, rfl, h⟩)
    · exact .inr (.inl ⟨if_neg h, p, rfl, h⟩)

end

/-! ### The abstract state -/

/-- The table of each directory index and the kernel page of each user page. -/
structure Space where
  table : Nat → Option Nat
  page : Nat → Option Nat

/-- What a page is used for. -/
inductive Place where
  | dir
  | table (i : Nat)
  | page (v : Nat)
deriving DecidableEq

def Space.at (σ : Space) (pd : Nat) : Place → Option Nat
  | .dir => some pd
  | .table i => σ.table i
  | .page v => σ.page v

def Space.setTable (σ : Space) (i pt : Nat) : Space := { σ with table := Function.update σ.table i (some pt) }

def Space.setPage (σ : Space) (v : Nat) (k : Option Nat) : Space := { σ with page := Function.update σ.page v k }

theorem Space.table_setTable (σ : Space) (i pt i' : Nat) :
    (σ.setTable i pt).table i' = if i' = i then some pt else σ.table i' :=
  Function.update_apply ..

theorem Space.page_setPage (σ : Space) (v : Nat) (k : Option Nat) (v' : Nat) :
    (σ.setPage v k).page v' = if v' = v then k else σ.page v' :=
  Function.update_apply ..

theorem Space.at_setTable (σ : Space) (pd i pt : Nat) (x : Place) :
    (σ.setTable i pt).at pd x = if x = .table i then some pt else σ.at pd x := by
  cases x with
  | table i' => simp only [Space.at, Space.table_setTable, Place.table.injEq]
  | _ => rfl

theorem Space.at_setPage (σ : Space) (pd v : Nat) (k : Option Nat) (x : Place) :
    (σ.setPage v k).at pd x = if x = .page v then k else σ.at pd x := by
  cases x with
  | page v' => simp only [Space.at, Space.page_setPage, Place.page.injEq]
  | _ => rfl

/-- The entry of a user page shows its kernel page, or that it has none. -/
def Shows (k : Option Nat) (w : Nat) : Prop :=
  match k with
  | none => w &&& pteP = 0
  | some k => w &&& pteP ≠ 0 ∧ w &&& pteAddr = vtop k

/-- Flags beside the present bit and the address. -/
theorem Shows.or {k : Option Nat} {w f : Nat} (h : Shows k w) (hP : f &&& pteP = 0) (haddr : f &&& pteAddr = 0) :
    Shows k (w ||| f) := by
  unfold Shows at h ⊢
  grind

structure Holds (ramPages pd : Nat) (σ : Space) (s : State) : Prop where
  dir : ∀ i < 768, s.word (pd + 4 * i) = (σ.table i).elim 0 pdeCreate
  entry : ∀ i pt, σ.table i = some pt → ∀ j < 1024, Shows (σ.page (1024 * i + j)) (s.word (pt + 4 * j))
  bare : ∀ i, σ.table i = none → ∀ j < 1024, σ.page (1024 * i + j) = none
  below : ∀ i pt, σ.table i = some pt → i < 768
  inUse : ∀ x p, σ.at pd x = some p → IsPage ramPages p ∧ p ∈ s.used
  apart : ∀ x y p, σ.at pd x = some p → σ.at pd y = some p → x = y

section
variable {ramPages pd va pt p i j : Nat} {σ : Space} {s s' : State} {create : Bool} {answer : Option Nat}

theorem user_index (h : va < physBase) : pdNo va < 768 ∧ ptNo va < 1024 ∧ 1024 * pdNo va + ptNo va = va / pgSize := by
  unfold physBase at h
  unfold pdNo ptNo pgSize
  omega

theorem IsPage.ne_zero (h : IsPage ramPages p) : p ≠ 0 := by
  have := h.2.1
  unfold physBase at this
  omega

theorem IsPage.end_le (h : IsPage ramPages p) (hram : ramPages ≤ 2 ^ 18) : p + pgSize ≤ 2 ^ 32 := by
  obtain ⟨hal, -, hhi⟩ := h
  unfold physBase pgSize at *
  omega

theorem IsPage.le_top (h : IsPage ramPages p) : p + pgSize ≤ physBase + ramPages * pgSize := by
  obtain ⟨hal, -, hhi⟩ := h
  unfold physBase pgSize at *
  omega

theorem readable_pdeCreate (hram : ramPages ≤ 2 ^ 18) (hp : IsPage ramPages pt) :
    readable (pdeCreate pt) = true ∧ pdeGetPt (pdeCreate pt) = pt ∧ pdeCreate pt < 2 ^ 32 ∧ pdeCreate pt ≠ 0 := by
  obtain ⟨hlt, hP, haddr⟩ := flags_entry hram hp (f := 7) (by decide) (by decide)
  rw [pdeCreate_eq]
  refine ⟨?_, ?_, hlt, ?_⟩
  · rw [readable, haddr, Bool.and_eq_true, bne_iff_ne, decide_eq_true_eq]
    refine ⟨hP, ?_⟩
    have := hp.2.2
    unfold vtop physBase pgSize at *
    omega
  · rw [pdeGetPt, haddr, ptov_vtop hp]
  · intro h0
    rw [h0] at hP
    exact hP rfl

namespace Holds

theorem table_page (h : Holds ramPages pd σ s) (hi : σ.table i = some pt) : IsPage ramPages pt ∧ pt ∈ s.used :=
  h.inUse (.table i) pt hi

theorem pd_page (h : Holds ramPages pd σ s) : IsPage ramPages pd ∧ pd ∈ s.used := h.inUse .dir pd rfl

/-- Memory may change outside the directory and its tables. -/
theorem congr (h : Holds ramPages pd σ s) (hmem : ∀ a, InPage pd a → s'.mem a = s.mem a)
    (htab : ∀ i pt, σ.table i = some pt → ∀ a, InPage pt a → s'.mem a = s.mem a) (hused : s.used ⊆ s'.used) :
    Holds ramPages pd σ s' where
  dir := fun i hi => (word_congr (by omega) hmem).trans (h.dir i hi)
  entry := by
    intro i pt ht j hj
    rw [word_congr hj (htab i pt ht)]
    exact h.entry i pt ht j hj
  bare := h.bare
  below := h.below
  inUse := fun x p hx => ⟨(h.inUse x p hx).1, hused (h.inUse x p hx).2⟩
  apart := h.apart

/-- The lookup of an address whose table is there. -/
theorem lookup_some (h : Holds ramPages pd σ s) (hram : ramPages ≤ 2 ^ 18) (hva : va < physBase)
    (ht : σ.table (pdNo va) = some pt) :
    lookupPage ramPages pd va create answer s = .ok (some (pt + 4 * ptNo va), s) := by
  obtain ⟨hread, hget, -, hne⟩ := readable_pdeCreate hram (h.table_page ht).1
  have hword := h.dir _ (user_index hva).1
  rw [ht, Option.elim_some] at hword
  simp [lookupPage, entryOf, check, h.pd_page.1.ne_zero, isUserVaddr, hva, hword, hne, hread, hget, bind, Except.bind,
    pure, Except.pure]

theorem lookup_none (h : Holds ramPages pd σ s) (hva : va < physBase) (ht : σ.table (pdNo va) = none) :
    lookupPage ramPages pd va false answer s = .ok (none, s) := by
  have hword := h.dir _ (user_index hva).1
  rw [ht, Option.elim_none] at hword
  simp [lookupPage, check, h.pd_page.1.ne_zero, hword, bind, Except.bind, pure, Except.pure]

/-- `pagedir_get_page` is the map of user pages. -/
theorem get (h : Holds ramPages pd σ s) (hram : ramPages ≤ 2 ^ 18) (hva : va < physBase) :
    pagedirGetPage ramPages pd va s = .ok ((σ.page (va / pgSize)).map (· + pgOfs va)) := by
  obtain ⟨hi, hj, hidx⟩ := user_index hva
  unfold pagedirGetPage
  cases ht : σ.table (pdNo va) with
  | none =>
    have hnone := h.bare _ ht _ hj
    rw [hidx] at hnone
    simp [check, isUserVaddr, hva, h.lookup_none hva ht, hnone, bind, Except.bind, pure, Except.pure]
  | some pt =>
    have hentry := h.entry _ pt ht _ hj
    rw [hidx] at hentry
    rw [h.lookup_some hram hva ht]
    cases hk : σ.page (va / pgSize) with
    | none =>
      rw [hk] at hentry
      have hzero : s.word (pt + 4 * ptNo va) &&& pteP = 0 := hentry
      simp [check, isUserVaddr, hva, hzero, bind, Except.bind, pure, Except.pure]
    | some k =>
      rw [hk] at hentry
      obtain ⟨hP, haddr⟩ := hentry
      have hkp := (h.inUse (.page _) k hk).1
      have hlt : vtop k < physBase := by
        have := hkp.2.2
        unfold vtop physBase pgSize at *
        omega
      simp [check, isUserVaddr, hva, hP, haddr, hlt, pteGetPage, ptov_vtop hkp, bind, Except.bind, pure, Except.pure]

/-- A new, empty page table in place of a directory entry that is zero. -/
theorem newTable (h : Holds ramPages pd σ s) (hram : ramPages ≤ 2 ^ 18) (hi : i < 768) (ht : σ.table i = none)
    (hpt : IsPage ramPages pt) (hfree : pt ∉ s.used) :
    Holds ramPages pd (σ.setTable i pt)
      ((s.take true pt).store (pd + 4 * i) (pdeCreate pt)) := by
  obtain ⟨-, -, hlt, -⟩ := readable_pdeCreate hram hpt
  have hother : ∀ x p, σ.at pd x = some p → p ≠ pt := fun x p hx he => hfree (he ▸ (h.inUse x p hx).2)
  have hpd := h.pd_page.1.1
  -- the words of every other page are those of before the allocation
  have hword : ∀ x p j, σ.at pd x = some p → j < 1024 →
      (s.take true pt).word (p + 4 * j) = s.word (p + 4 * j) :=
    fun x p j hx hj => word_congr hj fun a ha =>
      mem_take (ha.apart (h.inUse x p hx).1.1 hpt.1 (hother x p hx))
  constructor
  · intro i' hi'
    rw [Space.table_setTable]
    by_cases he : i' = i
    · rw [he, if_pos rfl, word_store hlt, Option.elim_some]
    · rw [if_neg he, word_store_apart (words_apart hpd hpd (by omega) (by omega) (.inr (Ne.symm he))),
        hword .dir pd i' rfl (by omega), h.dir i' hi']
  · intro i' pt' ht' j hj
    rw [Space.table_setTable] at ht'
    by_cases he : i' = i
    · rw [if_pos he, Option.some.injEq] at ht'
      rw [← ht', word_store_apart (words_apart hpd hpt.1 (by omega) hj (.inl (hother .dir pd rfl))), word_take_zero hj]
      show Shows (σ.page _) 0
      rw [he, h.bare i ht j hj]
      rfl
    · rw [if_neg he] at ht'
      have hne : pd ≠ pt' := fun e => by cases h.apart .dir (.table i') pd rfl (e ▸ ht')
      rw [word_store_apart (words_apart hpd (h.table_page ht').1.1 (by omega) hj (.inl hne)), hword (.table i') pt' j ht' hj]
      exact h.entry i' pt' ht' j hj
  · intro i' ht'
    rw [Space.table_setTable] at ht'
    split at ht'
    · cases ht'
    · exact h.bare i' ht'
  · intro i' pt' ht'
    rw [Space.table_setTable] at ht'
    split at ht'
    · omega
    · exact h.below i' pt' ht'
  · intro x p hx
    rw [Space.at_setTable] at hx
    split at hx
    · cases hx
      exact ⟨hpt, Finset.mem_insert_self ..⟩
    · exact ⟨(h.inUse x p hx).1, Finset.mem_insert_of_mem (h.inUse x p hx).2⟩
  · intro x y p hx hy
    rw [Space.at_setTable] at hx hy
    split at hx <;> split at hy
    · rename_i hx' hy'
      rw [hx', hy']
    · grind
    · grind
    · exact h.apart x y p hx hy

/-- A new word for one entry of a page table. -/
theorem setEntry {w v : Nat} {k : Option Nat} (h : Holds ramPages pd σ s) (ht : σ.table i = some pt) (hj : j < 1024)
    (hv : v = 1024 * i + j) (hw : w < 2 ^ 32) (hshow : Shows k w)
    (hk : ∀ p, k = some p → IsPage ramPages p ∧ p ∈ s.used ∧ ∀ x, σ.at pd x = some p → x = .page v) :
    Holds ramPages pd (σ.setPage v k) (s.store (pt + 4 * j) w) := by
  obtain ⟨hpt, -⟩ := h.table_page ht
  constructor
  · intro i' hi'
    have hne : pt ≠ pd := fun e => by cases h.apart .dir (.table i) pd rfl (e ▸ ht)
    rw [word_store_apart (words_apart hpt.1 h.pd_page.1.1 hj (by omega) (.inl hne))]
    exact h.dir i' hi'
  · intro i' pt' ht' j' hj'
    rw [Space.page_setPage]
    by_cases he : 1024 * i' + j' = v
    · obtain rfl : i' = i := by omega
      obtain rfl : j' = j := by omega
      cases ht.symm.trans ht'
      rw [if_pos he, word_store hw]
      exact hshow
    · have hne : pt ≠ pt' ∨ j ≠ j' := by
        by_contra hsame
        rw [not_or, not_not, not_not] at hsame
        have hi : Place.table i = .table i' := h.apart (.table i) (.table i') pt ht (hsame.1 ▸ ht')
        cases hi
        omega
      rw [if_neg he, word_store_apart (words_apart hpt.1 (h.table_page ht').1.1 hj hj' hne)]
      exact h.entry i' pt' ht' j' hj'
  · intro i' ht' j' hj'
    have ht' : σ.table i' = none := ht'
    have hne : ¬ 1024 * i' + j' = v := by
      grind
    rw [Space.page_setPage, if_neg hne]
    exact h.bare i' ht' j' hj'
  · exact h.below
  · intro x p hx
    rw [Space.at_setPage] at hx
    split at hx
    · exact ⟨(hk p hx).1, (hk p hx).2.1⟩
    · exact h.inUse x p hx
  · intro x y p hx hy
    rw [Space.at_setPage] at hx hy
    split at hx <;> split at hy
    · rename_i hx' hy'
      rw [hx', hy']
    · grind
    · grind
    · exact h.apart x y p hx hy

theorem setPage_self {v : Nat} (hv : σ.page v = none) : σ.setPage v none = σ := by
  unfold Space.setPage
  rw [Function.update_eq_self_iff.mpr hv.symm]

end Holds

/-- What a function that works on the directory `pd` leaves as it is. -/
structure Within (pd : Nat) (σ σ' : Space) (s s' : State) : Prop where
  mem : ∀ a, ¬ InPage pd a → (∀ i pt, σ'.table i = some pt → ¬ InPage pt a) → s'.mem a = s.mem a
  kernel : ∀ i, 768 ≤ i → i < 1024 → s'.word (pd + 4 * i) = s.word (pd + 4 * i)
  used : s.used ⊆ s'.used
  fresh : ∀ p ∈ s'.used, p ∉ s.used → ∃ i, σ'.table i = some p
  freed : s'.freed = s.freed
  kept : ∀ i pt, σ.table i = some pt → σ'.table i = some pt
  new : ∀ i pt, σ'.table i = some pt → σ.table i = some pt ∨ pt ∉ s.used

theorem Within.refl (pd : Nat) (σ : Space) (s : State) : Within pd σ σ s s where
  mem := fun _ _ _ => rfl
  kernel := fun _ _ _ => rfl
  used := Finset.Subset.refl _
  fresh := fun _ hp hn => absurd hp hn
  freed := rfl
  kept := fun _ _ => id
  new := fun _ _ => .inl

theorem mem_store {a v o : Nat} (h : o < a ∨ a + 4 ≤ o) : (s.store a v).mem o = s.mem o := Bytes.setWordAt_outside h

/-- A store to a word of another page. -/
theorem mem_store_page {a q v : Nat} (ha : InPage p a) (hp : p % pgSize = 0) (hq : q % pgSize = 0) (hne : p ≠ q)
    (hj : j < 1024) : (s.store (q + 4 * j) v).mem a = s.mem a := by
  have hout := ha.apart hp hq hne
  unfold InPage pgSize at hout
  exact mem_store (by omega)

/-- A store to an entry of one of the tables. -/
theorem Holds.within_store {σ' : Space} (h : Holds ramPages pd σ s) (ht : σ.table i = some pt) (hj : j < 1024) (w : Nat)
    (hσ : σ'.table = σ.table) : Within pd σ σ' s (s.store (pt + 4 * j) w) := by
  obtain ⟨hpt, -⟩ := h.table_page ht
  refine ⟨fun a _ ha => mem_store ?_, fun i' _ hi' => word_store_apart ?_, Finset.Subset.refl _,
    fun _ hp hn => absurd hp hn, rfl, fun i pt => hσ ▸ id, fun i pt => hσ ▸ .inl⟩
  · have := ha i pt (hσ ▸ ht)
    unfold InPage pgSize at this
    omega
  · have hne : pt ≠ pd := fun e => by cases h.apart .dir (.table i) pd rfl (e ▸ ht)
    exact words_apart hpt.1 h.pd_page.1.1 hj hi' (.inl hne)

theorem Within.trans {σ1 σ2 σ3 : Space} {s1 s2 s3 : State} (h : Within pd σ1 σ2 s1 s2) (h' : Within pd σ2 σ3 s2 s3) :
    Within pd σ1 σ3 s1 s3 where
  mem := fun a hpd ha => (h'.mem a hpd ha).trans (h.mem a hpd fun i pt ht => ha i pt (h'.kept i pt ht))
  kernel := fun i h1 h2 => (h'.kernel i h1 h2).trans (h.kernel i h1 h2)
  used := h.used.trans h'.used
  fresh := by
    intro p hp hn
    by_cases hp2 : p ∈ s2.used
    · obtain ⟨i, hi⟩ := h.fresh p hp2 hn
      exact ⟨i, h'.kept i p hi⟩
    · exact h'.fresh p hp hp2
  freed := h'.freed.trans h.freed
  kept := fun i pt ht => h'.kept i pt (h.kept i pt ht)
  new := by
    intro i pt ht
    rcases h'.new i pt ht with ht | hn
    · exact h.new i pt ht
    · exact .inr fun hin => hn (h.used hin)

namespace Holds

/-- `pagedir_clear_page` takes a page out of the map. -/
theorem clear {upage : Nat} (h : Holds ramPages pd σ s) (hram : ramPages ≤ 2 ^ 18) (hu : upage < physBase)
    (hofs : pgOfs upage = 0) :
    ∃ s', pagedirClearPage ramPages pd upage s = .ok s' ∧ Holds ramPages pd (σ.setPage (upage / pgSize) none) s' ∧
      Within pd σ (σ.setPage (upage / pgSize) none) s s' := by
  obtain ⟨hi, hj, hidx⟩ := user_index hu
  unfold pagedirClearPage
  cases ht : σ.table (pdNo upage) with
  | none =>
    have hnone := h.bare _ ht _ hj
    rw [hidx] at hnone
    refine ⟨s, ?_, by rwa [setPage_self hnone], by rw [setPage_self hnone]; exact .refl ..⟩
    simp [check, isUserVaddr, hu, hofs, h.lookup_none hu ht, bind, Except.bind, pure, Except.pure]
  | some pt =>
    rw [h.lookup_some hram hu ht]
    by_cases hP : s.word (pt + 4 * ptNo upage) &&& pteP = 0
    · have hnone : σ.page (upage / pgSize) = none := by
        have hentry := h.entry _ pt ht _ hj
        rw [hidx] at hentry
        cases hk : σ.page (upage / pgSize) with
        | none => rfl
        | some k =>
          rw [hk] at hentry
          exact absurd hP hentry.1
      refine ⟨s, ?_, by rwa [setPage_self hnone], by rw [setPage_self hnone]; exact .refl ..⟩
      simp [check, isUserVaddr, hu, hofs, hP, bind, Except.bind, pure, Except.pure]
    · refine ⟨s.store (pt + 4 * ptNo upage) (s.word (pt + 4 * ptNo upage) &&& 0xfffffffe), ?_, ?_,
        h.within_store ht hj _ rfl⟩
      · simp [check, isUserVaddr, hu, hofs, hP, bind, Except.bind, pure, Except.pure]
      · refine h.setEntry ht hj hidx.symm ?_ ?_ fun p hp => by cases hp
        · exact lt_of_le_of_lt Nat.and_le_left (Bytes.wordAt_lt _ _)
        · show _ &&& pteP = 0
          rw [Nat.and_assoc]
          exact Nat.and_zero _

/-- The marks of the processor change nothing of the map. -/
theorem touch {uaddr : Nat} (dirty : Bool) (h : Holds ramPages pd σ s) (hram : ramPages ≤ 2 ^ 18) (hu : uaddr < physBase) :
    ∃ s', Pagedir.touch ramPages pd uaddr dirty s = .ok s' ∧ Holds ramPages pd σ s' ∧ Within pd σ σ s s' := by
  obtain ⟨hi, hj, hidx⟩ := user_index hu
  unfold Pagedir.touch
  cases ht : σ.table (pdNo uaddr) with
  | none =>
    refine ⟨s, ?_, h, .refl ..⟩
    simp [check, isUserVaddr, hu, h.lookup_none hu ht, bind, Except.bind, pure, Except.pure]
  | some pt =>
    rw [h.lookup_some hram hu ht]
    by_cases hP : s.word (pt + 4 * ptNo uaddr) &&& pteP = 0
    · refine ⟨s, ?_, h, .refl ..⟩
      simp [check, isUserVaddr, hu, hP, bind, Except.bind, pure, Except.pure]
    · refine ⟨s.store (pt + 4 * ptNo uaddr) (s.word (pt + 4 * ptNo uaddr) ||| pteA ||| if dirty then pteD else 0), ?_, ?_,
        h.within_store ht hj _ rfl⟩
      · simp [check, isUserVaddr, hu, hP, bind, Except.bind, pure, Except.pure]
      · have hentry := h.entry _ pt ht _ hj
        have hself : σ.setPage (uaddr / pgSize) (σ.page (uaddr / pgSize)) = σ := by
          unfold Space.setPage
          rw [Function.update_eq_self]
        rw [hidx] at hentry
        rw [← hself]
        refine h.setEntry ht hj hidx.symm ?_ ?_ fun p hp => ?_
        · have hw := Bytes.wordAt_lt s.mem (pt + 4 * ptNo uaddr)
          exact Nat.or_lt_two_pow (Nat.or_lt_two_pow hw (by decide)) (by cases dirty <;> decide)
        · exact (hentry.or (by decide) (by decide)).or (by cases dirty <;> decide) (by cases dirty <;> decide)
        · obtain ⟨hpage, hused⟩ := h.inUse (.page _) p hp
          exact ⟨hpage, hused, fun x hx => h.apart x (.page _) p hx hp⟩

/-- What `lookup_page` can do that may make a page table. -/
theorem lookup_create (answer : Option Nat) (h : Holds ramPages pd σ s) (hram : ramPages ≤ 2 ^ 18) (hva : va < physBase) :
    (lookupPage ramPages pd va true answer s = .error .unable ∧ Illegal ramPages answer s) ∨
    (lookupPage ramPages pd va true answer s = .ok (none, s) ∧ answer = none) ∨
    ∃ σ' s' pt, lookupPage ramPages pd va true answer s = .ok (some (pt + 4 * ptNo va), s') ∧
      Holds ramPages pd σ' s' ∧ σ'.table (pdNo va) = some pt ∧ σ'.page = σ.page ∧ Within pd σ σ' s s' := by
  obtain ⟨hi, -, -⟩ := user_index hva
  cases ht : σ.table (pdNo va) with
  | some pt =>
    exact .inr (.inr ⟨σ, s, pt, h.lookup_some hram hva ht, h, ht, rfl, .refl ..⟩)
  | none =>
    have hword := h.dir _ hi
    rw [ht, Option.elim_none] at hword
    have heq : lookupPage ramPages pd va true answer s = createTable ramPages (pd + 4 * pdNo va) va answer s := by
      simp [lookupPage, check, h.pd_page.1.ne_zero, isUserVaddr, hva, hword, bind, Except.bind]
    rw [heq]
    cases answer with
    | none => exact .inr (.inl ⟨rfl, rfl⟩)
    | some pt =>
      by_cases hok : IsPage ramPages pt ∧ pt ∉ s.used
      · obtain ⟨hpt, hfree⟩ := hok
        obtain ⟨hread, hget, hlt, -⟩ := readable_pdeCreate hram hpt
        refine .inr (.inr ⟨σ.setTable (pdNo va) pt, (s.take true pt).store (pd + 4 * pdNo va) (pdeCreate pt), pt, ?_,
          h.newTable hram hi ht hpt hfree, by rw [Space.table_setTable, if_pos rfl], rfl, ?_⟩)
        · simp [createTable, pallocGetPage, hpt, hfree, entryOf, word_store hlt, hread, hget, check, bind, Except.bind, pure,
            Except.pure]
        · refine ⟨fun a hpd htab => ?_, fun i' hi' hlt' => ?_, Finset.subset_insert .., fun p hp hn => ?_, rfl,
            fun i pt' ht' => ?_, fun i pt' ht' => ?_⟩
          · rw [mem_store (by unfold InPage pgSize at hpd; omega)]
            exact mem_take (htab (pdNo va) pt (by rw [Space.table_setTable, if_pos rfl]))
          · rw [word_store_apart (words_apart h.pd_page.1.1 h.pd_page.1.1 (by omega) hlt' (.inr (by omega)))]
            refine word_congr hlt' fun a ha => mem_take (ha.apart h.pd_page.1.1 hpt.1 ?_)
            exact fun e => hfree (e ▸ h.pd_page.2)
          · have hp : p = pt ∨ p ∈ s.used := Finset.mem_insert.mp hp
            exact ⟨pdNo va, by rw [Space.table_setTable, if_pos rfl, hp.resolve_right hn]⟩
          · rw [Space.table_setTable, if_neg (fun e => by rw [e, ht] at ht'; cases ht')]
            exact ht'
          · rw [Space.table_setTable] at ht'
            split at ht'
            · cases ht'
              exact .inr hfree
            · exact .inl ht'
      · refine .inl ⟨?_, pt, rfl, hok⟩
        simp only [createTable, pallocGetPage, if_neg hok]
        rfl

/-- What `pagedir_set_page` can do with a user page that is not mapped and a kernel page that is in no place of the
directory: it maps the one to the other, unless it has no page for a page table. -/
theorem set {initPageDir upage kpage : Nat} (writable : Bool) (answer : Option Nat) (h : Holds ramPages pd σ s)
    (hram : ramPages ≤ 2 ^ 18) (hu : upage < physBase) (hofs : pgOfs upage = 0) (hinit : pd ≠ initPageDir) (hk : IsPage ramPages kpage)
    (hused : kpage ∈ s.used) (hplace : ∀ x, σ.at pd x ≠ some kpage) (hfree : σ.page (upage / pgSize) = none) :
    (pagedirSetPage ramPages initPageDir pd upage kpage writable answer s = .error .unable ∧ Illegal ramPages answer s) ∨
    (pagedirSetPage ramPages initPageDir pd upage kpage writable answer s = .ok (false, s) ∧ answer = none) ∨
    ∃ σ' s', pagedirSetPage ramPages initPageDir pd upage kpage writable answer s = .ok (true, s') ∧
      Holds ramPages pd σ' s' ∧ σ'.page = Function.update σ.page (upage / pgSize) (some kpage) ∧ Within pd σ σ' s s' := by
  obtain ⟨hi, hj, hidx⟩ := user_index hu
  have hkram : ¬ kpage < physBase ∧ vtop kpage / pgSize < ramPages := by
    obtain ⟨hal, hlo, hhi⟩ := hk
    unfold vtop physBase pgSize at *
    omega
  have heq : pagedirSetPage ramPages initPageDir pd upage kpage writable answer s =
      lookupPage ramPages pd upage true answer s >>= Pagedir.setEntry kpage writable := by
    simp [pagedirSetPage, check, hofs, show pgOfs kpage = 0 from hk.1, isUserVaddr, hu, hkram, hinit, bind, Except.bind]
  rw [heq]
  obtain ⟨hl, hbad⟩ | ⟨hl, hnone⟩ | ⟨σ1, s1, pt, hl, h1, ht, hpage, hwithin⟩ :=
    lookup_create answer h hram hu
  · exact .inl ⟨by rw [hl]; rfl, hbad⟩
  · exact .inr (.inl ⟨by rw [hl]; rfl, hnone⟩)
  · obtain ⟨hwlt, hwP, hwaddr⟩ := flags_entry hram hk (f := if writable then 7 else 5) (by cases writable <;> decide)
      (by cases writable <;> decide)
    rw [← pteCreateUser_eq] at hwlt hwP hwaddr
    have hentry := h1.entry _ pt ht _ hj
    rw [hidx, hpage, hfree] at hentry
    have hentry : s1.word (pt + 4 * ptNo upage) &&& pteP = 0 := hentry
    have hset := h1.setEntry ht hj hidx.symm hwlt (k := some kpage) ⟨hwP, hwaddr⟩ fun p hp => by
      cases hp
      refine ⟨hk, hwithin.used hused, fun x hx => ?_⟩
      cases x with
      | dir => exact absurd hx (hplace .dir)
      | table i => exact absurd hused ((hwithin.new i kpage hx).resolve_left (hplace (.table i)))
      | page v =>
        have hx : σ1.page v = some kpage := hx
        rw [hpage] at hx
        exact absurd hx (hplace (.page v))
    refine .inr (.inr ⟨_, _, ?_, hset, by rw [Space.setPage, hpage], hwithin.trans (h1.within_store ht hj _ rfl)⟩)
    rw [hl]
    simp [Pagedir.setEntry, check, hentry, bind, Except.bind, pure, Except.pure]

end Holds

/-! ### Freeing a directory -/

def State.dropAll (s : State) (ps : List Nat) : State := ps.foldl State.drop s

theorem dropAll_append (s : State) (ps qs : List Nat) : s.dropAll (ps ++ qs) = (s.dropAll ps).dropAll qs :=
  List.foldl_append ..

theorem mem_dropAll {a : Nat} {ps : List Nat} (h : ∀ p ∈ ps, ¬ InPage p a) : (s.dropAll ps).mem a = s.mem a := by
  induction ps generalizing s with
  | nil => rfl
  | cons p ps ih =>
    have hrest : ((s.drop p).dropAll ps).mem a = (s.drop p).mem a := ih fun q hq => h q (List.mem_cons_of_mem _ hq)
    exact hrest.trans (mem_drop (h p List.mem_cons_self))

theorem used_dropAll {ps : List Nat} : p ∈ (s.dropAll ps).used ↔ p ∈ s.used ∧ p ∉ ps := by
  induction ps generalizing s with
  | nil => simp [State.dropAll]
  | cons q ps ih =>
    have hrest : p ∈ ((s.drop q).dropAll ps).used ↔ p ∈ (s.drop q).used ∧ p ∉ ps := ih
    have hdrop : p ∈ (s.drop q).used ↔ p ≠ q ∧ p ∈ s.used := Finset.mem_erase
    rw [State.dropAll, List.foldl_cons, ← State.dropAll, hrest, hdrop, List.mem_cons]
    tauto

theorem freed_dropAll (s : State) (ps : List Nat) : (s.dropAll ps).freed = ps.reverse ++ s.freed := by
  induction ps generalizing s with
  | nil => rfl
  | cons q ps ih =>
    have hrest : ((s.drop q).dropAll ps).freed = ps.reverse ++ (s.drop q).freed := ih (s.drop q)
    rw [State.dropAll, List.foldl_cons, ← State.dropAll, hrest, List.reverse_cons, List.append_assoc]
    rfl

/-- A page that none of the dropped ones is. -/
theorem word_dropAll {ps : List Nat} (hp : p % pgSize = 0) (hj : j < 1024) (hps : ∀ q ∈ ps, q % pgSize = 0 ∧ p ≠ q) :
    (s.dropAll ps).word (p + 4 * j) = s.word (p + 4 * j) :=
  word_congr hj fun _ ha => mem_dropAll fun q hq => ha.apart hp (hps q hq).1 (hps q hq).2

theorem pallocFreePage_ok (hp : IsPage ramPages p) (hused : p ∈ s.used) : pallocFreePage p s = .ok (s.drop p) := by
  simp [pallocFreePage, check, show pgOfs p = 0 from hp.1, hused, bind, Except.bind, pure, Except.pure]

theorem freeEntry_none (h : Shows none (s.word (pt + 4 * j))) : freeEntry pt s j = .ok s :=
  if_neg (not_not.mpr h)

theorem freeEntry_some {k : Nat} (hram : ramPages ≤ 2 ^ 18) (h : Shows (some k) (s.word (pt + 4 * j)))
    (hk : IsPage ramPages k) (hused : k ∈ s.used) : freeEntry pt s j = .ok (s.drop k) := by
  obtain ⟨hP, haddr⟩ := h
  have hlt : vtop k < physBase := by
    have := hk.2.2
    unfold vtop physBase pgSize at *
    omega
  have hget : pteGetPage (s.word (pt + 4 * j)) = k := by rw [pteGetPage, haddr, ptov_vtop hk]
  unfold freeEntry
  simp only [hget, haddr, ne_eq, hP, not_false_eq_true, if_true, check, hlt, decide_true, bind, Except.bind]
  exact pallocFreePage_ok hk hused

/-- The inner loop frees the pages that the entries show. -/
theorem freeEntries_eq {js : List Nat} {page : Nat → Option Nat} (hram : ramPages ≤ 2 ^ 18) (hpt : pt % pgSize = 0)
    (hjs : ∀ j ∈ js, j < 1024) (hshow : ∀ j ∈ js, Shows (page j) (s.word (pt + 4 * j))) (hnodup : (js.filterMap page).Nodup)
    (huse : ∀ p ∈ js.filterMap page, IsPage ramPages p ∧ p ∈ s.used ∧ p ≠ pt) :
    js.foldlM (freeEntry pt) s = .ok (s.dropAll (js.filterMap page)) := by
  induction js generalizing s with
  | nil => rfl
  | cons j js ih =>
    have hj := hshow j List.mem_cons_self
    have hjs' : ∀ i ∈ js, i < 1024 := fun i hi => hjs i (List.mem_cons_of_mem _ hi)
    have hshow' : ∀ i ∈ js, Shows (page i) (s.word (pt + 4 * i)) := fun i hi => hshow i (List.mem_cons_of_mem _ hi)
    rw [List.foldlM_cons]
    cases hk : page j with
    | none =>
      rw [hk] at hj
      rw [List.filterMap_cons_none hk] at hnodup huse ⊢
      rw [freeEntry_none hj]
      exact ih hjs' hshow' hnodup huse
    | some k =>
      rw [hk] at hj
      rw [List.filterMap_cons_some hk] at hnodup huse ⊢
      obtain ⟨hkp, hkused, hkpt⟩ := huse k List.mem_cons_self
      obtain ⟨hnew, hnodup⟩ := List.nodup_cons.mp hnodup
      rw [freeEntry_some hram hj hkp hkused]
      refine ih hjs' (fun i hi => ?_) hnodup fun p hp => ?_
      · rw [word_congr (hjs' i hi) fun a ha => mem_drop (ha.apart hpt hkp.1 (Ne.symm hkpt))]
        exact hshow' i hi
      · obtain ⟨h1, h2, h3⟩ := huse p (List.mem_cons_of_mem _ hp)
        exact ⟨h1, Finset.mem_erase.mpr ⟨fun e => hnew (e ▸ hp), h2⟩, h3⟩

/-- The pages that `pagedir_destroy` frees for the directory entry `i`: the mapped ones, then the table. -/
def Space.owned (σ : Space) (i : Nat) : List Nat :=
  (σ.table i).elim [] fun pt => (List.range 1024).filterMap (fun j => σ.page (1024 * i + j)) ++ [pt]

theorem freeTable_none (h : s.word (pd + 4 * i) = 0) : freeTable pd s i = .ok s := by
  unfold freeTable
  rw [h]
  rfl

/-- A table goes after the pages that it shows. -/
theorem freeEntries_table {js : List Nat} {page : Nat → Option Nat} (hram : ramPages ≤ 2 ^ 18) (hjs : ∀ j ∈ js, j < 1024)
    (hshow : ∀ j ∈ js, Shows (page j) (s.word (pt + 4 * j))) (hnodup : (js.filterMap page ++ [pt]).Nodup)
    (huse : ∀ p ∈ js.filterMap page ++ [pt], IsPage ramPages p ∧ p ∈ s.used) :
    (js.foldlM (freeEntry pt) s >>= pallocFreePage pt) = .ok (s.dropAll (js.filterMap page ++ [pt])) := by
  obtain ⟨hnodup, -, hnew⟩ := List.nodup_append.mp hnodup
  obtain ⟨hpt, hptused⟩ := huse pt (by simp)
  have hloop := freeEntries_eq hram hpt.1 hjs hshow hnodup fun p hp =>
    ⟨(huse p (List.mem_append_left _ hp)).1, (huse p (List.mem_append_left _ hp)).2, hnew p hp pt (by simp)⟩
  have hstill : pt ∈ (s.dropAll (js.filterMap page)).used :=
    used_dropAll.mpr ⟨hptused, fun hp => hnew pt hp pt (by simp) rfl⟩
  rw [hloop, dropAll_append]
  exact pallocFreePage_ok hpt hstill

theorem freeTable_present (hP : s.word (pd + 4 * i) &&& pteP ≠ 0) (hread : readable (s.word (pd + 4 * i)) = true) :
    freeTable pd s i = (List.range 1024).foldlM (freeEntry (pdeGetPt (s.word (pd + 4 * i)))) s >>=
      pallocFreePage (pdeGetPt (s.word (pd + 4 * i))) := by
  unfold freeTable
  simp only [ne_eq, hP, not_false_eq_true, if_true, check, hread, ok_bind]

theorem freeTable_some (hram : ramPages ≤ 2 ^ 18) (ht : σ.table i = some pt)
    (hword : s.word (pd + 4 * i) = pdeCreate pt) (hshow : ∀ j < 1024, Shows (σ.page (1024 * i + j)) (s.word (pt + 4 * j)))
    (hnodup : (σ.owned i).Nodup) (huse : ∀ p ∈ σ.owned i, IsPage ramPages p ∧ p ∈ s.used) :
    freeTable pd s i = .ok (s.dropAll (σ.owned i)) := by
  have howned : σ.owned i = (List.range 1024).filterMap (fun j => σ.page (1024 * i + j)) ++ [pt] := by
    rw [Space.owned, ht, Option.elim_some]
  have hpt : IsPage ramPages pt := (huse pt (by rw [howned]; simp)).1
  obtain ⟨hread, hget, -, -⟩ := readable_pdeCreate hram hpt
  have hP : pdeCreate pt &&& pteP ≠ 0 := by
    rw [readable, Bool.and_eq_true, bne_iff_ne] at hread
    exact hread.1
  rw [← hword] at hP hread hget
  rw [freeTable_present hP hread, hget]
  rw [howned] at hnodup huse ⊢
  exact freeEntries_table hram (fun j hj => List.mem_range.mp hj) (fun j hj => hshow j (List.mem_range.mp hj)) hnodup huse

theorem owned_table (ht : σ.table i = some pt) : pt ∈ σ.owned i := by
  rw [Space.owned, ht]
  exact List.mem_append_right _ List.mem_cons_self

/-- The outer loop frees what the entries own. -/
theorem freeTables_eq {is : List Nat} (hram : ramPages ≤ 2 ^ 18) (hpd : pd % pgSize = 0) (his : ∀ i ∈ is, i < 768)
    (hdir : ∀ i ∈ is, s.word (pd + 4 * i) = (σ.table i).elim 0 pdeCreate)
    (hshow : ∀ i ∈ is, ∀ pt, σ.table i = some pt → ∀ j < 1024, Shows (σ.page (1024 * i + j)) (s.word (pt + 4 * j)))
    (hnodup : (is.flatMap σ.owned).Nodup)
    (huse : ∀ p ∈ is.flatMap σ.owned, IsPage ramPages p ∧ p ∈ s.used ∧ p ≠ pd) :
    is.foldlM (freeTable pd) s = .ok (s.dropAll (is.flatMap σ.owned)) := by
  induction is generalizing s with
  | nil => rfl
  | cons i is ih =>
    rw [List.flatMap_cons] at hnodup huse ⊢
    obtain ⟨hhere, hnodup, hapart⟩ := List.nodup_append.mp hnodup
    have huse0 := fun p hp => huse p (List.mem_append_left _ hp)
    have huse1 := fun p hp => huse p (List.mem_append_right (σ.owned i) hp)
    have his1 : ∀ i' ∈ is, i' < 768 := fun i' h => his i' (List.mem_cons_of_mem _ h)
    have hfirst : freeTable pd s i = .ok (s.dropAll (σ.owned i)) := by
      have hword := hdir i List.mem_cons_self
      cases ht : σ.table i with
      | none =>
        rw [ht, Option.elim_none] at hword
        rw [freeTable_none hword, Space.owned, ht]
        rfl
      | some pt =>
        rw [ht, Option.elim_some] at hword
        exact freeTable_some hram ht hword (hshow i List.mem_cons_self pt ht) hhere
          fun p hp => ⟨(huse0 p hp).1, (huse0 p hp).2.1⟩
    rw [List.foldlM_cons, hfirst, dropAll_append]
    refine ih his1 (fun i' hi' => ?_) (fun i' hi' pt ht j hj => ?_) hnodup fun p hp => ?_
    · rw [word_dropAll hpd (by have := his1 i' hi'; omega) fun q hq => ⟨(huse0 q hq).1.1, (huse0 q hq).2.2.symm⟩]
      exact hdir i' (List.mem_cons_of_mem _ hi')
    · have hpt : pt ∈ is.flatMap σ.owned := List.mem_flatMap.mpr ⟨i', hi', owned_table ht⟩
      rw [word_dropAll (huse1 pt hpt).1.1 hj fun q hq => ⟨(huse0 q hq).1.1, fun e => hapart q hq pt hpt e.symm⟩]
      exact hshow i' (List.mem_cons_of_mem _ hi') pt ht j hj
    · obtain ⟨h1, h2, h3⟩ := huse1 p hp
      exact ⟨h1, used_dropAll.mpr ⟨h2, fun hin => hapart p hin p hp rfl⟩, h3⟩

/-- The pages `pagedir_destroy` frees, in its order. -/
def Space.pages (σ : Space) (pd : Nat) : List Nat := (List.range 768).flatMap σ.owned ++ [pd]

theorem mem_owned : p ∈ σ.owned i ↔ ∃ pt, σ.table i = some pt ∧ (p = pt ∨ ∃ j < 1024, σ.page (1024 * i + j) = some p) := by
  unfold Space.owned
  cases ht : σ.table i with
  | none => simp
  | some pt =>
    simp only [Option.elim_some, List.mem_append, List.mem_filterMap, List.mem_range, List.mem_singleton, Option.some.injEq,
      exists_eq_left']
    exact or_comm

/-- The directory entry that a place belongs to. -/
def Place.entry : Place → Option Nat
  | .dir => none
  | .table i => some i
  | .page v => some (v / 1024)

theorem place_of_owned (pd : Nat) (hp : p ∈ σ.owned i) : ∃ x, σ.at pd x = some p ∧ x.entry = some i := by
  obtain ⟨pt, ht, rfl | ⟨j, hj, hpage⟩⟩ := mem_owned.mp hp
  · exact ⟨.table i, ht, rfl⟩
  · exact ⟨.page (1024 * i + j), hpage, by rw [Place.entry, Option.some.injEq]; omega⟩

namespace Holds

theorem nodup_owned (h : Holds ramPages pd σ s) (i : Nat) : (σ.owned i).Nodup := by
  unfold Space.owned
  cases ht : σ.table i with
  | none => exact List.nodup_nil
  | some pt =>
    refine List.nodup_append.mpr ⟨List.nodup_range.filterMap fun j j' p hp hp' => ?_, List.nodup_singleton pt, ?_⟩
    · have hsame := h.apart (.page (1024 * i + j)) (.page (1024 * i + j')) p hp hp'
      rw [Place.page.injEq] at hsame
      omega
    · intro p hp q hq he
      obtain ⟨j, -, hpage⟩ := List.mem_filterMap.mp hp
      rw [List.mem_singleton.mp hq] at he
      cases h.apart (.page (1024 * i + j)) (.table i) p hpage (he ▸ ht)

theorem nodup_pages (h : Holds ramPages pd σ s) : (σ.pages pd).Nodup := by
  refine List.nodup_append.mpr ⟨List.nodup_flatMap.mpr ⟨fun i _ => h.nodup_owned i, ?_⟩, List.nodup_singleton pd, ?_⟩
  · refine List.nodup_range.imp fun {i i'} hne p hp hp' => hne ?_
    obtain ⟨x, hx, hxi⟩ := place_of_owned pd hp
    obtain ⟨y, hy, hyi⟩ := place_of_owned pd hp'
    rw [h.apart x y p hx hy, hyi] at hxi
    exact (Option.some.inj hxi).symm
  · intro p hp q hq he
    obtain ⟨i, -, hp⟩ := List.mem_flatMap.mp hp
    obtain ⟨x, hx, hxi⟩ := place_of_owned pd hp
    rw [List.mem_singleton.mp hq] at he
    have hdir := h.apart x .dir p hx (he ▸ rfl)
    rw [hdir] at hxi
    cases hxi

/-- The pages of a directory are those in its places. -/
theorem mem_pages (h : Holds ramPages pd σ s) : p ∈ σ.pages pd ↔ ∃ x, σ.at pd x = some p := by
  rw [Space.pages, List.mem_append, List.mem_flatMap, List.mem_singleton]
  constructor
  · intro hp
    rcases hp with ⟨i, -, hp⟩ | rfl
    · obtain ⟨x, hx, -⟩ := place_of_owned pd hp
      exact ⟨x, hx⟩
    · exact ⟨.dir, rfl⟩
  · intro hx
    obtain ⟨x, hx⟩ := hx
    cases x with
    | dir => exact .inr (Option.some.inj hx).symm
    | table i => exact .inl ⟨i, List.mem_range.mpr (h.below i p hx), owned_table hx⟩
    | page v =>
      have hv : 1024 * (v / 1024) + v % 1024 = v := Nat.div_add_mod v 1024
      have hj : v % 1024 < 1024 := Nat.mod_lt _ (by decide)
      have hx : σ.page v = some p := hx
      cases ht : σ.table (v / 1024) with
      | none =>
        have hnone := h.bare _ ht _ hj
        rw [hv, hx] at hnone
        cases hnone
      | some pt =>
        refine .inl ⟨v / 1024, List.mem_range.mpr (h.below _ pt ht), mem_owned.mpr ⟨pt, ht, .inr ⟨v % 1024, hj, ?_⟩⟩⟩
        rw [hv, hx]

/-- `pagedir_destroy` frees the pages in the places of the directory. -/
theorem destroy {initPageDir : Nat} (h : Holds ramPages pd σ s) (hram : ramPages ≤ 2 ^ 18) (hinit : pd ≠ initPageDir) :
    pagedirDestroy initPageDir pd s = .ok (s.dropAll (σ.pages pd)) := by
  have hnodup := h.nodup_pages
  have huse : ∀ p ∈ σ.pages pd, IsPage ramPages p ∧ p ∈ s.used := by
    intro p hp
    obtain ⟨x, hx⟩ := h.mem_pages.mp hp
    exact h.inUse x p hx
  unfold Space.pages at hnodup huse ⊢
  obtain ⟨hnodup, -, hnew⟩ := List.nodup_append.mp hnodup
  have hbelow : ∀ i ∈ List.range 768, i < 768 := fun i hi => List.mem_range.mp hi
  have hloop : (List.range 768).foldlM (freeTable pd) s = .ok (s.dropAll ((List.range 768).flatMap σ.owned)) := by
    refine freeTables_eq hram h.pd_page.1.1 hbelow (fun i hi => h.dir i (hbelow i hi)) (fun i _ => h.entry i) hnodup ?_
    intro p hp
    obtain ⟨h1, h2⟩ := huse p (List.mem_append_left _ hp)
    exact ⟨h1, h2, hnew p hp pd List.mem_cons_self⟩
  unfold pagedirDestroy
  rw [if_neg h.pd_page.1.ne_zero, show pdNo physBase = 768 from rfl, hloop, dropAll_append]
  simp only [check, hinit, ne_eq, not_false_eq_true, decide_true, if_true, ok_bind]
  generalize (List.range 768).flatMap σ.owned = others at *
  exact pallocFreePage_ok h.pd_page.1 (used_dropAll.mpr ⟨h.pd_page.2, fun hp => hnew pd hp pd List.mem_cons_self rfl⟩)

end Holds

end

end Pintos.Pagedir
