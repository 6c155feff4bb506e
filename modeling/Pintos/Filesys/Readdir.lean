import Pintos.Filesys.Names

/-! Scans of a directory that changes.

A scan is a sequence of `dir_readdir` calls on one `struct dir`, from position 0, with `dir_add` and
`dir_remove` calls in between. Slots do not move, so a name that is there all the time is in one
slot: it is returned when the position passes that slot, and not again. -/
namespace Pintos.Filesys
open Outcome

/-- The entries that `dir_readdir` returns. -/
def listed (e : Bytes) : Bool := !(DirEntry.name e == dot || DirEntry.name e == dotDot) && DirEntry.inUse e

inductive ScanEvent where
  | read (name : Option CString)
  | change (op : NameOp) (r : Bool)
deriving Repr, DecidableEq

/-- The events so far, newest first, with the state and the directory they lead to. -/
inductive Scan {σ : Type} {R : σ → σ → Prop} [Std.Refl R] [IsTrans σ R] (L : InodeLayer R) (i : Nat)
    (allowed : NameOp → σ → Prop) (init : σ → Prop) : List ScanEvent → σ → Dir → Prop where
  | start {s : σ} : init s → Scan L i allowed init [] s ⟨i, 0⟩
  | read {h : List ScanEvent} {s s' : σ} {d d' : Dir} {name : Option CString} : Scan L i allowed init h s d →
      (dirReaddir L d).run s = .ok (name, d') s' → Scan L i allowed init (.read name :: h) s' d'
  | change {h : List ScanEvent} {s s' : σ} {d : Dir} {op : NameOp} {r : Bool} : Scan L i allowed init h s d →
      allowed op s → (op.exec L i).run s = .ok r s' → Scan L i allowed init (.change op r :: h) s' d

/-- The map after the events, when it was `m` at the start. -/
def namesFrom (m : CString → Option Nat) : List ScanEvent → CString → Option Nat
  | [] => m
  | .read _ :: h => namesFrom m h
  | .change op r :: h => op.apply (namesFrom m h) r

/-- The name is in the directory after every event. -/
def Present (m : CString → Option Nat) (n : CString) (h : List ScanEvent) : Prop :=
  ∀ h', h' <:+ h → namesFrom m h' n ≠ none

/-- The name is in the directory after no event. -/
def Absent (m : CString → Option Nat) (n : CString) (h : List ScanEvent) : Prop :=
  ∀ h', h' <:+ h → namesFrom m h' n = none

/-- Nothing is added or removed. -/
def Unchanged (h : List ScanEvent) : Prop := ∀ op r, ScanEvent.change op r ∉ h

/-! ### Slots -/

section
variable {b b' : List UInt8} {m : CString → Option Nat} {n : CString} {j k p : Nat}

theorem findFrom_first {q : Bytes → Bool} (h : findFrom b q p = some j) (hp : p ≤ k) (hk : k < j) :
    q (slot b k) = false := by
  have hfirst := (List.find?_range'_eq_some.mp h).2.2 k hp hk
  simpa using hfirst

theorem slotOf_lt (hj : slotOf b n = some j) : j < slotCnt b := (findFrom_some hj).2.1

/-- The slot of a name is listed. -/
theorem listed_slotOf (hj : slotOf b n = some j) (hdot : n ≠ dot) (hdots : n ≠ dotDot) :
    listed (slot b j) = true := by
  obtain ⟨-, -, hp⟩ := findFrom_some hj
  rw [Bool.and_eq_true, beq_iff_eq] at hp
  unfold listed
  rw [hp.1, hp.2]
  simp [hdot, hdots]

/-- A listed slot is the slot of its name. -/
theorem slotOf_listed (hd : Distinct b) (hj : j < slotCnt b) (hl : listed (slot b j) = true) :
    slotOf b (DirEntry.name (slot b j)) = some j := by
  have hu : DirEntry.inUse (slot b j) = true := (Bool.and_eq_true_iff.mp hl).2
  refine slotOf_eq_some (k := DirEntry.inodeSector (slot b j)) hd ?_
  rw [entries_of_lt hj, entryOf_eq_some]
  exact ⟨hu, rfl, rfl⟩

/-- A change that leaves the name in the directory leaves it in its slot. -/
theorem Holds.slot {op : NameOp} {r : Bool} (hb' : Holds b' (op.apply m r))
    (hd : op.Done b b' r) (hn : op.apply m r n ≠ none) (hj : slotOf b n = some j) : slotOf b' n = some j := by
  -- an entry that is still there is found there
  have hstay : ∀ k x, entries b' = Function.update (entries b) k x → k ≠ j → slotOf b' n = some j := by
    intro k x he hk
    refine slotOf_eq_some (k := DirEntry.inodeSector (Filesys.slot b j)) hb'.distinct ?_
    rw [he, Function.update_of_ne hk.symm]
    exact slotOf_some hj
  cases r with
  | false =>
    have hsame : b' = b := by cases op <;> exact hd
    rw [hsame, hj]
  | true =>
    cases op with
    | add name k =>
      obtain ⟨-, -, he⟩ : _ ∧ _ ∧ entries b' = _ := hd
      refine hstay _ _ he ?_
      intro heq
      have hfree := entries_addSlot b
      rw [heq, slotOf_some hj] at hfree
      cases hfree
    | remove name =>
      obtain ⟨k, hk, he⟩ : ∃ k, slotOf b name = some k ∧ entries b' = _ := hd
      refine hstay _ _ he ?_
      intro heq
      have hname : name = n := by
        have h1 := slotOf_some hk
        rw [heq, slotOf_some hj] at h1
        cases h1
        rfl
      rw [hname] at hn
      exact hn (Function.update_self ..)

end

/-! ### One call -/

/-- What `dir_readdir` returns from slot `p` on, and the slot it stops at. -/
def readFrom (b : List UInt8) (p : Nat) : Option CString × Nat :=
  match findFrom b listed p with
  | some j => (some (DirEntry.name (slot b j)), j + 1)
  | none => (none, slotCnt b)

section
variable {σ : Type} {R : σ → σ → Prop} [Std.Refl R] [IsTrans σ R] {L : InodeLayer R} {i p : Nat}
  {good : Bool → Ledger → σ → Prop} {view : σ → List UInt8} {t : Bool} {w : Ledger} {s : σ} {m : CString → Option Nat}

theorem Keeps.dirReaddir (hk : Keeps L i good view) (hs : good t w s) (hb : Holds (view s) m)
    (hp : p ≤ slotCnt (view s)) :
    Ends (dirReaddir L ⟨i, DirEntry.size * p⟩) s
      (fun r s' => (good t w s' ∧ view s' = view s) ∧
        r = ((readFrom (view s) p).1, ⟨i, DirEntry.size * (readFrom (view s) p).2⟩)) fun _ _ => False := by
  have hscan := scanFrom_ends (hk.reads (hk.small hs)) ⟨hs, rfl⟩ listed hp
  rw [ends_bind] at hscan
  unfold Filesys.dirReaddir
  rw [ends_bind]
  refine Ends.imp hscan ?_
  intro rounds s1 hs1
  rw [ends_bind]
  refine Ends.imp hs1 ?_
  intro r s2 hr
  obtain ⟨found, e, ofs⟩ := r
  obtain ⟨hs2, hsc⟩ := hr
  unfold Scanned at hsc
  unfold readFrom
  cases hf : findFrom (view s) listed p with
  | none =>
    rw [hf] at hsc
    obtain ⟨hfound, hofs⟩ : found = false ∧ ofs = _ := hsc
    rw [hfound, hofs]
    exact ⟨hs2, rfl⟩
  | some j =>
    rw [hf] at hsc
    cases hsc
    obtain ⟨-, hlt, hl⟩ := findFrom_some hf
    have hshort : (DirEntry.name (slot (view s) j)).length ≤ nameMax :=
      hb.short j _ (slotOf_some (slotOf_listed hb.distinct hlt hl))
    refine ⟨hs2, ?_⟩
    simp only [List.take_of_length_le hshort]
    rfl

end

/-! ### Whole scans -/

section
variable {m : CString → Option Nat} {n : CString} {ev : ScanEvent} {h : List ScanEvent} {b b' : List UInt8} {p : Nat}

theorem Present.now (hp : Present m n h) : namesFrom m h n ≠ none := hp h List.suffix_rfl

theorem Present.tail (hp : Present m n (ev :: h)) : Present m n h :=
  fun h' hs => hp h' (hs.trans (List.suffix_cons ev h))

theorem Absent.now (ha : Absent m n h) : namesFrom m h n = none := ha h List.suffix_rfl

theorem Absent.tail (ha : Absent m n (ev :: h)) : Absent m n h :=
  fun h' hs => ha h' (hs.trans (List.suffix_cons ev h))

theorem Unchanged.tail (hu : Unchanged (ev :: h)) : Unchanged h :=
  fun op r hm => hu op r (List.mem_cons_of_mem _ hm)

/-- How far a scan has come: it stands at slot `p`, and has returned the names in the slots before
it that have been there all the time. -/
structure Reached (m : CString → Option Nat) (h : List ScanEvent) (b : List UInt8) (p : Nat) : Prop where
  holds : Holds b (namesFrom m h)
  le : p ≤ slotCnt b
  once : ∀ n j, n ≠ dot → n ≠ dotDot → Present m n h → slotOf b n = some j →
    h.count (.read (some n)) = if j < p then 1 else 0
  seen : ∀ n, .read (some n) ∈ h → ¬ Absent m n h
  empty : Unchanged h → ((∀ n, .read (some n) ∉ h) ↔ ∀ j, j < p → listed (slot b j) = false)
  ended : h.head? = some (.read none) → p = slotCnt b

theorem Reached.start (hb : Holds b m) : Reached m [] b 0 where
  holds := hb
  le := Nat.zero_le _
  once := fun _ _ _ _ _ _ => rfl
  seen := fun _ hn => absurd hn List.not_mem_nil
  empty := fun _ => ⟨fun _ _ hj => absurd hj (Nat.not_lt_zero _), fun _ _ => List.not_mem_nil⟩
  ended := by simp

theorem Reached.change {op : NameOp} {r : Bool} (hr : Reached m h b p) (hg : Grown b b') (hd : op.Done b b' r) :
    Reached m (.change op r :: h) b' p where
  holds := hr.holds.done hg hd
  le := hr.le.trans (Nat.div_le_div_right hg.le)
  once := by
    intro n j hdot hdots hp hj
    obtain ⟨j', hj'⟩ : ∃ j', slotOf b n = some j' := by
      apply Option.ne_none_iff_exists'.mp
      rw [ne_eq, ← names_eq_none, hr.holds.names]
      exact hp.tail.now
    have hsame := (hr.holds.done hg hd).slot hd hp.now hj'
    rw [hj] at hsame
    cases hsame
    rw [List.count_cons_of_ne (by simp)]
    exact hr.once n j hdot hdots hp.tail hj'
  seen := by
    intro n hn ha
    have hn : ScanEvent.read (some n) ∈ h := by simpa using hn
    exact hr.seen n hn ha.tail
  empty := fun hu => absurd List.mem_cons_self (hu op r)
  ended := by simp

theorem Reached.found {j : Nat} (hr : Reached m h b p) (hf : findFrom b listed p = some j) :
    Reached m (.read (some (DirEntry.name (slot b j))) :: h) b (j + 1) := by
  obtain ⟨hle, hlt, hl⟩ := findFrom_some hf
  have hslot := slotOf_listed hr.holds.distinct hlt hl
  refine ⟨hr.holds, hlt, ?_, ?_, ?_, by simp⟩
  · intro n k hdot hdots hp hk
    have hold := hr.once n k hdot hdots hp.tail hk
    by_cases hn : n = DirEntry.name (slot b j)
    · grind
    · have hkj : k ≠ j := by
        intro hkj
        rw [hkj] at hk
        have hname := (slotOf_some hk).symm.trans (slotOf_some hslot)
        grind
      -- the slots between the position and the entry found are not listed
      have hside : k < p ↔ k < j + 1 := by
        constructor
        · omega
        · intro hk1
          by_contra hkp
          have hskip := findFrom_first hf (Nat.not_lt.mp hkp) (by omega)
          rw [listed_slotOf hk hdot hdots] at hskip
          cases hskip
      grind
  · intro n hn ha
    rcases List.mem_cons.mp hn with heq | hn
    · injection heq with heq
      injection heq with heq
      have hnone := ha.tail.now
      rw [← hr.holds.names, names_eq_none, heq, hslot] at hnone
      cases hnone
    · exact hr.seen n hn ha.tail
  · grind

theorem Reached.finish (hr : Reached m h b p) (hf : findFrom b listed p = none) :
    Reached m (.read none :: h) b (slotCnt b) where
  holds := hr.holds
  le := Nat.le_refl _
  once := by
    intro n j hdot hdots hp hj
    have hlt := slotOf_lt hj
    have hjp : j < p := by
      by_contra hjp
      have hskip := findFrom_none.mp hf j (Nat.not_lt.mp hjp) hlt
      rw [listed_slotOf hj hdot hdots] at hskip
      cases hskip
    have hold := hr.once n j hdot hdots hp.tail hj
    grind
  seen := by
    intro n hn ha
    have hn : ScanEvent.read (some n) ∈ h := by simpa using hn
    exact hr.seen n hn ha.tail
  empty := by
    intro hu
    have hold := hr.empty hu.tail
    constructor
    · intro hnone j hj
      by_cases hjp : j < p
      · exact hold.mp (fun n hn => hnone n (List.mem_cons_of_mem _ hn)) j hjp
      · exact findFrom_none.mp hf j (Nat.not_lt.mp hjp) hj
    · intro hall n hn
      have hn : ScanEvent.read (some n) ∈ h := by simpa using hn
      exact hold.mpr (fun j hj => hall j (hj.trans_le hr.le)) n hn
  ended := fun _ => rfl

theorem Reached.read (hr : Reached m h b p) : Reached m (.read (readFrom b p).1 :: h) b (readFrom b p).2 := by
  unfold readFrom
  cases hf : findFrom b listed p with
  | some j => exact hr.found hf
  | none => exact hr.finish hf

end

section
variable {σ : Type} {R : σ → σ → Prop} [Std.Refl R] [IsTrans σ R] {L : InodeLayer R} {i : Nat}
  {good : Bool → Ledger → σ → Prop} {view : σ → List UInt8} {t : Bool} {w : Ledger} {s : σ} {d : Dir}
  {m : CString → Option Nat} {h : List ScanEvent}

theorem Keeps.scan (hk : Keeps L i good view)
    (hr : Scan L i (NameOp.Served good view i) (fun s => (∃ t, good t (.own i) s) ∧ Holds (view s) m) h s d) :
    (∃ t, good t (.own i) s) ∧ ∃ p, d = ⟨i, DirEntry.size * p⟩ ∧ Reached m h (view s) p := by
  induction hr with
  | start h0 => exact ⟨h0.1, 0, rfl, .start h0.2⟩
  | read _ hx ih =>
    obtain ⟨⟨t, hs⟩, p, rfl, hp⟩ := ih
    have hread := (ends_ok hx).mp (hk.dirReaddir hs hp.holds hp.le)
    obtain ⟨⟨hs', hv⟩, hr⟩ := hread
    cases hr
    rw [hv]
    exact ⟨⟨t, hs'⟩, _, rfl, hp.read⟩
  | change _ hop hx ih =>
    obtain ⟨hs, p, rfl, hp⟩ := ih
    have hop := (ends_ok hx).mp (hk.exec hs hp.holds.whole hop)
    exact ⟨hop.1, p, rfl, hp.change hop.2.1 hop.2.2⟩

theorem Keeps.isDirEmpty_ends (hk : Keeps L i good view) (hs : good t w s) (pos : Nat) :
    Ends (Filesys.isDirEmpty L ⟨i, pos⟩) s
      (fun r _ => r = true ↔ ∀ j, j < slotCnt (view s) → listed (slot (view s) j) = false) fun _ _ => False := by
  have hsame : (fun e => DirEntry.inUse e && DirEntry.name e != dot && DirEntry.name e != dotDot) = listed := by
    funext e
    unfold listed
    cases DirEntry.inUse e <;> simp [bne]
  have hscan := scan_ends (hk.reads (hk.small hs)) ⟨hs, rfl⟩ listed
  rw [ends_bind] at hscan
  unfold Filesys.isDirEmpty
  rw [hsame, ends_bind]
  refine Ends.imp hscan ?_
  intro rounds s1 hs1
  rw [ends_bind]
  refine Ends.imp hs1 ?_
  intro r s2 hr
  obtain ⟨found, e, ofs⟩ := r
  have hsc := hr.2
  unfold Scanned at hsc
  cases hf : findFrom (view s) listed 0 with
  | none =>
    rw [hf] at hsc
    obtain ⟨hfound, -⟩ : found = false ∧ _ := hsc
    rw [hfound]
    exact ⟨fun _ j hj => findFrom_none.mp hf j (Nat.zero_le j) hj, fun _ => rfl⟩
  | some j =>
    rw [hf] at hsc
    cases hsc
    obtain ⟨-, hlt, hl⟩ := findFrom_some hf
    constructor
    · intro hr
      cases hr
    · grind

end

/-- Behind the entry "a" another is added, and both are returned. -/
def scanBoth (i : Nat) : FsM (List Bool × List (Option CString)) := do
  let r1 ← (NameOp.add [97] i).exec fsLayer i
  let r2 ← (NameOp.add [98] i).exec fsLayer i
  let (n1, d) ← dirReaddir fsLayer ⟨i, 0⟩
  let (n2, d) ← dirReaddir fsLayer d
  let (n3, _) ← dirReaddir fsLayer d
  return ([i < 2 ^ 32, r1, r2], [n1, n2, n3])

end Pintos.Filesys
