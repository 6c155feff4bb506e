import Pintos.Filesys.Ledger
import Pintos.Filesys.Runs

/-! The names in a directory.

A directory maps names to sectors. Over any sequence of calls of `dir_add` and `dir_remove` the
entries in use carry different names, a call that returns true changes the map at its own name,
and one that returns false does not change it; what `dir_lookup` finds is what the map says.

The calls are made in states in which the inode layer is faithful to the directory: the state stands for a
store, the entry that is to be removed leads to an inode, and when the directory takes a new sector, no
sector that is free is dirty in the cache. -/
namespace Pintos.Filesys
open Outcome

/-! ### Entries as a map -/

/-- No two entries in use have the same name. -/
def Distinct (b : List UInt8) : Prop :=
  ∀ j j' x x', entries b j = some x → entries b j' = some x' → x.name = x'.name → j = j'

/-- The sector a name stands for. -/
def names (b : List UInt8) (name : CString) : Option Nat :=
  (slotOf b name).map fun j => DirEntry.inodeSector (slot b j)

section
variable {b b' : List UInt8} {j k : Nat} {n : CString}

theorem slotOf_eq_some (hd : Distinct b) (hx : entries b j = some ⟨k, n⟩) : slotOf b n = some j := by
  cases hs : slotOf b n with
  | none => exact absurd rfl (slotOf_none.mp hs j _ hx)
  | some j' => rw [hd j' j _ _ (slotOf_some hs) hx rfl]

theorem names_eq_some (hd : Distinct b) : names b n = some k ↔ ∃ j, entries b j = some ⟨k, n⟩ := by
  constructor
  · intro h
    obtain ⟨j, hj, rfl⟩ := Option.map_eq_some_iff.mp h
    exact ⟨j, slotOf_some hj⟩
  · intro h
    obtain ⟨j, hx⟩ := h
    have hs := slotOf_eq_some hd hx
    have he := slotOf_some hs
    rw [hx] at he
    rw [names, hs, Option.map_some]
    exact congrArg (Option.map Entry.sector) he.symm

theorem names_eq_none : names b n = none ↔ slotOf b n = none := Option.map_eq_none_iff

/-- A new name in a free slot. -/
theorem Distinct.add (hd : Distinct b) (hnew : slotOf b n = none)
    (he : entries b' = Function.update (entries b) j (some ⟨k, n⟩)) : Distinct b' := by
  have hother : ∀ j' y, j' ≠ j → entries b' j' = some y → entries b j' = some y := by
    intro j' y hj hy
    rwa [he, Function.update_of_ne hj] at hy
  have hself : ∀ y, entries b' j = some y → y.name = n := by
    intro y hy
    rw [he, Function.update_self] at hy
    cases hy
    rfl
  intro j1 j2 x1 x2 h1 h2 hn
  by_cases hj1 : j1 = j
  · by_cases hj2 : j2 = j
    · rw [hj1, hj2]
    · rw [hj1] at h1
      rw [hself x1 h1] at hn
      exact absurd hn.symm (slotOf_none.mp hnew j2 x2 (hother j2 x2 hj2 h2))
  · by_cases hj2 : j2 = j
    · rw [hj2] at h2
      rw [hself x2 h2] at hn
      exact absurd hn (slotOf_none.mp hnew j1 x1 (hother j1 x1 hj1 h1))
    · exact hd j1 j2 x1 x2 (hother j1 x1 hj1 h1) (hother j2 x2 hj2 h2) hn

theorem names_add (hd : Distinct b) (hfree : entries b j = none) (hnew : slotOf b n = none)
    (he : entries b' = Function.update (entries b) j (some ⟨k, n⟩)) : names b' = Function.update (names b) n (some k) := by
  funext m
  apply Option.ext
  intro k'
  rw [names_eq_some (hd.add hnew he), he]
  by_cases hm : m = n
  · subst hm
    rw [Function.update_self]
    constructor
    · intro h
      obtain ⟨j', hj'⟩ := h
      by_cases hj : j' = j
      · grind
      · rw [Function.update_of_ne hj] at hj'
        exact absurd rfl (slotOf_none.mp hnew j' _ hj')
    · intro hk
      cases hk
      exact ⟨j, Function.update_self ..⟩
  · rw [Function.update_of_ne hm, names_eq_some hd]
    constructor
    · intro h
      grind
    · intro h
      obtain ⟨j', hj'⟩ := h
      have hj : j' ≠ j := by
        grind
      exact ⟨j', (Function.update_of_ne hj _ _).trans hj'⟩

theorem Distinct.remove (hd : Distinct b) (he : entries b' = Function.update (entries b) j none) : Distinct b' := by
  have hold : ∀ j' y, entries b' j' = some y → entries b j' = some y := by
    intro j' y hy
    rw [he] at hy
    grind
  exact fun j1 j2 x1 x2 h1 h2 => hd j1 j2 x1 x2 (hold j1 x1 h1) (hold j2 x2 h2)

theorem names_remove (hd : Distinct b) (hj : slotOf b n = some j)
    (he : entries b' = Function.update (entries b) j none) : names b' = Function.update (names b) n none := by
  have hx := slotOf_some hj
  funext m
  apply Option.ext
  intro k'
  rw [names_eq_some (hd.remove he), he]
  by_cases hm : m = n
  · subst hm
    rw [Function.update_self]
    constructor
    · intro h
      obtain ⟨j', hj'⟩ := h
      by_cases hjj : j' = j
      · grind
      · rw [Function.update_of_ne hjj] at hj'
        exact absurd (hd j' j _ _ hj' hx rfl) hjj
    · intro hk
      cases hk
  · rw [Function.update_of_ne hm, names_eq_some hd]
    constructor
    · grind
    · intro h
      obtain ⟨j', hj'⟩ := h
      have hjj : j' ≠ j := by
        grind
      exact ⟨j', (Function.update_of_ne hjj _ _).trans hj'⟩

end

/-! ### Writing a slot -/

section
variable {b b' : List UInt8}

/-- The directory is whole, and no shorter than before. -/
structure Grown (b b' : List UInt8) : Prop where
  whole : Whole b'
  le : b.length ≤ b'.length

theorem Whole.grown (hb : Whole b) : Grown b b := ⟨hb, Nat.le_refl _⟩

/-- A slot that is there is written as a whole; at the end either the directory grows by the slot
or nothing changes. -/
theorem Placed.slot {e : Bytes} {j w : Nat} (h : Placed b b' e DirEntry.size (DirEntry.size * j) w)
    (hb : Whole b) (hj : j ≤ slotCnt b) :
    (w = DirEntry.size ∧ Grown b b' ∧ entries b' = Function.update (entries b) j (entryOf e)) ∨
      (w ≠ DirEntry.size ∧ j = slotCnt b ∧ b' = b) := by
  have hsize : DirEntry.size = 20 := rfl
  have hlen := hb.length
  cases h with
  | all hp hl => exact .inl ⟨rfl, ⟨whole_write hb hj hp hl, hp.le⟩, entries_write hb hj hp hl⟩
  | inside hlt hp hl =>
    have hend : j = slotCnt b := by
      rw [hsize] at hlt hlen
      omega
    subst hend
    have hzero : b.length - DirEntry.size * slotCnt b = 0 := by omega
    right
    refine ⟨by omega, rfl, ?_⟩
    apply List.ext_getElem?
    intro o
    by_cases ho : o < b.length
    · exact hp.outside o ho (by omega)
    · rw [List.getElem?_eq_none (by omega), List.getElem?_eq_none (by omega)]

end

/-! ### `dir_add` and `dir_remove` -/

/-- What `dir_add` has done when it returns `r`. -/
def Added (b b' : List UInt8) (name : CString) (k : Nat) (r : Bool) : Prop :=
  if r then name.length ≤ nameMax ∧ slotOf b name = none ∧
    entries b' = Function.update (entries b) (addSlot b) (some ⟨k, name⟩)
  else b' = b

/-- What `dir_remove` has done when it returns `r`. -/
def Erased (b b' : List UInt8) (name : CString) (r : Bool) : Prop :=
  if r then ∃ j, slotOf b name = some j ∧ entries b' = Function.update (entries b) j none else b' = b

/-- The slot that `dir_add` fills lies in the sectors the directory has. -/
def InPlace (b : List UInt8) : Prop := sectorCnt (DirEntry.size * addSlot b + DirEntry.size) ≤ sectorCnt b.length

/-- The directory is open, and the inode that a name stands for is there. -/
def Ledger.leadsTo (i : Nat) : Option Nat → Ledger
  | none => own i
  | some k => also i k

section
variable {σ : Type} {R : σ → σ → Prop} [Std.Refl R] [IsTrans σ R] {L : InodeLayer R} {i pos : Nat}
  {good : Bool → Ledger → σ → Prop} {view : σ → List UInt8} (hk : Keeps L i good view) {t : Bool} {w : Ledger} {s : σ}
  {name : CString} {k n : Nat}
include hk

theorem Keeps.lookup (hs : good t w s) (name : CString) :
    Ends (lookup L ⟨i, pos⟩ name) s
      (fun r s' => (good t w s' ∧ view s' = view s) ∧
        r = (slotOf (view s) name).map fun j => (slot (view s) j, DirEntry.size * j)) fun _ _ => False :=
  lookup_ends (hk.reads (hk.small hs)) ⟨hs, rfl⟩ name

/-- The free slot that `dir_add` finds. -/
theorem Keeps.freeSlot (hs : good t w s) :
    Ends (do scanEntries L i (fun e => !DirEntry.inUse e) (← scanRounds L i) 0 (fun _ => 0)) s
      (fun r s' => (good t w s' ∧ view s' = view s) ∧ r.2.2 = DirEntry.size * addSlot (view s)) fun _ _ => False := by
  refine (scan_ends (hk.reads (hk.small hs)) ⟨hs, rfl⟩ _).imp ?_
  intro r s' hr
  refine ⟨hr.1, ?_⟩
  have hsc := hr.2
  unfold Scanned at hsc
  unfold addSlot
  grind

theorem Keeps.dirAdd (hs : good t w s) (hb : Whole (view s)) (h0 : 0 ∉ name) (hsec : k < 2 ^ 32)
    (hroom : t = true ∨ InPlace (view s)) :
    Ends (dirAdd L ⟨i, pos⟩ name k) s
      (fun r s' => good t w s' ∧ Grown (view s) (view s') ∧ Added (view s) (view s') name k r) fun _ _ => True := by
  have hfail : ∀ {s1 : σ}, good t w s1 → view s1 = view s → Ends (do L.lockRelease i; return false) s1
      (fun r s' => good t w s' ∧ Grown (view s) (view s') ∧ Added (view s) (view s') name k r) fun _ _ => True := by
    intro s1 hs1 hv1
    rw [ends_bind]
    refine Ends.imp (hk.lockRelease t s1 hs1) ?_
    intro _ s2 hs2
    have hv2 : view s2 = view s := hs2.2.trans hv1
    exact ⟨hs2.1, hv2 ▸ hb.grown, hv2⟩
  unfold Filesys.dirAdd
  rw [ends_bind]
  refine Ends.imp (hk.lockAcquire t s hs) ?_
  intro _ s1 hs1
  obtain ⟨hs1, hv1⟩ := hs1
  split
  · exact ⟨hs1, hv1 ▸ hb.grown, hv1⟩
  rename_i hvalid
  have hlen : name.length ≤ nameMax := by
    grind
  rw [ends_bind]
  refine Ends.mono (hk.lookup hs1 name) ?_ fun _ _ => False.elim
  intro r s2 hr
  obtain ⟨⟨hs2, hv2⟩, rfl⟩ := hr
  rw [hv1] at hv2 ⊢
  cases hslot : slotOf (view s) name with
  | some j => exact hfail hs2 hv2
  | none =>
    have hscan := hk.freeSlot hs2
    rw [ends_bind] at hscan
    simp only [Option.map_none]
    rw [ends_bind]
    refine Ends.mono hscan (fun rounds s3 hs3 => ?_) fun _ _ => False.elim
    rw [ends_bind]
    refine Ends.mono hs3 ?_ fun _ _ => False.elim
    intro r s4 hr4
    obtain ⟨found, e, ofs⟩ := r
    obtain ⟨⟨hs4, hv4⟩, hofs⟩ := hr4
    rw [hv2] at hv4 hofs
    simp only at hofs ⊢
    subst hofs
    have hle := addSlot_le (view s)
    rw [ends_bind]
    refine Ends.imp (hk.writeAt (newEntry e name k) hs4 ?_ (by decide) (hv4 ▸ hroom)) ?_
    · rw [hv4, hb.length]
      exact Nat.mul_le_mul_left _ hle
    · intro m s5 hm
      obtain ⟨hs5, hst⟩ := hm
      rw [hv4] at hst
      rw [ends_bind]
      refine Ends.imp (hk.lockRelease t s5 hs5) ?_
      intro _ s6 hs6
      obtain ⟨hs6, hv6⟩ := hs6
      rw [ends_pure, hv6]
      refine ⟨hs6, ?_⟩
      rcases hst.slot hb hle with ⟨hm, hgrown, he⟩ | ⟨hm, -, hsame⟩
      · rw [entryOf_newEntry h0 hlen hsec] at he
        rw [decide_eq_true hm]
        exact ⟨hgrown, hlen, hslot, he⟩
      · rw [decide_eq_false hm]
        exact ⟨hsame ▸ hb.grown, hsame⟩

theorem Keeps.scanEntries (hj : w k = some (n + 1)) (p : Bytes → Bool) (rounds : Nat) :
    ∀ (ofs : Nat) (e : Bytes), Leaves good view w (scanEntries L k p rounds ofs e) := by
  induction rounds with
  | zero => exact fun _ _ => .throw _
  | succ rounds ih =>
    intro ofs e
    refine (hk.inodeReadAt DirEntry.size ofs hj).bind ?_
    intro bytes
    simp only
    split
    · split
      · exact .pure _
      · exact ih _ _
    · exact .pure _

theorem Keeps.isDirEmpty (hj : w k = some (n + 1)) : Leaves good view w (isDirEmpty L ⟨k, pos⟩) :=
  ((hk.inodeAt hj).bind fun _ => .pure _).bind fun rounds => (hk.scanEntries hj _ rounds _ _).bind fun _ => .pure _

theorem Keeps.mayRemoveDir (hj : w k = some (n + 1)) : Leaves good view w (mayRemoveDir L k) := by
  intro t s hs
  unfold Filesys.mayRemoveDir
  simp only [ends_bind]
  refine (hk.inodeReopen hs hj).imp ?_
  rintro _ s1 ⟨rfl, hs1, hv1⟩
  have hj1 : Function.update w k (some (n + 2)) k = some (n + 2) := Function.update_self ..
  unfold Filesys.dirOpen
  simp only [ends_bind]
  refine (hk.malloc t s1 hs1).imp ?_
  rintro allocated s2 ⟨hs2, hv2⟩
  cases allocated with
  | false =>
    simp only [ends_bind]
    exact (hk.inodeClose hs2 hj1).imp fun _ _ _ => trivial
  | true =>
    simp only [ends_pure, ends_bind]
    refine (hk.isDirEmpty hj1 t s2 hs2).imp ?_
    rintro isEmpty s3 ⟨hs3, hv3⟩
    show Ends (L.inodeClose (some k)) s3 _ _
    refine (hk.inodeClose hs3 hj1).imp ?_
    rintro _ s4 ⟨hs4, hv4⟩
    rw [Function.update_idem, ← hj, Function.update_eq_self] at hs4
    have hv : view s4 = view s := by rw [hv4, hv3, hv2, hv1]
    split
    · exact ⟨hs4, hv⟩
    · rw [ends_bind]
      exact (hk.inodeAt hj t s4 hs4).imp fun _ _ hs5 => ⟨hs5.1, hs5.2.trans hv⟩

theorem Keeps.removeEntry (p : Nat) {j : Nat} (hs : good t w s) (hj : w k = some (n + 1)) (hb : Whole (view s))
    (hslot : slotOf (view s) name = some j) :
    Ends (removeEntry L ⟨i, p⟩ (slot (view s) j) (DirEntry.size * j) k) s
      (fun r s' => good t w s' ∧ Grown (view s) (view s') ∧ Erased (view s) (view s') name r) fun _ _ => True := by
  have hlt := (entries_some (slotOf_some hslot)).1
  have hfail : ∀ {s1 : σ}, good t w s1 ∧ view s1 = view s →
      good t w s1 ∧ Grown (view s) (view s1) ∧ Erased (view s) (view s1) name false :=
    fun hs1 => ⟨hs1.1, hs1.2 ▸ hb.grown, hs1.2⟩
  unfold Filesys.removeEntry
  rw [ends_bind]
  refine Ends.imp (hk.inodeAt hj t s hs) ?_
  intro m s1 hs1
  split
  · exact hfail hs1
  have hmay : Leaves good view w (if InodeDisk.isDir m.data then Filesys.mayRemoveDir L k else pure true) := by
    split
    · exact hk.mayRemoveDir hj
    · exact .pure _
  rw [ends_bind]
  refine Ends.imp (hmay t s1 hs1.1) ?_
  intro mayRemove s2 hs2
  have hv2 : view s2 = view s := hs2.2.trans hs1.2
  split
  · exact hfail ⟨hs2.1, hv2⟩
  have hend : DirEntry.size * j + DirEntry.size ≤ (view s).length := by
    rw [hb.length, ← Nat.mul_succ]
    exact Nat.mul_le_mul_left _ hlt
  rw [ends_bind]
  refine Ends.imp (hk.writeAt _ hs2.1 ?_ (by decide) (.inr ?_)) ?_
  · rw [hv2]
    omega
  · rw [hv2]
    exact sectorCnt_mono hend
  · intro m s3 hm
    obtain ⟨hs3, hst⟩ := hm
    rw [hv2] at hst
    rcases hst.slot hb hlt.le with ⟨rfl, hgrown, he⟩ | ⟨-, hend, -⟩
    · rw [entryOf_setInUse_false] at he
      rw [if_neg (by simp), ends_bind]
      refine Ends.imp (hk.inodeRemove hj t s3 hs3) ?_
      intro _ s4 hs4
      rw [ends_pure, hs4.2]
      exact ⟨hs4.1, hgrown, j, hslot, he⟩
    · omega

theorem Keeps.dirRemove (hs : good t (.leadsTo i (names (view s) name)) s) (hb : Whole (view s)) :
    Ends (dirRemove L ⟨i, pos⟩ name) s
      (fun r s' => (∃ t, good t (.own i) s') ∧ Grown (view s) (view s') ∧ Erased (view s) (view s') name r)
      fun _ _ => True := by
  -- the lock is released at the end, and the result is as it was before
  have hback : ∀ {t} {s1 : σ} {r : Bool}, good t (.own i) s1 ∧ Grown (view s) (view s1) ∧ Erased (view s) (view s1) name r →
      Ends (do L.lockRelease i; return r) s1
        (fun r s' => (∃ t, good t (.own i) s') ∧ Grown (view s) (view s') ∧ Erased (view s) (view s') name r)
        fun _ _ => True := by
    intro t s1 r hs1
    rw [ends_bind]
    refine Ends.imp (hk.lockRelease t s1 hs1.1) ?_
    intro _ s2 hs2
    rw [ends_pure, hs2.2]
    exact ⟨⟨t, hs2.1⟩, hs1.2⟩
  unfold Filesys.dirRemove
  rw [ends_bind]
  refine Ends.imp (hk.lockAcquire t s hs) ?_
  intro _ s1 hs1
  rw [ends_bind]
  refine Ends.mono (hk.lookup hs1.1 name) ?_ fun _ _ => False.elim
  intro r s2 hr
  obtain ⟨⟨hs2, hv2⟩, rfl⟩ := hr
  have hv2 : view s2 = view s := hv2.trans hs1.2
  rw [hs1.2]
  unfold names at hs2
  cases hslot : slotOf (view s) name with
  | none =>
    rw [hslot] at hs2
    exact hback ⟨hs2, hv2 ▸ hb.grown, hv2⟩
  | some j =>
    rw [hslot] at hs2
    simp only [Option.map_some]
    rw [ends_bind]
    refine Ends.imp (hk.open_also hs2) ?_
    rintro _ s3 ⟨⟨rfl, hs3⟩ | ⟨rfl, hs3⟩, hv3⟩
    · rw [hv2] at hv3
      exact hback ⟨hs3, hv3 ▸ hb.grown, hv3⟩
    · rw [hv2] at hv3
      simp only
      rw [ends_bind]
      have hopened : ∃ m, Ledger.opened i (DirEntry.inodeSector (slot (view s) j))
          (DirEntry.inodeSector (slot (view s) j)) = some (m + 1) := by
        rw [Ledger.opened, Function.update_self]
        split
        · exact ⟨1, rfl⟩
        · exact ⟨0, rfl⟩
      obtain ⟨m, hm⟩ := hopened
      have hremove := hk.removeEntry pos hs3 hm (hv3 ▸ hb) (hv3 ▸ hslot)
      rw [hv3] at hremove
      refine Ends.imp hremove ?_
      rintro success s4 ⟨hs4, hdone⟩
      rw [ends_bind]
      refine Ends.imp (hk.close_opened hs4) ?_
      rintro _ s5 ⟨⟨t', hs5⟩, hv5⟩
      exact hback ⟨hs5, hv5 ▸ hdone⟩

end

/-! ### Runs -/

inductive NameOp where
  | add (name : CString) (sector : Nat)
  | remove (name : CString)
deriving Repr, DecidableEq

/-- The name is a C string and the sector a `block_sector_t`. -/
def NameOp.Typed : NameOp → Prop
  | .add name sector => 0 ∉ name ∧ sector < 2 ^ 32
  | .remove name => 0 ∉ name

instance (op : NameOp) : Decidable op.Typed := by
  cases op <;> unfold NameOp.Typed <;> infer_instance

/-- What a call with result `r` makes of the map. -/
def NameOp.apply (m : CString → Option Nat) : NameOp → Bool → CString → Option Nat
  | .add name sector, true => Function.update m name (some sector)
  | .remove name, true => Function.update m name none
  | _, false => m

/-- The map after some calls on an empty directory, the newest call first. -/
def namesAfter : List (NameOp × Bool) → CString → Option Nat
  | [] => fun _ => none
  | (op, r) :: h => op.apply (namesAfter h) r

/-- A name was added only when it was absent, and removed only when it was there. -/
def Fits : List (NameOp × Bool) → Prop
  | [] => True
  | (.add name _, true) :: h => namesAfter h name = none ∧ Fits h
  | (.remove name, true) :: h => namesAfter h name ≠ none ∧ Fits h
  | (_, false) :: h => Fits h

/-- A directory all of whose slots are free. -/
def Vacant (b : List UInt8) : Prop := Whole b ∧ ∀ j, entries b j = none

section
variable {σ : Type} {R : σ → σ → Prop} [Std.Refl R] [IsTrans σ R] {L : InodeLayer R} {i : Nat}
  {good : Bool → Ledger → σ → Prop} {view : σ → List UInt8} {t : Bool} {s : σ} {h : List (NameOp × Bool)}

def NameOp.exec (L : InodeLayer R) (i : Nat) : NameOp → Prog R Panic Bool
  | .add name sector => dirAdd L ⟨i, 0⟩ name sector
  | .remove name => dirRemove L ⟨i, 0⟩ name

/-- The layer is faithful to the directory during the call: the name to be removed stands for an inode that is
there, and a directory that takes new sectors may do so. -/
def NameOp.Served (good : Bool → Ledger → σ → Prop) (view : σ → List UInt8) (i : Nat) (op : NameOp) (s : σ) : Prop :=
  op.Typed ∧ match op with
    | .add _ _ => good true (.own i) s ∨ InPlace (view s)
    | .remove name => ∃ t, good t (.leadsTo i (names (view s) name)) s

/-- A directory as `dir_add` and `dir_remove` make it, with the map its entries stand for. -/
structure Holds (b : List UInt8) (m : CString → Option Nat) : Prop where
  whole : Whole b
  distinct : Distinct b
  short : ∀ j x, entries b j = some x → x.name.length ≤ nameMax
  names : names b = m

theorem Vacant.holds {b : List UInt8} (hb : Vacant b) : Holds b fun _ => none := by
  have hnone : ∀ j x, entries b j ≠ some x := by
    intro j x hx
    rw [hb.2 j] at hx
    cases hx
  refine ⟨hb.1, fun j _ x _ hx => absurd hx (hnone j x), fun j x hx => absurd hx (hnone j x), ?_⟩
  funext n
  rw [names_eq_none, slotOf_none]
  exact fun j x hx => absurd hx (hnone j x)

theorem Holds.add {b b' : List UInt8} {m : CString → Option Nat} {name : CString} {k : Nat} {r : Bool} (hb : Holds b m)
    (hg : Grown b b') (ha : Added b b' name k r) : Holds b' ((NameOp.add name k).apply m r) := by
  cases r with
  | false =>
    have hsame : b' = b := ha
    subst hsame
    exact ⟨hg.whole, hb.distinct, hb.short, hb.names⟩
  | true =>
    obtain ⟨hlen, hnew, he⟩ : name.length ≤ nameMax ∧ slotOf b name = none ∧ _ := ha
    refine ⟨hg.whole, hb.distinct.add hnew he, ?_, ?_⟩
    · intro j x hx
      rw [he] at hx
      by_cases hj : j = addSlot b
      · grind
      · rw [Function.update_of_ne hj] at hx
        exact hb.short j x hx
    · rw [names_add hb.distinct (entries_addSlot b) hnew he, hb.names]
      rfl

theorem Holds.remove {b b' : List UInt8} {m : CString → Option Nat} {name : CString} {r : Bool} (hb : Holds b m)
    (hg : Grown b b') (ha : Erased b b' name r) : Holds b' ((NameOp.remove name).apply m r) := by
  cases r with
  | false =>
    have hsame : b' = b := ha
    subst hsame
    exact ⟨hg.whole, hb.distinct, hb.short, hb.names⟩
  | true =>
    obtain ⟨j, hj, he⟩ : ∃ j, slotOf b name = some j ∧ _ := ha
    refine ⟨hg.whole, hb.distinct.remove he, ?_, ?_⟩
    · intro j' x hx
      rw [he] at hx
      by_cases hjj : j' = j
      · grind
      · rw [Function.update_of_ne hjj] at hx
        exact hb.short j' x hx
    · rw [names_remove hb.distinct hj he, hb.names]
      rfl

/-- What a call on a directory with the map `m` has done when it returns `r`. -/
def NameOp.Done (b b' : List UInt8) (r : Bool) : NameOp → Prop
  | .add name k => Added b b' name k r
  | .remove name => Erased b b' name r

theorem Keeps.exec (hk : Keeps L i good view) (hs : ∃ t, good t (.own i) s) (hb : Whole (view s)) {op : NameOp}
    (hop : op.Served good view i s) :
    Ends (op.exec L i) s
      (fun r s' => (∃ t, good t (.own i) s') ∧ Grown (view s) (view s') ∧ op.Done (view s) (view s') r)
      fun _ _ => True := by
  obtain ⟨hty, hop⟩ := hop
  cases op with
  | add name k =>
    rcases hop with hgood | hin
    · exact (hk.dirAdd hgood hb hty.1 hty.2 (.inl rfl)).imp fun _ _ hs' => ⟨⟨_, hs'.1⟩, hs'.2⟩
    · obtain ⟨t, hs⟩ := hs
      exact (hk.dirAdd hs hb hty.1 hty.2 (.inr hin)).imp fun _ _ hs' => ⟨⟨_, hs'.1⟩, hs'.2⟩
  | remove name =>
    obtain ⟨t, hs⟩ := hop
    exact hk.dirRemove hs hb

theorem Holds.done {b b' : List UInt8} {m : CString → Option Nat} {op : NameOp} {r : Bool} (hb : Holds b m)
    (hg : Grown b b') (hd : op.Done b b' r) : Holds b' (op.apply m r) := by
  cases op with
  | add name k => exact hb.add hg hd
  | remove name => exact hb.remove hg hd

theorem Holds.fits {b b' : List UInt8} {op : NameOp} {r : Bool} (hb : Holds b (namesAfter h)) (hd : op.Done b b' r)
    (hf : Fits h) : Fits ((op, r) :: h) := by
  cases r with
  | false => cases op <;> exact hf
  | true =>
    cases op with
    | add name k =>
      obtain ⟨-, hnew, -⟩ : _ ∧ slotOf b name = none ∧ _ := hd
      refine ⟨?_, hf⟩
      rw [← hb.names, names_eq_none, hnew]
    | remove name =>
      obtain ⟨j, hj, -⟩ : ∃ j, slotOf b name = some j ∧ _ := hd
      refine ⟨?_, hf⟩
      rw [← hb.names, ne_eq, names_eq_none, hj]
      exact Option.some_ne_none j

theorem Keeps.holds (hk : Keeps L i good view)
    (hr : Run (NameOp.exec L i) (NameOp.Served good view i) (fun s => (∃ t, good t (.own i) s) ∧ Vacant (view s)) h s) :
    (∃ t, good t (.own i) s) ∧ Holds (view s) (namesAfter h) ∧ Fits h := by
  refine hr.invariant (J := fun h s => (∃ t, good t (.own i) s) ∧ Holds (view s) (namesAfter h) ∧ Fits h)
    (fun s hs => ⟨hs.1, hs.2.holds, trivial⟩) ?_
  intro h s op hJ hop
  obtain ⟨hs, hb, hf⟩ := hJ
  refine (hk.exec hs hb.whole hop).imp ?_
  intro r s' hs'
  exact ⟨hs'.1, hb.done hs'.2.1 hs'.2.2, hb.fits hs'.2.2 hf⟩

/-- `dir_lookup` finds the sector the map has for the name and opens its inode. -/
def Finds (L : InodeLayer R) (i : Nat) (view : σ → List UInt8) (s : σ) (name : CString) (found : Option Nat) : Prop :=
  match found with
  | none => ∃ s', (dirLookup L ⟨i, 0⟩ name).run s = .ok none s' ∧ view s' = view s
  | some k => ∃ s', view s' = view s ∧ (dirLookup L ⟨i, 0⟩ name).run s = (L.inodeOpen k).run s'

theorem Keeps.finds (hk : Keeps L i good view) (hs : good t (.own i) s) (name : CString) :
    Finds L i view s name (names (view s) name) := by
  have hlook : Ends (Filesys.lookup L ⟨i, 0⟩ name) s _ _ := hk.lookup hs name
  obtain ⟨r, s', hrun, ⟨-, hv⟩, rfl⟩ := hlook.ok
  unfold Finds names
  cases hslot : slotOf (view s) name with
  | none =>
    refine ⟨s', ?_, hv⟩
    unfold dirLookup
    rw [Prog.run_bind, hrun, hslot]
    rfl
  | some j =>
    refine ⟨s', hv, ?_⟩
    unfold dirLookup
    rw [Prog.run_bind, hrun, hslot]
    rfl

end

section
variable {s s' : Fs} {a : Store} {i k : Nat}

theorem FsRep.createInode (hr : FsRep true s a) (isDir : Bool) : Ends (createInode 0 isDir) s
    (fun r s' => ∀ k, r = some k → ∃ a' f, FsRep true s' a' ∧ a.files k = none ∧
      a'.files = Function.update a.files k (some f) ∧ a'.handles = a.handles ∧ f.bytes = []) fun _ _ => False := by
  have hwf := fsLayer_lawful.wf hr
  unfold Filesys.createInode
  rw [ends_bind]
  refine hr.freeMapAllocate.imp ?_
  rintro (_ | k) s1 hs1
  · exact fun k hk => by cases hk
  obtain ⟨hr1, hfree, -, hfresh⟩ := hs1
  have hused : ∀ j f, a.files j = some f → k ∉ f.sectors := by
    intro j f hf hk
    rw [(hwf.owned j f k hf hk).1] at hfree
    cases hfree
  have hnone : a.files k = none := by
    by_contra hne
    obtain ⟨f, hf⟩ := Option.ne_none_iff_exists'.mp hne
    exact hused k f hf (hwf.self k f hf)
  simp only [ends_bind]
  refine (hr1.inodeCreate (hfresh rfl) (Function.update_self ..) hused (show 0 < maxFileSize by decide) rfl).imp ?_
  rintro (_ | _) s2 hs2
  · have hr2 : FsRep true s2 (a.setUsed k true) := hs2.1
    simp only [Bool.false_eq_true, if_false, ends_bind]
    refine Ends.imp (hr2.freeMapRelease (Function.update_self ..) hused) ?_
    exact fun _ _ _ k hk => by cases hk
  · obtain ⟨f, l, hr2, -, -, hlen, -⟩ := hs2
    intro k' hk'
    cases hk'
    exact ⟨_, f, hr2, hnone, rfl, rfl, List.length_eq_zero_iff.mp hlen⟩

/-- An empty directory, open. -/
def newDirectory : FsM (Option Nat) := do
  match ← createInode 0 true with
  | none => return none
  | some i => inodeOpen i

theorem newDirectory_ends (hr : FsRep true s a) : Ends newDirectory s
    (fun r s' => ∀ i, r = some i → fsGood i true (.own i) s' ∧ Vacant (fsView i s')) fun _ _ => False := by
  have hwf := fsLayer_lawful.wf hr
  unfold newDirectory
  rw [ends_bind]
  refine (hr.createInode true).imp ?_
  rintro (_ | i) s1 h1
  · exact fun i hi => by cases hi
  obtain ⟨a1, f, hr1, hnone, hfiles, hhandles, hbytes⟩ := h1 i rfl
  have hmap : i ≠ freeMapSector := by
    rintro rfl
    obtain ⟨m, hm⟩ := hwf.map
    rw [hnone] at hm
    cases hm
  have hclosed : a.handles i = none := by
    by_contra hne
    obtain ⟨h, hh⟩ := Option.ne_none_iff_exists'.mp hne
    obtain ⟨f, hf⟩ := (hwf.handle i h hh).1
    rw [hnone] at hf
    cases hf
  have hf : a1.files i = some f := by rw [hfiles, Function.update_self]
  refine Ends.imp (hr1.inodeOpen hmap hf) ?_
  rintro _ s2 ⟨rfl, hr2⟩ j hj
  cases hj
  have hopen : (a1.opened i).handles i = some ⟨1, false, 0, false⟩ := by
    rw [Store.opened, hhandles, hclosed]
    exact Function.update_self ..
  have hown : ∀ {j n}, Ledger.own i j = some n → j = i ∧ n = 1 := by
    intro j n hj
    unfold Ledger.own at hj
    grind
  have hc : (a1.opened i).Covers i (.own i) := by
    refine ⟨⟨_, hopen, rfl⟩, hmap, ?_, ?_, 0, Function.update_self ..⟩
    · intro j n hj
      obtain ⟨rfl, -⟩ := hown hj
      exact ⟨hmap, f, hf⟩
    · intro j n hj
      obtain ⟨rfl, hn⟩ := hown hj
      exact ⟨_, hopen, Nat.le_of_eq hn⟩
  refine ⟨⟨_, hr2, hc⟩, ?_⟩
  rw [hr2.view hmap hopen hf, hbytes]
  exact ⟨⟨0, rfl⟩, fun j => if_neg (Nat.not_lt_zero j)⟩

theorem formatBlank_store {size : UInt32} (hs : formatBlank size = some s) : ∃ a, FsRep true s a ∧ NewStore True a := by
  unfold formatBlank at hs
  split at hs
  · rename_i hrun
    cases hs
    obtain ⟨a, hr, hnew⟩ := (ends_ok hrun).mp (format_ends _ _)
    obtain ⟨f, hf, hwhole, hroot⟩ := hnew.files
    exact ⟨a, hr, ⟨f, hf, hwhole, fun _ => hroot fun _ => rfl⟩, hnew.handles⟩
  · cases hs

/-- What a program does to a new directory. -/
def onNewDirectory {α : Type} (m : Nat → FsM α) : FsM (Option α) := do
  match ← newDirectory with
  | none => return none
  | some i => return some (← m i)

/-- A run on a new directory, found by evaluation. -/
theorem run_on_newDirectory {α : Type} {m : Nat → FsM α} {p : α → Bool}
    (hp : (formatBlank 24).any (fun s => (onNewDirectory m).returns s fun r _ => r.any p) = true) :
    ∃ i s r s', fsGood i true (.own i) s ∧ Vacant (fsView i s) ∧ (m i).run s = .ok r s' ∧ p r = true := by
  obtain ⟨s0, hs0, hp⟩ := (Option.any_eq_true ..).mp hp
  obtain ⟨a, hr, -⟩ := formatBlank_store hs0
  obtain ⟨x, s', hx, hp⟩ := run_of_returns hp
  obtain ⟨r, rfl, hp⟩ := (Option.any_eq_true ..).mp hp
  obtain ⟨d, s, hd, hx⟩ := run_bind_ok hx
  have hdir := (ends_ok hd).mp (newDirectory_ends hr)
  cases d with
  | none => cases hx
  | some i =>
    obtain ⟨r', s1, hrun, hx⟩ := run_bind_ok hx
    cases hx
    obtain ⟨hgood, hvacant⟩ := hdir i rfl
    exact ⟨i, s, r, s', hgood, hvacant, hrun, hp⟩

/-- A name is added and cannot be added again, and another cannot be removed. -/
def addTwice (i : Nat) : FsM (List Bool) := do
  let r1 ← (NameOp.add [97] i).exec fsLayer i
  let r2 ← (NameOp.add [97] i).exec fsLayer i
  let r3 ← (NameOp.remove [98]).exec fsLayer i
  return [i < 2 ^ 32, r1, r2, r3]

end

end Pintos.Filesys
