import Pintos.Filesys.Entries

/-! Directories over a lawful inode layer.

What the scans find is what the entries of the directory say; adding a name writes one
entry at the first free slot. -/
namespace Pintos.Filesys
open Outcome

/-! ### Scans -/

/-- The first slot from `j` on that satisfies `p`. -/
def findFrom (b : List UInt8) (p : Bytes → Bool) (j : Nat) : Option Nat :=
  (List.range' j (slotCnt b - j)).find? fun j => p (slot b j)

/-- The buffer is zero past the entry. -/
def Zeroed (e : Bytes) : Prop := ∀ o, DirEntry.size ≤ o → e o = 0

/-- What a scan from slot `j` on returns. -/
def Scanned (b : List UInt8) (p : Bytes → Bool) (j : Nat) (r : Bool × Bytes × Nat) : Prop :=
  match findFrom b p j with
  | some j' => r = (true, slot b j', DirEntry.size * j')
  | none => r.1 = false ∧ r.2.2 = DirEntry.size * slotCnt b

section
variable {b : List UInt8} {p : Bytes → Bool} {e : Bytes} {j : Nat}

theorem findFrom_some {j' : Nat} (h : findFrom b p j = some j') : j ≤ j' ∧ j' < slotCnt b ∧ p (slot b j') = true := by
  obtain ⟨hp, hm⟩ := And.intro (List.find?_some h) (List.mem_of_find?_eq_some h)
  grind

theorem findFrom_none : findFrom b p j = none ↔ ∀ j', j ≤ j' → j' < slotCnt b → p (slot b j') = false := by
  unfold findFrom
  grind

theorem findFrom_step (hj : j < slotCnt b) :
    findFrom b p j = if p (slot b j) then some j else findFrom b p (j + 1) := by
  unfold findFrom
  rw [show slotCnt b - j = (slotCnt b - (j + 1)) + 1 by omega, List.range'_succ, List.find?_cons]
  cases p (slot b j) <;> rfl

theorem findFrom_end : findFrom b p (slotCnt b) = none := by simp [findFrom]

/-- A full read gives the slot. -/
theorem fill_slot (hz : Zeroed e) (hj : j < slotCnt b) :
    ((b.drop (DirEntry.size * j)).take DirEntry.size).length = DirEntry.size ∧
      fill e ((b.drop (DirEntry.size * j)).take DirEntry.size) = slot b j := by
  have hlen : ((b.drop (DirEntry.size * j)).take DirEntry.size).length = DirEntry.size := by
    rw [List.length_take, List.length_drop]
    unfold slotCnt at hj
    unfold DirEntry.size at hj ⊢
    omega
  refine ⟨hlen, ?_⟩
  funext o
  unfold fill slot
  split
  · rename_i ho
    rw [Bytes.patch_inside _ _ (by omega) (by omega), Nat.sub_zero, List.getD_eq_getElem?_getD,
      List.getD_eq_getElem?_getD, List.getElem?_take, if_pos ho, List.getElem?_drop]
  · rename_i ho
    rw [Bytes.patch_outside _ _ (by omega), hz o (by omega)]

theorem zeroed_slot (b : List UInt8) (j : Nat) : Zeroed (slot b j) := fun _ ho => if_neg (by omega)

/-- The slot with the name. -/
def slotOf (b : List UInt8) (name : CString) : Option Nat :=
  findFrom b (fun e => DirEntry.inUse e && DirEntry.name e == name) 0

theorem slotOf_some {name : CString} (hj : slotOf b name = some j) :
    entries b j = some ⟨DirEntry.inodeSector (slot b j), name⟩ := by
  obtain ⟨-, hlt, hp⟩ := findFrom_some hj
  rw [Bool.and_eq_true, beq_iff_eq] at hp
  rw [entries_of_lt hlt, entryOf_eq_some]
  exact ⟨hp.1, rfl, hp.2⟩

theorem slotOf_none {name : CString} :
    slotOf b name = none ↔ ∀ j x, entries b j = some x → x.name ≠ name := by
  unfold slotOf
  rw [findFrom_none]
  constructor
  · rintro hnone j x hx rfl
    obtain ⟨hlt, he⟩ := entries_some hx
    obtain ⟨hu, -, hn⟩ := entryOf_eq_some.mp he
    simpa [hu, hn] using hnone j (Nat.zero_le j) hlt
  · intro hall j _ hlt
    by_contra hne
    rw [Bool.not_eq_false, Bool.and_eq_true, beq_iff_eq] at hne
    exact hall j ⟨DirEntry.inodeSector (slot b j), DirEntry.name (slot b j)⟩
      (by rw [entries_of_lt hlt, entryOf_eq_some]; exact ⟨hne.1, rfl, rfl⟩) hne.2

/-- The names `dir_add` takes. -/
def ValidName (name : CString) : Prop := name ≠ [] ∧ name.length ≤ nameMax

instance (name : CString) : Decidable (ValidName name) := inferInstanceAs (Decidable (_ ∧ _))

/-- Where `dir_add` puts a new entry: the first free slot, or the end. -/
def addSlot (b : List UInt8) : Nat := (findFrom b (fun e => !DirEntry.inUse e) 0).getD (slotCnt b)

theorem addSlot_le (b : List UInt8) : addSlot b ≤ slotCnt b := by
  unfold addSlot
  cases h : findFrom b (fun e => !DirEntry.inUse e) 0 with
  | none => exact Nat.le_refl _
  | some j => exact Nat.le_of_lt (findFrom_some h).2.1

theorem entries_addSlot (b : List UInt8) : entries b (addSlot b) = none := by
  unfold addSlot
  cases h : findFrom b (fun e => !DirEntry.inUse e) 0 with
  | none => exact if_neg (Nat.lt_irrefl _)
  | some j =>
    obtain ⟨-, hlt, hp⟩ := findFrom_some h
    rw [Option.getD_some, entries_of_lt hlt, entryOf_eq_none]
    simpa using hp

end

/-- While `good` holds, the bytes `b` of the inode can be read and stay as they are. -/
structure Reads {σ : Type} {R : σ → σ → Prop} (L : InodeLayer R) (i : Nat) (b : List UInt8) (good : σ → Prop) :
    Prop where
  small : b.length < maxFileSize
  length : ∀ {s}, good s →
    Ends (L.inodeAt i) s (fun n s' => good s' ∧ InodeDisk.length n.data = b.length) fun _ _ => False
  readAt : ∀ {s size offset}, good s → offset + size < 2 ^ 31 →
    Ends (L.inodeReadAt i (size : Nat) offset) s (fun r s' => r = (b.drop offset).take size ∧ good s') fun _ _ => False

section
variable {σ : Type} {R : σ → σ → Prop} [Std.Refl R] [IsTrans σ R] {L : InodeLayer R} {i pos : Nat} {b : List UInt8}
  {good : σ → Prop} {s : σ} (hb : Reads L i b good)
include hb

theorem scanEntries_ends (p : Bytes → Bool) :
    ∀ (rounds j : Nat) (e : Bytes) {s : σ}, good s → Zeroed e → j ≤ slotCnt b → slotCnt b - j < rounds →
      Ends (scanEntries L i p rounds (DirEntry.size * j) e) s
        (fun r s' => good s' ∧ Scanned b p j r) fun _ _ => False := by
  intro rounds
  induction rounds with
  | zero => intro j e s _ _ _ hlt; omega
  | succ rounds ih =>
    intro j e s hs hz hle hlt
    have hsmall := hb.small
    have hbound : DirEntry.size * j + DirEntry.size < 2 ^ 31 := by
      unfold slotCnt at hle
      unfold maxFileSize pointerBlockPointersCount blockSectorSize at hsmall
      unfold DirEntry.size at hle ⊢
      omega
    simp only [scanEntries, ends_bind]
    refine Ends.mono (hb.readAt hs hbound) ?_ fun _ _ => False.elim
    rintro bytes s' ⟨rfl, hs'⟩
    by_cases hj : j < slotCnt b
    · obtain ⟨hlen, hfill⟩ := fill_slot hz hj
      rw [if_pos hlen, hfill]
      unfold Scanned
      rw [findFrom_step hj]
      by_cases hp : p (slot b j) = true
      · rw [if_pos hp, if_pos hp]
        exact ⟨hs', rfl⟩
      · rw [if_neg hp, if_neg hp]
        exact ih (j + 1) _ hs' (zeroed_slot _ _) (by omega) (by omega)
    · obtain rfl : j = slotCnt b := by omega
      rw [if_neg]
      · unfold Scanned
        rw [findFrom_end]
        exact ⟨hs', rfl, rfl⟩
      · rw [List.length_take, List.length_drop]
        unfold slotCnt DirEntry.size
        omega

/-- A scan from slot `j` on, with the rounds that the file's length allows. -/
theorem scanFrom_ends (hs : good s) (p : Bytes → Bool) {j : Nat} (hj : j ≤ slotCnt b) :
    Ends (do scanEntries L i p (← scanRounds L i) (DirEntry.size * j) (fun _ => 0)) s
      (fun r s' => good s' ∧ Scanned b p j r) fun _ _ => False := by
  simp only [scanRounds, ends_bind]
  refine Ends.imp (hb.length hs) ?_
  rintro n s' ⟨hs', hlen⟩
  rw [ends_pure, hlen]
  refine scanEntries_ends hb p _ j _ hs' (fun _ _ => rfl) hj ?_
  rw [Int.toNat_natCast]
  show slotCnt b - j < slotCnt b + 1
  omega

/-- A scan from the start. -/
theorem scan_ends (hs : good s) (p : Bytes → Bool) :
    Ends (do scanEntries L i p (← scanRounds L i) 0 (fun _ => 0)) s
      (fun r s' => good s' ∧ Scanned b p 0 r) fun _ _ => False :=
  scanFrom_ends hb hs p (Nat.zero_le _)

/-! ### Looking a name up -/

theorem lookup_ends (hs : good s) (name : CString) :
    Ends (lookup L ⟨i, pos⟩ name) s
      (fun r s' => good s' ∧ r = (slotOf b name).map fun j => (slot b j, DirEntry.size * j)) fun _ _ => False := by
  have hscan := scan_ends hb hs fun e => DirEntry.inUse e && DirEntry.name e == name
  rw [ends_bind] at hscan
  unfold lookup
  rw [ends_bind]
  refine Ends.imp hscan fun rounds s1 hs1 => ?_
  rw [ends_bind]
  refine Ends.imp hs1 ?_
  rintro ⟨found, e, ofs⟩ s' ⟨hs', hsc⟩
  rw [ends_pure]
  refine ⟨hs', ?_⟩
  unfold Scanned at hsc
  unfold slotOf
  split at hsc
  · grind
  · grind

end

section
variable {σ : Type} {R : σ → σ → Prop} [Std.Refl R] [IsTrans σ R] {L : InodeLayer R}
  {rep : Bool → σ → Store → Prop} {ok : Nat → Prop} {fresh : σ → Nat → Prop} (hL : Lawful L rep ok fresh)
  {t : Bool} {s : σ} {a : Store} {i pos : Nat} {h : Handle} {f : Obj}
include hL

omit [Std.Refl R] [IsTrans σ R] in
/-- An open inode of a lawful layer can be read. -/
theorem Lawful.reads (hr : rep t s a) (hi : ok i) (hh : a.handles i = some h) (hf : a.files i = some f) :
    Reads L i f.bytes (rep t · a) where
  small := (hL.wf hr).small i f hf
  length := fun hr => (hL.inodeAt hr hi hh hf).imp fun _ _ hn => ⟨hn.1, hn.2.2.2.2⟩
  readAt := fun hr hlt => hL.inodeReadAt hr hi hh hf hlt

theorem dirOpen_ends (hr : rep t s a) (i : Nat) :
    Ends (dirOpen L (some i)) s (fun r s' => r = some ⟨i, 0⟩ ∧ rep t s' a) fun _ _ => False := by
  unfold dirOpen
  rw [ends_bind]
  refine Ends.imp (hL.malloc hr) ?_
  rintro b s' ⟨rfl, hr'⟩
  exact ⟨rfl, hr'⟩

/-! ### Adding a name -/

theorem dirAdd_ends (hr : rep true s a) (hi : ok i) (hh : a.handles i = some h) (hf : a.files i = some f)
    (hu : h.locked = false) (hdeny : h.denyWriteCnt = 0) {name : CString} (hname : ValidName name) (k : Nat) :
    Ends (dirAdd L ⟨i, pos⟩ name k) s
      (fun r s' => (slotOf f.bytes name ≠ none ∧ r = false ∧ rep true s' a) ∨
        (slotOf f.bytes name = none ∧ ∃ e f' l w, a.Written f f' l (newEntry e name k) DirEntry.size
          (DirEntry.size * addSlot f.bytes) w ∧ r = decide (w = DirEntry.size) ∧ rep true s' (a.grown i f' l)))
      fun e _ => e = .fileSize ∧ maxFileSize ≤ DirEntry.size * addSlot f.bytes + DirEntry.size := by
  have hback : ∀ b : Store, b.handles i = some h → ∀ {s : σ},
      rep true s (b.setHandle i (some {h with locked := true})) →
      Ends (L.lockRelease i) s (fun _ s' => rep true s' b) fun _ _ => False := by
    intro b hb s hr'
    refine Ends.imp (hL.lockRelease hr' hi (Store.handles_setHandle ..) rfl) fun _ s' hr'' => ?_
    rw [Store.setHandle_setHandle] at hr''
    rwa [Store.setHandle_self (by rw [hb, ← hu])] at hr''
  unfold dirAdd
  rw [ends_bind]
  refine Ends.mono (hL.lockAcquire hr hi hh hu) (fun _ s1 hr1 => ?_) fun _ _ => False.elim
  have hh1 := Store.handles_setHandle a i (some {h with locked := true})
  have hinvalid : (name = [] || nameMax < name.length) = false := by
    simp [hname.1, Nat.not_lt.mpr hname.2]
  rw [hinvalid]
  simp only [Bool.false_eq_true, if_false]
  rw [ends_bind]
  refine Ends.mono (lookup_ends (hL.reads hr1 hi hh1 hf) hr1 name) ?_ fun _ _ => False.elim
  rintro r s2 ⟨hr2, rfl⟩
  cases hslot : slotOf f.bytes name with
  | some j =>
    simp only [Option.map_some, ends_bind]
    exact Ends.mono (hback a hh hr2) (fun _ s3 hr3 => .inl ⟨by simp, rfl, hr3⟩) fun _ _ => False.elim
  | none =>
    have hscan := scan_ends (hL.reads hr2 hi hh1 hf) hr2 fun e => !DirEntry.inUse e
    rw [ends_bind] at hscan
    simp only [Option.map_none]
    rw [ends_bind]
    refine Ends.mono hscan (fun rounds s3 hs3 => ?_) fun _ _ => False.elim
    rw [ends_bind]
    refine Ends.mono hs3 ?_ fun _ _ => False.elim
    rintro ⟨found, e, ofs⟩ s4 ⟨hr4, hsc⟩
    have hofs : ofs = DirEntry.size * addSlot f.bytes := by
      unfold Scanned at hsc
      unfold addSlot
      split at hsc
      · grind
      · grind
    have hlt : ofs < 2 ^ 31 := by
      have hsmall := (hL.wf hr).small i f hf
      have hle := addSlot_le f.bytes
      unfold slotCnt at hle
      unfold maxFileSize pointerBlockPointersCount blockSectorSize at hsmall
      rw [hofs]
      unfold DirEntry.size at hle ⊢
      omega
    subst hofs
    simp only
    rw [ends_bind]
    refine Ends.mono (hL.inodeWriteAt hr4 hi hh1 hf hdeny (by decide) hlt) ?_ fun _ _ => id
    rintro w s5 ⟨f', l, hw, hr5⟩
    rw [ends_bind]
    refine Ends.mono (hback (a.grown i f' l) hh hr5) (fun _ s6 hr6 => ?_) fun _ _ => False.elim
    exact .inr ⟨trivial, e, f', l, w, hw.of_setHandle, rfl, hr6⟩

end

end Pintos.Filesys
