import Pintos.Filesys.Store

/-! The entries of a directory.

The bytes of a directory are read as slots of 20 bytes; a slot in use is an entry, the name
of a sector. A write of one entry at a slot changes that slot and no other, and at the end
of the file it adds one. -/
namespace Pintos.Filesys

/-- An entry in use. -/
structure Entry where
  sector : Nat
  name : CString
deriving DecidableEq

def slotCnt (b : List UInt8) : Nat := b.length / DirEntry.size

/-- The slot `j`, as it is read into a buffer that was zero. -/
def slot (b : List UInt8) (j : Nat) : Bytes := fun o =>
  if o < DirEntry.size then b.getD (DirEntry.size * j + o) 0 else 0

def entryOf (e : Bytes) : Option Entry :=
  if DirEntry.inUse e then some ⟨DirEntry.inodeSector e, DirEntry.name e⟩ else none

def entries (b : List UInt8) (j : Nat) : Option Entry := if j < slotCnt b then entryOf (slot b j) else none

section
variable {b b' : List UInt8} {e e' : Bytes} {j k : Nat} {name : CString} {x : Entry}

/-- Only the first 20 bytes of the buffer are the entry. -/
theorem entryOf_congr (h : ∀ o < DirEntry.size, e o = e' o) : entryOf e = entryOf e' := by
  have hsize : DirEntry.size = 20 := rfl
  have hslice : slice e 4 (nameMax + 1) = slice e' 4 (nameMax + 1) := by
    unfold slice nameMax
    apply List.map_congr_left
    grind
  have hword : e.word 0 = e'.word 0 := by
    unfold Bytes.word
    rw [h 0 (by omega), h 1 (by omega), h 2 (by omega), h 3 (by omega)]
  unfold entryOf DirEntry.inUse DirEntry.name DirEntry.inodeSector
  rw [h 19 (by omega), hslice, hword]

theorem entries_some (h : entries b j = some x) : j < slotCnt b ∧ entryOf (slot b j) = some x := by
  unfold entries at h
  grind

theorem entries_of_lt (h : j < slotCnt b) : entries b j = entryOf (slot b j) := if_pos h

theorem entryOf_eq_some : entryOf e = some x ↔
    DirEntry.inUse e = true ∧ DirEntry.inodeSector e = x.sector ∧ DirEntry.name e = x.name := by
  unfold entryOf
  cases x
  split <;> simp_all

theorem entryOf_eq_none : entryOf e = none ↔ DirEntry.inUse e = false := by
  unfold entryOf
  split <;> simp_all

/-! ### Building an entry -/

/-- The entry `dir_add` writes, over what its buffer held. -/
def newEntry (e : Bytes) (name : CString) (sector : Nat) : Bytes :=
  DirEntry.setInodeSector (DirEntry.setName (DirEntry.setInUse e true) name) sector

theorem takeWhile_append_zero (h : (0 : UInt8) ∉ name) (l : List UInt8) :
    (name ++ 0 :: l).takeWhile (· != 0) = name := by
  rw [List.takeWhile_append_of_pos]
  · simp
  · grind

theorem name_newEntry (h0 : (0 : UInt8) ∉ name) (hlen : name.length ≤ nameMax) :
    DirEntry.name (newEntry e name k) = name := by
  have hmax : nameMax = 14 := rfl
  have htake : name.take nameMax = name := List.take_of_length_le hlen
  have hbyte : ∀ t, t ≤ name.length → newEntry e name k (4 + t) = name.getD t 0 := by
    intro t ht
    unfold newEntry DirEntry.setInodeSector DirEntry.setName Bytes.setWord
    rw [if_neg (by omega), htake, Bytes.patch_inside _ _ (by omega) (by omega)]
    congr 1
    omega
  have hslice : slice (newEntry e name k) 4 (nameMax + 1) =
      name ++ 0 :: slice (newEntry e name k) (4 + (name.length + 1)) (nameMax - name.length) := by
    unfold slice
    apply List.ext_getElem
    · simp
      omega
    intro t ht ht'
    simp only [List.getElem_map, List.getElem_range]
    rcases Nat.lt_trichotomy t name.length with hlt | heq | hgt
    · rw [List.getElem_append_left hlt, hbyte t (by omega)]
      simp [List.getD, hlt]
    · subst heq
      rw [hbyte _ (Nat.le_refl _)]
      simp
    · rw [List.getElem_append_right (by omega)]
      simp only [List.getElem_cons, show t - name.length ≠ 0 by omega, dif_neg, not_false_eq_true,
        List.getElem_map, List.getElem_range]
      congr 1
      omega
  rw [DirEntry.name, hslice, takeWhile_append_zero h0]

theorem inUse_newEntry (hlen : name.length ≤ nameMax) : DirEntry.inUse (newEntry e name k) = true := by
  have hmax : nameMax = 14 := rfl
  unfold DirEntry.inUse newEntry DirEntry.setInodeSector DirEntry.setName DirEntry.setInUse Bytes.setWord
  rw [if_neg (by decide), Bytes.patch_outside _ _ (by
    simp only [List.length_take]
    omega), Bytes.patch_inside _ _ (by decide) (by decide)]
  decide

theorem entryOf_newEntry (h0 : (0 : UInt8) ∉ name) (hlen : name.length ≤ nameMax) (hk : k < 2 ^ 32) :
    entryOf (newEntry e name k) = some ⟨k, name⟩ :=
  entryOf_eq_some.mpr ⟨inUse_newEntry hlen, Bytes.word_setWord _ 0 hk, name_newEntry h0 hlen⟩

theorem entryOf_setInUse_false (e : Bytes) : entryOf (DirEntry.setInUse e false) = none := by
  rw [entryOf_eq_none]
  unfold DirEntry.inUse DirEntry.setInUse
  rw [Bytes.patch_inside _ _ (by decide) (by decide)]
  decide

/-! ### Writing an entry -/

/-- The slots of a directory are all there is to it. -/
def Whole (b : List UInt8) : Prop := DirEntry.size ∣ b.length

theorem Whole.length (h : Whole b) : b.length = DirEntry.size * slotCnt b := (Nat.mul_div_cancel' h).symm

theorem slot_of_patched (hp : Store.Patched b b' (DirEntry.size * j) DirEntry.size e) :
    ∀ o < DirEntry.size, slot b' j o = e o := by
  intro o ho
  have := hp.inside (DirEntry.size * j + o) (by omega) (by omega)
  unfold slot
  grind

theorem slot_of_patched_ne {j' : Nat} (hp : Store.Patched b b' (DirEntry.size * j) DirEntry.size e) (hj : j' ≠ j)
    (hlt : j' < slotCnt b) : slot b' j' = slot b j' := by
  funext o
  unfold slot
  split
  · rename_i ho
    unfold slotCnt at hlt
    unfold DirEntry.size at hp hlt ho ⊢
    rw [List.getD_eq_getElem?_getD, List.getD_eq_getElem?_getD, hp.outside (20 * j' + o) (by omega) (by omega)]
  · rfl

section Write
variable (hb : Whole b) (hj : j ≤ slotCnt b) (hp : Store.Patched b b' (DirEntry.size * j) DirEntry.size e)
  (hl : b'.length = b.length ∨ b'.length = DirEntry.size * j + DirEntry.size)
include hb hj hp hl

/-- A write at the end makes one more slot, any other write none. -/
theorem length_write : b'.length = DirEntry.size * max (slotCnt b) (j + 1) := by
  have hlen := hb.length
  have hle := hp.le
  unfold DirEntry.size at hp hl hlen ⊢
  have hlast : 20 * j + 19 < b'.length := by
    by_contra hge
    have := hp.inside (20 * j + 19) (by omega) (by omega)
    grind
  omega

theorem whole_write : Whole b' := ⟨_, length_write hb hj hp hl⟩

theorem slotCnt_write : slotCnt b' = max (slotCnt b) (j + 1) := by
  rw [slotCnt, length_write hb hj hp hl]
  exact Nat.mul_div_cancel_left _ (by decide)

theorem entries_write : entries b' = Function.update (entries b) j (entryOf e) := by
  have hcnt := slotCnt_write hb hj hp hl
  funext j'
  by_cases hjj : j' = j
  · subst hjj
    rw [Function.update_self, entries_of_lt (by omega)]
    exact entryOf_congr (slot_of_patched hp)
  · rw [Function.update_of_ne hjj]
    unfold entries
    by_cases hlt : j' < slotCnt b
    · rw [if_pos hlt, if_pos (by omega), slot_of_patched_ne hp hjj hlt]
    · rw [if_neg hlt, if_neg (by omega)]

end Write

end

end Pintos.Filesys
