import Pintos.Filesys.State

/-! Reading the history variable.

A sector serves as an inode, a double-indirect block or an indirect block from the
moment the inode layer writes it as one until it is given back to the free map
(`lastRole`). The history is `Intact` as long as no block written back from the cache
has landed on a serving sector. -/
namespace Pintos.Filesys

/-- The writes of `extend_inode_disk_to_size`, which do not go through the cache. -/
def Writer.isMeta : Writer → Bool
  | inode | doubleIndirect | indirect => true
  | data | writeBack => false

/-- What the sector serves as, with the contents the inode layer last gave it. -/
def lastRole : List Event → Nat → Option (Writer × Bytes)
  | [], _ => none
  | .write w sector block :: t, k => if sector = k ∧ w.isMeta then some (w, block) else lastRole t k
  | .release sector :: t, k => if sector = k then none else lastRole t k

def Intact : List Event → Prop
  | [] => True
  | .write .writeBack sector _ :: t => lastRole t sector = none ∧ Intact t
  | _ :: t => Intact t

instance decidableIntact : (t : List Event) → Decidable (Intact t)
  | [] => .isTrue trivial
  | .write .writeBack sector _ :: t =>
    have := decidableIntact t
    inferInstanceAs (Decidable (lastRole t sector = none ∧ Intact t))
  | .write .inode _ _ :: t => decidableIntact t
  | .write .doubleIndirect _ _ :: t => decidableIntact t
  | .write .indirect _ _ :: t => decidableIntact t
  | .write .data _ _ :: t => decidableIntact t
  | .release _ :: t => decidableIntact t

/-- The sectors given back to the free map. -/
def releases (t : List Event) : List Nat :=
  t.filterMap fun
    | .release k => some k
    | .write _ _ _ => none

theorem lastRole_write (w : Writer) (j : Nat) (b : Bytes) (t : List Event) (k : Nat) :
    lastRole (.write w j b :: t) k = if j = k ∧ w.isMeta then some (w, b) else lastRole t k := rfl

theorem lastRole_release (j : Nat) (t : List Event) (k : Nat) :
    lastRole (.release j :: t) k = if j = k then none else lastRole t k := rfl

/-! ### Harmless events -/

/-- Events after which every sector serves as it did after `t`: the cache writes sectors of
`W`, a file's data goes to sectors of `D`, an inode or a pointer block is written again
as it was, and a sector is released that did not serve. -/
def Harmless (t : List Event) (W D : Nat → Prop) : Event → Prop
  | .write .writeBack k _ => W k
  | .write .data k _ => D k
  | .write w k b => lastRole t k = some (w, b)
  | .release k => lastRole t k = none

theorem lastRole_harmless {t ev : List Event} {W D : Nat → Prop} (h : ∀ e ∈ ev, Harmless t W D e)
    (k : Nat) : lastRole (ev ++ t) k = lastRole t k := by
  induction ev with
  | nil => rfl
  | cons e ev ih =>
    have he := h e List.mem_cons_self
    have ih := ih fun e' he' => h e' (List.mem_cons_of_mem _ he')
    rw [List.cons_append]
    cases e with
    | write w j b =>
      rw [lastRole_write]
      split
      · rename_i hw
        obtain ⟨rfl, hw⟩ := hw
        cases w with
        | inode | doubleIndirect | indirect => exact he.symm
        | data | writeBack => simp [Writer.isMeta] at hw
      · exact ih
    | release j =>
      rw [lastRole_release]
      split
      · rename_i hj
        subst hj
        exact he.symm
      · exact ih

theorem intact_of_append {ev t : List Event} (h : Intact (ev ++ t)) : Intact t := by
  induction ev with
  | nil => exact h
  | cons e ev ih =>
    rw [List.cons_append] at h
    unfold Intact at h
    split at h
    · simp_all
    · grind
    · grind

/-- The cache keeps to sectors that do not serve, so the history stays intact. -/
theorem intact_harmless {t ev : List Event} {W D : Nat → Prop} (h : ∀ e ∈ ev, Harmless t W D e)
    (hW : ∀ k, W k → lastRole t k = none) (ht : Intact t) : Intact (ev ++ t) := by
  induction ev with
  | nil => exact ht
  | cons e ev ih =>
    have he := h e List.mem_cons_self
    have hev := fun e' he' => h e' (List.mem_cons_of_mem e he')
    rw [List.cons_append]
    unfold Intact
    split
    · trivial
    · rename_i heq
      obtain ⟨rfl, rfl⟩ := List.cons.inj heq
      exact ⟨(lastRole_harmless hev _).trans (hW _ he), ih hev⟩
    · grind

theorem Harmless.mono {t : List Event} {W W' D D' : Nat → Prop} {e : Event} (h : Harmless t W D e)
    (hW : ∀ k, W k → W' k) (hD : ∀ k, D k → D' k) : Harmless t W' D' e := by
  unfold Harmless at h ⊢
  split at h <;> simp_all

theorem Harmless.congr {t t' : List Event} {W D : Nat → Prop} {e : Event}
    (ht : ∀ k, lastRole t' k = lastRole t k) (h : Harmless t' W D e) : Harmless t W D e := by
  unfold Harmless at h ⊢
  split at h <;> simp_all

end Pintos.Filesys
