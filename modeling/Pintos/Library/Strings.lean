import Pintos.Library.Bytes

/-! C strings in memory: runs of bytes without a zero, and a zero after them. -/
namespace Pintos

namespace Bytes

variable {m m' : Bytes} {a b : Nat} {l l' : List UInt8}

/-- The bytes of the list stand in memory from `a` on. -/
def Spells (m : Bytes) (a : Nat) : List UInt8 → Prop
  | [] => True
  | c :: l => m a = c ∧ Spells m (a + 1) l

/-- The string at an address. -/
def IsString (m : Bytes) (a : Nat) (l : List UInt8) : Prop := Spells m a (l ++ [0]) ∧ 0 ∉ l

/-- Bytes are copied to memory. -/
def write (m : Bytes) (a : Nat) (l : List UInt8) : Bytes := m.patch a l.length fun i => l.getD i 0

theorem spells_append : Spells m a (l ++ l') ↔ Spells m a l ∧ Spells m (a + l.length) l' := by
  induction l generalizing a with
  | nil => simp [Spells]
  | cons c l ih =>
    rw [List.cons_append, Spells, Spells, ih, and_assoc, List.length_cons]
    grind

theorem spells_iff : Spells m a l ↔ ∀ i < l.length, m (a + i) = l.getD i 0 := by
  induction l generalizing a with
  | nil => simp [Spells]
  | cons c l ih =>
    rw [Spells, ih]
    constructor
    · grind
    · intro h
      refine ⟨h 0 (by simp), fun i hi => ?_⟩
      have hrest := h (i + 1) (by simpa using hi)
      rwa [show a + (i + 1) = a + 1 + i by omega] at hrest

theorem Spells.congr (h : Spells m a l) (hm : ∀ o, a ≤ o → o < a + l.length → m' o = m o) : Spells m' a l := by
  rw [spells_iff] at h ⊢
  grind

theorem IsString.congr (h : IsString m a l) (hm : ∀ o, a ≤ o → o ≤ a + l.length → m' o = m o) : IsString m' a l :=
  ⟨h.1.congr fun o ho ho' => hm o ho (by simpa [Nat.lt_succ_iff, ← Nat.add_assoc] using ho'), h.2⟩

theorem write_outside (h : b < a ∨ a + l.length ≤ b) : m.write a l b = m b :=
  patch_outside m _ (by omega)

theorem spells_write (m : Bytes) (a : Nat) (l : List UInt8) : Spells (m.write a l) a l := by
  rw [spells_iff]
  intro i hi
  rw [write, patch_inside m _ (by omega) (by omega), Nat.add_sub_cancel_left]

/-- Several strings are copied to memory, one after the other. -/
def writeAll (m : Bytes) (ws : List (Nat × List UInt8)) : Bytes := ws.foldl (fun m w => m.write w.1 w.2) m

section
variable {ws : List (Nat × List UInt8)} {w : Nat × List UInt8}

theorem writeAll_outside (m : Bytes) (h : ∀ w ∈ ws, b < w.1 ∨ w.1 + w.2.length ≤ b) : m.writeAll ws b = m b := by
  induction ws generalizing m with
  | nil => rfl
  | cons w ws ih =>
    have hrest := ih (m.write w.1 w.2) fun v hv => h v (List.mem_cons_of_mem w hv)
    rw [writeAll, List.foldl_cons]
    exact hrest.trans (write_outside (h w List.mem_cons_self))

/-- Strings at places of their own all stand in memory afterwards. -/
theorem spells_writeAll (m : Bytes) (hd : ws.Pairwise fun v w => v.1 + v.2.length ≤ w.1 ∨ w.1 + w.2.length ≤ v.1)
    (hw : w ∈ ws) : Spells (m.writeAll ws) w.1 w.2 := by
  induction ws generalizing m with
  | nil => cases hw
  | cons v ws ih =>
    obtain ⟨hv, hd⟩ := List.pairwise_cons.mp hd
    rcases List.mem_cons.mp hw with rfl | hw
    · apply (spells_write m w.1 w.2).congr
      intro o ho ho'
      apply writeAll_outside (m.write w.1 w.2)
      grind
    · exact ih (m.write v.1 v.2) hd hw

end

end Bytes

end Pintos
