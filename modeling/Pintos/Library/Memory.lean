import Pintos.Library.Bytes

/-! Words in memory: `wordAt` and `setWordAt` are loads and stores of a 32-bit word at any address. -/
namespace Pintos

namespace Bytes

/-- The little-endian word at the address `a`. -/
def wordAt (m : Bytes) (a : Nat) : Nat :=
  (m a).toNat + 2 ^ 8 * (m (a + 1)).toNat + 2 ^ 16 * (m (a + 2)).toNat + 2 ^ 24 * (m (a + 3)).toNat

def setWordAt (m : Bytes) (a v : Nat) : Bytes :=
  fun o => if a ≤ o ∧ o < a + 4 then UInt8.ofNat (v / 2 ^ (8 * (o - a))) else m o

variable {m m' : Bytes} {a c o v : Nat}

theorem setWordAt_outside (h : o < a ∨ a + 4 ≤ o) : m.setWordAt a v o = m o :=
  if_neg (by omega)

theorem wordAt_congr (h : ∀ o, a ≤ o → o < a + 4 → m' o = m o) : m'.wordAt a = m.wordAt a := by
  simp only [wordAt, h a (by omega) (by omega), h (a + 1) (by omega) (by omega), h (a + 2) (by omega) (by omega),
    h (a + 3) (by omega) (by omega)]

/-- The word where bytes have been copied to. -/
theorem wordAt_shift (h : ∀ k < 4, m' (a + k) = m (c + k)) : m'.wordAt a = m.wordAt c := by
  have h0 : m' a = m c := h 0 (by omega)
  simp only [wordAt, h0, h 1 (by omega), h 2 (by omega), h 3 (by omega)]

theorem wordAt_setWordAt (hv : v < 2 ^ 32) : (m.setWordAt a v).wordAt a = v := by
  have h0 : a ≤ a ∧ a < a + 4 := by omega
  have h1 : a ≤ a + 1 ∧ a + 1 < a + 4 := by omega
  have h2 : a ≤ a + 2 ∧ a + 2 < a + 4 := by omega
  have h3 : a ≤ a + 3 ∧ a + 3 < a + 4 := by omega
  simp only [wordAt, setWordAt, h0, h1, h2, h3, and_self, if_true, UInt8.toNat_ofNat', Nat.sub_self,
    Nat.add_sub_cancel_left]
  omega

theorem wordAt_setWordAt_apart (h : a + 4 ≤ c ∨ c + 4 ≤ a) : (m.setWordAt a v).wordAt c = m.wordAt c := by
  apply wordAt_congr
  intro o ho ho'
  exact setWordAt_outside (by omega)

theorem wordAt_lt (m : Bytes) (a : Nat) : m.wordAt a < 2 ^ 32 := by
  have h0 := (m a).toNat_lt
  have h1 := (m (a + 1)).toNat_lt
  have h2 := (m (a + 2)).toNat_lt
  have h3 := (m (a + 3)).toNat_lt
  unfold wordAt
  omega

end Bytes

end Pintos
