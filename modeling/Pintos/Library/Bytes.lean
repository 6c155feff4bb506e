import Mathlib

/-! Byte arrays as functions, and the little-endian words in them.

A buffer is a function from offsets to bytes; what lies past its end is never
looked at. `word` reads the 32-bit word at a word index, `setWord` stores one, and
`patch` is a copy of some bytes to an offset. -/
namespace Pintos

abbrev Bytes := Nat → UInt8

namespace Bytes

/-- The 32-bit little-endian word at word index `k`. -/
def word (b : Bytes) (k : Nat) : Nat :=
  (b (4 * k)).toNat + 2 ^ 8 * (b (4 * k + 1)).toNat + 2 ^ 16 * (b (4 * k + 2)).toNat +
    2 ^ 24 * (b (4 * k + 3)).toNat

/-- Store the word `v` at word index `k`. -/
def setWord (b : Bytes) (k v : Nat) : Bytes :=
  fun o => if o / 4 = k then UInt8.ofNat (v / 2 ^ (8 * (o % 4))) else b o

/-- Copy `n` bytes of `src` to offset `off`. -/
def patch (b : Bytes) (off n : Nat) (src : Bytes) : Bytes :=
  fun o => if off ≤ o ∧ o < off + n then src (o - off) else b o

theorem word_setWord_ne (b : Bytes) {j k : Nat} (v : Nat) (h : j ≠ k) :
    (b.setWord k v).word j = b.word j := by
  have h0 : 4 * j / 4 ≠ k := by omega
  have h1 : (4 * j + 1) / 4 ≠ k := by omega
  have h2 : (4 * j + 2) / 4 ≠ k := by omega
  have h3 : (4 * j + 3) / 4 ≠ k := by omega
  simp only [word, setWord, h0, h1, h2, h3, if_false]

theorem word_setWord (b : Bytes) (k : Nat) {v : Nat} (h : v < 2 ^ 32) :
    (b.setWord k v).word k = v := by
  have h0 : 4 * k / 4 = k ∧ 4 * k % 4 = 0 := by omega
  have h1 : (4 * k + 1) / 4 = k ∧ (4 * k + 1) % 4 = 1 := by omega
  have h2 : (4 * k + 2) / 4 = k ∧ (4 * k + 2) % 4 = 2 := by omega
  have h3 : (4 * k + 3) / 4 = k ∧ (4 * k + 3) % 4 = 3 := by omega
  simp only [word, setWord, h0, h1, h2, h3, if_true, UInt8.toNat_ofNat']
  omega

theorem setWord_word (b : Bytes) (k : Nat) : b.setWord k (b.word k) = b := by
  funext o
  unfold setWord
  split
  · rename_i h
    have h0 := (b (4 * k)).toNat_lt
    have h1 := (b (4 * k + 1)).toNat_lt
    have h2 := (b (4 * k + 2)).toNat_lt
    have h3 := (b (4 * k + 3)).toNat_lt
    apply UInt8.toNat.inj
    rw [UInt8.toNat_ofNat']
    have ho : o = 4 * k ∨ o = 4 * k + 1 ∨ o = 4 * k + 2 ∨ o = 4 * k + 3 := by omega
    have hm : 4 * k % 4 = 0 ∧ (4 * k + 1) % 4 = 1 ∧ (4 * k + 2) % 4 = 2 ∧ (4 * k + 3) % 4 = 3 := by
      omega
    rcases ho with rfl | rfl | rfl | rfl <;> simp only [word, hm] <;> omega
  · rfl

theorem word_lt (b : Bytes) (k : Nat) : b.word k < 2 ^ 32 := by
  have h0 := (b (4 * k)).toNat_lt
  have h1 := (b (4 * k + 1)).toNat_lt
  have h2 := (b (4 * k + 2)).toNat_lt
  have h3 := (b (4 * k + 3)).toNat_lt
  unfold word
  omega

theorem patch_inside (b : Bytes) {off n o : Nat} (src : Bytes) (h : off ≤ o) (h' : o < off + n) :
    b.patch off n src o = src (o - off) := by
  simp [patch, h, h']

theorem patch_outside (b : Bytes) {off n o : Nat} (src : Bytes) (h : ¬ (off ≤ o ∧ o < off + n)) :
    b.patch off n src o = b o := by
  simp only [patch, h, if_false]

end Bytes

end Pintos
