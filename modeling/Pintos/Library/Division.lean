import Mathlib.Tactic.Ring
import Mathlib.Tactic.Linarith

/-! Division by parts.

A number of two digits is divided by one digit as on paper. A number is divided by one that is too long for the
machine by way of a shorter divisor: with `v * w ≤ d` close to `d`, the quotient by `v * w` is the right one or
one more, and a test on the remainder tells which. -/
namespace Pintos.Division

variable {b d n0 n1 n v w q : Nat}

/-- The second step of a division by one digit gives one digit. -/
theorem low_lt (hd : 0 < d) (h0 : n0 < b) : (b * (n1 % d) + n0) / d < b := by
  have hlt : n1 % d < d := Nat.mod_lt n1 hd
  rw [Nat.div_lt_iff_lt_mul hd]
  calc b * (n1 % d) + n0 < b * (n1 % d) + b := by omega
    _ = b * (n1 % d + 1) := by ring
    _ ≤ b * d := Nat.mul_le_mul_left b hlt

/-- The digits of the quotient. -/
theorem two_digits (b n0 n1 : Nat) (hd : 0 < d) : (b * (n1 % d) + n0) / d + b * (n1 / d) = (b * n1 + n0) / d := by
  have hsplit : b * n1 + n0 = b * (n1 % d) + n0 + d * (b * (n1 / d)) := by
    conv_lhs => rw [← Nat.mod_add_div n1 d]
    ring
  rw [hsplit, Nat.add_mul_div_left _ _ hd]

/-- A shorter divisor gives no smaller quotient. -/
theorem le_estimate (hpos : 0 < v * w) (hle : v * w ≤ d) : n / d ≤ n / (v * w) :=
  Nat.div_le_div_left hle hpos

/-- As long as the quotient makes up for what the divisor lost, the estimate is off by one at most. -/
theorem estimate_le (hle : v * w ≤ d) (hd : 0 < d) (hpos : 0 < v * w) (hsmall : (n / d + 1) * (d - v * w) ≤ v * w) :
    n / (v * w) ≤ n / d + 1 := by
  have hlt : n < (n / d + 1) * d := by
    rw [Nat.mul_comm]
    exact Nat.lt_mul_div_succ n hd
  have hsum : (n / d + 1) * d = (n / d + 1) * (v * w) + (n / d + 1) * (d - v * w) := by
    rw [← Nat.mul_add, Nat.add_sub_cancel' hle]
  have hbound : n < (n / d + 2) * (v * w) := by
    grind
  have hq : n / (v * w) < n / d + 2 := (Nat.div_lt_iff_lt_mul hpos).mpr hbound
  omega

/-- A divisor with its last digits cut off: `v` has the leading digits and `w` is the weight of the last one kept. The
estimate needs that the quotient has no more digits than `v`. -/
theorem estimate (hv : v = d / w) (hw : 0 < w) (hpos : 0 < v) (hq : (n / d + 1) * (w - 1) ≤ v * w) :
    n / d ≤ n / (v * w) ∧ n / (v * w) ≤ n / d + 1 := by
  have hle : v * w ≤ d := hv ▸ Nat.div_mul_le_self d w
  have hvw : 0 < v * w := Nat.mul_pos hpos hw
  have hrest : d - v * w ≤ w - 1 := by
    have hmod : d - v * w = d % w := by
      rw [hv, Nat.mul_comm]
      have := Nat.div_add_mod d w
      omega
    have := Nat.mod_lt d hw
    omega
  exact ⟨le_estimate hvw hle, estimate_le hle (by omega) hvw ((Nat.mul_le_mul_left _ hrest).trans hq)⟩

/-- The test on the remainder. -/
theorem correct (hd : 0 < d) (hge : d ≤ n) (hlow : n / d ≤ q) (hhigh : q ≤ n / d + 1) :
    1 ≤ q ∧ (q - 1) * d ≤ n ∧ (if n - (q - 1) * d < d then q - 1 else q) = n / d := by
  have hone : 1 ≤ n / d := (Nat.one_le_div_iff hd).mpr hge
  have hmul : n / d * d ≤ n := Nat.div_mul_le_self n d
  have hlt : n < n / d * d + d := by
    have := Nat.lt_mul_div_succ n hd
    grind
  rcases Nat.lt_or_ge (n / d) q with hmore | hsame
  · grind
  · have hq : q = n / d := by omega
    have hprev : (q - 1) * d + d = n / d * d := by
      rw [hq, ← Nat.succ_mul, Nat.succ_eq_add_one, Nat.sub_add_cancel hone]
    grind

end Pintos.Division
