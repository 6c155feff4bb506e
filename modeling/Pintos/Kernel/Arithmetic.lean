import Mathlib
import Pintos.Library.Division

/-! 64-bit division (`lib/arithmetic.c`).

The quotient of any two 64-bit numbers comes from one `DIVL` instruction, which divides 64 bits by 32 and traps where
the quotient has more than 32 bits. `none` is that trap. The quotients are right for all numbers, and
nothing traps but a division by zero. The remainders come out of functions that return 32 bits: a remainder
with more bits is cut off. -/
namespace Pintos.Kernel

/-- The `DIVL` instruction: the quotient, or a divide error. -/
def divl (n : UInt64) (d : UInt32) : Option UInt32 :=
  if d = 0 ∨ 2 ^ 32 ≤ n.toNat / d.toNat then none else some (UInt32.ofNat (n.toNat / d.toNat))

/-- One of the tests of `nlz`: up to `bound` there are `k` leading zeros. -/
def nlzStep (bound : UInt32) (k : Nat) (r : Nat × UInt32) : Nat × UInt32 :=
  if r.2 ≤ bound then (r.1 + k, r.2 <<< UInt32.ofNat k) else r

def nlz (x : UInt32) : Nat :=
  let (n, x) := nlzStep 0x3FFFFFFF 2 (nlzStep 0x0FFFFFFF 4 (nlzStep 0x00FFFFFF 8 (nlzStep 0x0000FFFF 16 (0, x))))
  if x ≤ 0x7FFFFFFF then n + 1 else n

def udiv64 (n d : UInt64) : Option UInt64 :=
  if d >>> 32 = 0 then
    let b := (1 : UInt64) <<< 32
    let n1 := (n >>> 32).toUInt32
    let n0 := n.toUInt32
    let d0 := d.toUInt32
    if d0 = 0 then none
    else (divl (b * (n1 % d0).toUInt64 + n0.toUInt64) d0).map fun q => q.toUInt64 + b * (n1 / d0).toUInt64
  else if n < d then some 0
  else
    let d1 := (d >>> 32).toUInt32
    let s := nlz d1
    (divl (n >>> 1) ((d <<< UInt64.ofNat s) >>> 32).toUInt32).map fun q =>
      let q := (q >>> UInt32.ofNat (31 - s)).toUInt64
      if n - (q - 1) * d < d then q - 1 else q

def umod64 (n d : UInt64) : Option UInt32 := (udiv64 n d).map fun q => (n - d * q).toUInt32

def sdiv64 (n d : Int64) : Option Int64 :=
  let nAbs := if 0 ≤ n then n.toUInt64 else -n.toUInt64
  let dAbs := if 0 ≤ d then d.toUInt64 else -d.toUInt64
  (udiv64 nAbs dAbs).map fun qAbs => if decide (n < 0) = decide (d < 0) then qAbs.toInt64 else -qAbs.toInt64

def smod64 (n d : Int64) : Option Int32 := (sdiv64 n d).map fun q => (n - d * q).toInt32

/-! The routines that the compiler calls. -/

def divdi3 (n d : Int64) : Option Int64 := sdiv64 n d
def moddi3 (n d : Int64) : Option Int64 := (smod64 n d).map Int32.toInt64
def udivdi3 (n d : UInt64) : Option UInt64 := udiv64 n d
def umoddi3 (n d : UInt64) : Option UInt64 := (umod64 n d).map UInt32.toUInt64

/-! ### Leading zeros -/

section
variable {x : UInt32} {r : Nat × UInt32}

/-- `r` has counted some leading zeros of `x` and shifted them out; what is left has `low` bits at least. -/
structure Counted (x : UInt32) (low : Nat) (r : Nat × UInt32) : Prop where
  shifted : r.2.toNat = x.toNat * 2 ^ r.1
  long : 2 ^ low ≤ r.2.toNat

theorem Counted.step {bound : UInt32} {k low : Nat} (h : Counted x low r) (hk : k < 32) (hb : bound.toNat + 1 = 2 ^ (32 - k))
    (hlow : low + k = 32 - k) : Counted x (32 - k) (nlzStep bound k r) := by
  unfold nlzStep
  split
  next hle =>
    have hle : r.2.toNat < 2 ^ (32 - k) := by
      have := UInt32.le_iff_toNat_le.mp hle
      omega
    have hfit : r.2.toNat * 2 ^ k < 2 ^ 32 := by
      calc r.2.toNat * 2 ^ k < 2 ^ (32 - k) * 2 ^ k := Nat.mul_lt_mul_of_pos_right hle (by positivity)
        _ = 2 ^ 32 := by rw [← Nat.pow_add, Nat.sub_add_cancel hk.le]
    have hshift : (r.2 <<< UInt32.ofNat k).toNat = r.2.toNat * 2 ^ k := by
      rw [UInt32.toNat_shiftLeft, UInt32.toNat_ofNat', Nat.mod_eq_of_lt (a := k) (by omega), Nat.mod_eq_of_lt hk,
        Nat.shiftLeft_eq, Nat.mod_eq_of_lt hfit]
    refine ⟨?_, ?_⟩
    · rw [hshift, h.shifted, Nat.pow_add, Nat.mul_assoc]
    · rw [hshift, ← hlow, Nat.pow_add]
      exact Nat.mul_le_mul_right _ h.long
  next hgt =>
    refine ⟨h.shifted, ?_⟩
    have := mt UInt32.le_iff_toNat_le.mpr hgt
    omega

/-- What `nlz` counts, for a number that is not zero. -/
theorem nlz_spec (hx : x ≠ 0) : nlz x ≤ 31 ∧ 2 ^ 31 ≤ x.toNat * 2 ^ nlz x ∧ x.toNat * 2 ^ nlz x < 2 ^ 32 := by
  have hpos : 0 < x.toNat := by
    rcases Nat.eq_zero_or_pos x.toNat with h | h
    · exact absurd (UInt32.toNat_inj.mp h) hx
    · exact h
  have h0 : Counted x 0 (0, x) := ⟨by rw [Nat.pow_zero, Nat.mul_one], hpos⟩
  have h4 := (((h0.step (show 16 < 32 by decide) (show (0x0000FFFF : UInt32).toNat + 1 = _ by decide) rfl).step
    (show 8 < 32 by decide) (show (0x00FFFFFF : UInt32).toNat + 1 = _ by decide) rfl).step
    (show 4 < 32 by decide) (show (0x0FFFFFFF : UInt32).toNat + 1 = _ by decide) rfl).step
    (show 2 < 32 by decide) (show (0x3FFFFFFF : UInt32).toNat + 1 = _ by decide) rfl
  have hrange : 2 ^ 31 ≤ x.toNat * 2 ^ nlz x ∧ x.toNat * 2 ^ nlz x < 2 ^ 32 := by
    unfold nlz
    generalize nlzStep 0x3FFFFFFF 2 _ = r at h4
    obtain ⟨hshifted, hlong⟩ := h4
    have hlt := r.2.toNat_lt
    dsimp only
    split
    next hle =>
      have hle : r.2.toNat ≤ (0x7FFFFFFF : UInt32).toNat := UInt32.le_iff_toNat_le.mp hle
      rw [show (0x7FFFFFFF : UInt32).toNat = 2 ^ 31 - 1 by decide] at hle
      have hdouble : x.toNat * 2 ^ (r.1 + 1) = r.2.toNat * 2 := by
        rw [Nat.pow_succ, ← Nat.mul_assoc, hshifted]
      omega
    next hgt =>
      have hgt : ¬ r.2.toNat ≤ (0x7FFFFFFF : UInt32).toNat := mt UInt32.le_iff_toNat_le.mpr hgt
      rw [show (0x7FFFFFFF : UInt32).toNat = 2 ^ 31 - 1 by decide] at hgt
      rw [← hshifted]
      omega
  refine ⟨?_, hrange⟩
  have hpow : 2 ^ nlz x < 2 ^ 32 := lt_of_le_of_lt (Nat.le_mul_of_pos_left _ hpos) hrange.2
  have := (Nat.pow_lt_pow_iff_right (by decide : 1 < 2)).mp hpow
  omega

end

/-! ### Unsigned division -/

section
variable {n d : UInt64}

theorem divl_ok {d : UInt32} (hd : 0 < d.toNat) (hq : n.toNat / d.toNat < 2 ^ 32) :
    ∃ q, divl n d = some q ∧ q.toNat = n.toNat / d.toNat := by
  refine ⟨UInt32.ofNat (n.toNat / d.toNat), ?_, ?_⟩
  · refine if_neg (not_or.mpr ⟨fun h => ?_, by omega⟩)
    rw [h] at hd
    exact absurd hd (by decide)
  · rw [UInt32.toNat_ofNat', Nat.mod_eq_of_lt hq]

/-- A divisor of 32 bits: the quotient has two digits. -/
theorem udiv64_short (hd : 0 < d.toNat) (hshort : d.toNat < 2 ^ 32) :
    ∃ q, udiv64 n d = some q ∧ q.toNat = n.toNat / d.toNat := by
  have hhigh : d >>> 32 = 0 := by
    apply UInt64.toNat_inj.mp
    rw [UInt64.toNat_shiftRight]
    show d.toNat >>> 32 = 0
    rw [Nat.shiftRight_eq_div_pow, Nat.div_eq_of_lt hshort]
  have hn := n.toNat_lt
  have hn1 : ((n >>> 32).toUInt32).toNat = n.toNat / 2 ^ 32 := by
    rw [UInt64.toNat_toUInt32, UInt64.toNat_shiftRight]
    show n.toNat >>> 32 % 2 ^ 32 = _
    rw [Nat.shiftRight_eq_div_pow]
    omega
  have hn0 : n.toUInt32.toNat = n.toNat % 2 ^ 32 := UInt64.toNat_toUInt32 n
  have hd0 : d.toUInt32.toNat = d.toNat := by rw [UInt64.toNat_toUInt32, Nat.mod_eq_of_lt hshort]
  have hdne : d.toUInt32 ≠ 0 := by
    intro h
    rw [h] at hd0
    exact absurd hd0.symm (by show ¬ d.toNat = 0; omega)
  have hmod : n.toNat / 2 ^ 32 % d.toNat < d.toNat := Nat.mod_lt _ hd
  have hlow : ((1 : UInt64) <<< 32 * ((n >>> 32).toUInt32 % d.toUInt32).toUInt64 + n.toUInt32.toUInt64).toNat =
      2 ^ 32 * (n.toNat / 2 ^ 32 % d.toNat) + n.toNat % 2 ^ 32 := by
    rw [UInt64.toNat_add, UInt64.toNat_mul, UInt32.toNat_toUInt64, UInt32.toNat_toUInt64, UInt32.toNat_mod, hn1, hn0, hd0,
      show ((1 : UInt64) <<< 32).toNat = 2 ^ 32 by decide]
    omega
  have hdiv : (2 ^ 32 * (n.toNat / 2 ^ 32 % d.toNat) + n.toNat % 2 ^ 32) / d.toNat < 2 ^ 32 :=
    Division.low_lt hd (Nat.mod_lt _ (by decide))
  have hsum := Division.two_digits (2 ^ 32) (n.toNat % 2 ^ 32) (n.toNat / 2 ^ 32) hd
  rw [Nat.div_add_mod] at hsum
  obtain ⟨q, hq, hqn⟩ := divl_ok (n := (1 : UInt64) <<< 32 * ((n >>> 32).toUInt32 % d.toUInt32).toUInt64 +
    n.toUInt32.toUInt64) (d := d.toUInt32) (by omega) (by rw [hlow, hd0]; exact hdiv)
  refine ⟨q.toUInt64 + (1 : UInt64) <<< 32 * ((n >>> 32).toUInt32 / d.toUInt32).toUInt64, ?_, ?_⟩
  · unfold udiv64
    rw [if_pos hhigh]
    dsimp only
    rw [if_neg hdne, hq]
    rfl
  · have hquot : n.toNat / d.toNat ≤ n.toNat := Nat.div_le_self ..
    rw [UInt64.toNat_add, UInt64.toNat_mul, UInt32.toNat_toUInt64, UInt32.toNat_toUInt64, UInt32.toNat_div, hqn, hlow, hn1, hd0,
      show ((1 : UInt64) <<< 32).toNat = 2 ^ 32 by decide]
    rw [← hsum] at hquot ⊢
    generalize (2 ^ 32 * (n.toNat / 2 ^ 32 % d.toNat) + n.toNat % 2 ^ 32) / d.toNat = low at *
    generalize n.toNat / 2 ^ 32 / d.toNat = high at *
    omega

/-- The leading 32 bits of a divisor, which `nlz` finds, and the weight of the last of them. -/
theorem leading_bits {n d s : Nat} (hn : n < 2 ^ 64) (hd : 2 ^ 32 ≤ d) (hs : s ≤ 31) (hlo : 2 ^ 31 ≤ d / 2 ^ 32 * 2 ^ s)
    (hhi : d / 2 ^ 32 * 2 ^ s < 2 ^ 32) :
    d * 2 ^ s < 2 ^ 64 ∧ d * 2 ^ s / 2 ^ 32 = d / 2 ^ (32 - s) ∧ 2 ^ 31 ≤ d / 2 ^ (32 - s) ∧ d / 2 ^ (32 - s) < 2 ^ 32 ∧
      (n / d + 1) * (2 ^ (32 - s) - 1) ≤ d / 2 ^ (32 - s) * 2 ^ (32 - s) := by
  obtain ⟨w, hw⟩ : ∃ w, w = 2 ^ (32 - s) := ⟨_, rfl⟩
  have hprod : 2 ^ s * w = 2 ^ 32 := by
    rw [hw, ← Nat.pow_add]
    congr 1
    omega
  have hspos : 0 < 2 ^ s := by positivity
  have hwpos : 0 < w := by rw [hw]; positivity
  rw [← hw]
  have hd1 : d / 2 ^ 32 < w := by
    have hmul : 2 ^ s * (d / 2 ^ 32) < 2 ^ s * w := by
      rw [hprod, Nat.mul_comm]
      exact hhi
    exact Nat.lt_of_mul_lt_mul_left hmul
  have hdlt : d < w * 2 ^ 32 := (Nat.div_lt_iff_lt_mul (by decide)).mp hd1
  have hv : d * 2 ^ s / 2 ^ 32 = d / w := by
    rw [← hprod, Nat.mul_comm d, Nat.mul_div_mul_left _ _ hspos]
  have hvlo : 2 ^ 31 ≤ d / w := by
    refine hlo.trans ((Nat.le_div_iff_mul_le hwpos).mpr ?_)
    rw [Nat.mul_assoc, hprod]
    exact Nat.div_mul_le_self d (2 ^ 32)
  have hvw : d / w * w ≤ d := Nat.div_mul_le_self d w
  refine ⟨?_, hv, hvlo, ?_, ?_⟩
  · calc d * 2 ^ s < w * 2 ^ 32 * 2 ^ s := Nat.mul_lt_mul_of_pos_right hdlt hspos
      _ = 2 ^ 64 := by rw [Nat.mul_right_comm, Nat.mul_comm w, hprod, ← Nat.pow_add]
  · rw [Nat.div_lt_iff_lt_mul hwpos, Nat.mul_comm]
    exact hdlt
  · -- The quotient has at most 33 bits less those of `w`; with one bit cut off it may be as long as `v * 2`.
    have hquot : n / d * w < 2 ^ 33 := by
      have hle : n / d * w * 2 ^ 31 ≤ n := by
        calc n / d * w * 2 ^ 31 = n / d * (2 ^ 31 * w) := by ring
          _ ≤ n / d * (d / w * w) := Nat.mul_le_mul_left _ (Nat.mul_le_mul_right w hvlo)
          _ ≤ n / d * d := Nat.mul_le_mul_left _ hvw
          _ ≤ n := Nat.div_mul_le_self n d
      omega
    rcases Nat.lt_or_ge s 31 with hlt | hge
    · have hw4 : 4 ≤ w := by
        rw [hw]
        exact Nat.pow_le_pow_right (n := 2) (i := 2) (by decide) (by omega)
      have hq : n / d + 1 ≤ d / w := by
        have : n / d * 4 ≤ n / d * w := Nat.mul_le_mul_left _ hw4
        omega
      exact Nat.mul_le_mul hq (Nat.sub_le w 1)
    · have hw2 : w = 2 := by
        rw [hw, show 32 - s = 1 by omega]
        rfl
      subst hw2
      omega

/-- A longer divisor: the leading 32 bits of it give an estimate of the quotient. -/
theorem udiv64_long (hlong : 2 ^ 32 ≤ d.toNat) : ∃ q, udiv64 n d = some q ∧ q.toNat = n.toNat / d.toNat := by
  have hn := n.toNat_lt
  have hdlt := d.toNat_lt
  have hhigh : (d >>> 32).toNat = d.toNat / 2 ^ 32 := by
    rw [UInt64.toNat_shiftRight]
    show d.toNat >>> 32 = _
    rw [Nat.shiftRight_eq_div_pow]
  have hne : d >>> 32 ≠ 0 := by
    intro h
    rw [h] at hhigh
    have : (0 : UInt64).toNat = 0 := rfl
    omega
  unfold udiv64
  rw [if_neg hne]
  split
  next hlt =>
    refine ⟨0, rfl, ?_⟩
    rw [Nat.div_eq_of_lt (UInt64.lt_iff_toNat_lt.mp hlt)]
    rfl
  next hge =>
  have hge : d.toNat ≤ n.toNat := Nat.le_of_not_lt (mt UInt64.lt_iff_toNat_lt.mpr hge)
  have hd1 : ((d >>> 32).toUInt32).toNat = d.toNat / 2 ^ 32 := by
    rw [UInt64.toNat_toUInt32, hhigh]
    omega
  obtain ⟨hs, hlo, hhi⟩ := nlz_spec (x := (d >>> 32).toUInt32) (fun h => by
    rw [h] at hd1
    have : (0 : UInt32).toNat = 0 := rfl
    omega)
  rw [hd1] at hlo hhi
  dsimp only
  generalize nlz (d >>> 32).toUInt32 = s at hs hlo hhi ⊢
  obtain ⟨hfit, hv, hvlo, hvhi, hquot⟩ := leading_bits hn hlong hs hlo hhi
  have hvn : ((d <<< UInt64.ofNat s) >>> 32).toUInt32.toNat = d.toNat / 2 ^ (32 - s) := by
    rw [UInt64.toNat_toUInt32, UInt64.toNat_shiftRight, UInt64.toNat_shiftLeft, UInt64.toNat_ofNat']
    show (d.toNat <<< (s % 2 ^ 64 % 64) % 2 ^ 64) >>> 32 % 2 ^ 32 = _
    rw [show s % 2 ^ 64 % 64 = s by omega, Nat.shiftLeft_eq, Nat.mod_eq_of_lt hfit, Nat.shiftRight_eq_div_pow, hv,
      Nat.mod_eq_of_lt hvhi]
  have hhalf : (n >>> 1).toNat = n.toNat / 2 := by
    rw [UInt64.toNat_shiftRight]
    rfl
  obtain ⟨q, hq, hqn⟩ := divl_ok (n := n >>> 1) (d := ((d <<< UInt64.ofNat s) >>> 32).toUInt32) (by omega) (by
    rw [hhalf, hvn, Nat.div_lt_iff_lt_mul (by omega)]
    have : 2 ^ 32 * 2 ^ 31 ≤ 2 ^ 32 * (d.toNat / 2 ^ (32 - s)) := Nat.mul_le_mul_left _ hvlo
    omega)
  have hqs : (q >>> UInt32.ofNat (31 - s)).toUInt64.toNat = n.toNat / (d.toNat / 2 ^ (32 - s) * 2 ^ (32 - s)) := by
    have hw : 2 ^ (32 - s) = 2 * 2 ^ (31 - s) := by
      rw [← Nat.pow_succ']
      congr 1
      omega
    rw [UInt32.toNat_toUInt64, UInt32.toNat_shiftRight, UInt32.toNat_ofNat', hqn, hhalf, hvn,
      show (31 - s) % 2 ^ 32 % 32 = 31 - s by omega, Nat.shiftRight_eq_div_pow, Nat.div_div_eq_div_mul, Nat.div_div_eq_div_mul]
    congr 1
    rw [hw]
    ring
  obtain ⟨hlow, hhigh⟩ := Division.estimate (n := n.toNat) (d := d.toNat) (w := 2 ^ (32 - s)) rfl (by positivity)
    (by omega) hquot
  rw [hq, Option.map_some]
  refine ⟨_, rfl, ?_⟩
  rw [← hqs] at hlow hhigh
  generalize (q >>> UInt32.ofNat (31 - s)).toUInt64 = q' at *
  obtain ⟨hone, hmul, hcorrect⟩ := Division.correct (by omega) hge hlow hhigh
  have hpred : (q' - 1).toNat = q'.toNat - 1 := UInt64.toNat_sub_of_le _ _ (UInt64.le_iff_toNat_le.mpr hone)
  have hprod : ((q' - 1) * d).toNat = (q'.toNat - 1) * d.toNat := by
    rw [UInt64.toNat_mul, hpred, Nat.mod_eq_of_lt (by omega)]
  have hrem : (n - (q' - 1) * d).toNat = n.toNat - (q'.toNat - 1) * d.toNat := by
    rw [UInt64.toNat_sub_of_le _ _ (UInt64.le_iff_toNat_le.mpr (hprod ▸ hmul)), hprod]
  rw [← hcorrect, ← hrem]
  simp only [UInt64.lt_iff_toNat_lt]
  split
  · exact hpred
  · rfl

theorem udiv64_spec (n : UInt64) (hd : d ≠ 0) : ∃ q, udiv64 n d = some q ∧ q.toNat = n.toNat / d.toNat := by
  rcases Nat.lt_or_ge d.toNat (2 ^ 32) with hshort | hlong
  · refine udiv64_short (Nat.pos_of_ne_zero fun h => hd ?_) hshort
    exact UInt64.toNat_inj.mp h
  · exact udiv64_long hlong

/-- The remainder, and what is left of it in 32 bits. -/
theorem umod64_spec (n : UInt64) (hd : d ≠ 0) : ∃ r, umod64 n d = some r ∧ r.toNat = n.toNat % d.toNat % 2 ^ 32 := by
  obtain ⟨q, hq, hqn⟩ := udiv64_spec n hd
  refine ⟨(n - d * q).toUInt32, by rw [umod64, hq, Option.map_some], ?_⟩
  have hn := n.toNat_lt
  have hmul : d.toNat * (n.toNat / d.toNat) ≤ n.toNat := Nat.mul_div_le ..
  have hprod : (d * q).toNat = d.toNat * (n.toNat / d.toNat) := by
    rw [UInt64.toNat_mul, hqn, Nat.mod_eq_of_lt (by omega)]
  rw [UInt64.toNat_toUInt32, UInt64.toNat_sub_of_le _ _ (UInt64.le_iff_toNat_le.mpr (hprod ▸ hmul)), hprod,
    ← Nat.mod_def]

end

/-! ### Signed division -/

theorem toInt_cond (n : Int64) :
    n.toInt = if 2 * n.toUInt64.toNat < 2 ^ 64 then (n.toUInt64.toNat : Int) else n.toUInt64.toNat - 2 ^ 64 :=
  BitVec.toInt_eq_toNat_cond ..

theorem toInt64_cond (q : UInt64) :
    q.toInt64.toInt = if 2 * q.toNat < 2 ^ 64 then (q.toNat : Int) else q.toNat - 2 ^ 64 :=
  BitVec.toInt_eq_toNat_cond ..

/-- The absolute value as `sdiv64` computes it, which also works for the least number. -/
theorem abs_toNat (n : Int64) : (if 0 ≤ n then n.toUInt64 else -n.toUInt64).toNat = n.toInt.natAbs := by
  have hcond := toInt_cond n
  have hlt := n.toUInt64.toNat_lt
  have hzero : (0 : Int64).toInt = 0 := rfl
  split
  next h =>
    rw [Int64.le_iff_toInt_le, hzero] at h
    split at hcond <;> omega
  next h =>
    rw [Int64.le_iff_toInt_le, hzero] at h
    rw [UInt64.toNat_neg]
    unfold UInt64.size
    split at hcond <;> omega

/-- Division toward zero, from the absolute values. -/
theorem tdiv_eq (a b : Int) :
    a.tdiv b = if decide (a < 0) = decide (b < 0) then ((a.natAbs / b.natAbs : Nat) : Int) else -((a.natAbs / b.natAbs : Nat) : Int) := by
  obtain ⟨m, rfl | rfl⟩ := a.eq_nat_or_neg <;> obtain ⟨n, rfl | rfl⟩ := b.eq_nat_or_neg
  · rw [if_pos (by rw [decide_eq_decide]; omega), Int.natAbs_natCast, Int.natAbs_natCast, Int.ofNat_tdiv]
  · rcases Nat.eq_zero_or_pos n with rfl | hn
    · simp
    · rw [if_neg (by rw [decide_eq_decide]; omega), Int.natAbs_natCast, Int.natAbs_neg, Int.natAbs_natCast, Int.ofNat_tdiv, Int.tdiv_neg]
  · rcases Nat.eq_zero_or_pos m with rfl | hm
    · simp
    · rw [if_neg (by rw [decide_eq_decide]; omega), Int.natAbs_natCast, Int.natAbs_neg, Int.natAbs_natCast, Int.ofNat_tdiv, Int.neg_tdiv]
  · rcases Nat.eq_zero_or_pos m with rfl | hm
    · simp
    · rcases Nat.eq_zero_or_pos n with rfl | hn
      · simp
      · rw [if_pos (by rw [decide_eq_decide]; omega), Int.natAbs_neg, Int.natAbs_neg, Int.natAbs_natCast, Int.natAbs_natCast, Int.ofNat_tdiv,
          Int.neg_tdiv, Int.tdiv_neg, Int.neg_neg]

section
variable {n d : Int64}

theorem sdiv64_spec (hd : d ≠ 0) (hmin : ¬ (n = Int64.minValue ∧ d = -1)) :
    ∃ q, sdiv64 n d = some q ∧ q.toInt = n.toInt.tdiv d.toInt := by
  have hdabs := abs_toNat d
  have hnabs := abs_toNat n
  have hdpos : 0 < d.toInt.natAbs := by
    refine Int.natAbs_pos.mpr fun h => hd (Int64.toInt_inj.mp ?_)
    rw [h]
    rfl
  obtain ⟨q, hq, hqn⟩ := udiv64_spec (if 0 ≤ n then n.toUInt64 else -n.toUInt64)
    (d := if 0 ≤ d then d.toUInt64 else -d.toUInt64) (fun h => by
      rw [h] at hdabs
      have : (0 : UInt64).toNat = 0 := rfl
      omega)
  rw [hdabs, hnabs] at hqn
  refine ⟨_, by rw [sdiv64, hq, Option.map_some], ?_⟩
  have hnlo := n.le_toInt
  have hnhi := n.toInt_lt
  have hle : q.toNat ≤ 2 ^ 63 := by
    have := Nat.div_le_self n.toInt.natAbs d.toInt.natAbs
    omega
  have hcond := toInt64_cond q
  have hzero : (0 : Int64).toInt = 0 := rfl
  rw [tdiv_eq, ← hqn]
  simp only [Int64.lt_iff_toInt_lt, hzero]
  split
  next hsign =>
    -- Only the quotient of the least number by -1 is too large, and by 1 the signs differ.
    have hlt : q.toNat < 2 ^ 63 := by
      rcases Nat.lt_or_ge d.toInt.natAbs 2 with hsmall | hlarge
      · have hone : d.toInt.natAbs = 1 := by omega
        rw [hone, Nat.div_one] at hqn
        by_contra hbig
        have hn : n.toInt = -2 ^ 63 := by omega
        have hneg : d.toInt = -1 := by
          grind
        refine hmin ⟨Int64.toInt_inj.mp ?_, Int64.toInt_inj.mp hneg⟩
        rw [hn, Int64.toInt_minValue]
      · have : n.toInt.natAbs / d.toInt.natAbs ≤ n.toInt.natAbs / 2 := Nat.div_le_div_left hlarge (by decide)
        omega
    split at hcond <;> omega
  next =>
    rw [Int64.toInt_neg]
    grind

/-- The remainder, and what is left of it in 32 bits. -/
theorem smod64_spec (hd : d ≠ 0) (hmin : ¬ (n = Int64.minValue ∧ d = -1)) :
    ∃ r, smod64 n d = some r ∧ r.toInt = (n.toInt.tmod d.toInt).bmod (2 ^ 32) := by
  obtain ⟨q, hq, hqn⟩ := sdiv64_spec hd hmin
  refine ⟨(n - d * q).toInt32, by rw [smod64, hq, Option.map_some], ?_⟩
  rw [Int64.toInt_toInt32, Int64.toInt_sub, Int64.toInt_mul, hqn, Int.sub_bmod_bmod,
    Int.bmod_bmod_of_dvd (Nat.pow_dvd_pow 2 (by decide)), Int.tmod_def]

end

/-! ### The routines -/

/-- The quotients are right and no `DIVL` traps; the remainders are right exactly where they fit in 32 bits, with a sign
in the signed case. -/
theorem division_routines (n d : UInt64) (m e : Int64) :
    (d ≠ 0 → ∃ q r, udivdi3 n d = some q ∧ umoddi3 n d = some r ∧ q.toNat = n.toNat / d.toNat ∧
      (n.toNat % d.toNat < 2 ^ 32 ↔ q.toNat * d.toNat + r.toNat = n.toNat ∧ r.toNat < d.toNat)) ∧
    (e ≠ 0 → ¬ (m = Int64.minValue ∧ e = -1) → ∃ q r, divdi3 m e = some q ∧ moddi3 m e = some r ∧
      q.toInt = m.toInt.tdiv e.toInt ∧
      (-2 ^ 31 ≤ m.toInt.tmod e.toInt ∧ m.toInt.tmod e.toInt < 2 ^ 31 ↔ r.toInt = m.toInt - e.toInt * q.toInt)) := by
  refine ⟨fun hd => ?_, fun hd hmin => ?_⟩
  · obtain ⟨q, hq, hqn⟩ := udiv64_spec n hd
    obtain ⟨r, hr, hrn⟩ := umod64_spec n hd
    refine ⟨q, r.toUInt64, hq, by rw [umoddi3, hr, Option.map_some], hqn, ?_⟩
    have hpos : 0 < d.toNat := Nat.pos_of_ne_zero fun h => hd (UInt64.toNat_inj.mp h)
    have hdiv := Nat.div_add_mod n.toNat d.toNat
    rw [UInt32.toNat_toUInt64, hqn, Nat.mul_comm]
    constructor
    · intro hsmall
      rw [hrn, Nat.mod_eq_of_lt hsmall]
      exact ⟨hdiv, Nat.mod_lt _ hpos⟩
    · intro hright
      have hrem : r.toNat = n.toNat % d.toNat := by omega
      exact hrem ▸ r.toNat_lt
  · obtain ⟨q, hq, hqn⟩ := sdiv64_spec hd hmin
    obtain ⟨r, hr, hrn⟩ := smod64_spec hd hmin
    refine ⟨q, r.toInt64, hq, by rw [moddi3, hr, Option.map_some], hqn, ?_⟩
    rw [Int32.toInt_toInt64, hqn, ← Int.tmod_def]
    constructor
    · intro hfits
      rw [hrn, Int.bmod_eq_of_le (by omega) (by omega)]
    · intro hright
      rw [← hright]
      exact ⟨r.le_toInt, r.toInt_lt⟩

/-- At two divisions of which the first takes the long way. -/
theorem division_routines_mixed :
    (∃ q r, udivdi3 (2 ^ 40 + 7) (2 ^ 33) = some q ∧ umoddi3 (2 ^ 40 + 7) (2 ^ 33) = some r ∧
      q.toNat * 2 ^ 33 + r.toNat = 2 ^ 40 + 7) ∧
    ∃ q r, divdi3 (-7) 2 = some q ∧ moddi3 (-7) 2 = some r ∧ q.toInt = -3 ∧ r.toInt = -1 := by
  obtain ⟨hu, hs⟩ := division_routines (2 ^ 40 + 7) (2 ^ 33) (-7) 2
  obtain ⟨q, r, hq, hr, -, hqr⟩ := hu (by decide)
  obtain ⟨q', r', hq', hr', hqn, hrn⟩ := hs (by decide) (by decide)
  have hq3 : q'.toInt = -3 := hqn.trans (by decide)
  refine ⟨⟨q, r, hq, hr, (hqr.mp (by decide)).1⟩, q', r', hq', hr', hq3, ?_⟩
  rw [hrn.mp (by decide), hq3]
  decide

/-- The remainder of 2^32 by 2^33 is 2^32, and `__umoddi3` returns 0; that of 2^31 by 2^32 is positive, and `__moddi3`
returns a negative number. -/
theorem remainders_cut_off :
    udivdi3 (2 ^ 32) (2 ^ 33) = some 0 ∧ umoddi3 (2 ^ 32) (2 ^ 33) = some 0 ∧
      divdi3 (2 ^ 31) (2 ^ 32) = some 0 ∧ moddi3 (2 ^ 31) (2 ^ 32) = some (-2 ^ 31) := by
  decide +kernel

end Pintos.Kernel
