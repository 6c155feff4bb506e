import Mathlib

/-! Integers as text (`lib/stdio.c`).

`format_integer` collects the digits from the last one on and puts them out in reverse, with what the flags, the
width and the precision of the conversion add. The headers of archives use one conversion only: octal,
filled up with zeros to the width. -/
namespace Pintos.Stdio

/-- `struct printf_conversion`, without the type of the argument. -/
structure Conversion where
  minus : Bool
  plus : Bool
  space : Bool
  pound : Bool
  zero : Bool
  group : Bool
  width : Nat
  precision : Option Nat

/-- `struct integer_base`. -/
structure IntegerBase where
  base : Nat
  digits : List UInt8
  x : Option UInt8
  group : Nat

def baseO : IntegerBase := ⟨8, "01234567".toUTF8.toList, none, 3⟩

/-- The digits, last one first. A 64-bit value has no more than 64 of them. -/
def digitLoop (b : IntegerBase) (group : Bool) : Nat → Nat → Nat → List UInt8
  | 0, _, _ => []
  | rounds + 1, digitCnt, value =>
    if value = 0 then []
    else
      let digit := b.digits.getD (value % b.base) 0
      let rest := digitLoop b group rounds (digitCnt + 1) (value / b.base)
      -- a comma before each group but the first
      if group ∧ digitCnt > 0 ∧ digitCnt % b.group = 0 then 0x2c :: digit :: rest else digit :: rest

/-- The sign character, if any. -/
def signOf (isSigned negative : Bool) (c : Conversion) : Option UInt8 :=
  if isSigned then
    if c.plus then some (if negative then 0x2d else 0x2b)
    else if c.space then some (if negative then 0x2d else 0x20)
    else if negative then some 0x2d
    else none
  else none

/-- The contents of `buf`: the digits, and zeros up to the precision as far as there is room. -/
def bufOf (value : Nat) (b : IntegerBase) (c : Conversion) : List UInt8 :=
  let buf := digitLoop b c.group 64 0 value
  let buf := buf ++ List.replicate (min (c.precision.getD 1) 63 - buf.length) 0x30
  if c.pound ∧ b.base = 8 ∧ buf.getLast? ≠ some 0x30 then buf ++ [0x30] else buf

/-- `format_integer`: the characters in the order of their output. -/
def formatInteger (value : Nat) (isSigned negative : Bool) (b : IntegerBase) (c : Conversion) : List UInt8 :=
  let sign := signOf isSigned negative c
  let x := if c.pound ∧ value ≠ 0 then b.x else none
  let buf := bufOf value b c
  let padCnt := c.width - buf.length - (if x.isSome then 2 else 0) - sign.toList.length
  (if ¬c.minus ∧ ¬c.zero then List.replicate padCnt 0x20 else []) ++ sign.toList ++
    (x.map fun x => [0x30, x]).getD [] ++ (if c.zero then List.replicate padCnt 0x30 else []) ++ buf.reverse ++
    if c.minus then List.replicate padCnt 0x20 else []

/-- The conversion `%0<width>o` of an `unsigned`. -/
def octal (width value : Nat) : List UInt8 :=
  formatInteger value false false baseO ⟨false, false, false, false, true, false, width, none⟩

/-! ### Octal numbers -/

/-- The character of an octal digit. -/
def octalDigit (d : Nat) : UInt8 := UInt8.ofNat (0x30 + d)

theorem digitLoop_octal (rounds digitCnt value : Nat) (h : value < 8 ^ rounds) :
    digitLoop baseO false rounds digitCnt value = (Nat.digits 8 value).map octalDigit := by
  induction rounds generalizing digitCnt value with
  | zero =>
    rw [Nat.lt_one_iff.mp h]
    rfl
  | succ rounds ih =>
    rw [digitLoop]
    split
    · rename_i h0
      rw [h0]
      rfl
    · rename_i h0
      have hdigit : baseO.digits.getD (value % 8) 0 = octalDigit (value % 8) := by
        have hlt : value % 8 < 8 := Nat.mod_lt _ (by decide)
        generalize value % 8 = d at hlt
        interval_cases d <;> decide +kernel
      rw [Nat.digits_def' (by decide) (by omega), List.map_cons, ← ih (digitCnt + 1) (value / 8) (by omega), ← hdigit]
      simp [baseO]

/-- The digits of a value from the last one on, at least one of them. -/
def octalDigits (value : Nat) : List Nat := if value = 0 then [0] else Nat.digits 8 value

theorem octalDigits_length {width value : Nat} (hpos : 0 < width) (h : value < 8 ^ width) :
    (octalDigits value).length ≤ width := by
  unfold octalDigits
  split
  · exact hpos
  · exact (Nat.digits_length_le_iff (by decide) value).mpr h

theorem octalDigits_value (value : Nat) : Nat.ofDigits 8 (octalDigits value) = value := by
  unfold octalDigits
  split
  · rename_i h0
    rw [h0]
    rfl
  · exact Nat.ofDigits_digits 8 value

theorem bufOf_octal {value width : Nat} (hmax : value < 2 ^ 64) :
    bufOf value baseO ⟨false, false, false, false, true, false, width, none⟩ =
      (octalDigits value).map octalDigit := by
  have hloop := digitLoop_octal 64 0 value (hmax.trans (by decide))
  simp only [bufOf, hloop, Bool.false_eq_true, false_and, if_false]
  unfold octalDigits
  split
  · rename_i h0
    rw [h0]
    decide
  · rename_i h0
    have hne : 0 < (Nat.digits 8 value).length := List.length_pos_of_ne_nil (Nat.digits_ne_nil_iff_ne_zero.mpr h0)
    have hnone : min ((none : Option Nat).getD 1) 63 - ((Nat.digits 8 value).map octalDigit).length = 0 := by
      grind
    rw [hnone, List.replicate_zero, List.append_nil]

/-- The digits of an octal field of a header: as many as its width, with the value. -/
theorem octal_digits {width value : Nat} (hpos : 0 < width) (h : value < 8 ^ width) (hmax : value < 2 ^ 64) :
    ∃ ds : List Nat, octal width value = ds.map octalDigit ∧ ds.length = width ∧ (∀ d ∈ ds, d < 8) ∧
      ds.foldl (fun v d => d + v * 8) 0 = value := by
  have hlen := octalDigits_length hpos h
  refine ⟨List.replicate (width - (octalDigits value).length) 0 ++ (octalDigits value).reverse, ?_, ?_, ?_, ?_⟩
  · simp only [octal, formatInteger, bufOf_octal hmax, signOf]
    simp [octalDigit]
  · grind
  · intro d hd
    rcases List.mem_append.mp hd with hd | hd
    · grind
    · rw [List.mem_reverse, octalDigits] at hd
      split at hd
      · grind
      · exact Nat.digits_lt_base (by decide) hd
  · have hzeros : ∀ n, (List.replicate n 0).foldl (fun v d => d + v * 8) 0 = 0 := by
      intro n
      induction n with
      | zero => rfl
      | succ n ih => exact ih
    rw [List.foldl_append, hzeros, List.foldl_reverse]
    have hvalue := octalDigits_value value
    rw [Nat.ofDigits_eq_foldr] at hvalue
    simpa [Nat.mul_comm] using hvalue

end Pintos.Stdio
