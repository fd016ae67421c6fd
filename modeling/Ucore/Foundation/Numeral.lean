import Mathlib.Data.Nat.Digits.Lemmas

/-!
# Numerals

Digits are written with the most significant one first.
-/

namespace Ucore.Foundation

/-- The number that digits stand for. -/
def positional (base : ℕ) (digits : List ℕ) : ℕ := Nat.ofDigits base digits.reverse

/-- The canonical numeral of a number, which has a zero in front only for 0. -/
def numeral (base num : ℕ) : List ℕ := if num = 0 then [0] else (Nat.digits base num).reverse

variable {base num digit : ℕ} {digits : List ℕ}

@[simp]
theorem positional_nil : positional base [] = 0 := rfl

/-- Another digit makes the number `base` times as large. -/
theorem positional_append (digits : List ℕ) (digit : ℕ) :
    positional base (digits ++ [digit]) = positional base digits * base + digit := by
  rw [positional, List.reverse_append, List.reverse_singleton, List.singleton_append,
    Nat.ofDigits_cons, positional, Nat.mul_comm, Nat.add_comm]

theorem numeral_of_lt (h : num < base) : numeral base num = [num] := by
  unfold numeral
  split_ifs with hzero
  · rw [hzero]
  · rw [Nat.digits_of_lt base num hzero h, List.reverse_singleton]

theorem numeral_of_le (hbase : 1 < base) (h : base ≤ num) :
    numeral base num = numeral base (num / base) ++ [num % base] := by
  have hquotient : num / base ≠ 0 := (Nat.div_pos h (by omega)).ne'
  have hnum : num ≠ 0 := by omega
  rw [numeral, if_neg hnum, numeral, if_neg hquotient, Nat.digits_eq_cons_digits_div hbase hnum,
    List.reverse_cons]

theorem numeral_ne_nil (base num : ℕ) : numeral base num ≠ [] := by
  unfold numeral
  split_ifs with hzero
  · exact List.cons_ne_nil _ _
  · rw [Ne, List.reverse_eq_nil_iff]
    exact Nat.digits_ne_nil_iff_ne_zero.mpr hzero

theorem lt_of_mem_numeral (hbase : 1 < base) (h : digit ∈ numeral base num) : digit < base := by
  unfold numeral at h
  split_ifs at h
  · rw [List.mem_singleton.mp h]
    omega
  · exact Nat.digits_lt_base hbase (List.mem_reverse.mp h)

theorem positional_numeral (base num : ℕ) : positional base (numeral base num) = num := by
  unfold numeral
  split_ifs with hzero
  · rw [hzero]
    exact Nat.ofDigits_singleton
  · rw [positional, List.reverse_reverse, Nat.ofDigits_digits]

theorem head_numeral_ne_zero (h : num ≠ 0) : (numeral base num).head (numeral_ne_nil base num) ≠ 0 := by
  have hdigits : numeral base num = (Nat.digits base num).reverse := if_neg h
  simp only [hdigits, List.head_reverse]
  exact Nat.getLast_digit_ne_zero base h

/-- Only 0 has a zero in front. -/
theorem numeral_head (hhead : (numeral base num).head? = some 0) : numeral base num = [0] := by
  by_cases hnum : num = 0
  · rw [hnum]
    rfl
  · rw [List.head?_eq_some_head (numeral_ne_nil base num)] at hhead
    exact absurd (Option.some.inj hhead) (head_numeral_ne_zero hnum)

theorem numeral_length_le {count : ℕ} (hbase : 1 < base) (hnum : num < base ^ count)
    (hcount : 0 < count) : (numeral base num).length ≤ count := by
  unfold numeral
  split_ifs
  · exact hcount
  · rw [List.length_reverse]
    exact (Nat.digits_length_le_iff hbase num).mpr hnum

end Ucore.Foundation
