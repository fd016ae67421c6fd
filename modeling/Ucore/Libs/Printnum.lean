import Ucore.Foundation.Numeral
import Ucore.Libs.Printfmt

/-!
# What `printnum` prints
-/

namespace Ucore

open Foundation Printing

/-- The character of a digit -/
def digitChar (digit : ℕ) : BitVec 32 :=
  BitVec.ofNat 32 (if digit < 10 then 48 + digit else 87 + digit)

theorem int32_sub (value other : ℤ) : int32 (int32 value - other) = int32 (value - other) :=
  Int.bmod_sub_bmod

theorem int32_eq {value : ℤ} (hlower : -2 ^ 31 ≤ value) (hupper : value < 2 ^ 31) :
    int32 value = value := Int.bmod_eq_of_le (by omega) (by omega)

theorem padding_eq (ch : BitVec 32) (count : ℕ) :
    padding ch count = putAll (List.replicate count ch) := by
  induction count with
  | zero => rfl
  | succ count ih => rw [padding, ih, List.replicate_succ, putAll]

theorem get_hexDigits {digit : ℕ} (h : digit < 16) :
    (do putch ((← hexDigits.get digit).setWidth 32)) = putAll [digitChar digit] := by
  interval_cases digit <;> rfl

variable {base padc : BitVec 32} {num : BitVec 64} {width : ℤ}

theorem setWidth_toNat (base : BitVec 32) : (base.setWidth 64).toNat = base.toNat := by
  rw [BitVec.toNat_setWidth]
  exact Nat.mod_eq_of_lt (base.isLt.trans (by decide))

theorem doDiv_quotient (num : BitVec 64) (base : BitVec 32) :
    (doDiv num base).1.toNat = num.toNat / base.toNat := by
  rw [doDiv, BitVec.toNat_udiv, setWidth_toNat]

/-- The remainder fits the narrower type. -/
theorem doDiv_remainder (num : BitVec 64) (hbase : 0 < base.toNat) :
    (doDiv num base).2.toNat = num.toNat % base.toNat := by
  have hlt : num.toNat % base.toNat < 2 ^ 32 := (Nat.mod_lt _ hbase).trans base.isLt
  rw [doDiv, BitVec.toNat_setWidth, BitVec.toNat_umod, setWidth_toNat, Nat.mod_eq_of_lt hlt]

/-- The padding that is put before `count` digits -/
def pads (padc : BitVec 32) (width : ℤ) (count : ℕ) : List (BitVec 32) :=
  List.replicate (int32 (width - count)).toNat padc

theorem pads_succ (padc : BitVec 32) (width : ℤ) (count : ℕ) :
    pads padc (int32 (width - 1)) count = pads padc width (count + 1) := by
  have hwidth : width - 1 - count = width - (count + 1 : ℕ) := by
    rw [Nat.cast_add, Nat.cast_one]
    ring
  rw [pads, int32_sub, hwidth, pads]

/-- The recursion goes once for each digit and then puts the padding and the digits. -/
theorem printnum_eq {fuel : ℕ} (hbase : 2 ≤ base.toNat) (hhex : base.toNat ≤ 16)
    (hfuel : (numeral base.toNat num.toNat).length ≤ fuel) :
    printnum base padc fuel num width =
      putAll (pads padc width (numeral base.toNat num.toNat).length ++
        (numeral base.toNat num.toNat).map digitChar) := by
  induction fuel generalizing num width with
  | zero =>
    have hnil := List.eq_nil_of_length_eq_zero (Nat.le_zero.mp hfuel)
    exact absurd hnil (numeral_ne_nil _ _)
  | succ fuel ih =>
    have hremainder := doDiv_remainder num (show 0 < base.toNat by omega)
    have hdigit : (doDiv num base).2.toNat < 16 := by
      rw [hremainder]
      exact (Nat.mod_lt _ (by omega)).trans_le hhex
    have hcompare : num ≥ base.setWidth 64 ↔ base.toNat ≤ num.toNat := by
      rw [ge_iff_le, BitVec.le_def, setWidth_toNat]
    rw [printnum]
    dsimp only
    rw [get_hexDigits hdigit, hremainder]
    by_cases hlast : num.toNat < base.toNat
    · rw [if_neg (mt hcompare.mp (Nat.not_le.mpr hlast)), padding_eq, numeral_of_lt hlast, Nat.mod_eq_of_lt hlast, putAll_append]
      rfl
    · have hmore := Nat.not_lt.mp hlast
      rw [numeral_of_le hbase hmore, List.length_append, List.length_singleton,
        ← doDiv_quotient num base] at hfuel ⊢
      rw [if_pos (hcompare.mpr hmore), ih (Nat.le_of_succ_le_succ hfuel), pads_succ,
        List.map_append, ← List.append_assoc, putAll_append _ (List.map digitChar [_])]
      rfl

/-- `printnum` pads the canonical numeral to its width. -/
theorem printnum_numeral (num : BitVec 64) (base padc width : BitVec 32) (hbase : 2 ≤ base.toNat)
    (hhex : base.toNat ≤ 16) (hwidth : -1 ≤ width.toInt) :
    ∃ digits : List ℕ, digits ≠ [] ∧ (∀ digit ∈ digits, digit < base.toNat) ∧
      (digits.head? = some 0 → digits = [0]) ∧ positional base.toNat digits = num.toNat ∧
      ∀ fuel, 64 ≤ fuel → printnum base padc fuel num width.toInt =
        putAll (List.replicate (width.toInt - digits.length).toNat padc ++
          digits.map digitChar) := by
  have hlength : (numeral base.toNat num.toNat).length ≤ 64 :=
    numeral_length_le hbase (num.isLt.trans_le (Nat.pow_le_pow_left hbase 64)) (by decide)
  refine ⟨numeral base.toNat num.toNat, numeral_ne_nil _ _, fun _ ↦ lt_of_mem_numeral hbase,
    numeral_head, positional_numeral _ _, fun fuel hfuel ↦ ?_⟩
  have hupper := BitVec.toInt_lt (x := width)
  have hpads : int32 (width.toInt - (numeral base.toNat num.toNat).length) =
      width.toInt - (numeral base.toNat num.toNat).length := int32_eq (by omega) (by omega)
  rw [printnum_eq hbase hhex (hlength.trans hfuel), pads, hpads]

theorem printnum_numeral_sample :
    ∃ digits : List ℕ, digits ≠ [] ∧ (∀ digit ∈ digits, digit < 16) ∧
      (digits.head? = some 0 → digits = [0]) ∧ positional 16 digits = 255 ∧
      ∀ fuel, 64 ≤ fuel → printnum 16 48 fuel 255 (4 : BitVec 32).toInt =
        putAll (List.replicate ((4 : BitVec 32).toInt - digits.length).toNat 48 ++
          digits.map digitChar) :=
  printnum_numeral 255 16 48 4 (by decide) (by decide) (by decide)

end Ucore
