import Mathlib.Data.Nat.Notation
import Mathlib.Tactic.Ring

/-!
# Faults and machine words

A modelled C function either returns or ends in a `Fault`. `unsigned int` values are naturals that
are reduced where the source stores them; flag words are `BitVec 64` and counters `BitVec 32`.
-/

namespace Ucore

/-- Why a call does not return: a failed `assert` or a `panic`, or a loop that outlives its fuel. -/
inductive Fault where
  | panic
  | outOfFuel
deriving DecidableEq, Repr

/-- `assert(x)` of `kern/debug/assert.h`: panics when the condition is false. -/
def assert (condition : Prop) [Decidable condition] : Except Fault Unit :=
  if condition then .ok () else .error .panic

theorem assert_of_true {condition : Prop} [Decidable condition] (h : condition) :
    assert condition = .ok () := if_pos h

section Bind

variable {α β : Type} {value : α} {result : β} {fault : Fault} {computation : Except Fault α}
  {rest : α → Except Fault β}

@[simp]
theorem ok_bind : (Except.ok value >>= rest) = rest value := rfl

@[simp]
theorem error_bind : ((Except.error fault : Except Fault α) >>= rest) = .error fault := rfl

/-- A sequence returns when both of its parts do. -/
theorem bind_eq_ok : (computation >>= rest) = .ok result ↔
    ∃ value, computation = .ok value ∧ rest value = .ok result := by
  cases computation <;> simp

theorem bind_eq_error {fault : Fault} : (computation >>= rest) = .error fault ↔
    computation = .error fault ∨ ∃ value, computation = .ok value ∧ rest value = .error fault := by
  cases computation <;> simp

theorem toOption_eq_some : computation.toOption = some value ↔ computation = .ok value := by
  cases computation <;> simp [Except.toOption]

end Bind

theorem assert_eq_ok {condition : Prop} [Decidable condition] {value : Unit} :
    assert condition = .ok value ↔ condition := by
  by_cases h : condition <;> simp [assert, h]

/-- The value kept when `value` is stored in an `unsigned int`. -/
def uint32 (value : ℕ) : ℕ := value % 2 ^ 32

theorem uint32_eq {value : ℕ} (h : value < 2 ^ 32) : uint32 value = value := Nat.mod_eq_of_lt h

theorem uint32_lt (value : ℕ) : uint32 value < 2 ^ 32 := Nat.mod_lt _ (by decide)

/-- A counter of type `int` is exact up to the largest `int` and wraps behind it. -/
theorem toInt_add_ofNat_iff {counter : BitVec 32} {count : ℕ} :
    (counter + BitVec.ofNat 32 count).toInt = counter.toInt + count ↔
      counter.toInt + count < 2 ^ 31 := by
  have hupper : (counter + BitVec.ofNat 32 count).toInt < 2 ^ 31 := BitVec.toInt_lt
  have hlower : -2 ^ 31 ≤ counter.toInt := BitVec.le_toInt counter
  constructor
  · intro hexact
    rwa [hexact] at hupper
  · intro hsmall
    rw [BitVec.toInt_add, BitVec.toInt_ofNat', Int.add_bmod_bmod]
    exact Int.bmod_eq_of_le_mul_two (by omega) (by omega)

/-! ## Error codes (`libs/error.h`) -/

def E_NO_MEM : ℤ := 4
def E_NO_FREE_PROC : ℤ := 5

/-! ## Bits of a word (`libs/atomic.h`) -/

def setBit (nr : ℕ) (word : BitVec 64) : BitVec 64 := word ||| (1#64 <<< nr)

def clearBit (nr : ℕ) (word : BitVec 64) : BitVec 64 := word &&& ~~~(1#64 <<< nr)

def testBit (nr : ℕ) (word : BitVec 64) : Bool := (word >>> nr) &&& 1#64 != 0#64

theorem testBit_eq_getLsbD (nr : ℕ) (word : BitVec 64) : testBit nr word = word.getLsbD nr := by
  unfold testBit
  rw [BitVec.and_one_eq_setWidth_ofBool_getLsbD, BitVec.getLsbD_ushiftRight, Nat.add_zero]
  cases word.getLsbD nr <;> decide

theorem getLsbD_shifted_one {nr index : ℕ} (h : index < 64) :
    (1#64 <<< nr).getLsbD index = decide (index = nr) := by
  simp only [BitVec.getLsbD_shiftLeft, BitVec.getLsbD_one, h]
  by_cases heq : index = nr
  · simp [heq]
  · have hsub : ¬ (nr ≤ index ∧ index - nr = 0) := by omega
    simp only [heq, decide_false, decide_true, Bool.true_and]
    by_contra hne
    simp at hne
    omega

theorem testBit_setBit {nr index : ℕ} (h : index < 64) (word : BitVec 64) :
    testBit index (setBit nr word) = (testBit index word || decide (index = nr)) := by
  simp only [testBit_eq_getLsbD, setBit, BitVec.getLsbD_or, getLsbD_shifted_one h]

theorem testBit_clearBit {nr index : ℕ} (h : index < 64) (word : BitVec 64) :
    testBit index (clearBit nr word) = (testBit index word && !decide (index = nr)) := by
  simp only [testBit_eq_getLsbD, clearBit, BitVec.getLsbD_and, BitVec.getLsbD_not,
    getLsbD_shifted_one h, h, decide_true, Bool.true_and]

@[simp]
theorem testBit_zero (nr : ℕ) : testBit nr 0#64 = false := by
  simp [testBit_eq_getLsbD]

end Ucore
