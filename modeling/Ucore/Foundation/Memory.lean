import Mathlib.Algebra.Group.Int.Defs
import Mathlib.Algebra.Group.Nat.Defs
import Mathlib.Data.Set.Basic

/-!
# Memory as doublewords

Memory is seen through its 8-byte aligned doublewords, each at the address of its first byte. A
pointer fills a doubleword; an `int` field that starts one fills its low half and leaves the padding
in the high half alone.
-/

namespace Ucore.Foundation

/-- The doubleword at each 8-byte aligned address. -/
abbrev Memory := ℕ → BitVec 64

namespace Memory

variable {memory memory' : Memory} {address other : ℕ} {value : BitVec 64} {word : ℤ}
  {cells : Set ℕ}

def write (memory : Memory) (address : ℕ) (value : BitVec 64) : Memory :=
  fun other ↦ if other = address then value else memory other

def readPointer (memory : Memory) (address : ℕ) : ℕ := (memory address).toNat

def writePointer (memory : Memory) (address value : ℕ) : Memory :=
  memory.write address (BitVec.ofNat 64 value)

def readInt (memory : Memory) (address : ℕ) : ℤ := ((memory address).setWidth 32).toInt

def writeInt (memory : Memory) (address : ℕ) (word : ℤ) : Memory :=
  memory.write address
    ((memory address).extractLsb' 32 32 ++ BitVec.ofInt 32 word)

/-- Set all doublewords of a stretch of memory. -/
def fill (memory : Memory) (start size : ℕ) (value : BitVec 64) : Memory :=
  fun other ↦ if start ≤ other ∧ other < start + size then value else memory other

@[simp]
theorem write_same : memory.write address value address = value := if_pos rfl

theorem write_of_ne (h : other ≠ address) : memory.write address value other = memory other :=
  if_neg h

theorem write_write {value' : BitVec 64} :
    (memory.write address value).write address value' = memory.write address value' := by
  funext other
  by_cases h : other = address
  · rw [h, write_same, write_same]
  · rw [write_of_ne h, write_of_ne h, write_of_ne h]

theorem fill_inside {start size : ℕ} (hlower : start ≤ other) (hupper : other < start + size) :
    memory.fill start size value other = value := if_pos ⟨hlower, hupper⟩

theorem fill_outside {start size : ℕ} (h : ¬ (start ≤ other ∧ other < start + size)) :
    memory.fill start size value other = memory other := if_neg h

theorem fill_congr {start size : ℕ} (h : ∀ other, ¬ (start ≤ other ∧ other < start + size) →
      memory' other = memory other) : memory'.fill start size value = memory.fill start size value := by
  funext other
  by_cases hin : start ≤ other ∧ other < start + size
  · rw [fill_inside hin.1 hin.2, fill_inside hin.1 hin.2]
  · rw [fill_outside hin, fill_outside hin, h other hin]

theorem writePointer_of_ne {pointer : ℕ} (h : other ≠ address) :
    memory.writePointer address pointer other = memory other := if_neg h

theorem writeInt_of_ne (h : other ≠ address) :
    memory.writeInt address word other = memory other := if_neg h

theorem readPointer_writePointer {pointer : ℕ} (h : pointer < 2 ^ 64) :
    (memory.writePointer address pointer).readPointer address = pointer := by
  simp only [readPointer, writePointer, write_same, BitVec.toNat_ofNat]
  exact Nat.mod_eq_of_lt h

theorem readInt_writeInt (hlower : -2 ^ 31 ≤ word) (hupper : word < 2 ^ 31) :
    (memory.writeInt address word).readInt address = word := by
  have hlow : (memory.writeInt address word address).setWidth 32 = BitVec.ofInt 32 word := by
    simp only [writeInt, write_same]
    rw [BitVec.setWidth_append]
    simp
  rw [readInt, hlow, BitVec.toInt_ofInt]
  exact Int.bmod_eq_of_le (by omega) (by omega)

theorem readPointer_lt : memory.readPointer address < 2 ^ 64 := (memory address).isLt

theorem readInt_congr (h : memory' address = memory address) :
    memory'.readInt address = memory.readInt address := by
  rw [readInt, readInt, h]

theorem readPointer_congr (h : memory' address = memory address) :
    memory'.readPointer address = memory.readPointer address := by
  rw [readPointer, readPointer, h]

end Memory

end Ucore.Foundation
