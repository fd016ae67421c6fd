import Mathlib.Data.Finset.Card
import Mathlib.Algebra.Group.Basic
import Mathlib.Data.Set.Basic

/-!
# Reference counts

Slots hold references to targets. A table of counters is balanced when every owned target counts the
slots that refer to it and the slots only refer to owned targets. Assigning one slot changes the
count of the old target by minus one and that of the new one by plus one; a target that loses its
last reference may leave the books.
-/

namespace Ucore.Foundation

variable {Slot Target : Type} [DecidableEq Slot] [DecidableEq Target]

/-- How many slots hold a reference to the target. -/
def references (slots : Finset Slot) (holds : Slot → Option Target) (target : Target) : ℕ :=
  (slots.filter fun slot ↦ holds slot = some target).card

variable {slots : Finset Slot} {holds holds' : Slot → Option Target} {target : Target} {slot : Slot}
  {value : Option Target}

omit [DecidableEq Slot] in
theorem references_congr (h : ∀ slot ∈ slots, holds' slot = holds slot) :
    references slots holds' target = references slots holds target := by
  unfold references
  congr 1
  apply Finset.filter_congr
  intro slot hslot
  rw [h slot hslot]

omit [DecidableEq Slot] in
theorem references_pos_iff :
    0 < references slots holds target ↔ ∃ slot ∈ slots, holds slot = some target := by
  unfold references
  rw [Finset.card_pos]
  constructor
  · intro h
    obtain ⟨slot, hslot⟩ := h
    exact ⟨slot, Finset.mem_filter.mp hslot⟩
  · intro h
    obtain ⟨slot, hslot⟩ := h
    exact ⟨slot, Finset.mem_filter.mpr hslot⟩

/-- The reference in one slot, counted apart from the others. -/
theorem references_split (hslot : slot ∈ slots) :
    references slots holds target =
      references (slots.erase slot) holds target + if holds slot = some target then 1 else 0 := by
  unfold references
  rw [Finset.filter_erase]
  by_cases hholds : holds slot = some target
  · have hmem : slot ∈ slots.filter fun slot ↦ holds slot = some target :=
      Finset.mem_filter.mpr ⟨hslot, hholds⟩
    rw [if_pos hholds, Finset.card_erase_add_one hmem]
  · rw [if_neg hholds, Finset.erase_eq_of_notMem (by simp [hholds]), Nat.add_zero]

/-- Assigning a slot moves one reference. -/
theorem references_update (hslot : slot ∈ slots) :
    references slots (Function.update holds slot value) target +
        (if holds slot = some target then 1 else 0) =
      references slots holds target + if value = some target then 1 else 0 := by
  have hothers : references (slots.erase slot) (Function.update holds slot value) target =
      references (slots.erase slot) holds target := by
    apply references_congr
    intro other hother
    exact Function.update_of_ne (Finset.ne_of_mem_erase hother) _ _
  calc
    _ = references (slots.erase slot) holds target + (if value = some target then 1 else 0) +
          (if holds slot = some target then 1 else 0) := by
      rw [references_split hslot, hothers, Function.update_self]
    _ = references (slots.erase slot) holds target + (if holds slot = some target then 1 else 0) +
          (if value = some target then 1 else 0) := Nat.add_right_comm _ _ _
    _ = _ := by rw [← references_split hslot]

/-- Which target loses its last reference to an assignment. -/
theorem references_lost_iff (hslot : slot ∈ slots) :
    0 < references slots holds target ∧
        references slots (Function.update holds slot value) target = 0 ↔
      holds slot = some target ∧ value ≠ some target ∧ references slots holds target = 1 := by
  have hmove : references slots (Function.update holds slot value) target + _ = _ :=
    references_update hslot
  have hpos : holds slot = some target → 0 < references slots holds target :=
    fun hholds ↦ references_pos_iff.mpr ⟨slot, hslot, hholds⟩
  by_cases hholds : holds slot = some target
  · by_cases hvalue : value = some target
    · simp only [hholds, hvalue, if_true] at hmove ⊢
      constructor
      · intro h
        omega
      · intro h
        exact absurd rfl h.2.1
    · simp only [hholds, hvalue, if_true, if_false] at hmove ⊢
      have := hpos hholds
      constructor
      · intro h
        exact ⟨trivial, hvalue, by omega⟩
      · intro h
        omega
  · simp only [hholds, if_false, false_and, iff_false] at hmove ⊢
    omega

/-- The counters of the owned targets are right, and nothing else is referred to. -/
structure Balanced (slots : Finset Slot) (holds : Slot → Option Target) (counter : Target → ℤ)
    (owned : Set Target) : Prop where
  closed : ∀ slot ∈ slots, ∀ target, holds slot = some target → target ∈ owned
  counts : ∀ target ∈ owned, counter target = references slots holds target

/-- An assignment keeps the balance; the targets that lose their last reference leave. -/
theorem Balanced.assign {counter counter' : Target → ℤ} {owned owned' : Set Target}
    (h : Balanced slots holds counter owned) (hslot : slot ∈ slots)
    (hvalue : ∀ target, value = some target → target ∈ owned)
    (hcounter : ∀ target ∈ owned', counter' target + (if holds slot = some target then 1 else 0) =
      counter target + if value = some target then 1 else 0)
    (howned : ∀ target, target ∈ owned' ↔ target ∈ owned ∧ ¬ (0 < references slots holds target ∧
      references slots (Function.update holds slot value) target = 0)) :
    Balanced slots (Function.update holds slot value) counter' owned' where
  closed := by
    intro other hother target hholds
    have hpos : 0 < references slots (Function.update holds slot value) target :=
      references_pos_iff.mpr ⟨other, hother, hholds⟩
    refine (howned target).mpr ⟨?_, fun hlost ↦ absurd hlost.2 hpos.ne'⟩
    by_cases heq : other = slot
    · rw [heq, Function.update_self] at hholds
      exact hvalue target hholds
    · rw [Function.update_of_ne heq] at hholds
      exact h.closed other hother target hholds
  counts := by
    intro target htarget
    have hcount := h.counts target ((howned target).mp htarget).1
    have hmove : references slots (Function.update holds slot value) target + _ = _ :=
      references_update hslot
    have hstep := hcounter target htarget
    split_ifs at hmove hstep <;> omega

end Ucore.Foundation
