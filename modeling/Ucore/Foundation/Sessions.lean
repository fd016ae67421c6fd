import Mathlib.Tactic.Common

/-!
# Sessions

A session is a program over a state that survives an exception, such as a wait for input that does not
come. The programs of this file take fuel; `Ends` says what they come to with enough of it.
-/

namespace Ucore.Foundation

variable {ε σ α β : Type}

/-- A step that returns is followed by the rest of the session. -/
theorem bind_of_ok {program : EStateM ε σ α} {rest : α → EStateM ε σ β} {state state' : σ} {value : α}
    (h : program state = .ok value state') : (program >>= rest) state = rest value state' := by
  change EStateM.bind program rest state = _
  rw [EStateM.bind, h]

theorem bind_get (rest : σ → EStateM ε σ β) (state : σ) :
    (get >>= rest : EStateM ε σ β) state = rest state state := rfl

/-- What a program comes to with enough fuel. -/
def Ends (program : ℕ → EStateM ε σ α) (state : σ) (result : EStateM.Result ε σ α) : Prop :=
  ∃ enough, ∀ fuel, enough ≤ fuel → program fuel state = result

namespace Ends

variable {program program' : ℕ → EStateM ε σ α} {rest : ℕ → α → EStateM ε σ β}
  {state state' state'' : σ} {value : α} {fault : ε} {result : EStateM.Result ε σ α}
  {last : EStateM.Result ε σ β}

theorem of_eq (h : ∀ fuel, program fuel state = result) : Ends program state result :=
  ⟨0, fun fuel _ ↦ h fuel⟩

theorem congr (heq : ∀ fuel, program fuel state = program' fuel state')
    (h : Ends program' state' result) : Ends program state result := by
  obtain ⟨enough, h⟩ := h
  refine ⟨enough, fun fuel hfuel ↦ ?_⟩
  rw [heq]
  exact h fuel hfuel

/-- A program that a unit of fuel takes to another one -/
theorem of_step (hstep : ∀ fuel, program (fuel + 1) state = program' fuel state')
    (h : Ends program' state' result) : Ends program state result := by
  obtain ⟨enough, h⟩ := h
  refine ⟨enough + 1, fun fuel hfuel ↦ ?_⟩
  cases fuel with
  | zero => cases hfuel
  | succ fuel =>
    rw [hstep]
    exact h fuel (Nat.le_of_succ_le_succ hfuel)

theorem bind (h : Ends program state (.ok value state'))
    (hrest : Ends (fun fuel ↦ rest fuel value) state' last) :
    Ends (fun fuel ↦ program fuel >>= rest fuel) state last := by
  obtain ⟨enough, h⟩ := h
  obtain ⟨enough', hrest⟩ := hrest
  refine ⟨max enough enough', fun fuel hfuel ↦ ?_⟩
  change EStateM.bind (program fuel) (rest fuel) state = last
  rw [EStateM.bind, h fuel (Nat.le_trans (Nat.le_max_left _ _) hfuel)]
  exact hrest fuel (Nat.le_trans (Nat.le_max_right _ _) hfuel)

/-- An exception ends what comes behind it as well. -/
theorem bind_error (h : Ends program state (.error fault state')) :
    Ends (fun fuel ↦ program fuel >>= rest fuel) state (.error fault state') := by
  obtain ⟨enough, h⟩ := h
  refine ⟨enough, fun fuel hfuel ↦ ?_⟩
  change EStateM.bind (program fuel) (rest fuel) state = _
  rw [EStateM.bind, h fuel hfuel]

end Ends

end Ucore.Foundation
