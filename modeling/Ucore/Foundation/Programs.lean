import Mathlib.Tactic.Common

/-!
# Programs over a state that may fail

Rules for long sequences of steps: each step is replaced by what it returns, and what is left is the
rest of the program in the next state.
-/

namespace Ucore.Foundation

variable {σ ε α β : Type}

/-- From `state` on the program returns as `post` says or fails as `fails` says. -/
def Leads (program : StateT σ (Except ε) α) (state : σ) (post : α → σ → Prop) (fails : ε → Prop) :
    Prop :=
  match program state with
  | .ok (value, state') => post value state'
  | .error fault => fails fault

namespace Leads

variable {program : StateT σ (Except ε) α} {rest : α → StateT σ (Except ε) β} {state state' : σ}
  {value : α} {fault : ε} {post post' : α → σ → Prop} {after : β → σ → Prop} {fails : ε → Prop}

theorem of_ok (h : program state = .ok (value, state')) (hpost : post value state') :
    Leads program state post fails := by
  rw [Leads, h]
  exact hpost

theorem of_error (h : program state = .error fault) (hfails : fails fault) :
    Leads program state post fails := by
  rw [Leads, h]
  exact hfails

theorem exists_of_total (h : Leads program state post fun _ ↦ False) :
    ∃ value state', program state = .ok (value, state') ∧ post value state' := by
  rw [Leads] at h
  split at h
  · exact ⟨_, _, by assumption, h⟩
  · exact h.elim

theorem error_of_never (h : Leads program state (fun _ _ ↦ False) (· = fault)) :
    program state = .error fault := by
  rw [Leads] at h
  split at h
  · exact h.elim
  · rename_i found heq
    rw [heq, h]

theorem bind (h : Leads program state (fun value state' ↦ Leads (rest value) state' after fails) fails) :
    Leads (program >>= rest) state after fails := by
  rw [Leads] at h ⊢
  change match (program state >>= fun reached ↦ rest reached.1 reached.2) with
    | .ok (value, state') => after value state'
    | .error fault => fails fault
  cases hrun : program state with
  | error fault =>
    rw [hrun] at h
    exact h
  | ok reached =>
    rw [hrun] at h
    exact h

/-- A step whose result is known -/
theorem step (h : program state = .ok (value, state')) (hrest : Leads (rest value) state' after fails) :
    Leads (program >>= rest) state after fails :=
  bind (of_ok h hrest)

/-- A step that fails ends the program. -/
theorem fault_step (h : program state = .error fault) (hfails : fails fault) :
    Leads (program >>= rest) state after fails :=
  bind (of_error h hfails)

theorem mono (h : Leads program state post fails) (hmono : ∀ value state', post value state' →
    post' value state') : Leads program state post' fails := by
  rw [Leads] at h ⊢
  split at h
  · exact hmono _ _ h
  · exact h

theorem weaken {fails' : ε → Prop} (h : Leads program state post fails)
    (hweaken : ∀ fault, fails fault → fails' fault) : Leads program state post fails' := by
  rw [Leads] at h ⊢
  split at h
  · exact h
  · exact hweaken _ h

end Leads

end Ucore.Foundation
