import Mathlib.Tactic.Common

/-!
# Computations that log what they do

A computation over states that carry a log. `Does` follows one component of the state, the status,
through the computation and bounds what is logged on the way. `Erases` states what the computation
does to the rest of the state, whatever the status and the log are.
-/

namespace Ucore.Foundation

variable {σ τ κ Event ε α β : Type}

/-- The status is `before` at the start and `after` at the end, and all that is logged is allowed. -/
def Does (status : σ → κ) (log : σ → List Event) (allowed : Event → Prop) (before : κ)
    (computation : StateT σ (Except ε) α) (after : κ) : Prop :=
  ∀ s result s', status s = before → computation s = .ok (result, s') →
    status s' = after ∧ ∃ more, log s' = log s ++ more ∧ ∀ event ∈ more, allowed event

/-- On a state that shows as `t` the computation has this outcome. -/
def Erases (erase : σ → τ) (t : τ) (computation : StateT σ (Except ε) α)
    (outcome : Except ε (α × τ)) : Prop :=
  ∀ s, erase s = t → (computation s).map (fun reached ↦ (reached.1, erase reached.2)) = outcome

theorem stateT_bind_eq_ok {computation : StateT σ (Except ε) α} {rest : α → StateT σ (Except ε) β}
    {s s' : σ} {result : β} : (computation >>= rest) s = .ok (result, s') ↔
      ∃ value t, computation s = .ok (value, t) ∧ rest value t = .ok (result, s') := by
  change (computation s >>= fun reached ↦ rest reached.1 reached.2) = _ ↔ _
  cases computation s with
  | error e =>
    constructor
    · nofun
    · rintro ⟨value, t, hreached, -⟩
      cases hreached
  | ok reached =>
    constructor
    · intro hrest
      exact ⟨reached.1, reached.2, rfl, hrest⟩
    · rintro ⟨value, t, hreached, hrest⟩
      obtain rfl := Except.ok.inj hreached
      exact hrest

theorem except_map_bind {γ : Type} (f : β → γ) (first : Except ε α) (rest : α → Except ε β) :
    (first >>= rest).map f = first >>= fun value ↦ (rest value).map f := by
  cases first <;> rfl

namespace Does

variable {status : σ → κ} {log : σ → List Event} {allowed allowed' : Event → Prop}
  {before between after : κ} {computation : StateT σ (Except ε) α}
  {rest : α → StateT σ (Except ε) β}

theorem pure (value : α) :
    Does status log allowed before (pure value : StateT σ (Except ε) α) before := by
  intro s result s' hbefore hrun
  obtain ⟨rfl, rfl⟩ := Prod.mk.inj (Except.ok.inj hrun)
  exact ⟨hbefore, [], (List.append_nil _).symm, nofun⟩

theorem throw (fault : ε) :
    Does status log allowed before (throw fault : StateT σ (Except ε) α) after := by
  intro s result s' hbefore hrun
  cases hrun

theorem bind (hfirst : Does status log allowed before computation between)
    (hrest : ∀ value, Does status log allowed between (rest value) after) :
    Does status log allowed before (computation >>= rest) after := by
  intro s result s' hbefore hrun
  obtain ⟨value, t, hreached, hrun⟩ := stateT_bind_eq_ok.mp hrun
  obtain ⟨hbetween, more, hmore, hallowed⟩ := hfirst s value t hbefore hreached
  obtain ⟨hafter, more', hmore', hallowed'⟩ := hrest value t result s' hbetween hrun
  refine ⟨hafter, more ++ more', ?_, fun event hevent ↦ ?_⟩
  · rw [hmore', hmore, List.append_assoc]
  · exact (List.mem_append.mp hevent).elim (hallowed event) (hallowed' event)

/-- A first step that logs nothing, whose value the rest may rely on -/
theorem silent_bind {value : σ → α} {next : σ → σ}
    (hrun : ∀ s, computation s = .ok (value s, next s)) (hlog : ∀ s, log (next s) = log s)
    (hstatus : ∀ s, status s = before → status (next s) = between)
    (hrest : ∀ s, status s = before → Does status log allowed between (rest (value s)) after) :
    Does status log allowed before (computation >>= rest) after := by
  intro s result s' hbefore hboth
  obtain ⟨value', t, hreached, hboth⟩ := stateT_bind_eq_ok.mp hboth
  rw [hrun] at hreached
  obtain ⟨rfl, rfl⟩ := Prod.mk.inj (Except.ok.inj hreached)
  rw [← hlog s]
  exact hrest s hbefore _ result s' (hstatus s hbefore) hboth

theorem ite {condition : Prop} [Decidable condition] {computation' : StateT σ (Except ε) α}
    (hthen : condition → Does status log allowed before computation after)
    (helse : ¬ condition → Does status log allowed before computation' after) :
    Does status log allowed before (if condition then computation else computation') after := by
  split_ifs with h
  · exact hthen h
  · exact helse h

end Does

namespace Erases

variable {erase : σ → τ} {t t' : τ} {computation : StateT σ (Except ε) α}
  {rest : α → StateT σ (Except ε) β} {outcome : Except ε (α × τ)} {outcome' : Except ε (β × τ)}

theorem pure (value : α) (t : τ) :
    Erases erase t (pure value : StateT σ (Except ε) α) (.ok (value, t)) := by
  intro s hs
  rw [← hs]
  rfl

theorem throw (fault : ε) (t : τ) :
    Erases erase t (throw fault : StateT σ (Except ε) α) (.error fault) := fun _ _ ↦ rfl

theorem bind_ok {value : α} (hfirst : Erases erase t computation (.ok (value, t')))
    (hrest : Erases erase t' (rest value) outcome') :
    Erases erase t (computation >>= rest) outcome' := by
  intro s hs
  have hmap := hfirst s hs
  change (computation s >>= fun reached ↦ rest reached.1 reached.2).map _ = _
  cases hrun : computation s with
  | error e =>
    rw [hrun] at hmap
    cases hmap
  | ok reached =>
    rw [hrun] at hmap
    obtain ⟨hvalue, ht⟩ := Prod.mk.inj (Except.ok.inj hmap)
    rw [← hvalue] at hrest
    exact hrest reached.2 ht

theorem bind_error {fault : ε} (hfirst : Erases erase t computation (.error fault)) :
    Erases erase t (computation >>= rest) (.error fault) := by
  intro s hs
  have hmap := hfirst s hs
  change (computation s >>= fun reached ↦ rest reached.1 reached.2).map _ = _
  cases hrun : computation s with
  | error e =>
    rw [hrun] at hmap
    exact congrArg Except.error (Except.error.inj hmap)
  | ok reached =>
    rw [hrun] at hmap
    cases hmap

theorem bind {following : α × τ → Except ε (β × τ)} (hfirst : Erases erase t computation outcome)
    (hrest : ∀ value t', Erases erase t' (rest value) (following (value, t'))) :
    Erases erase t (computation >>= rest) (outcome >>= following) := by
  cases outcome with
  | error fault => exact hfirst.bind_error
  | ok reached => exact hfirst.bind_ok (hrest reached.1 reached.2)

/-- Where the outcome of the first step is told by less than its value and its state -/
theorem bind_map {γ : Type} {found : Except ε γ} {embed : γ → α × τ}
    {following : γ → Except ε (β × τ)} (hfirst : Erases erase t computation (found.map embed))
    (hrest : ∀ value, Erases erase (embed value).2 (rest (embed value).1) (following value)) :
    Erases erase t (computation >>= rest) (found >>= following) := by
  cases found with
  | error fault => exact hfirst.bind_error
  | ok value => exact hfirst.bind_ok (hrest value)

/-- A first step that leads to states which show as `t'` -/
theorem silent_bind {value : σ → α} {next : σ → σ}
    (hrun : ∀ s, computation s = .ok (value s, next s)) (hnext : ∀ s, erase s = t → erase (next s) = t')
    (hrest : ∀ s, erase s = t → Erases erase t' (rest (value s)) outcome') :
    Erases erase t (computation >>= rest) outcome' := by
  intro s hs
  change (computation s >>= fun reached ↦ rest reached.1 reached.2).map _ = _
  rw [hrun]
  exact hrest s hs (next s) (hnext s hs)

theorem ite {condition : Prop} [Decidable condition] {computation' : StateT σ (Except ε) α}
    {other : Except ε (α × τ)} (hthen : condition → Erases erase t computation outcome)
    (helse : ¬ condition → Erases erase t computation' other) :
    Erases erase t (if condition then computation else computation')
      (if condition then outcome else other) := by
  split_ifs with h
  · exact hthen h
  · exact helse h

end Erases

end Ucore.Foundation
