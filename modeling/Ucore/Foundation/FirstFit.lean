import Mathlib.Data.Finset.Max
import Mathlib.Order.Interval.Finset.Nat

/-!
# First fit over sets

The state of an allocator of numbered cells is the set of the cells that are free. It serves a request
at the lowest place where it fits, and takes back any cells that were lent.
-/

namespace Ucore.Foundation

variable {free owned : Finset ℕ} {n start : ℕ}

/-- The lowest of the places where `n` free cells lie in a row -/
def fitLowest (free : Finset ℕ) (n : ℕ) : Option ℕ :=
  if h : (free.filter fun start ↦ Finset.Ico start (start + n) ⊆ free).Nonempty then
    some (Finset.min' _ h)
  else none

theorem mem_places (hn : 0 < n) :
    start ∈ free.filter (fun start ↦ Finset.Ico start (start + n) ⊆ free) ↔
      Finset.Ico start (start + n) ⊆ free := by
  rw [Finset.mem_filter, and_iff_right_iff_imp]
  intro hrun
  exact hrun (Finset.mem_Ico.mpr ⟨le_rfl, Nat.lt_add_of_pos_right hn⟩)

theorem fitLowest_eq_some (hn : 0 < n) :
    fitLowest free n = some start ↔ IsLeast {start | Finset.Ico start (start + n) ⊆ free} start := by
  have hplaces : {start | Finset.Ico start (start + n) ⊆ free} =
      (free.filter fun start ↦ Finset.Ico start (start + n) ⊆ free : Set ℕ) := by
    ext other
    exact (mem_places hn).symm
  unfold fitLowest
  rw [hplaces]
  split
  · rename_i hsome
    rw [Option.some.injEq]
    constructor
    · rintro rfl
      exact Finset.isLeast_min' _ hsome
    · exact fun hleast ↦ (Finset.isLeast_min' _ hsome).unique hleast
  · rename_i hnone
    exact iff_of_false nofun fun hleast ↦ hnone ⟨start, hleast.1⟩

theorem fitLowest_eq_none (hn : 0 < n) :
    fitLowest free n = none ↔ ∀ start, ¬ Finset.Ico start (start + n) ⊆ free := by
  unfold fitLowest
  split
  · rename_i hsome
    obtain ⟨start, hstart⟩ := hsome
    exact iff_of_false nofun fun hnone ↦ hnone start ((mem_places hn).mp hstart)
  · rename_i hnone
    exact iff_of_true rfl fun start hrun ↦ hnone ⟨start, (mem_places hn).mpr hrun⟩

inductive Request where
  | take (n : ℕ)
  | give (start n : ℕ)

namespace FirstFit

/-- What a request returns, and the cells that are free then -/
def step (free : Finset ℕ) : Request → Option ℕ × Finset ℕ
  | .take n =>
    match fitLowest free n with
    | none => (none, free)
    | some start => (some start, free \ Finset.Ico start (start + n))
  | .give start n => (none, free ∪ Finset.Ico start (start + n))

def run : Finset ℕ → List Request → List (Option ℕ) × Finset ℕ
  | free, [] => ([], free)
  | free, request :: rest =>
    let (result, free) := step free request
    let (results, free) := run free rest
    (result :: results, free)

/-- Only cells that are lent come back, and below a free cell unless none is left. -/
def Admits (owned free : Finset ℕ) : Request → Prop
  | .take n => 0 < n
  | .give start n => 0 < n ∧ Finset.Ico start (start + n) ⊆ owned \ free ∧
      (free = ∅ ∨ ∃ cell ∈ free, start < cell)

def AdmitsAll (owned : Finset ℕ) : Finset ℕ → List Request → Prop
  | _, [] => True
  | free, request :: rest =>
    Admits owned free request ∧ AdmitsAll owned (step free request).2 rest

instance : (request : Request) → Decidable (Admits owned free request)
  | .take n => inferInstanceAs (Decidable (0 < n))
  | .give start n => inferInstanceAs (Decidable (0 < n ∧
      Finset.Ico start (start + n) ⊆ owned \ free ∧ (free = ∅ ∨ ∃ cell ∈ free, start < cell)))

def decideAll (owned : Finset ℕ) :
    (free : Finset ℕ) → (requests : List Request) → Decidable (AdmitsAll owned free requests)
  | _, [] => inferInstanceAs (Decidable True)
  | free, request :: rest =>
    let := decideAll owned (step free request).2 rest
    inferInstanceAs (Decidable (Admits owned free request ∧ _))

instance (requests : List Request) : Decidable (AdmitsAll owned free requests) :=
  decideAll owned free requests

end FirstFit

end Ucore.Foundation
