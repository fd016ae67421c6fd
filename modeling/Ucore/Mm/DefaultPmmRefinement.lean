import Ucore.Foundation.FirstFit
import Ucore.Mm.DefaultPmmCheckRuns

/-!
# The allocator is first fit over sets

The list of the kernel is an implementation of `FirstFit` on the set of the pages that are free. What the
callers see of a run, the pages that they get, is what they would get there.
-/

namespace Ucore

open Foundation

def Call.request : Call → Request
  | .alloc n => .take n
  | .free base n => .give base n

namespace World

variable {lower count fuel n base : ℕ} {world world' : World} {request : Call}

/-- Perform the calls one after the other; also their results. -/
def perform (fuel : ℕ) : World → List Call → Except Fault (List (Option ℕ) × World)
  | world, [] => return ([], world)
  | world, request :: rest => do
    let (result, world) ← world.call fuel request
    let (results, world) ← perform fuel world rest
    return (result :: results, world)

/-- The pages that are lent are those of the range that are not free. -/
theorem Ordered.lent_eq {blocks : List Block} (h : world.Ordered lower count blocks) :
    managed lower count \ world.free lower count = world.allocated := by
  have hhanded : world.allocated ⊆ managed lower count := by
    rw [← Finset.coe_subset, managed, Finset.coe_Ico]
    exact Wf.handed h
  rw [free, sdiff_sdiff_eq_self hhanded]

theorem free_give (hsub : Finset.Ico base (base + n) ⊆ managed lower count) (area : FreeArea) :
    free lower count ⟨area, world.allocated \ Finset.Ico base (base + n)⟩ =
      world.free lower count ∪ Finset.Ico base (base + n) := by
  ext page
  have hmem := @hsub page
  simp only [free, Finset.mem_sdiff, Finset.mem_union]
  tauto

/-- The lowest run of the list is the lowest fit. -/
theorem Reachable.alloc_refines (h : Reachable lower count (insertingInside lower count) world)
    (hcount : count < 2 ^ 32) (hfuel : count < fuel) (hn : 0 < n) :
    ∃ area', defaultAllocPages fuel world.area n =
      .ok (fitLowest (world.free lower count) n, area') := by
  have hspare := h.spare hcount
  have hset : ∀ start, Set.Ico start (start + n) ⊆ (world.free lower count : Set ℕ) ↔
      Finset.Ico start (start + n) ⊆ world.free lower count := by
    intro start
    rw [← Finset.coe_Ico, Finset.coe_subset]
  cases hfit : fitLowest (world.free lower count) n with
  | none =>
    refine ⟨world.area, hspare.alloc_none hn (by omega) fun start ↦ ?_⟩
    rw [hset]
    exact (fitLowest_eq_none hn).mp hfit start
  | some page =>
    have hleast := (fitLowest_eq_some hn).mp hfit
    simp only [← hset] at hleast
    obtain ⟨area', hcall, -⟩ := hspare.alloc page n fuel hn (by omega) hleast
    exact ⟨area', hcall⟩

/-- One call does what the set-level allocator does. -/
theorem Reachable.call_refines (h : Reachable lower count (insertingInside lower count) world)
    (hcount : count < 2 ^ 32) (hfuel : count < fuel)
    (hadmits : FirstFit.Admits (managed lower count) (world.free lower count) request.request) :
    ∃ world', world.call fuel request =
        .ok ((FirstFit.step (world.free lower count) request.request).1, world') ∧
      world'.free lower count = (FirstFit.step (world.free lower count) request.request).2 ∧
      Reachable lower count (insertingInside lower count) world' := by
  obtain ⟨blocks, hordered⟩ := h.ordered hcount
  cases request with
  | alloc n =>
    have hlegal : world.Legal (.alloc n) := hadmits
    obtain ⟨area', halloc⟩ := h.alloc_refines hcount hfuel hadmits
    change ∃ world', world.call fuel (.alloc n) =
      .ok ((FirstFit.step (world.free lower count) (.take n)).1, world') ∧
      world'.free lower count = (FirstFit.step (world.free lower count) (.take n)).2 ∧ _
    cases hfit : fitLowest (world.free lower count) n with
    | none =>
      have hcall : world.call fuel (.alloc n) = .ok (none, ⟨area', world.allocated⟩) := by
        rw [World.call, halloc, hfit]
        rfl
      simp only [FirstFit.step, hfit]
      exact ⟨_, hcall, rfl, h.call hlegal trivial ⟨fuel, hcall⟩⟩
    | some page =>
      have hcall : world.call fuel (.alloc n) =
          .ok (some page, ⟨area', world.allocated ∪ Finset.Ico page (page + n)⟩) := by
        rw [World.call, halloc, hfit]
        rfl
      simp only [FirstFit.step, hfit]
      refine ⟨_, hcall, ?_, h.call hlegal trivial ⟨fuel, hcall⟩⟩
      exact (sdiff_sdiff_left (a := managed lower count)).symm
  | free base n =>
    obtain ⟨hn, hlent, hinside⟩ := hadmits
    rw [hordered.lent_eq] at hlent
    have hlegal : world.Legal (.free base n) := ⟨hn, hlent⟩
    obtain ⟨world', -, hcall, -⟩ := hordered.call_free hlegal hinside
      (show blocks.length < fuel from hordered.length_lt.trans_lt hfuel)
    refine ⟨world', hcall, ?_, h.call hlegal hinside ⟨fuel, hcall⟩⟩
    obtain ⟨area', -, hvalue⟩ := bind_eq_ok.mp hcall
    obtain ⟨-, rfl⟩ := Prod.mk.inj (Except.ok.inj hvalue)
    refine free_give (hlent.trans ?_) area'
    rw [← hordered.lent_eq]
    exact Finset.sdiff_subset

/-- A run of the kernel's allocator shows what a run of the set-level one does. -/
theorem first_fit_refines {requests : List Call}
    (hworld : Reachable lower count (insertingInside lower count) world) (hcount : count < 2 ^ 32)
    (hfuel : count < fuel) (hadmits : FirstFit.AdmitsAll (managed lower count)
      (world.free lower count) (requests.map Call.request)) :
    ∃ world', world.perform fuel requests =
        .ok ((FirstFit.run (world.free lower count) (requests.map Call.request)).1, world') ∧
      world'.free lower count =
        (FirstFit.run (world.free lower count) (requests.map Call.request)).2 := by
  induction requests generalizing world with
  | nil => exact ⟨world, rfl, rfl⟩
  | cons request rest ih =>
    obtain ⟨hfirst, hrest⟩ := hadmits
    obtain ⟨next, hcall, hfree, hnext⟩ := hworld.call_refines hcount hfuel hfirst
    rw [← hfree] at hrest
    obtain ⟨world', hperform, hfree'⟩ := ih hnext hrest
    rw [hfree] at hperform hfree'
    refine ⟨world', ?_, hfree'⟩
    rw [perform, hcall, ok_bind]
    dsimp only
    rw [hperform]
    rfl

/-- On six pages a page that comes back is passed over by a request for two. -/
theorem first_fit_refines_sample : ∃ world world' : World, world.allocated = ∅ ∧
    world.perform 16 [.alloc 1, .alloc 2, .free 0 1, .alloc 2, .alloc 1] =
      .ok ([some 0, some 1, none, some 3, some 0], world') ∧ world'.free 0 6 = {5} := by
  have hrun : (executeFrom (insertingInside 0 6) 16 6 []).any
      (fun world ↦ world.allocated = ∅) = true := by decide
  obtain ⟨world, hworld, hheld⟩ := Option.any_eq_true _ _ |>.mp hrun
  have hallocated : world.allocated = ∅ := of_decide_eq_true hheld
  have hreachable := reachable_of_executeFrom _ (by decide) hworld
  have hfree : world.free 0 6 = {0, 1, 2, 3, 4, 5} := by
    rw [free, hallocated]
    decide
  have hadmits : FirstFit.AdmitsAll (managed 0 6) (world.free 0 6)
      ([.alloc 1, .alloc 2, .free 0 1, .alloc 2, .alloc 1].map Call.request) := by
    rw [hfree]
    decide
  obtain ⟨world', hperform, hfree'⟩ := first_fit_refines hreachable (by decide)
    (by decide : 6 < 16) hadmits
  rw [hfree] at hperform hfree'
  exact ⟨world, world', hallocated, hperform, hfree'⟩

end World

end Ucore
