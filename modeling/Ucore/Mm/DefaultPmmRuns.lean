import Ucore.Mm.DefaultPmmSpec
import Mathlib.Order.Interval.Finset.Nat

/-!
# Runs of the first-fit page allocator

A `World` is the allocator together with the pages its callers hold. A run starts with
`default_init_memmap` on one reserved range and goes on with calls that only give back pages that
are held. `InsertsInside` is the condition on a release under which the missing `break` of
`default_free_pages` does no harm.
-/

namespace Ucore

open Foundation ListEntry

/-! ## More fuel gives the same outcome -/

theorem insertScan_mono {base fuel more : ℕ} {links links' : Links ListEntry} {le : ListEntry}
    (h : insertScan base fuel links le = .ok links') (hle : fuel ≤ more) :
    insertScan base more links le = .ok links' := by
  induction fuel generalizing links le more with
  | zero => simp [insertScan] at h
  | succ fuel ih =>
    obtain ⟨more, rfl⟩ : ∃ rest, more = rest + 1 := ⟨more - 1, by omega⟩
    rw [insertScan] at h ⊢
    cases hnext : links.next le with
    | freeList => simpa [hnext] using h
    | pageLink page =>
      simp only [hnext] at h ⊢
      split at h
      · rename_i hlt
        rw [if_pos hlt]
        exact h
      · rename_i hlt
        rw [if_neg hlt]
        split at h
        · rename_i hlast
          rw [if_pos hlast]
          exact ih h (by omega)
        · rename_i hlast
          rw [if_neg hlast]
          exact ih h (by omega)

theorem insertFree_mono {base fuel more : ℕ} {links links' : Links ListEntry}
    (h : insertFree fuel links base = .ok links') (hle : fuel ≤ more) :
    insertFree more links base = .ok links' := by
  unfold insertFree at h ⊢
  split at h
  · rename_i hempty
    rw [if_pos hempty]
    exact h
  · rename_i hempty
    rw [if_neg hempty]
    exact insertScan_mono h hle

theorem defaultAllocPages_mono {n fuel more : ℕ} {area : FreeArea} {outcome : Option ℕ × FreeArea}
    (h : defaultAllocPages fuel area n = .ok outcome) (hle : fuel ≤ more) :
    defaultAllocPages more area n = .ok outcome := by
  obtain ⟨_, hassert, h⟩ := bind_eq_ok.mp h
  unfold defaultAllocPages
  rw [hassert, ok_bind]
  by_cases hexceeds : n > area.nrFree
  · simpa only [if_pos hexceeds] using h
  · simp only [if_neg hexceeds] at h ⊢
    cases hfind : area.links.findFrom freeList (hasRoom area n) fuel freeList with
    | none => simp [hfind, throw, throwThe, MonadExceptOf.throw] at h
    | some found =>
      rw [Links.findFrom_mono hfind hle]
      simpa only [hfind] using h

theorem defaultFreePages_mono {base n fuel more : ℕ} {area area' : FreeArea}
    (h : defaultFreePages fuel area base n = .ok area') (hle : fuel ≤ more) :
    defaultFreePages more area base n = .ok area' := by
  obtain ⟨_, hassert, h⟩ := bind_eq_ok.mp h
  obtain ⟨looped, hloop, h⟩ := bind_eq_ok.mp h
  obtain ⟨links', hinsert, h⟩ := bind_eq_ok.mp h
  unfold defaultFreePages
  rw [hassert, ok_bind, hloop, ok_bind]
  exact bind_eq_ok.mpr ⟨links', insertFree_mono hinsert hle, h⟩

/-! ## Worlds and runs -/

/-- The allocator and the pages its callers hold. -/
structure World where
  area : FreeArea
  allocated : Finset ℕ

inductive Call where
  | alloc (n : ℕ)
  | free (base n : ℕ)
deriving DecidableEq

namespace World

/-- Perform one call and keep the books; an allocation also yields its result. -/
def call (fuel : ℕ) (world : World) : Call → Except Fault (Option ℕ × World)
  | .alloc n => do
    let (result, area) ← defaultAllocPages fuel world.area n
    match result with
    | none => return (none, ⟨area, world.allocated⟩)
    | some page => return (some page, ⟨area, world.allocated ∪ Finset.Ico page (page + n)⟩)
  | .free base n => do
    let area ← defaultFreePages fuel world.area base n
    return (none, ⟨area, world.allocated \ Finset.Ico base (base + n)⟩)

/-- The callers ask for at least one page and only give back pages they hold. -/
def Legal (world : World) : Call → Prop
  | .alloc n => 0 < n
  | .free base n => 0 < n ∧ Finset.Ico base (base + n) ⊆ world.allocated

instance (world : World) : (call : Call) → Decidable (world.Legal call)
  | .alloc n => inferInstanceAs (Decidable (0 < n))
  | .free base n =>
    inferInstanceAs (Decidable (0 < n ∧ Finset.Ico base (base + n) ⊆ world.allocated))

/-- The call comes to an end with this result. -/
def Returns (world : World) (call : Call) (result : Option ℕ) (world' : World) : Prop :=
  ∃ fuel, world.call fuel call = .ok (result, world')

/-- The range that `default_init_memmap` really lends: its length is kept in an `unsigned int`. -/
def managed (lower count : ℕ) : Finset ℕ := Finset.Ico lower (lower + uint32 count)

def free (lower count : ℕ) (world : World) : Finset ℕ := managed lower count \ world.allocated

/-- A release finds no free page at all, or one above the released range. -/
def InsertsInside (lower count : ℕ) (world : World) : Call → Prop
  | .alloc _ => True
  | .free base _ =>
    world.free lower count = ∅ ∨ ∃ page ∈ world.free lower count, base < page

instance (lower count : ℕ) (world : World) :
    (call : Call) → Decidable (world.InsertsInside lower count call)
  | .alloc _ => inferInstanceAs (Decidable True)
  | .free base _ => inferInstanceAs (Decidable (world.free lower count = ∅ ∨
      ∃ page ∈ world.free lower count, base < page))

/-- The states of all runs on the range `[lower, lower + count)` whose calls are `allowed`. -/
inductive Reachable (lower count : ℕ) (allowed : World → Call → World → Prop) : World → Prop
  | boot {fuel : ℕ} {area area' : FreeArea} (hcount : 0 < count)
      (hreserved : ∀ page, lower ≤ page → page < lower + count →
        pageReserved (area.pages page) = true)
      (hboot : defaultInitMemmap fuel (defaultInit area) lower count = .ok area') :
      Reachable lower count allowed ⟨area', ∅⟩
  | call {world world' : World} {call : Call} {result : Option ℕ}
      (hworld : Reachable lower count allowed world) (hlegal : world.Legal call)
      (hallowed : allowed world call world') (hreturns : world.Returns call result world') :
      Reachable lower count allowed world'

theorem call_mono {fuel more : ℕ} {world : World} {call : Call} {outcome : Option ℕ × World}
    (h : world.call fuel call = .ok outcome) (hle : fuel ≤ more) :
    world.call more call = .ok outcome := by
  cases call with
  | alloc n =>
    obtain ⟨value, halloc, h⟩ := bind_eq_ok.mp h
    exact bind_eq_ok.mpr ⟨value, defaultAllocPages_mono halloc hle, h⟩
  | free base n =>
    obtain ⟨value, hfree, h⟩ := bind_eq_ok.mp h
    exact bind_eq_ok.mpr ⟨value, defaultFreePages_mono hfree hle, h⟩

/-- A call has at most one outcome. -/
theorem Returns.unique {world world' world'' : World} {call : Call} {result result' : Option ℕ}
    (h : world.Returns call result world') (h' : world.Returns call result' world'') :
    result = result' ∧ world' = world'' := by
  obtain ⟨fuel, hcall⟩ := h
  obtain ⟨fuel', hcall'⟩ := h'
  have hmore := call_mono hcall (le_max_left fuel fuel')
  rw [call_mono hcall' (le_max_right fuel fuel')] at hmore
  simpa [eq_comm] using hmore

theorem Legal.range {world : World} {base n : ℕ} (h : world.Legal (.free base n)) :
    base ∈ world.allocated ∧ Set.Ico base (base + n) ⊆ (world.allocated : Set ℕ) := by
  obtain ⟨hpos, hsub⟩ := h
  refine ⟨hsub (by rw [Finset.mem_Ico]; omega), ?_⟩
  rw [← Finset.coe_Ico]
  exact Finset.coe_subset.mpr hsub

/-! ## One call -/

/-- `area` is in order and agrees with the books of the world. -/
def Ordered (lower count : ℕ) (world : World) (blocks : List Block) : Prop :=
  Wf lower (lower + uint32 count) (lower + count) world.allocated world.area blocks

/-- What an allocation of `n` pages may return: free pages, or `NULL` when no `n` free pages lie in
a row. -/
def Serves (lower count : ℕ) (world : World) (n : ℕ) : Option ℕ → Prop
  | some page => Finset.Ico page (page + n) ⊆ world.free lower count
  | none => ∀ start, ¬ Finset.Ico start (start + n) ⊆ world.free lower count

namespace Ordered

variable {lower count base n fuel : ℕ} {world world' : World} {blocks : List Block}

theorem cover_eq (h : world.Ordered lower count blocks) :
    cover blocks = (world.free lower count : Set ℕ) := by
  rw [Wf.cover h]
  simp [World.free, managed]

theorem freesInside_iff (h : world.Ordered lower count blocks) (hbase : base ∈ world.allocated) :
    FreesInside blocks base ↔ world.InsertsInside lower count (.free base n) := by
  have hcells : ∀ page, page ∈ world.free lower count ↔
      ∃ block ∈ blocks, page ∈ block.cells := by
    intro page
    rw [← mem_cover, h.cover_eq, Finset.mem_coe]
  have hhead : ∀ block ∈ blocks, block.start ∈ world.free lower count := by
    intro block hblock
    have hsize := (Wf.separated h).nonempty block hblock
    exact (hcells _).mpr ⟨block, hblock, by rw [Block.mem_cells, Block.stop_eq]; omega⟩
  unfold FreesInside InsertsInside
  apply or_congr
  · constructor
    · rintro rfl
      refine Finset.eq_empty_iff_forall_notMem.mpr fun page hpage ↦ ?_
      simpa using (hcells page).mp hpage
    · intro hempty
      refine List.eq_nil_iff_forall_not_mem.mpr fun block hblock ↦ ?_
      simpa [hempty] using hhead block hblock
  · constructor
    · rintro ⟨block, hblock, hlt⟩
      exact ⟨block.start, hhead block hblock, hlt⟩
    · rintro ⟨page, hpage, hlt⟩
      obtain ⟨block, hblock, hcell⟩ := (hcells page).mp hpage
      have hnot := Wf.not_mem_of_allocated h (show base ∈ (world.allocated : Set ℕ) from hbase) hblock
      rw [Block.mem_cells] at hcell
      exact ⟨block, hblock, by omega⟩

theorem length_lt (h : world.Ordered lower count blocks) : blocks.length ≤ count := by
  have hlength := Wf.length_le h
  have hwithin := Wf.within h
  omega

theorem call_alloc (h : world.Ordered lower count blocks) (hn : 0 < n)
    (hfuel : blocks.length < fuel) :
    ∃ result world' blocks', world.call fuel (.alloc n) = .ok (result, world') ∧
      world'.Ordered lower count blocks' ∧ world.Serves lower count n result := by
  rcases (Wf.wellListed h).defaultAllocPages_spec hn hfuel with
    ⟨hsmall, halloc⟩ | ⟨pre, block, post, hblocks, -, hfits, halloc⟩
  · refine ⟨none, world, blocks, ?_, h, fun start hrun ↦ ?_⟩
    · rw [call, halloc]
      rfl
    have hcovered : Set.Ico start (start + n) ⊆ cover blocks := by
      rw [h.cover_eq, ← Finset.coe_Ico]
      exact Finset.coe_subset.mpr hrun
    obtain ⟨block, hblock, hle, hstop⟩ := (Wf.separated h).exists_of_run hn hcovered
    have := hsmall block hblock
    rw [Block.stop_eq] at hstop
    omega
  · subst hblocks
    refine ⟨some block.start, ⟨takePages world.area block.start n,
      world.allocated ∪ Finset.Ico block.start (block.start + n)⟩,
      pre ++ (remainder block n ++ post), ?_, ?_, ?_⟩
    · rw [call, halloc]
      rfl
    · have htaken := Wf.takePages h hn hfits
      unfold Ordered
      push_cast
      exact htaken
    · intro page hpage
      rw [← Finset.mem_coe, ← h.cover_eq]
      refine ⟨block, by simp, ?_⟩
      rw [Finset.mem_Ico] at hpage
      rw [Block.mem_cells, Block.stop_eq]
      omega

theorem call_free (h : world.Ordered lower count blocks) (hlegal : world.Legal (.free base n))
    (hinside : world.InsertsInside lower count (.free base n)) (hfuel : blocks.length < fuel) :
    ∃ world' blocks', world.call fuel (.free base n) = .ok (none, world') ∧
      world'.Ordered lower count blocks' := by
  obtain ⟨hbase, hrange⟩ := hlegal.range
  obtain ⟨pre, post, area', -, -, -, hfree, hordered⟩ :=
    Wf.defaultFreePages_spec h hlegal.1 hrange ((h.freesInside_iff hbase).mpr hinside) hfuel
  refine ⟨⟨area', world.allocated \ Finset.Ico base (base + n)⟩, release pre ⟨base, n⟩ post, ?_, ?_⟩
  · rw [call, hfree]
    rfl
  · unfold Ordered
    push_cast
    exact hordered

/-- A release that does not insert inside the list returns as well, with a list that is no ring. -/
theorem call_free_behind (h : world.Ordered lower count blocks)
    (hlegal : world.Legal (.free base n))
    (hbehind : ¬ world.InsertsInside lower count (.free base n))
    (hfuel : blocks.length + 1 < fuel) :
    ∃ world', world.call fuel (.free base n) = .ok (none, world') ∧
      ∀ members, ¬ Ring world'.area.links freeList members := by
  obtain ⟨hbase, hrange⟩ := hlegal.range
  rw [← h.freesInside_iff hbase, FreesInside, not_or] at hbehind
  obtain ⟨area', hfree, hring⟩ := Wf.defaultFreePages_behind h hlegal.1 hrange hbehind.1
    (by simpa using hbehind.2) hfuel
  refine ⟨⟨area', world.allocated \ Finset.Ico base (base + n)⟩, ?_, hring⟩
  rw [call, hfree]
  rfl

end Ordered

/-! ## Whole runs -/

/-- A range of a multiple of `2^32` pages: its one block has the size `0` and nothing is ever lent. -/
structure Frozen (lower count : ℕ) (world : World) : Prop where
  wraps : uint32 count = 0
  allocated : world.allocated = ∅
  nrFree : world.area.nrFree = 0
  listed : Listed lower (lower + count) world.area [⟨lower, 0⟩]

def Consistent (lower count : ℕ) (world : World) : Prop :=
  world.Frozen lower count ∨ ∃ blocks, world.Ordered lower count blocks

variable {lower count n fuel : ℕ} {world world' : World} {request : Call} {result : Option ℕ}
  {allowed : World → Call → World → Prop}

/-- Nothing is lent, so the only legal calls are allocations, and they return `NULL`. -/
theorem Frozen.call (h : world.Frozen lower count) (hlegal : world.Legal request) (fuel : ℕ) :
    (∃ n, request = .alloc n) ∧ world.call fuel request = .ok (none, world) := by
  cases request with
  | alloc n =>
    have hpos : 0 < n := hlegal
    have hexceeds : n > world.area.nrFree := h.nrFree ▸ hpos
    refine ⟨⟨n, rfl⟩, ?_⟩
    have halloc : defaultAllocPages fuel world.area n = .ok (none, world.area) := by
      unfold defaultAllocPages
      rw [assert_of_true hpos, ok_bind, if_pos hexceeds]
      rfl
    rw [World.call, halloc]
    rfl
  | free base n =>
    have hbase := hlegal.range.1
    simp [h.allocated] at hbase

/-- The step of the invariant. -/
theorem Consistent.call (h : world.Consistent lower count) (hlegal : world.Legal request)
    (hinside : world.InsertsInside lower count request)
    (hreturns : world.Returns request result world') :
    world'.Consistent lower count ∧
      ∀ n, request = .alloc n → (world.Frozen lower count ∧ result = none) ∨
        world.Serves lower count n result := by
  rcases h with hfrozen | ⟨blocks, hordered⟩
  · obtain ⟨rfl, rfl⟩ := hreturns.unique ⟨0, (hfrozen.call hlegal 0).2⟩
    exact ⟨.inl hfrozen, fun n _ ↦ .inl ⟨hfrozen, rfl⟩⟩
  · cases request with
    | alloc n =>
      obtain ⟨found, next, blocks', hcall, hnext, hserves⟩ :=
        hordered.call_alloc hlegal (Nat.lt_succ_self _)
      obtain ⟨rfl, rfl⟩ := hreturns.unique ⟨_, hcall⟩
      refine ⟨.inr ⟨blocks', hnext⟩, fun m heq ↦ .inr ?_⟩
      obtain rfl : n = m := by simpa using heq
      exact hserves
    | free base n =>
      obtain ⟨next, blocks', hcall, hnext⟩ :=
        hordered.call_free hlegal hinside (Nat.lt_succ_self _)
      obtain ⟨rfl, rfl⟩ := hreturns.unique ⟨_, hcall⟩
      exact ⟨.inr ⟨blocks', hnext⟩, by simp⟩

theorem Reachable.consistent (h : Reachable lower count allowed world)
    (hallowed : ∀ world call world', allowed world call world' →
      world.InsertsInside lower count call) :
    world.Consistent lower count := by
  induction h with
  | @boot fuel area area' hcount hreserved hboot =>
    obtain ⟨booted, hbooted, hlisted, hfree⟩ := defaultInitMemmap_spec hcount hreserved fuel
    obtain rfl : area' = booted := by simpa [hboot] using hbooted
    rcases Nat.eq_zero_or_pos (uint32 count) with hzero | hpos
    · rw [hzero] at hlisted hfree
      exact .inl ⟨hzero, rfl, hfree, hlisted⟩
    · exact .inr ⟨_, by simpa [Ordered] using Wf.boot hlisted hfree hpos⟩
  | call _ hlegal hstep hreturns ih =>
    exact (Consistent.call ih hlegal (hallowed _ _ _ hstep) hreturns).1

/-- Every legal call returns, whether or not it inserts inside the list. -/
theorem Consistent.call_returns (h : world.Consistent lower count) (hlegal : world.Legal request)
    (hfuel : count + 1 < fuel) :
    ∃ result world', world.call fuel request = .ok (result, world') := by
  rcases h with hfrozen | ⟨blocks, hordered⟩
  · exact ⟨none, world, (hfrozen.call hlegal fuel).2⟩
  · have hlength := hordered.length_lt
    cases request with
    | alloc n =>
      obtain ⟨found, next, -, hcall, -⟩ := hordered.call_alloc hlegal (by omega : _ < fuel)
      exact ⟨found, next, hcall⟩
    | free base n =>
      by_cases hinside : world.InsertsInside lower count (.free base n)
      · obtain ⟨next, -, hcall, -⟩ := hordered.call_free hlegal hinside (by omega : _ < fuel)
        exact ⟨none, next, hcall⟩
      · obtain ⟨next, hcall, -⟩ :=
          hordered.call_free_behind hlegal hinside (by omega : _ < fuel)
        exact ⟨none, next, hcall⟩

/-- In a run every release inserts inside the list. -/
abbrev insertingInside (lower count : ℕ) (world : World) (request : Call) (_ : World) : Prop :=
  world.InsertsInside lower count request

/-- In a run the highest page of the range is never lent. -/
abbrev sparingTop (lower count : ℕ) (_ : World) (_ : Call) (world' : World) : Prop :=
  lower + count - 1 ∉ world'.allocated

theorem managed_subset : managed lower count ⊆ Finset.Ico lower (lower + count) := by
  have hle : uint32 count ≤ count := Nat.mod_le _ _
  exact Finset.Ico_subset_Ico_right (by omega)

theorem free_eq (hcount : count < 2 ^ 32) (world : World) :
    world.free lower count = Finset.Ico lower (lower + count) \ world.allocated := by
  rw [free, managed, uint32_eq hcount]

theorem Reachable.count_pos (h : Reachable lower count allowed world) : 0 < count := by
  induction h with
  | boot hcount => exact hcount
  | call _ _ _ _ ih => exact ih

/-- The run invariant when the length of the range fits an `unsigned int`. -/
theorem Reachable.ordered (h : Reachable lower count (insertingInside lower count) world)
    (hcount : count < 2 ^ 32) : ∃ blocks, world.Ordered lower count blocks := by
  have hpos := h.count_pos
  rcases h.consistent fun _ _ _ hinside ↦ hinside with hfrozen | hordered
  · have hwraps := hfrozen.wraps
    rw [uint32_eq hcount] at hwraps
    omega
  · exact hordered

/-- While the top page stays free, there is always a free page above a release. -/
theorem Reachable.inside_of_sparingTop (hcount : count < 2 ^ 32)
    (h : Reachable lower count (sparingTop lower count) world) :
    Reachable lower count (insertingInside lower count) world ∧
      lower + count - 1 ∉ world.allocated := by
  induction h with
  | boot hpos hreserved hboot => exact ⟨.boot hpos hreserved hboot, by simp⟩
  | @call world world' request result hworld hlegal hallowed hreturns ih =>
    obtain ⟨hinside, htop⟩ := ih
    have hpos := hworld.count_pos
    refine ⟨.call hinside hlegal ?_ hreturns, hallowed⟩
    cases request with
    | alloc n => trivial
    | free base n =>
      obtain ⟨blocks, hordered⟩ := hinside.ordered hcount
      have hbase := hlegal.range.1
      have hrange := Wf.handed hordered (show base ∈ (world.allocated : Set ℕ) from hbase)
      have hne : base ≠ lower + count - 1 := fun heq ↦ htop (heq ▸ hbase)
      rw [uint32_eq hcount, Set.mem_Ico] at hrange
      refine .inr ⟨lower + count - 1, ?_, by omega⟩
      rw [free_eq hcount, Finset.mem_sdiff, Finset.mem_Ico]
      exact ⟨by omega, htop⟩

/-! ## Executing a run -/

section Execute

variable (allowed) [∀ world request world', Decidable (allowed world request world')]

/-- Perform the calls in order; `none` when one is not legal, not allowed or does not return. -/
def execute (fuel : ℕ) : World → List Call → Option World
  | world, [] => some world
  | world, request :: requests =>
    if world.Legal request then
      match world.call fuel request with
      | .ok (_, world') =>
        if allowed world request world' then execute fuel world' requests else none
      | .error _ => none
    else none

theorem Reachable.execute {requests : List Call} (h : Reachable lower count allowed world)
    (hrun : World.execute allowed fuel world requests = some world') :
    Reachable lower count allowed world' := by
  induction requests generalizing world with
  | nil =>
    obtain rfl : world = world' := by simpa [World.execute] using hrun
    exact h
  | cons request requests ih =>
    rw [World.execute] at hrun
    split at hrun
    · rename_i hlegal
      split at hrun
      · rename_i result next hcall
        split at hrun
        · rename_i hallowed
          exact ih (h.call hlegal hallowed ⟨fuel, hcall⟩) hrun
        · simp at hrun
      · simp at hrun
    · simp at hrun

/-- A machine whose pages are all reserved, as `page_init` leaves them. -/
def rawArea : FreeArea := ⟨⟨id, id⟩, fun _ ↦ setPageReserved ⟨0, 0#64, 0⟩, 0⟩

theorem rawArea_reserved (page : ℕ) : pageReserved (rawArea.pages page) = true := by
  simp [rawArea, setPageReserved, pageReserved, testBit_setBit, PG_reserved]

/-- Boot on the pages `[0, count)` and perform the calls. -/
def executeFrom (fuel count : ℕ) (requests : List Call) : Option World :=
  match defaultInitMemmap fuel (defaultInit rawArea) 0 count with
  | .ok area => World.execute allowed fuel ⟨area, ∅⟩ requests
  | .error _ => none

theorem reachable_of_executeFrom {requests : List Call} (hcount : 0 < count)
    (hrun : executeFrom allowed fuel count requests = some world) :
    Reachable 0 count allowed world := by
  unfold executeFrom at hrun
  split at hrun
  · rename_i area hboot
    exact Reachable.execute allowed (.boot hcount (fun _ _ _ ↦ rawArea_reserved _) hboot) hrun
  · simp at hrun

/-- The result of an allocation, when it returns a page. -/
def allocResult (fuel : ℕ) (world : World) (n : ℕ) : Option ℕ :=
  match world.call fuel (.alloc n) with
  | .ok (result, _) => result
  | .error _ => none

theorem returns_of_allocResult {page : ℕ} (h : allocResult fuel world n = some page) :
    ∃ world', world.Returns (.alloc n) (some page) world' := by
  unfold allocResult at h
  split at h
  · rename_i result next hcall
    exact ⟨next, fuel, by rw [hcall, h]⟩
  · simp at h

end Execute

/-! ## Reading the free list -/

/-- A list entry with the size its page records. -/
def entryBlock (area : FreeArea) : ListEntry → Block
  | freeList => ⟨0, 0⟩
  | pageLink page => ⟨page, (area.pages page).property⟩

/-- The blocks met on a walk from `&free_list` round to it. -/
def freeBlocks (fuel : ℕ) (area : FreeArea) : Option (List Block) :=
  (area.links.traverse freeList fuel freeList).map (List.map (entryBlock area))

theorem freeBlocks_eq {upper : ℕ} {area : FreeArea} {blocks : List Block}
    (h : Threaded lower upper area blocks) (hfuel : blocks.length < fuel) :
    freeBlocks fuel area = some blocks := by
  have hwalk : area.links.traverse freeList fuel freeList = some (blocks.map headLink) :=
    h.ring.traverse_head (by simpa using hfuel)
  have hentries : (blocks.map headLink).map (entryBlock area) = blocks := by
    rw [List.map_map]
    refine (List.map_congr_left fun block hblock ↦ ?_).trans (List.map_id blocks)
    simp [entryBlock, h.property block hblock]
  rw [freeBlocks, hwalk, Option.map_some, hentries]

/-! ## Results about whole runs -/

/-- No page is handed out twice. -/
theorem alloc_pages_disjoint {page : ℕ}
    (hworld : Reachable lower count (insertingInside lower count) world) (hn : 0 < n)
    (hreturns : world.Returns (.alloc n) (some page) world') :
    Finset.Ico page (page + n) ⊆ Finset.Ico lower (lower + count) ∧
      Disjoint (Finset.Ico page (page + n)) world.allocated := by
  have hconsistent := hworld.consistent fun _ _ _ hinside ↦ hinside
  have hlegal : world.Legal (.alloc n) := hn
  obtain ⟨-, hresult⟩ := hconsistent.call hlegal trivial hreturns
  rcases hresult n rfl with ⟨-, hnone⟩ | hserves
  · simp at hnone
  · have hfree : Finset.Ico page (page + n) ⊆ world.free lower count := hserves
    refine ⟨hfree.trans (Finset.sdiff_subset.trans managed_subset), ?_⟩
    exact Finset.disjoint_of_subset_left hfree Finset.sdiff_disjoint

theorem alloc_pages_disjoint_first : ∃ world world' : World,
    world.Returns (.alloc 2) (some 1) world' ∧
      Finset.Ico 1 (1 + 2) ⊆ Finset.Ico 0 (0 + 6) ∧ Disjoint (Finset.Ico 1 (1 + 2)) world.allocated := by
  have hrun : (executeFrom (insertingInside 0 6) 16 6 [.alloc 1]).any
      (fun world ↦ allocResult 16 world 2 = some 1) = true := by decide
  obtain ⟨world, hworld, hresult⟩ := Option.any_eq_true _ _ |>.mp hrun
  obtain ⟨world', hreturns⟩ := returns_of_allocResult (of_decide_eq_true hresult)
  exact ⟨world, world', hreturns, alloc_pages_disjoint
    (reachable_of_executeFrom _ (by decide) hworld) (by decide) hreturns⟩

/-- After the releases of `2`, `0` and `[4, 6)` two allocations in a row return the page `4`. -/
theorem alloc_pages_twice : ¬ ∀ (lower count n page : ℕ) (world world' : World),
    Reachable lower count (fun _ _ _ ↦ True) world → 0 < n →
    world.Returns (.alloc n) (some page) world' →
    Finset.Ico page (page + n) ⊆ Finset.Ico lower (lower + count) ∧
      Disjoint (Finset.Ico page (page + n)) world.allocated := by
  intro hapart
  have hrun : (executeFrom (fun _ _ _ ↦ True) 16 6
      [.alloc 6, .free 2 1, .free 0 1, .free 4 2, .alloc 2]).any
      (fun world ↦ allocResult 16 world 2 = some 4 ∧ 4 ∈ world.allocated) = true := by decide
  obtain ⟨world, hworld, hresult⟩ := Option.any_eq_true _ _ |>.mp hrun
  obtain ⟨hresult, hheld⟩ := of_decide_eq_true hresult
  obtain ⟨world', hreturns⟩ := returns_of_allocResult hresult
  obtain ⟨-, hdisjoint⟩ := hapart 0 6 2 4 world world'
    (reachable_of_executeFrom _ (by decide) hworld) (by decide) hreturns
  exact Finset.disjoint_left.mp hdisjoint (by decide) hheld

/-- The list is a ring of all free blocks in ascending order, and every call on it comes to an end.
A release keeps the ring exactly when it inserts inside the list. -/
theorem freeList_integrity
    (hworld : Reachable lower count (insertingInside lower count) world) :
    (∃ blocks, Listed lower (lower + count) world.area blocks ∧
      (blocks.map Block.start).Pairwise (· < ·) ∧
      cover blocks = (world.free lower count : Set ℕ)) ∧
    (∀ request fuel, world.Legal request → count + 1 < fuel →
      ∃ result world', world.call fuel request = .ok (result, world')) ∧
    ∀ base n world', world.Legal (.free base n) → world.Returns (.free base n) none world' →
      ((∃ members, Ring world'.area.links freeList members) ↔
        world.InsertsInside lower count (.free base n)) := by
  have hconsistent := hworld.consistent fun _ _ _ hinside ↦ hinside
  refine ⟨?_, fun request fuel hlegal hfuel ↦ hconsistent.call_returns hlegal hfuel, ?_⟩
  · rcases hconsistent with hfrozen | ⟨blocks, hordered⟩
    · refine ⟨[⟨lower, 0⟩], hfrozen.listed, by simp, ?_⟩
      simp [free, managed, hfrozen.wraps, Block.cells]
    · refine ⟨blocks, Wf.toListed hordered, ?_, hordered.cover_eq⟩
      rw [List.pairwise_map]
      refine (Wf.separated hordered).ascending.imp fun {left right} hlt ↦ ?_
      rw [Block.stop_eq] at hlt
      omega
  · intro base n world' hlegal hreturns
    rcases hconsistent with hfrozen | ⟨blocks, hordered⟩
    · obtain ⟨m, hcall⟩ := (hfrozen.call hlegal 0).1
      simp at hcall
    · by_cases hinside : world.InsertsInside lower count (.free base n)
      · obtain ⟨next, blocks', hcall, hnext⟩ :=
          hordered.call_free hlegal hinside (Nat.lt_succ_self _)
        obtain ⟨-, rfl⟩ := hreturns.unique ⟨_, hcall⟩
        exact iff_of_true ⟨_, Listed.ring (Wf.toListed hnext)⟩ hinside
      · obtain ⟨next, hcall, hring⟩ :=
          hordered.call_free_behind hlegal hinside (Nat.lt_succ_self _)
        obtain ⟨-, rfl⟩ := hreturns.unique ⟨_, hcall⟩
        refine iff_of_false (fun hmembers ↦ ?_) hinside
        obtain ⟨members, h⟩ := hmembers
        exact hring members h

theorem freeList_integrity_first : ∃ world : World, world.allocated = {0, 2} ∧
    ∃ blocks, Listed 0 (0 + 3) world.area blocks ∧ (blocks.map Block.start).Pairwise (· < ·) ∧
      cover blocks = (world.free 0 3 : Set ℕ) := by
  have hrun : (executeFrom (insertingInside 0 3) 16 3 [.alloc 3, .free 1 1]).any
      (fun world ↦ world.allocated = {0, 2}) = true := by decide
  obtain ⟨world, hworld, hheld⟩ := Option.any_eq_true _ _ |>.mp hrun
  exact ⟨world, of_decide_eq_true hheld,
    (freeList_integrity (reachable_of_executeFrom _ (by decide) hworld)).1⟩

/-- Releasing `0` and then `2` leaves `2` as its own predecessor. -/
theorem freeList_broken : ¬ ∀ (lower count : ℕ) (world : World),
    Reachable lower count (fun _ _ _ ↦ True) world →
    (∃ blocks, Listed lower (lower + count) world.area blocks ∧
      (blocks.map Block.start).Pairwise (· < ·)) ∧
    ∀ request, world.Legal request → ∃ result world', world.Returns request result world' := by
  intro hordered
  have hrun : (executeFrom (fun _ _ _ ↦ True) 16 3 [.alloc 3, .free 0 1, .free 2 1]).any
      (fun world ↦ world.area.links.prev freeList = pageLink 2 ∧
        world.area.links.next (world.area.links.prev (pageLink 2)) ≠ pageLink 2) = true := by
    decide
  obtain ⟨world, hworld, hlinks⟩ := Option.any_eq_true _ _ |>.mp hrun
  obtain ⟨hprev, hnot⟩ := of_decide_eq_true hlinks
  obtain ⟨⟨blocks, hlisted, -⟩, -⟩ :=
    hordered 0 3 world (reachable_of_executeFrom _ (by decide) hworld)
  have hmem := hlisted.ring.mem_of_prev_head hprev (by decide)
  exact hnot (hlisted.ring.inverse (List.mem_cons_of_mem _ hmem)).2

/-- The free list is the list of the maximal runs of free pages, whatever the order of the releases
was, and an allocation fails only for want of a run that is long enough. -/
theorem freeList_canonical (hcount : count < 2 ^ 32)
    (hworld : Reachable lower count (insertingInside lower count) world) (hfuel : count < fuel) :
    (∃ blocks, freeBlocks fuel world.area = some blocks ∧
      blocks.Pairwise (fun left right ↦ left.stop < right.start) ∧
      ∀ block, block ∈ blocks ↔
        MaximalRun ↑(Finset.Ico lower (lower + count) \ world.allocated) block) ∧
    (∀ lower' count' world', count' < 2 ^ 32 → count' < fuel →
      Reachable lower' count' (insertingInside lower' count') world' →
      Finset.Ico lower' (lower' + count') \ world'.allocated =
        Finset.Ico lower (lower + count) \ world.allocated →
      freeBlocks fuel world'.area = freeBlocks fuel world.area) ∧
    ∀ n world', 0 < n → world.Returns (.alloc n) none world' →
      ∀ start, ¬ Finset.Ico start (start + n) ⊆
        Finset.Ico lower (lower + count) \ world.allocated := by
  obtain ⟨blocks, hordered⟩ := hworld.ordered hcount
  have hread : freeBlocks fuel world.area = some blocks :=
    freeBlocks_eq (Wf.toListed hordered).threaded (lt_of_le_of_lt hordered.length_lt hfuel)
  have hcover := hordered.cover_eq
  rw [free_eq hcount] at hcover
  refine ⟨⟨blocks, hread, (Wf.separated hordered).ascending, fun block ↦ ?_⟩, ?_, ?_⟩
  · rw [← hcover]
    exact (Wf.separated hordered).mem_iff_maximalRun
  · intro lower' count' world' hcount' hfuel' hworld' hsame
    obtain ⟨others, hordered'⟩ := hworld'.ordered hcount'
    have hcover' := hordered'.cover_eq
    rw [free_eq hcount', hsame, ← hcover] at hcover'
    rw [hread, freeBlocks_eq (Wf.toListed hordered').threaded
      (lt_of_le_of_lt hordered'.length_lt hfuel')]
    exact congrArg some ((Wf.separated hordered').eq_of_cover_eq (Wf.separated hordered) hcover')
  · intro n world' hn hreturns
    obtain ⟨result, next, -, hcall, -, hserves⟩ := hordered.call_alloc hn (Nat.lt_succ_self _)
    obtain ⟨rfl, -⟩ := hreturns.unique ⟨_, hcall⟩
    rw [← free_eq hcount]
    exact hserves

theorem freeList_canonical_first : ∃ world : World, world.allocated = {0, 2} ∧
    ∃ blocks, freeBlocks 16 world.area = some blocks ∧
      blocks.Pairwise (fun left right ↦ left.stop < right.start) ∧
      ∀ block, block ∈ blocks ↔
        MaximalRun ↑(Finset.Ico 0 (0 + 3) \ world.allocated) block := by
  have hrun : (executeFrom (insertingInside 0 3) 16 3 [.alloc 3, .free 1 1]).any
      (fun world ↦ world.allocated = {0, 2}) = true := by decide
  obtain ⟨world, hworld, hheld⟩ := Option.any_eq_true _ _ |>.mp hrun
  have hreachable := reachable_of_executeFrom _ (by decide) hworld
  exact ⟨world, of_decide_eq_true hheld,
    (freeList_canonical (by decide) hreachable (by decide)).1⟩

/-- Two released pages merge or stay apart, depending on which one is released first. -/
theorem freeList_order_dependent :
    ¬ ∀ (lower count lower' count' fuel : ℕ) (world world' : World),
      Reachable lower count (fun _ _ _ ↦ True) world →
      Reachable lower' count' (fun _ _ _ ↦ True) world' → count < fuel → count' < fuel →
      Finset.Ico lower' (lower' + count') \ world'.allocated =
        Finset.Ico lower (lower + count) \ world.allocated →
      freeBlocks fuel world'.area = freeBlocks fuel world.area := by
  intro hcanonical
  have hup : (executeFrom (fun _ _ _ ↦ True) 16 2
      [.alloc 1, .alloc 1, .free 0 1, .free 1 1]).any
      (fun world ↦ freeBlocks 16 world.area = some [⟨0, 1⟩, ⟨1, 1⟩] ∧ world.allocated = ∅) =
        true := by decide
  have hdown : (executeFrom (fun _ _ _ ↦ True) 16 2
      [.alloc 1, .alloc 1, .free 1 1, .free 0 1]).any
      (fun world ↦ freeBlocks 16 world.area = some [⟨0, 2⟩] ∧ world.allocated = ∅) = true := by
    decide
  obtain ⟨world, hworld, hup⟩ := Option.any_eq_true _ _ |>.mp hup
  obtain ⟨world', hworld', hdown⟩ := Option.any_eq_true _ _ |>.mp hdown
  obtain ⟨hlist, hheld⟩ := of_decide_eq_true hup
  obtain ⟨hlist', hheld'⟩ := of_decide_eq_true hdown
  have hsame := hcanonical 0 2 0 2 16 world world' (reachable_of_executeFrom _ (by decide) hworld)
    (reachable_of_executeFrom _ (by decide) hworld') (by decide) (by decide)
    (by rw [hheld, hheld'])
  rw [hlist, hlist'] at hsame
  exact absurd hsame (by decide)

/-- While the highest page has never been lent, the allocator is in order without any condition on
the releases. -/
theorem first_fit_invariant (hcount : count < 2 ^ 32)
    (hworld : Reachable lower count (sparingTop lower count) world) :
    (∃ blocks, Wf lower (lower + count) (lower + count) world.allocated world.area blocks) ∧
      ∀ request fuel, world.Legal request → count + 1 < fuel →
        ∃ result world', world.call fuel request = .ok (result, world') := by
  have hinside := (hworld.inside_of_sparingTop hcount).1
  refine ⟨?_, fun request fuel hlegal hfuel ↦ ?_⟩
  · obtain ⟨blocks, hordered⟩ := hinside.ordered hcount
    rw [Ordered, uint32_eq hcount] at hordered
    exact ⟨blocks, hordered⟩
  · exact (hinside.consistent fun _ _ _ h ↦ h).call_returns hlegal hfuel

theorem first_fit_invariant_first : ∃ world : World, world.allocated = {0, 2} ∧
    ∃ blocks, Wf 0 (0 + 4) (0 + 4) world.allocated world.area blocks := by
  have hrun : (executeFrom (sparingTop 0 4) 16 4 [.alloc 3, .free 1 1]).any
      (fun world ↦ world.allocated = {0, 2}) = true := by decide
  obtain ⟨world, hworld, hheld⟩ := Option.any_eq_true _ _ |>.mp hrun
  have hreachable := reachable_of_executeFrom _ (by decide) hworld
  exact ⟨world, of_decide_eq_true hheld, (first_fit_invariant (by decide) hreachable).1⟩

end World

end Ucore
