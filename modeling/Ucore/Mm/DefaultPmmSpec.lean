import Ucore.Mm.DefaultPmmList

/-!
# What one call of the first-fit allocator does

`Wf lower upper limit allocated area blocks` says that `area` lends the pages of `[lower, upper)`,
that `allocated` are handed out and that its free list is the separated block list `blocks`. The
range given to `default_init_memmap` ends at `limit`; it is longer than `[lower, upper)` when its
length does not fit an `unsigned int`. What the calls do to the list is known from `WellListed`; here
they keep the books of the pages that are handed out.
-/

namespace Ucore

open Foundation ListEntry

/-- The free list threads exactly `blocks`, and the descriptors of `[lower, upper)` agree. -/
structure Listed (lower upper : ℕ) (area : FreeArea) (blocks : List Block) : Prop where
  ring : Ring area.links freeList (blocks.map headLink)
  property : ∀ block ∈ blocks, (area.pages block.start).property = block.size
  heads : ∀ page, lower ≤ page → page < upper →
    (pageProperty (area.pages page) = true ↔ ∃ block ∈ blocks, block.start = page)
  unreserved : ∀ page, lower ≤ page → page < upper → pageReserved (area.pages page) = false

structure Wf (lower upper limit : ℕ) (allocated : Set ℕ) (area : FreeArea) (blocks : List Block) :
    Prop extends Listed lower limit area blocks where
  small : upper < lower + 2 ^ 32
  within : upper ≤ limit
  handed : allocated ⊆ Set.Ico lower upper
  separated : Separated blocks
  cover : cover blocks = Set.Ico lower upper \ allocated
  total : area.nrFree = (blocks.map Block.size).sum

theorem Listed.threaded {lower upper : ℕ} {area : FreeArea} {blocks : List Block}
    (h : Listed lower upper area blocks) : Threaded lower upper area blocks :=
  ⟨h.ring, h.property, h.heads⟩

namespace Wf

variable {lower upper limit n fuel : ℕ} {allocated : Set ℕ} {area : FreeArea}
  {blocks pre post : List Block} {block : Block}

theorem inside (h : Wf lower upper limit allocated area blocks) (hblock : block ∈ blocks) :
    lower ≤ block.start ∧ block.stop ≤ upper :=
  h.separated.inside_of_cover (h.cover ▸ Set.sdiff_subset) hblock

theorem start_lt (h : Wf lower upper limit allocated area blocks) (hblock : block ∈ blocks) :
    block.start < upper := by
  have hstop := (h.inside hblock).2
  have hsize := h.separated.nonempty block hblock
  rw [Block.stop_eq] at hstop
  omega

theorem nrFree_le (h : Wf lower upper limit allocated area blocks) : area.nrFree ≤ upper - lower := by
  rw [h.total]
  by_cases hle : lower ≤ upper
  · exact h.separated.sum_size_le hle fun block hblock ↦ h.inside hblock
  · have hempty : blocks = [] := by
      refine List.eq_nil_iff_forall_not_mem.mpr fun block hblock ↦ ?_
      have hin := h.inside hblock
      have hlt := h.start_lt hblock
      omega
    simp [hempty]

theorem length_le (h : Wf lower upper limit allocated area blocks) : blocks.length ≤ upper - lower := by
  have hsum : blocks.length ≤ (blocks.map Block.size).sum := by
    have hlength : (blocks.map Block.size).length ≤ (blocks.map Block.size).sum :=
      List.length_le_sum_of_one_le _ fun size hsize ↦ by
        obtain ⟨block, hblock, rfl⟩ := List.mem_map.mp hsize
        exact h.separated.nonempty block hblock
    rwa [List.length_map] at hlength
  exact hsum.trans (h.total ▸ h.nrFree_le)

theorem wellListed (h : Wf lower upper limit allocated area blocks) :
    WellListed lower limit area blocks where
  toThreaded := h.toListed.threaded
  inside block hblock :=
    ⟨(h.inside hblock).1, (h.inside hblock).2.trans h.within⟩
  separated := h.separated
  total := h.total
  small := by
    have hfree := h.nrFree_le
    have hsmall := h.small
    omega

/-! ## Allocation -/

/-- Taking pages from the front of a block of the list. -/
theorem takePages (h : Wf lower upper limit allocated area (pre ++ block :: post)) (hn : 0 < n)
    (hle : n ≤ block.size) :
    Wf lower upper limit (allocated ∪ Set.Ico block.start (block.start + n))
      (Ucore.takePages area block.start n) (pre ++ (remainder block n ++ post)) := by
  have htaken := h.wellListed.takePages hn hle
  refine ⟨⟨htaken.ring, htaken.property, htaken.heads, fun page hlower hupper ↦ ?_⟩, h.small,
    h.within, ?_, htaken.separated, ?_, htaken.total⟩
  · rw [takePages_reserved hn]
    exact h.unreserved page hlower hupper
  · refine Set.union_subset h.handed fun page hpage ↦ ?_
    have hin := h.inside (show block ∈ pre ++ block :: post by simp)
    rw [Block.stop_eq] at hin
    rw [Set.mem_Ico] at hpage ⊢
    omega
  · rw [cover_carve h.separated hle, h.cover, Set.sdiff_sdiff]

/-! ## Release -/

/-- A page that is handed out belongs to no block. -/
theorem not_mem_of_allocated (h : Wf lower upper limit allocated area blocks) {page : ℕ}
    (hpage : page ∈ allocated) {block : Block} (hblock : block ∈ blocks) :
    ¬ (block.start ≤ page ∧ page < block.stop) := by
  intro hcell
  have hcover : page ∈ Foundation.cover blocks := ⟨block, hblock, hcell⟩
  rw [h.cover] at hcover
  exact hcover.2 hpage

section Free

variable {base : ℕ} (h : Wf lower upper limit allocated area blocks) (hn : 0 < n)
  (hrange : Set.Ico base (base + n) ⊆ allocated)

include h hn hrange

/-- No block reaches into a range that is handed out. -/
theorem apart_of_allocated {block : Block} (hblock : block ∈ blocks) :
    block.stop ≤ base ∨ base + n ≤ block.start := by
  by_contra hnot
  have hsize := h.separated.nonempty block hblock
  have hpage : max base block.start ∈ Set.Ico base (base + n) := by
    rw [Set.mem_Ico]
    omega
  refine h.not_mem_of_allocated (hrange hpage) hblock ⟨le_max_right _ _, ?_⟩
  rw [Block.stop_eq] at hnot ⊢
  omega

theorem bounds_of_allocated : lower ≤ base ∧ base + n ≤ upper := by
  have hfirst := h.handed (hrange (show base ∈ Set.Ico base (base + n) by rw [Set.mem_Ico]; omega))
  have hlast := h.handed (hrange (show base + (n - 1) ∈ Set.Ico base (base + n) by
    rw [Set.mem_Ico]; omega))
  rw [Set.mem_Ico] at hfirst hlast
  omega

/-- The pages that are free and those that are released are not too many for the counter. -/
theorem room_of_allocated : area.nrFree + n < 2 ^ 32 := by
  have hbounds := h.bounds_of_allocated hn hrange
  have hsum := h.separated.sum_size_add_le hn (fun _ ↦ h.apart_of_allocated hn hrange)
    (fun _ ↦ h.inside) hbounds.1 hbounds.2
  have hsmall := h.small
  rw [h.total]
  omega

omit hn in
theorem unreserved_of_allocated (page : ℕ) (hlower : base ≤ page) (hupper : page < base + n) :
    pageReserved (area.pages page) = false := by
  have hin := h.handed (hrange ⟨hlower, hupper⟩)
  have hwithin := h.within
  rw [Set.mem_Ico] at hin
  exact h.unreserved page hin.1 (by omega)

/-- Releasing handed out pages: the range becomes a block of the list and merges with the blocks
it touches. -/
theorem defaultFreePages_spec (hinside : FreesInside blocks base)
    (hfuel : blocks.length < fuel) :
    ∃ pre post area', blocks = pre ++ post ∧ (∀ left ∈ pre, left.stop ≤ base) ∧
      (∀ right ∈ post, base + n ≤ right.start) ∧
      defaultFreePages fuel area base n = .ok area' ∧
      Wf lower upper limit (allocated \ Set.Ico base (base + n)) area' (release pre ⟨base, n⟩ post) := by
  have hbounds := h.bounds_of_allocated hn hrange
  obtain ⟨pre, post, area', hsplit, hleft, hright, hfree, hwell, hreserved⟩ :=
    h.wellListed.defaultFreePages_spec (fun _ ↦ h.apart_of_allocated hn hrange) hn
      (h.room_of_allocated hn hrange) ⟨hbounds.1, hbounds.2.trans h.within⟩
      (h.unreserved_of_allocated hrange) hinside hfuel
  have hmerged : Foundation.cover (release pre ⟨base, n⟩ post) =
      Foundation.cover (pre ++ post) ∪ Block.cells ⟨base, n⟩ :=
    cover_release (hsplit ▸ h.separated) hn hleft hright
  refine ⟨pre, post, area', hsplit, hleft, hright, hfree,
    ⟨hwell.ring, hwell.property, hwell.heads, fun page hlower hupper ↦ ?_⟩, h.small, h.within,
    Set.sdiff_subset.trans h.handed, hwell.separated, ?_, hwell.total⟩
  · rw [hreserved]
    exact h.unreserved page hlower hupper
  · rw [hmerged, ← hsplit, h.cover, Set.sdiff_sdiff_right,
      Set.inter_eq_right.mpr (hrange.trans h.handed)]
    rfl

/-- Behind the last block of a non-empty list the range ends up linked behind itself: it is its own
predecessor, and the list is no ring any more. -/
theorem defaultFreePages_behind (hne : blocks ≠ [])
    (hbehind : ∀ block ∈ blocks, ¬ base < block.start) (hfuel : blocks.length + 1 < fuel) :
    ∃ area', defaultFreePages fuel area base n = .ok area' ∧
      ∀ members, ¬ Ring area'.links freeList members := by
  have hbounds := h.bounds_of_allocated hn hrange
  obtain ⟨single, hsingle, hfree⟩ :=
    h.wellListed.defaultFreePages_behind (fun _ ↦ h.apart_of_allocated hn hrange) hn
      ⟨hbounds.1, hbounds.2.trans h.within⟩ (h.unreserved_of_allocated hrange)
      (h.room_of_allocated hn hrange) hne hbehind hfuel
  refine ⟨_, hfree, fun members hring ↦ ?_⟩
  have hend : single.next (pageLink base) = freeList := hsingle.next_member
  have hmem : pageLink base ∈ members := by
    refine hring.mem_of_prev_head ?_ (by simp)
    simp [listAdd, listAddAfter, __listAdd, hend]
  refine hring.next_ne_self hmem ?_
  have hback := (hring.inverse (List.mem_cons_of_mem _ hmem)).2
  have hself : (listAdd single (pageLink base) (pageLink base)).prev (pageLink base) =
      pageLink base := by
    simp [listAdd, listAddAfter, __listAdd]
  rwa [hself] at hback

end Free

end Wf

/-! ## The list after `default_init_memmap` -/

/-- The descriptors after the loop of `default_init_memmap`. -/
def cleared (area : FreeArea) (base n : ℕ) : FreeArea :=
  { area with
    pages := fun page ↦ if base ≤ page ∧ page < base + n then ⟨0, 0#64, 0⟩ else area.pages page }

theorem initPages_eq {base n : ℕ} {area : FreeArea}
    (h : ∀ page, base ≤ page → page < base + n → pageReserved (area.pages page) = true) :
    initPages base n area = .ok (cleared area base n) := by
  induction n generalizing base area with
  | zero =>
    have hnone : ∀ page, ¬ (base ≤ page ∧ page < base) := by intro page; omega
    simp [initPages, cleared, hnone]
  | succ n ih =>
    rw [initPages, assert_of_true (h base le_rfl (by omega))]
    change initPages (base + 1) n _ = _
    rw [ih fun page hlower hupper ↦ by
      have hne : page ≠ base := by omega
      simpa [hne] using h page (by omega) (by omega)]
    simp only [cleared, Except.ok.injEq, FreeArea.mk.injEq, FreeArea.updatePage_links,
      FreeArea.updatePage_nrFree, true_and, and_true]
    funext page
    by_cases heq : page = base
    · subst heq
      simp
    · have hiff : (base + 1 ≤ page ∧ page < base + 1 + n) ↔
          (base ≤ page ∧ page < base + (n + 1)) := by omega
      rw [if_congr hiff rfl rfl]
      simp [heq]

/-- The list holds one block; its size is the length of the range cut down to an `unsigned int`. -/
theorem defaultInitMemmap_spec {base n : ℕ} {area : FreeArea} (hn : 0 < n)
    (hreserved : ∀ page, base ≤ page → page < base + n → pageReserved (area.pages page) = true)
    (fuel : ℕ) :
    ∃ area', defaultInitMemmap fuel (defaultInit area) base n = .ok area' ∧
      Listed base (base + n) area' [⟨base, uint32 n⟩] ∧ area'.nrFree = uint32 n := by
  have hempty : Ring (listInit area.links freeList) freeList [] := Ring.listInit
  have hloop : initPages base n (defaultInit area) = .ok (cleared (defaultInit area) base n) :=
    initPages_eq hreserved
  have hinsert : insertFree fuel (listInit area.links freeList) base =
      .ok (listAdd (listInit area.links freeList) freeList (pageLink base)) := by
    simp [insertFree, hempty.listEmpty_iff]
  refine ⟨{ (cleared (defaultInit area) base n).updatePage base fun page ↦
      setPageProperty { page with property := uint32 n } with
    nrFree := uint32 n
    links := listAdd (listInit area.links freeList) freeList (pageLink base) }, ?_,
    ⟨?_, ?_, ?_, ?_⟩, rfl⟩
  · unfold defaultInitMemmap
    rw [assert_of_true hn, ok_bind, hloop, ok_bind]
    change insertFree fuel (listInit area.links freeList) base >>= _ = _
    rw [hinsert]
    change Except.ok _ = _
    simp [cleared, defaultInit]
  · exact hempty.listAdd_head (by simp)
  · simp
  · intro page hlower hupper
    by_cases heq : page = base
    · simp [heq]
    · simp [cleared, hlower, hupper, heq, Ne.symm heq]
  · intro page hlower hupper
    by_cases heq : page = base
    · simp [heq, cleared, hn]
    · simp [cleared, hlower, hupper, heq]

theorem Wf.boot {base n : ℕ} {area : FreeArea} (h : Listed base (base + n) area [⟨base, uint32 n⟩])
    (hfree : area.nrFree = uint32 n) (hpos : 0 < uint32 n) :
    Wf base (base + uint32 n) (base + n) ∅ area [⟨base, uint32 n⟩] where
  toListed := h
  small := by
    have := uint32_lt n
    omega
  within := by
    have : uint32 n ≤ n := Nat.mod_le _ _
    omega
  handed := Set.empty_subset _
  separated := Separated.singleton hpos
  cover := by simp [Block.cells]
  total := by simpa using hfree

end Ucore
