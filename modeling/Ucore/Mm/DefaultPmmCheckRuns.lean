import Ucore.Mm.DefaultPmmCheck

/-!
# When the self-test of the allocator passes

`default_check` can be called in every state that a run of the allocator reaches. It returns exactly
where five free pages lie in a row, and then its caller cannot tell that it ran.
-/

namespace Ucore

open Foundation ListEntry Check

section DefaultCheck

variable {lower limit fuel npage : ℕ} {area area' middle : FreeArea} {free : Set ℕ}

theorem Windowed.rfl : Windowed lower limit area area :=
  ⟨fun _ _ ↦ ⟨Eq.refl _, Eq.refl _⟩, fun _ _ ↦ Eq.refl _⟩

/-- Nothing is found on an empty list, whatever the counter says. -/
theorem defaultAllocPages_empty {n : ℕ} (hn : 0 < n) (hfuel : 0 < fuel)
    (hempty : area.links.next freeList = freeList) :
    defaultAllocPages fuel area n = .ok (none, area) := by
  obtain ⟨fuel, rfl⟩ := Nat.exists_eq_add_one_of_ne_zero hfuel.ne'
  unfold defaultAllocPages
  rw [assert_of_true hn, ok_bind, Links.findFrom, hempty, if_pos (Eq.refl _)]
  split <;> simp [pure, Except.pure]

/-- A page that is not free is no head of a block. -/
theorem Spare.not_head {page : ℕ} (h : Spare lower limit area free) (hlower : lower ≤ page)
    (hupper : page < limit) (hpage : page ∉ free) : pageProperty (area.pages page) = false := by
  obtain ⟨blocks, hwell, rfl⟩ := h.listed
  rw [Bool.eq_false_iff, ne_eq, hwell.heads page hlower hupper]
  rintro ⟨block, hblock, rfl⟩
  have hsize := hwell.separated.nonempty block hblock
  refine hpage ⟨block, hblock, le_rfl, ?_⟩
  rw [Block.stop_eq]
  omega

theorem WellListed.eq {blocks blocks' : List Block} (h : WellListed lower limit area blocks)
    (h' : WellListed lower limit area blocks') : blocks = blocks' := by
  have hwalk := World.freeBlocks_eq h.toThreaded
    (lt_of_lt_of_le (Nat.lt_succ_self _) (le_max_left (blocks.length + 1) (blocks'.length + 1)))
  rw [World.freeBlocks_eq h'.toThreaded
    (lt_of_lt_of_le (Nat.lt_succ_self _) (le_max_right _ _))] at hwalk
  exact (Option.some.inj hwalk).symm

/-- Lists of the same pages cannot be told apart, so one may start from the other. -/
theorem Spare.restored (h : Spare lower limit area free) (hmiddle : Spare lower limit middle free)
    (hwindow : Windowed lower limit area middle) (hrestored : Restored lower limit middle area') :
    Restored lower limit area area' := by
  obtain ⟨blocks, hwell, hcover⟩ := h.listed
  have hlisted := hmiddle.wellListed hwell.separated hcover
  obtain ⟨found, hfound⟩ := hrestored.blocks
  have hblocks : found = blocks := by
    have hwalk := (hfound (max found.length blocks.length + 1) (by omega)).1
    rw [World.freeBlocks_eq hlisted.toThreaded (by omega)] at hwalk
    exact (Option.some.inj hwalk).symm
  subst hblocks
  refine ⟨⟨found, fun fuel hfuel ↦ ?_⟩, ?_, fun page hpage hpage' ↦ ?_, fun page ↦ ?_⟩
  · exact ⟨World.freeBlocks_eq hwell.toThreaded hfuel, (hfound fuel hfuel).2⟩
  · rw [hrestored.nrFree, hlisted.total, hwell.total]
  · rw [hrestored.property page hpage hpage', Bool.eq_iff_iff, hlisted.heads page hpage hpage',
      hwell.heads page hpage hpage']
  · rw [hrestored.reserved, h.reserved_eq hmiddle hwindow]

/-- Five pages in a row: three pages are the lowest ones, and there is a page above these. -/
theorem exists_lowest {start : ℕ} (hrun : Set.Ico start (start + 5) ⊆ free) :
    ∃ p0 p1 p2, Lowest free p0 p1 p2 ∧ ∃ page ∈ free, p2 < page := by
  have hin : ∀ k < 5, start + k ∈ free := fun k hk ↦ hrun ⟨by omega, by omega⟩
  obtain ⟨p0, hp0⟩ := exists_isLeast_of_mem (hin 0 (by decide))
  have hsecond : ∃ k < 2, start + k ∈ free \ {p0} := by
    by_cases heq : start = p0
    · exact ⟨1, by decide, hin 1 (by decide), by rw [Set.mem_singleton_iff]; omega⟩
    · exact ⟨0, by decide, hin 0 (by decide), heq⟩
  obtain ⟨k, hk, hmem⟩ := hsecond
  obtain ⟨p1, hp1⟩ := exists_isLeast_of_mem hmem
  have hthird : ∃ k < 3, start + k ∈ (free \ {p0}) \ {p1} := by
    by_cases heq : start + 2 = p0 ∨ start + 2 = p1
    · by_cases hlow : start + 1 = p0 ∨ start + 1 = p1
      · refine ⟨0, by decide, ⟨hin 0 (by decide), ?_⟩, ?_⟩ <;> rw [Set.mem_singleton_iff] <;> omega
      · refine ⟨1, by decide, ⟨hin 1 (by decide), ?_⟩, ?_⟩ <;> rw [Set.mem_singleton_iff] <;> omega
    · refine ⟨2, by decide, ⟨hin 2 (by decide), ?_⟩, ?_⟩ <;> rw [Set.mem_singleton_iff] <;> omega
  obtain ⟨j, hj, hmem⟩ := hthird
  obtain ⟨p2, hp2⟩ := exists_isLeast_of_mem hmem
  have hle := hp2.2 hmem
  exact ⟨p0, p1, p2, ⟨hp0, hp1, hp2⟩, start + 4, hin 4 (by decide), by omega⟩

/-- With five free pages in a row the whole test passes and leaves no trace. -/
theorem defaultCheck_leads (h : Spare lower limit area free) (hsmall : limit - lower < 2 ^ 31)
    (hpages : ∀ page < limit, page2pa page < npage * PGSIZE % 2 ^ 64)
    (hfuel : limit - lower + 6 < fuel) (hrun : ∃ start, Set.Ico start (start + 5) ⊆ free) :
    Leads (defaultCheck fuel npage) area (fun _ area' ↦ Restored lower limit area area')
      fun _ ↦ False := by
  obtain ⟨start, hstart⟩ := hrun
  obtain ⟨q0, q1, q2, hlowest, hmore⟩ := exists_lowest hstart
  obtain ⟨page, hpage⟩ := exists_isLeast_of_mem
    (show start ∈ {start | Set.Ico start (start + 5) ⊆ free} from hstart)
  have hfirst : page ∈ free := hpage.1 ⟨le_rfl, by omega⟩
  have hlast : page + 4 ∈ free := hpage.1 ⟨by omega, by omega⟩
  have hlower := (h.lt_limit hfirst).1
  have hupper : page + 5 ≤ limit := (h.lt_limit hlast).2
  have hsmall' : limit - lower < 2 ^ 32 := by omega
  obtain ⟨blocks, hwell, hcover⟩ := h.listed
  have hlength := hwell.length_le
  have hsum := hwell.sum_le
  have hup := countUp_all hwell (show blocks.length < fuel by omega)
  refine .step rfl (.step (Check.lift_eq hup) (.step (Check.assert_eq ?_) ?_))
  · rw [signExtend_total (hsum.trans_lt hsmall), defaultNrFreePages, hwell.total]
  refine .bind ((basicCheck_leads h hsmall' hpages hfuel hlowest).mono ?_)
  rintro _ area1 ⟨hback, -⟩
  obtain ⟨hspare1, hwindow1⟩ := hback hmore
  obtain ⟨area2, hcall2, hspare2, -, hwindow2⟩ := hspare1.alloc page 5 fuel (by decide) (by omega) hpage
  have htaken : ∀ other, page ≤ other → other < page + 5 →
      other ∉ free \ Set.Ico page (page + 5) := fun other hlo hhi hother ↦ hother.2 ⟨hlo, hhi⟩
  have hhidden := hspare2.hide hlower hupper htaken
  refine .step (Check.allocSome_eq hcall2) (.step rfl (.step (Check.assert_eq ?_) ?_))
  · rw [hspare2.not_head hlower (by omega) (htaken page le_rfl (by omega))]
    rfl
  refine .step rfl (.step rfl (.step rfl (.step (Check.assert_eq ?_) ?_)))
  · exact (hhidden.list.ring_nil).listEmpty_iff.mpr (Eq.refl _)
  refine .step (Check.allocNull_eq (defaultAllocPages_empty one_pos (by omega)
    hhidden.list.next_head)) (.step rfl ?_)
  refine .bind ((defaultHidden_leads hhidden (by omega)).mono ?_)
  rintro _ area3 ⟨rfl, hqueue, hwindow⟩
  have hspare3 := hspare2.unhide htaken hqueue (hwindow _ windowed_hide)
  refine .step rfl (.step rfl ?_)
  change Leads _ (unhide area2 area3) _ _
  have hwindow3 : Windowed lower limit area1 (unhide area2 area3) :=
    (hwindow2 _ .rfl).unhide (hwindow _ windowed_hide) hlower hupper
  obtain ⟨area4, threaded, listed, hlisted, hcall4, hrestored, hthreaded, hnext, hpages4⟩ :=
    hspare1.restore hspare3 hwindow3 (by decide) hpage hsmall' (show limit - lower + 1 < fuel by omega)
  obtain rfl : blocks = listed := (hspare1.wellListed hwell.separated hcover).eq hlisted
  have hdown : countDown area4 fuel freeList
      (BitVec.ofNat 32 blocks.length, BitVec.ofNat 32 (blocks.map Block.size).sum) = .ok (0, 0) := by
    rw [countDown_congr hnext hpages4]
    exact countDown_all hthreaded (by omega)
  refine .step (Check.freePages_eq hcall4) (.step rfl (.step (Check.lift_eq hdown) ?_))
  refine .step (Check.assert_eq (Eq.refl _)) ?_
  exact .of_ok (Check.assert_eq (Eq.refl _)) (h.restored hspare1 (hwindow1 _ .rfl) hrestored)

/-- Without five free pages in a row the test panics. -/
theorem defaultCheck_panics (h : Spare lower limit area free) (hsmall : limit - lower < 2 ^ 31)
    (hpages : ∀ page < limit, page2pa page < npage * PGSIZE % 2 ^ 64)
    (hfuel : limit - lower + 6 < fuel) (hnone : ∀ start, ¬ Set.Ico start (start + 5) ⊆ free) :
    defaultCheck fuel npage area = .error .panic := by
  obtain ⟨blocks, hwell, hcover⟩ := h.listed
  have hlength := hwell.length_le
  have hsum := hwell.sum_le
  have hup := countUp_all hwell (show blocks.length < fuel by omega)
  refine Leads.error_of_never (.step rfl (.step (Check.lift_eq hup) (.step (Check.assert_eq ?_) ?_)))
  · rw [signExtend_total (hsum.trans_lt hsmall), defaultNrFreePages, hwell.total]
  by_cases hlowest : ∃ p0 p1 p2, Lowest free p0 p1 p2
  · obtain ⟨p0, p1, p2, hlowest⟩ := hlowest
    refine .bind (Leads.weaken ((basicCheck_leads h (by omega) hpages hfuel hlowest).mono ?_) nofun)
    rintro _ area1 ⟨hback, hfew⟩
    -- what is left is too short, in a list or in the counter
    have hnull : defaultAllocPages fuel area1 5 = .ok (none, area1) := by
      by_cases hmore : ∃ page ∈ free, p2 < page
      · exact (hback hmore).1.alloc_none (by decide) (by omega) hnone
      · apply defaultAllocPages_short (by decide)
        rw [hfew fun page hpage ↦ not_lt.mp fun hlt ↦ hmore ⟨page, hpage, hlt⟩]
        decide
    exact .fault_step (Check.allocSome_null hnull) (Eq.refl _)
  · exact .bind ((basicCheck_panics h (by omega) hlowest).mono nofun)

end DefaultCheck

namespace World

variable {lower count npage : ℕ} {world : World}

/-- Nobody refers to the pages of a range that was just initialised. -/
theorem boot_ref {fuel : ℕ} {area area' : FreeArea}
    (hreserved : ∀ page, lower ≤ page → page < lower + count → pageReserved (area.pages page) = true)
    (hboot : defaultInitMemmap fuel (defaultInit area) lower count = .ok area') (page : ℕ)
    (hlower : lower ≤ page) (hupper : page < lower + count) : (area'.pages page).ref = 0 := by
  obtain ⟨_, -, hboot⟩ := bind_eq_ok.mp hboot
  obtain ⟨looped, hloop, hboot⟩ := bind_eq_ok.mp hboot
  obtain ⟨links, -, hboot⟩ := bind_eq_ok.mp hboot
  have hcleared := hloop.symm.trans (initPages_eq fun page hlo hhi ↦ hreserved page hlo hhi)
  obtain rfl := Except.ok.inj hcleared
  obtain rfl := Except.ok.inj hboot
  by_cases heq : page = lower
  · simp [cleared, heq, hlower.trans_lt hupper, setPageProperty]
  · simp [cleared, heq, hlower, hupper]

/-- Free pages have no references: an allocation touches none, and a release clears its range. -/
theorem Reachable.ref (h : Reachable lower count (insertingInside lower count) world)
    (hcount : count < 2 ^ 32) :
    ∀ page ∈ world.free lower count, (world.area.pages page).ref = 0 := by
  induction h with
  | boot hpos hreserved hboot =>
    intro page hpage
    rw [free_eq hcount, Finset.mem_sdiff, Finset.mem_Ico] at hpage
    exact boot_ref hreserved hboot page hpage.1.1 hpage.1.2
  | @call world world' request result hworld hlegal hinside hreturns ih =>
    intro page hpage
    obtain ⟨fuel, hcall⟩ := hreturns
    cases request with
    | alloc n =>
      obtain ⟨⟨found, area⟩, halloc, hcall⟩ := bind_eq_ok.mp hcall
      have href := defaultAllocPages_ref hlegal halloc page
      cases found with
      | none =>
        obtain ⟨-, rfl⟩ := Prod.mk.inj (Except.ok.inj hcall)
        exact href.trans (ih page hpage)
      | some first =>
        obtain ⟨-, rfl⟩ := Prod.mk.inj (Except.ok.inj hcall)
        refine href.trans (ih page ?_)
        rw [free, Finset.mem_sdiff, Finset.mem_union, not_or] at hpage
        exact Finset.mem_sdiff.mpr ⟨hpage.1, hpage.2.1⟩
    | free base n =>
      obtain ⟨area, hfree, hcall⟩ := bind_eq_ok.mp hcall
      obtain ⟨-, rfl⟩ := Prod.mk.inj (Except.ok.inj hcall)
      rw [show _ = _ from defaultFreePages_ref hfree page]
      split
      · rfl
      · rename_i hout
        refine ih page ?_
        rw [free, Finset.mem_sdiff, Finset.mem_sdiff, Finset.mem_Ico] at hpage
        exact Finset.mem_sdiff.mpr ⟨hpage.1, fun hheld ↦ hpage.2 ⟨hheld, hout⟩⟩

theorem Reachable.spare (h : Reachable lower count (insertingInside lower count) world)
    (hcount : count < 2 ^ 32) :
    Spare lower (lower + count) world.area (world.free lower count) := by
  obtain ⟨blocks, hordered⟩ := h.ordered hcount
  exact ⟨⟨blocks, Wf.wellListed hordered, hordered.cover_eq⟩,
    Listed.unreserved (Wf.toListed hordered), h.ref hcount⟩

section Check

variable (hworld : Reachable lower count (insertingInside lower count) world) (hcount : count < 2 ^ 31)
  (hnpage : npage ≤ KERNTOP / PGSIZE) (hpages : page2ppn (lower + count) ≤ npage)

include hworld hcount hnpage hpages

omit hworld hcount in
/-- The pages of the range pass the comparison with the end of the memory. -/
theorem page2pa_lt (page : ℕ) (hpage : page < lower + count) :
    page2pa page < npage * PGSIZE % 2 ^ 64 := by
  have hppn : page2ppn page < npage := by
    unfold page2ppn at *
    omega
  rw [page2pa_eq hnpage hppn]
  unfold KERNTOP KERNBASE KMEMSIZE PGSIZE at *
  omega

theorem Reachable.check_returns {fuel : ℕ} (hfuel : count + 6 < fuel)
    (hrun : ∃ start, Finset.Ico start (start + 5) ⊆ world.free lower count) :
    ∃ area', defaultCheck fuel npage world.area = .ok ((), area') ∧
      Restored lower (lower + count) world.area area' := by
  obtain ⟨start, hstart⟩ := hrun
  have hset : Set.Ico start (start + 5) ⊆ (world.free lower count : Set ℕ) := by
    rwa [← Finset.coe_Ico, Finset.coe_subset]
  obtain ⟨⟨⟩, area', hcall, hrestored⟩ := (defaultCheck_leads (hworld.spare (by omega)) (by omega)
    (page2pa_lt hnpage hpages) (show lower + count - lower + 6 < fuel by omega)
    ⟨start, hset⟩).exists_of_total
  exact ⟨area', hcall, hrestored⟩

theorem Reachable.check_panics {fuel : ℕ} (hfuel : count + 6 < fuel)
    (hnone : ∀ start, ¬ Finset.Ico start (start + 5) ⊆ world.free lower count) :
    defaultCheck fuel npage world.area = .error .panic := by
  refine defaultCheck_panics (hworld.spare (by omega)) (by omega) (page2pa_lt hnpage hpages) (by omega)
    fun start hstart ↦ hnone start ?_
  rwa [← Finset.coe_subset, Finset.coe_Ico]

end Check

end World

end Ucore
