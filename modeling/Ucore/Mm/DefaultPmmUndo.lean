import Ucore.Mm.DefaultPmmRuns

/-!
# An allocation and its release

On every well-formed list `default_alloc_pages` serves the lowest block that is large enough, and
`default_free_pages` of what it returned brings back the list, the counter and the flags. The release
behind the last block leaves a list that is no ring; a walk along `next` does not notice.
-/

namespace Ucore

open Foundation ListEntry

variable {lower limit n fuel : ℕ} {area area' : FreeArea} {blocks : List Block}

/-! ## First fit -/

/-- An allocation changes nothing when no block has `n` pages; otherwise it takes the first `n` pages
of the lowest block that has, and nothing else. -/
theorem alloc_first_fit (h : WellListed lower limit area blocks) (hn : 0 < n) :
    ∃ least, ∀ fuel ≥ least,
      ((∀ block ∈ blocks, block.size < n) ∧
        defaultAllocPages fuel area n = .ok (none, area)) ∨
      ∃ pre block post area', blocks = pre ++ block :: post ∧ n ≤ block.size ∧
        (∀ other ∈ blocks, n ≤ other.size → block.start ≤ other.start) ∧
        defaultAllocPages fuel area n = .ok (some block.start, area') ∧
        WellListed lower limit area' (pre ++ (remainder block n ++ post)) ∧
        cover (pre ++ (remainder block n ++ post)) =
          cover blocks \ Set.Ico block.start (block.start + n) ∧
        ∀ page, page ≠ block.start → (n < block.size → page ≠ block.start + n) →
          area'.pages page = area.pages page := by
  refine ⟨blocks.length + 1, fun fuel hfuel ↦ ?_⟩
  rcases h.defaultAllocPages_spec hn hfuel with
    hnone | ⟨pre, block, post, rfl, hpre, hle, halloc⟩
  · exact .inl hnone
  refine .inr ⟨pre, block, post, _, rfl, hle, fun other hother hfits ↦ ?_, halloc,
    h.takePages hn hle, cover_carve h.separated hle, fun page hhead hrest ↦ ?_⟩
  · rcases List.mem_append.mp hother with hbefore | hbehind
    · exact absurd (hpre other hbefore) (Nat.not_lt.mpr hfits)
    · rcases List.mem_cons.mp hbehind with rfl | hlater
      · exact le_rfl
      · have hrest := (Separated.append_iff.mp h.separated).2.1
        have hgap := (Separated.cons_iff.mp hrest).2.2 other hlater
        rw [Block.stop_eq] at hgap
        omega
  · have hsize := h.property block (by simp)
    rw [takePages_pages hn, if_neg hhead, if_neg]
    rintro ⟨hpage, hlt⟩
    exact hrest (hsize ▸ hlt) hpage

/-- A world whose list holds the page `0` and, behind a gap, the pages `4` and `5`. -/
theorem exists_gap : ∃ (area taken : FreeArea) (blocks : List Block),
    WellListed 0 6 area blocks ∧
      (∀ page ∈ cover blocks, pageReserved (area.pages page) = false) ∧
      defaultAllocPages 16 area 2 = .ok (some 4, taken) := by
  have hrun : (World.executeFrom (World.insertingInside 0 6) 16 6
      [.alloc 6, .free 4 2, .free 0 1]).any (fun world ↦
        (defaultAllocPages 16 world.area 2).toOption.any fun outcome ↦ outcome.1 = some 4) =
          true := by decide
  obtain ⟨world, hworld, halloc⟩ := Option.any_eq_true _ _ |>.mp hrun
  obtain ⟨⟨result, taken⟩, halloc, hresult⟩ := Option.any_eq_true _ _ |>.mp halloc
  obtain rfl : result = some 4 := of_decide_eq_true hresult
  obtain ⟨blocks, hordered⟩ :=
    (World.reachable_of_executeFrom _ (by decide) hworld).ordered (by decide)
  refine ⟨world.area, taken, blocks, Wf.wellListed hordered, fun page hpage ↦ ?_,
    toOption_eq_some.mp halloc⟩
  obtain ⟨block, hblock, hcell⟩ := hpage
  have hinside := Wf.inside hordered hblock
  have hwithin := Wf.within hordered
  rw [Block.mem_cells] at hcell
  exact Listed.unreserved (Wf.toListed hordered) page (by omega) (by omega)

theorem alloc_first_fit_gap : ∃ area area' : FreeArea,
    defaultAllocPages 16 area 2 = .ok (some 4, area') ∧
      ∃ blocks', WellListed 0 6 area' blocks' := by
  obtain ⟨area, taken, blocks, hwell, -, halloc⟩ := exists_gap
  obtain ⟨least, hcall⟩ := alloc_first_fit hwell (by decide : 0 < 2)
  have hmore := defaultAllocPages_mono halloc (le_max_right least 16)
  refine ⟨area, taken, halloc, ?_⟩
  rcases hcall (max least 16) (le_max_left least 16) with
    ⟨-, hnone⟩ | ⟨pre, block, post, area', -, -, -, hsome, htaken, -⟩
  · cases Prod.mk.inj (Except.ok.inj (hmore.symm.trans hnone)) |>.1
  · obtain ⟨-, rfl⟩ := Prod.mk.inj (Except.ok.inj (hmore.symm.trans hsome))
    exact ⟨_, htaken⟩

/-! ## The release of what was allocated -/

/-- An entry that is linked in behind itself keeps its successor. -/
theorem listAdd_self_next {links : Links ListEntry} {entry : ListEntry} :
    (listAdd links entry entry).next = links.next := by
  funext other
  by_cases heq : other = entry
  · subst heq
    simp [listAdd, listAddAfter, __listAdd]
  · exact listAdd_next_of_ne heq heq

/-- What a walk reads and the flags of the page array: all that a caller of the allocator can tell. -/
structure Restored (lower limit : ℕ) (area area' : FreeArea) : Prop where
  blocks : ∃ blocks, ∀ fuel > blocks.length,
    World.freeBlocks fuel area = some blocks ∧ World.freeBlocks fuel area' = some blocks
  nrFree : area'.nrFree = area.nrFree
  property : ∀ page, lower ≤ page → page < limit →
    pageProperty (area'.pages page) = pageProperty (area.pages page)
  reserved : ∀ page, pageReserved (area'.pages page) = pageReserved (area.pages page)

/-- Only `next` and the descriptors of a threaded list are read. -/
theorem Restored.of_threaded {threaded : FreeArea} (h : WellListed lower limit area blocks)
    (hthreaded : Threaded lower limit threaded blocks)
    (hnext : area'.links.next = threaded.links.next) (hpages : area'.pages = threaded.pages)
    (hfree : area'.nrFree = area.nrFree)
    (hreserved : ∀ page, pageReserved (area'.pages page) = pageReserved (area.pages page)) :
    Restored lower limit area area' where
  blocks := by
    refine ⟨blocks, fun fuel hfuel ↦ ⟨World.freeBlocks_eq h.toThreaded hfuel, ?_⟩⟩
    have hentries : World.entryBlock area' = World.entryBlock threaded := by
      funext entry
      cases entry with
      | freeList => rfl
      | pageLink page => rw [World.entryBlock, World.entryBlock, hpages]
    calc
      World.freeBlocks fuel area' = World.freeBlocks fuel threaded := by
        rw [World.freeBlocks, World.freeBlocks, Links.traverse_congr hnext, hentries]
      _ = some blocks := World.freeBlocks_eq hthreaded hfuel
  nrFree := hfree
  property page hlower hupper := by
    rw [hpages, Bool.eq_iff_iff, hthreaded.heads page hlower hupper, h.heads page hlower hupper]
  reserved := hreserved

section FreeTaken

variable {pre post : List Block} {block : Block}

/-- What an allocation leaves lies beside the pages it took. -/
theorem carved_apart (h : Separated (pre ++ block :: post)) (hle : n ≤ block.size) {other : Block}
    (hother : other ∈ pre ++ (remainder block n ++ post)) :
    other.stop ≤ block.start ∨ block.start + n ≤ other.start := by
  by_cases hrest : other ∈ remainder block n
  · obtain ⟨-, rfl⟩ := mem_remainder hrest hle
    exact .inr le_rfl
  · have hside : other ∈ pre ++ post := by
      simp only [List.mem_append] at hother ⊢
      tauto
    rcases h.side_apart hside with hbefore | hbehind
    · exact .inl hbefore.le
    · rw [block.stop_eq] at hbehind
      exact .inr (by omega)

/-- A release goes behind the list only when all of the last block had been taken. -/
theorem carved_behind (h : Separated (pre ++ block :: post)) (hn : 0 < n)
    (hbehind : ∀ other ∈ pre ++ (remainder block n ++ post), ¬ block.start < other.start) :
    block = ⟨block.start, n⟩ ∧ remainder block n = [] ∧ post = [] := by
  have hexact : block.size = n := by
    by_contra hne
    have hrest : remainder block n = [⟨block.start + n, block.size - n⟩] := if_neg hne
    refine hbehind ⟨block.start + n, block.size - n⟩ ?_ ?_
    · rw [hrest]
      exact List.mem_append_right _ List.mem_cons_self
    · exact Nat.lt_add_of_pos_right hn
  refine ⟨?_, if_pos hexact, List.eq_nil_iff_forall_not_mem.mpr fun other hother ↦ ?_⟩
  · rw [← hexact]
  · have hgap := (Separated.cons_iff.mp (Separated.append_iff.mp h).2.1).2.2 other hother
    rw [Block.stop_eq] at hgap
    refine hbehind other (List.mem_append_right _ (List.mem_append_right _ hother)) ?_
    omega

theorem WellListed.free_taken (h : WellListed lower limit area (pre ++ block :: post)) (hn : 0 < n)
    (hle : n ≤ block.size)
    (hunreserved : ∀ page ∈ block.cells, pageReserved (area.pages page) = false)
    (hfuel : (pre ++ block :: post).length + 2 < fuel) :
    ∃ area', defaultFreePages fuel (Ucore.takePages area block.start n) block.start n = .ok area' ∧
      Restored lower limit area area' := by
  have hmem : block ∈ pre ++ block :: post := List.mem_append_right _ List.mem_cons_self
  have htaken := h.takePages hn hle
  have hapart := fun other (hother : other ∈ pre ++ (remainder block n ++ post)) ↦
    carved_apart h.separated hle hother
  have hfree : (Ucore.takePages area block.start n).nrFree + n = area.nrFree := by
    have hsize := h.size_le hmem
    rw [takePages_nrFree]
    omega
  have hroom := hfree ▸ h.small
  have hbounds : lower ≤ block.start ∧ block.start + n ≤ limit := by
    have hinside := h.inside block hmem
    rw [Block.stop_eq] at hinside
    omega
  have hclear : ∀ page, block.start ≤ page → page < block.start + n →
      pageReserved ((Ucore.takePages area block.start n).pages page) = false := by
    intro page hlower hupper
    rw [takePages_reserved hn]
    refine hunreserved page ?_
    rw [Block.mem_cells, Block.stop_eq]
    omega
  have hlength : (pre ++ (remainder block n ++ post)).length + 1 < fuel := by
    have hrest : (remainder block n).length ≤ 1 := by
      unfold remainder
      split <;> simp
    simp only [List.length_append, List.length_cons] at hfuel ⊢
    omega
  by_cases hinside : FreesInside (pre ++ (remainder block n ++ post)) block.start
  · obtain ⟨front, back, area', hsplit, hfront, hback, hcall, hwell, hreserved⟩ :=
      htaken.defaultFreePages_spec hapart hn hroom hbounds hclear hinside
        ((Nat.lt_succ_self _).trans hlength)
    have hseparated := hsplit ▸ htaken.separated
    have hmerged : cover (release front ⟨block.start, n⟩ back) =
        cover (front ++ back) ∪ Block.cells ⟨block.start, n⟩ :=
      cover_release hseparated hn hfront hback
    have hsame : release front ⟨block.start, n⟩ back = pre ++ block :: post := by
      refine hwell.separated.eq_of_cover_eq h.separated ?_
      rw [hmerged, ← hsplit, cover_carve h.separated hle]
      refine Set.sdiff_union_of_subset fun page hpage ↦ ⟨block, hmem, hpage.1, ?_⟩
      exact hpage.2.trans_le (Nat.add_le_add_left hle block.start)
    rw [hsame] at hwell
    refine ⟨area', hcall, .of_threaded h hwell.toThreaded rfl rfl ?_ fun page ↦ ?_⟩
    · rw [hwell.total, h.total]
    · rw [hreserved, takePages_reserved hn]
  · rw [FreesInside, not_or] at hinside
    have hbehind : ∀ other ∈ pre ++ (remainder block n ++ post), ¬ block.start < other.start :=
      fun other hother hlt ↦ hinside.2 ⟨other, hother, hlt⟩
    obtain ⟨single, hsingle, hcall⟩ := htaken.defaultFreePages_behind hapart hn hbounds hclear hroom
      hinside.1 hbehind hlength
    obtain ⟨hblock, hrest, hpost⟩ := carved_behind h.separated hn hbehind
    have hthreaded := htaken.threaded_released hapart hn hroom (List.append_nil _).symm hsingle
    have hlist : pre ++ (remainder block n ++ post) ++ [⟨block.start, n⟩] = pre ++ block :: post := by
      rw [hrest, hpost, ← hblock]
      simp
    rw [hlist] at hthreaded
    refine ⟨_, hcall, ?_⟩
    refine .of_threaded h hthreaded listAdd_self_next rfl ?_ fun page ↦ ?_
    · exact (uint32_eq hroom).trans hfree
    · rw [← takePages_reserved hn area block.start page]
      exact WellListed.releasedBlock_reserved hclear page

end FreeTaken

/-- Giving back at once what an allocation returned restores the blocks of a walk, the counter and the
flags of every page. -/
theorem alloc_free_restores {page : ℕ} (h : WellListed lower limit area blocks)
    (hunreserved : ∀ page ∈ cover blocks, pageReserved (area.pages page) = false) (hn : 0 < n)
    (halloc : defaultAllocPages fuel area n = .ok (some page, area')) :
    ∃ least, ∀ fuel ≥ least, ∃ restored,
      defaultFreePages fuel area' page n = .ok restored ∧ Restored lower limit area restored := by
  have hmore := defaultAllocPages_mono halloc (Nat.le_add_right fuel (blocks.length + 1))
  rcases h.defaultAllocPages_spec hn (show blocks.length < fuel + (blocks.length + 1) by omega) with
    ⟨-, hnone⟩ | ⟨pre, block, post, rfl, -, hle, hsome⟩
  · cases Prod.mk.inj (Except.ok.inj (hmore.symm.trans hnone)) |>.1
  · obtain ⟨hpage, rfl⟩ := Prod.mk.inj (Except.ok.inj (hmore.symm.trans hsome))
    obtain rfl := Option.some.inj hpage
    refine ⟨(pre ++ block :: post).length + 3, fun fuel hfuel ↦ h.free_taken hn hle ?_ hfuel⟩
    intro page hcell
    exact hunreserved page ⟨block, List.mem_append_right _ List.mem_cons_self, hcell⟩

/-- The last of two blocks is an exact fit. -/
theorem alloc_free_restores_last : ∃ area area' : FreeArea,
    defaultAllocPages 16 area 2 = .ok (some 4, area') ∧
      ∃ least, ∀ fuel ≥ least, ∃ restored,
        defaultFreePages fuel area' 4 2 = .ok restored ∧ Restored 0 6 area restored := by
  obtain ⟨area, taken, blocks, hwell, hunreserved, halloc⟩ := exists_gap
  exact ⟨area, taken, halloc, alloc_free_restores hwell hunreserved (by decide) halloc⟩

end Ucore
