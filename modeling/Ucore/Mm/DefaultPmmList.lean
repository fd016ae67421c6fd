import Ucore.Foundation.Blocks
import Ucore.Mm.DefaultPmm
import Mathlib.Algebra.Order.BigOperators.Group.List

/-!
# The free list of the first-fit allocator

`WellListed lower limit area blocks` says that the list of `area` threads the separated blocks
`blocks` of the page array `[lower, limit)` and that flags, sizes and counter agree with it. An
allocation carves the first block that is large enough; a release merges on both sides. The one place
that leaves this form is the insertion behind the last block of a non-empty list, which `FreesInside`
excludes.
-/

namespace Ucore

open Foundation ListEntry

/-- The list entry of the first page of a block. -/
abbrev headLink (block : Block) : ListEntry := pageLink block.start

theorem mem_map_headLink {blocks : List Block} {page : ℕ} :
    pageLink page ∈ blocks.map headLink ↔ ∃ block ∈ blocks, block.start = page := by
  simp [List.mem_map]

/-- The list threads exactly `blocks`; sizes and `PG_property` of the descriptors agree. -/
structure Threaded (lower limit : ℕ) (area : FreeArea) (blocks : List Block) : Prop where
  ring : Ring area.links freeList (blocks.map headLink)
  property : ∀ block ∈ blocks, (area.pages block.start).property = block.size
  heads : ∀ page, lower ≤ page → page < limit →
    (pageProperty (area.pages page) = true ↔ ∃ block ∈ blocks, block.start = page)

structure WellListed (lower limit : ℕ) (area : FreeArea) (blocks : List Block) : Prop
    extends Threaded lower limit area blocks where
  inside : ∀ block ∈ blocks, lower ≤ block.start ∧ block.stop ≤ limit
  separated : Separated blocks
  total : area.nrFree = (blocks.map Block.size).sum
  small : area.nrFree < 2 ^ 32

/-! ## Allocation -/

section Take

variable {n : ℕ} {block : Block}

theorem takePages_pages (hn : 0 < n) (area : FreeArea) (page other : ℕ) :
    (takePages area page n).pages other =
      if other = page then clearPageProperty (area.pages page)
      else if other = page + n ∧ n < (area.pages page).property then
        setPageProperty { area.pages other with property := uint32 ((area.pages page).property - n) }
      else area.pages other := by
  have hne : page ≠ page + n := by omega
  have hpos : n ≠ 0 := by omega
  unfold takePages
  by_cases hsplit : (area.pages page).property > n
  · by_cases hother : other = page
    · subst hother
      simp [hsplit, hpos]
    · by_cases hrest : other = page + n <;> simp [hsplit, hother, hrest, hpos]
  · by_cases hother : other = page
    · subst hother
      simp [hsplit]
    · simp [hsplit, hother]

theorem takePages_reserved (hn : 0 < n) (area : FreeArea) (page other : ℕ) :
    pageReserved ((takePages area page n).pages other) = pageReserved (area.pages other) := by
  rw [takePages_pages hn]
  split
  · rename_i heq
    rw [pageReserved_clearPageProperty, heq]
  · split
    · rw [pageReserved_setPageProperty]
      rfl
    · rfl

theorem takePages_nrFree (area : FreeArea) (page n : ℕ) :
    (takePages area page n).nrFree = area.nrFree - n := by
  unfold takePages
  by_cases hsplit : (area.pages page).property > n <;> simp [hsplit]

theorem mem_remainder {other : Block} (hother : other ∈ remainder block n) (hle : n ≤ block.size) :
    n < block.size ∧ other = ⟨block.start + n, block.size - n⟩ := by
  unfold remainder at hother
  split at hother
  · simp at hother
  · exact ⟨by omega, by simpa using hother⟩

end Take

namespace WellListed

variable {lower limit base n fuel : ℕ} {area : FreeArea} {blocks pre post : List Block}
  {block : Block}

theorem size_le (h : WellListed lower limit area blocks) (hblock : block ∈ blocks) :
    block.size ≤ area.nrFree := by
  rw [h.total]
  exact List.single_le_sum (by simp) _ (List.mem_map_of_mem hblock)

section Take

variable (h : WellListed lower limit area (pre ++ block :: post)) (hn : 0 < n)
  (hle : n ≤ block.size)

include h hn hle

theorem takePages_ring :
    Ring (takePages area block.start n).links freeList
      ((pre ++ (remainder block n ++ post)).map headLink) := by
  have hring : Ring area.links freeList
      (pre.map headLink ++ headLink block :: post.map headLink) := by
    simpa using h.ring
  have hsize : (area.pages block.start).property = block.size := h.property block (by simp)
  have hprev := hring.prev_member
  have hdeleted := hring.listDel_member
  unfold takePages remainder
  rcases Nat.lt_or_eq_of_le hle with hlt | heq
  · have hnew : pageLink (block.start + n) ∉
        freeList :: (pre.map headLink ++ post.map headLink) := by
      rw [← List.map_append, List.mem_cons, mem_map_headLink]
      simp only [reduceCtorEq, false_or, not_exists, not_and]
      intro other hother heq
      rcases h.separated.side_apart hother with hbefore | hafter
      · rw [other.stop_eq] at hbefore
        omega
      · rw [block.stop_eq] at hafter
        omega
    have hadded := hdeleted.listAdd_between hnew
    rw [← hprev] at hadded
    have hne : block.size ≠ n := by omega
    simpa [hsize, hlt, hne] using hadded
  · simpa [hsize, heq] using hdeleted

/-- The descriptor of the head of a block that stays does not change. -/
theorem takePages_kept {other : Block} (hother : other ∈ pre ++ post) :
    (takePages area block.start n).pages other.start = area.pages other.start := by
  have hmem : other ∈ pre ++ block :: post := by
    simp only [List.mem_append, List.mem_cons] at hother ⊢
    tauto
  have hpos := h.separated.nonempty other hmem
  have hside := h.separated.side_apart hother
  rw [block.stop_eq, other.stop_eq] at hside
  rw [takePages_pages hn, if_neg (by omega), if_neg (by omega)]

theorem takePages_property {other : Block} (hother : other ∈ pre ++ (remainder block n ++ post)) :
    ((takePages area block.start n).pages other.start).property = other.size := by
  have hmem : block ∈ pre ++ block :: post := by simp
  have hsize := h.property block hmem
  have hsmall := (h.size_le hmem).trans_lt h.small
  by_cases hrest : other ∈ remainder block n
  · obtain ⟨hlt, rfl⟩ := mem_remainder hrest hle
    rw [takePages_pages hn, if_neg (by dsimp; omega), if_pos ⟨rfl, by omega⟩, hsize]
    exact uint32_eq (by omega)
  · have hside : other ∈ pre ++ post := by
      simp only [List.mem_append] at hother ⊢
      tauto
    rw [h.takePages_kept hn hle hside]
    apply h.property
    simp only [List.mem_append, List.mem_cons] at hside ⊢
    tauto

theorem takePages_heads {page : ℕ} (hlower : lower ≤ page) (hupper : page < limit) :
    pageProperty ((takePages area block.start n).pages page) = true ↔
      ∃ other ∈ pre ++ (remainder block n ++ post), other.start = page := by
  have hsize : (area.pages block.start).property = block.size := h.property block (by simp)
  have hold := h.heads page hlower hupper
  have hside : ∀ other ∈ pre ++ post, other.start ≠ block.start := by
    intro other hother
    have hmem : other ∈ pre ++ block :: post := by
      simp only [List.mem_append, List.mem_cons] at hother ⊢
      tauto
    have hapart := h.separated.side_apart hother
    have hpos := h.separated.nonempty other hmem
    rw [block.stop_eq, other.stop_eq] at hapart
    omega
  rw [takePages_pages hn]
  split
  · rename_i heq
    simp only [pageProperty_clearPageProperty, Bool.false_eq_true, false_iff, not_exists, not_and]
    intro other hother hstart
    by_cases hrest : other ∈ remainder block n
    · obtain ⟨-, rfl⟩ := mem_remainder hrest hle
      dsimp at hstart
      omega
    · refine hside other ?_ (hstart.trans heq)
      simp only [List.mem_append] at hother ⊢
      tauto
  · rename_i hne
    split
    · rename_i hrest
      simp only [pageProperty_setPageProperty, true_iff]
      refine ⟨⟨block.start + n, block.size - n⟩, ?_, hrest.1.symm⟩
      have hsplit : block.size ≠ n := by omega
      simp [remainder, hsplit]
    · rename_i hnot
      rw [hold]
      constructor
      · rintro ⟨other, hother, rfl⟩
        refine ⟨other, ?_, rfl⟩
        simp only [List.mem_append, List.mem_cons] at hother ⊢
        rcases hother with hother | rfl | hother
        · exact .inl hother
        · exact absurd rfl hne
        · exact .inr (.inr hother)
      · rintro ⟨other, hother, rfl⟩
        by_cases hrest : other ∈ remainder block n
        · obtain ⟨hlt, rfl⟩ := mem_remainder hrest hle
          exact absurd ⟨rfl, by omega⟩ hnot
        · refine ⟨other, ?_, rfl⟩
          simp only [List.mem_append, List.mem_cons] at hother ⊢
          tauto

/-- Taking pages from the front of a block of the list. -/
theorem takePages : WellListed lower limit (Ucore.takePages area block.start n)
    (pre ++ (remainder block n ++ post)) where
  ring := h.takePages_ring hn hle
  property _ hother := h.takePages_property hn hle hother
  heads _ hlower hupper := h.takePages_heads hn hle hlower hupper
  inside other hother := by
    have hblock := h.inside block (by simp)
    by_cases hrest : other ∈ remainder block n
    · obtain ⟨hlt, rfl⟩ := mem_remainder hrest hle
      rw [Block.stop_eq] at hblock ⊢
      dsimp
      omega
    · apply h.inside
      simp only [List.mem_append, List.mem_cons] at hother ⊢
      tauto
  separated := h.separated.carve hle
  total := by
    have hsum : ((pre ++ (remainder block n ++ post)).map Block.size).sum + n =
        ((pre ++ block :: post).map Block.size).sum := sum_size_carve hle
    rw [takePages_nrFree, h.total]
    omega
  small := by
    rw [takePages_nrFree]
    exact (Nat.sub_le _ _).trans_lt h.small

end Take

/-- An allocation either finds no block that is large enough and changes nothing, or takes the
first `n` pages of the first such block. -/
theorem defaultAllocPages_spec (h : WellListed lower limit area blocks) (hn : 0 < n)
    (hfuel : blocks.length < fuel) :
    ((∀ block ∈ blocks, block.size < n) ∧
      defaultAllocPages fuel area n = .ok (none, area)) ∨
    ∃ pre block post, blocks = pre ++ block :: post ∧ (∀ left ∈ pre, left.size < n) ∧
      n ≤ block.size ∧
      defaultAllocPages fuel area n =
        .ok (some block.start, Ucore.takePages area block.start n) := by
  have hscan := h.ring.findFrom_head (hasRoom area n) (by simpa using hfuel)
  rw [List.find?_map] at hscan
  unfold defaultAllocPages
  rw [assert_of_true hn]
  by_cases hexceeds : n > area.nrFree
  · refine .inl ⟨fun block hblock ↦ ?_, by simp [hexceeds]⟩
    exact (h.size_le hblock).trans_lt hexceeds
  · cases hfind : blocks.find? (hasRoom area n ∘ headLink) with
    | none =>
      rw [hfind] at hscan
      refine .inl ⟨fun block hblock ↦ ?_, ?_⟩
      · have hnot := List.find?_eq_none.mp hfind block hblock
        simp only [Function.comp, hasRoom, h.property block hblock, decide_eq_true_eq] at hnot
        omega
      · simp [hexceeds, hscan]
    | some block =>
      rw [hfind] at hscan
      obtain ⟨hfits, pre, post, rfl, hpre⟩ := List.find?_eq_some_iff_append.mp hfind
      refine .inr ⟨pre, block, post, rfl, fun left hleft ↦ ?_, ?_, ?_⟩
      · have hnot := hpre left hleft
        simp only [Function.comp, hasRoom, h.property left (by simp [hleft]),
          Bool.not_eq_true', decide_eq_false_iff_not] at hnot
        omega
      · simpa [hasRoom, h.property block (by simp)] using hfits
      · simp [hexceeds, hscan]

end WellListed

/-! ## Release -/

namespace Threaded

variable {lower limit n base fuel : ℕ} {area : FreeArea} {blocks pre post : List Block}
  {left right block : Block}

theorem nodup_starts (h : Threaded lower limit area blocks) : (blocks.map Block.start).Nodup := by
  have hnodup := (List.nodup_cons.mp h.ring.nodup).2
  have hmap : blocks.map headLink = (blocks.map Block.start).map pageLink := by simp
  rw [hmap] at hnodup
  exact hnodup.of_map _

/-- Two neighbours of the list start apart from each other and from all others. -/
theorem starts_apart (h : Threaded lower limit area (pre ++ left :: right :: post)) :
    left.start ≠ right.start ∧
      ∀ other ∈ pre ++ post, other.start ≠ left.start ∧ other.start ≠ right.start := by
  have hnodup := h.nodup_starts
  refine ⟨fun heq ↦ ?_, fun other hother ↦ ?_⟩
  · simp [heq, List.nodup_append] at hnodup
  · simp only [List.map_append, List.map_cons, List.nodup_append, List.nodup_cons, List.mem_map,
      List.mem_cons, not_or, not_exists, not_and] at hnodup
    rcases List.mem_append.mp hother with hmem | hmem
    · have hcross := hnodup.2.2 other.start ⟨other, hmem, rfl⟩
      exact ⟨hcross _ (.inl rfl), hcross _ (.inr (.inl rfl))⟩
    · exact ⟨hnodup.2.1.1.2 other hmem, hnodup.2.1.2.1 other hmem⟩

/-- Only the two heads are touched: the second is none any more, the first counts both blocks. -/
theorem absorb_pages (hne : left.start ≠ right.start)
    (hleft : (area.pages left.start).property = left.size)
    (hright : (area.pages right.start).property = right.size)
    (hsize : left.size + right.size < 2 ^ 32) (page : ℕ) :
    (Ucore.absorb area left.start right.start).pages page =
      if page = right.start then clearPageProperty (area.pages page)
      else if page = left.start then { area.pages page with property := left.size + right.size }
      else area.pages page := by
  by_cases hpr : page = right.start
  · subst hpr
    simp [Ucore.absorb, Ne.symm hne]
  · by_cases hpl : page = left.start
    · subst hpl
      simp [Ucore.absorb, hne, hleft, hright, uint32_eq hsize]
    · simp [Ucore.absorb, hpr, hpl]

/-- Joining two neighbours of the list into the first of them. -/
theorem absorb (h : Threaded lower limit area (pre ++ left :: right :: post))
    (hsize : left.size + right.size < 2 ^ 32) :
    Threaded lower limit (absorb area left.start right.start)
      (pre ++ ⟨left.start, left.size + right.size⟩ :: post) := by
  obtain ⟨hne, hother⟩ := h.starts_apart
  have hpages :=
    absorb_pages hne (h.property left (by simp)) (h.property right (by simp)) hsize
  refine ⟨?_, ?_, ?_⟩
  · have hring : Ring area.links freeList
        ((pre ++ [left]).map headLink ++ headLink right :: post.map headLink) := by
      simpa using h.ring
    simpa [Ucore.absorb] using hring.listDel_member
  · intro other hmem
    rw [hpages]
    simp only [List.mem_append, List.mem_cons] at hmem
    by_cases heq : other = ⟨left.start, left.size + right.size⟩
    · subst heq
      rw [if_neg hne, if_pos rfl]
    · have hside : other ∈ pre ++ post := by
        simp only [List.mem_append]
        tauto
      rw [if_neg (hother other hside).2, if_neg (hother other hside).1]
      apply h.property
      simp only [List.mem_append, List.mem_cons] at hside ⊢
      tauto
  · intro page hlower hupper
    have hold := h.heads page hlower hupper
    rw [hpages]
    split
    · rename_i heq
      subst heq
      simp only [pageProperty_clearPageProperty, Bool.false_eq_true, List.mem_append, List.mem_cons,
        false_iff, not_exists, not_and]
      rintro other (hmem | rfl | hmem)
      · exact (hother other (by simp [hmem])).2
      · exact hne
      · exact (hother other (by simp [hmem])).2
    · rename_i hpr
      have hflag : pageProperty (if page = left.start then
          { area.pages page with property := left.size + right.size } else area.pages page) =
            pageProperty (area.pages page) := by
        split <;> rfl
      rw [hflag, hold]
      simp only [List.mem_append, List.mem_cons]
      constructor
      · rintro ⟨other, hmem | rfl | rfl | hmem, rfl⟩
        · exact ⟨other, .inl hmem, rfl⟩
        · exact ⟨_, .inr (.inl rfl), rfl⟩
        · exact absurd rfl hpr
        · exact ⟨other, .inr (.inr hmem), rfl⟩
      · rintro ⟨other, hmem | rfl | hmem, rfl⟩
        · exact ⟨other, .inl hmem, rfl⟩
        · exact ⟨left, .inr (.inl rfl), rfl⟩
        · exact ⟨other, .inr (.inr (.inr hmem)), rfl⟩

/-- `mergePrev` joins the block with the block in front of it exactly when they touch. -/
theorem mergePrev (h : Threaded lower limit area (pre ++ block :: post))
    (hsize : ∀ left ∈ pre, left.size + block.size < 2 ^ 32) :
    Threaded lower limit (mergePrev area block.start).1
        ((joinLeft pre block).1 ++ (joinLeft pre block).2 :: post) ∧
      (Ucore.mergePrev area block.start).2 = (joinLeft pre block).2.start := by
  have hring : Ring area.links freeList
      (pre.map headLink ++ headLink block :: post.map headLink) := by
    simpa using h.ring
  have hprev := hring.prev_member
  unfold Ucore.mergePrev
  rcases List.eq_nil_or_concat pre with rfl | ⟨front, last, rfl⟩
  · have hhead : area.links.prev (pageLink block.start) = freeList := hprev
    simpa [hhead, joinLeft] using h
  · simp only [List.concat_eq_append] at h hsize hprev ⊢
    have hlink : area.links.prev (pageLink block.start) = pageLink last.start := by
      simpa using hprev
    have hlast : (area.pages last.start).property = last.size := h.property last (by simp)
    simp only [hlink, hlast]
    by_cases htouch : last.start + last.size = block.start
    · have hthreaded : Threaded lower limit area (front ++ last :: block :: post) := by simpa using h
      simpa [joinLeft, Block.stop_eq, htouch] using hthreaded.absorb (hsize last (by simp))
    · simpa [joinLeft, Block.stop_eq, htouch] using h

/-- `mergeNext` joins the block with the block behind it exactly when they touch. -/
theorem mergeNext (h : Threaded lower limit area (pre ++ block :: post))
    (hsize : ∀ right ∈ post, block.size + right.size < 2 ^ 32) :
    Threaded lower limit (mergeNext area block.start)
      (pre ++ (joinRight block post).1 :: (joinRight block post).2) := by
  have hring : Ring area.links freeList
      (pre.map headLink ++ headLink block :: post.map headLink) := by
    simpa using h.ring
  have hnext := hring.next_member
  have hblock : (area.pages block.start).property = block.size := h.property block (by simp)
  unfold Ucore.mergeNext
  cases post with
  | nil =>
    have hhead : area.links.next (pageLink block.start) = freeList := hnext
    simpa [hhead, joinRight] using h
  | cons first rest =>
    have hlink : area.links.next (pageLink block.start) = pageLink first.start := by
      simpa using hnext
    simp only [hlink, hblock]
    by_cases htouch : block.start + block.size = first.start
    · simpa [joinRight, Block.stop_eq, htouch] using h.absorb (hsize first (by simp))
    · simpa [joinRight, Block.stop_eq, htouch] using h

end Threaded

/-! ### The merges and `PG_reserved` -/

section Reserved

variable (area : FreeArea) (page : ℕ)

theorem absorb_reserved (left right : ℕ) :
    pageReserved ((absorb area left right).pages page) = pageReserved (area.pages page) := by
  simp only [absorb, FreeArea.updatePage_pages]
  split
  · rw [pageReserved_clearPageProperty]
    split <;> rfl
  · split <;> rfl

theorem mergePrev_reserved (base : ℕ) :
    pageReserved ((mergePrev area base).1.pages page) = pageReserved (area.pages page) := by
  unfold mergePrev
  split
  · rfl
  · split
    · exact absorb_reserved area page _ _
    · rfl

theorem mergeNext_reserved (base : ℕ) :
    pageReserved ((mergeNext area base).pages page) = pageReserved (area.pages page) := by
  unfold mergeNext
  split
  · rfl
  · split
    · exact absorb_reserved area page _ _
    · rfl

end Reserved

/-! ### The insertion scan -/

section InsertScan

variable {base fuel : ℕ} {links : Links ListEntry} {front skipped rest : List ℕ} {next last : ℕ}

/-- One turn of the scan over a page that neither stops it nor is the last of the list. -/
theorem insertScan_skip {page : ℕ} {others : List ℕ}
    (h : Ring links freeList ((front ++ page :: others).map pageLink)) (hothers : others ≠ [])
    (hpage : ¬ base < page) :
    insertScan base (fuel + 1) links ((front.map pageLink).getLast?.getD freeList) =
      insertScan base fuel links (((front ++ [page]).map pageLink).getLast?.getD freeList) := by
  have hsplit : Ring links freeList
      (front.map pageLink ++ pageLink page :: others.map pageLink) := by simpa using h
  have hlink : links.next ((front.map pageLink).getLast?.getD freeList) = pageLink page :=
    hsplit.next_before
  have hnot_last : links.next (pageLink page) ≠ freeList := by
    rw [hsplit.next_member]
    cases others <;> simp at hothers ⊢
  rw [insertScan, hlink]
  simp [hpage, hnot_last]

/-- The scan stops in front of the first page above `base`. -/
theorem insertScan_before
    (h : Ring links freeList ((front ++ (skipped ++ next :: rest)).map pageLink))
    (hskipped : ∀ page ∈ skipped, ¬ base < page) (hnext : base < next)
    (hfuel : skipped.length < fuel) :
    insertScan base fuel links ((front.map pageLink).getLast?.getD freeList) =
      .ok (listAddBefore links (pageLink next) (pageLink base)) := by
  induction skipped generalizing front fuel with
  | nil =>
    obtain ⟨fuel, rfl⟩ := Nat.exists_eq_add_one_of_ne_zero (Nat.ne_zero_of_lt hfuel)
    have hsplit : Ring links freeList
        (front.map pageLink ++ (next :: rest).map pageLink) := by simpa using h
    have hlink : links.next ((front.map pageLink).getLast?.getD freeList) = pageLink next :=
      hsplit.next_before
    rw [insertScan, hlink]
    simp [hnext]
  | cons page skipped ih =>
    obtain ⟨fuel, rfl⟩ := Nat.exists_eq_add_one_of_ne_zero (Nat.ne_zero_of_lt hfuel)
    rw [insertScan_skip h (by simp) (hskipped page (by simp))]
    exact ih (by simpa using h) (fun other hother ↦ hskipped other (by simp [hother]))
      (by simpa using hfuel)

/-- Without a page above `base` the missing `break` links `base` in twice: behind the last page and
then behind itself. -/
theorem insertScan_after
    (h : Ring links freeList ((front ++ (skipped ++ [last])).map pageLink))
    (hskipped : ∀ page ∈ skipped, ¬ base < page) (hlast : ¬ base < last) (hnew : base ≠ last)
    (hfuel : skipped.length + 2 < fuel) :
    insertScan base fuel links ((front.map pageLink).getLast?.getD freeList) =
      .ok (listAdd (listAdd links (pageLink last) (pageLink base)) (pageLink base)
        (pageLink base)) := by
  induction skipped generalizing front fuel with
  | nil =>
    obtain ⟨fuel, rfl⟩ : ∃ rest, fuel = rest + 3 := ⟨fuel - 3, by simp at hfuel; omega⟩
    have hsplit : Ring links freeList
        (front.map pageLink ++ pageLink last :: [].map pageLink) := by simpa using h
    have hlink : links.next ((front.map pageLink).getLast?.getD freeList) = pageLink last :=
      hsplit.next_before
    have hend : links.next (pageLink last) = freeList := hsplit.next_member
    have hadded : (listAdd links (pageLink last) (pageLink base)).next (pageLink last) =
        pageLink base := by
      simp [listAdd, listAddAfter, __listAdd, hnew.symm]
    have hbase : (listAdd links (pageLink last) (pageLink base)).next (pageLink base) =
        freeList := by
      simp [listAdd, listAddAfter, __listAdd, hend]
    have hself : (listAdd (listAdd links (pageLink last) (pageLink base)) (pageLink base)
        (pageLink base)).next (pageLink base) = freeList := by
      rw [listAdd, listAddAfter, hbase]
      simp [__listAdd]
    rw [insertScan, hlink]
    simp only [hlast, if_false, hend, if_true]
    rw [insertScan, hadded]
    simp only [lt_irrefl, if_false, hbase, if_true]
    rw [insertScan, hself]
  | cons page skipped ih =>
    obtain ⟨fuel, rfl⟩ := Nat.exists_eq_add_one_of_ne_zero (Nat.ne_zero_of_lt hfuel)
    rw [insertScan_skip h (by simp) (hskipped page (by simp))]
    exact ih (by simpa using h) (fun other hother ↦ hskipped other (by simp [hother]))
      (by simp at hfuel; omega)

end InsertScan

/-! ### The loop over the released pages -/

/-- The descriptors after the loop: the released pages have neither flags nor references. -/
def released (area : FreeArea) (base n : ℕ) : FreeArea :=
  { area with
    pages := fun page ↦
      if base ≤ page ∧ page < base + n then { area.pages page with flags := 0#64, ref := 0 }
      else area.pages page }

theorem freeLoop_eq {base n : ℕ} {area : FreeArea}
    (h : ∀ page, base ≤ page → page < base + n →
      pageReserved (area.pages page) = false ∧ pageProperty (area.pages page) = false) :
    freeLoop base n area = .ok (released area base n) := by
  induction n generalizing base area with
  | zero =>
    have hnone : ∀ page, ¬ (base ≤ page ∧ page < base) := by intro page; omega
    simp [freeLoop, released, hnone]
  | succ n ih =>
    obtain ⟨hreserved, hproperty⟩ := h base le_rfl (by omega)
    rw [freeLoop, assert_of_true (by simp [hreserved, hproperty])]
    change freeLoop (base + 1) n _ = _
    rw [ih fun page hlower hupper ↦ by
      have hne : page ≠ base := by omega
      simpa [hne] using h page (by omega) (by omega)]
    simp only [released, Except.ok.injEq, FreeArea.mk.injEq, FreeArea.updatePage_links,
      FreeArea.updatePage_nrFree, true_and, and_true]
    funext page
    by_cases heq : page = base
    · subst heq
      simp
    · have hiff : (base + 1 ≤ page ∧ page < base + 1 + n) ↔
          (base ≤ page ∧ page < base + (n + 1)) := by omega
      rw [if_congr hiff rfl rfl]
      simp [heq]

/-! ### The whole release -/

/-- The insertion does not happen behind the last block of a non-empty list. -/
def FreesInside (blocks : List Block) (base : ℕ) : Prop :=
  blocks = [] ∨ ∃ block ∈ blocks, base < block.start

theorem insertFree_inside {lower limit base fuel : ℕ} {area : FreeArea} {blocks : List Block}
    (h : Threaded lower limit area blocks) (hsorted : Separated blocks)
    (hnew : pageLink base ∉ blocks.map headLink) (hinside : FreesInside blocks base)
    (hfuel : blocks.length < fuel) :
    ∃ pre post links', blocks = pre ++ post ∧ (∀ left ∈ pre, ¬ base < left.start) ∧
      (∀ right ∈ post, base < right.start) ∧ insertFree fuel area.links base = .ok links' ∧
      Ring links' freeList (pre.map headLink ++ pageLink base :: post.map headLink) := by
  have hempty := h.ring.listEmpty_iff
  by_cases hblocks : blocks = []
  · subst hblocks
    refine ⟨[], [], listAdd area.links freeList (pageLink base), rfl, by simp, by simp, ?_, ?_⟩
    · simp [insertFree, hempty.mpr rfl]
    · exact h.ring.listAdd_head (by simp)
  · obtain ⟨above, habove, hlt⟩ := hinside.resolve_left hblocks
    obtain ⟨next, hfind⟩ : ∃ next, blocks.find? (fun block ↦ base < block.start) = some next := by
      rw [← Option.isSome_iff_exists, List.find?_isSome]
      exact ⟨above, habove, by simpa using hlt⟩
    obtain ⟨hnext, pre, post, rfl, hpre⟩ := List.find?_eq_some_iff_append.mp hfind
    simp only [decide_eq_true_eq, Bool.not_eq_true', decide_eq_false_iff_not] at hnext hpre
    have hpages : Ring area.links freeList
        (([] ++ (pre.map Block.start ++ next.start :: post.map Block.start)).map pageLink) := by
      simpa [Function.comp_def] using h.ring
    have hscan : insertScan base fuel area.links freeList =
        .ok (listAddBefore area.links (pageLink next.start) (pageLink base)) :=
      insertScan_before hpages (by simpa using hpre) hnext (by simp at hfuel ⊢; omega)
    have hnot_empty : listEmpty area.links freeList = false := by
      rw [Bool.eq_false_iff, ne_eq, hempty]
      simp
    have hring : Ring area.links freeList
        (pre.map headLink ++ pageLink next.start :: post.map headLink) := by
      simpa using h.ring
    refine ⟨pre, next :: post, listAddBefore area.links (pageLink next.start) (pageLink base),
      rfl, hpre, fun right hright ↦ ?_, ?_, ?_⟩
    · rcases List.mem_cons.mp hright with rfl | hmem
      · exact hnext
      · have hgap := (Separated.cons_iff.mp (Separated.append_iff.mp hsorted).2.1).2.2 right hmem
        rw [Block.stop_eq] at hgap
        omega
    · simpa [insertFree, hnot_empty] using hscan
    · have hadded : Ring (listAddBefore area.links (pageLink next.start) (pageLink base)) freeList
          (pre.map headLink ++ pageLink base :: pageLink next.start :: post.map headLink) :=
        hring.listAddBefore_member (by simpa using hnew)
      simpa using hadded

/-- The descriptors and the counter after a release, before the list is touched. -/
def releasedBlock (area : FreeArea) (base n : ℕ) : FreeArea :=
  { (released area base n).updatePage base fun page ↦
      setPageProperty { page with property := uint32 n } with
    nrFree := uint32 (area.nrFree + n) }

namespace WellListed

variable {lower limit base n fuel : ℕ} {area : FreeArea} {blocks pre post : List Block}
  {links' : Links ListEntry}

section Free

variable (h : WellListed lower limit area blocks)
  (hapart : ∀ block ∈ blocks, block.stop ≤ base ∨ base + n ≤ block.start)

include h hapart

theorem start_outside {block : Block} (hblock : block ∈ blocks) :
    ¬ (base ≤ block.start ∧ block.start < base + n) := by
  have hsize := h.separated.nonempty block hblock
  have hside := hapart block hblock
  rw [Block.stop_eq] at hside
  omega

variable (hn : 0 < n)

include hn

theorem start_ne {block : Block} (hblock : block ∈ blocks) : block.start ≠ base := by
  have hout := h.start_outside hapart hblock
  omega

variable (hroom : area.nrFree + n < 2 ^ 32)

include hroom

/-- The list with the released range as a block of its own, before the merges. -/
theorem threaded_released (hsplit : blocks = pre ++ post)
    (hring : Ring links' freeList (pre.map headLink ++ pageLink base :: post.map headLink)) :
    Threaded lower limit { releasedBlock area base n with links := links' }
      (pre ++ ⟨base, n⟩ :: post) := by
  have hmem : ∀ block, block ∈ pre ++ ⟨base, n⟩ :: post ↔ block ∈ blocks ∨ block = ⟨base, n⟩ := by
    intro block
    rw [hsplit]
    simp only [List.mem_append, List.mem_cons]
    tauto
  refine ⟨by simpa using hring, ?_, ?_⟩
  · intro block hblock
    rcases (hmem block).mp hblock with hold | rfl
    · have hne := h.start_ne hapart hn hold
      have hout := h.start_outside hapart hold
      simpa [releasedBlock, hne, released, hout] using h.property block hold
    · have hfit : uint32 n = n := uint32_eq (by omega)
      simp [releasedBlock, hfit]
  · intro page hpage_lower hpage_upper
    by_cases heq : page = base
    · subst heq
      simp only [releasedBlock, FreeArea.updatePage_pages, if_true, pageProperty_setPageProperty,
        true_iff]
      exact ⟨⟨page, n⟩, (hmem _).mpr (.inr rfl), rfl⟩
    · have hiff : (∃ block ∈ pre ++ ⟨base, n⟩ :: post, block.start = page) ↔
          ∃ block ∈ blocks, block.start = page := by
        constructor
        · rintro ⟨block, hblock, rfl⟩
          rcases (hmem block).mp hblock with hold | rfl
          · exact ⟨block, hold, rfl⟩
          · exact absurd rfl heq
        · rintro ⟨block, hblock, rfl⟩
          exact ⟨block, (hmem block).mpr (.inl hblock), rfl⟩
      rw [hiff]
      by_cases hin : base ≤ page ∧ page < base + n
      · have hnone : ¬ ∃ block ∈ blocks, block.start = page := by
          rintro ⟨block, hblock, rfl⟩
          exact h.start_outside hapart hblock hin
        simpa [releasedBlock, heq, released, hin] using hnone
      · simpa [releasedBlock, heq, released, hin] using h.heads page hpage_lower hpage_upper

variable (hbounds : lower ≤ base ∧ base + n ≤ limit)
  (hunreserved : ∀ page, base ≤ page → page < base + n → pageReserved (area.pages page) = false)

include hbounds hunreserved

omit hroom in
/-- The loop and the insertion come to an end, and the merges are left. -/
theorem defaultFreePages_eq (hinsert : insertFree fuel area.links base = .ok links') :
    defaultFreePages fuel area base n =
      .ok (mergeNext (mergePrev { releasedBlock area base n with links := links' } base).1
        (mergePrev { releasedBlock area base n with links := links' } base).2) := by
  have hloop : freeLoop base n area = .ok (released area base n) := by
    refine freeLoop_eq fun page hlower hupper ↦ ⟨hunreserved page hlower hupper, ?_⟩
    rw [Bool.eq_false_iff, ne_eq, h.heads page (by omega) (by omega)]
    rintro ⟨block, hblock, rfl⟩
    exact h.start_outside hapart hblock ⟨hlower, hupper⟩
  unfold defaultFreePages
  rw [assert_of_true hn, hloop]
  change insertFree fuel area.links base >>= _ = _
  rw [hinsert]
  rfl

omit h hapart hn hroom hbounds in
theorem releasedBlock_reserved (page : ℕ) :
    pageReserved ((releasedBlock area base n).pages page) = pageReserved (area.pages page) := by
  have hreleased : pageReserved ((released area base n).pages page) =
      pageReserved (area.pages page) := by
    by_cases hin : base ≤ page ∧ page < base + n
    · rw [hunreserved page hin.1 hin.2]
      simp [released, hin]
    · simp [released, hin]
  rw [← hreleased]
  simp only [releasedBlock, FreeArea.updatePage_pages]
  split
  · exact pageReserved_setPageProperty _
  · rfl

/-- Releasing a range that meets no block: it becomes a block of the list and merges with the blocks
it touches. -/
theorem defaultFreePages_spec (hinside : FreesInside blocks base) (hfuel : blocks.length < fuel) :
    ∃ pre post area', blocks = pre ++ post ∧ (∀ left ∈ pre, left.stop ≤ base) ∧
      (∀ right ∈ post, base + n ≤ right.start) ∧
      defaultFreePages fuel area base n = .ok area' ∧
      WellListed lower limit area' (release pre ⟨base, n⟩ post) ∧
      ∀ page, pageReserved (area'.pages page) = pageReserved (area.pages page) := by
  have hnew : pageLink base ∉ blocks.map headLink := by
    rw [mem_map_headLink]
    rintro ⟨block, hblock, heq⟩
    exact h.start_ne hapart hn hblock heq
  obtain ⟨pre, post, links', rfl, hpre, hpost, hinsert, hring⟩ :=
    insertFree_inside h.toThreaded h.separated hnew hinside hfuel
  have hleft : ∀ left ∈ pre, left.stop ≤ base := by
    intro left hmem
    have hblock : left ∈ pre ++ post := List.mem_append_left _ hmem
    have hsize := h.separated.nonempty left hblock
    have hbefore := hpre left hmem
    have hside := hapart left hblock
    have hne := h.start_ne hapart hn hblock
    omega
  have hright : ∀ right ∈ post, base + n ≤ right.start := by
    intro right hmem
    have hblock : right ∈ pre ++ post := List.mem_append_right _ hmem
    have hsize := h.separated.nonempty right hblock
    have hbehind := hpost right hmem
    have hside := hapart right hblock
    rw [Block.stop_eq] at hside
    omega
  have hsep : Separated (release pre ⟨base, n⟩ post) := h.separated.release hn hleft hright
  have hcover : cover (release pre ⟨base, n⟩ post) =
      cover (pre ++ post) ∪ Block.cells ⟨base, n⟩ := cover_release h.separated hn hleft hright
  have hsum : ((release pre ⟨base, n⟩ post).map Block.size).sum = area.nrFree + n := by
    rw [sum_size_release, h.total]
  -- the two merges; no size is as large as the sum of all
  have htotal : (pre.map Block.size).sum + (post.map Block.size).sum = area.nrFree := by
    rw [h.total, List.map_append, List.sum_append]
  obtain ⟨hprev, hstart⟩ := (h.threaded_released hapart hn hroom rfl hring).mergePrev
    fun left hmem ↦ by
      have hle : left.size ≤ (pre.map Block.size).sum :=
        List.single_le_sum (by simp) _ (List.mem_map_of_mem hmem)
      dsimp
      omega
  have hjoined : (joinLeft pre ⟨base, n⟩).2.size ≤ (pre.map Block.size).sum + n := by
    have hjoin := sum_size_joinLeft pre ⟨base, n⟩
    dsimp at hjoin
    omega
  have hnext := hprev.mergeNext fun right hmem ↦ by
    have hle : right.size ≤ (post.map Block.size).sum :=
      List.single_le_sum (by simp) _ (List.mem_map_of_mem hmem)
    omega
  rw [← hstart] at hnext
  have hfree : (mergeNext (mergePrev { releasedBlock area base n with links := links' } base).1
      (mergePrev { releasedBlock area base n with links := links' } base).2).nrFree =
        area.nrFree + n := by
    rw [mergeNext_nrFree, mergePrev_nrFree]
    exact uint32_eq hroom
  refine ⟨pre, post, _, rfl, hleft, hright,
    h.defaultFreePages_eq hapart hn hbounds hunreserved hinsert,
    ⟨hnext, fun block hblock ↦ ?_, hsep, ?_, ?_⟩, fun page ↦ ?_⟩
  · refine hsep.inside_of_cover (hcover ▸ Set.union_subset ?_ fun cell hcell ↦ ?_) hblock
    · rintro cell ⟨other, hother, hcell⟩
      have hother := h.inside other hother
      rw [Block.mem_cells] at hcell
      exact ⟨by omega, by omega⟩
    · rw [Block.mem_cells_mk] at hcell
      exact ⟨by omega, by omega⟩
  · rw [hfree, hsum]
  · rw [hfree]
    exact hroom
  · rw [mergeNext_reserved, mergePrev_reserved]
    exact releasedBlock_reserved hunreserved page

omit hroom in
/-- Behind the last block of a non-empty list the range is linked in twice: `single` is the ring that
the first of the two insertions makes. -/
theorem defaultFreePages_behind (hroom : area.nrFree + n < 2 ^ 32) (hne : blocks ≠ [])
    (hbehind : ∀ block ∈ blocks, ¬ base < block.start) (hfuel : blocks.length + 1 < fuel) :
    ∃ single, Ring single freeList (blocks.map headLink ++ [pageLink base]) ∧
      defaultFreePages fuel area base n = .ok { releasedBlock area base n with
        links := listAdd single (pageLink base) (pageLink base) } := by
  obtain ⟨front, last, hblocks⟩ := (List.eq_nil_or_concat blocks).resolve_left hne
  rw [List.concat_eq_append] at hblocks
  subst hblocks
  have hlast : last ∈ front ++ [last] := List.mem_append_right _ List.mem_cons_self
  have hpages : Ring area.links freeList
      (([] ++ (front.map Block.start ++ [last.start])).map pageLink) := by
    simpa [Function.comp_def] using h.ring
  have hsplit : Ring area.links freeList (front.map headLink ++ pageLink last.start :: []) := by
    simpa [Function.comp_def] using hpages
  have hnew : base ≠ last.start := (h.start_ne hapart hn hlast).symm
  have hscan : insertScan base fuel area.links freeList =
      .ok (listAdd (listAdd area.links (pageLink last.start) (pageLink base)) (pageLink base)
        (pageLink base)) := by
    refine insertScan_after hpages (fun page hpage ↦ ?_) (hbehind last hlast) hnew ?_
    · obtain ⟨block, hblock, rfl⟩ := List.mem_map.mp hpage
      exact hbehind block (List.mem_append_left _ hblock)
    · simp at hfuel ⊢
      omega
  have hnot_empty : listEmpty area.links freeList = false := by
    rw [Bool.eq_false_iff, ne_eq, h.ring.listEmpty_iff, List.map_eq_nil_iff]
    exact hne
  have hinsert : insertFree fuel area.links base =
      .ok (listAdd (listAdd area.links (pageLink last.start) (pageLink base)) (pageLink base)
        (pageLink base)) := by
    simpa [insertFree, hnot_empty] using hscan
  have hfresh : pageLink base ∉
      freeList :: (front.map headLink ++ pageLink last.start :: []) := by
    have hmap : front.map headLink ++ pageLink last.start :: [] = (front ++ [last]).map headLink := by
      simp
    rw [hmap, List.mem_cons, mem_map_headLink]
    rintro (heq | ⟨block, hblock, heq⟩)
    · cases heq
    · exact h.start_ne hapart hn hblock heq
  refine ⟨listAdd area.links (pageLink last.start) (pageLink base), ?_, ?_⟩
  · simpa using hsplit.listAdd_member hfresh
  · -- neither merge applies: `prev` of `base` is `base`, and its `next` is the head
    have hend : area.links.next (pageLink last.start) = freeList := hsplit.next_member
    have hfit : uint32 n ≠ 0 := by
      rw [uint32_eq (by omega)]
      omega
    rw [h.defaultFreePages_eq hapart hn hbounds hunreserved hinsert]
    simp [mergePrev, mergeNext, releasedBlock, listAdd, listAddAfter, __listAdd, hend, hfit]

end Free

end WellListed

end Ucore
