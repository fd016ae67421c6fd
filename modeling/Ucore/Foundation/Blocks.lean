import Mathlib.Data.List.Pairwise
import Mathlib.Data.Set.Basic
import Mathlib.Order.Interval.Set.Basic
import Mathlib.Order.Interval.Finset.Nat
import Mathlib.Algebra.BigOperators.Group.List.Basic
import Mathlib.Algebra.GroupWithZero.Nat
import Mathlib.Order.CompletePartialOrder

/-!
# Separated blocks of cells

A free list seen from far away is an ascending list of blocks of numbered cells with a gap between
any two neighbours. Such a list is determined by the set of cells it covers: its blocks are the
maximal runs of that set. Carving cells off the front of a block and releasing a block with
merging on both sides stay inside this form and change the covered set as expected.
-/

namespace Ucore.Foundation

/-- The cells `start, start + 1, ..., start + size - 1`. -/
structure Block where
  start : ℕ
  size : ℕ
deriving DecidableEq, Repr

namespace Block

def stop (block : Block) : ℕ := block.start + block.size

def cells (block : Block) : Set ℕ := Set.Ico block.start block.stop

@[simp]
theorem mem_cells {block : Block} {cell : ℕ} :
    cell ∈ block.cells ↔ block.start ≤ cell ∧ cell < block.stop := Iff.rfl

theorem mem_cells_mk {start size cell : ℕ} :
    cell ∈ cells ⟨start, size⟩ ↔ start ≤ cell ∧ cell < start + size := Iff.rfl

@[simp]
theorem stop_mk (start size : ℕ) : stop ⟨start, size⟩ = start + size := rfl

theorem stop_eq (block : Block) : block.stop = block.start + block.size := rfl

/-- Two non-empty blocks without a common cell lie on either side of each other. -/
theorem apart_of_disjoint {left right : Block} (h : Disjoint left.cells right.cells)
    (hleft : 0 < left.size) (hright : 0 < right.size) :
    left.stop ≤ right.start ∨ right.stop ≤ left.start := by
  by_contra hnot
  have hcell : max left.start right.start ∈ left.cells ∩ right.cells := by
    simp only [Set.mem_inter_iff, mem_cells, stop_eq] at hnot ⊢
    omega
  exact (h.le_bot hcell).elim

end Block

/-- Non-empty blocks in ascending order, no two of them adjacent. -/
structure Separated (blocks : List Block) : Prop where
  ascending : blocks.Pairwise (fun left right ↦ left.stop < right.start)
  nonempty : ∀ block ∈ blocks, 0 < block.size

/-- The cells that belong to some block. -/
def cover (blocks : List Block) : Set ℕ := {cell | ∃ block ∈ blocks, cell ∈ block.cells}

/-- A run of cells of `cells` that can be extended at neither end. -/
structure MaximalRun (cells : Set ℕ) (block : Block) : Prop where
  nonempty : 0 < block.size
  inside : block.cells ⊆ cells
  below : ∀ cell, cell + 1 = block.start → cell ∉ cells
  above : block.stop ∉ cells

variable {blocks others pre post : List Block} {block : Block} {cell count : ℕ}

/-! ## The covered set -/

@[simp]
theorem mem_cover : cell ∈ cover blocks ↔ ∃ block ∈ blocks, cell ∈ block.cells := Iff.rfl

@[simp]
theorem cover_nil : cover [] = ∅ := by
  ext cell
  simp

@[simp]
theorem cover_cons : cover (block :: blocks) = block.cells ∪ cover blocks := by
  ext cell
  simp

@[simp]
theorem cover_append : cover (pre ++ post) = cover pre ∪ cover post := by
  ext cell
  simp only [mem_cover, List.mem_append, Set.mem_union, or_and_right, exists_or]

namespace Separated

theorem nil : Separated [] := ⟨List.Pairwise.nil, by simp⟩

theorem singleton (hsize : 0 < block.size) : Separated [block] :=
  ⟨List.pairwise_singleton _ _, by simpa using hsize⟩

theorem append_iff : Separated (pre ++ post) ↔
    Separated pre ∧ Separated post ∧
      ∀ left ∈ pre, ∀ right ∈ post, left.stop < right.start := by
  constructor
  · intro h
    obtain ⟨hpre, hpost, hcross⟩ := List.pairwise_append.mp h.ascending
    exact ⟨⟨hpre, fun b hb ↦ h.nonempty b (List.mem_append_left _ hb)⟩,
      ⟨hpost, fun b hb ↦ h.nonempty b (List.mem_append_right _ hb)⟩, hcross⟩
  · intro ⟨hpre, hpost, hcross⟩
    refine ⟨List.pairwise_append.mpr ⟨hpre.ascending, hpost.ascending, hcross⟩, fun b hb ↦ ?_⟩
    exact (List.mem_append.mp hb).elim (hpre.nonempty b) (hpost.nonempty b)

theorem cons_iff : Separated (block :: blocks) ↔
    0 < block.size ∧ Separated blocks ∧ ∀ right ∈ blocks, block.stop < right.start := by
  constructor
  · intro h
    obtain ⟨hhead, htail⟩ := List.pairwise_cons.mp h.ascending
    exact ⟨h.nonempty block (by simp), ⟨htail, fun b hb ↦ h.nonempty b (by simp [hb])⟩, hhead⟩
  · intro ⟨hsize, htail, hhead⟩
    refine ⟨List.pairwise_cons.mpr ⟨hhead, htail.ascending⟩, fun b hb ↦ ?_⟩
    rcases List.mem_cons.mp hb with rfl | hb
    · exact hsize
    · exact htail.nonempty b hb

/-- Two members of a separated list that touch the same or a neighbouring cell are equal. -/
theorem eq_of_touching (h : Separated blocks) {left right : Block} (hleft : left ∈ blocks)
    (hright : right ∈ blocks) (hstart : left.start ≤ right.stop)
    (hstop : right.start ≤ left.stop) : left = right := by
  by_contra hne
  rcases List.pairwise_iff_getElem.mp h.ascending with hpair
  obtain ⟨i, hi, rfl⟩ := List.getElem_of_mem hleft
  obtain ⟨j, hj, rfl⟩ := List.getElem_of_mem hright
  rcases lt_trichotomy i j with hlt | heq | hgt
  · have := hpair i j hi hj hlt
    omega
  · exact hne (by simp [heq])
  · have := hpair j i hj hi hgt
    omega

/-- The other members lie on either side of a member. -/
theorem side_apart (h : Separated (pre ++ block :: post)) {other : Block}
    (hother : other ∈ pre ++ post) : other.stop < block.start ∨ block.stop < other.start := by
  obtain ⟨-, hrest, hcross⟩ := append_iff.mp h
  rcases List.mem_append.mp hother with hmem | hmem
  · exact .inl (hcross other hmem block (by simp))
  · exact .inr ((cons_iff.mp hrest).2.2 other hmem)

/-- The starts ascend strictly, so they are pairwise distinct. -/
theorem nodup_starts (h : Separated blocks) : (blocks.map Block.start).Nodup := by
  rw [List.Nodup, List.pairwise_map]
  refine h.ascending.imp_of_mem fun {left right} hleft _ hlt ↦ ?_
  have := h.nonempty left hleft
  rw [Block.stop_eq] at hlt
  omega

/-- The members of a separated list are exactly the maximal runs of the covered set. -/
theorem mem_iff_maximalRun (h : Separated blocks) :
    block ∈ blocks ↔ MaximalRun (cover blocks) block := by
  constructor
  · intro hblock
    have hsize := h.nonempty block hblock
    refine ⟨hsize, fun cell hcell ↦ ⟨block, hblock, hcell⟩, ?_, ?_⟩
    · intro cell hbelow ⟨other, hother, hcell⟩
      rw [Block.mem_cells] at hcell
      have heq := h.eq_of_touching hother hblock (by rw [block.stop_eq]; omega) (by omega)
      subst heq
      omega
    · intro ⟨other, hother, hcell⟩
      rw [Block.mem_cells] at hcell
      have heq := h.eq_of_touching hother hblock hcell.1 (by rw [block.stop_eq] at hcell; omega)
      subst heq
      omega
  · intro hrun
    have hcells : ∀ offset, offset < block.size → ∃ other ∈ blocks,
        other.start ≤ block.start + offset ∧ block.start + offset < other.stop := by
      intro offset hoffset
      exact hrun.inside (by rw [Block.mem_cells, Block.stop_eq]; omega)
    obtain ⟨first, hfirst, hle, hlt⟩ := hcells 0 hrun.nonempty
    -- the block that covers the first cell covers the whole run
    have hall : ∀ offset, offset < block.size → block.start + offset < first.stop := by
      intro offset
      induction offset with
      | zero => intro _; simpa using hlt
      | succ offset ih =>
        intro hoffset
        have hprevious := ih (by omega)
        obtain ⟨other, hother, hole, holt⟩ := hcells (offset + 1) hoffset
        have heq := h.eq_of_touching hother hfirst (by omega) (by omega)
        subst heq
        exact holt
    have hstop_le : block.stop ≤ first.stop := by
      have hlast := hall (block.size - 1) (by have := hrun.nonempty; omega)
      have hsize := hrun.nonempty
      rw [Block.stop_eq]
      omega
    have hstart : first.start = block.start := by
      by_contra hne
      have hbelow : block.start - 1 + 1 = block.start := by omega
      exact hrun.below _ hbelow ⟨first, hfirst, by rw [Block.mem_cells]; omega⟩
    have hstop : first.stop = block.stop := by
      by_contra hne
      have hsize := hrun.nonempty
      exact hrun.above ⟨first, hfirst, by rw [Block.mem_cells, block.stop_eq] at *; omega⟩
    have heq : block = first := by
      rw [Block.stop_eq, Block.stop_eq, hstart] at hstop
      cases first
      cases block
      simp only [Block.mk.injEq] at hstart hstop ⊢
      omega
    rw [heq]
    exact hfirst

/-- The covered set determines the list. -/
theorem eq_of_cover_eq (h : Separated blocks) (h' : Separated others)
    (hcover : cover blocks = cover others) : blocks = others := by
  have hnodup : ∀ {list : List Block}, Separated list → list.Nodup := by
    intro list hlist
    exact List.Nodup.of_map _ hlist.nodup_starts
  have hperm : blocks.Perm others := by
    rw [List.perm_ext_iff_of_nodup (hnodup h) (hnodup h')]
    intro block
    rw [h.mem_iff_maximalRun, h'.mem_iff_maximalRun, hcover]
  refine hperm.eq_of_pairwise ?_ h.ascending h'.ascending
  intro left right hleft hright hlt hgt
  have := h.nonempty left hleft
  rw [Block.stop_eq] at hlt hgt
  omega

/-- A run of covered cells lies inside one block. -/
theorem exists_of_run (h : Separated blocks) {start : ℕ} (hcount : 0 < count)
    (hrun : Set.Ico start (start + count) ⊆ cover blocks) :
    ∃ block ∈ blocks, block.start ≤ start ∧ start + count ≤ block.stop := by
  induction count with
  | zero => omega
  | succ count ih =>
    obtain ⟨last, hlast, hcell⟩ := hrun (a := start + count) (by rw [Set.mem_Ico]; omega)
    rw [Block.mem_cells] at hcell
    rcases Nat.eq_zero_or_pos count with rfl | hpos
    · exact ⟨last, hlast, by omega, by omega⟩
    · obtain ⟨block, hblock, hle, hstop⟩ := ih hpos fun cell hc ↦ hrun (by
        rw [Set.mem_Ico] at hc ⊢
        omega)
      have heq := h.eq_of_touching hblock hlast (by omega) (by omega)
      subst heq
      exact ⟨block, hblock, hle, by omega⟩

/-- Separated blocks inside an interval have no more cells than the interval. -/
theorem sum_size_le (h : Separated blocks) {lower upper : ℕ} (hle : lower ≤ upper)
    (hinside : ∀ block ∈ blocks, lower ≤ block.start ∧ block.stop ≤ upper) :
    (blocks.map Block.size).sum ≤ upper - lower := by
  induction blocks generalizing lower with
  | nil => simp
  | cons block blocks ih =>
    obtain ⟨hsize, htail, hhead⟩ := cons_iff.mp h
    obtain ⟨hstart, hstop⟩ := hinside block (by simp)
    have hrest := ih htail hstop fun other hother ↦
      ⟨(hhead other hother).le, (hinside other (by simp [hother])).2⟩
    rw [Block.stop_eq] at hrest hstop
    simp only [List.map_cons, List.sum_cons]
    omega

/-- Blocks that only cover cells of an interval lie inside it. -/
theorem inside_of_cover (h : Separated blocks) {lower upper : ℕ}
    (hcover : cover blocks ⊆ Set.Ico lower upper) (hblock : block ∈ blocks) :
    lower ≤ block.start ∧ block.stop ≤ upper := by
  have hsize := h.nonempty block hblock
  have hfirst := hcover (a := block.start) ⟨block, hblock, by rw [Block.mem_cells, Block.stop_eq]; omega⟩
  have hlast := hcover (a := block.stop - 1) ⟨block, hblock, by
    rw [Block.mem_cells, Block.stop_eq]; omega⟩
  rw [Set.mem_Ico] at hfirst hlast
  rw [Block.stop_eq] at hlast ⊢
  omega

end Separated

/-! ## Carving cells off the front of a block -/

/-- What is left of a block when its first `count` cells are taken. -/
def remainder (block : Block) (count : ℕ) : List Block :=
  if block.size = count then [] else [⟨block.start + count, block.size - count⟩]

theorem Separated.carve (h : Separated (pre ++ block :: post)) (hcount : count ≤ block.size) :
    Separated (pre ++ (remainder block count ++ post)) := by
  obtain ⟨hpre, hrest, hcross⟩ := append_iff.mp h
  obtain ⟨-, hpost, hhead⟩ := cons_iff.mp hrest
  have hkept : Separated (pre ++ post) :=
    append_iff.mpr ⟨hpre, hpost, fun left hleft right hright ↦ hcross left hleft right (by simp [hright])⟩
  unfold remainder
  split
  · exact hkept
  · rename_i hne
    have hstart : ∀ left ∈ pre, left.stop < block.start + count := by
      intro left hleft
      have := hcross left hleft block (by simp)
      omega
    refine append_iff.mpr ⟨hpre, cons_iff.mpr ⟨by dsimp; omega, hpost, ?_⟩, ?_⟩
    · intro right hright
      have := hhead right hright
      rw [Block.stop_eq] at this ⊢
      dsimp
      omega
    · intro left hleft right hright
      simp only [List.cons_append, List.nil_append, List.mem_cons] at hright
      rcases hright with rfl | hright
      · exact hstart left hleft
      · exact hcross left hleft right (by simp [hright])

theorem cover_carve (h : Separated (pre ++ block :: post)) (hcount : count ≤ block.size) :
    cover (pre ++ (remainder block count ++ post)) =
      cover (pre ++ block :: post) \ Set.Ico block.start (block.start + count) := by
  have hother : ∀ other ∈ pre ++ post, ∀ cell, cell ∈ other.cells →
      cell < block.start ∨ block.start + count ≤ cell := by
    intro other hother cell hcell
    rw [Block.mem_cells] at hcell
    rcases h.side_apart hother with hbefore | hafter
    · exact .inl (by omega)
    · rw [Block.stop_eq] at hafter
      exact .inr (by omega)
  have hremainder : ∀ cell, cell ∈ cover (remainder block count) ↔
      block.start + count ≤ cell ∧ cell < block.stop := by
    intro cell
    unfold remainder
    split
    · rw [Block.stop_eq]
      simp only [cover_nil, Set.mem_empty_iff_false, false_iff]
      omega
    · simp only [cover_cons, cover_nil, Set.union_empty, Block.mem_cells, Block.stop_eq]
      omega
  ext cell
  simp only [cover_append, cover_cons, Set.mem_union, Set.mem_sdiff, Set.mem_Ico, hremainder,
    Block.mem_cells]
  constructor
  · rintro (⟨other, hmem, hcell⟩ | hcell | ⟨other, hmem, hcell⟩)
    · have := hother other (by simp [hmem]) cell hcell
      exact ⟨.inl ⟨other, hmem, hcell⟩, by omega⟩
    · exact ⟨.inr (.inl ⟨by omega, hcell.2⟩), by omega⟩
    · have := hother other (by simp [hmem]) cell hcell
      exact ⟨.inr (.inr ⟨other, hmem, hcell⟩), by omega⟩
  · rintro ⟨hpre | hcell | hpost, hnot⟩
    · exact .inl hpre
    · exact .inr (.inl (by omega))
    · exact .inr (.inr hpost)

theorem sum_size_carve (hcount : count ≤ block.size) :
    ((pre ++ (remainder block count ++ post)).map Block.size).sum + count =
      ((pre ++ block :: post).map Block.size).sum := by
  unfold remainder
  split <;> simp <;> omega

/-! ## Releasing a block between two parts of the list -/

/-- Extend the last block of `pre` by `block` when the two touch. -/
def joinLeft (pre : List Block) (block : Block) : List Block × Block :=
  match pre.getLast? with
  | some left =>
    if left.stop = block.start then (pre.dropLast, ⟨left.start, left.size + block.size⟩)
    else (pre, block)
  | none => (pre, block)

/-- Extend `block` by the first block of `post` when the two touch. -/
def joinRight (block : Block) (post : List Block) : Block × List Block :=
  match post with
  | right :: rest =>
    if block.stop = right.start then (⟨block.start, block.size + right.size⟩, rest)
    else (block, right :: rest)
  | [] => (block, [])

/-- Put `block` between `pre` and `post` and merge it with the neighbours it touches. -/
def release (pre : List Block) (block : Block) (post : List Block) : List Block :=
  (joinLeft pre block).1 ++ (joinRight (joinLeft pre block).2 post).1 ::
    (joinRight (joinLeft pre block).2 post).2

/-- The two merges may be done in either order. -/
theorem release_eq : release pre block post =
    (joinLeft pre (joinRight block post).1).1 ++
      (joinLeft pre (joinRight block post).1).2 :: (joinRight block post).2 := by
  rcases List.eq_nil_or_concat pre with rfl | ⟨front, last, rfl⟩
  · simp [release, joinLeft]
  · cases post with
    | nil => simp [release, joinRight]
    | cons first rest =>
      by_cases hleft : last.stop = block.start <;> by_cases hright : block.stop = first.start
      · have hjoined : last.start + (last.size + block.size) = first.start := by
          rw [Block.stop_eq] at hleft hright
          omega
        simp [release, joinLeft, joinRight, hleft, hright, hjoined, Nat.add_assoc]
      · have hjoined : ¬ last.start + (last.size + block.size) = first.start := by
          rw [Block.stop_eq] at hleft hright
          omega
        simp [release, joinLeft, joinRight, hleft, hright, hjoined]
      · simp [release, joinLeft, joinRight, hleft, hright]
      · simp [release, joinLeft, joinRight, hleft, hright]

theorem mem_of_mem_joinRight {right : Block} (h : right ∈ (joinRight block post).2) :
    right ∈ post := by
  cases post with
  | nil => simp [joinRight] at h
  | cons first rest =>
    by_cases htouch : block.stop = first.start
    · simp only [joinRight, if_pos htouch] at h
      exact List.mem_cons_of_mem _ h
    · simpa only [joinRight, if_neg htouch] using h

/-- The extended block stops where it did or where a block of `post` stops. -/
theorem joinRight_stop :
    (joinRight block post).1.stop = block.stop ∨
      ∃ right ∈ post, (joinRight block post).1.stop = right.stop := by
  cases post with
  | nil => exact .inl rfl
  | cons first rest =>
    by_cases htouch : block.stop = first.start
    · refine .inr ⟨first, by simp, ?_⟩
      simp only [joinRight, if_pos htouch, Block.stop_mk]
      rw [Block.stop_eq] at htouch ⊢
      omega
    · exact .inl (by simp [joinRight, htouch])

theorem joinRight_start : (joinRight block post).1.start = block.start := by
  cases post with
  | nil => rfl
  | cons first rest =>
    by_cases htouch : block.stop = first.start <;> simp [joinRight, htouch]

/-- The blocks that start before the released one go on starting a block. -/
theorem start_mem_release {left : Block} (block : Block) (post : List Block) (h : left ∈ pre) :
    ∃ kept ∈ release pre block post, kept.start = left.start := by
  rcases List.eq_nil_or_concat pre with rfl | ⟨front, last, rfl⟩
  · simp at h
  · rw [release_eq]
    generalize (joinRight block post).1 = joined
    by_cases htouch : last.stop = joined.start
    · have hjoin : joinLeft (front.concat last) joined =
          (front, ⟨last.start, last.size + joined.size⟩) := by
        simp [joinLeft, htouch]
      rw [hjoin]
      rcases List.mem_append.mp (List.concat_eq_append ▸ h) with hmem | hmem
      · exact ⟨left, by simp [hmem], rfl⟩
      · exact ⟨⟨last.start, last.size + joined.size⟩, by simp, by rw [List.mem_singleton.mp hmem]⟩
    · have hjoin : joinLeft (front.concat last) joined = (front.concat last, joined) := by
        simp [joinLeft, htouch]
      rw [hjoin]
      exact ⟨left, List.mem_append_left _ h, rfl⟩

theorem joinLeft_spec (hpre : Separated pre) (hsize : 0 < block.size)
    (hle : ∀ left ∈ pre, left.stop ≤ block.start) :
    Separated (joinLeft pre block).1 ∧ 0 < (joinLeft pre block).2.size ∧
      (∀ left ∈ (joinLeft pre block).1, left ∈ pre ∧ left.stop < (joinLeft pre block).2.start) ∧
      (joinLeft pre block).2.stop = block.stop ∧
      cover (joinLeft pre block).1 ∪ (joinLeft pre block).2.cells = cover pre ∪ block.cells := by
  rcases List.eq_nil_or_concat pre with rfl | ⟨front, last, rfl⟩
  · simp [joinLeft, hpre, hsize]
  · simp only [List.concat_eq_append] at hpre hle ⊢
    obtain ⟨hfront, hlast, hcross⟩ := Separated.append_iff.mp hpre
    have hgap : ∀ left ∈ front, left.stop < last.start :=
      fun left hleft ↦ hcross left hleft last (by simp)
    have hlast_size : 0 < last.size := hlast.nonempty last (by simp)
    by_cases htouch : last.stop = block.start
    · have hjoin : joinLeft (front ++ [last]) block =
          (front, ⟨last.start, last.size + block.size⟩) := by
        simp [joinLeft, htouch]
      rw [hjoin]
      rw [Block.stop_eq] at htouch
      refine ⟨hfront, by dsimp; omega, fun left hleft ↦ ⟨by simp [hleft], hgap left hleft⟩, ?_, ?_⟩
      · simp only [Block.stop_eq]
        omega
      · ext cell
        simp only [cover_append, cover_cons, cover_nil, Set.mem_union, Block.mem_cells,
          Block.stop_eq, Set.mem_empty_iff_false, or_false]
        constructor
        · rintro (h | h)
          · exact .inl (.inl h)
          · by_cases hcell : cell < last.start + last.size
            · exact .inl (.inr ⟨h.1, hcell⟩)
            · exact .inr (by omega)
        · rintro ((h | h) | h)
          · exact .inl h
          · exact .inr (by omega)
          · exact .inr (by omega)
    · have hjoin : joinLeft (front ++ [last]) block = (front ++ [last], block) := by
        simp [joinLeft, htouch]
      rw [hjoin]
      refine ⟨hpre, hsize, fun left hleft ↦ ⟨hleft, ?_⟩, rfl, rfl⟩
      have hlt : last.stop < block.start := lt_of_le_of_ne (hle last (by simp)) htouch
      rcases List.mem_append.mp hleft with hmem | hmem
      · have := hgap left hmem
        rw [Block.stop_eq last] at hlt
        dsimp
        omega
      · rw [List.mem_singleton.mp hmem]
        exact hlt

theorem joinRight_spec (hpost : Separated post) (hsize : 0 < block.size)
    (hle : ∀ right ∈ post, block.stop ≤ right.start) :
    Separated (joinRight block post).2 ∧ 0 < (joinRight block post).1.size ∧
      (∀ right ∈ (joinRight block post).2, (joinRight block post).1.stop < right.start) ∧
      (joinRight block post).1.start = block.start ∧
      (joinRight block post).1.cells ∪ cover (joinRight block post).2 =
        block.cells ∪ cover post := by
  cases post with
  | nil => simp [joinRight, hsize, Separated.nil]
  | cons first rest =>
    obtain ⟨hfirst, hrest, hhead⟩ := Separated.cons_iff.mp hpost
    by_cases htouch : block.stop = first.start
    · have hjoin : joinRight block (first :: rest) =
          (⟨block.start, block.size + first.size⟩, rest) := by
        simp [joinRight, htouch]
      rw [hjoin]
      rw [Block.stop_eq] at htouch
      refine ⟨hrest, by dsimp; omega, fun right hright ↦ ?_, rfl, ?_⟩
      · have := hhead right hright
        rw [Block.stop_eq] at this ⊢
        dsimp
        omega
      · ext cell
        simp only [cover_cons, Set.mem_union, Block.mem_cells, Block.stop_eq]
        constructor
        · rintro (h | h)
          · by_cases hcell : cell < block.start + block.size
            · exact .inl ⟨h.1, hcell⟩
            · exact .inr (.inl (by omega))
          · exact .inr (.inr h)
        · rintro (h | h | h)
          · exact .inl (by omega)
          · exact .inl (by omega)
          · exact .inr h
    · have hjoin : joinRight block (first :: rest) = (block, first :: rest) := by
        simp [joinRight, htouch]
      rw [hjoin]
      refine ⟨hpost, hsize, fun right hright ↦ ?_, rfl, rfl⟩
      have hlt : block.stop < first.start := lt_of_le_of_ne (hle first (by simp)) htouch
      rcases List.mem_cons.mp hright with rfl | hmem
      · exact hlt
      · have := hhead right hmem
        rw [Block.stop_eq first] at this
        dsimp
        omega

section Release

variable (h : Separated (pre ++ post)) (hsize : 0 < block.size)
  (hleft : ∀ left ∈ pre, left.stop ≤ block.start) (hright : ∀ right ∈ post, block.stop ≤ right.start)

include h hsize hleft hright

theorem Separated.release : Separated (release pre block post) := by
  obtain ⟨hpre, hpost, hcross⟩ := append_iff.mp h
  obtain ⟨hpre', hsize', hgap, hstop, -⟩ := joinLeft_spec hpre hsize hleft
  obtain ⟨hpost', hsize'', hgap', hstart, -⟩ :=
    joinRight_spec hpost hsize' (by rw [hstop]; exact hright)
  refine append_iff.mpr ⟨hpre', cons_iff.mpr ⟨hsize'', hpost', hgap'⟩, fun left hl right hr ↦ ?_⟩
  have hbefore := (hgap left hl).2
  rcases List.mem_cons.mp hr with rfl | hr
  · rw [hstart]
    exact hbefore
  · have hafter := hgap' right hr
    rw [Block.stop_eq, hstart] at hafter
    omega

theorem cover_release :
    cover (Foundation.release pre block post) = cover (pre ++ post) ∪ block.cells := by
  obtain ⟨hpre, hpost, -⟩ := Separated.append_iff.mp h
  obtain ⟨-, hsize', -, hstop, hcover⟩ := joinLeft_spec hpre hsize hleft
  obtain ⟨-, -, -, -, hcover'⟩ := joinRight_spec hpost hsize' (by rw [hstop]; exact hright)
  unfold Foundation.release
  rw [cover_append, cover_cons, hcover', ← Set.union_assoc, hcover, cover_append,
    Set.union_right_comm]

end Release

/-- A range that meets no block lies between two parts of the list. -/
theorem Separated.split_apart {start : ℕ} (h : Separated blocks)
    (hapart : ∀ block ∈ blocks, block.stop ≤ start ∨ start + count ≤ block.start) :
    ∃ pre post, blocks = pre ++ post ∧ (∀ left ∈ pre, left.stop ≤ start) ∧
      ∀ right ∈ post, start + count ≤ right.start := by
  induction blocks with
  | nil => exact ⟨[], [], rfl, by simp, by simp⟩
  | cons first rest ih =>
    obtain ⟨hsize, hrest, hhead⟩ := cons_iff.mp h
    rcases hapart first List.mem_cons_self with hbefore | hbehind
    · obtain ⟨pre, post, rfl, hpre, hpost⟩ :=
        ih hrest fun block hblock ↦ hapart block (List.mem_cons_of_mem _ hblock)
      exact ⟨first :: pre, post, rfl, List.forall_mem_cons.mpr ⟨hbefore, hpre⟩, hpost⟩
    · refine ⟨[], first :: rest, rfl, by simp, List.forall_mem_cons.mpr ⟨hbehind, ?_⟩⟩
      intro right hright
      have hgap := hhead right hright
      rw [Block.stop_eq] at hgap
      omega

theorem sum_size_joinLeft (pre : List Block) (block : Block) :
    ((joinLeft pre block).1.map Block.size).sum + (joinLeft pre block).2.size =
      (pre.map Block.size).sum + block.size := by
  rcases List.eq_nil_or_concat pre with rfl | ⟨front, last, rfl⟩
  · rfl
  · by_cases htouch : last.stop = block.start <;> simp [joinLeft, htouch, Nat.add_assoc]

theorem sum_size_joinRight (block : Block) (post : List Block) :
    (joinRight block post).1.size + ((joinRight block post).2.map Block.size).sum =
      block.size + (post.map Block.size).sum := by
  cases post with
  | nil => rfl
  | cons first rest =>
    by_cases htouch : block.stop = first.start <;> simp [joinRight, htouch, Nat.add_assoc]

theorem sum_size_release :
    ((release pre block post).map Block.size).sum =
      ((pre ++ post).map Block.size).sum + block.size := by
  have hleft := sum_size_joinLeft pre block
  have hright := sum_size_joinRight (joinLeft pre block).2 post
  unfold release
  simp only [List.map_append, List.map_cons, List.sum_append, List.sum_cons]
  omega

/-- A range of an interval that meets none of the blocks inside has room beside them. -/
theorem Separated.sum_size_add_le {start lower upper : ℕ} (h : Separated blocks)
    (hcount : 0 < count) (hapart : ∀ block ∈ blocks, block.stop ≤ start ∨ start + count ≤ block.start)
    (hinside : ∀ block ∈ blocks, lower ≤ block.start ∧ block.stop ≤ upper)
    (hlower : lower ≤ start) (hupper : start + count ≤ upper) :
    (blocks.map Block.size).sum + count ≤ upper - lower := by
  obtain ⟨pre, post, rfl, hpre, hpost⟩ := h.split_apart hapart
  have hreleased : Separated (Foundation.release pre ⟨start, count⟩ post) :=
    h.release hcount hpre hpost
  have hcover : cover (Foundation.release pre ⟨start, count⟩ post) ⊆ Set.Ico lower upper := by
    have hmerged : cover (Foundation.release pre ⟨start, count⟩ post) =
        cover (pre ++ post) ∪ Block.cells ⟨start, count⟩ := cover_release h hcount hpre hpost
    rw [hmerged]
    refine Set.union_subset ?_ fun cell hcell ↦ ?_
    · rintro cell ⟨block, hblock, hcell⟩
      have hblock := hinside block hblock
      rw [Block.mem_cells] at hcell
      exact ⟨by omega, by omega⟩
    · rw [Block.mem_cells_mk] at hcell
      exact ⟨by omega, by omega⟩
  have hsum := hreleased.sum_size_le (by omega) fun block hblock ↦
    hreleased.inside_of_cover hcover hblock
  rwa [sum_size_release] at hsum

end Ucore.Foundation
