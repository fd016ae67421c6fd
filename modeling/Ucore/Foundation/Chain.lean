import Mathlib.Data.List.Nodup
import Mathlib.Data.List.Basic

/-!
# Singly linked chains

A chain is threaded through pointer cells: `link` reads a cell and `cell` is the pointer cell inside
a node. `Chain link cell first members last` states that the walk that starts at the cell `first`
meets `members` and ends at `last`. A list that ends in a null pointer and a ring that comes back to
its head are both chains; so is every part of them.
-/

namespace Ucore.Foundation

variable {Cell Node : Type}

/-- Following the links from `first` meets `members`, and after them `last`. -/
def Chain (link : Cell → Node) (cell : Node → Cell) : Cell → List Node → Node → Prop
  | first, [], last => link first = last
  | first, node :: members, last => link first = node ∧ Chain link cell (cell node) members last

/-- The cell from which the walk goes on after `members`. -/
def lastCell (cell : Node → Cell) (first : Cell) (members : List Node) : Cell :=
  (members.getLast?.map cell).getD first

variable {link link' : Cell → Node} {cell : Node → Cell} {first : Cell} {node last : Node}
  {members pre post : List Node}

@[simp]
theorem lastCell_nil : lastCell cell first [] = first := rfl

@[simp]
theorem lastCell_cons : lastCell cell first (node :: members) = lastCell cell (cell node) members := by
  cases members with
  | nil => rfl
  | cons second rest => simp [lastCell, List.getLast?_cons]

@[simp]
theorem lastCell_concat : lastCell cell first (members ++ [node]) = cell node := by
  simp [lastCell]

theorem lastCell_map {Member : Type} {f : Member → Node} {others : List Member} :
    lastCell cell first (others.map f) = lastCell (cell ∘ f) first others := by
  simp [lastCell, List.getLast?_map]

theorem lastCell_mem : lastCell cell first members ∈ first :: members.map cell := by
  rcases List.eq_nil_or_concat members with rfl | ⟨front, final, rfl⟩
  · simp
  · simp

/-- Every cell of a chain is the last one of a front part. -/
theorem exists_split_of_mem {position : Cell} (h : position ∈ first :: members.map cell) :
    ∃ pre post, members = pre ++ post ∧ position = lastCell cell first pre := by
  rcases List.mem_cons.mp h with rfl | hmem
  · exact ⟨[], members, rfl, rfl⟩
  · obtain ⟨node, hnode, rfl⟩ := List.mem_map.mp hmem
    obtain ⟨pre, post, rfl⟩ := List.append_of_mem hnode
    exact ⟨pre ++ [node], post, by simp, by simp⟩

namespace Chain

theorem append_iff : Chain link cell first (pre ++ node :: post) last ↔
    Chain link cell first pre node ∧ Chain link cell (cell node) post last := by
  induction pre generalizing first with
  | nil => simp [Chain]
  | cons following pre ih => simp [Chain, ih, and_assoc]

/-- The cell after a front part points at what comes next. -/
theorem link_lastCell (h : Chain link cell first (pre ++ post) last) :
    link (lastCell cell first pre) = post.head?.getD last := by
  induction pre generalizing first with
  | nil =>
    cases post with
    | nil => exact h
    | cons following rest => exact h.1
  | cons following pre ih =>
    rw [lastCell_cons]
    exact ih h.2

/-- A chain only depends on its own cells. -/
theorem congr (h : Chain link cell first members last)
    (hlink : ∀ position ∈ first :: members.map cell, link' position = link position) :
    Chain link' cell first members last := by
  induction members generalizing first with
  | nil => exact (hlink first (by simp)).trans h
  | cons following rest ih =>
    refine ⟨(hlink first (by simp)).trans h.1, ih h.2 fun position hposition ↦ ?_⟩
    exact hlink position (List.mem_cons_of_mem _ hposition)

/-- A chain goes on in the same way from any cell that points at its first node. -/
theorem move {first' : Cell} (h : Chain link cell first members last)
    (hfirst : link' first' = link first)
    (hlink : ∀ member ∈ members, link' (cell member) = link (cell member)) :
    Chain link' cell first' members last := by
  cases members with
  | nil => exact hfirst.trans h
  | cons node rest =>
    refine ⟨hfirst.trans h.1, h.2.congr fun position hposition ↦ ?_⟩
    have hcell : position ∈ (node :: rest).map cell := hposition
    obtain ⟨member, hmember, rfl⟩ := List.mem_map.mp hcell
    exact hlink member hmember

/-- Pointing the last cell of a chain somewhere else. -/
theorem relink (h : Chain link cell first members last) (hnodup : (first :: members.map cell).Nodup)
    (hlast : link' (lastCell cell first members) = node)
    (hother : ∀ position ∈ first :: members.map cell, position ≠ lastCell cell first members →
      link' position = link position) :
    Chain link' cell first members node := by
  induction members generalizing first with
  | nil => exact hlast
  | cons following rest ih =>
    obtain ⟨hfirst, hrest⟩ := h
    simp only [List.map_cons, lastCell_cons] at hnodup hlast hother
    obtain ⟨hnew, hnodup'⟩ := List.nodup_cons.mp hnodup
    refine ⟨?_, ih hrest hnodup' hlast fun position hposition ↦ ?_⟩
    · refine (hother first (by simp) ?_).trans hfirst
      rintro heq
      exact hnew (heq ▸ lastCell_mem)
    · exact hother position (List.mem_cons_of_mem _ hposition)

/-- Pointing the cell after a front part at something else, with a new rest of the chain. -/
theorem splice {rest : List Node} (h : Chain link cell first (pre ++ post) last)
    (hnodup : (first :: pre.map cell).Nodup)
    (hother : ∀ position ∈ first :: pre.map cell, position ≠ lastCell cell first pre →
      link' position = link position)
    (hrest : Chain link' cell (lastCell cell first pre) rest node) :
    Chain link' cell first (pre ++ rest) node := by
  have hpre : Chain link cell first pre (post.head?.getD last) := by
    cases post with
    | nil => simpa using h
    | cons following tail => exact (append_iff.mp h).1
  cases rest with
  | nil => simpa using hpre.relink hnodup hrest hother
  | cons following tail =>
    exact append_iff.mpr ⟨hpre.relink hnodup hrest.1 hother, hrest.2⟩

/-- The rest of a chain after a front part. -/
theorem drop (h : Chain link cell first (pre ++ post) last) :
    Chain link cell (lastCell cell first pre) post last := by
  induction pre generalizing first with
  | nil => exact h
  | cons following pre ih =>
    rw [lastCell_cons]
    exact ih h.2

/-- Two chains from one cell to the same end, met only there, meet the same nodes. -/
theorem unique {others : List Node} (h : Chain link cell first members last)
    (h' : Chain link cell first others last) (hlast : last ∉ members) (hlast' : last ∉ others) :
    members = others := by
  induction members generalizing first others with
  | nil =>
    cases others with
    | nil => rfl
    | cons node rest =>
      have heq : last = node := h.symm.trans h'.1
      exact absurd (heq ▸ List.mem_cons_self) hlast'
  | cons node rest ih =>
    cases others with
    | nil =>
      have heq : last = node := Eq.trans (Eq.symm h') h.1
      exact absurd (heq ▸ List.mem_cons_self) hlast
    | cons node' rest' =>
      obtain rfl : node = node' := h.1.symm.trans h'.1
      rw [List.mem_cons, not_or] at hlast hlast'
      rw [ih h.2 h'.2 hlast.2 hlast'.2]

end Chain

end Ucore.Foundation
