import Ucore.Foundation.Rings
import Ucore.Libs.List

/-!
# The list primitives on heaps of several rings

A primitive edits the cycle it is given a member of and leaves every other cycle as it was.
-/

namespace Ucore

open Foundation

variable {Node ι : Type} [DecidableEq Node] {links : Links Node} {node elm other : Node}
  {pre post nodes : List Node}

/-! ## What is left alone -/

theorem listAdd_same (h : IsCycle links nodes) (hnode : node ∈ nodes) (hother : other ∉ nodes)
    (helm : other ≠ elm) :
    (listAdd links node elm).next other = links.next other ∧
      (listAdd links node elm).prev other = links.prev other := by
  constructor
  · exact listAdd_next_of_ne helm (fun heq ↦ hother (heq ▸ hnode))
  · exact listAdd_prev_of_ne helm (fun heq ↦ hother (heq ▸ h.next_mem hnode))

theorem listAddBefore_eq_listAdd (h : IsCycle links nodes) (hnode : node ∈ nodes) :
    listAddBefore links node elm = listAdd links (links.prev node) elm := by
  obtain ⟨head, members, rfl, hring⟩ := h
  exact hring.listAddBefore_eq hnode

theorem listAddBefore_same (h : IsCycle links nodes) (hnode : node ∈ nodes) (hother : other ∉ nodes)
    (helm : other ≠ elm) :
    (listAddBefore links node elm).next other = links.next other ∧
      (listAddBefore links node elm).prev other = links.prev other := by
  rw [listAddBefore_eq_listAdd h hnode]
  exact listAdd_same h (h.prev_mem hnode) hother helm

theorem listDel_same (h : IsCycle links nodes) (hnode : node ∈ nodes) (hother : other ∉ nodes) :
    (listDel links node).next other = links.next other ∧
      (listDel links node).prev other = links.prev other := by
  constructor
  · exact listDel_next_of_ne (fun heq ↦ hother (heq ▸ h.prev_mem hnode))
  · exact listDel_prev_of_ne (fun heq ↦ hother (heq ▸ h.next_mem hnode))

/-! ## What becomes of the cycle -/

theorem listAdd_cycle (h : IsCycle links (pre ++ node :: post)) (helm : elm ∉ pre ++ node :: post) :
    IsCycle (listAdd links node elm) (pre ++ node :: elm :: post) := by
  have hnew : elm ∉ node :: (post ++ pre) := by
    simp only [List.mem_append, List.mem_cons] at helm ⊢
    tauto
  have hring : Ring (listAdd links node elm) node ((elm :: post) ++ pre) := h.ring.listAdd_head hnew
  exact IsCycle.of_ring hring

theorem listAddBefore_cycle (h : IsCycle links (pre ++ node :: post))
    (helm : elm ∉ pre ++ node :: post) :
    IsCycle (listAddBefore links node elm) (pre ++ elm :: node :: post) := by
  have hnew : elm ∉ node :: (post ++ pre ++ []) := by
    simp only [List.mem_append, List.mem_cons, List.not_mem_nil] at helm ⊢
    tauto
  have hring : Ring links node (post ++ pre ++ []) := by
    rw [List.append_nil]
    exact h.ring
  -- Before the head is after the last node.
  have hlast : links.prev node = (post ++ pre).getLast?.getD node := h.ring.prev_head
  have hadded := hring.listAdd_between hnew
  rw [← hlast, ← listAddBefore_eq_listAdd h (by simp)] at hadded
  have hrotated : Ring (listAddBefore links node elm) elm ((node :: post) ++ pre) := by
    have h' := hadded.rotate
    rw [List.nil_append] at h'
    exact h'
  exact IsCycle.of_ring hrotated

theorem listDel_cycle (h : IsCycle links (pre ++ node :: post)) (hne : pre ++ post ≠ []) :
    IsCycle (listDel links node) (pre ++ post) := by
  apply IsCycle.swap
  have hring := h.ring
  cases hrest : post ++ pre with
  | nil =>
    obtain ⟨rfl, rfl⟩ := List.append_eq_nil_iff.mp hrest
    exact absurd rfl hne
  | cons first rest =>
    rw [hrest] at hring
    have hsplit : Ring links node ([] ++ first :: rest) := hring
    have hremoved := hsplit.rotate.listDel_member
    rw [List.append_nil] at hremoved
    exact isCycle_cons.mpr hremoved

/-! ## The whole heap -/

variable [DecidableEq ι] {cycles : ι → List Node} {i : ι}

theorem listAdd_rings (h : Rings links cycles) (hcycle : cycles i = pre ++ node :: post)
    (helm : ∀ j, elm ∉ cycles j) :
    Rings (listAdd links node elm) (Function.update cycles i (pre ++ node :: elm :: post)) := by
  have hi := h.isCycle i
  have hnode : node ∈ cycles i := by simp [hcycle]
  have hadded : IsCycle (listAdd links node elm) (pre ++ node :: elm :: post) :=
    listAdd_cycle (hcycle ▸ hi) (hcycle ▸ helm i)
  apply h.update hadded
  · intro j hj other hother hmem
    have hdisjoint := h.disjoint j i hj hother
    simp only [hcycle, List.mem_append, List.mem_cons] at hmem hdisjoint
    have helm' : other ≠ elm := fun heq ↦ helm j (heq ▸ hother)
    tauto
  · intro j hj other hother
    exact listAdd_same hi hnode (h.disjoint j i hj hother) (fun heq ↦ helm j (heq ▸ hother))

theorem listAddBefore_rings (h : Rings links cycles) (hcycle : cycles i = pre ++ node :: post)
    (helm : ∀ j, elm ∉ cycles j) :
    Rings (listAddBefore links node elm)
      (Function.update cycles i (pre ++ elm :: node :: post)) := by
  have hi := h.isCycle i
  have hnode : node ∈ cycles i := by simp [hcycle]
  have hadded : IsCycle (listAddBefore links node elm) (pre ++ elm :: node :: post) :=
    listAddBefore_cycle (hcycle ▸ hi) (hcycle ▸ helm i)
  apply h.update hadded
  · intro j hj other hother hmem
    have hdisjoint := h.disjoint j i hj hother
    simp only [hcycle, List.mem_append, List.mem_cons] at hmem hdisjoint
    have helm' : other ≠ elm := fun heq ↦ helm j (heq ▸ hother)
    tauto
  · intro j hj other hother
    exact listAddBefore_same hi hnode (h.disjoint j i hj hother) (fun heq ↦ helm j (heq ▸ hother))

theorem listDel_rings (h : Rings links cycles) (hcycle : cycles i = pre ++ node :: post)
    (hne : pre ++ post ≠ []) :
    Rings (listDel links node) (Function.update cycles i (pre ++ post)) := by
  have hi := h.isCycle i
  have hnode : node ∈ cycles i := by simp [hcycle]
  apply h.update (listDel_cycle (hcycle ▸ hi) hne)
  · intro j hj other hother hmem
    have hdisjoint := h.disjoint j i hj hother
    simp only [hcycle, List.mem_append, List.mem_cons] at hmem hdisjoint
    tauto
  · intro j hj other hother
    exact listDel_same hi hnode (h.disjoint j i hj hother)

/-- Insertion after or before a member and removal of a member, in a heap of any number of rings -/
theorem list_primitives (h : Rings links cycles) (hcycle : cycles i = pre ++ node :: post) :
    (∀ elm, (∀ j, elm ∉ cycles j) →
      Rings (listAdd links node elm) (Function.update cycles i (pre ++ node :: elm :: post)) ∧
      Rings (listAddAfter links node elm) (Function.update cycles i (pre ++ node :: elm :: post)) ∧
      Rings (listAddBefore links node elm)
        (Function.update cycles i (pre ++ elm :: node :: post)) ∧
      ∀ other ∉ cycles i, other ≠ elm →
        ((listAdd links node elm).next other = links.next other ∧
          (listAdd links node elm).prev other = links.prev other) ∧
        (listAddBefore links node elm).next other = links.next other ∧
          (listAddBefore links node elm).prev other = links.prev other) ∧
    (pre ++ post ≠ [] →
      Rings (listDel links node) (Function.update cycles i (pre ++ post)) ∧
      ∀ other ∉ cycles i, (listDel links node).next other = links.next other ∧
        (listDel links node).prev other = links.prev other) := by
  have hi := h.isCycle i
  have hnode : node ∈ cycles i := by simp [hcycle]
  constructor
  · intro elm helm
    refine ⟨listAdd_rings h hcycle helm, listAdd_rings h hcycle helm,
      listAddBefore_rings h hcycle helm, fun other hother hne ↦ ⟨?_, ?_⟩⟩
    · exact listAdd_same hi hnode hother hne
    · exact listAddBefore_same hi hnode hother hne
  · intro hne
    exact ⟨listDel_rings h hcycle hne, fun other hother ↦ listDel_same hi hnode hother⟩

/-- A ring of 0 and 1; every other number is a ring by itself. -/
def pairLinks : Links ℕ where
  prev node := if node = 0 then 1 else if node = 1 then 0 else node
  next node := if node = 0 then 1 else if node = 1 then 0 else node

def pairCycles : Bool → List ℕ
  | true => [0, 1]
  | false => [2]

theorem rings_pairCycles : Rings pairLinks pairCycles where
  isCycle
    | true => isCycle_cons.mpr ⟨by decide, by simp [Links.Linked, pairLinks]⟩
    | false => isCycle_cons.mpr ⟨by decide, by simp [Links.Linked, pairLinks]⟩
  disjoint := by simp [pairCycles]

theorem list_primitives_pair :
    Rings (listAdd pairLinks 0 3) (Function.update pairCycles true [0, 3, 1]) ∧
      Rings (listDel pairLinks 0) (Function.update pairCycles true [1]) :=
  have hcycle : pairCycles true = [] ++ 0 :: [1] := rfl
  have hthree : ∀ j, 3 ∉ pairCycles j := by decide
  ⟨((list_primitives rings_pairCycles hcycle).1 3 hthree).1,
    ((list_primitives rings_pairCycles hcycle).2 (by decide)).1⟩

end Ucore
