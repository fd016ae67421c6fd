import Ucore.Foundation.Ring
import Mathlib.Logic.Function.Basic

/-!
# Heaps of several rings

A cycle is given by its nodes in order, from any of them on. `Rings` states that every list of a
family is a cycle and that no node is on two of them.
-/

namespace Ucore.Foundation

variable {Node ι : Type} {links links' : Links Node} {node : Node} {pre post nodes : List Node}

def IsCycle (links : Links Node) (nodes : List Node) : Prop :=
  ∃ head members, nodes = head :: members ∧ Ring links head members

theorem isCycle_cons : IsCycle links (node :: post) ↔ Ring links node post := by
  constructor
  · rintro ⟨head, members, heq, h⟩
    obtain ⟨rfl, rfl⟩ := List.cons.inj heq
    exact h
  · intro h
    exact ⟨node, post, rfl, h⟩

namespace IsCycle

theorem ring (h : IsCycle links (pre ++ node :: post)) : Ring links node (post ++ pre) := by
  cases pre with
  | nil =>
    rw [List.append_nil]
    exact isCycle_cons.mp h
  | cons head pre => exact (isCycle_cons.mp h).rotate

/-- A cycle may be read from any node on. -/
theorem swap (h : IsCycle links (pre ++ post)) : IsCycle links (post ++ pre) := by
  cases post with
  | nil =>
    rw [List.append_nil] at h
    exact h
  | cons node post => exact isCycle_cons.mpr h.ring

theorem of_ring (h : Ring links node (post ++ pre)) : IsCycle links (pre ++ node :: post) := by
  have hcycle : IsCycle links ((node :: post) ++ pre) := isCycle_cons.mpr h
  exact hcycle.swap

theorem next_mem (h : IsCycle links nodes) (hnode : node ∈ nodes) : links.next node ∈ nodes := by
  obtain ⟨head, members, rfl, hring⟩ := h
  exact hring.next_mem hnode

theorem prev_mem (h : IsCycle links nodes) (hnode : node ∈ nodes) : links.prev node ∈ nodes := by
  obtain ⟨pre, post, rfl⟩ := List.append_of_mem hnode
  have hring := h.ring
  rw [hring.prev_head]
  rcases List.eq_nil_or_concat (post ++ pre) with hnil | ⟨front, last, hlast⟩
  · rw [hnil]
    exact hnode
  · have hmem : last ∈ post ++ pre := by
      rw [hlast, List.concat_eq_append]
      exact List.mem_append_right _ (List.mem_singleton_self _)
    have hget : (post ++ pre).getLast?.getD node = last := by simp [hlast]
    rw [hget]
    simp only [List.mem_append, List.mem_cons] at hmem ⊢
    tauto

theorem congr (h : IsCycle links nodes)
    (hsame : ∀ other ∈ nodes, links'.next other = links.next other ∧
      links'.prev other = links.prev other) : IsCycle links' nodes := by
  obtain ⟨head, members, rfl, hring⟩ := h
  exact isCycle_cons.mpr
    (hring.congr (fun other hother ↦ (hsame other hother).1) fun other hother ↦ (hsame other hother).2)

end IsCycle

structure Rings (links : Links Node) (cycles : ι → List Node) : Prop where
  isCycle : ∀ i, IsCycle links (cycles i)
  disjoint : ∀ i j, i ≠ j → (cycles i).Disjoint (cycles j)

/-- An edit of one cycle -/
theorem Rings.update [DecidableEq ι] {cycles : ι → List Node} {i : ι} (h : Rings links cycles)
    (hcycle : IsCycle links' nodes) (hdisjoint : ∀ j, j ≠ i → (cycles j).Disjoint nodes)
    (hsame : ∀ j, j ≠ i → ∀ other ∈ cycles j, links'.next other = links.next other ∧
      links'.prev other = links.prev other) :
    Rings links' (Function.update cycles i nodes) := by
  constructor
  · intro j
    by_cases hj : j = i
    · subst hj
      rw [Function.update_self]
      exact hcycle
    · rw [Function.update_of_ne hj]
      exact (h.isCycle j).congr (hsame j hj)
  · intro j k hne
    by_cases hj : j = i
    · subst hj
      rw [Function.update_self, Function.update_of_ne hne.symm]
      exact List.disjoint_symm (hdisjoint k hne.symm)
    · rw [Function.update_of_ne hj]
      by_cases hk : k = i
      · subst hk
        rw [Function.update_self]
        exact hdisjoint j hj
      · rw [Function.update_of_ne hk]
        exact h.disjoint j k hne

end Ucore.Foundation
