import Mathlib.Order.CompletePartialOrder
import Mathlib.Order.Interval.Set.Disjoint
import Mathlib.Data.List.Pairwise

/-!
# Ascending disjoint intervals

Members of a list stand for half-open intervals from `start` to `stop` in a linear order. In an
ascending list of disjoint intervals a new interval is disjoint from all of them as soon as it is
disjoint from its two neighbours, and a point lies in at most one of them.
-/

namespace Ucore.Foundation

variable {Member Point : Type} [LinearOrder Point]

/-- Non-empty intervals, each of which ends where the next one begins or before. -/
structure Ascending (start stop : Member → Point) (members : List Member) : Prop where
  nonempty : ∀ member ∈ members, start member < stop member
  ordered : members.Pairwise fun left right ↦ stop left ≤ start right

/-- The interval has a point and shares none with the members. -/
def Fits (start stop : Member → Point) (members : List Member) (member : Member) : Prop :=
  start member < stop member ∧
    ∀ other ∈ members, Disjoint (Set.Ico (start member) (stop member))
      (Set.Ico (start other) (stop other))

/-- The interval lies between the last one of `pre` and the first one of `post`. -/
def FitsBetween (start stop : Member → Point) (pre post : List Member) (member : Member) : Prop :=
  (∀ left ∈ pre.getLast?, stop left ≤ start member) ∧
    ∀ right ∈ post.head?, stop member ≤ start right

variable {start stop : Member → Point} {members pre post : List Member} {member : Member}
  {point : Point}

/-- Two intervals with points are disjoint when one ends before the other begins. -/
theorem disjoint_Ico_iff (start stop : Member → Point) {left right : Member}
    (hleft : start left < stop left) (hright : start right < stop right) :
    Disjoint (Set.Ico (start left) (stop left)) (Set.Ico (start right) (stop right)) ↔
      stop left ≤ start right ∨ stop right ≤ start left := by
  rw [Set.Ico_disjoint_Ico]
  constructor
  · intro h
    rcases le_max_iff.mp h with hself | hother
    · exact .inr ((min_le_iff.mp hself).resolve_left (not_le.mpr hleft))
    · exact .inl ((min_le_iff.mp hother).resolve_right (not_le.mpr hright))
  · rintro (h | h)
    · exact (min_le_left _ _).trans (h.trans (le_max_right _ _))
    · exact (min_le_right _ _).trans (h.trans (le_max_left _ _))

namespace Ascending

theorem nil : Ascending start stop ([] : List Member) := ⟨by simp, List.Pairwise.nil⟩

theorem starts (h : Ascending start stop members) :
    members.Pairwise fun left right ↦ start left < start right :=
  h.ordered.imp_of_mem fun {left _} hleft _ hle ↦ lt_of_lt_of_le (h.nonempty left hleft) hle

theorem disjoint (h : Ascending start stop members) :
    members.Pairwise fun left right ↦
      Disjoint (Set.Ico (start left) (stop left)) (Set.Ico (start right) (stop right)) :=
  h.ordered.imp_of_mem fun {left right} hleft hright hle ↦
    (disjoint_Ico_iff start stop (h.nonempty left hleft) (h.nonempty right hright)).mpr (.inl hle)

/-- A point lies in at most one interval. -/
theorem eq_of_mem (h : Ascending start stop members) {left right : Member} (hleft : left ∈ members)
    (hright : right ∈ members) (hpoint : point ∈ Set.Ico (start left) (stop left))
    (hpoint' : point ∈ Set.Ico (start right) (stop right)) : left = right := by
  by_contra hne
  have hsymm : Std.Symm (fun left right : Member ↦
      Disjoint (Set.Ico (start left) (stop left)) (Set.Ico (start right) (stop right))) :=
    ⟨fun _ _ hdisjoint ↦ hdisjoint.symm⟩
  exact Set.disjoint_left.mp (h.disjoint.forall hleft hright hne) hpoint hpoint'

theorem of_sublist {others : List Member} (h : Ascending start stop members)
    (hsub : others.Sublist members) : Ascending start stop others :=
  ⟨fun other hother ↦ h.nonempty other (hsub.subset hother), h.ordered.sublist hsub⟩

/-- All intervals of `pre` end before the last one does. -/
theorem stop_le_of_getLast? (h : Ascending start stop pre)
    (hlast : ∀ left ∈ pre.getLast?, stop left ≤ point) : ∀ left ∈ pre, stop left ≤ point := by
  intro left hleft
  rcases List.eq_nil_or_concat pre with rfl | ⟨front, last, rfl⟩
  · simp at hleft
  · rw [List.concat_eq_append] at h hleft
    have hstop : stop last ≤ point := hlast last (by simp)
    rcases List.mem_append.mp hleft with hmem | hself
    · calc
        stop left ≤ start last := (List.pairwise_append.mp h.ordered).2.2 left hmem last (by simp)
        _ ≤ stop last := (h.nonempty last (by simp)).le
        _ ≤ point := hstop
    · rwa [List.mem_singleton.mp hself]

/-- All intervals of `post` begin behind the first one. -/
theorem le_start_of_head? (h : Ascending start stop post)
    (hfirst : ∀ right ∈ post.head?, point ≤ start right) : ∀ right ∈ post, point ≤ start right := by
  intro right hright
  cases post with
  | nil => simp at hright
  | cons first rest =>
    have hstart : point ≤ start first := hfirst first rfl
    rcases List.mem_cons.mp hright with rfl | hmem
    · exact hstart
    · exact hstart.trans ((List.pairwise_cons.mp h.starts).1 right hmem).le

section Neighbours

variable (h : Ascending start stop (pre ++ post)) (hpre : ∀ left ∈ pre, start left ≤ start member)
  (hpost : ∀ right ∈ post, start member < start right)

include h hpre hpost

/-- Between the intervals that begin below it and those that begin above, an interval fits as soon as
it fits between its neighbours. -/
theorem fits_iff (hmember : start member < stop member) :
    Fits start stop (pre ++ post) member ↔ FitsBetween start stop pre post member := by
  have hapart : ∀ other ∈ pre ++ post, _ := fun other hother ↦
    disjoint_Ico_iff start stop hmember (h.nonempty other hother)
  constructor
  · rintro ⟨-, hdisjoint⟩
    refine ⟨fun left hleft ↦ ?_, fun right hright ↦ ?_⟩
    · have hmem : left ∈ pre := List.mem_of_getLast? hleft
      have hside := (hapart left (List.mem_append_left _ hmem)).mp
        (hdisjoint left (List.mem_append_left _ hmem))
      exact hside.resolve_left (not_le.mpr (lt_of_le_of_lt (hpre left hmem) hmember))
    · have hmem : right ∈ post := List.mem_of_head? hright
      have hside := (hapart right (List.mem_append_right _ hmem)).mp
        (hdisjoint right (List.mem_append_right _ hmem))
      have hlt : start member < stop right :=
        (hpost right hmem).trans (h.nonempty right (List.mem_append_right _ hmem))
      exact hside.resolve_right (not_le.mpr hlt)
  · rintro ⟨hlast, hfirst⟩
    refine ⟨hmember, fun other hother ↦ (hapart other hother).mpr ?_⟩
    rcases List.mem_append.mp hother with hmem | hmem
    · exact .inr (stop_le_of_getLast? (h.of_sublist (List.sublist_append_left _ _)) hlast
        other hmem)
    · exact .inl (le_start_of_head? (h.of_sublist (List.sublist_append_right _ _)) hfirst
        other hmem)

omit hpre hpost in
theorem insert (hmember : start member < stop member)
    (hfits : FitsBetween start stop pre post member) :
    Ascending start stop (pre ++ member :: post) := by
  have hleft := stop_le_of_getLast? (h.of_sublist (List.sublist_append_left _ _)) hfits.1
  have hright := le_start_of_head? (h.of_sublist (List.sublist_append_right _ _)) hfits.2
  obtain ⟨hordered_pre, hordered_post, hcross⟩ := List.pairwise_append.mp h.ordered
  refine ⟨fun other hother ↦ ?_, List.pairwise_append.mpr
    ⟨hordered_pre, List.pairwise_cons.mpr ⟨hright, hordered_post⟩, fun left hmem right hmem' ↦ ?_⟩⟩
  · rcases List.mem_append.mp hother with hmem | hmem
    · exact h.nonempty other (List.mem_append_left _ hmem)
    · rcases List.mem_cons.mp hmem with rfl | hmem
      · exact hmember
      · exact h.nonempty other (List.mem_append_right _ hmem)
  · rcases List.mem_cons.mp hmem' with rfl | hmem'
    · exact hleft left hmem
    · exact hcross left hmem right hmem'

end Neighbours

end Ascending

end Ucore.Foundation
