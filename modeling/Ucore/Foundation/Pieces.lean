import Mathlib.Data.List.Basic

/-!
# Pieces of a list between separators

The pieces of a list are its maximal runs of elements that are no separators, each with its place.
-/

namespace Ucore.Foundation

variable {α : Type} {separator : α → Bool} {text gap piece rest before after : List α}
  {start : ℕ} {a : α}

def shiftPiece (distance : ℕ) (piece : ℕ × List α) : ℕ × List α := (piece.1 + distance, piece.2)

/-- One element more in front of the pieces of the rest -/
def extendPieces (a : α) : List (ℕ × List α) → List (ℕ × List α)
  | (0, piece) :: others => (0, a :: piece) :: others.map (shiftPiece 1)
  | others => (0, [a]) :: others.map (shiftPiece 1)

def pieces (separator : α → Bool) : List α → List (ℕ × List α)
  | [] => []
  | a :: rest =>
    if separator a then (pieces separator rest).map (shiftPiece 1)
    else extendPieces a (pieces separator rest)

theorem pieces_eq (a : α) (rest : List α) : pieces separator (a :: rest) =
    if separator a then (pieces separator rest).map (shiftPiece 1)
    else extendPieces a (pieces separator rest) := rfl

theorem shiftPiece_shiftPiece (distance distance' : ℕ) (list : List (ℕ × List α)) :
    (list.map (shiftPiece distance)).map (shiftPiece distance') =
      list.map (shiftPiece (distance + distance')) := by
  rw [List.map_map]
  apply List.map_congr_left
  intro piece _
  simp [shiftPiece, Nat.add_assoc]

theorem shiftPiece_zero (list : List (ℕ × List α)) : list.map (shiftPiece 0) = list :=
  List.map_id _

/-- In front of pieces that all begin later -/
theorem extendPieces_later (a : α) (list : List (ℕ × List α)) (distance : ℕ) :
    extendPieces a (list.map (shiftPiece (distance + 1))) =
      (0, [a]) :: list.map (shiftPiece (distance + 2)) := by
  rw [← shiftPiece_shiftPiece (distance + 1) 1]
  cases list with
  | nil => rfl
  | cons first others => rfl

theorem pieces_gap (hgap : ∀ a ∈ gap, separator a) (rest : List α) :
    pieces separator (gap ++ rest) = (pieces separator rest).map (shiftPiece gap.length) := by
  induction gap with
  | nil => rw [List.nil_append, List.length_nil, shiftPiece_zero]
  | cons a gap ih =>
    have ha := hgap a List.mem_cons_self
    have hrest := ih fun b hb ↦ hgap b (List.mem_cons_of_mem a hb)
    rw [List.cons_append, pieces, if_pos ha, hrest, shiftPiece_shiftPiece, List.length_cons]

theorem pieces_cons (ha : ¬ separator a) (hrest : ∀ b ∈ rest.head?, separator b) :
    pieces separator (a :: rest) = (0, [a]) :: (pieces separator rest).map (shiftPiece 1) := by
  rw [pieces, if_neg ha]
  cases rest with
  | nil => rfl
  | cons b rest =>
    rw [pieces, if_pos (hrest b rfl), extendPieces_later _ _ 0, shiftPiece_shiftPiece]

theorem pieces_piece (hne : piece ≠ []) (hpiece : ∀ a ∈ piece, ¬ separator a)
    (hrest : ∀ b ∈ rest.head?, separator b) :
    pieces separator (piece ++ rest) =
      (0, piece) :: (pieces separator rest).map (shiftPiece piece.length) := by
  induction piece with
  | nil => exact absurd rfl hne
  | cons a piece ih =>
    have ha := hpiece a List.mem_cons_self
    cases piece with
    | nil => exact pieces_cons ha hrest
    | cons b piece =>
      have hlater := ih (List.cons_ne_nil b piece) fun c hc ↦ hpiece c (List.mem_cons_of_mem a hc)
      rw [List.cons_append, pieces, if_neg ha, hlater, extendPieces, shiftPiece_shiftPiece,
        List.length_cons (a := a)]

/-- What ends with a separator does not change the pieces behind it. -/
theorem pieces_append (hlast : ∀ a ∈ before.getLast?, separator a) (rest : List α) :
    pieces separator (before ++ rest) =
      pieces separator before ++ (pieces separator rest).map (shiftPiece before.length) := by
  induction before with
  | nil => rw [List.nil_append, pieces, List.nil_append, List.length_nil, shiftPiece_zero]
  | cons a before ih =>
    cases before with
    | nil =>
      have ha : separator a := hlast a rfl
      rw [List.cons_append, List.nil_append, pieces, if_pos ha, pieces, if_pos ha]
      rfl
    | cons b before =>
      have hrest := ih fun c hc ↦ hlast c (by rw [List.getLast?_cons_cons]; exact hc)
      rw [List.cons_append, pieces, hrest, pieces_eq a, List.length_cons]
      by_cases ha : separator a
      · rw [if_pos ha, if_pos ha, List.map_append, shiftPiece_shiftPiece]
        rfl
      · rw [if_neg ha, if_neg ha]
        cases pieces separator (b :: before) with
        | nil => exact extendPieces_later a _ _
        | cons first others =>
          obtain ⟨start, piece⟩ := first
          cases start with
          | zero =>
            rw [List.cons_append, extendPieces, extendPieces, List.cons_append, List.map_append,
              shiftPiece_shiftPiece]
            rfl
          | succ start =>
            have hlater : ∀ list, extendPieces a ((start + 1, piece) :: list) =
                (0, [a]) :: ((start + 1, piece) :: list).map (shiftPiece 1) := fun _ ↦ rfl
            rw [List.cons_append, hlater, hlater, ← List.cons_append, List.map_append,
              shiftPiece_shiftPiece, List.cons_append]
            rfl

/-! ## What the pieces are -/

/-- A maximal run of elements that are no separators, and the number of elements before it -/
def IsPiece (separator : α → Bool) (text : List α) (found : ℕ × List α) : Prop :=
  ∃ before after, text = before ++ (found.2 ++ after) ∧ before.length = found.1 ∧ found.2 ≠ [] ∧
    (∀ a ∈ found.2, ¬ separator a) ∧ (∀ a ∈ before.getLast?, separator a) ∧
    ∀ a ∈ after.head?, separator a

/-- Every text is separators, a piece and a rest that does not begin within the piece. -/
theorem exists_piece (separator : α → Bool) (text : List α) :
    (∀ a ∈ text, separator a) ∨ ∃ gap piece rest, text = gap ++ (piece ++ rest) ∧
      (∀ a ∈ gap, separator a) ∧ piece ≠ [] ∧ (∀ a ∈ piece, ¬ separator a) ∧
      ∀ b ∈ rest.head?, separator b := by
  induction text with
  | nil => exact .inl nofun
  | cons a text ih =>
    by_cases ha : separator a
    · rcases ih with hall | ⟨gap, piece, rest, rfl, hgap, hpiece⟩
      · exact .inl (List.forall_mem_cons.mpr ⟨ha, hall⟩)
      · exact .inr ⟨a :: gap, piece, rest, rfl, List.forall_mem_cons.mpr ⟨ha, hgap⟩, hpiece⟩
    · right
      rcases ih with hall | ⟨gap, piece, rest, rfl, hgap, hne, hpiece, hrest⟩
      · refine ⟨[], [a], text, rfl, nofun, List.cons_ne_nil a [], ?_, fun b hb ↦ ?_⟩
        · simpa using ha
        · exact hall b (List.mem_of_mem_head? hb)
      · cases gap with
        | nil =>
          exact ⟨[], a :: piece, rest, rfl, nofun, List.cons_ne_nil a piece,
            List.forall_mem_cons.mpr ⟨ha, hpiece⟩, hrest⟩
        | cons b gap =>
          refine ⟨[], [a], _, rfl, nofun, List.cons_ne_nil a [], by simpa using ha, fun c hc ↦ ?_⟩
          obtain rfl : b = c := Option.some.inj hc
          exact hgap b List.mem_cons_self

theorem IsPiece.mem {found : ℕ × List α} (h : IsPiece separator text found) :
    found ∈ pieces separator text := by
  obtain ⟨before, after, rfl, hstart, hne, hpiece, hbefore, hafter⟩ := h
  rw [pieces_append hbefore, pieces_piece hne hpiece hafter, hstart]
  apply List.mem_append_right
  apply List.mem_cons.mpr
  left
  simp [shiftPiece]

/-- The pieces stand in the order of the text. -/
theorem pieces_sorted (separator : α → Bool) (text : List α) :
    (pieces separator text).Pairwise fun first second ↦ first.1 < second.1 := by
  have hshift : ∀ list : List (ℕ × List α), (list.Pairwise fun first second ↦ first.1 < second.1) →
      (list.map (shiftPiece 1)).Pairwise fun first second ↦ first.1 < second.1 := by
    intro list h
    rw [List.pairwise_map]
    exact h.imp Nat.succ_lt_succ
  have hlater : ∀ list : List (ℕ × List α), ∀ found ∈ list.map (shiftPiece 1), 0 < found.1 := by
    intro list found hfound
    obtain ⟨first, -, rfl⟩ := List.mem_map.mp hfound
    exact Nat.succ_pos _
  induction text with
  | nil => exact List.Pairwise.nil
  | cons a text ih =>
    rw [pieces]
    by_cases ha : separator a
    · rw [if_pos ha]
      exact hshift _ ih
    · rw [if_neg ha]
      cases hpieces : pieces separator text with
      | nil => exact List.pairwise_singleton _ _
      | cons first others =>
        rw [hpieces] at ih
        obtain ⟨start, piece⟩ := first
        cases start with
        | zero => exact List.pairwise_cons.mpr ⟨hlater others, hshift others ih.of_cons⟩
        | succ start => exact List.pairwise_cons.mpr ⟨hlater _, hshift _ ih⟩

/-- Only a piece that begins where the rest begins is changed by an element in front. -/
theorem IsPiece.cons {found : ℕ × List α} (h : IsPiece separator rest found)
    (ha : separator a ∨ found.1 ≠ 0) : IsPiece separator (a :: rest) (shiftPiece 1 found) := by
  obtain ⟨front, after, rfl, hstart, hne, hpiece, hfront, hafter⟩ := h
  refine ⟨a :: front, after, rfl, congrArg (· + 1) hstart, hne, hpiece, ?_, hafter⟩
  cases front with
  | nil =>
    intro b hb
    obtain rfl : a = b := Option.some.inj hb
    exact ha.resolve_right fun hzero ↦ hzero hstart.symm
  | cons b front =>
    intro c hc
    rw [List.getLast?_cons_cons] at hc
    exact hfront c hc

theorem pieces_begin (ha : ¬ separator a) (rest : List α) :
    ∃ piece others, pieces separator (a :: rest) = (0, piece) :: others := by
  rw [pieces, if_neg ha]
  unfold extendPieces
  split
  · exact ⟨_, _, rfl⟩
  · exact ⟨_, _, rfl⟩

theorem mem_pieces {found : ℕ × List α} :
    found ∈ pieces separator text ↔ IsPiece separator text found := by
  refine ⟨fun h ↦ ?_, IsPiece.mem⟩
  induction text generalizing found with
  | nil => cases h
  | cons a text ih =>
    have hsorted := pieces_sorted separator text
    by_cases ha : separator a
    · rw [pieces, if_pos ha] at h
      obtain ⟨later, hlater, rfl⟩ := List.mem_map.mp h
      exact (ih hlater).cons (.inl ha)
    · have halone : (∀ b ∈ text.head?, separator b) → IsPiece separator (a :: text) (0, [a]) :=
        fun hhead ↦ ⟨[], text, rfl, rfl, List.cons_ne_nil a [], by simpa using ha, nofun, hhead⟩
      have hbegin : (∀ piece others, pieces separator text ≠ (0, piece) :: others) →
          ∀ b ∈ text.head?, separator b := by
        intro hnone b hb
        by_contra hsep
        obtain ⟨rest, rfl⟩ := List.head?_eq_some_iff.mp hb
        obtain ⟨piece, others, hpieces⟩ := pieces_begin hsep rest
        exact hnone piece others hpieces
      rw [pieces, if_neg ha] at h
      cases hpieces : pieces separator text with
      | nil =>
        rw [hpieces] at h hbegin
        obtain rfl := List.mem_singleton.mp h
        exact halone (hbegin nofun)
      | cons first others =>
        rw [hpieces] at h ih hsorted hbegin
        obtain ⟨start, piece⟩ := first
        cases start with
        | zero =>
          rcases List.mem_cons.mp h with rfl | hlater
          · obtain ⟨front, after, rfl, hstart, -, hpiece, -, hafter⟩ := ih List.mem_cons_self
            obtain rfl := List.eq_nil_of_length_eq_zero hstart
            exact ⟨[], after, rfl, rfl, List.cons_ne_nil a piece,
              List.forall_mem_cons.mpr ⟨ha, hpiece⟩, nofun, hafter⟩
          · obtain ⟨later, hothers, rfl⟩ := List.mem_map.mp hlater
            have hpos : 0 < later.1 := List.rel_of_pairwise_cons hsorted hothers
            exact (ih (List.mem_cons_of_mem _ hothers)).cons (.inr (Nat.ne_of_gt hpos))
        | succ start =>
          rcases List.mem_cons.mp h with rfl | hlater
          · exact halone (hbegin fun _ _ heq ↦ by simp at heq)
          · obtain ⟨later, hfirst, rfl⟩ := List.mem_map.mp hlater
            have hpos : later.1 ≠ 0 := by
              rcases List.mem_cons.mp hfirst with rfl | hothers
              · exact Nat.succ_ne_zero start
              · exact Nat.ne_of_gt (Nat.zero_lt_of_lt (List.rel_of_pairwise_cons hsorted hothers))
            exact (ih hfirst).cons (.inr hpos)

end Ucore.Foundation
