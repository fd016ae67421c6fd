import Mathlib.Data.List.Rotate
import Mathlib.Data.List.Nodup

/-!
# Cyclic orders of a list

`after members node` lists a cycle from behind `node` on, with `node` itself at the end. `cyclic turns`
goes round a list for any number of turns. Who serves the first match behind the one it served last
goes round the matches.
-/

namespace Ucore.Foundation

variable {α : Type} {members order pre post turns : List α} {node next : α}

section Order

variable [DecidableEq α]

/-- The cycle `members` from behind `node` on. -/
def after (members : List α) (node : α) : List α := members.rotate (members.idxOf node + 1)

theorem after_isRotated : after members node ~r members := List.IsRotated.forall members _

theorem after_append (hnode : node ∉ pre) :
    after (pre ++ node :: post) node = post ++ pre ++ [node] := by
  have hindex : (pre ++ node :: post).idxOf node + 1 = (pre ++ [node]).length := by
    rw [List.idxOf_append_of_notMem hnode, List.idxOf_cons_self, List.length_append,
      List.length_singleton]
  calc
    after (pre ++ node :: post) node = ((pre ++ [node]) ++ post).rotate (pre ++ [node]).length := by
      rw [after, hindex, List.append_assoc]
      rfl
    _ = post ++ (pre ++ [node]) := List.rotate_append_length_eq _ _
    _ = post ++ pre ++ [node] := (List.append_assoc _ _ _).symm

theorem after_rotate_one (hnodup : members.Nodup) (hnode : node ∈ members) :
    after (members.rotate 1) node = after members node := by
  cases members with
  | nil => rfl
  | cons first rest =>
    rw [List.rotate_cons_succ, List.rotate_zero]
    obtain ⟨hfirst, hrest⟩ := List.nodup_cons.mp hnodup
    rcases List.mem_cons.mp hnode with rfl | hmem
    · calc
        after (rest ++ [node]) node = [] ++ rest ++ [node] := after_append hfirst
        _ = rest ++ [] ++ [node] := by simp
        _ = after ([] ++ node :: rest) node := (after_append List.not_mem_nil).symm
    · obtain ⟨front, back, rfl⟩ := List.append_of_mem hmem
      have hfront : node ∉ front := fun hin ↦
        (List.nodup_append.mp hrest).2.2 node hin node List.mem_cons_self rfl
      have hne : node ≠ first := fun heq ↦ hfirst (heq ▸ hmem)
      have hlong : node ∉ first :: front := by simp [hne, hfront]
      have hmoved : front ++ node :: back ++ [first] = front ++ node :: (back ++ [first]) := by simp
      rw [hmoved, after_append hfront, ← List.cons_append, after_append hlong]
      simp

/-- The order behind a node does not depend on where the cycle was cut open. -/
theorem after_congr (hrotated : order ~r members) (hnodup : members.Nodup)
    (hnode : node ∈ members) : after order node = after members node := by
  obtain ⟨count, rfl⟩ := hrotated.symm
  induction count with
  | zero => rw [List.rotate_zero]
  | succ count ih =>
    rw [← List.rotate_rotate]
    calc
      after ((members.rotate count).rotate 1) node = after (members.rotate count) node :=
        after_rotate_one (List.nodup_rotate.mpr hnodup) (List.mem_rotate.mpr hnode)
      _ = after members node := ih (List.IsRotated.forall members count)

omit [DecidableEq α] in
theorem filter_isRotated (test : α → Bool) (hrotated : order ~r members) :
    order.filter test ~r members.filter test := by
  obtain ⟨count, hcount, rfl⟩ := List.isRotated_iff_mod.mp hrotated
  rw [List.rotate_eq_drop_append_take hcount, List.filter_append]
  have hsplit : order.filter test =
      (order.take count).filter test ++ (order.drop count).filter test := by
    rw [← List.filter_append, List.take_append_drop]
  rw [hsplit]
  exact List.isRotated_append

/-- The node that is served moves behind the others. -/
theorem after_served {test : α → Bool} (hrotated : order ~r members) (hnodup : members.Nodup)
    (hnext : order.find? test = some next) :
    (after members next).filter test = (order.filter test).rotate 1 := by
  obtain ⟨htest, pre, post, rfl, hpre⟩ := List.find?_eq_some_iff_append.mp hnext
  have hmem : next ∈ pre ++ next :: post := List.mem_append_right _ List.mem_cons_self
  have hsplit := List.nodup_append.mp (hrotated.nodup_iff.mpr hnodup)
  have hfresh : next ∉ pre := fun hin ↦ hsplit.2.2 next hin next List.mem_cons_self rfl
  have hskipped : pre.filter test = [] :=
    List.filter_eq_nil_iff.mpr fun node hnode ↦ by simpa using hpre node hnode
  calc
    (after members next).filter test = (post ++ pre ++ [next]).filter test := by
      rw [← after_congr hrotated hnodup (hrotated.mem_iff.mp hmem), after_append hfresh]
    _ = post.filter test ++ [next] := by
      rw [List.filter_append, List.filter_append, hskipped, List.append_nil,
        List.filter_singleton, htest]
      rfl
    _ = (next :: post.filter test).rotate 1 := by
      rw [List.rotate_cons_succ, List.rotate_zero]
    _ = ((pre ++ next :: post).filter test).rotate 1 := by
      rw [List.filter_append, hskipped, List.nil_append, List.filter_cons_of_pos htest]

end Order

/-! ## Going round -/

/-- The first `count` turns. -/
def cyclic (turns : List α) : ℕ → List α
  | 0 => []
  | count + 1 => (turns.head?.toList) ++ cyclic (turns.rotate 1) count

theorem cyclic_append (front back : List α) (count : ℕ) :
    cyclic (front ++ back) (front.length + count) = front ++ cyclic (back ++ front) count := by
  induction front generalizing back with
  | nil => simp
  | cons first front ih =>
    have hlength : (first :: front).length + count = (front.length + count) + 1 := by
      rw [List.length_cons, Nat.add_right_comm]
    have hrest := ih (back ++ [first])
    rw [hlength, cyclic]
    simpa using hrest

/-- Whole rounds serve everyone once each. -/
theorem cyclic_rounds (turns : List α) (rounds : ℕ) :
    cyclic turns (rounds * turns.length) = (List.replicate rounds turns).flatten := by
  induction rounds with
  | zero => simp [cyclic]
  | succ rounds ih =>
    have hround := cyclic_append turns [] (rounds * turns.length)
    rw [List.append_nil, List.nil_append, ih] at hround
    rw [Nat.succ_mul, Nat.add_comm, hround, List.replicate_succ, List.flatten_cons]

theorem count_cyclic_rounds [DecidableEq α] (hnodup : turns.Nodup) (hnode : node ∈ turns)
    (rounds : ℕ) :
    (cyclic turns (rounds * turns.length)).count node = rounds := by
  rw [cyclic_rounds, List.count_flatten, List.map_replicate,
    List.count_eq_one_of_mem hnodup hnode]
  simp

theorem getElem?_cyclic (hsome : turns ≠ []) {count turn : ℕ} (hturn : turn < count) :
    (cyclic turns count)[turn]? = turns[turn % turns.length]? := by
  induction count generalizing turns turn with
  | zero => exact absurd hturn (Nat.not_lt_zero turn)
  | succ count ih =>
    obtain ⟨first, rest, rfl⟩ := List.exists_cons_of_ne_nil hsome
    cases turn with
    | zero => simp [cyclic]
    | succ turn =>
      have hrest : (cyclic ((first :: rest).rotate 1) count)[turn]? =
          ((first :: rest).rotate 1)[turn % ((first :: rest).rotate 1).length]? :=
        ih (by simp) (Nat.lt_of_succ_lt_succ hturn)
      have hpositive : turn % (first :: rest).length < (first :: rest).length :=
        Nat.mod_lt _ (Nat.succ_pos _)
      calc
        (cyclic (first :: rest) (count + 1))[turn + 1]? =
            (cyclic ((first :: rest).rotate 1) count)[turn]? := rfl
        _ = ((first :: rest).rotate 1)[turn % (first :: rest).length]? := by
          rw [hrest, List.length_rotate]
        _ = (first :: rest)[(turn % (first :: rest).length + 1) % (first :: rest).length]? :=
          List.getElem?_rotate hpositive
        _ = (first :: rest)[(turn + 1) % (first :: rest).length]? := by
          rw [Nat.mod_add_mod]

end Ucore.Foundation
