import Mathlib.Data.List.Chain
import Mathlib.Data.List.Nodup
import Mathlib.Data.List.Infix

/-!
# Rings of doubly linked nodes

A heap of nodes with one `prev` and one `next` field each. `Ring links head members` states that
`head` and `members` lie on one cycle in this order and that the two fields are mutually inverse
along it. Edits are described by what they do to the fields, so the library serves any node type
and any code that writes the fields one by one.
-/

namespace Ucore.Foundation

/-- The link fields of every node of a heap. -/
structure Links (Node : Type) where
  prev : Node → Node
  next : Node → Node

namespace Links

variable {Node : Type}

section Writes

variable [DecidableEq Node]

def setNext (links : Links Node) (node target : Node) : Links Node :=
  { links with next := fun other ↦ if other = node then target else links.next other }

def setPrev (links : Links Node) (node target : Node) : Links Node :=
  { links with prev := fun other ↦ if other = node then target else links.prev other }

@[simp]
theorem setNext_next (links : Links Node) (node target other : Node) :
    (links.setNext node target).next other = if other = node then target else links.next other :=
  rfl

@[simp]
theorem setNext_prev (links : Links Node) (node target other : Node) :
    (links.setNext node target).prev other = links.prev other := rfl

@[simp]
theorem setPrev_prev (links : Links Node) (node target other : Node) :
    (links.setPrev node target).prev other = if other = node then target else links.prev other :=
  rfl

@[simp]
theorem setPrev_next (links : Links Node) (node target other : Node) :
    (links.setPrev node target).next other = links.next other := rfl

/-- The nodes met by following `next` until `head` comes round, `none` when the fuel runs out. -/
def traverse (links : Links Node) (head : Node) : ℕ → Node → Option (List Node)
  | 0, _ => none
  | fuel + 1, node =>
    let following := links.next node
    if following = head then some []
    else (links.traverse head fuel following).map (following :: ·)

/-- A walk along `next` reads nothing else. -/
theorem traverse_congr {links links' : Links Node} (h : links'.next = links.next) (head : Node)
    (fuel : ℕ) (node : Node) :
    links'.traverse head fuel node = links.traverse head fuel node := by
  induction fuel generalizing node with
  | zero => rfl
  | succ fuel ih => rw [traverse, traverse, h, ih]

/-- The first node after `node` that passes the test; `some none` when the walk is back at `head`
without a match, `none` when the fuel runs out. -/
def findFrom (links : Links Node) (head : Node) (test : Node → Bool) :
    ℕ → Node → Option (Option Node)
  | 0, _ => none
  | fuel + 1, node =>
    let following := links.next node
    if following = head then some none
    else if test following then some (some following)
    else links.findFrom head test fuel following

/-- More fuel does not change the outcome of a search that came to an end. -/
theorem findFrom_mono {links : Links Node} {head node : Node} {test : Node → Bool}
    {fuel more : ℕ} {found : Option Node} (h : links.findFrom head test fuel node = some found)
    (hle : fuel ≤ more) : links.findFrom head test more node = some found := by
  induction fuel generalizing node more with
  | zero => simp [findFrom] at h
  | succ fuel ih =>
    obtain ⟨more, rfl⟩ : ∃ rest, more = rest + 1 := ⟨more - 1, by omega⟩
    rw [findFrom] at h ⊢
    split at h
    · rename_i hback
      rw [if_pos hback]
      exact h
    · rename_i hback
      rw [if_neg hback]
      split at h
      · rename_i htest
        rw [if_pos htest]
        exact h
      · rename_i htest
        rw [if_neg htest]
        exact ih h (by omega)

end Writes

/-- Two neighbours that point at each other. -/
def Linked (links : Links Node) (left right : Node) : Prop :=
  links.next left = right ∧ links.prev right = left

end Links

open Links

variable {Node : Type} {links links' : Links Node} {head node : Node}
  {members pre post : List Node}

/-- `head` and then `members` form one cycle with mutually inverse links. -/
structure Ring (links : Links Node) (head : Node) (members : List Node) : Prop where
  nodup : (head :: members).Nodup
  linked : (head :: members ++ [head]).IsChain links.Linked

namespace Ring

/-- A chain is carried over when every link from a source (any node but the last) to a target
(any node but the first) is. -/
theorem chain_imp {R S : Node → Node → Prop} {first last : Node} {middle : List Node}
    (h : (first :: middle ++ [last]).IsChain R)
    (himp : ∀ left ∈ first :: middle, ∀ right ∈ middle ++ [last], R left right → S left right) :
    (first :: middle ++ [last]).IsChain S := by
  induction middle generalizing first with
  | nil =>
    simp only [List.cons_append, List.nil_append, List.isChain_cons_cons] at h ⊢
    exact ⟨himp first (by simp) last (by simp) h.1, by simp⟩
  | cons second rest ih =>
    simp only [List.cons_append, List.isChain_cons_cons] at h ⊢
    refine ⟨himp first (by simp) second (by simp) h.1, ih h.2 fun left hleft right hright ↦ ?_⟩
    exact himp left (List.mem_cons_of_mem _ hleft) right (List.mem_cons_of_mem _ hright)

theorem nil_iff : Ring links head [] ↔ links.next head = head ∧ links.prev head = head := by
  constructor
  · intro h
    simpa [Linked] using h.linked
  · intro h
    exact ⟨by simp, by simpa [Linked] using h⟩

/-- A ring only depends on the link fields of its own nodes. -/
theorem congr (h : Ring links head members)
    (hnext : ∀ other ∈ head :: members, links'.next other = links.next other)
    (hprev : ∀ other ∈ head :: members, links'.prev other = links.prev other) :
    Ring links' head members := by
  refine ⟨h.nodup, h.linked.imp_of_mem_imp fun left right hleft hright hlinked ↦ ?_⟩
  have hl : left ∈ head :: members := by simpa [or_comm] using hleft
  have hr : right ∈ head :: members := by simpa [or_comm] using hright
  exact ⟨(hnext left hl).trans hlinked.1, (hprev right hr).trans hlinked.2⟩

/-- Any member may serve as the head of the same cycle. -/
theorem rotate (h : Ring links head (pre ++ node :: post)) :
    Ring links node (post ++ head :: pre) := by
  have hperm : (node :: (post ++ head :: pre)).Perm (head :: (pre ++ node :: post)) := by
    have hswap : (node :: post ++ head :: pre).Perm (head :: pre ++ node :: post) :=
      List.perm_append_comm
    simpa using hswap
  refine ⟨hperm.nodup_iff.mpr h.nodup, ?_⟩
  have hchain : (head :: pre ++ node :: (post ++ [head])).IsChain links.Linked := by
    simpa using h.linked
  obtain ⟨hleft, hright⟩ := List.isChain_split.mp hchain
  have hjoin : (node :: post ++ head :: (pre ++ [node])).IsChain links.Linked :=
    List.isChain_split.mpr ⟨by simpa using hright, by simpa using hleft⟩
  simpa using hjoin

theorem next_head (h : Ring links head members) :
    links.next head = members.head?.getD head := by
  cases members with
  | nil => exact (nil_iff.mp h).1
  | cons first rest =>
    have hlinked := h.linked
    simp only [List.cons_append, List.isChain_cons_cons] at hlinked
    simpa using hlinked.1.1

theorem prev_head (h : Ring links head members) :
    links.prev head = members.getLast?.getD head := by
  rcases List.eq_nil_or_concat members with rfl | ⟨front, last, rfl⟩
  · exact (nil_iff.mp h).2
  · have hchain : (head :: front ++ last :: [head]).IsChain links.Linked := by
      simpa using h.linked
    have hlast := (List.isChain_split.mp hchain).2
    simp only [List.isChain_cons_cons] at hlast
    simpa using hlast.1.2

theorem next_member (h : Ring links head (pre ++ node :: post)) :
    links.next node = post.head?.getD head := by
  have hnext := h.rotate.next_head
  cases post <;> simpa using hnext

theorem prev_member (h : Ring links head (pre ++ node :: post)) :
    links.prev node = pre.getLast?.getD head := by
  have hprev := h.rotate.prev_head
  rw [List.getLast?_append_of_ne_nil _ (List.cons_ne_nil head pre)] at hprev
  simpa [List.getLast?_cons] using hprev

theorem ne_head (h : Ring links head members) (hnode : node ∈ members) : node ≠ head := by
  rintro rfl
  exact (List.nodup_cons.mp h.nodup).1 hnode

/-- What the head points back at is a member, unless the ring is empty. -/
theorem mem_of_prev_head (h : Ring links head members) (hprev : links.prev head = node)
    (hnode : node ≠ head) : node ∈ members := by
  rw [h.prev_head] at hprev
  rcases List.eq_nil_or_concat members with rfl | ⟨front, last, rfl⟩
  · exact absurd hprev.symm hnode
  · have hlast : last = node := by simpa using hprev
    simp [hlast]

theorem next_mem (h : Ring links head members) (hnode : node ∈ head :: members) :
    links.next node ∈ head :: members := by
  rcases List.mem_cons.mp hnode with rfl | hmem
  · rw [h.next_head]
    cases members <;> simp
  · obtain ⟨front, back, rfl⟩ := List.append_of_mem hmem
    rw [h.next_member]
    cases back <;> simp

/-- No member of a ring follows itself. -/
theorem next_ne_self (h : Ring links head members) (hnode : node ∈ members) :
    links.next node ≠ node := by
  obtain ⟨front, back, rfl⟩ := List.append_of_mem hnode
  have hnodup := h.rotate.nodup
  rw [h.next_member]
  cases back with
  | nil => exact (h.ne_head hnode).symm
  | cons following rest =>
    rintro rfl
    simp at hnodup

/-- Following one link and then the other leads back. -/
theorem inverse (h : Ring links head members) (hnode : node ∈ head :: members) :
    links.prev (links.next node) = node ∧ links.next (links.prev node) = node := by
  have hself : ∀ {first : Node} {others : List Node}, Ring links first others →
      links.prev (links.next first) = first ∧ links.next (links.prev first) = first := by
    intro first others hring
    constructor
    · cases others with
      | nil => simp [nil_iff.mp hring]
      | cons second rest =>
        have hsecond : Ring links first ([] ++ second :: rest) := hring
        rw [hring.next_head]
        simpa using hsecond.prev_member
    · rcases List.eq_nil_or_concat others with rfl | ⟨front, last, rfl⟩
      · simp [nil_iff.mp hring]
      · rw [hring.prev_head]
        have hlast : Ring links first (front ++ last :: []) := by simpa using hring
        simpa using hlast.next_member
  rcases List.mem_cons.mp hnode with rfl | hmem
  · exact hself h
  · obtain ⟨front, back, rfl⟩ := List.append_of_mem hmem
    exact hself h.rotate

/-! ## Edits next to the head -/

/-- An edit in front of `first` leaves the links from `first` round to the head alone. -/
theorem tail_kept {first : Node} {rest : List Node} (hnodup : (head :: first :: rest).Nodup)
    (htail : (first :: rest ++ [head]).IsChain links.Linked)
    (hnext : ∀ other ∈ first :: rest, links'.next other = links.next other)
    (hprev : ∀ other ∈ head :: first :: rest, other ≠ first →
      links'.prev other = links.prev other) :
    (first :: rest ++ [head]).IsChain links'.Linked := by
  refine chain_imp htail fun left hleft right hright hlinked ↦ ?_
  simp only [List.nodup_cons, List.mem_cons, not_or] at hnodup
  have hright' : right ∈ head :: first :: rest ∧ right ≠ first := by
    rcases List.mem_append.mp hright with hmem | hmem
    · refine ⟨by simp [hmem], ?_⟩
      rintro rfl
      exact hnodup.2.1 hmem
    · rw [List.mem_singleton.mp hmem]
      exact ⟨by simp, hnodup.1.1⟩
  exact ⟨(hnext left hleft).trans hlinked.1, (hprev right hright'.1 hright'.2).trans hlinked.2⟩

/-- Insert one node right after the head: four fields change, the others stay. -/
theorem insert (h : Ring links head members) (hnew : node ∉ head :: members)
    (hhead : links'.next head = node) (hback : links'.prev node = head)
    (hforth : links'.next node = links.next head)
    (hfirst : links'.prev (links.next head) = node)
    (hnext : ∀ other ∈ members, links'.next other = links.next other)
    (hprev : ∀ other ∈ head :: members, other ≠ links.next head →
      links'.prev other = links.prev other) :
    Ring links' head (node :: members) := by
  obtain ⟨hnodup, hlinked⟩ := h
  have hperm : (head :: node :: members).Perm (node :: head :: members) :=
    List.Perm.swap node head members
  refine ⟨hperm.nodup_iff.mpr (List.nodup_cons.mpr ⟨hnew, hnodup⟩), ?_⟩
  cases members with
  | nil =>
    have hself : links.next head = head := (nil_iff.mp ⟨hnodup, hlinked⟩).1
    rw [hself] at hforth hfirst
    simp [Linked, hhead, hback, hforth, hfirst]
  | cons first rest =>
    simp only [List.cons_append, List.isChain_cons_cons] at hlinked ⊢
    obtain ⟨⟨hlink, -⟩, htail⟩ := hlinked
    rw [hlink] at hforth hfirst hprev
    exact ⟨⟨hhead, hback⟩, ⟨hforth, hfirst⟩, tail_kept hnodup htail hnext hprev⟩

/-- Take the first member out: its two neighbours are joined, the other fields stay. -/
theorem remove (h : Ring links head (node :: members))
    (hhead : links'.next head = links.next node)
    (hback : links'.prev (links.next node) = head)
    (hnext : ∀ other ∈ members, links'.next other = links.next other)
    (hprev : ∀ other ∈ head :: members, other ≠ links.next node →
      links'.prev other = links.prev other) :
    Ring links' head members := by
  obtain ⟨hnodup, hlinked⟩ := h
  have hperm : (head :: node :: members).Perm (node :: head :: members) :=
    List.Perm.swap node head members
  have hkept : (head :: members).Nodup := (List.nodup_cons.mp (hperm.nodup_iff.mp hnodup)).2
  refine ⟨hkept, ?_⟩
  cases members with
  | nil =>
    simp only [List.cons_append, List.nil_append, List.isChain_cons_cons] at hlinked
    have hself : links.next node = head := hlinked.2.1.1
    rw [hself] at hhead hback
    simp [Linked, hhead, hback]
  | cons first rest =>
    simp only [List.cons_append, List.isChain_cons_cons] at hlinked ⊢
    obtain ⟨-, ⟨hlink, -⟩, htail⟩ := hlinked
    rw [hlink] at hhead hback hprev
    exact ⟨⟨hhead, hback⟩, tail_kept hkept htail hnext hprev⟩

/-! ## Walks along the ring -/

/-- Following `next` from the node before `post`: the head when `post` is empty. -/
theorem next_before (h : Ring links head (pre ++ post)) :
    links.next (pre.getLast?.getD head) = post.head?.getD head := by
  rcases List.eq_nil_or_concat pre with rfl | ⟨front, last, rfl⟩
  · exact h.next_head
  · have hsplit : Ring links head (front ++ last :: post) := by simpa using h
    simpa using hsplit.next_member

section Walks

variable [DecidableEq Node]

theorem traverse_from (h : Ring links head (pre ++ post)) {fuel : ℕ} (hfuel : post.length < fuel) :
    links.traverse head fuel (pre.getLast?.getD head) = some post := by
  induction post generalizing pre fuel with
  | nil =>
    obtain ⟨fuel, rfl⟩ := Nat.exists_eq_add_one_of_ne_zero (Nat.ne_zero_of_lt hfuel)
    simp [Links.traverse, h.next_before]
  | cons following post ih =>
    obtain ⟨fuel, rfl⟩ := Nat.exists_eq_add_one_of_ne_zero (Nat.ne_zero_of_lt hfuel)
    have hne : following ≠ head := h.ne_head (by simp)
    have hsplit : Ring links head ((pre ++ [following]) ++ post) := by simpa using h
    have hrest := ih hsplit (by simpa using hfuel)
    rw [List.getLast?_concat, Option.getD_some] at hrest
    simp [Links.traverse, h.next_before, hne, hrest]

/-- A walk from the head reads the members in order. -/
theorem traverse_head (h : Ring links head members) {fuel : ℕ} (hfuel : members.length < fuel) :
    links.traverse head fuel head = some members := by
  have hwhole : Ring links head ([] ++ members) := h
  exact hwhole.traverse_from hfuel

/-- The cycle through a head is unique. -/
theorem unique {others : List Node} (h : Ring links head members) (h' : Ring links head others) :
    members = others := by
  have hfuel : members.length < members.length + others.length + 1 := by omega
  have hread := h.traverse_head hfuel
  rw [h'.traverse_head (by omega)] at hread
  exact (Option.some.inj hread).symm

theorem findFrom_from (h : Ring links head (pre ++ post)) (test : Node → Bool) {fuel : ℕ}
    (hfuel : post.length < fuel) :
    links.findFrom head test fuel (pre.getLast?.getD head) = some (post.find? test) := by
  induction post generalizing pre fuel with
  | nil =>
    obtain ⟨fuel, rfl⟩ := Nat.exists_eq_add_one_of_ne_zero (Nat.ne_zero_of_lt hfuel)
    simp [findFrom, h.next_before]
  | cons following post ih =>
    obtain ⟨fuel, rfl⟩ := Nat.exists_eq_add_one_of_ne_zero (Nat.ne_zero_of_lt hfuel)
    have hne : following ≠ head := h.ne_head (by simp)
    have hsplit : Ring links head ((pre ++ [following]) ++ post) := by simpa using h
    have hrest := ih hsplit (by simpa using hfuel)
    rw [List.getLast?_concat, Option.getD_some] at hrest
    by_cases htest : test following
    · simp [findFrom, h.next_before, hne, htest]
    · simp [findFrom, h.next_before, hne, htest, hrest]

/-- A search from the head is a search of the member list. -/
theorem findFrom_head (h : Ring links head members) (test : Node → Bool) {fuel : ℕ}
    (hfuel : members.length < fuel) :
    links.findFrom head test fuel head = some (members.find? test) := by
  have hwhole : Ring links head ([] ++ members) := h
  exact hwhole.findFrom_from test hfuel

end Walks

end Ring

end Ucore.Foundation
