import Ucore.Foundation.Ring

/-!
# The doubly linked list of `libs/list.h`

Every primitive is the sequence of field writes of the C function. Each one edits a ring as the
operation of its name: the lemmas cover all positions in a ring and any number of other rings in
the same heap.
-/

namespace Ucore

open Foundation

variable {Node : Type} [DecidableEq Node]

/-- `elm->prev = elm->next = elm` -/
def listInit (links : Links Node) (elm : Node) : Links Node :=
  (links.setNext elm elm).setPrev elm elm

/-- `prev->next = next->prev = elm; elm->next = next; elm->prev = prev` -/
def __listAdd (links : Links Node) (elm prev next : Node) : Links Node :=
  let links := links.setPrev next elm
  let links := links.setNext prev elm
  let links := links.setNext elm next
  links.setPrev elm prev

/-- `prev->next = next; next->prev = prev` -/
def __listDel (links : Links Node) (prev next : Node) : Links Node :=
  (links.setNext prev next).setPrev next prev

def listAddAfter (links : Links Node) (listelm elm : Node) : Links Node :=
  __listAdd links elm listelm (links.next listelm)

def listAdd (links : Links Node) (listelm elm : Node) : Links Node :=
  listAddAfter links listelm elm

def listAddBefore (links : Links Node) (listelm elm : Node) : Links Node :=
  __listAdd links elm (links.prev listelm) listelm

def listDel (links : Links Node) (listelm : Node) : Links Node :=
  __listDel links (links.prev listelm) (links.next listelm)

/-- `list_next` and `list_prev` only read a field: they are `links.next` and `links.prev`. -/
def listEmpty (links : Links Node) (list : Node) : Bool :=
  links.next list = list

variable {links : Links Node} {head node elm other : Node} {members pre post : List Node}

/-! ## What one operation leaves alone -/

theorem listInit_next_of_ne (h : other ≠ elm) :
    (listInit links elm).next other = links.next other := by
  simp [listInit, h]

theorem listInit_prev_of_ne (h : other ≠ elm) :
    (listInit links elm).prev other = links.prev other := by
  simp [listInit, h]

theorem listAdd_next_of_ne (helm : other ≠ elm) (hnode : other ≠ node) :
    (listAdd links node elm).next other = links.next other := by
  simp [listAdd, listAddAfter, __listAdd, helm, hnode]

theorem listAdd_prev_of_ne (helm : other ≠ elm) (hnext : other ≠ links.next node) :
    (listAdd links node elm).prev other = links.prev other := by
  simp [listAdd, listAddAfter, __listAdd, helm, hnext]

theorem listDel_next_of_ne (h : other ≠ links.prev node) :
    (listDel links node).next other = links.next other := by
  simp [listDel, __listDel, h]

theorem listDel_prev_of_ne (h : other ≠ links.next node) :
    (listDel links node).prev other = links.prev other := by
  simp [listDel, __listDel, h]

end Ucore

namespace Ucore.Foundation.Ring

open Ucore

variable {Node : Type} [DecidableEq Node] {links : Links Node} {head node elm other : Node}
  {members others pre post : List Node}

/-! ## What one operation does to its ring -/

theorem listInit : Ring (listInit links head) head [] := by
  rw [nil_iff]
  simp [Ucore.listInit]

theorem listEmpty_iff (h : Ring links head members) :
    listEmpty links head = true ↔ members = [] := by
  rw [listEmpty, decide_eq_true_iff, h.next_head]
  cases members with
  | nil => simp
  | cons first rest => simpa using h.ne_head (by simp)

theorem listAdd_head (h : Ring links head members) (hnew : elm ∉ head :: members) :
    Ring (listAdd links head elm) head (elm :: members) := by
  simp only [List.mem_cons, not_or] at hnew
  have hfirst : links.next head ≠ elm := by
    rw [h.next_head]
    cases members with
    | nil => exact Ne.symm hnew.1
    | cons first rest =>
      rintro rfl
      exact hnew.2 (by simp)
  refine h.insert (by simpa using hnew) ?_ ?_ ?_ ?_ ?_ ?_
  · simp [Ucore.listAdd, listAddAfter, __listAdd, Ne.symm hnew.1]
  · simp [Ucore.listAdd, listAddAfter, __listAdd]
  · simp [Ucore.listAdd, listAddAfter, __listAdd]
  · simp [Ucore.listAdd, listAddAfter, __listAdd, hfirst]
  · intro other hother
    exact listAdd_next_of_ne (fun heq ↦ hnew.2 (heq ▸ hother)) (h.ne_head hother)
  · intro other hother hne
    refine listAdd_prev_of_ne ?_ hne
    rintro rfl
    exact (List.mem_cons.mp hother).elim hnew.1 hnew.2

theorem listAdd_member (h : Ring links head (pre ++ node :: post))
    (hnew : elm ∉ head :: (pre ++ node :: post)) :
    Ring (listAdd links node elm) head (pre ++ node :: elm :: post) := by
  have hnode : elm ∉ node :: (post ++ head :: pre) := by
    simp only [List.mem_cons, List.mem_append, not_or] at hnew ⊢
    tauto
  have hadded : Ring (listAdd links node elm) node ((elm :: post) ++ head :: pre) :=
    h.rotate.listAdd_head hnode
  exact hadded.rotate

/-- Insertion after the last node of a front part of the ring, the head when that part is empty. -/
theorem listAdd_between (h : Ring links head (pre ++ post)) (hnew : elm ∉ head :: (pre ++ post)) :
    Ring (listAdd links (pre.getLast?.getD head) elm) head (pre ++ elm :: post) := by
  rcases List.eq_nil_or_concat pre with rfl | ⟨front, last, rfl⟩
  · exact h.listAdd_head hnew
  · have hsplit : Ring links head (front ++ last :: post) := by simpa using h
    have hadded : Ring (listAdd links last elm) head (front ++ last :: elm :: post) :=
      hsplit.listAdd_member (by simpa using hnew)
    simpa using hadded

theorem listAddBefore_eq (h : Ring links head members) (hnode : node ∈ head :: members) :
    listAddBefore links node elm = listAdd links (links.prev node) elm := by
  simp [listAddBefore, Ucore.listAdd, listAddAfter, (h.inverse hnode).2]

theorem listAddBefore_member (h : Ring links head (pre ++ node :: post))
    (hnew : elm ∉ head :: (pre ++ node :: post)) :
    Ring (listAddBefore links node elm) head (pre ++ elm :: node :: post) := by
  rw [h.listAddBefore_eq (by simp), h.prev_member]
  exact h.listAdd_between hnew

theorem listDel_first (h : Ring links head (node :: members)) :
    Ring (listDel links node) head members := by
  have hsplit : Ring links head ([] ++ node :: members) := h
  have hprev : links.prev node = head := hsplit.prev_member
  have hkept : (head :: members).Nodup :=
    (List.nodup_cons.mp ((List.Perm.swap node head members).nodup_iff.mp h.nodup)).2
  refine h.remove ?_ ?_ ?_ ?_
  · simp [Ucore.listDel, __listDel, hprev]
  · simp [Ucore.listDel, __listDel, hprev]
  · intro other hother
    rw [listDel_next_of_ne]
    rw [hprev]
    rintro rfl
    exact (List.nodup_cons.mp hkept).1 hother
  · intro other _ hne
    exact listDel_prev_of_ne hne

theorem listDel_member (h : Ring links head (pre ++ node :: post)) :
    Ring (listDel links node) head (pre ++ post) := by
  rcases List.eq_nil_or_concat pre with rfl | ⟨front, last, rfl⟩
  · exact h.listDel_first
  · have hsplit : Ring links head (front ++ last :: node :: post) := by simpa using h
    have hremoved : Ring (listDel links node) last (post ++ head :: front) :=
      hsplit.rotate.listDel_first
    simpa using hremoved.rotate

/-! ## What one operation does to other rings -/

theorem listInit_other (h : Ring links head members) (hnew : elm ∉ head :: members) :
    Ring (Ucore.listInit links elm) head members := by
  have hne : ∀ other ∈ head :: members, other ≠ elm := fun other hother heq ↦ hnew (heq ▸ hother)
  exact h.congr (fun other hother ↦ listInit_next_of_ne (hne other hother))
    fun other hother ↦ listInit_prev_of_ne (hne other hother)

theorem listAdd_other {head' : Node} {members' : List Node} (h : Ring links head members)
    (h' : Ring links head' members') (hdisjoint : ∀ other ∈ head' :: members', other ∉ head :: members)
    (hnew : elm ∉ head' :: members') : Ring (listAdd links head elm) head' members' := by
  have hnext : links.next head ∈ head :: members := by
    rw [h.next_head]
    cases members <;> simp
  refine h'.congr (fun other hother ↦ listAdd_next_of_ne ?_ ?_) fun other hother ↦
    listAdd_prev_of_ne ?_ ?_
  · exact fun heq ↦ hnew (heq ▸ hother)
  · exact fun heq ↦ hdisjoint other hother (heq ▸ List.mem_cons_self)
  · exact fun heq ↦ hnew (heq ▸ hother)
  · exact fun heq ↦ hdisjoint other hother (heq ▸ hnext)

end Ucore.Foundation.Ring
