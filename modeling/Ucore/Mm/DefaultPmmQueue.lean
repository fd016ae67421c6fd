import Ucore.Mm.DefaultPmmPages
import Ucore.Mm.DefaultPmmUndo

/-!
# Free lists that are broken in one direction

A release behind the last block of a list leaves an entry that is its own predecessor. Such a list is
still right in the direction of `next`, and taking the first block mends the entry behind it; so it
serves as a queue. `Queued` is the counterpart of `Spare` for these lists.
-/

namespace Ucore

open Foundation ListEntry

/-! ## Lists whose entries may be their own predecessors -/

/-- `right` comes behind `left` and points back at it or at itself. -/
def Follows {Node : Type} (links : Links Node) (left right : Node) : Prop :=
  links.next left = right ∧ (links.prev right = left ∨ links.prev right = right)

/-- A list that is right in the direction of `next`, and at its first entry in that of `prev`. -/
structure Queue {Node : Type} (links : Links Node) (head : Node) (members : List Node) : Prop where
  nodup : (head :: members).Nodup
  chain : (head :: members ++ [head]).IsChain (Follows links)
  first : ∀ node ∈ members.head?, links.prev node = head
  last : links.prev head = members.getLast?.getD head

namespace Queue

variable {Node : Type} {links : Links Node} {head node elm : Node} {members pre post : List Node}

theorem of_ring (h : Ring links head members) : Queue links head members where
  nodup := h.nodup
  chain := h.linked.imp fun _ _ hlinked ↦ ⟨hlinked.1, .inl hlinked.2⟩
  first node hnode := by
    obtain ⟨rest, rfl⟩ := List.head?_eq_some_iff.mp hnode
    exact (show Ring links head ([] ++ node :: rest) from h).prev_member
  last := h.prev_head

theorem next_member (h : Queue links head (pre ++ node :: post)) :
    links.next node = post.head?.getD head := by
  have hchain : (head :: pre ++ node :: (post ++ [head])).IsChain (Follows links) := by
    simpa using h.chain
  have hback := (List.isChain_split.mp hchain).2
  cases post with
  | nil => exact (List.isChain_cons_cons.mp hback).1.1
  | cons following rest => exact (List.isChain_cons_cons.mp hback).1.1

theorem next_before (h : Queue links head (pre ++ node :: post)) :
    links.next (pre.getLast?.getD head) = node := by
  rcases List.eq_nil_or_concat pre with rfl | ⟨front, last, rfl⟩
  · exact (List.isChain_cons_cons.mp h.chain).1.1
  · have hsplit : Queue links head (front ++ last :: node :: post) := by simpa using h
    simpa using hsplit.next_member

theorem prev_member (h : Queue links head (pre ++ node :: post)) :
    links.prev node = pre.getLast?.getD head ∨ links.prev node = node := by
  rcases List.eq_nil_or_concat pre with rfl | ⟨front, last, rfl⟩
  · exact .inl (h.first node rfl)
  · have hchain : (head :: front ++ last :: (node :: post ++ [head])).IsChain (Follows links) := by
      simpa using h.chain
    have hfollows := (List.isChain_cons_cons.mp (List.isChain_split.mp hchain).2).1
    simpa using hfollows.2

theorem next_head (h : Queue links head members) : links.next head = members.head?.getD head := by
  cases members with
  | nil => exact (List.isChain_cons_cons.mp h.chain).1.1
  | cons first rest => exact (show Queue links head ([] ++ first :: rest) from h).next_before

theorem ring_nil (h : Queue links head []) : Ring links head [] :=
  Ring.nil_iff.mpr ⟨h.next_head, h.last⟩

theorem ring_singleton (h : Queue links head [node]) : Ring links head [node] := by
  refine ⟨h.nodup, ?_⟩
  have hnext : links.next head = node := h.next_head
  have hback : links.next node = head :=
    (show Queue links head ([] ++ node :: []) from h).next_member
  simp [Links.Linked, hnext, hback, h.first node rfl, h.last]

theorem confined {window : Set Node} {saved : Links Node} (h : Queue links head members)
    (hwindow : ∀ node ∈ head :: members, node ∈ window)
    (houtside : ∀ node ∉ window,
      links.next node = saved.next node ∧ links.prev node = saved.prev node) :
    Confined window saved links {node | node ∈ head :: members} where
  next node hnode := by
    rcases List.mem_cons.mp hnode with rfl | hmember
    · rw [h.next_head]
      cases members <;> simp
    · obtain ⟨pre, post, rfl⟩ := List.append_of_mem hmember
      rw [h.next_member]
      cases post <;> simp
  prev node hnode := by
    rcases List.mem_cons.mp hnode with rfl | hmember
    · rw [h.last]
      rcases List.eq_nil_or_concat members with rfl | ⟨front, last, rfl⟩ <;> simp
    · obtain ⟨pre, post, rfl⟩ := List.append_of_mem hmember
      rcases h.prev_member with hprev | hprev
      · rw [hprev]
        rcases List.eq_nil_or_concat pre with rfl | ⟨front, last, rfl⟩ <;> simp
      · rw [hprev]
        exact hnode
  within := hwindow
  outside := houtside

variable [DecidableEq Node]

/-- Unlinking the first entry mends the one behind it. -/
theorem listDel_first (h : Queue links head (node :: members)) :
    Queue (listDel links node) head members := by
  have hprev : links.prev node = head := h.first node rfl
  have hnext : links.next node = members.head?.getD head :=
    (show Queue links head ([] ++ node :: members) from h).next_member
  have hnodup := (List.nodup_cons.mp ((List.Perm.swap node head members).nodup_iff.mp h.nodup)).2
  have hdel : (listDel links node).next head = members.head?.getD head := by
    simp [listDel, __listDel, hprev, hnext]
  have hmended : (listDel links node).prev (members.head?.getD head) = head := by
    simp [listDel, __listDel, hprev, hnext]
  cases members with
  | nil =>
    refine ⟨hnodup, ?_, by simp, hmended⟩
    exact List.isChain_pair.mpr ⟨hdel, .inl hmended⟩
  | cons second rest =>
    have hsecond : second ∉ head :: rest :=
      (List.nodup_cons.mp ((List.Perm.swap second head rest).nodup_iff.mp hnodup)).1
    have hhead : head ∉ second :: rest := (List.nodup_cons.mp hnodup).1
    have hchain : (head :: node :: (second :: rest ++ [head])).IsChain (Follows links) := h.chain
    have htail := (List.isChain_cons_cons.mp (List.isChain_cons_cons.mp hchain).2).2
    refine ⟨hnodup, List.isChain_cons_cons.mpr ⟨⟨hdel, .inl hmended⟩, ?_⟩, ?_, ?_⟩
    · refine Ring.chain_imp htail fun left hleft right hright hfollows ↦ ?_
      have hleft_ne : left ≠ links.prev node := by
        rw [hprev]
        rintro rfl
        exact hhead hleft
      have hright_ne : right ≠ links.next node := by
        rw [hnext]
        rintro rfl
        apply hsecond
        simpa [or_comm] using hright
      rw [Follows, listDel_next_of_ne hleft_ne, listDel_prev_of_ne hright_ne]
      exact hfollows
    · intro other hother
      obtain rfl : second = other := Option.some.inj hother
      exact hmended
    · have hne : head ≠ links.next node := by
        rw [hnext]
        rintro rfl
        exact hhead List.mem_cons_self
      rw [listDel_prev_of_ne hne, h.last, List.getLast?_cons_cons]

/-- An entry that goes behind the last one twice ends up as its own predecessor. -/
theorem listAdd_twice (h : Queue links head (pre ++ [node])) (hnew : elm ∉ head :: (pre ++ [node])) :
    Queue (listAdd (listAdd links node elm) elm elm) head (pre ++ [node, elm]) := by
  have hback : links.next node = head := by simpa using h.next_member
  have hnode : elm ≠ node := by
    rintro rfl
    simp at hnew
  have hhead : elm ≠ head := by
    rintro rfl
    simp at hnew
  have hnodup : (head :: (pre ++ [node])).Nodup := h.nodup
  -- all other links stay as they are
  have hnext : ∀ other, other ≠ node → other ≠ elm →
      (listAdd (listAdd links node elm) elm elm).next other = links.next other := fun other hn he ↦
    (listAdd_next_of_ne he he).trans (listAdd_next_of_ne he hn)
  have hadded : (listAdd links node elm).next elm = head := by
    simp [listAdd, listAddAfter, __listAdd, hback]
  have hprev : ∀ other, other ≠ head → other ≠ elm →
      (listAdd (listAdd links node elm) elm elm).prev other = links.prev other := fun other hh he ↦
    (listAdd_prev_of_ne he (hadded.symm ▸ hh)).trans (listAdd_prev_of_ne he (hback.symm ▸ hh))
  have hself : (listAdd (listAdd links node elm) elm elm).next node = elm ∧
      (listAdd (listAdd links node elm) elm elm).next elm = head ∧
      (listAdd (listAdd links node elm) elm elm).prev elm = elm ∧
      (listAdd (listAdd links node elm) elm elm).prev head = elm := by
    simp [listAdd, listAddAfter, __listAdd, hback, hnode.symm, hhead.symm]
  obtain ⟨hlast, hend, hloop, hclose⟩ := hself
  have hchain : (head :: pre ++ node :: [head]).IsChain (Follows links) := by
    simpa using h.chain
  have hkept : (head :: pre ++ [node]).IsChain
      (Follows (listAdd (listAdd links node elm) elm elm)) := by
    refine Ring.chain_imp (List.isChain_split.mp hchain).1 fun left hleft right hright hfollows ↦ ?_
    have hleft_ne : left ≠ node ∧ left ≠ elm := by
      constructor <;> rintro rfl
      · simp only [List.nodup_cons, List.mem_append, List.nodup_append, List.mem_cons] at hnodup hleft
        grind
      · apply hnew
        simp only [List.mem_cons, List.mem_append] at hleft ⊢
        tauto
    have hright_ne : right ≠ head ∧ right ≠ elm := by
      constructor <;> rintro rfl
      · exact (List.nodup_cons.mp hnodup).1 hright
      · exact hnew (List.mem_cons_of_mem _ hright)
    rw [Follows, hnext left hleft_ne.1 hleft_ne.2, hprev right hright_ne.1 hright_ne.2]
    exact hfollows
  refine ⟨?_, ?_, ?_, ?_⟩
  · have hall : (head :: (pre ++ [node]) ++ [elm]).Nodup :=
      List.nodup_append.mpr ⟨hnodup, List.nodup_singleton elm, fun left hleft right hright heq ↦
        hnew (List.mem_singleton.mp hright ▸ heq ▸ hleft)⟩
    simpa using hall
  · have hpair : (node :: [elm, head]).IsChain (Follows (listAdd (listAdd links node elm) elm elm)) :=
      List.isChain_cons_cons.mpr ⟨⟨hlast, .inr hloop⟩, List.isChain_pair.mpr ⟨hend, .inl hclose⟩⟩
    simpa using List.isChain_split.mpr ⟨hkept, hpair⟩
  · intro other hother
    have hfirst : other ∈ (pre ++ [node]).head? := by
      cases pre with
      | nil => exact hother
      | cons first rest => exact hother
    have hmem : other ∈ pre ++ [node] := List.mem_of_mem_head? hfirst
    rw [hprev other (fun heq ↦ (List.nodup_cons.mp hnodup).1 (heq ▸ hmem)) fun heq ↦
      hnew (List.mem_cons_of_mem _ (heq ▸ hmem))]
    exact h.first other hfirst
  · simp [hclose]

end Queue

section InsertScan

variable {base last fuel : ℕ} {links : Links ListEntry} {front skipped : List ℕ}

/-- A base above all entries goes behind the last one twice. -/
theorem Queue.insertScan
    (h : Queue links freeList ((front ++ (skipped ++ [last])).map pageLink))
    (hskipped : ∀ page ∈ skipped, ¬ base < page) (hlast : ¬ base < last) (hnew : base ≠ last)
    (hfuel : skipped.length + 2 < fuel) :
    insertScan base fuel links ((front.map pageLink).getLast?.getD freeList) =
      .ok (listAdd (listAdd links (pageLink last) (pageLink base)) (pageLink base)
        (pageLink base)) := by
  induction skipped generalizing front fuel with
  | nil =>
    obtain ⟨fuel, rfl⟩ : ∃ rest, fuel = rest + 3 := ⟨fuel - 3, by simp at hfuel; omega⟩
    have hsplit : Queue links freeList (front.map pageLink ++ pageLink last :: []) := by
      simpa using h
    have hend : links.next (pageLink last) = freeList := hsplit.next_member
    have hadded : (listAdd links (pageLink last) (pageLink base)).next (pageLink last) =
        pageLink base := by
      simp [listAdd, listAddAfter, __listAdd, hnew.symm]
    have hbase : (listAdd links (pageLink last) (pageLink base)).next (pageLink base) =
        freeList := by
      simp [listAdd, listAddAfter, __listAdd, hend]
    rw [Ucore.insertScan, hsplit.next_before]
    simp only [hlast, if_false, hend, if_true]
    rw [Ucore.insertScan, hadded]
    simp only [lt_irrefl, if_false, hbase, if_true]
    rw [Ucore.insertScan, listAdd_self_next, hbase]
  | cons page skipped ih =>
    obtain ⟨fuel, rfl⟩ := Nat.exists_eq_add_one_of_ne_zero (Nat.ne_zero_of_lt hfuel)
    have hsplit : Queue links freeList
        (front.map pageLink ++ pageLink page :: (skipped ++ [last]).map pageLink) := by
      simpa using h
    have hmore : links.next (pageLink page) ≠ freeList := by
      rw [hsplit.next_member]
      cases skipped <;> simp
    have hfront : Queue links freeList (((front ++ [page]) ++ (skipped ++ [last])).map pageLink) := by
      simpa using h
    have hrest := ih hfront (fun other hother ↦ hskipped other (List.mem_cons_of_mem _ hother))
      (show skipped.length + 2 < fuel by simp at hfuel; omega)
    rw [Ucore.insertScan, hsplit.next_before]
    simp only [hskipped page List.mem_cons_self, if_false, hmore]
    simpa using hrest

end InsertScan

/-! ## Hidden lists -/

/-- In the part `[lower, limit)` of the page array only `queue` is free, in a list that may be wrong
in the direction of `prev`. -/
structure Queued (lower limit : ℕ) (area : FreeArea) (queue : List Block) : Prop where
  list : Queue area.links freeList (queue.map headLink)
  property : ∀ block ∈ queue, (area.pages block.start).property = block.size
  heads : ∀ page, lower ≤ page → page < limit →
    (pageProperty (area.pages page) = true ↔ ∃ block ∈ queue, block.start = page)
  unreserved : ∀ page, lower ≤ page → page < limit → pageReserved (area.pages page) = false
  inside : ∀ block ∈ queue, 0 < block.size ∧ lower ≤ block.start ∧ block.stop ≤ limit
  total : area.nrFree = (queue.map Block.size).sum
  ref : ∀ block ∈ queue, ∀ page ∈ block.cells, (area.pages page).ref = 0

variable {lower limit base n fuel : ℕ} {saved area area' : FreeArea} {queue : List Block}
  {block : Block}

/-- A request for more than is free is turned down at once. -/
theorem defaultAllocPages_short (hn : 0 < n) (hshort : area.nrFree < n) :
    defaultAllocPages fuel area n = .ok (none, area) := by
  rw [defaultAllocPages, assert_of_true hn, ok_bind, if_pos hshort]
  rfl

namespace Queued

theorem windowed (h : Queued lower limit area queue) (hsaved : Windowed lower limit saved area) :
    Confined (pageWindow lower limit) saved.links area.links
      {node | node ∈ freeList :: queue.map headLink} := by
  refine h.list.confined (fun node hnode ↦ ?_) hsaved.links
  rcases List.mem_cons.mp hnode with rfl | hmember
  · trivial
  · obtain ⟨block, hblock, rfl⟩ := List.mem_map.mp hmember
    obtain ⟨hsize, hlower, hstop⟩ := h.inside block hblock
    rw [Block.stop_eq] at hstop
    exact ⟨hlower, by omega⟩

/-- An empty list over pages none of which starts a free block -/
theorem empty (hheads : ∀ page, lower ≤ page → page < limit → pageProperty (area.pages page) = false)
    (hunreserved : ∀ page, lower ≤ page → page < limit → pageReserved (area.pages page) = false)
    (hlist : Ring area.links freeList []) (hfree : area.nrFree = 0) :
    Queued lower limit area [] where
  list := .of_ring hlist
  property := nofun
  heads page hlower hlimit := by simp [hheads page hlower hlimit]
  unreserved := hunreserved
  inside := nofun
  total := hfree
  ref := nofun

theorem spare (h : Queued lower limit area [block]) (hsmall : limit - lower < 2 ^ 32) :
    Spare lower limit area block.cells where
  listed := by
    obtain ⟨hsize, hinside⟩ := h.inside block List.mem_cons_self
    have htotal := h.total
    rw [Block.stop_eq] at hinside
    simp only [List.map_cons, List.map_nil, List.sum_cons, List.sum_nil] at htotal
    refine ⟨[block],
      ⟨⟨h.list.ring_singleton, h.property, h.heads⟩, ?_, .singleton hsize, h.total, ?_⟩, ?_⟩
    · intro other hother
      exact (h.inside other hother).2
    · omega
    · rw [cover_cons, cover_nil, Set.union_empty]
  unreserved := h.unreserved
  ref := h.ref block List.mem_cons_self

/-- Where a base above all blocks goes -/
theorem insertFree (h : Queued lower limit area queue) (hstart : ∀ block ∈ queue, block.start < base)
    (hfuel : queue.length + 2 < fuel) : ∃ links',
      insertFree fuel area.links base = .ok links' ∧
        Queue links' freeList (queue.map headLink ++ [pageLink base]) ∧
        (links'.prev (pageLink base) = freeList ∨ links'.prev (pageLink base) = pageLink base) := by
  have hnew : pageLink base ∉ freeList :: queue.map headLink := by
    rw [List.mem_cons, mem_map_headLink]
    rintro (heq | ⟨block, hblock, heq⟩)
    · cases heq
    · exact (hstart block hblock).ne heq
  rcases List.eq_nil_or_concat queue with rfl | ⟨front, last, hqueue⟩
  · have hring := h.list.ring_nil
    have hempty : listEmpty area.links freeList = true := hring.listEmpty_iff.mpr rfl
    have hadded := hring.listAdd_head hnew
    refine ⟨_, by rw [Ucore.insertFree, if_pos hempty], .of_ring hadded, .inl ?_⟩
    exact (show Ring _ freeList ([] ++ [pageLink base]) from hadded).prev_member
  · rw [List.concat_eq_append] at hqueue
    subst hqueue
    have hlist : Queue area.links freeList (front.map headLink ++ [headLink last]) := by
      simpa using h.list
    have hpages : Queue area.links freeList
        (([] ++ (front.map Block.start ++ [last.start])).map pageLink) := by
      simpa [Function.comp_def] using h.list
    have hlast := hstart last (by simp)
    have hscan := hpages.insertScan
      (fun page hpage ↦ by
        obtain ⟨block, hblock, rfl⟩ := List.mem_map.mp hpage
        exact (hstart block (by simp [hblock])).not_gt)
      hlast.not_gt hlast.ne' (show (front.map Block.start).length + 2 < fuel by simp at hfuel ⊢; omega)
    have hempty : ¬ listEmpty area.links freeList = true := by
      rw [listEmpty, h.list.next_head, decide_eq_true_iff]
      cases front <;> simp
    have hadded := hlist.listAdd_twice
      (show pageLink base ∉ freeList :: (front.map headLink ++ [headLink last]) by simpa using hnew)
    refine ⟨_, by rw [Ucore.insertFree, if_neg hempty]; exact hscan, by simpa using hadded, .inr ?_⟩
    simp [listAdd, listAddAfter, __listAdd]

/-- A release behind all blocks of the list: it is not merged with any of them. -/
theorem release (h : Queued lower limit area queue) (base n fuel : ℕ) (hn : 0 < n)
    (hlower : lower ≤ base)
    (hupper : base + n ≤ limit) (hbehind : ∀ block ∈ queue, block.stop ≤ base)
    (hroom : (queue.map Block.size).sum + n < 2 ^ 32) (hfuel : queue.length + 2 < fuel) :
    ∃ area', defaultFreePages fuel area base n = .ok area' ∧
      Queued lower limit area' (queue ++ [⟨base, n⟩]) ∧
      ∀ saved, Windowed lower limit saved area → Windowed lower limit saved area' := by
  have hstart : ∀ block ∈ queue, block.start < base := by
    intro block hblock
    have hsize := (h.inside block hblock).1
    have hstop := hbehind block hblock
    rw [Block.stop_eq] at hstop
    omega
  have hloop : freeLoop base n area = .ok (released area base n) := by
    refine freeLoop_eq fun page hpage hpage' ↦ ⟨h.unreserved page (by omega) (by omega), ?_⟩
    rw [Bool.eq_false_iff, ne_eq, h.heads page (by omega) (by omega)]
    rintro ⟨block, hblock, rfl⟩
    have := hstart block hblock
    omega
  obtain ⟨links', hinsert, hlist, hprev⟩ := h.insertFree hstart hfuel
  have hnext : links'.next (pageLink base) = freeList := by
    simpa using hlist.next_member
  have hmerge : mergePrev { releasedBlock area base n with links := links' } base =
      ({ releasedBlock area base n with links := links' }, base) := by
    have hsize : uint32 n ≠ 0 := by
      rw [uint32_eq (by omega)]
      omega
    rcases hprev with hprev | hprev <;> simp [mergePrev, hprev, releasedBlock, hsize]
  have hcall : defaultFreePages fuel area base n =
      .ok { releasedBlock area base n with links := links' } := by
    unfold defaultFreePages
    rw [assert_of_true hn, hloop]
    change Ucore.insertFree fuel area.links base >>= _ = _
    rw [hinsert]
    change Except.ok (mergeNext (mergePrev { releasedBlock area base n with links := links' } base).1
      (mergePrev { releasedBlock area base n with links := links' } base).2) = _
    rw [hmerge]
    simp [mergeNext, hnext]
  have hkept : ∀ page, page < base → (releasedBlock area base n).pages page = area.pages page := by
    intro page hpage
    simp [releasedBlock, released, hpage.ne, hpage.not_ge]
  refine ⟨_, hcall, ⟨by simpa using hlist, ?_, ?_, ?_, ?_, ?_, ?_⟩, fun saved hsaved ↦
    hsaved.defaultFreePages (h.windowed hsaved) List.mem_cons_self hn hlower hupper hcall⟩
  · intro block hblock
    rcases List.mem_append.mp hblock with hold | hnew
    · rw [show _ = area.pages block.start from hkept _ (hstart block hold)]
      exact h.property block hold
    · obtain rfl := List.mem_singleton.mp hnew
      simp [releasedBlock, uint32_eq (show n < 2 ^ 32 by omega)]
  · intro page hpage hpage'
    have hiff : (∃ block ∈ queue ++ [⟨base, n⟩], block.start = page) ↔
        (∃ block ∈ queue, block.start = page) ∨ base = page := by
      simp [or_and_right, exists_or]
    rw [hiff]
    by_cases heq : page = base
    · simp [releasedBlock, heq]
    · by_cases hin : base ≤ page ∧ page < base + n
      · have hnone : ¬ ∃ block ∈ queue, block.start = page := by
          rintro ⟨block, hblock, rfl⟩
          exact (hstart block hblock).not_ge hin.1
        have hne : base ≠ page := Ne.symm heq
        simpa [releasedBlock, released, heq, hin, hne] using hnone
      · simpa [releasedBlock, released, heq, hin, Ne.symm heq] using h.heads page hpage hpage'
  · intro page hpage hpage'
    rw [WellListed.releasedBlock_reserved fun page hlo hhi ↦ h.unreserved page (by omega) (by omega)]
    exact h.unreserved page hpage hpage'
  · intro block hblock
    rcases List.mem_append.mp hblock with hold | hnew
    · exact h.inside block hold
    · obtain rfl := List.mem_singleton.mp hnew
      exact ⟨hn, hlower, hupper⟩
  · change uint32 (area.nrFree + n) = _
    rw [h.total, uint32_eq hroom]
    simp
  · intro block hblock page hpage
    rw [defaultFreePages_ref hcall]
    split
    · rfl
    · rename_i hout
      rcases List.mem_append.mp hblock with hold | hnew
      · exact h.ref block hold page hpage
      · obtain rfl := List.mem_singleton.mp hnew
        exact absurd hpage hout

/-- The first block is taken as a whole. -/
theorem alloc_first (h : Queued lower limit area (block :: queue)) (hfuel : 0 < fuel) :
    ∃ area', defaultAllocPages fuel area block.size = .ok (some block.start, area') ∧
      Queued lower limit area' queue ∧
      ∀ saved, Windowed lower limit saved area → Windowed lower limit saved area' := by
  obtain ⟨hn, hinside⟩ := h.inside block List.mem_cons_self
  have hproperty := h.property block List.mem_cons_self
  have hnext : area.links.next freeList = headLink block := h.list.next_head
  have htotal : area.nrFree = block.size + (queue.map Block.size).sum := by
    rw [h.total, List.map_cons, List.sum_cons]
  have hcall : defaultAllocPages fuel area block.size =
      .ok (some block.start, takePages area block.start block.size) := by
    obtain ⟨fuel, rfl⟩ := Nat.exists_eq_add_one_of_ne_zero hfuel.ne'
    rw [defaultAllocPages, assert_of_true hn, ok_bind, if_neg (by omega), Links.findFrom, hnext,
      if_neg (by simp), if_pos (by simp [hasRoom, hproperty])]
    rfl
  have hlist : Queue area.links freeList (headLink block :: queue.map headLink) := h.list
  have hother : ∀ other ∈ queue, other.start ≠ block.start := by
    intro other hmem heq
    refine (List.nodup_cons.mp (List.nodup_cons.mp hlist.nodup).2).1 ?_
    exact mem_map_headLink.mpr ⟨other, hmem, heq⟩
  have hpages : ∀ page, page ≠ block.start →
      (takePages area block.start block.size).pages page = area.pages page := by
    intro page hpage
    rw [takePages_pages hn, if_neg hpage, if_neg (by rw [hproperty]; omega)]
  refine ⟨_, hcall, ⟨?_, ?_, ?_, ?_, ?_, ?_, ?_⟩, fun saved hsaved ↦
    hsaved.takePages (h.windowed hsaved) (by simp) hn hproperty.ge (hproperty ▸ hinside.2)⟩
  · rw [takePages_links, if_neg (by rw [hproperty]; omega)]
    exact hlist.listDel_first
  · intro other hmem
    rw [hpages _ (hother other hmem)]
    exact h.property other (List.mem_cons_of_mem _ hmem)
  · intro page hpage hpage'
    by_cases heq : page = block.start
    · have hnone : ¬ ∃ other ∈ queue, other.start = page := by
        rintro ⟨other, hmem, rfl⟩
        exact hother other hmem heq
      rw [takePages_pages hn, if_pos heq, pageProperty_clearPageProperty]
      simpa using hnone
    · rw [hpages page heq, h.heads page hpage hpage']
      have hne : block.start ≠ page := Ne.symm heq
      simp [hne]
  · intro page hpage hpage'
    rw [takePages_reserved hn]
    exact h.unreserved page hpage hpage'
  · intro other hmem
    exact h.inside other (List.mem_cons_of_mem _ hmem)
  · rw [takePages_nrFree, htotal]
    omega
  · intro other hmem page hpage
    rw [takePages_ref hn]
    exact h.ref other (List.mem_cons_of_mem _ hmem) page hpage

end Queued

end Ucore
