import Ucore.Foundation.Programs
import Ucore.Mm.DefaultPmmQueue
import Ucore.Mm.Pmm

/-!
# The self-test of the first-fit allocator

`check_alloc_page` runs `default_check` while the kernel boots. The test hides the free list and the
counter, gives some pages back to the empty list, takes them again, and puts the hidden list back. Its
releases behind the last block of a list leave entries that are their own predecessors.
-/

namespace Ucore

open Foundation ListEntry

/-! ## The tests -/

abbrev Check := StateT FreeArea (Except Fault)

namespace Check

def allocPages (fuel n : ℕ) : Check (Option ℕ) := fun area ↦ defaultAllocPages fuel area n

def freePages (fuel base n : ℕ) : Check Unit := fun area ↦
  (defaultFreePages fuel area base n).map fun area' ↦ ((), area')

/-- `assert((p = alloc_pages(n)) != NULL)` -/
def allocSome (fuel n : ℕ) : Check ℕ := do
  match ← allocPages fuel n with
  | some page => return page
  | none => throw .panic

/-- `assert(alloc_pages(n) == NULL)` -/
def allocNull (fuel n : ℕ) : Check Unit := do
  let page ← allocPages fuel n
  assert (page = none)

/-- `list_init(&free_list)` -/
def emptyList : Check Unit :=
  modify fun area ↦ { area with links := listInit area.links freeList }

/-- `free_list = free_list_store` -/
def restoreList (next prev : ListEntry) : Check Unit :=
  modify fun area ↦ { area with links := (area.links.setNext freeList next).setPrev freeList prev }

def setNrFree (nrFree : ℕ) : Check Unit := modify fun area ↦ { area with nrFree }

end Check

open Check

/-- What `basic_check` does with its three pages while the free list is hidden -/
def basicHidden (fuel p0 p1 p2 : ℕ) : Check (ℕ × ℕ × ℕ) := do
  allocNull fuel 1
  freePages fuel p0 1
  freePages fuel p1 1
  freePages fuel p2 1
  assert ((← get).nrFree = 3)
  let p0 ← allocSome fuel 1
  let p1 ← allocSome fuel 1
  let p2 ← allocSome fuel 1
  allocNull fuel 1
  freePages fuel p0 1
  assert (!listEmpty (← get).links freeList)
  let p ← allocPages fuel 1
  assert (p = some p0)
  allocNull fuel 1
  assert ((← get).nrFree = 0)
  return (p0, p1, p2)

def basicCheck (fuel npage : ℕ) : Check Unit := do
  let p0 ← allocSome fuel 1
  let p1 ← allocSome fuel 1
  let p2 ← allocSome fuel 1
  assert (p0 ≠ p1 ∧ p0 ≠ p2 ∧ p1 ≠ p2)
  let area ← get
  assert ((area.pages p0).ref = 0 ∧ (area.pages p1).ref = 0 ∧ (area.pages p2).ref = 0)
  assert (page2pa p0 < npage * PGSIZE % 2 ^ 64)
  assert (page2pa p1 < npage * PGSIZE % 2 ^ 64)
  assert (page2pa p2 < npage * PGSIZE % 2 ^ 64)
  let store ← get
  emptyList
  assert (listEmpty (← get).links freeList)
  setNrFree 0
  let (p, p1, p2) ← basicHidden fuel p0 p1 p2
  restoreList (store.links.next freeList) (store.links.prev freeList)
  setNrFree store.nrFree
  freePages fuel p 1
  freePages fuel p1 1
  freePages fuel p2 1

/-- The loop over the list that counts its blocks and their pages -/
def countUp (area : FreeArea) : ℕ → ListEntry → BitVec 32 × BitVec 32 →
    Except Fault (BitVec 32 × BitVec 32)
  | 0, _, _ => .error .outOfFuel
  | fuel + 1, le, (count, total) =>
    match area.links.next le with
    | freeList => .ok (count, total)
    | pageLink page => do
      assert (pageProperty (area.pages page))
      countUp area fuel (pageLink page)
        (count + 1, total + BitVec.ofNat 32 (area.pages page).property)

/-- The loop that takes the blocks and the pages off the counts again -/
def countDown (area : FreeArea) : ℕ → ListEntry → BitVec 32 × BitVec 32 →
    Except Fault (BitVec 32 × BitVec 32)
  | 0, _, _ => .error .outOfFuel
  | fuel + 1, le, (count, total) =>
    match area.links.next le with
    | freeList => .ok (count, total)
    | pageLink page =>
      countDown area fuel (pageLink page)
        (count - 1, total - BitVec.ofNat 32 (area.pages page).property)

/-- What `default_check` does with its five pages while the free list is hidden -/
def defaultHidden (fuel p0 : ℕ) : Check ℕ := do
  freePages fuel (p0 + 2) 3
  allocNull fuel 4
  let area ← get
  assert (pageProperty (area.pages (p0 + 2)) ∧ (area.pages (p0 + 2)).property = 3)
  let p1 ← allocSome fuel 3
  allocNull fuel 1
  assert (p0 + 2 = p1)
  let p2 := p0 + 1
  freePages fuel p0 1
  freePages fuel p1 3
  let area ← get
  assert (pageProperty (area.pages p0) ∧ (area.pages p0).property = 1)
  assert (pageProperty (area.pages p1) ∧ (area.pages p1).property = 3)
  let page ← allocPages fuel 1
  assert (page = some (p2 - 1))
  freePages fuel (p2 - 1) 1
  let page ← allocPages fuel 2
  assert (page = some (p2 + 1))
  freePages fuel (p2 + 1) 2
  freePages fuel p2 1
  let p0 ← allocSome fuel 5
  allocNull fuel 1
  assert ((← get).nrFree = 0)
  return p0

def defaultCheck (fuel npage : ℕ) : Check Unit := do
  let area ← get
  let (count, total) ← countUp area fuel freeList (0, 0)
  -- an `int` is compared with a `size_t`
  assert (total.signExtend 64 = BitVec.ofNat 64 (defaultNrFreePages area))
  basicCheck fuel npage
  let p0 ← allocSome fuel 5
  assert (!pageProperty ((← get).pages p0))
  let store ← get
  emptyList
  assert (listEmpty (← get).links freeList)
  allocNull fuel 1
  setNrFree 0
  let p0 ← defaultHidden fuel p0
  setNrFree store.nrFree
  restoreList (store.links.next freeList) (store.links.prev freeList)
  freePages fuel p0 5
  let (count, total) ← countDown (← get) fuel freeList (count, total)
  assert (count = 0)
  assert (total = 0)

section Steps

variable {α : Type} {base n fuel page : ℕ} {area area' : FreeArea}

theorem Check.allocSome_eq (h : defaultAllocPages fuel area n = .ok (some page, area')) :
    allocSome fuel n area = .ok (page, area') := by
  change (defaultAllocPages fuel area n >>= _) = _
  rw [h]
  rfl

theorem Check.allocSome_null (h : defaultAllocPages fuel area n = .ok (none, area')) :
    allocSome fuel n area = .error .panic := by
  change (defaultAllocPages fuel area n >>= _) = _
  rw [h]
  rfl

theorem Check.allocNull_eq (h : defaultAllocPages fuel area n = .ok (none, area')) :
    allocNull fuel n area = .ok ((), area') := by
  change (defaultAllocPages fuel area n >>= _) = _
  rw [h]
  rfl

theorem Check.freePages_eq (h : defaultFreePages fuel area base n = .ok area') :
    freePages fuel base n area = .ok ((), area') := by
  rw [freePages, h]
  rfl

theorem Check.lift_eq {program : Except Fault α} {value : α} (h : program = .ok value) :
    (liftM program : Check α) area = .ok (value, area) := by
  rw [h]
  rfl

theorem Check.assert_eq {condition : Prop} [Decidable condition] (h : condition) :
    (liftM (assert condition) : Check Unit) area = .ok ((), area) :=
  Check.lift_eq (assert_of_true h)

end Steps

section Hidden

variable {limit fuel p0 p1 p2 : ℕ} {area : FreeArea}

/-- Two of the three releases go behind the list, and the pages come back in the same order. -/
theorem basicHidden_leads (h : Queued p0 limit area []) (hfirst : p0 < p1) (hsecond : p1 < p2)
    (hlimit : p2 < limit) (hfuel : 6 ≤ fuel) :
    Leads (basicHidden fuel p0 p1 p2) area (fun pages area' ↦ pages = (p0, p1, p2) ∧
      Queued p0 limit area' [] ∧
      ∀ saved, Windowed p0 limit saved area → Windowed p0 limit saved area') fun _ ↦ False := by
  have hnone : ∀ {area : FreeArea}, Queued p0 limit area [] →
      defaultAllocPages fuel area 1 = .ok (none, area) := fun h ↦
    defaultAllocPages_short one_pos (by rw [h.total]; exact one_pos)
  obtain ⟨area1, hcall1, hqueue1, hwindow1⟩ := h.release p0 1 fuel one_pos
    le_rfl (by omega) nofun (by decide) (by simp; omega)
  obtain ⟨area2, hcall2, hqueue2, hwindow2⟩ := hqueue1.release p1 1 fuel
    one_pos (by omega) (by omega) (by simp; omega) (by simp) (by simp; omega)
  obtain ⟨area3, hcall3, hqueue3, hwindow3⟩ := hqueue2.release p2 1 fuel
    one_pos (by omega) (by omega) (by simp; omega) (by simp) (by simp; omega)
  obtain ⟨area4, hcall4, hqueue4, hwindow4⟩ := hqueue3.alloc_first (show 0 < fuel by omega)
  obtain ⟨area5, hcall5, hqueue5, hwindow5⟩ := hqueue4.alloc_first (show 0 < fuel by omega)
  obtain ⟨area6, hcall6, hqueue6, hwindow6⟩ := hqueue5.alloc_first (show 0 < fuel by omega)
  obtain ⟨area7, hcall7, hqueue7, hwindow7⟩ := hqueue6.release p0 1 fuel
    one_pos le_rfl (by omega) nofun (by decide) (by simp; omega)
  obtain ⟨area8, hcall8, hqueue8, hwindow8⟩ := hqueue7.alloc_first (show 0 < fuel by omega)
  refine .step (Check.allocNull_eq (hnone h)) ?_
  refine .step (Check.freePages_eq hcall1) (.step (Check.freePages_eq hcall2) ?_)
  refine .step (Check.freePages_eq hcall3) ?_
  refine .step rfl (.step (Check.assert_eq hqueue3.total) ?_)
  refine .step (Check.allocSome_eq hcall4) (.step (Check.allocSome_eq hcall5) ?_)
  refine .step (Check.allocSome_eq hcall6) (.step (Check.allocNull_eq (hnone hqueue6)) ?_)
  refine .step (Check.freePages_eq hcall7) (.step rfl (.step (Check.assert_eq ?_) ?_))
  · simp [listEmpty, hqueue7.list.next_head]
  refine .step hcall8 (.step (Check.assert_eq rfl) ?_)
  refine .step (Check.allocNull_eq (hnone hqueue8)) ?_
  refine .step rfl (.step (Check.assert_eq hqueue8.total) ?_)
  refine .of_ok rfl ⟨rfl, hqueue8, fun saved hsaved ↦ ?_⟩
  exact hwindow8 _ (hwindow7 _ (hwindow6 _ (hwindow5 _ (hwindow4 _ (hwindow3 _ (hwindow2 _
    (hwindow1 _ hsaved)))))))

/-- A list of all that is free in a part of the page array is empty when nothing is. -/
theorem Spare.queued {lower limit : ℕ} (h : Spare lower limit area ∅) : Queued lower limit area [] := by
  have hwell := h.wellListed Separated.nil cover_nil
  refine .empty (fun page hpage hpage' ↦ ?_) h.unreserved hwell.ring hwell.total
  rw [Bool.eq_false_iff, ne_eq, hwell.heads page hpage hpage']
  simp

/-- One of the releases goes behind the list; the others go in order. -/
theorem defaultHidden_leads (h : Queued p0 (p0 + 5) area []) (hfuel : 6 ≤ fuel) :
    Leads (defaultHidden fuel p0) area (fun page area' ↦ page = p0 ∧ Queued p0 (p0 + 5) area' [] ∧
      ∀ saved, Windowed p0 (p0 + 5) saved area → Windowed p0 (p0 + 5) saved area') fun _ ↦ False := by
  have hsmall : p0 + 5 - p0 < 2 ^ 32 := by omega
  have hnone : ∀ {area : FreeArea}, Queued p0 (p0 + 5) area [] →
      defaultAllocPages fuel area 1 = .ok (none, area) := fun h ↦
    defaultAllocPages_short one_pos (by rw [h.total]; exact one_pos)
  -- three pages go to an empty list and come back
  obtain ⟨area1, hcall1, hqueue1, hwindow1⟩ := h.release (p0 + 2) 3 fuel
    (by decide) (by omega) (by omega) nofun (by decide) (by simp; omega)
  have hshort : defaultAllocPages fuel area1 4 = .ok (none, area1) :=
    defaultAllocPages_short (by decide) (by rw [hqueue1.total]; simp)
  obtain ⟨area2, hcall2, hqueue2, hwindow2⟩ := hqueue1.alloc_first (show 0 < fuel by omega)
  -- one page, and three pages behind it
  obtain ⟨area3, hcall3, hqueue3, hwindow3⟩ := hqueue2.release p0 1 fuel
    one_pos le_rfl (by omega) nofun (by decide) (by simp; omega)
  obtain ⟨area4, hcall4, hqueue4, hwindow4⟩ := hqueue3.release (p0 + 2) 3 fuel (by decide) (by omega)
    (by omega) (by simp) (by simp) (by simp; omega)
  obtain ⟨area5, hcall5, hqueue5, hwindow5⟩ := hqueue4.alloc_first (show 0 < fuel by omega)
  -- from here on the list is in order
  have hspare5 : Spare p0 (p0 + 5) area5 (Set.Ico (p0 + 2) (p0 + 5)) := hqueue5.spare hsmall
  obtain ⟨area6, hcall6, hspare6, -, hwindow6⟩ := hspare5.release p0 1 fuel
    one_pos (by omega) hsmall le_rfl (by omega)
    (Set.disjoint_left.mpr fun page hpage hfree ↦ by
      rw [Set.mem_Ico] at hpage hfree
      omega)
    (.inr ⟨p0 + 2, ⟨le_rfl, by omega⟩, by omega⟩)
  obtain ⟨area7, hcall7, hspare7, -, hwindow7⟩ := hspare6.alloc (p0 + 2) 2 fuel
    two_pos (by omega) ⟨fun page hpage ↦ .inl ⟨hpage.1, by have := hpage.2; omega⟩,
      fun start hrun ↦ by
      have hstart := hrun (a := start) ⟨le_rfl, by omega⟩
      have hnext := hrun (a := start + 1) ⟨by omega, by omega⟩
      simp only [Set.mem_union, Set.mem_Ico] at hstart hnext
      omega⟩
  have hspare7 : Spare p0 (p0 + 5) area7 {page | page = p0 ∨ page = p0 + 4} := by
    convert hspare7 using 1
    ext page
    simp only [Set.mem_sdiff, Set.mem_union, Set.mem_Ico, Set.mem_ofPred_eq]
    omega
  obtain ⟨area8, hcall8, hspare8, -, hwindow8⟩ :=
    hspare7.release (p0 + 2) 2 fuel two_pos (by omega) hsmall (by omega) (by omega)
    (Set.disjoint_left.mpr fun page hpage hfree ↦ by
      rw [Set.mem_Ico] at hpage
      rcases hfree with rfl | rfl <;> omega)
    (.inr ⟨p0 + 4, .inr rfl, by omega⟩)
  obtain ⟨area9, hcall9, hspare9, -, hwindow9⟩ :=
    hspare8.release (p0 + 1) 1 fuel one_pos (by omega) hsmall (by omega) (by omega)
    (Set.disjoint_left.mpr fun page hpage hfree ↦ by
      rw [Set.mem_Ico] at hpage
      rcases hfree with (rfl | rfl) | hfree
      · omega
      · omega
      · rw [Set.mem_Ico] at hfree
        omega)
    (.inr ⟨p0 + 4, .inl (.inr rfl), by omega⟩)
  have hspare9 : Spare p0 (p0 + 5) area9 (Set.Ico p0 (p0 + 5)) := by
    convert hspare9 using 1
    ext page
    simp only [Set.mem_union, Set.mem_Ico, Set.mem_ofPred_eq]
    omega
  obtain ⟨area10, hcall10, hspare10, -, hwindow10⟩ := hspare9.alloc p0 5 fuel (by decide) (by omega)
    ⟨fun page hpage ↦ hpage, fun start hrun ↦ (hrun (a := start) ⟨le_rfl, by omega⟩).1⟩
  rw [Set.sdiff_self] at hspare10
  have hfree : Spare p0 (p0 + 5) area10 ∅ := hspare10
  refine .step (Check.freePages_eq hcall1) (.step (Check.allocNull_eq hshort) ?_)
  refine .step rfl (.step (Check.assert_eq ⟨?_, ?_⟩) ?_)
  · exact (hqueue1.heads _ (by omega) (by omega)).mpr ⟨_, List.mem_cons_self, rfl⟩
  · exact hqueue1.property _ List.mem_cons_self
  refine .step (Check.allocSome_eq hcall2) (.step (Check.allocNull_eq (hnone hqueue2)) ?_)
  refine .step (Check.assert_eq rfl) (.step (Check.freePages_eq hcall3) ?_)
  refine .step (Check.freePages_eq hcall4) (.step rfl (.step (Check.assert_eq ⟨?_, ?_⟩) ?_))
  · exact (hqueue4.heads _ le_rfl (by omega)).mpr ⟨_, List.mem_cons_self, rfl⟩
  · exact hqueue4.property _ List.mem_cons_self
  refine .step (Check.assert_eq ⟨?_, ?_⟩) ?_
  · exact (hqueue4.heads _ (by simp) (by simp)).mpr
      ⟨_, List.mem_cons_of_mem _ List.mem_cons_self, rfl⟩
  · exact hqueue4.property _ (List.mem_cons_of_mem _ List.mem_cons_self)
  refine .step hcall5 (.step (Check.assert_eq rfl) (.step (Check.freePages_eq hcall6) ?_))
  refine .step hcall7 (.step (Check.assert_eq rfl) (.step (Check.freePages_eq hcall8) ?_))
  refine .step (Check.freePages_eq hcall9) (.step (Check.allocSome_eq hcall10) ?_)
  refine .step (Check.allocNull_eq (hnone hfree.queued)) ?_
  refine .step rfl (.step (Check.assert_eq hfree.nrFree_of_empty) ?_)
  refine .of_ok rfl ⟨rfl, hfree.queued, fun saved hsaved ↦ ?_⟩
  exact hwindow10 _ (hwindow9 _ (hwindow8 _ (hwindow7 _ (hwindow6 _ (hwindow5 _ (hwindow4 _ (hwindow3 _
    (hwindow2 _ (hwindow1 _ hsaved)))))))))

end Hidden

section Hide

variable {lower limit lo hi : ℕ} {store area saved : FreeArea} {free : Set ℕ}

/-- The free list and the counter as the tests set them aside -/
def hide (area : FreeArea) : FreeArea :=
  { area with links := listInit area.links freeList, nrFree := 0 }

/-- The free list and the counter of `store` are put back. -/
def unhide (store area : FreeArea) : FreeArea :=
  { area with
    links := (area.links.setNext freeList (store.links.next freeList)).setPrev freeList
      (store.links.prev freeList)
    nrFree := store.nrFree }

theorem windowed_hide : Windowed lo hi area (hide area) where
  links node hnode := by
    have hne : node ≠ freeList := by
      rintro rfl
      exact hnode trivial
    exact ⟨listInit_next_of_ne hne, listInit_prev_of_ne hne⟩
  pages _ _ := rfl

theorem Spare.hide (h : Spare lower limit area free) (hlo : lower ≤ lo) (hhi : hi ≤ limit)
    (hnone : ∀ page, lo ≤ page → page < hi → page ∉ free) : Queued lo hi (hide area) [] := by
  obtain ⟨blocks, hwell, rfl⟩ := h.listed
  refine .empty (fun page hpage hpage' ↦ ?_)
    (fun page hpage hpage' ↦ h.unreserved page (hlo.trans hpage) (hpage'.trans_le hhi))
    Ring.listInit rfl
  change pageProperty (area.pages page) = false
  rw [Bool.eq_false_iff, ne_eq, hwell.heads page (hlo.trans hpage) (hpage'.trans_le hhi)]
  rintro ⟨block, hblock, rfl⟩
  have hsize := hwell.separated.nonempty block hblock
  refine hnone block.start hpage hpage' ⟨block, hblock, le_rfl, ?_⟩
  rw [Block.stop_eq]
  omega

/-- What was done to pages that are not free left the hidden list alone. -/
theorem Spare.unhide (h : Spare lower limit store free)
    (hnone : ∀ page, lo ≤ page → page < hi → page ∉ free) (hqueue : Queued lo hi area [])
    (hwindow : Windowed lo hi store area) : Spare lower limit (unhide store area) free := by
  obtain ⟨blocks, hwell, rfl⟩ := h.listed
  have hstart : ∀ block ∈ blocks, ¬ (lo ≤ block.start ∧ block.start < hi) := by
    intro block hblock hin
    have hsize := hwell.separated.nonempty block hblock
    refine hnone block.start hin.1 hin.2 ⟨block, hblock, le_rfl, ?_⟩
    rw [Block.stop_eq]
    omega
  have hlinks : ∀ block ∈ blocks, headLink block ∉ pageWindow lo hi := fun block hblock hin ↦
    hstart block hblock hin
  refine ⟨⟨blocks, ⟨⟨?_, ?_, ?_⟩, hwell.inside, hwell.separated, hwell.total, hwell.small⟩, rfl⟩, ?_, ?_⟩
  · refine hwell.ring.congr (fun node hnode ↦ ?_) fun node hnode ↦ ?_
    all_goals
      rcases List.mem_cons.mp hnode with rfl | hmember
      · simp [Ucore.unhide]
      · obtain ⟨block, hblock, rfl⟩ := List.mem_map.mp hmember
        simp [Ucore.unhide, hwindow.links _ (hlinks block hblock)]
  · intro block hblock
    rw [← hwell.property block hblock, ← hwindow.pages block.start (hstart block hblock)]
    rfl
  · intro page hpage hpage'
    by_cases hin : lo ≤ page ∧ page < hi
    · have hfalse : ¬ ∃ block ∈ blocks, block.start = page := by
        rintro ⟨block, hblock, rfl⟩
        exact hstart block hblock hin
      change pageProperty (area.pages page) = true ↔ _
      rw [hqueue.heads page hin.1 hin.2]
      simpa using hfalse
    · rw [← hwell.heads page hpage hpage', ← hwindow.pages page hin]
      rfl
  · intro page hpage hpage'
    by_cases hin : lo ≤ page ∧ page < hi
    · exact hqueue.unreserved page hin.1 hin.2
    · rw [← h.unreserved page hpage hpage', ← hwindow.pages page hin]
      rfl
  · intro page hpage
    have hout : ¬ (lo ≤ page ∧ page < hi) := fun hin ↦ hnone page hin.1 hin.2 hpage
    rw [← h.ref page hpage, ← hwindow.pages page hout]
    rfl

theorem Windowed.unhide (h : Windowed lower limit saved store) (hwindow : Windowed lo hi store area)
    (hlo : lower ≤ lo) (hhi : hi ≤ limit) : Windowed lower limit saved (unhide store area) where
  links node hnode := by
    have hne : node ≠ freeList := by
      rintro rfl
      exact hnode trivial
    have hout : node ∉ pageWindow lo hi := by
      intro hin
      cases node with
      | freeList => exact hne rfl
      | pageLink page => exact hnode ⟨hlo.trans hin.1, hin.2.trans_le hhi⟩
    simp only [Ucore.unhide, Links.setPrev_next, Links.setNext_next, Links.setPrev_prev,
      Links.setNext_prev, if_neg hne]
    rw [(hwindow.links node hout).1, (hwindow.links node hout).2]
    exact h.links node hnode
  pages page hpage := by
    have hout : ¬ (lo ≤ page ∧ page < hi) := by omega
    exact (hwindow.pages page hout).trans (h.pages page hpage)

end Hide

section BasicCheck

variable {lower limit fuel npage page p0 p1 p2 : ℕ} {area : FreeArea} {free : Set ℕ}

/-- The three lowest pages of a set -/
structure Lowest (free : Set ℕ) (p0 p1 p2 : ℕ) : Prop where
  first : IsLeast free p0
  second : IsLeast (free \ {p0}) p1
  third : IsLeast ((free \ {p0}) \ {p1}) p2

theorem Lowest.lt (h : Lowest free p0 p1 p2) : p0 < p1 ∧ p1 < p2 := by
  obtain ⟨hfree1, hne1⟩ := h.second.1
  obtain ⟨hfree2, hne2⟩ := h.third.1
  have hle1 := h.first.2 hfree1
  have hle2 := h.second.2 hfree2
  simp only [Set.mem_singleton_iff] at hne1 hne2
  omega

theorem exists_isLeast_of_mem (hpage : page ∈ free) : ∃ least, IsLeast free least := by
  classical
  exact ⟨Nat.find ⟨page, hpage⟩, Nat.find_spec ⟨page, hpage⟩, fun other hother ↦ Nat.find_min' _ hother⟩

theorem Ico_singleton (page : ℕ) : Set.Ico page (page + 1) = {page} := by
  ext other
  rw [Set.mem_Ico, Set.mem_singleton_iff]
  omega

theorem Spare.alloc_page (h : Spare lower limit area free) (hfuel : limit - lower < fuel)
    (hpage : IsLeast free page) :
    ∃ area', defaultAllocPages fuel area 1 = .ok (some page, area') ∧
      Spare lower limit area' (free \ {page}) ∧
      (∀ other, (area'.pages other).ref = (area.pages other).ref) ∧
      ∀ saved, Windowed lower limit saved area → Windowed lower limit saved area' := by
  have hrun : IsLeast {start | Set.Ico start (start + 1) ⊆ free} page := by
    simpa only [Ico_singleton, Set.singleton_subset_iff, Set.ofPred_mem_eq] using hpage
  rw [← Ico_singleton]
  exact h.alloc page 1 fuel one_pos hfuel hrun

theorem Spare.release_page (h : Spare lower limit area free) (page fuel : ℕ)
    (hfuel : limit - lower < fuel)
    (hsmall : limit - lower < 2 ^ 32) (hlower : lower ≤ page) (hupper : page < limit)
    (hpage : page ∉ free) (habove : ∃ other ∈ free, page < other) :
    ∃ area', defaultFreePages fuel area page 1 = .ok area' ∧
      Spare lower limit area' (insert page free) ∧
      ∀ saved, Windowed lower limit saved area → Windowed lower limit saved area' := by
  obtain ⟨area', hcall, hspare, -, hwindow⟩ := h.release page 1 fuel one_pos hfuel hsmall hlower hupper
    (by rwa [Ico_singleton, Set.disjoint_singleton_left]) (.inr habove)
  rw [Ico_singleton, Set.union_singleton] at hspare
  exact ⟨area', hcall, hspare, hwindow⟩

theorem basicCheck_panics (h : Spare lower limit area free) (hfuel : limit - lower < fuel)
    (hfew : ¬ ∃ p0 p1 p2, Lowest free p0 p1 p2) :
    Leads (basicCheck fuel npage) area (fun _ _ ↦ False) (· = .panic) := by
  have hnull : ∀ {area : FreeArea}, Spare lower limit area ∅ →
      defaultAllocPages fuel area 1 = .ok (none, area) := fun h ↦
    h.alloc_none one_pos hfuel fun start hrun ↦ hrun (a := start) ⟨le_rfl, by omega⟩
  rcases free.eq_empty_or_nonempty with rfl | ⟨page, hpage⟩
  · exact .fault_step (Check.allocSome_null (hnull h)) rfl
  obtain ⟨p0, hp0⟩ := exists_isLeast_of_mem hpage
  obtain ⟨area1, hcall1, hspare1, -⟩ := h.alloc_page hfuel hp0
  refine .step (Check.allocSome_eq hcall1) ?_
  rcases (free \ {p0}).eq_empty_or_nonempty with hempty | ⟨page, hpage⟩
  · rw [hempty] at hspare1
    exact .fault_step (Check.allocSome_null (hnull hspare1)) rfl
  obtain ⟨p1, hp1⟩ := exists_isLeast_of_mem hpage
  obtain ⟨area2, hcall2, hspare2, -⟩ := hspare1.alloc_page hfuel hp1
  refine .step (Check.allocSome_eq hcall2) ?_
  rcases ((free \ {p0}) \ {p1}).eq_empty_or_nonempty with hempty | ⟨page, hpage⟩
  · rw [hempty] at hspare2
    exact .fault_step (Check.allocSome_null (hnull hspare2)) rfl
  obtain ⟨p2, hp2⟩ := exists_isLeast_of_mem hpage
  exact absurd ⟨p0, p1, p2, hp0, hp1, hp2⟩ hfew

/-- Where three pages are free `basic_check` returns. It restores the list unless these three were all
that is free. -/
theorem basicCheck_leads (h : Spare lower limit area free) (hsmall : limit - lower < 2 ^ 32)
    (hpages : ∀ page < limit, page2pa page < npage * PGSIZE % 2 ^ 64)
    (hfuel : limit - lower + 6 < fuel) (hlowest : Lowest free p0 p1 p2) :
    Leads (basicCheck fuel npage) area (fun _ area' ↦
      ((∃ page ∈ free, p2 < page) → Spare lower limit area' free ∧
        ∀ saved, Windowed lower limit saved area → Windowed lower limit saved area') ∧
      ((∀ page ∈ free, page ≤ p2) → area'.nrFree = 3)) fun _ ↦ False := by
  obtain ⟨hlt1, hlt2⟩ := hlowest.lt
  have hfree0 : p0 ∈ free := hlowest.first.1
  have hfree1 : p1 ∈ free := hlowest.second.1.1
  have hfree2 : p2 ∈ free := hlowest.third.1.1.1
  have hin0 := h.lt_limit hfree0
  have hin1 := h.lt_limit hfree1
  have hin2 := h.lt_limit hfree2
  obtain ⟨area1, hcall1, hspare1, href1, hwindow1⟩ :=
    h.alloc_page (show limit - lower < fuel by omega) hlowest.first
  obtain ⟨area2, hcall2, hspare2, href2, hwindow2⟩ :=
    hspare1.alloc_page (show limit - lower < fuel by omega)
    hlowest.second
  obtain ⟨area3, hcall3, hspare3, href3, hwindow3⟩ :=
    hspare2.alloc_page (show limit - lower < fuel by omega)
    hlowest.third
  have href : ∀ page ∈ free, (area3.pages page).ref = 0 := fun page hpage ↦
    (href3 page).trans ((href2 page).trans ((href1 page).trans (h.ref page hpage)))
  have hnone : ∀ page, p0 ≤ page → page < p2 + 1 → page ∉ ((free \ {p0}) \ {p1}) \ {p2} := by
    rintro page - hpage ⟨hrest, hne⟩
    have hle := hlowest.third.2 hrest
    rw [Set.mem_singleton_iff] at hne
    omega
  have hhidden := hspare3.hide hin0.1 hin2.2 hnone
  refine .step (Check.allocSome_eq hcall1) (.step (Check.allocSome_eq hcall2) ?_)
  refine .step (Check.allocSome_eq hcall3) (.step (Check.assert_eq (by omega)) (.step rfl ?_))
  refine .step (Check.assert_eq ⟨href p0 hfree0, href p1 hfree1, href p2 hfree2⟩) ?_
  refine .step (Check.assert_eq (hpages p0 hin0.2)) (.step (Check.assert_eq (hpages p1 hin1.2)) ?_)
  refine .step (Check.assert_eq (hpages p2 hin2.2)) (.step rfl (.step rfl (.step rfl ?_)))
  refine .step (Check.assert_eq ?_) (.step rfl ?_)
  · exact (hhidden.list.ring_nil).listEmpty_iff.mpr rfl
  refine .bind ((basicHidden_leads hhidden hlt1 hlt2 (by omega) (by omega)).mono ?_)
  rintro _ area4 ⟨rfl, hqueue, hwindow⟩
  have hspare5 := hspare3.unhide hnone hqueue (hwindow _ windowed_hide)
  refine .step rfl (.step rfl ?_)
  change Leads _ (unhide area3 area4) _ _
  by_cases hmore : ∃ page ∈ free, p2 < page
  · obtain ⟨page, hpage, hlt⟩ := hmore
    have habove : page ∈ ((free \ {p0}) \ {p1}) \ {p2} := by
      simp only [Set.mem_sdiff, Set.mem_singleton_iff]
      exact ⟨⟨⟨hpage, by omega⟩, by omega⟩, by omega⟩
    obtain ⟨area6, hcall6, hspare6, hwindow6⟩ := hspare5.release_page p0 fuel
      (by omega) hsmall hin0.1 hin0.2 (by simp) ⟨page, habove, by omega⟩
    obtain ⟨area7, hcall7, hspare7, hwindow7⟩ := hspare6.release_page p1 fuel
      (by omega) hsmall hin1.1 hin1.2 (by simp [hlt1.ne']) ⟨page, .inr habove, by omega⟩
    obtain ⟨area8, hcall8, hspare8, hwindow8⟩ := hspare7.release_page p2 fuel
      (by omega) hsmall hin2.1 hin2.2 (by simp [hlt2.ne', (hlt1.trans hlt2).ne'])
      ⟨page, .inr (.inr habove), by omega⟩
    have hcover : insert p2 (insert p1 (insert p0 (((free \ {p0}) \ {p1}) \ {p2}))) = free := by
      ext other
      simp only [Set.mem_insert_iff, Set.mem_sdiff, Set.mem_singleton_iff]
      constructor
      · rintro (rfl | rfl | rfl | hother)
        · exact hfree2
        · exact hfree1
        · exact hfree0
        · exact hother.1.1.1
      · intro hother
        tauto
    refine .step (Check.freePages_eq hcall6) (.step (Check.freePages_eq hcall7) ?_)
    refine .of_ok (Check.freePages_eq hcall8) ⟨fun _ ↦ ⟨hcover ▸ hspare8, fun saved hsaved ↦ ?_⟩, ?_⟩
    · have hstore := hwindow3 _ (hwindow2 _ (hwindow1 _ hsaved))
      exact hwindow8 _ (hwindow7 _ (hwindow6 _
        (hstore.unhide (hwindow _ windowed_hide) hin0.1 hin2.2)))
    · intro hall
      exact absurd (hall page hpage) hlt.not_ge
  · have hempty : ((free \ {p0}) \ {p1}) \ {p2} = ∅ := by
      refine Set.eq_empty_iff_forall_notMem.mpr fun page hpage ↦ hmore ⟨page, hpage.1.1.1, ?_⟩
      exact lt_of_le_of_ne (hlowest.third.2 hpage.1) (Ne.symm hpage.2)
    rw [hempty] at hspare5
    obtain ⟨area6, hcall6, hqueue6, -⟩ := hspare5.queued.release p0 1 fuel
      one_pos hin0.1 hin0.2 nofun (by simp) (by simp; omega)
    obtain ⟨area7, hcall7, hqueue7, -⟩ := hqueue6.release p1 1 fuel
      one_pos hin1.1 hin1.2 (by simp; omega) (by simp) (by simp; omega)
    obtain ⟨area8, hcall8, hqueue8, -⟩ := hqueue7.release p2 1 fuel
      one_pos hin2.1 hin2.2 (by simp; omega) (by simp) (by simp; omega)
    refine .step (Check.freePages_eq hcall6) (.step (Check.freePages_eq hcall7) ?_)
    exact .of_ok (Check.freePages_eq hcall8) ⟨fun hmore' ↦ absurd hmore' hmore, fun _ ↦ hqueue8.total⟩

end BasicCheck

section Counts

variable {lower limit fuel : ℕ} {area area' : FreeArea} {pre post blocks : List Block}

theorem countUp_eq (counts : BitVec 32 × BitVec 32) (h : WellListed lower limit area (pre ++ post))
    (hfuel : post.length < fuel) :
    countUp area fuel ((pre.map headLink).getLast?.getD freeList) counts =
      .ok (counts.1 + BitVec.ofNat 32 post.length,
        counts.2 + BitVec.ofNat 32 (post.map Block.size).sum) := by
  induction post generalizing pre fuel counts with
  | nil =>
    obtain ⟨fuel, rfl⟩ := Nat.exists_eq_add_one_of_ne_zero (Nat.ne_zero_of_lt hfuel)
    have hring : Ring area.links freeList (pre.map headLink ++ []) := by simpa using h.ring
    rw [countUp, hring.next_before]
    simp
  | cons block post ih =>
    obtain ⟨fuel, rfl⟩ := Nat.exists_eq_add_one_of_ne_zero (Nat.ne_zero_of_lt hfuel)
    have hring : Ring area.links freeList (pre.map headLink ++ headLink block :: post.map headLink) := by
      simpa using h.ring
    have hmem : block ∈ pre ++ block :: post := List.mem_append_right _ List.mem_cons_self
    have hinside := h.inside block hmem
    have hsize := h.separated.nonempty block hmem
    rw [Block.stop_eq] at hinside
    have hhead : pageProperty (area.pages block.start) = true :=
      (h.heads block.start hinside.1 (by omega)).mpr ⟨block, hmem, rfl⟩
    have hsplit : WellListed lower limit area ((pre ++ [block]) ++ post) := by simpa using h
    have hrest := ih (counts.1 + 1, counts.2 + BitVec.ofNat 32 block.size) hsplit
      (show post.length < fuel by simpa using hfuel)
    simp only [List.map_append, List.map_cons, List.map_nil, List.getLast?_append,
      List.getLast?_singleton, Option.some_or, Option.getD_some] at hrest
    rw [countUp, hring.next_before]
    simp only [List.head?_cons, Option.getD_some, assert_of_true hhead, ok_bind, h.property block hmem,
      hrest, List.length_cons, List.map_cons, List.sum_cons, BitVec.ofNat_add]
    rw [BitVec.add_assoc, BitVec.add_assoc, BitVec.add_comm 1]
    rfl

theorem countUp_all (h : WellListed lower limit area blocks) (hfuel : blocks.length < fuel) :
    countUp area fuel freeList (0, 0) =
      .ok (BitVec.ofNat 32 blocks.length, BitVec.ofNat 32 (blocks.map Block.size).sum) := by
  have hcounts := countUp_eq (0, 0) (show WellListed lower limit area ([] ++ blocks) from h) hfuel
  simpa using hcounts

/-- Only `next` and the sizes are read. -/
theorem countDown_congr {counts : BitVec 32 × BitVec 32}
    (hnext : area'.links.next = area.links.next) (hpages : area'.pages = area.pages)
    (le : ListEntry) : countDown area' fuel le counts = countDown area fuel le counts := by
  induction fuel generalizing le counts with
  | zero => rfl
  | succ fuel ih =>
    rw [countDown, countDown, hnext, hpages]
    split
    · rfl
    · exact ih _

theorem countDown_eq (counts : BitVec 32 × BitVec 32) (h : Threaded lower limit area (pre ++ post))
    (hfuel : post.length < fuel) :
    countDown area fuel ((pre.map headLink).getLast?.getD freeList) counts =
      .ok (counts.1 - BitVec.ofNat 32 post.length,
        counts.2 - BitVec.ofNat 32 (post.map Block.size).sum) := by
  induction post generalizing pre fuel counts with
  | nil =>
    obtain ⟨fuel, rfl⟩ := Nat.exists_eq_add_one_of_ne_zero (Nat.ne_zero_of_lt hfuel)
    have hring : Ring area.links freeList (pre.map headLink ++ []) := by simpa using h.ring
    rw [countDown, hring.next_before]
    simp
  | cons block post ih =>
    obtain ⟨fuel, rfl⟩ := Nat.exists_eq_add_one_of_ne_zero (Nat.ne_zero_of_lt hfuel)
    have hring : Ring area.links freeList (pre.map headLink ++ headLink block :: post.map headLink) := by
      simpa using h.ring
    have hmem : block ∈ pre ++ block :: post := List.mem_append_right _ List.mem_cons_self
    have hsplit : Threaded lower limit area ((pre ++ [block]) ++ post) := by simpa using h
    have hrest := ih (counts.1 - 1, counts.2 - BitVec.ofNat 32 block.size) hsplit
      (show post.length < fuel by simpa using hfuel)
    simp only [List.map_append, List.map_cons, List.map_nil, List.getLast?_append,
      List.getLast?_singleton, Option.some_or, Option.getD_some] at hrest
    rw [countDown, hring.next_before]
    simp only [List.head?_cons, Option.getD_some, h.property block hmem, hrest, List.length_cons,
      List.map_cons, List.sum_cons, BitVec.ofNat_add]
    rw [BitVec.add_comm (BitVec.ofNat 32 post.length)]
    simp only [BitVec.sub_eq_add_neg, BitVec.neg_add, BitVec.add_assoc]
    rfl

theorem countDown_all (h : Threaded lower limit area blocks) (hfuel : blocks.length < fuel) :
    countDown area fuel freeList
      (BitVec.ofNat 32 blocks.length, BitVec.ofNat 32 (blocks.map Block.size).sum) = .ok (0, 0) := by
  have hcounts := countDown_eq
    (BitVec.ofNat 32 blocks.length, BitVec.ofNat 32 (blocks.map Block.size).sum)
    (show Threaded lower limit area ([] ++ blocks) from h) hfuel
  simpa using hcounts

/-- A total below `2^31` survives the comparison of an `int` with a `size_t`. -/
theorem signExtend_total {total : ℕ} (h : total < 2 ^ 31) :
    (BitVec.ofNat 32 total).signExtend 64 = BitVec.ofNat 64 total := by
  have hmsb : (BitVec.ofNat 32 total).msb = false := by
    rw [BitVec.msb_eq_false_iff_two_mul_lt, BitVec.toNat_ofNat]
    omega
  rw [BitVec.signExtend_eq_setWidth_of_msb_false hmsb]
  apply BitVec.eq_of_toNat_eq
  rw [BitVec.toNat_setWidth, BitVec.toNat_ofNat, BitVec.toNat_ofNat]
  omega

end Counts

section DefaultCheck

variable {lower limit fuel npage n page : ℕ} {area taken : FreeArea} {free : Set ℕ}

theorem Spare.reserved_eq {area' : FreeArea} {free' : Set ℕ} (h : Spare lower limit area free)
    (h' : Spare lower limit area' free') (hwindow : Windowed lower limit area area') (page : ℕ) :
    pageReserved (area'.pages page) = pageReserved (area.pages page) := by
  by_cases hin : lower ≤ page ∧ page < limit
  · rw [h.unreserved page hin.1 hin.2, h'.unreserved page hin.1 hin.2]
  · rw [hwindow.pages page hin]

/-- Giving back the lowest run restores what a walk sees, also where the run goes behind the list. -/
theorem Spare.restore (h : Spare lower limit area free)
    (htaken : Spare lower limit taken (free \ Set.Ico page (page + n)))
    (hwindow : Windowed lower limit area taken) (hn : 0 < n)
    (hpage : IsLeast {start | Set.Ico start (start + n) ⊆ free} page)
    (hsmall : limit - lower < 2 ^ 32) (hfuel : limit - lower + 1 < fuel) :
    ∃ area' threaded blocks, WellListed lower limit area blocks ∧
      defaultFreePages fuel taken page n = .ok area' ∧ Restored lower limit area area' ∧
      Threaded lower limit threaded blocks ∧ area'.links.next = threaded.links.next ∧
      area'.pages = threaded.pages := by
  obtain ⟨blocks, hwell, rfl⟩ := h.listed
  obtain ⟨blocks', hwell', hcover'⟩ := htaken.listed
  have hfirst : page ∈ cover blocks := hpage.1 ⟨le_rfl, by omega⟩
  have hlast : page + (n - 1) ∈ cover blocks := hpage.1 ⟨by omega, by omega⟩
  have hlower := (h.lt_limit hfirst).1
  have hupper : page + n ≤ limit := by
    have := (h.lt_limit hlast).2
    omega
  have hapart : Disjoint (Set.Ico page (page + n)) (cover blocks \ Set.Ico page (page + n)) :=
    Set.disjoint_sdiff_right
  have hunion : (cover blocks \ Set.Ico page (page + n)) ∪ Set.Ico page (page + n) = cover blocks :=
    Set.sdiff_union_of_subset hpage.1
  by_cases hinside : cover blocks \ Set.Ico page (page + n) = ∅ ∨
      ∃ other ∈ cover blocks \ Set.Ico page (page + n), page < other
  · obtain ⟨area', hcall, hspare, -, hkept⟩ :=
      htaken.release page n fuel hn (by omega) hsmall hlower hupper hapart hinside
    rw [hunion] at hspare
    have hwell'' := hspare.wellListed hwell.separated rfl
    refine ⟨area', area', blocks, hwell, hcall, ?_, hwell''.toThreaded, rfl, rfl⟩
    refine .of_threaded hwell hwell''.toThreaded rfl rfl (hwell''.total.trans hwell.total.symm) ?_
    exact fun other ↦ h.reserved_eq hspare (hkept _ hwindow) other
  · rw [not_or, not_exists] at hinside
    rw [← hcover'] at hinside hapart
    have hbeside : ∀ block ∈ blocks', block.stop ≤ page ∨ page + n ≤ block.start := by
      intro block hblock
      have hcells : block.cells ⊆ cover blocks' := fun cell hcell ↦ ⟨block, hblock, hcell⟩
      have hdisjoint : Disjoint (Block.cells ⟨page, n⟩) block.cells := hapart.mono_right hcells
      exact (Block.apart_of_disjoint hdisjoint hn (hwell'.separated.nonempty block hblock)).symm
    have hbehind : ∀ block ∈ blocks', ¬ page < block.start := by
      intro block hblock hlt
      have hsize := hwell'.separated.nonempty block hblock
      refine hinside.2 block.start ⟨⟨block, hblock, le_rfl, ?_⟩, hlt⟩
      rw [Block.stop_eq]
      omega
    have hunreserved : ∀ other, page ≤ other → other < page + n →
        pageReserved (taken.pages other) = false := fun other hlo hhi ↦
      htaken.unreserved other (hlower.trans hlo) (hhi.trans_le hupper)
    have hroom : taken.nrFree + n < 2 ^ 32 := by
      rw [hwell'.total]
      exact (hwell'.separated.sum_size_add_le hn hbeside hwell'.inside hlower hupper).trans_lt hsmall
    have hne : blocks' ≠ [] := by
      rintro rfl
      exact hinside.1 cover_nil
    obtain ⟨single, hring, hcall⟩ := hwell'.defaultFreePages_behind hbeside hn ⟨hlower, hupper⟩
      hunreserved hroom hne hbehind (show blocks'.length + 1 < fuel by
        have hlength := hwell'.length_le
        omega)
    have hthreaded := hwell'.threaded_released hbeside hn hroom (List.append_nil _).symm hring
    have hbelow : ∀ left ∈ blocks', left.stop < page := by
      intro left hleft
      have hsize := hwell'.separated.nonempty left hleft
      have hle : left.stop ≤ page := (hbeside left hleft).resolve_right fun hge ↦
        hbehind left hleft (by omega)
      refine lt_of_le_of_ne hle fun heq ↦ ?_
      -- else the run could start one page lower
      have hstop := left.stop_eq
      have hprevious : page - 1 ∈ cover blocks := by
        rw [← hunion, ← hcover']
        exact .inl ⟨left, hleft, by rw [Block.mem_cells]; omega⟩
      have hrun : Set.Ico (page - 1) (page - 1 + n) ⊆ cover blocks := by
        intro cell hcell
        rw [Set.mem_Ico] at hcell
        by_cases heq' : cell = page - 1
        · rw [heq']
          exact hprevious
        · exact hpage.1 ⟨by omega, by omega⟩
      have hmin := hpage.2 hrun
      omega
    have hseparated : Separated (blocks' ++ [⟨page, n⟩]) :=
      Separated.append_iff.mpr ⟨hwell'.separated, .singleton hn, fun left hleft right hright ↦ by
        rw [List.mem_singleton.mp hright]
        exact hbelow left hleft⟩
    have hblocks : blocks' ++ [⟨page, n⟩] = blocks := by
      apply hseparated.eq_of_cover_eq hwell.separated
      rw [cover_append, cover_cons, cover_nil, Set.union_empty, hcover']
      exact hunion
    rw [hblocks] at hthreaded
    refine ⟨_, _, blocks, hwell, hcall, ?_, hthreaded, listAdd_self_next, rfl⟩
    refine .of_threaded hwell hthreaded listAdd_self_next rfl ?_ fun other ↦ ?_
    · change uint32 (taken.nrFree + n) = area.nrFree
      rw [uint32_eq hroom, hwell.total, hwell'.total, ← hblocks]
      simp
    · exact (WellListed.releasedBlock_reserved hunreserved other).trans
        (h.reserved_eq htaken hwindow other)

end DefaultCheck

end Ucore
