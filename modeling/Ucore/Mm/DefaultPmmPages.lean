import Ucore.Foundation.Rings
import Ucore.Mm.DefaultPmmList

/-!
# The free list as a set of pages

`Spare lower limit area free` says that the list of `area` is in order and that its blocks cover the
pages `free`. On sets a call is short to state: an allocation takes the lowest run that is long
enough, and a release adds its range. A call writes to the list entries it can reach and to the
descriptors of its range; `Confined` keeps such writes inside a part of the page array.
-/

namespace Ucore

open Foundation ListEntry

/-! ## Writes inside a closed part of a list -/

/-- The nodes of `reach` lie in `window` and point to each other only; outside of `window` all links
are those of `saved`. -/
structure Confined {Node : Type} (window : Set Node) (saved links : Links Node) (reach : Set Node) :
    Prop where
  next : ∀ node ∈ reach, links.next node ∈ reach
  prev : ∀ node ∈ reach, links.prev node ∈ reach
  within : reach ⊆ window
  outside : ∀ node ∉ window, links.next node = saved.next node ∧ links.prev node = saved.prev node

namespace Confined

variable {Node : Type} [DecidableEq Node] {window reach : Set Node} {saved links : Links Node}
  {node elm prev next : Node}

/-- Linking in a node of the window between two nodes that are reached. -/
theorem linkIn (h : Confined window saved links reach) (hprev : prev ∈ reach) (hnext : next ∈ reach)
    (helm : elm ∈ window) :
    Confined window saved (__listAdd links elm prev next) (insert elm reach) where
  next other hother := by
    simp only [__listAdd, Links.setPrev_next, Links.setNext_next]
    split
    · exact .inr hnext
    · rename_i hne
      split
      · exact .inl rfl
      · exact .inr (h.next other (hother.resolve_left hne))
  prev other hother := by
    simp only [__listAdd, Links.setPrev_prev, Links.setNext_prev]
    split
    · exact .inr hprev
    · rename_i hne
      split
      · exact .inl rfl
      · exact .inr (h.prev other (hother.resolve_left hne))
  within := Set.insert_subset helm h.within
  outside other hother := by
    have hne : ∀ inner ∈ window, other ≠ inner := fun inner hinner heq ↦ hother (heq ▸ hinner)
    simp only [__listAdd, Links.setPrev_next, Links.setNext_next, Links.setPrev_prev,
      Links.setNext_prev, if_neg (hne elm helm), if_neg (hne prev (h.within hprev)),
      if_neg (hne next (h.within hnext))]
    exact h.outside other hother

theorem listAdd (h : Confined window saved links reach) (hnode : node ∈ reach) (helm : elm ∈ window) :
    Confined window saved (Ucore.listAdd links node elm) (insert elm reach) :=
  h.linkIn hnode (h.next node hnode) helm

theorem listAddBefore (h : Confined window saved links reach) (hnode : node ∈ reach)
    (helm : elm ∈ window) :
    Confined window saved (Ucore.listAddBefore links node elm) (insert elm reach) :=
  h.linkIn (h.prev node hnode) hnode helm

theorem listDel (h : Confined window saved links reach) (hnode : node ∈ reach) :
    Confined window saved (Ucore.listDel links node) reach := by
  have hnext := h.next node hnode
  have hprev := h.prev node hnode
  refine ⟨fun other hother ↦ ?_, fun other hother ↦ ?_, h.within, fun other hother ↦ ?_⟩
  · simp only [Ucore.listDel, __listDel, Links.setPrev_next, Links.setNext_next]
    split
    · exact hnext
    · exact h.next other hother
  · simp only [Ucore.listDel, __listDel, Links.setPrev_prev, Links.setNext_prev]
    split
    · exact hprev
    · exact h.prev other hother
  · have hne : ∀ inner ∈ reach, other ≠ inner := fun inner hinner heq ↦
      hother (heq ▸ h.within hinner)
    rw [listDel_next_of_ne (hne _ hprev), listDel_prev_of_ne (hne _ hnext)]
    exact h.outside other hother

omit [DecidableEq Node] in
/-- The members of a ring point to each other only. -/
theorem of_ring {head : Node} {members : List Node} (h : Ring links head members)
    (hwindow : ∀ node ∈ head :: members, node ∈ window)
    (houtside : ∀ node ∉ window,
      links.next node = saved.next node ∧ links.prev node = saved.prev node) :
    Confined window saved links {node | node ∈ head :: members} where
  next _ hnode := h.next_mem hnode
  prev _ hnode := (isCycle_cons.mpr h).prev_mem hnode
  within := hwindow
  outside := houtside

end Confined

/-! ## What a call writes -/

/-- The head of the list and the entries of the pages `lower, ..., limit - 1` -/
def pageWindow (lower limit : ℕ) : Set ListEntry
  | freeList => True
  | pageLink page => lower ≤ page ∧ page < limit

/-- Outside of a part of the page array `area` is as `saved`. -/
structure Windowed (lower limit : ℕ) (saved area : FreeArea) : Prop where
  links : ∀ node ∉ pageWindow lower limit,
    area.links.next node = saved.links.next node ∧ area.links.prev node = saved.links.prev node
  pages : ∀ page, ¬ (lower ≤ page ∧ page < limit) → area.pages page = saved.pages page

variable {lower limit base n fuel page : ℕ} {saved area area' : FreeArea} {free : Set ℕ}
  {reach : Set ListEntry}

theorem takePages_links (area : FreeArea) (page n : ℕ) : (takePages area page n).links =
    if n < (area.pages page).property then
      listAdd (listDel area.links (pageLink page)) (area.links.prev (pageLink page))
        (pageLink (page + n))
    else listDel area.links (pageLink page) := by
  by_cases hlt : n < (area.pages page).property <;> simp [takePages, hlt]

theorem updatePage_outside {f : Page → Page} (hpage : lower ≤ page ∧ page < limit)
    (hpages : ∀ other, ¬ (lower ≤ other ∧ other < limit) → area.pages other = saved.pages other)
    (other : ℕ) (hother : ¬ (lower ≤ other ∧ other < limit)) :
    (area.updatePage page f).pages other = saved.pages other := by
  have hne : other ≠ page := by
    rintro rfl
    exact hother hpage
  rw [FreeArea.updatePage_pages, if_neg hne]
  exact hpages other hother

namespace Windowed

theorem takePages (h : Windowed lower limit saved area)
    (hlinks : Confined (pageWindow lower limit) saved.links area.links reach)
    (hpage : pageLink page ∈ reach) (hn : 0 < n) (hle : n ≤ (area.pages page).property)
    (hstop : page + (area.pages page).property ≤ limit) :
    Windowed lower limit saved (Ucore.takePages area page n) := by
  have hinside : lower ≤ page ∧ page < limit := hlinks.within hpage
  refine ⟨?_, fun other hother ↦ ?_⟩
  · rw [takePages_links]
    split
    · have hrest : pageLink (page + n) ∈ pageWindow lower limit := ⟨by omega, by omega⟩
      exact ((hlinks.listDel hpage).listAdd (hlinks.prev _ hpage) hrest).outside
    · exact (hlinks.listDel hpage).outside
  · have hne : other ≠ page := by
      rintro rfl
      exact hother hinside
    rw [takePages_pages hn, if_neg hne, if_neg (by omega)]
    exact h.pages other hother

end Windowed

/-- A release keeps to the window while it merges, from the list that holds `base` on. -/
structure Merging (lower limit : ℕ) (saved area : FreeArea) (reach : Set ListEntry) (base : ℕ) :
    Prop where
  links : Confined (pageWindow lower limit) saved.links area.links reach
  pages : ∀ page, ¬ (lower ≤ page ∧ page < limit) → area.pages page = saved.pages page
  base : pageLink base ∈ reach

namespace Merging

theorem absorb {left right : ℕ} (h : Merging lower limit saved area reach base)
    (hleft : pageLink left ∈ reach) (hright : pageLink right ∈ reach) :
    Merging lower limit saved (Ucore.absorb area left right) reach left :=
  ⟨h.links.listDel hright,
    updatePage_outside (h.links.within hright) (updatePage_outside (h.links.within hleft) h.pages),
    hleft⟩

theorem mergePrev (h : Merging lower limit saved area reach base) :
    Merging lower limit saved (Ucore.mergePrev area base).1 reach (Ucore.mergePrev area base).2 := by
  have hprev := h.links.prev _ h.base
  unfold Ucore.mergePrev
  split
  · exact h
  · rename_i left heq
    rw [heq] at hprev
    split
    · exact h.absorb hprev h.base
    · exact h

theorem mergeNext (h : Merging lower limit saved area reach base) :
    Merging lower limit saved (Ucore.mergeNext area base) reach base := by
  have hnext := h.links.next _ h.base
  unfold Ucore.mergeNext
  split
  · exact h
  · rename_i right heq
    rw [heq] at hnext
    split
    · exact h.absorb h.base hnext
    · exact h

end Merging

theorem Confined.insertScan {links links' saved : Links ListEntry} {le : ListEntry}
    {window : Set ListEntry} (h : Confined window saved links reach) (hle : le ∈ reach)
    (hbase : pageLink base ∈ window)
    (hnonempty : links.next le ≠ freeList ∨ pageLink base ∈ reach)
    (hscan : insertScan base fuel links le = .ok links') :
    ∃ reach', Confined window saved links' reach' ∧ pageLink base ∈ reach' := by
  induction fuel generalizing links le reach with
  | zero => simp [Ucore.insertScan] at hscan
  | succ fuel ih =>
    have hnext := h.next le hle
    rw [Ucore.insertScan] at hscan
    split at hscan
    · rename_i heq
      obtain rfl := Except.ok.inj hscan
      exact ⟨reach, h, hnonempty.resolve_left fun hne ↦ hne heq⟩
    · rename_i page heq
      rw [heq] at hnext
      split at hscan
      · obtain rfl := Except.ok.inj hscan
        exact ⟨_, h.listAddBefore hnext hbase, .inl rfl⟩
      · split at hscan
        · exact ih (h.listAdd hnext hbase) (.inr hnext) (.inr (.inl rfl)) hscan
        · rename_i hmore
          exact ih h hnext (.inl hmore) hscan

theorem Confined.insertFree {links links' saved : Links ListEntry} {window : Set ListEntry}
    (h : Confined window saved links reach) (hhead : freeList ∈ reach)
    (hbase : pageLink base ∈ window) (hinsert : insertFree fuel links base = .ok links') :
    ∃ reach', Confined window saved links' reach' ∧ pageLink base ∈ reach' := by
  unfold Ucore.insertFree at hinsert
  split at hinsert
  · obtain rfl := Except.ok.inj hinsert
    exact ⟨_, h.listAdd hhead hbase, .inl rfl⟩
  · rename_i hmore
    have hnext : links.next freeList ≠ freeList := by simpa [listEmpty] using hmore
    exact h.insertScan hhead hbase (.inl hnext) hinsert

/-! ## The parts of a release that returns -/

theorem freeLoop_ok (h : freeLoop base n area = .ok area') : area' = released area base n := by
  have hclear : ∀ page, base ≤ page → page < base + n →
      pageReserved (area.pages page) = false ∧ pageProperty (area.pages page) = false := by
    induction n generalizing base area with
    | zero => intro page hlower hupper; omega
    | succ n ih =>
      obtain ⟨_, hassert, hrest⟩ := bind_eq_ok.mp h
      rw [assert_eq_ok, Bool.and_eq_true, Bool.not_eq_true', Bool.not_eq_true'] at hassert
      intro page hlower hupper
      by_cases heq : page = base
      · rw [heq]
        exact hassert
      · have hpage := ih hrest page (by omega) (by omega)
        rwa [FreeArea.updatePage_pages, if_neg heq] at hpage
  exact Except.ok.inj (h.symm.trans (freeLoop_eq hclear))

theorem defaultFreePages_parts (h : defaultFreePages fuel area base n = .ok area') :
    ∃ links', insertFree fuel area.links base = .ok links' ∧
      area' = mergeNext (mergePrev { releasedBlock area base n with links := links' } base).1
        (mergePrev { releasedBlock area base n with links := links' } base).2 := by
  obtain ⟨-, -, h⟩ := bind_eq_ok.mp h
  obtain ⟨looped, hloop, h⟩ := bind_eq_ok.mp h
  obtain rfl := freeLoop_ok hloop
  obtain ⟨links', hinsert, h⟩ := bind_eq_ok.mp h
  exact ⟨links', hinsert, (Except.ok.inj h).symm⟩

/-- A release writes to its range and to what the list reaches. -/
theorem Windowed.defaultFreePages (h : Windowed lower limit saved area)
    (hlinks : Confined (pageWindow lower limit) saved.links area.links reach)
    (hhead : freeList ∈ reach) (hn : 0 < n) (hlower : lower ≤ base) (hupper : base + n ≤ limit)
    (hcall : defaultFreePages fuel area base n = .ok area') : Windowed lower limit saved area' := by
  obtain ⟨links', hinsert, rfl⟩ := defaultFreePages_parts hcall
  have hbase : pageLink base ∈ pageWindow lower limit := ⟨hlower, by omega⟩
  obtain ⟨reach', hlinks', hreached⟩ := hlinks.insertFree hhead hbase hinsert
  have hreleased : Merging lower limit saved { releasedBlock area base n with links := links' }
      reach' base := by
    refine ⟨hlinks', fun page hpage ↦ ?_, hreached⟩
    have hne : page ≠ base := by
      rintro rfl
      exact hpage hbase
    have hout : ¬ (base ≤ page ∧ page < base + n) := by omega
    simp only [releasedBlock, FreeArea.updatePage_pages, if_neg hne, released, if_neg hout]
    exact h.pages page hpage
  have hmerged := hreleased.mergePrev.mergeNext
  exact ⟨hmerged.links.outside, hmerged.pages⟩

section Ref

theorem absorb_ref (area : FreeArea) (left right page : ℕ) :
    ((absorb area left right).pages page).ref = (area.pages page).ref := by
  simp only [absorb, FreeArea.updatePage_pages, clearPageProperty]
  split <;> split <;> simp_all

theorem mergePrev_ref (area : FreeArea) (base page : ℕ) :
    ((mergePrev area base).1.pages page).ref = (area.pages page).ref := by
  unfold mergePrev
  split
  · rfl
  · split
    · exact absorb_ref area _ base page
    · rfl

theorem mergeNext_ref (area : FreeArea) (base page : ℕ) :
    ((mergeNext area base).pages page).ref = (area.pages page).ref := by
  unfold mergeNext
  split
  · rfl
  · split
    · exact absorb_ref area base _ page
    · rfl

/-- The pages of the range lose their references. -/
theorem defaultFreePages_ref (h : defaultFreePages fuel area base n = .ok area') (page : ℕ) :
    (area'.pages page).ref =
      if base ≤ page ∧ page < base + n then 0 else (area.pages page).ref := by
  obtain ⟨links', -, rfl⟩ := defaultFreePages_parts h
  rw [mergeNext_ref, mergePrev_ref]
  simp only [releasedBlock, FreeArea.updatePage_pages, released, setPageProperty]
  split <;> split <;> rfl

theorem takePages_ref (hn : 0 < n) (area : FreeArea) (page other : ℕ) :
    ((takePages area page n).pages other).ref = (area.pages other).ref := by
  rw [takePages_pages hn]
  split
  · rename_i heq
    rw [heq]
    rfl
  · split <;> rfl

theorem defaultAllocPages_ref {result : Option ℕ} (hn : 0 < n)
    (h : defaultAllocPages fuel area n = .ok (result, area')) (page : ℕ) :
    (area'.pages page).ref = (area.pages page).ref := by
  rw [defaultAllocPages, assert_of_true hn, ok_bind] at h
  split at h
  · obtain ⟨-, rfl⟩ := Prod.mk.inj (Except.ok.inj h)
    rfl
  split at h
  · cases h
  · obtain ⟨-, rfl⟩ := Prod.mk.inj (Except.ok.inj h)
    exact takePages_ref hn area _ page
  · obtain ⟨-, rfl⟩ := Prod.mk.inj (Except.ok.inj h)
    rfl

end Ref

/-! ## Calls on the set of the free pages -/

/-- The blocks of the list cover the pages `free` of `[lower, limit)`, which nobody refers to. -/
structure Spare (lower limit : ℕ) (area : FreeArea) (free : Set ℕ) : Prop where
  listed : ∃ blocks, WellListed lower limit area blocks ∧ cover blocks = free
  unreserved : ∀ page, lower ≤ page → page < limit → pageReserved (area.pages page) = false
  ref : ∀ page ∈ free, (area.pages page).ref = 0

namespace WellListed

variable {blocks : List Block}

theorem cover_subset (h : WellListed lower limit area blocks) : cover blocks ⊆ Set.Ico lower limit := by
  rintro page ⟨block, hblock, hcell⟩
  have hinside := h.inside block hblock
  rw [Block.mem_cells] at hcell
  exact ⟨by omega, by omega⟩

theorem sum_le (h : WellListed lower limit area blocks) :
    (blocks.map Block.size).sum ≤ limit - lower := by
  cases blocks with
  | nil => exact Nat.zero_le _
  | cons first rest =>
    have hfirst := h.inside first List.mem_cons_self
    rw [Block.stop_eq] at hfirst
    exact h.separated.sum_size_le (by omega) h.inside

theorem length_le (h : WellListed lower limit area blocks) : blocks.length ≤ limit - lower := by
  have hsizes : (blocks.map Block.size).length ≤ (blocks.map Block.size).sum :=
    List.length_le_sum_of_one_le _ fun size hsize ↦ by
      obtain ⟨block, hblock, rfl⟩ := List.mem_map.mp hsize
      exact h.separated.nonempty block hblock
  rw [List.length_map] at hsizes
  exact hsizes.trans h.sum_le

theorem confined (h : WellListed lower limit area blocks) (hsaved : Windowed lower limit saved area) :
    Confined (pageWindow lower limit) saved.links area.links
      {node | node ∈ freeList :: blocks.map headLink} := by
  refine .of_ring h.ring (fun node hnode ↦ ?_) hsaved.links
  rcases List.mem_cons.mp hnode with rfl | hmember
  · trivial
  · obtain ⟨block, hblock, rfl⟩ := List.mem_map.mp hmember
    have hinside := h.inside block hblock
    have hsize := h.separated.nonempty block hblock
    rw [Block.stop_eq] at hinside
    exact ⟨hinside.1, by omega⟩

/-- Above a page that is not free, a free page lies in a block that starts above it. -/
theorem freesInside (h : WellListed lower limit area blocks) (hbase : base ∉ cover blocks)
    (hinside : cover blocks = ∅ ∨ ∃ page ∈ cover blocks, base < page) : FreesInside blocks base := by
  rcases hinside with hempty | ⟨page, ⟨block, hblock, hcell⟩, hlt⟩
  · left
    apply h.separated.eq_of_cover_eq Separated.nil
    rw [hempty, cover_nil]
  · right
    refine ⟨block, hblock, lt_of_not_ge fun hle ↦ hbase ⟨block, hblock, hle, ?_⟩⟩
    exact hlt.trans hcell.2

end WellListed

namespace Spare

theorem lt_limit (h : Spare lower limit area free) (hpage : page ∈ free) :
    lower ≤ page ∧ page < limit := by
  obtain ⟨blocks, hwell, rfl⟩ := h.listed
  exact hwell.cover_subset hpage

/-- The list is determined by the pages. -/
theorem wellListed {blocks : List Block} (h : Spare lower limit area free)
    (hblocks : Separated blocks) (hcover : cover blocks = free) :
    WellListed lower limit area blocks := by
  obtain ⟨others, hwell, rfl⟩ := h.listed
  rwa [hblocks.eq_of_cover_eq hwell.separated hcover]

theorem nrFree_of_empty (h : Spare lower limit area ∅) : area.nrFree = 0 :=
  (h.wellListed Separated.nil cover_nil).total

/-- No run is long enough: the request is turned down and nothing changes. -/
theorem alloc_none (h : Spare lower limit area free) (hn : 0 < n) (hfuel : limit - lower < fuel)
    (hnone : ∀ start, ¬ Set.Ico start (start + n) ⊆ free) :
    defaultAllocPages fuel area n = .ok (none, area) := by
  obtain ⟨blocks, hwell, rfl⟩ := h.listed
  rcases hwell.defaultAllocPages_spec hn (hwell.length_le.trans_lt hfuel) with
    ⟨-, hcall⟩ | ⟨pre, block, post, rfl, -, hle, -⟩
  · exact hcall
  · refine absurd (fun page hpage ↦ ?_) (hnone block.start)
    refine ⟨block, List.mem_append_right _ List.mem_cons_self, hpage.1, ?_⟩
    exact hpage.2.trans_le (Nat.add_le_add_left hle block.start)

/-- The lowest run that is long enough is taken. -/
theorem alloc (h : Spare lower limit area free) (page n fuel : ℕ) (hn : 0 < n)
    (hfuel : limit - lower < fuel)
    (hpage : IsLeast {start | Set.Ico start (start + n) ⊆ free} page) :
    ∃ area', defaultAllocPages fuel area n = .ok (some page, area') ∧
      Spare lower limit area' (free \ Set.Ico page (page + n)) ∧
      (∀ other, (area'.pages other).ref = (area.pages other).ref) ∧
      ∀ saved, Windowed lower limit saved area → Windowed lower limit saved area' := by
  obtain ⟨blocks, hwell, rfl⟩ := h.listed
  obtain ⟨host, hhost, hstart, hstop⟩ := hwell.separated.exists_of_run hn hpage.1
  rw [Block.stop_eq] at hstop
  rcases hwell.defaultAllocPages_spec hn (hwell.length_le.trans_lt hfuel) with
    ⟨hsmall, -⟩ | ⟨pre, block, post, rfl, hpre, hle, hcall⟩
  · have hshort := hsmall host hhost
    omega
  have hmem : block ∈ pre ++ block :: post := List.mem_append_right _ List.mem_cons_self
  have hcells : Set.Ico block.start (block.start + n) ⊆ cover (pre ++ block :: post) :=
    fun cell hcell ↦ ⟨block, hmem, hcell.1, hcell.2.trans_le (Nat.add_le_add_left hle block.start)⟩
  have hfirst : block.start ≤ host.start := by
    rcases List.mem_append.mp hhost with hbefore | hbehind
    · have hshort := hpre host hbefore
      omega
    · rcases List.mem_cons.mp hbehind with rfl | hlater
      · exact le_rfl
      · have hgap := (Separated.cons_iff.mp (Separated.append_iff.mp hwell.separated).2.1).2.2 host
          hlater
        rw [Block.stop_eq] at hgap
        omega
  obtain rfl : page = block.start := le_antisymm (hpage.2 hcells) (hfirst.trans hstart)
  have hproperty := hwell.property block hmem
  have hinside := hwell.inside block hmem
  rw [Block.stop_eq] at hinside
  refine ⟨_, hcall, ⟨⟨_, hwell.takePages hn hle, cover_carve hwell.separated hle⟩, ?_, ?_⟩,
    takePages_ref hn area block.start, fun saved hsaved ↦ ?_⟩
  · intro other hlower hupper
    rw [takePages_reserved hn]
    exact h.unreserved other hlower hupper
  · intro other hother
    rw [takePages_ref hn]
    exact h.ref other hother.1
  · have hmembers : pageLink block.start ∈ (pre ++ block :: post).map headLink :=
      List.mem_map_of_mem hmem
    exact hsaved.takePages (hwell.confined hsaved) (List.mem_cons_of_mem _ hmembers) hn
      (hproperty ▸ hle) (hproperty ▸ hinside.2)

/-- A range beside the free pages is added to them, unless it goes behind the last of them. -/
theorem release (h : Spare lower limit area free) (base n fuel : ℕ) (hn : 0 < n)
    (hfuel : limit - lower < fuel)
    (hsmall : limit - lower < 2 ^ 32) (hlower : lower ≤ base) (hupper : base + n ≤ limit)
    (hapart : Disjoint (Set.Ico base (base + n)) free)
    (hinside : free = ∅ ∨ ∃ page ∈ free, base < page) :
    ∃ area', defaultFreePages fuel area base n = .ok area' ∧
      Spare lower limit area' (free ∪ Set.Ico base (base + n)) ∧
      (∀ page, (area'.pages page).ref =
        if base ≤ page ∧ page < base + n then 0 else (area.pages page).ref) ∧
      ∀ saved, Windowed lower limit saved area → Windowed lower limit saved area' := by
  obtain ⟨blocks, hwell, rfl⟩ := h.listed
  have hbeside : ∀ block ∈ blocks, block.stop ≤ base ∨ base + n ≤ block.start := by
    intro block hblock
    have hcells : block.cells ⊆ cover blocks := fun cell hcell ↦ ⟨block, hblock, hcell⟩
    have hdisjoint : Disjoint (Block.cells ⟨base, n⟩) block.cells := hapart.mono_right hcells
    exact (Block.apart_of_disjoint hdisjoint hn (hwell.separated.nonempty block hblock)).symm
  have hroom : area.nrFree + n < 2 ^ 32 := by
    rw [hwell.total]
    exact (hwell.separated.sum_size_add_le hn hbeside hwell.inside hlower hupper).trans_lt hsmall
  have hbase : base ∉ cover blocks := Set.disjoint_left.mp hapart ⟨le_rfl, by omega⟩
  obtain ⟨pre, post, area', rfl, hpre, hpost, hcall, hwell', hreserved⟩ :=
    hwell.defaultFreePages_spec hbeside hn hroom ⟨hlower, hupper⟩
      (fun page hpage hpage' ↦ h.unreserved page (hlower.trans hpage) (hpage'.trans_le hupper))
      (hwell.freesInside hbase hinside) (hwell.length_le.trans_lt hfuel)
  have href := defaultFreePages_ref hcall
  refine ⟨area', hcall, ⟨⟨_, hwell', cover_release hwell.separated hn hpre hpost⟩, ?_, ?_⟩, href,
    fun saved hsaved ↦ hsaved.defaultFreePages (hwell.confined hsaved) List.mem_cons_self hn hlower
      hupper hcall⟩
  · intro page hpage hpage'
    rw [hreserved]
    exact h.unreserved page hpage hpage'
  · intro page hpage
    rw [href]
    split
    · rfl
    · rename_i hout
      exact h.ref page (hpage.resolve_right hout)

end Spare

end Ucore
