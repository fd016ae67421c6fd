import Ucore.Mm.PageOwnership

/-!
# Runs over one root table

A `PageWorld` is the paging state with the data pages, which are allocated and no tables. A run starts
from a root table whose entries outside `kernel` are empty; between the calls the rest of the kernel
works on everything but the tables and the data pages.
-/

namespace Ucore

open Foundation Memory

structure PageWorld (allocator : FrameAllocator) where
  paging : Paging allocator
  data : Set ℕ

namespace PageWorld

variable {allocator : FrameAllocator} {npage root : ℕ} {kernel : Finset ℕ}
  {world world' : PageWorld allocator}

/-- A page that holds a table, the root table apart. -/
def IsTablePage (root : ℕ) (kernel : Finset ℕ) (world : PageWorld allocator) (page : ℕ) : Prop :=
  ∃ path, path ≠ [] ∧ IsTable kernel path ∧ ppnAt world.paging.mem root path = some (page2ppn page)

inductive Step (npage root : ℕ) (kernel : Finset ℕ) : PageWorld allocator → PageWorld allocator → Prop
  | pageInsert {world : PageWorld allocator} {page : ℕ} {la : BitVec 64} {perm : BitVec 32}
      {result : ℤ} {paging' : Paging allocator} (hpage : page ∈ world.data)
      (hperm : perm.toNat < 0x400) (hla : PDX1 la ∉ kernel)
      (hcall : pageInsert npage world.paging (frameKva root) page la perm = .ok (result, paging')) :
      Step npage root kernel world ⟨paging', world.data ∩ allocator.allocated paging'.frames⟩
  | pageRemove {world : PageWorld allocator} {la : BitVec 64} {paging' : Paging allocator}
      (hla : PDX1 la ∉ kernel)
      (hcall : pageRemove npage world.paging (frameKva root) la = .ok paging') :
      Step npage root kernel world ⟨paging', world.data ∩ allocator.allocated paging'.frames⟩
  | getPte {world : PageWorld allocator} {la : BitVec 64} {ptep : Option ℕ}
      {paging' : Paging allocator} (hla : PDX1 la ∉ kernel)
      (hcall : getPte npage world.paging (frameKva root) la true = .ok (ptep, paging')) :
      Step npage root kernel world ⟨paging', world.data⟩
  | allocPage {world : PageWorld allocator} {page : ℕ} {frames : allocator.State}
      (halloc : allocator.allocPage world.paging.frames = (some page, frames)) :
      Step npage root kernel world ⟨{ world.paging with frames }, insert page world.data⟩
  | other {world : PageWorld allocator} {paging' : Paging allocator} {data' : Set ℕ}
      (hmem : ∀ {path ppn index}, IsTable kernel path → ppnAt world.paging.mem root path = some ppn →
        index < 512 → paging'.mem (entryOf ppn index) = world.paging.mem (entryOf ppn index))
      (hkept : ∀ page, page ∈ world.data ∨ IsTablePage root kernel world page →
        page ∈ allocator.allocated paging'.frames ∧
          pageRef paging' page = pageRef world.paging page)
      (hfreed : paging'.freed = world.paging.freed) (hdata : world.data ⊆ data')
      (hnew : ∀ page ∈ data', page ∉ world.data → page ∈ allocator.allocated paging'.frames ∧
        page2ppn page < npage ∧ pageRef paging' page = 0 ∧ ¬ IsTablePage root kernel world page) :
      Step npage root kernel world ⟨paging', data'⟩

inductive Reachable (npage root : ℕ) (kernel : Finset ℕ) : PageWorld allocator → Prop
  | boot {world : PageWorld allocator} (hroot : root < npage)
      (hempty : ∀ index < 512, index ∉ kernel → world.paging.mem (entryOf root index) &&& PTE_V = 0)
      (hdata : ∀ page ∈ world.data, page ∈ allocator.allocated world.paging.frames ∧
        page2ppn page < npage ∧ pageRef world.paging page = 0) : Reachable npage root kernel world
  | step {world world' : PageWorld allocator} (hworld : Reachable npage root kernel world)
      (hstep : Step npage root kernel world world') : Reachable npage root kernel world'

/-! ## The start of a run -/

theorem ppnAt_boot (hempty : ∀ index < 512, index ∉ kernel → world.paging.mem (entryOf root index) &&& PTE_V = 0)
    {path : List ℕ} (hpath : OffKernel kernel path) (hne : path ≠ []) :
    ppnAt world.paging.mem root path = none := by
  induction path with
  | nil => exact absurd rfl hne
  | cons index path ih =>
    rw [ppnAt_cons]
    by_cases htail : path = []
    · rw [htail, ppnAt_nil, Option.bind_some, pteTarget_eq_none]
      exact hempty index hpath.1 (hpath.2.1 htail)
    · rw [ih hpath.2.2 htail, Option.bind_none]

theorem ownership_boot (hroot : root < npage)
    (hempty : ∀ index < 512, index ∉ kernel → world.paging.mem (entryOf root index) &&& PTE_V = 0)
    (hdata : ∀ page ∈ world.data, page ∈ allocator.allocated world.paging.frames ∧
      page2ppn page < npage ∧ pageRef world.paging page = 0) :
    Ownership npage root kernel world.paging world.data := by
  have hroot_only : ∀ {path ppn}, IsTable kernel path → ppnAt world.paging.mem root path = some ppn →
      path = [] ∧ ppn = root := by
    intro path ppn htable hfound
    by_cases hpath : path = []
    · rw [hpath, ppnAt_nil] at hfound
      exact ⟨hpath, (Option.some.inj hfound).symm⟩
    · rw [ppnAt_boot hempty htable.1 hpath] at hfound
      exact absurd hfound (by simp)
  have hslots : ∀ {path}, path ∈ slots kernel → ppnAt world.paging.mem root path = none := by
    intro path hslot
    have hpath := mem_slots.mp hslot
    refine ppnAt_boot hempty hpath.1 fun hnil ↦ ?_
    have hlength := hpath.2
    rw [hnil] at hlength
    exact absurd hlength (by decide)
  refine ⟨⟨fun htable hfound ↦ ?_, fun htable htable' hfound hfound' ↦ ?_⟩,
    fun htable hne hfound ↦ absurd (hroot_only htable hfound).1 hne,
    fun hpage ↦ ⟨(hdata _ hpage).1, (hdata _ hpage).2.1⟩, ⟨fun path hslot ppn hfound ↦ ?_,
    fun ppn howned ↦ ?_⟩⟩
  · rw [(hroot_only htable hfound).2]
    exact hroot
  · rw [(hroot_only htable hfound).1, (hroot_only htable' hfound').1]
  · rw [hslots hslot] at hfound
    exact absurd hfound (by simp)
  · obtain ⟨page, hpage, rfl⟩ := howned
    have hzero : ¬ 0 < references (slots kernel) (ppnAt world.paging.mem root) (page2ppn page) := by
      rw [references_pos_iff]
      intro h
      obtain ⟨path, hslot, hfound⟩ := h
      rw [hslots hslot] at hfound
      exact absurd hfound (by simp)
    rw [page2ppn_sub, (hdata page hpage).2.2, Nat.eq_zero_of_not_pos hzero]
    rfl

/-! ## One step -/

/-- What a step does to the pages: tables stay tables, and `free_page` is called exactly for the pages
that lost their last slot. -/
structure Progress (root : ℕ) (kernel : Finset ℕ) (world world' : PageWorld allocator) : Prop where
  tables : ∀ page, IsTablePage root kernel world page → IsTablePage root kernel world' page
  freed : ∃ new, world'.paging.freed = new ++ world.paging.freed ∧ new.Nodup ∧
    ∀ page, page ∈ new ↔
      0 < mappings kernel world.paging root page ∧ mappings kernel world'.paging root page = 0

theorem Progress.of_assigned {slot : List ℕ} {value : Option ℕ} {data' : Set ℕ}
    {paging' : Paging allocator} (h : Ownership.Assigned root kernel slot value world.paging paging') :
    Progress root kernel world ⟨paging', data'⟩ where
  tables page htable := by
    obtain ⟨path, hne, hpath, hfound⟩ := htable
    exact ⟨path, hne, hpath, h.tables hpath hfound⟩
  freed := h.freed

/-- Nothing is passed to `free_page` and no slot changes. -/
theorem Progress.of_kept (htables : ∀ {path ppn}, IsTable kernel path →
      ppnAt world.paging.mem root path = some ppn → ppnAt world'.paging.mem root path = some ppn)
    (hslots : ∀ {path}, IsSlot kernel path →
      ppnAt world'.paging.mem root path = ppnAt world.paging.mem root path)
    (hfreed : world'.paging.freed = world.paging.freed) : Progress root kernel world world' where
  tables page htable := by
    obtain ⟨path, hne, hpath, hfound⟩ := htable
    exact ⟨path, hne, hpath, htables hpath hfound⟩
  freed := by
    refine ⟨[], hfreed, List.nodup_nil, fun page ↦ iff_of_false List.not_mem_nil fun hlost ↦ ?_⟩
    have hsame : mappings kernel world'.paging root page = mappings kernel world.paging root page :=
      references_congr fun path hpath ↦ hslots (mem_slots.mp hpath)
    omega

/-- Work outside the tables and the data pages, which may turn further pages into data pages. -/
theorem ownership_other {paging' : Paging allocator} {data' : Set ℕ}
    (h : Ownership npage root kernel world.paging world.data)
    (hmem : ∀ {path ppn index}, IsTable kernel path → ppnAt world.paging.mem root path = some ppn →
      index < 512 → paging'.mem (entryOf ppn index) = world.paging.mem (entryOf ppn index))
    (hkept : ∀ page, page ∈ world.data ∨ IsTablePage root kernel world page →
      page ∈ allocator.allocated paging'.frames ∧ pageRef paging' page = pageRef world.paging page)
    (hfreed : paging'.freed = world.paging.freed)
    (hnew : ∀ page ∈ data', page ∉ world.data → page ∈ allocator.allocated paging'.frames ∧
      page2ppn page < npage ∧ pageRef paging' page = 0 ∧ ¬ IsTablePage root kernel world page)
    (hdata : world.data ⊆ data') :
    Ownership npage root kernel paging' data' ∧ Progress root kernel world ⟨paging', data'⟩ := by
  obtain ⟨htree, hsame⟩ := h.tree.congr hmem
  have hslots : ∀ {path}, IsSlot kernel path →
      ppnAt paging'.mem root path = ppnAt world.paging.mem root path :=
    fun hslot ↦ hsame _ hslot.1 hslot.2.le
  refine ⟨⟨htree, fun {path ppn} htable hne hfound ↦ ?_, fun {page} hpage ↦ ?_,
    ⟨fun path hpath ppn hfound ↦ ?_, fun ppn howned ↦ ?_⟩⟩, Progress.of_kept (fun htable hfound ↦
      (hsame _ htable.1 htable.2.le).trans hfound) hslots hfreed⟩
  · rw [hsame _ htable.1 htable.2.le] at hfound
    obtain ⟨page, rfl, -, href, hother⟩ := h.tables htable hne hfound
    have hispage : IsTablePage root kernel world page := ⟨path, hne, htable, hfound⟩
    obtain ⟨hpage, hsame_ref⟩ := hkept page (.inr hispage)
    refine ⟨page, rfl, hpage, hsame_ref.trans href, fun hmem' ↦ ?_⟩
    exact (hnew page hmem' hother).2.2.2 hispage
  · by_cases hold : page ∈ world.data
    · exact ⟨(hkept page (.inl hold)).1, (h.known hold).2⟩
    · exact ⟨(hnew page hpage hold).1, (hnew page hpage hold).2.1⟩
  · rw [hslots (mem_slots.mp hpath)] at hfound
    obtain ⟨page, hpage, hppn⟩ := h.balanced.closed path hpath ppn hfound
    exact ⟨page, hdata hpage, hppn⟩
  · obtain ⟨page, hpage, rfl⟩ := howned
    rw [page2ppn_sub, references_congr fun path hpath ↦ hslots (mem_slots.mp hpath)]
    by_cases hold : page ∈ world.data
    · rw [(hkept page (.inl hold)).2, h.pageRef_eq hold]
      rfl
    · have hzero : ¬ 0 < references (slots kernel) (ppnAt world.paging.mem root) (page2ppn page) := by
        rw [references_pos_iff]
        intro hheld
        obtain ⟨path, hslot, hfound⟩ := hheld
        obtain ⟨other, hother, heq⟩ := h.balanced.closed path hslot _ hfound
        exact hold (page2ppn_inj.mp heq ▸ hother)
      rw [(hnew page hpage hold).2.2.1, Nat.eq_zero_of_not_pos hzero]
      rfl

/-- Every step keeps the ownership of the pages. -/
theorem Step.ownership (hstep : Step npage root kernel world world')
    (hcorrect : allocator.Correct (Frame npage root)) (hnpage : npage ≤ KERNTOP / PGSIZE)
    (h : Ownership npage root kernel world.paging world.data) :
    Ownership npage root kernel world'.paging world'.data ∧ Progress root kernel world world' := by
  cases hstep with
  | pageInsert hpage hperm hla hcall =>
    obtain ⟨result, paging', hreturns, hown, heffect⟩ :=
      h.pageInsert hcorrect hnpage hla hpage hperm
    obtain ⟨-, rfl⟩ := Prod.mk.inj (Except.ok.inj (hreturns.symm.trans hcall))
    refine ⟨hown, ?_⟩
    rcases heffect with ⟨-, hgrown⟩ | ⟨-, hassigned⟩
    · exact Progress.of_kept hgrown.kept hgrown.slots hgrown.freed
    · exact Progress.of_assigned hassigned
  | pageRemove hla hcall =>
    obtain ⟨paging', hreturns, hown, hassigned⟩ := h.pageRemove hcorrect hnpage hla
    obtain rfl := Except.ok.inj (hreturns.symm.trans hcall)
    exact ⟨hown, Progress.of_assigned hassigned⟩
  | getPte hla hcall =>
    obtain ⟨ptep, paging', hreturns, htables, hgrown, -⟩ := h.toTables.getPte hcorrect hnpage hla
    obtain ⟨-, rfl⟩ := Prod.mk.inj (Except.ok.inj (hreturns.symm.trans hcall))
    exact ⟨h.of_grown htables hgrown, Progress.of_kept hgrown.kept hgrown.slots hgrown.freed⟩
  | allocPage halloc =>
    obtain ⟨⟨hbound, -⟩, hfresh, hallocated, hzero, hrefs⟩ := hcorrect.allocSome halloc
    refine ownership_other h (fun _ _ _ ↦ rfl) (fun other hother ↦ ?_) rfl (fun other hother hold ↦ ?_)
      (Set.subset_insert _ _)
    · have hpage : other ∈ allocator.allocated world.paging.frames := by
        rcases hother with hdata | ⟨path, hne, htable, hfound⟩
        · exact (h.known hdata).1
        · obtain ⟨page, hsame, hpage, -⟩ := h.tables htable hne hfound
          exact page2ppn_inj.mp hsame ▸ hpage
      exact ⟨hallocated ▸ Set.mem_insert_of_mem _ hpage, hrefs other hpage⟩
    · obtain rfl := hother.resolve_right hold
      refine ⟨hallocated ▸ Set.mem_insert _ _, hbound, hzero, fun htable ↦ ?_⟩
      obtain ⟨path, hne, hpath, hfound⟩ := htable
      obtain ⟨page, hsame, hpage, -⟩ := h.tables hpath hne hfound
      exact hfresh (page2ppn_inj.mp hsame ▸ hpage)
  | other hmem hkept hfreed hdata hnew =>
    exact ownership_other h hmem hkept hfreed hnew hdata

/-! ## Whole runs -/

theorem Reachable.ownership (h : Reachable npage root kernel world)
    (hcorrect : allocator.Correct (Frame npage root)) (hnpage : npage ≤ KERNTOP / PGSIZE) :
    Ownership npage root kernel world.paging world.data := by
  induction h with
  | boot hroot hempty hdata => exact ownership_boot hroot hempty hdata
  | step _ hstep ih => exact (hstep.ownership hcorrect hnpage ih).1

/-- Data pages count their slots, slots point to allocated data pages, table pages keep their one
reference, and a step frees exactly the pages that lost their last slot. -/
theorem page_ownership (hcorrect : allocator.Correct (Frame npage root))
    (hnpage : npage ≤ KERNTOP / PGSIZE) (hworld : Reachable npage root kernel world) :
    (∀ page ∈ world.data, pageRef world.paging page = mappings kernel world.paging root page) ∧
    (∀ slot ppn, IsSlot kernel slot → ppnAt world.paging.mem root slot = some ppn →
      ∃ page ∈ world.data, ppn = page2ppn page ∧
        page ∈ allocator.allocated world.paging.frames) ∧
    (∀ page, IsTablePage root kernel world page → page ∈ allocator.allocated world.paging.frames ∧
      pageRef world.paging page = 1 ∧
      ∃! path, IsTable kernel path ∧ ppnAt world.paging.mem root path = some (page2ppn page)) ∧
    ∀ world', Step npage root kernel world world' → Progress root kernel world world' := by
  have h := hworld.ownership hcorrect hnpage
  refine ⟨fun page hpage ↦ h.pageRef_eq hpage, fun slot ppn hslot hfound ↦ ?_,
    fun page htable ↦ ?_, fun world' hstep ↦ (hstep.ownership hcorrect hnpage h).2⟩
  · obtain ⟨page, hpage, hppn⟩ := h.balanced.closed slot (mem_slots.mpr hslot) ppn hfound
    exact ⟨page, hpage, hppn.symm, (h.known hpage).1⟩
  · obtain ⟨path, hne, hpath, hfound⟩ := htable
    obtain ⟨other, hsame, hpage, href, -⟩ := h.tables hpath hne hfound
    obtain rfl := page2ppn_inj.mp hsame
    exact ⟨hpage, href, path, ⟨hpath, hfound⟩,
      fun path' hpath' ↦ h.tree.unique hpath'.1 hpath hpath'.2 hfound⟩

/-- Cleared memory, and the page `0x20A` in the hands of a client. -/
def emptyPaging (count : ℕ) : Paging (FrameAllocator.firstFit 0x20A count) :=
  ⟨fun _ ↦ 0, ⟨[0x20A], fun _ ↦ 0⟩, []⟩

theorem emptyPaging_invalid (count index : ℕ) :
    (emptyPaging count).mem (entryOf 0x80206 index) &&& PTE_V = 0 := by
  change (0 : BitVec 64) &&& PTE_V = 0
  decide

theorem firstFit_frames {count : ℕ} (hcount : count ≤ 16) :
    (FrameAllocator.firstFit 0x20A count).Correct (Frame 0x88000 0x80206) := by
  refine FrameAllocator.firstFit_correct fun page hlower hupper ↦ ?_
  unfold Frame page2ppn nbase DRAM_BASE PGSIZE
  omega

/-- One page mapped under an empty root table in page `0x206`. -/
theorem page_ownership_insert :
    ∃ world : PageWorld (FrameAllocator.firstFit 0x20A 16), 0x20A ∈ world.data ∧
      pageRef world.paging 0x20A = 1 ∧
      pageRef world.paging 0x20A = mappings {511} world.paging 0x80206 0x20A := by
  have hcall : (pageInsert 0x88000 (emptyPaging 16) (frameKva 0x80206) 0x20A 0x1000#64
      0x6#32).toOption.any (fun outcome ↦ FrameList.held outcome.2.frames = [0x20C, 0x20B, 0x20A] ∧
        pageRef outcome.2 0x20A = 1) = true := by decide +kernel
  obtain ⟨⟨result, paging'⟩, hreturn, houtcome⟩ := Option.any_eq_true _ _ |>.mp hcall
  obtain ⟨hheld, href⟩ := of_decide_eq_true houtcome
  have hboot : Reachable 0x88000 0x80206 {511} ⟨emptyPaging 16, {0x20A}⟩ := by
    refine .boot (by decide) (fun index _ _ ↦ emptyPaging_invalid 16 index) fun page hpage ↦ ?_
    rw [Set.mem_singleton_iff] at hpage
    subst hpage
    exact ⟨List.mem_cons_self, by decide, rfl⟩
  have hpage : 0x20A ∈ (FrameAllocator.firstFit 0x20A 16).allocated paging'.frames := by
    change 0x20A ∈ FrameList.held paging'.frames
    rw [hheld]
    decide
  have hdata : 0x20A ∈ ({0x20A} : Set ℕ) ∩
      (FrameAllocator.firstFit 0x20A 16).allocated paging'.frames := ⟨rfl, hpage⟩
  have howned := page_ownership (firstFit_frames (le_refl 16)) (by decide)
    (hboot.step (.pageInsert rfl (by decide) (by decide) (toOption_eq_some.mp hreturn)))
  exact ⟨_, hdata, href, howned.1 _ hdata⟩

end PageWorld

end Ucore
