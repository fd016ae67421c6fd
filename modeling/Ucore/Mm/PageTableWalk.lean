import Ucore.Mm.PageTableSpec

/-!
# Walks through the page tables

`get_pte` goes down two levels and may hang a fresh page into an invalid entry at each of them.
`Tables` is what the walk relies on: a tree of tables in allocated pages. `Grown` is what it changes:
empty tables appear, and every slot keeps its entry.
-/

namespace Ucore

open Foundation Memory

variable {allocator : FrameAllocator}

/-- What `page_init` leaves to the allocator: known pages other than the root table. -/
def Frame (npage root page : ℕ) : Prop := page2ppn page < npage ∧ page2ppn page ≠ root

/-- A tree of tables, all but the root in allocated pages. -/
structure Tables (npage root : ℕ) (kernel : Finset ℕ) (paging : Paging allocator) : Prop where
  tree : TableTree npage kernel paging.mem root
  allocated : ∀ {path ppn}, IsTable kernel path → path ≠ [] →
    ppnAt paging.mem root path = some ppn →
      ∃ page, ppn = page2ppn page ∧ page ∈ allocator.allocated paging.frames

/-! ## Looking up -/

section Lookup

variable {npage root : ℕ} {kernel : Finset ℕ} {paging : Paging allocator} {parent : List ℕ}
  {index ppn child : ℕ} {la : BitVec 64}

/-- The address that `get_pte` computes from an entry. -/
theorem TableTree.KADDR_entry (h : TableTree npage kernel paging.mem root)
    (htable : IsTable kernel (index :: parent)) (hppn : ppnAt paging.mem root parent = some ppn)
    (hchild : ppnAt paging.mem root (index :: parent) = some child) :
    KADDR npage (PTE_ADDR (paging.mem (entryOf ppn index))) = .ok (frameKva child) := by
  have hbound := h.bound htable hchild
  rw [ppnAt_cons_of hppn, pteTarget] at hchild
  split at hchild
  · exact absurd hchild (by simp)
  · rw [← Option.some.inj hchild] at hbound ⊢
    exact KADDR_PTE_ADDR hbound

/-- Without `create`, an entry is only looked at. -/
theorem createTable_lookup (pdep : ℕ) : createTable npage paging pdep false =
    .ok (decide (paging.mem pdep &&& PTE_V ≠ 0), paging) := by
  unfold createTable
  by_cases hvalid : paging.mem pdep &&& PTE_V = 0
  · rw [if_neg (not_not_intro hvalid), decide_eq_false (not_not_intro hvalid)]
    rfl
  · rw [if_pos hvalid, decide_eq_true hvalid]
    rfl

/-- A walk that creates nothing, down from the root table. -/
theorem getPte_lookup (la : BitVec 64) :
    getPte npage paging (frameKva root) la false =
      if paging.mem (entryOf root (PDX1 la)) &&& PTE_V = 0 then .ok (none, paging) else do
        let middle ← KADDR npage (PTE_ADDR (paging.mem (entryOf root (PDX1 la))))
        if paging.mem (middle + 8 * PDX0 la) &&& PTE_V = 0 then return (none, paging)
        let leaf ← KADDR npage (PTE_ADDR (paging.mem (middle + 8 * PDX0 la)))
        return (some (leaf + 8 * PTX la), paging) := by
  unfold getPte
  change (createTable npage paging (entryOf root (PDX1 la)) false >>= _) = _
  rw [createTable_lookup, ok_bind]
  by_cases hupper : paging.mem (entryOf root (PDX1 la)) &&& PTE_V = 0
  · rw [if_pos hupper, decide_eq_false (not_not_intro hupper)]
    rfl
  · rw [if_neg hupper, decide_eq_true hupper]
    dsimp only [Bool.not_true]
    rw [if_neg (by decide)]
    change (KADDR npage (PTE_ADDR (paging.mem (entryOf root (PDX1 la)))) >>= _) = _
    cases KADDR npage (PTE_ADDR (paging.mem (entryOf root (PDX1 la)))) with
    | error fault => rfl
    | ok middle =>
      rw [ok_bind, ok_bind]
      rw [createTable_lookup, ok_bind]
      by_cases hlower : paging.mem (middle + 8 * PDX0 la) &&& PTE_V = 0
      · rw [if_pos hlower, decide_eq_false (not_not_intro hlower)]
        rfl
      · rw [if_neg hlower, decide_eq_true hlower]
        rfl

/-- Without `create`, `get_pte` follows the path and changes nothing. -/
theorem TableTree.getPte_lookup (h : TableTree npage kernel paging.mem root)
    (hla : PDX1 la ∉ kernel) :
    getPte npage paging (frameKva root) la false =
      .ok ((ppnAt paging.mem root [PDX0 la, PDX1 la]).map (entryOf · (PTX la)), paging) := by
  have hslot := isSlot_slotOf hla
  have hleaf : IsTable kernel [PDX0 la, PDX1 la] := IsTable.tail hslot.1 hslot.2.le
  have hmiddle : IsTable kernel [PDX1 la] := IsTable.tail hleaf.1 hleaf.2.le
  have hupper : ppnAt paging.mem root [PDX1 la] =
      pteTarget (paging.mem (entryOf root (PDX1 la))) := ppnAt_cons_of ppnAt_nil
  rw [Ucore.getPte_lookup]
  cases hmiddle_eq : ppnAt paging.mem root [PDX1 la] with
  | none =>
    rw [hupper, pteTarget_eq_none] at hmiddle_eq
    rw [if_pos hmiddle_eq, ppnAt_eq_none_of_suffix (pteTarget_eq_none.mpr hmiddle_eq ▸ hupper)
      (List.suffix_cons (PDX0 la) [PDX1 la])]
    rfl
  | some middle =>
    have hlower : ppnAt paging.mem root [PDX0 la, PDX1 la] =
        pteTarget (paging.mem (entryOf middle (PDX0 la))) := ppnAt_cons_of hmiddle_eq
    have hvalid : paging.mem (entryOf root (PDX1 la)) &&& PTE_V ≠ 0 := by
      intro hinvalid
      rw [hupper, pteTarget_eq_none.mpr hinvalid] at hmiddle_eq
      cases hmiddle_eq
    have hcell : frameKva middle + 8 * PDX0 la = entryOf middle (PDX0 la) := rfl
    rw [if_neg hvalid, h.KADDR_entry hmiddle ppnAt_nil hmiddle_eq, ok_bind, hcell]
    by_cases hempty : paging.mem (entryOf middle (PDX0 la)) &&& PTE_V = 0
    · rw [if_pos hempty, hlower, pteTarget_eq_none.mpr hempty]
      rfl
    · have hleaf_eq : ppnAt paging.mem root [PDX0 la, PDX1 la] =
          some (PPN (PTE_ADDR (paging.mem (entryOf middle (PDX0 la))))) := by
        rw [hlower, pteTarget, if_neg hempty]
      rw [if_neg hempty, hleaf_eq, h.KADDR_entry hleaf hmiddle_eq hleaf_eq, ok_bind]
      rfl

end Lookup

/-! ## Walking down -/

/-- New tables appear, nothing else moves. -/
structure Grown (root : ℕ) (kernel : Finset ℕ) (paging paging' : Paging allocator) : Prop where
  kept : ∀ {path ppn}, IsTable kernel path → ppnAt paging.mem root path = some ppn →
    ppnAt paging'.mem root path = some ppn
  fresh : ∀ {path ppn}, IsTable kernel path → ppnAt paging'.mem root path = some ppn →
    ppnAt paging.mem root path = some ppn ∨ ∃ page, ppn = page2ppn page ∧
      page ∉ allocator.allocated paging.frames ∧ page ∈ allocator.allocated paging'.frames ∧
      pageRef paging' page = 1
  ptes : ∀ {path}, IsSlot kernel path → pteAt paging'.mem root path = pteAt paging.mem root path
  refs : ∀ {page}, page ∈ allocator.allocated paging.frames →
    page ∈ allocator.allocated paging'.frames ∧ pageRef paging' page = pageRef paging page
  freed : paging'.freed = paging.freed

/-- A fresh page hangs below the entry as an empty table, and nothing else was allocated. -/
structure Hangs (root : ℕ) (entry : List ℕ) (paging paging' : Paging allocator) (child : ℕ) :
    Prop where
  fresh : child ∉ allocator.allocated paging.frames
  allocated : allocator.allocated paging'.frames = insert child (allocator.allocated paging.frames)
  ref : pageRef paging' child = 1
  before : ppnAt paging.mem root entry = none
  after : ppnAt paging'.mem root entry = some (page2ppn child)
  empty : ∀ index < 512, ppnAt paging'.mem root (index :: entry) = none

theorem page2ppn_sub (page : ℕ) : page2ppn page - nbase = page := by
  rw [page2ppn, Nat.add_sub_cancel]

theorem page2ppn_inj {page other : ℕ} : page2ppn page = page2ppn other ↔ page = other := by
  rw [page2ppn, page2ppn, Nat.add_right_cancel_iff]

namespace Grown

variable {root : ℕ} {kernel : Finset ℕ} {paging paging' paging'' : Paging allocator} {path : List ℕ}

theorem refl (paging : Paging allocator) : Grown root kernel paging paging :=
  ⟨fun _ h ↦ h, fun _ h ↦ .inl h, fun _ ↦ rfl, fun h ↦ ⟨h, rfl⟩, rfl⟩

theorem trans (h : Grown root kernel paging paging') (h' : Grown root kernel paging' paging'') :
    Grown root kernel paging paging'' where
  kept htable hfound := h'.kept htable (h.kept htable hfound)
  fresh {path ppn} htable hfound := by
    obtain hold | ⟨page, hppn, hnew, hpage, href⟩ := h'.fresh htable hfound
    · obtain hold | ⟨page, hppn, hnew, hpage, href⟩ := h.fresh htable hold
      · exact .inl hold
      · exact .inr ⟨page, hppn, hnew, (h'.refs hpage).1, (h'.refs hpage).2.trans href⟩
    · exact .inr ⟨page, hppn, fun hmem ↦ hnew (h.refs hmem).1, hpage, href⟩
  ptes hslot := (h'.ptes hslot).trans (h.ptes hslot)
  refs hpage := ⟨(h'.refs (h.refs hpage).1).1,
    (h'.refs (h.refs hpage).1).2.trans (h.refs hpage).2⟩
  freed := h'.freed.trans h.freed

/-- Slots keep their pages. -/
theorem slots (h : Grown root kernel paging paging') (hslot : IsSlot kernel path) :
    ppnAt paging'.mem root path = ppnAt paging.mem root path := by
  cases path with
  | nil => exact absurd hslot.2 (by decide)
  | cons index path => rw [ppnAt_eq_map_pteAt, ppnAt_eq_map_pteAt, h.ptes hslot]

end Grown

namespace Tables

variable {npage root : ℕ} {kernel : Finset ℕ} {paging paging' : Paging allocator}
  {path parent : List ℕ} {index ppn child : ℕ} {la : BitVec 64}

/-- An allocation that fails changes no books. -/
theorem of_allocNull {frames : allocator.State} {usable : ℕ → Prop}
    (h : Tables npage root kernel paging) (hcorrect : allocator.Correct usable)
    (halloc : allocator.allocPage paging.frames = (none, frames)) :
    Tables npage root kernel { paging with frames } ∧
      Grown root kernel paging { paging with frames } ∧
      allocator.allocated frames = allocator.allocated paging.frames := by
  obtain ⟨hallocated, hrefs⟩ := hcorrect.allocNull halloc
  refine ⟨⟨h.tree, fun htable hne hfound ↦ ?_⟩, ⟨fun _ hfound ↦ hfound, fun _ hfound ↦ .inl hfound,
    fun _ ↦ rfl, fun hpage ↦ ⟨hallocated ▸ hpage, hrefs _ hpage⟩, rfl⟩, hallocated⟩
  obtain ⟨page, hppn, hpage⟩ := h.allocated htable hne hfound
  exact ⟨page, hppn, hallocated ▸ hpage⟩

/-- A fresh page is no table. -/
theorem ppnAt_ne_of_allocSome {frames : allocator.State} (h : Tables npage root kernel paging)
    (hcorrect : allocator.Correct (Frame npage root))
    (halloc : allocator.allocPage paging.frames = (some child, frames)) (htable : IsTable kernel path) :
    ppnAt paging.mem root path ≠ some (page2ppn child) := by
  obtain ⟨⟨-, hroot⟩, hnew, -⟩ := hcorrect.allocSome halloc
  intro hfound
  by_cases hpath : path = []
  · rw [hpath, ppnAt_nil] at hfound
    exact hroot (Option.some.inj hfound).symm
  · obtain ⟨page, hsame, hpage⟩ := h.allocated htable hpath hfound
    exact hnew (page2ppn_inj.mp hsame ▸ hpage)

/-- A fresh page becomes a table. -/
theorem of_allocSome {frames : allocator.State} {type : BitVec 32}
    (h : Tables npage root kernel paging)
    (hcorrect : allocator.Correct (Frame npage root)) (hnpage : npage ≤ KERNTOP / PGSIZE)
    (hentry : IsTable kernel (index :: parent)) (hppn : ppnAt paging.mem root parent = some ppn)
    (hnone : ppnAt paging.mem root (index :: parent) = none)
    (halloc : allocator.allocPage paging.frames = (some child, frames)) (htype : type.toNat < 0x400)
    (hmem : paging'.mem = (paging.mem.fill (frameKva (page2ppn child)) PGSIZE 0).write
      (entryOf ppn index) (pteCreate (page2ppn child) type))
    (hframes : paging'.frames = allocator.setPageRef frames child 1)
    (hfreed : paging'.freed = paging.freed) :
    Tables npage root kernel paging' ∧ Grown root kernel paging paging' ∧
      Hangs root (index :: parent) paging paging' child := by
  obtain ⟨⟨hbound, -⟩, hnew, hallocated, hzero, hrefs⟩ := hcorrect.allocSome halloc
  obtain ⟨hset, hsetRef⟩ := hcorrect.setRef frames child 1
  have hpages : allocator.allocated paging'.frames =
      insert child (allocator.allocated paging.frames) := by
    rw [hframes, hset, hallocated]
  have href : pageRef paging' child = 1 := by
    rw [pageRef, hframes, hsetRef, if_pos rfl]
  have hkept : ∀ {other}, other ∈ allocator.allocated paging.frames →
      other ∈ allocator.allocated paging'.frames ∧ pageRef paging' other = pageRef paging other := by
    intro other hother
    have hne : other ≠ child := fun heq ↦ hnew (heq ▸ hother)
    refine ⟨hpages ▸ Set.mem_insert_of_mem _ hother, ?_⟩
    rw [pageRef, hframes, hsetRef, if_neg hne, hrefs other hother, pageRef]
  have hfresh : ∀ {path}, IsTable kernel path →
      ppnAt paging.mem root path ≠ some (page2ppn child) := h.ppnAt_ne_of_allocSome hcorrect halloc
  have hpte := pteTarget_pteCreate (ppn_lt hnpage hbound) htype
  obtain ⟨htree, hassign⟩ := h.tree.addTable hnpage hentry hppn hnone hbound hfresh hpte
  have hptes : ∀ {path}, IsSlot kernel path → _ :=
    h.tree.addTable_pteAt hnpage hentry hppn hnone hbound hfresh hpte
  rw [← hmem] at htree hassign hptes
  have hself : ppnAt paging'.mem root (index :: parent) = some (page2ppn child) := by
    rw [hassign _ hentry.1 hentry.2.le, Function.update_self]
  have hothers : ∀ {path}, OffKernel kernel path → path.length ≤ 3 → path ≠ index :: parent →
      ppnAt paging'.mem root path = ppnAt paging.mem root path := by
    intro path hpath hlength hne
    rw [hassign path hpath hlength, Function.update_of_ne hne]
  refine ⟨⟨htree, fun {path other} htable hne hfound ↦ ?_⟩, ⟨fun {path other} htable hfound ↦ ?_,
    fun {path other} htable hfound ↦ ?_, hptes, hkept, hfreed⟩,
    ⟨hnew, hpages, href, hnone, hself, fun next hnext ↦ ?_⟩⟩
  · by_cases heq : path = index :: parent
    · rw [heq, hself] at hfound
      exact ⟨child, (Option.some.inj hfound).symm, hpages ▸ Set.mem_insert _ _⟩
    · rw [hothers htable.1 htable.2.le heq] at hfound
      obtain ⟨page, hsame, hpage⟩ := h.allocated htable hne hfound
      exact ⟨page, hsame, (hkept hpage).1⟩
  · rw [hothers htable.1 htable.2.le ?_, hfound]
    intro heq
    rw [heq, hnone] at hfound
    exact absurd hfound (by simp)
  · by_cases heq : path = index :: parent
    · rw [heq, hself] at hfound
      exact .inr ⟨child, (Option.some.inj hfound).symm, hnew, hpages ▸ Set.mem_insert _ _, href⟩
    · rw [hothers htable.1 htable.2.le heq] at hfound
      exact .inl hfound
  · have hpath : OffKernel kernel (next :: index :: parent) := ⟨hnext, by simp, hentry.1⟩
    rw [hothers hpath (Nat.succ_le_of_lt hentry.2) (by simp)]
    exact ppnAt_eq_none_of_suffix hnone (List.suffix_cons _ _)

/-- What hanging a page into an entry changes. -/
theorem hang_fields (paging : Paging allocator) (frames : allocator.State) (child kva pte : ℕ)
    (word : BitVec 64) :
    let next := setPte (clearPage (setPageRef { paging with frames } child 1) kva) pte word
    next.mem = (paging.mem.fill kva PGSIZE 0).write pte word ∧
      next.frames = allocator.setPageRef frames child 1 ∧ next.freed = paging.freed :=
  ⟨rfl, rfl, rfl⟩

/-- One level of `get_pte`: afterwards the entry leads to a table, or the call failed and changed
nothing. -/
theorem createTable (h : Tables npage root kernel paging)
    (hcorrect : allocator.Correct (Frame npage root)) (hnpage : npage ≤ KERNTOP / PGSIZE)
    (hentry : IsTable kernel (index :: parent)) (hppn : ppnAt paging.mem root parent = some ppn) :
    ∃ present paging', Ucore.createTable npage paging (entryOf ppn index) true =
        .ok (present, paging') ∧
      Tables npage root kernel paging' ∧ Grown root kernel paging paging' ∧
      if present = true then
        (∃ child, ppnAt paging'.mem root (index :: parent) = some child) ∧
          (paging' = paging ∨ ∃ child, Hangs root (index :: parent) paging paging' child)
      else
        ppnAt paging.mem root (index :: parent) = none ∧ paging'.mem = paging.mem ∧
          allocator.allocated paging'.frames = allocator.allocated paging.frames := by
  have hcell : ppnAt paging.mem root (index :: parent) =
      pteTarget (paging.mem (entryOf ppn index)) := ppnAt_cons_of hppn
  unfold Ucore.createTable
  by_cases hvalid : paging.mem (entryOf ppn index) &&& PTE_V = 0
  · have hnone : ppnAt paging.mem root (index :: parent) = none := by
      rw [hcell, pteTarget_eq_none.mpr hvalid]
    rw [if_neg (not_not.mpr hvalid)]
    rcases halloc : allocator.allocPage paging.frames with ⟨child | child, frames⟩
    · obtain ⟨hnext, hgrown, hallocated⟩ := h.of_allocNull hcorrect halloc
      exact ⟨false, _, rfl, hnext, hgrown, hnone, rfl, hallocated⟩
    · have hkva := KADDR_page2pa hnpage (hcorrect.allocSome halloc).1.1
      have htype : (PTE_U ||| PTE_V : BitVec 32).toNat < 0x400 := by decide
      obtain ⟨hmem, hframes, hfreed⟩ := hang_fields paging frames child
        (frameKva (page2ppn child)) (entryOf ppn index)
        (pteCreate (page2ppn child) (PTE_U ||| PTE_V))
      obtain ⟨hnext, hgrown, hhangs⟩ :=
        h.of_allocSome hcorrect hnpage hentry hppn hnone halloc htype hmem hframes hfreed
      refine ⟨true, _, ?_, hnext, hgrown, ⟨_, hhangs.after⟩, .inr ⟨child, hhangs⟩⟩
      simp only [Bool.not_true, Bool.false_eq_true, if_false, hkva, ok_bind]
      rfl
  · rw [if_pos hvalid]
    have hchild : ppnAt paging.mem root (index :: parent) =
        some (PPN (PTE_ADDR (paging.mem (entryOf ppn index)))) := by
      rw [hcell, pteTarget, if_neg hvalid]
    exact ⟨true, paging, rfl, h, Grown.refl paging, ⟨_, hchild⟩, .inl rfl⟩

/-- `get_pte` never panics; it returns the entry of the slot, or fails without one and leaves at most
one new table behind. -/
theorem getPte (h : Tables npage root kernel paging)
    (hcorrect : allocator.Correct (Frame npage root)) (hnpage : npage ≤ KERNTOP / PGSIZE)
    (hla : PDX1 la ∉ kernel) :
    ∃ ptep paging', Ucore.getPte npage paging (frameKva root) la true = .ok (ptep, paging') ∧
      Tables npage root kernel paging' ∧ Grown root kernel paging paging' ∧
      ((ptep = none ∧ ppnAt paging.mem root [PDX0 la, PDX1 la] = none ∧
          (allocator.allocated paging'.frames = allocator.allocated paging.frames ∨
            ∃ child, Hangs root [PDX1 la] paging paging' child)) ∨
        ∃ leaf, ptep = some (entryOf leaf (PTX la)) ∧
          ppnAt paging'.mem root [PDX0 la, PDX1 la] = some leaf) := by
  have hslot := isSlot_slotOf hla
  have hleaf : IsTable kernel [PDX0 la, PDX1 la] := IsTable.tail hslot.1 hslot.2.le
  have hmiddle : IsTable kernel [PDX1 la] := IsTable.tail hleaf.1 hleaf.2.le
  obtain ⟨present, paging₁, hcall₁, hown₁, hgrown₁, hfound₁⟩ :=
    h.createTable hcorrect hnpage hmiddle ppnAt_nil
  unfold Ucore.getPte
  change ∃ ptep paging', (Ucore.createTable npage paging (entryOf root (PDX1 la)) true >>= _) =
    .ok (ptep, paging') ∧ _
  rw [hcall₁, ok_bind]
  cases present with
  | false =>
    obtain ⟨hnone, -, hallocated⟩ := hfound₁
    refine ⟨none, paging₁, rfl, hown₁, hgrown₁, .inl ⟨rfl, ?_, .inl hallocated⟩⟩
    exact ppnAt_eq_none_of_suffix hnone (List.suffix_cons _ _)
  | true =>
    obtain ⟨⟨middle, hmiddle_eq⟩, hcreated⟩ := hfound₁
    have hkva₁ := hown₁.tree.KADDR_entry hmiddle ppnAt_nil hmiddle_eq
    obtain ⟨present, paging₂, hcall₂, hown₂, hgrown₂, hfound₂⟩ :=
      hown₁.createTable hcorrect hnpage hleaf hmiddle_eq
    dsimp only [Bool.not_true]
    rw [if_neg (by decide)]
    change ∃ ptep paging', (KADDR npage (PTE_ADDR (paging₁.mem (entryOf root (PDX1 la)))) >>= _) =
      .ok (ptep, paging') ∧ _
    rw [hkva₁, ok_bind]
    change ∃ ptep paging', (Ucore.createTable npage paging₁ (entryOf middle (PDX0 la)) true >>=
      _) = .ok (ptep, paging') ∧ _
    rw [hcall₂, ok_bind]
    cases present with
    | false =>
      obtain ⟨hnone, hmem, hallocated⟩ := hfound₂
      refine ⟨none, paging₂, rfl, hown₂, hgrown₁.trans hgrown₂, .inl ⟨rfl, ?_, ?_⟩⟩
      · -- the entry was invalid before the upper level appeared, too
        cases hbefore : ppnAt paging.mem root [PDX0 la, PDX1 la] with
        | none => rfl
        | some leaf => exact absurd (hgrown₁.kept hleaf hbefore) (by rw [hnone]; simp)
      · rcases hcreated with hunchanged | ⟨child, hhangs⟩
        · rw [hunchanged] at hallocated
          exact .inl hallocated
        · refine .inr ⟨child, hhangs.fresh, hallocated.trans hhangs.allocated, ?_, hhangs.before,
            ?_, ?_⟩
          · have hchild : child ∈ allocator.allocated paging₁.frames := by
              rw [hhangs.allocated]
              exact Set.mem_insert _ _
            exact (hgrown₂.refs hchild).2.trans hhangs.ref
          · rw [hmem]
            exact hhangs.after
          · rw [hmem]
            exact hhangs.empty
    | true =>
      obtain ⟨⟨leaf, hleaf_eq⟩, -⟩ := hfound₂
      have hkva₂ := hown₂.tree.KADDR_entry hleaf (hgrown₂.kept hmiddle hmiddle_eq) hleaf_eq
      refine ⟨some (entryOf leaf (PTX la)), paging₂, ?_, hown₂, hgrown₁.trans hgrown₂,
        .inr ⟨leaf, rfl, hleaf_eq⟩⟩
      dsimp only [Bool.not_true]
      rw [if_neg (by decide)]
      change (KADDR npage (PTE_ADDR (paging₂.mem (entryOf middle (PDX0 la)))) >>= _) = _
      rw [hkva₂, ok_bind]
      rfl

end Tables

end Ucore
