import Ucore.Mm.PageTableWalk
import Mathlib.Data.Finset.Prod

/-!
# Who owns the pages under a root table

`Ownership` ties the tree of page tables to the page allocator: tables are allocated pages with one
reference, and a data page counts the slots that point to it. `get_pte` adds empty tables,
`page_remove_pte` and `page_insert` assign one slot.
-/

namespace Ucore

open Foundation Memory

/-- All entries of leaf tables, as paths. -/
@[irreducible]
def slots (kernel : Finset ℕ) : Finset (List ℕ) :=
  (Finset.range NPTEENTRY ×ˢ Finset.range NPTEENTRY ×ˢ (Finset.range NPTEENTRY \ kernel)).image
    fun index ↦ [index.1, index.2.1, index.2.2]

theorem mem_slots {kernel : Finset ℕ} {path : List ℕ} :
    path ∈ slots kernel ↔ IsSlot kernel path := by
  have hcount : NPTEENTRY = 512 := by
    unfold NPTEENTRY
    rfl
  unfold slots IsSlot
  rw [Finset.mem_image]
  constructor
  · intro h
    obtain ⟨index, hindex, rfl⟩ := h
    simp only [Finset.mem_product, Finset.mem_range, Finset.mem_sdiff, hcount] at hindex
    exact ⟨⟨hindex.1, by simp, hindex.2.1, by simp, hindex.2.2.1, fun _ ↦ hindex.2.2.2, trivial⟩,
      rfl⟩
  · intro h
    obtain ⟨hpath, hlength⟩ := h
    obtain ⟨leaf, middle, first, rfl⟩ := List.length_eq_three.mp hlength
    obtain ⟨hleaf, -, hmiddle, -, hfirst, hkernel, -⟩ := hpath
    refine ⟨(leaf, middle, first), ?_, rfl⟩
    simp only [Finset.mem_product, Finset.mem_range, Finset.mem_sdiff, hcount]
    exact ⟨hleaf, hmiddle, hfirst, hkernel rfl⟩

variable {allocator : FrameAllocator}

/-- How many valid entries of leaf tables point to the page. -/
def mappings (kernel : Finset ℕ) (paging : Paging allocator) (root page : ℕ) : ℕ :=
  references (slots kernel) (ppnAt paging.mem root) (page2ppn page)

structure Ownership (npage root : ℕ) (kernel : Finset ℕ) (paging : Paging allocator)
    (data : Set ℕ) : Prop where
  tree : TableTree npage kernel paging.mem root
  tables : ∀ {path ppn}, IsTable kernel path → path ≠ [] →
    ppnAt paging.mem root path = some ppn →
      ∃ page, ppn = page2ppn page ∧ page ∈ allocator.allocated paging.frames ∧
        pageRef paging page = 1 ∧ page ∉ data
  known : ∀ {page}, page ∈ data → page ∈ allocator.allocated paging.frames ∧ page2ppn page < npage
  balanced : Balanced (slots kernel) (ppnAt paging.mem root)
    (fun ppn ↦ pageRef paging (ppn - nbase)) (page2ppn '' data)

theorem Grown.mappings_eq {root : ℕ} {kernel : Finset ℕ} {paging paging' : Paging allocator}
    (h : Grown root kernel paging paging') (page : ℕ) :
    mappings kernel paging' root page = mappings kernel paging root page :=
  references_congr fun _ hslot ↦ h.slots (mem_slots.mp hslot)

namespace Ownership

variable {npage root : ℕ} {kernel : Finset ℕ} {paging paging' : Paging allocator} {data : Set ℕ} {path parent : List ℕ}
  {index ppn page : ℕ} {la : BitVec 64}

/-- A data page counts the slots that point to it. -/
theorem pageRef_eq (h : Ownership npage root kernel paging data) (hpage : page ∈ data) :
    pageRef paging page = mappings kernel paging root page := by
  have hcount := h.balanced.counts (page2ppn page) ⟨page, hpage, rfl⟩
  rwa [page2ppn_sub] at hcount

/-- A slot holds nothing, or a data page. -/
theorem slot_cases (h : Ownership npage root kernel paging data) (hslot : IsSlot kernel path) :
    ppnAt paging.mem root path = none ∨
      ∃ page ∈ data, ppnAt paging.mem root path = some (page2ppn page) := by
  cases hfound : ppnAt paging.mem root path with
  | none => exact .inl rfl
  | some ppn =>
    obtain ⟨page, hpage, hppn⟩ := h.balanced.closed path (mem_slots.mpr hslot) ppn hfound
    exact .inr ⟨page, hpage, by rw [hppn]⟩

theorem toTables (h : Ownership npage root kernel paging data) :
    Tables npage root kernel paging where
  tree := h.tree
  allocated htable hne hfound := by
    obtain ⟨page, hppn, hpage, -, -⟩ := h.tables htable hne hfound
    exact ⟨page, hppn, hpage⟩

/-- New empty tables fit into the books. -/
theorem of_grown (h : Ownership npage root kernel paging data)
    (htables : Tables npage root kernel paging') (hgrown : Grown root kernel paging paging') :
    Ownership npage root kernel paging' data := by
  refine ⟨htables.tree, fun {path ppn} htable hne hfound ↦ ?_,
    fun hpage ↦ ⟨(hgrown.refs (h.known hpage).1).1, (h.known hpage).2⟩,
    ⟨fun path hpath ppn hfound ↦ ?_, fun ppn howned ↦ ?_⟩⟩
  · obtain hold | ⟨page, hppn, hnew, hpage, href⟩ := hgrown.fresh htable hfound
    · obtain ⟨page, hppn, hpage, href, hdata⟩ := h.tables htable hne hold
      exact ⟨page, hppn, (hgrown.refs hpage).1, (hgrown.refs hpage).2.trans href, hdata⟩
    · exact ⟨page, hppn, hpage, href, fun hdata ↦ hnew (h.known hdata).1⟩
  · rw [hgrown.slots (mem_slots.mp hpath)] at hfound
    exact h.balanced.closed path hpath ppn hfound
  · rw [references_congr fun path hpath ↦ hgrown.slots (mem_slots.mp hpath),
      ← h.balanced.counts ppn howned]
    obtain ⟨page, hpage, rfl⟩ := howned
    rw [page2ppn_sub]
    exact (hgrown.refs (h.known hpage).1).2

/-! ## Assigning a slot -/

/-- The page loses its last reference when the slot gets a new value. -/
def Lost (paging : Paging allocator) (root : ℕ) (slot : List ℕ) (value : Option ℕ) (page : ℕ) :
    Prop :=
  ppnAt paging.mem root slot = some (page2ppn page) ∧ value ≠ some (page2ppn page) ∧
    pageRef paging page = 1

/-- The effect of a call on one slot: its value, the tables, and the pages passed to `free_page`,
which are those that no slot points to any more. -/
structure Assigned (root : ℕ) (kernel : Finset ℕ) (slot : List ℕ) (value : Option ℕ) (paging paging' : Paging allocator) :
    Prop where
  slots : ∀ {path}, IsSlot kernel path → ppnAt paging'.mem root path =
    Function.update (ppnAt paging.mem root) slot value path
  tables : ∀ {path ppn}, IsTable kernel path → ppnAt paging.mem root path = some ppn →
    ppnAt paging'.mem root path = some ppn
  freed : ∃ new, paging'.freed = new ++ paging.freed ∧ new.Nodup ∧
    ∀ page, page ∈ new ↔ 0 < mappings kernel paging root page ∧ mappings kernel paging' root page = 0

theorem Assigned.of_grown {slot : List ℕ} {value : Option ℕ} {paging₁ : Paging allocator}
    (hgrown : Grown root kernel paging paging₁) (h : Assigned root kernel slot value paging₁ paging') :
    Assigned root kernel slot value paging paging' where
  slots {path} hslot := by
    rw [h.slots hslot, Function.update_apply, Function.update_apply, hgrown.slots hslot]
  tables htable hfound := h.tables htable (hgrown.kept htable hfound)
  freed := by
    obtain ⟨new, hfreed, hnodup, hnew⟩ := h.freed
    refine ⟨new, by rw [hfreed, hgrown.freed], hnodup, fun page ↦ ?_⟩
    rw [hnew, hgrown.mappings_eq]

/-- A slot with a valid entry leads to a page that the kernel knows. -/
theorem pte2page (h : Ownership npage root kernel paging data) (hslot : IsSlot kernel (index :: parent))
    {leaf old : ℕ} (hleaf : ppnAt paging.mem root parent = some leaf)
    (hold : ppnAt paging.mem root (index :: parent) = some (page2ppn old)) :
    paging.mem (entryOf leaf index) &&& PTE_V ≠ 0 ∧
      Ucore.pte2page npage (paging.mem (entryOf leaf index)) = .ok old := by
  obtain hnone | ⟨page, hpage, hsame⟩ := h.slot_cases hslot
  · rw [hnone] at hold
    exact absurd hold (by simp)
  · rw [hold] at hsame
    obtain rfl := page2ppn_inj.mp (Option.some.inj hsame)
    have hbound := (h.known hpage).2
    rw [ppnAt_cons_of hleaf, pteTarget] at hold
    split at hold
    · exact absurd hold (by simp)
    · rename_i hvalid
      have hppn := Option.some.inj hold
      refine ⟨hvalid, ?_⟩
      rw [pte2page_eq hvalid (hppn.symm ▸ Nat.le_add_left _ _) (hppn.symm ▸ hbound), hppn, page2ppn_sub]

/-- Writing an entry of a leaf table, with the counters and the allocator following suit. -/
theorem assign {leaf : ℕ} {pte : BitVec 64} {new : List ℕ}
    (h : Ownership npage root kernel paging data) (hnpage : npage ≤ KERNTOP / PGSIZE)
    (hslot : IsSlot kernel (index :: parent)) (hleaf : ppnAt paging.mem root parent = some leaf)
    (hvalue : ∀ target, pteTarget pte = some target → ∃ page ∈ data, page2ppn page = target)
    (hmem : paging'.mem = paging.mem.write (entryOf leaf index) pte)
    (hallocated : ∀ page ∈ allocator.allocated paging.frames,
      page ∈ allocator.allocated paging'.frames ↔
        ¬ Lost paging root (index :: parent) (pteTarget pte) page)
    (hrefs : ∀ page ∈ allocator.allocated paging.frames,
      page ∈ allocator.allocated paging'.frames →
        pageRef paging' page +
            (if ppnAt paging.mem root (index :: parent) = some (page2ppn page) then 1 else 0) =
          pageRef paging page + if pteTarget pte = some (page2ppn page) then 1 else 0)
    (hfreed : paging'.freed = new ++ paging.freed) (hnodup : new.Nodup)
    (hnew : ∀ page, page ∈ new ↔ Lost paging root (index :: parent) (pteTarget pte) page) :
    Ownership npage root kernel paging' (data ∩ allocator.allocated paging'.frames) ∧
      Assigned root kernel (index :: parent) (pteTarget pte) paging paging' := by
  obtain ⟨htree, hassign⟩ := show TableTree npage kernel (paging.mem.write (entryOf leaf index) pte) root ∧ _ from
    h.tree.setSlot pte hnpage hslot hleaf
  rw [← hmem] at htree hassign
  have hmem_slots := mem_slots.mpr hslot
  have hslots : ∀ {path}, IsSlot kernel path → ppnAt paging'.mem root path =
      Function.update (ppnAt paging.mem root) (index :: parent) (pteTarget pte) path :=
    fun hpath ↦ hassign _ hpath.1 hpath.2.le
  have htables : ∀ {path}, IsTable kernel path → ppnAt paging'.mem root path = ppnAt paging.mem root path := by
    intro path htable
    have hne : path ≠ index :: parent := by
      intro heq
      have hlength := htable.2
      rw [heq, hslot.2] at hlength
      exact absurd hlength (by decide)
    rw [hassign path htable.1 htable.2.le, Function.update_of_ne hne]
  have hcount : ∀ page, mappings kernel paging' root page = references (slots kernel)
      (Function.update (ppnAt paging.mem root) (index :: parent) (pteTarget pte)) (page2ppn page) :=
    fun page ↦ references_congr fun path hpath ↦ hslots (mem_slots.mp hpath)
  -- only data pages can be lost
  have hdata : ∀ {page}, ppnAt paging.mem root (index :: parent) = some (page2ppn page) →
      page ∈ data := by
    intro page hheld
    obtain ⟨other, hother, hsame⟩ := h.balanced.closed _ hmem_slots _ hheld
    exact page2ppn_inj.mp hsame ▸ hother
  have hlost : ∀ page, 0 < mappings kernel paging root page ∧ mappings kernel paging' root page = 0 ↔
      Lost paging root (index :: parent) (pteTarget pte) page := by
    intro page
    rw [hcount, mappings, references_lost_iff hmem_slots]
    unfold Lost
    refine and_congr_right fun hheld ↦ and_congr_right fun _ ↦ ?_
    rw [h.pageRef_eq (hdata hheld), mappings, Nat.cast_eq_one]
  refine ⟨⟨htree, fun {path ppn} htable hne hfound ↦ ?_, fun {page} hpage ↦ ?_, ?_⟩,
    ⟨hslots, fun htable hfound ↦ (htables htable).trans hfound, new, hfreed, hnodup,
      fun page ↦ (hnew page).trans (hlost page).symm⟩⟩
  · rw [htables htable] at hfound
    obtain ⟨page, hppn, hpage, href, hother⟩ := h.tables htable hne hfound
    have hheld : ppnAt paging.mem root (index :: parent) ≠ some (page2ppn page) :=
      fun hheld ↦ hother (hdata hheld)
    have hkept : page ∈ allocator.allocated paging'.frames :=
      (hallocated page hpage).mpr fun hlost ↦ hheld hlost.1
    have hval : pteTarget pte ≠ some (page2ppn page) := by
      intro hval
      obtain ⟨other, hmem', hsame⟩ := hvalue _ hval
      exact hother (page2ppn_inj.mp hsame ▸ hmem')
    have hstep := hrefs page hpage hkept
    rw [if_neg hheld, if_neg hval, Int.add_zero, Int.add_zero, href] at hstep
    exact ⟨page, hppn, hkept, hstep, fun hmem' ↦ hother hmem'.1⟩
  · exact ⟨hpage.2, (h.known hpage.1).2⟩
  · have hbalanced : Balanced (slots kernel)
        (Function.update (ppnAt paging.mem root) (index :: parent) (pteTarget pte))
        (fun ppn ↦ pageRef paging' (ppn - nbase))
        (page2ppn '' (data ∩ allocator.allocated paging'.frames)) := by
      refine h.balanced.assign hmem_slots hvalue ?_ ?_
      · intro target htarget
        obtain ⟨page, ⟨hpage, hkept⟩, rfl⟩ := htarget
        rw [page2ppn_sub]
        exact hrefs page (h.known hpage).1 hkept
      · intro target
        constructor
        · intro htarget
          obtain ⟨page, ⟨hpage, hkept⟩, rfl⟩ := htarget
          refine ⟨⟨page, hpage, rfl⟩, fun hgone ↦ ?_⟩
          rw [← hcount] at hgone
          exact (hallocated page (h.known hpage).1).mp hkept ((hlost page).mp hgone)
        · intro htarget
          obtain ⟨⟨page, hpage, rfl⟩, hstays⟩ := htarget
          rw [← hcount] at hstays
          exact ⟨page, ⟨hpage, (hallocated page (h.known hpage).1).mpr
            fun hgone ↦ hstays ((hlost page).mpr hgone)⟩, rfl⟩
    exact ⟨fun path hpath ppn hfound ↦ hbalanced.closed path hpath ppn
        (by rw [← hslots (mem_slots.mp hpath), hfound]),
      fun ppn howned ↦ (hbalanced.counts ppn howned).trans
        (congrArg _ (references_congr fun path hpath ↦ hslots (mem_slots.mp hpath)).symm)⟩

end Ownership

/-! ## Counting up and down -/

section Counters

variable {paging : Paging allocator} {page other : ℕ} {usable : ℕ → Prop}

/-- `page_ref_dec`, and `free_page` when no reference is left. -/
def dropRef (paging : Paging allocator) (page : ℕ) : Paging allocator :=
  if pageRef (pageRefDec paging page) page = 0 then freePage (pageRefDec paging page) page
  else pageRefDec paging page

theorem pageRef_setPageRef (hcorrect : allocator.Correct usable) (value : ℤ) :
    pageRef (setPageRef paging page value) other = if other = page then value
      else pageRef paging other := (hcorrect.setRef paging.frames page value).2 other

theorem allocated_setPageRef (hcorrect : allocator.Correct usable) (value : ℤ) :
    allocator.allocated (setPageRef paging page value).frames =
      allocator.allocated paging.frames := (hcorrect.setRef paging.frames page value).1

theorem dropRef_mem : (dropRef paging page).mem = paging.mem := by
  unfold dropRef
  split <;> rfl

theorem dropRef_last (hcorrect : allocator.Correct usable)
    (hpage : page ∈ allocator.allocated paging.frames) (href : pageRef paging page = 1) :
    allocator.allocated (dropRef paging page).frames = allocator.allocated paging.frames \ {page} ∧
      (dropRef paging page).freed = page :: paging.freed ∧
      ∀ other ∈ allocator.allocated paging.frames, other ≠ page →
        pageRef (dropRef paging page) other = pageRef paging other := by
  have hzero : pageRef (pageRefDec paging page) page = 0 := by
    rw [pageRefDec, pageRef_setPageRef hcorrect, if_pos rfl, href, Int.sub_self]
  have hkept : allocator.allocated (pageRefDec paging page).frames =
      allocator.allocated paging.frames := allocated_setPageRef hcorrect _
  obtain ⟨hallocated, hrefs⟩ := hcorrect.free (hkept.symm ▸ hpage)
  rw [dropRef, if_pos hzero]
  refine ⟨hallocated.trans (by rw [hkept]), rfl, fun other hother hne ↦ ?_⟩
  calc
    pageRef (freePage (pageRefDec paging page) page) other =
        pageRef (pageRefDec paging page) other := hrefs other (hkept.symm ▸ hother) hne
    _ = pageRef paging other := by
      rw [pageRefDec, pageRef_setPageRef hcorrect, if_neg hne]

theorem dropRef_shared (hcorrect : allocator.Correct usable) (href : pageRef paging page ≠ 1) :
    allocator.allocated (dropRef paging page).frames = allocator.allocated paging.frames ∧
      (dropRef paging page).freed = paging.freed ∧
      ∀ other, pageRef (dropRef paging page) other =
        pageRef paging other - if other = page then 1 else 0 := by
  have hnonzero : pageRef (pageRefDec paging page) page ≠ 0 := by
    rw [pageRefDec, pageRef_setPageRef hcorrect, if_pos rfl]
    omega
  rw [dropRef, if_neg hnonzero]
  refine ⟨allocated_setPageRef hcorrect _, rfl, fun other ↦ ?_⟩
  rw [pageRefDec, pageRef_setPageRef hcorrect]
  split
  · rename_i heq
    rw [heq]
  · rw [Int.sub_zero]

theorem pageRemovePte_eq {npage ptep : ℕ} (hvalid : paging.mem ptep &&& PTE_V ≠ 0)
    (hpage : pte2page npage (paging.mem ptep) = .ok page) :
    pageRemovePte npage paging ptep = .ok (setPte (dropRef paging page) ptep 0) := by
  rw [pageRemovePte, if_neg hvalid, hpage, ok_bind]
  rfl

end Counters

namespace Ownership

variable {npage root : ℕ} {kernel : Finset ℕ} {paging paging' : Paging allocator} {data : Set ℕ} {path parent : List ℕ}
  {index leaf page old : ℕ} {la : BitVec 64}

/-- Taking the page `old` out of a slot that gets the value `pte`. -/
theorem dropSlot {pte : BitVec 64} {counted : Paging allocator}
    (h : Ownership npage root kernel paging data) (hcorrect : allocator.Correct (Frame npage root))
    (hnpage : npage ≤ KERNTOP / PGSIZE) (hslot : IsSlot kernel (index :: parent))
    (hleaf : ppnAt paging.mem root parent = some leaf)
    (hold : ppnAt paging.mem root (index :: parent) = some (page2ppn old))
    (hvalue : ∀ target, pteTarget pte = some target → ∃ page ∈ data, page2ppn page = target)
    (hne : pteTarget pte ≠ some (page2ppn old))
    (hcounted : counted.mem = paging.mem ∧ counted.freed = paging.freed ∧
      allocator.allocated counted.frames = allocator.allocated paging.frames ∧
      ∀ page, pageRef counted page = pageRef paging page +
        if pteTarget pte = some (page2ppn page) then 1 else 0)
    (hmem : paging'.mem = paging.mem.write (entryOf leaf index) pte)
    (hframes : paging'.frames = (dropRef counted old).frames)
    (hfreed : paging'.freed = (dropRef counted old).freed) :
    Ownership npage root kernel paging' (data ∩ allocator.allocated paging'.frames) ∧
      Assigned root kernel (index :: parent) (pteTarget pte) paging paging' := by
  obtain ⟨-, hcounted_freed, hcounted_pages, hcounted_refs⟩ := hcounted
  have hallocated : old ∈ allocator.allocated paging.frames := by
    obtain hnone | ⟨page, hpage, hsame⟩ := h.slot_cases hslot
    · rw [hnone] at hold
      exact absurd hold (by simp)
    · rw [hold] at hsame
      exact page2ppn_inj.mp (Option.some.inj hsame) ▸ (h.known hpage).1
  have hold_ref : pageRef counted old = pageRef paging old := by
    rw [hcounted_refs, if_neg hne, Int.add_zero]
  have hheld : ∀ page, ppnAt paging.mem root (index :: parent) = some (page2ppn page) ↔
      page = old := by
    intro page
    rw [hold, Option.some.injEq, page2ppn_inj, eq_comm]
  have hrefs_eq : pageRef paging' = pageRef (dropRef counted old) := by
    funext page
    rw [pageRef, hframes, pageRef]
  by_cases hlast : pageRef paging old = 1
  · obtain ⟨hpages, hgone, hrefs⟩ :=
      dropRef_last hcorrect (hcounted_pages ▸ hallocated) (hold_ref.trans hlast)
    have hlost : ∀ page, Lost paging root (index :: parent) (pteTarget pte) page ↔ page = old := by
      intro page
      unfold Lost
      rw [hheld]
      constructor
      · exact fun hlost ↦ hlost.1
      · intro heq
        rw [heq]
        exact ⟨rfl, hne, hlast⟩
    refine h.assign hnpage hslot hleaf hvalue hmem (fun page hpage ↦ ?_) (fun page hpage hkept ↦ ?_)
      (show paging'.freed = [old] ++ paging.freed from ?_) (List.nodup_singleton old) fun page ↦ ?_
    · rw [hframes, hpages, hcounted_pages, hlost]
      exact ⟨fun hkept ↦ hkept.2, fun hne ↦ ⟨hpage, hne⟩⟩
    · rw [hframes, hpages] at hkept
      have hne : page ≠ old := hkept.2
      rw [hrefs_eq, hrefs page hkept.1 hne, hcounted_refs, if_neg ((hheld page).not.mpr hne),
        Int.add_zero]
    · rw [hfreed, hgone, hcounted_freed, List.singleton_append]
    · rw [hlost, List.mem_singleton]
  · obtain ⟨hpages, hgone, hrefs⟩ := dropRef_shared hcorrect (hold_ref ▸ hlast)
    have hlost : ∀ page, ¬ Lost paging root (index :: parent) (pteTarget pte) page := by
      intro page hlost
      have heq := (hheld page).mp hlost.1
      rw [heq] at hlost
      exact hlast hlost.2.2
    refine h.assign hnpage hslot hleaf hvalue hmem (fun page hpage ↦ ?_) (fun page hpage hkept ↦ ?_)
      (show paging'.freed = [] ++ paging.freed from ?_) List.nodup_nil fun page ↦ ?_
    · rw [hframes, hpages, hcounted_pages]
      exact iff_of_true hpage (hlost page)
    · rw [hrefs_eq, hrefs, hcounted_refs]
      simp only [hheld]
      omega
    · rw [hfreed, hgone, hcounted_freed, List.nil_append]
    · simp [hlost]

theorem inter_allocated (h : Ownership npage root kernel paging data) :
    data ∩ allocator.allocated paging.frames = data :=
  Set.inter_eq_left.mpr fun _ hpage ↦ (h.known hpage).1

/-- An empty slot stays empty. -/
theorem assigned_none (hslot : ppnAt paging.mem root path = none) :
    Assigned root kernel path none paging paging where
  slots _ := by rw [← hslot, Function.update_eq_self]
  tables _ hfound := hfound
  freed := ⟨[], rfl, List.nodup_nil, fun page ↦ by
    rw [List.mem_nil_iff, false_iff]
    intro hlost
    omega⟩

/-- `page_remove_pte` empties a slot. -/
theorem pageRemovePte (h : Ownership npage root kernel paging data)
    (hcorrect : allocator.Correct (Frame npage root)) (hnpage : npage ≤ KERNTOP / PGSIZE)
    (hslot : IsSlot kernel (index :: parent)) (hleaf : ppnAt paging.mem root parent = some leaf) :
    ∃ paging', Ucore.pageRemovePte npage paging (entryOf leaf index) = .ok paging' ∧
      Ownership npage root kernel paging' (data ∩ allocator.allocated paging'.frames) ∧
      Assigned root kernel (index :: parent) none paging paging' := by
  obtain hnone | ⟨old, -, hold⟩ := h.slot_cases hslot
  · refine ⟨paging, ?_, by rwa [h.inter_allocated], assigned_none hnone⟩
    rw [ppnAt_cons_of hleaf, pteTarget_eq_none] at hnone
    rw [Ucore.pageRemovePte, if_pos hnone]
    rfl
  · obtain ⟨hvalid, hpage⟩ := h.pte2page hslot hleaf hold
    refine ⟨_, pageRemovePte_eq hvalid hpage, ?_⟩
    rw [← pteTarget_zero]
    exact h.dropSlot hcorrect hnpage hslot hleaf hold (by simp [pteTarget_zero])
      (by simp [pteTarget_zero]) ⟨rfl, rfl, rfl, fun page ↦ by simp [pteTarget_zero]⟩
      (congrArg (Memory.write · (entryOf leaf index) 0) dropRef_mem) rfl rfl

/-- `page_remove` empties the slot of the address. -/
theorem pageRemove (h : Ownership npage root kernel paging data)
    (hcorrect : allocator.Correct (Frame npage root)) (hnpage : npage ≤ KERNTOP / PGSIZE)
    (hla : PDX1 la ∉ kernel) :
    ∃ paging', Ucore.pageRemove npage paging (frameKva root) la = .ok paging' ∧
      Ownership npage root kernel paging' (data ∩ allocator.allocated paging'.frames) ∧
      Assigned root kernel (slotOf la) none paging paging' := by
  unfold Ucore.pageRemove
  rw [h.tree.getPte_lookup hla, ok_bind]
  cases hleaf : ppnAt paging.mem root [PDX0 la, PDX1 la] with
  | none =>
    have hnone := ppnAt_eq_none_of_suffix hleaf (List.suffix_cons (PTX la) _)
    exact ⟨paging, rfl, by rwa [h.inter_allocated], assigned_none hnone⟩
  | some leaf => exact h.pageRemovePte hcorrect hnpage (isSlot_slotOf hla) hleaf

/-- What `page_ref_inc` does to the counters, seen from the new value of the slot. -/
theorem pageRefInc_counted (paging : Paging allocator) {word : BitVec 64} {usable : ℕ → Prop}
    (hcorrect : allocator.Correct usable) (hpte : pteTarget word = some (page2ppn page)) :
    (pageRefInc paging page).mem = paging.mem ∧ (pageRefInc paging page).freed = paging.freed ∧
      allocator.allocated (pageRefInc paging page).frames = allocator.allocated paging.frames ∧
      ∀ other, pageRef (pageRefInc paging page) other = pageRef paging other +
        if pteTarget word = some (page2ppn other) then 1 else 0 := by
  refine ⟨rfl, rfl, allocated_setPageRef hcorrect _, fun other ↦ ?_⟩
  have hiff : pteTarget word = some (page2ppn other) ↔ other = page := by
    rw [hpte, Option.some.injEq, page2ppn_inj, eq_comm]
  rw [pageRefInc, pageRef_setPageRef hcorrect]
  by_cases heq : other = page
  · rw [if_pos heq, if_pos (hiff.mpr heq), heq]
  · rw [if_neg heq, if_neg (hiff.not.mpr heq), Int.add_zero]

/-- Inserting a page where no other page is in the way. -/
theorem insertKept {word : BitVec 64} {replaced : Paging allocator}
    (h : Ownership npage root kernel paging data) (hnpage : npage ≤ KERNTOP / PGSIZE)
    (hslot : IsSlot kernel (index :: parent)) (hleaf : ppnAt paging.mem root parent = some leaf)
    (hpage : page ∈ data) (hpte : pteTarget word = some (page2ppn page))
    (hheld : ∀ other, ppnAt paging.mem root (index :: parent) = some (page2ppn other) →
      other = page)
    (hmem : replaced.mem = paging.mem) (hfreed : replaced.freed = paging.freed)
    (hpages : allocator.allocated replaced.frames = allocator.allocated paging.frames)
    (hrefs : ∀ other, pageRef replaced other +
        (if ppnAt paging.mem root (index :: parent) = some (page2ppn other) then 1 else 0) =
      pageRef paging other + if pteTarget word = some (page2ppn other) then 1 else 0) :
    let paging' := setPte replaced (entryOf leaf index) word
    Ownership npage root kernel paging' (data ∩ allocator.allocated paging'.frames) ∧
      Assigned root kernel (index :: parent) (some (page2ppn page)) paging paging' := by
  intro paging'
  have hlost : ∀ other, ¬ Lost paging root (index :: parent) (pteTarget word) other := by
    intro other hlost
    have heq := hheld other hlost.1
    exact hlost.2.1 (by rw [hpte, heq])
  have hvalue : ∀ target, pteTarget word = some target →
      ∃ page ∈ data, page2ppn page = target := by
    intro target htarget
    rw [hpte] at htarget
    exact ⟨page, hpage, Option.some.inj htarget⟩
  have hmem' : paging'.mem = paging.mem.write (entryOf leaf index) word :=
    congrArg (Memory.write · (entryOf leaf index) word) hmem
  rw [← hpte]
  refine h.assign hnpage hslot hleaf hvalue hmem' (fun other hother ↦ ?_) (fun other _ _ ↦ ?_)
    (show _ = [] ++ paging.freed from hfreed) List.nodup_nil fun other ↦ ?_
  · exact iff_of_true (hpages.symm ▸ hother) (hlost other)
  · exact hrefs other
  · exact iff_of_false List.not_mem_nil (hlost other)

/-- `page_insert` on the entry that `get_pte` found. -/
theorem insertSlot {perm : BitVec 32} (h : Ownership npage root kernel paging data)
    (hcorrect : allocator.Correct (Frame npage root)) (hnpage : npage ≤ KERNTOP / PGSIZE)
    (hslot : IsSlot kernel (index :: parent)) (hleaf : ppnAt paging.mem root parent = some leaf)
    (hpage : page ∈ data) (hperm : perm.toNat < 0x400) :
    ∃ replaced, pageReplace npage (pageRefInc paging page) page (entryOf leaf index) = .ok replaced ∧
      let paging' := setPte replaced (entryOf leaf index) (pteCreate (page2ppn page) (PTE_V ||| perm))
      Ownership npage root kernel paging' (data ∩ allocator.allocated paging'.frames) ∧
      Assigned root kernel (index :: parent) (some (page2ppn page)) paging paging' := by
  have hpte := pteTarget_pteCreate (ppn_lt hnpage (h.known hpage).2) (PTE_V_or_lt hperm)
  generalize pteCreate (page2ppn page) (PTE_V ||| perm) = word at *
  have hcounted := pageRefInc_counted paging hcorrect hpte
  obtain hnone | ⟨old, -, hold⟩ := h.slot_cases hslot
  · -- nothing is in the way
    have hinvalid : paging.mem (entryOf leaf index) &&& PTE_V = 0 := by
      rw [ppnAt_cons_of hleaf, pteTarget_eq_none] at hnone
      exact hnone
    refine ⟨pageRefInc paging page, ?_, ?_⟩
    · rw [pageReplace, hcounted.1, if_pos hinvalid]
      rfl
    · refine h.insertKept hnpage hslot hleaf hpage hpte (fun other hother ↦ ?_) hcounted.1
        hcounted.2.1 hcounted.2.2.1 fun other ↦ ?_
      · rw [hnone] at hother
        exact absurd hother (by simp)
      · rw [hnone, if_neg (by simp), Int.add_zero]
        exact hcounted.2.2.2 other
  · obtain ⟨hvalid, hold_page⟩ := h.pte2page hslot hleaf hold
    by_cases hsame : old = page
    · -- the page itself: its count goes up and down again
      rw [hsame] at hold hold_page
      refine ⟨pageRefDec (pageRefInc paging page) page, ?_, ?_⟩
      · rw [pageReplace, hcounted.1, if_neg hvalid, hold_page, ok_bind, if_pos rfl]
        rfl
      · refine h.insertKept hnpage hslot hleaf hpage hpte (fun other hother ↦ ?_) rfl rfl
          ((allocated_setPageRef hcorrect _).trans hcounted.2.2.1) fun other ↦ ?_
        · rw [hold, Option.some.injEq, page2ppn_inj] at hother
          exact hother.symm
        · rw [hold, hpte, pageRefDec, pageRef_setPageRef hcorrect, pageRefInc,
            pageRef_setPageRef hcorrect, pageRef_setPageRef hcorrect, if_pos rfl]
          by_cases heq : other = page
          · rw [if_pos heq, heq, Int.add_sub_cancel]
          · rw [if_neg heq, if_neg heq]
    · -- another page loses this reference
      have hne : pteTarget word ≠ some (page2ppn old) := by
        rw [hpte, Ne, Option.some.injEq, page2ppn_inj]
        exact Ne.symm hsame
      refine ⟨setPte (dropRef (pageRefInc paging page) old) (entryOf leaf index) 0, ?_, ?_⟩
      · rw [pageReplace, hcounted.1, if_neg hvalid, hold_page, ok_bind, if_neg hsame]
        exact pageRemovePte_eq hvalid hold_page
      · rw [← hpte]
        refine h.dropSlot hcorrect hnpage hslot hleaf hold (fun target htarget ↦ ?_) hne hcounted ?_
          rfl rfl
        · rw [hpte] at htarget
          exact ⟨page, hpage, Option.some.inj htarget⟩
        · change ((dropRef (pageRefInc paging page) old).mem.write _ _).write _ _ = _
          rw [write_write, dropRef_mem]
          rfl

/-- `page_insert` maps the page, or fails for want of a table. -/
theorem pageInsert {perm : BitVec 32} (h : Ownership npage root kernel paging data)
    (hcorrect : allocator.Correct (Frame npage root)) (hnpage : npage ≤ KERNTOP / PGSIZE)
    (hla : PDX1 la ∉ kernel) (hpage : page ∈ data) (hperm : perm.toNat < 0x400) :
    ∃ result paging', Ucore.pageInsert npage paging (frameKva root) page la perm =
        .ok (result, paging') ∧
      Ownership npage root kernel paging' (data ∩ allocator.allocated paging'.frames) ∧
      ((result = -E_NO_MEM ∧ Grown root kernel paging paging') ∨
        result = 0 ∧ Assigned root kernel (slotOf la) (some (page2ppn page)) paging paging') := by
  obtain ⟨ptep, paging₁, hcall, htables, hgrown, hptep⟩ :=
    h.toTables.getPte hcorrect hnpage hla
  have hown := h.of_grown htables hgrown
  unfold Ucore.pageInsert
  rw [hcall, ok_bind]
  rcases hptep with ⟨rfl, -⟩ | ⟨leaf, rfl, hleaf⟩
  · exact ⟨_, paging₁, rfl, by rwa [hown.inter_allocated], .inl ⟨rfl, hgrown⟩⟩
  · obtain ⟨replaced, hreplace, hown', hassigned⟩ :=
      hown.insertSlot hcorrect hnpage (isSlot_slotOf hla) hleaf hpage hperm
    refine ⟨0, _, ?_, hown', .inr ⟨rfl, hassigned.of_grown hgrown⟩⟩
    dsimp only
    rw [hreplace]
    rfl

end Ownership

end Ucore
