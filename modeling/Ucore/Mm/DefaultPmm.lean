import Ucore.Libs.Defs
import Ucore.Libs.List

/-!
# The first-fit page allocator (`kern/mm/default_pmm.c`)

A `struct Page *` is the index of the page in the `pages` array, so pointer comparison is the
order of the indices. A `list_entry_t *` is either `&free_list` or the `page_link` of a page, and
`le2page` is the match on the second case: the source never applies it to `&free_list`. The loops
that walk the list take fuel.
-/

namespace Ucore

open Foundation

/-- `struct Page`, less the fields of the page replacement lab. -/
structure Page where
  ref : ℤ
  flags : BitVec 64
  property : ℕ
deriving DecidableEq

def PG_reserved : ℕ := 0
def PG_property : ℕ := 1

def setPageReserved (page : Page) : Page := { page with flags := setBit PG_reserved page.flags }
def setPageProperty (page : Page) : Page := { page with flags := setBit PG_property page.flags }
def clearPageProperty (page : Page) : Page := { page with flags := clearBit PG_property page.flags }
def pageReserved (page : Page) : Bool := testBit PG_reserved page.flags
def pageProperty (page : Page) : Bool := testBit PG_property page.flags

section Flags

variable (page : Page)

@[simp]
theorem setPageProperty_property : (setPageProperty page).property = page.property := rfl

@[simp]
theorem clearPageProperty_property : (clearPageProperty page).property = page.property := rfl

@[simp]
theorem pageProperty_setPageProperty : pageProperty (setPageProperty page) = true := by
  simp [pageProperty, setPageProperty, PG_property, testBit_setBit]

@[simp]
theorem pageProperty_clearPageProperty : pageProperty (clearPageProperty page) = false := by
  simp [pageProperty, clearPageProperty, PG_property, testBit_clearBit]

@[simp]
theorem pageReserved_setPageProperty :
    pageReserved (setPageProperty page) = pageReserved page := by
  simp [pageReserved, setPageProperty, PG_property, PG_reserved, testBit_setBit]

@[simp]
theorem pageReserved_clearPageProperty :
    pageReserved (clearPageProperty page) = pageReserved page := by
  simp [pageReserved, clearPageProperty, PG_property, PG_reserved, testBit_clearBit]

@[simp]
theorem pageProperty_of_zero (ref : ℤ) (property : ℕ) :
    pageProperty ⟨ref, 0#64, property⟩ = false := by
  simp [pageProperty]

@[simp]
theorem pageReserved_of_zero (ref : ℤ) (property : ℕ) :
    pageReserved ⟨ref, 0#64, property⟩ = false := by
  simp [pageReserved]

end Flags

/-- The list entries of the allocator. -/
inductive ListEntry where
  | freeList
  | pageLink (page : ℕ)
deriving DecidableEq

/-- `free_area` together with the page descriptors it threads its list through. -/
structure FreeArea where
  links : Links ListEntry
  pages : ℕ → Page
  nrFree : ℕ

namespace FreeArea

/-- Change one page descriptor. -/
def updatePage (area : FreeArea) (page : ℕ) (f : Page → Page) : FreeArea :=
  { area with pages := fun other ↦ if other = page then f (area.pages other) else area.pages other }

variable (area : FreeArea) (page other : ℕ) (f : Page → Page)

@[simp]
theorem updatePage_pages : (area.updatePage page f).pages other =
    if other = page then f (area.pages other) else area.pages other := rfl

@[simp]
theorem updatePage_links : (area.updatePage page f).links = area.links := rfl

@[simp]
theorem updatePage_nrFree : (area.updatePage page f).nrFree = area.nrFree := rfl

end FreeArea

open ListEntry

def defaultInit (area : FreeArea) : FreeArea :=
  { area with links := listInit area.links freeList, nrFree := 0 }

/-- The `while` loop that looks for the place of `base` and links it in. -/
def insertScan (base : ℕ) : ℕ → Links ListEntry → ListEntry → Except Fault (Links ListEntry)
  | 0, _, _ => .error .outOfFuel
  | fuel + 1, links, le =>
    match links.next le with
    | freeList => .ok links
    | pageLink page =>
      if base < page then .ok (listAddBefore links (pageLink page) (pageLink base))
      else if links.next (pageLink page) = freeList then
        -- no `break` here: the walk goes on from `le` in the list that now holds `base`
        insertScan base fuel (listAdd links (pageLink page) (pageLink base)) (pageLink page)
      else insertScan base fuel links (pageLink page)

/-- Link `base` into the free list, in the order of the addresses. -/
def insertFree (fuel : ℕ) (links : Links ListEntry) (base : ℕ) :
    Except Fault (Links ListEntry) :=
  if listEmpty links freeList then .ok (listAdd links freeList (pageLink base))
  else insertScan base fuel links freeList

/-- The `for` loop of `default_init_memmap` over the `count` pages from `page` on. -/
def initPages : ℕ → ℕ → FreeArea → Except Fault FreeArea
  | _, 0, area => .ok area
  | page, count + 1, area => do
    assert (pageReserved (area.pages page))
    initPages (page + 1) count (area.updatePage page fun _ ↦ ⟨0, 0#64, 0⟩)

def defaultInitMemmap (fuel : ℕ) (area : FreeArea) (base n : ℕ) : Except Fault FreeArea := do
  assert (n > 0)
  let area ← initPages base n area
  let area := area.updatePage base fun page ↦ setPageProperty { page with property := uint32 n }
  let area := { area with nrFree := uint32 (area.nrFree + n) }
  let links ← insertFree fuel area.links base
  return { area with links }

/-- Take the first `n` pages of the block of `page` off the free list. -/
def takePages (area : FreeArea) (page n : ℕ) : FreeArea :=
  let prev := area.links.prev (pageLink page)
  let area := { area with links := listDel area.links (pageLink page) }
  let size := (area.pages page).property
  let area :=
    if size > n then
      let area := area.updatePage (page + n) fun p ↦
        setPageProperty { p with property := uint32 (size - n) }
      { area with links := listAdd area.links prev (pageLink (page + n)) }
    else area
  { area with nrFree := area.nrFree - n }.updatePage page clearPageProperty

/-- `p->property >= n` for the page of a list entry. -/
def hasRoom (area : FreeArea) (n : ℕ) : ListEntry → Bool
  | freeList => false
  | pageLink page => (area.pages page).property ≥ n

def defaultAllocPages (fuel : ℕ) (area : FreeArea) (n : ℕ) :
    Except Fault (Option ℕ × FreeArea) := do
  assert (n > 0)
  -- past this test `nr_free -= n` does not wrap
  if n > area.nrFree then return (none, area)
  match area.links.findFrom freeList (hasRoom area n) fuel freeList with
  | none => throw .outOfFuel
  | some (some (pageLink page)) => return (some page, takePages area page n)
  | some _ => return (none, area)

/-- The `for` loop of `default_free_pages` over the `count` pages from `page` on. -/
def freeLoop : ℕ → ℕ → FreeArea → Except Fault FreeArea
  | _, 0, area => .ok area
  | page, count + 1, area => do
    assert (!pageReserved (area.pages page) && !pageProperty (area.pages page))
    freeLoop (page + 1) count (area.updatePage page fun p ↦ { p with flags := 0#64, ref := 0 })

/-- `left->property += right->property; ClearPageProperty(right); list_del(&(right->page_link))` -/
def absorb (area : FreeArea) (left right : ℕ) : FreeArea :=
  let size := (area.pages right).property
  let area := area.updatePage left fun page ↦ { page with property := uint32 (page.property + size) }
  let area := area.updatePage right clearPageProperty
  { area with links := listDel area.links (pageLink right) }

/-- Merge `base` into the block in front of it; also the base of the block it now belongs to. -/
def mergePrev (area : FreeArea) (base : ℕ) : FreeArea × ℕ :=
  match area.links.prev (pageLink base) with
  | freeList => (area, base)
  | pageLink p =>
    if p + (area.pages p).property = base then (absorb area p base, p) else (area, base)

/-- Merge the block behind `base` into it. -/
def mergeNext (area : FreeArea) (base : ℕ) : FreeArea :=
  match area.links.next (pageLink base) with
  | freeList => area
  | pageLink p =>
    if base + (area.pages base).property = p then absorb area base p else area

@[simp]
theorem absorb_nrFree (area : FreeArea) (left right : ℕ) :
    (absorb area left right).nrFree = area.nrFree := rfl

@[simp]
theorem mergePrev_nrFree (area : FreeArea) (base : ℕ) :
    (mergePrev area base).1.nrFree = area.nrFree := by
  unfold mergePrev
  split
  · rfl
  · split <;> rfl

@[simp]
theorem mergeNext_nrFree (area : FreeArea) (base : ℕ) :
    (mergeNext area base).nrFree = area.nrFree := by
  unfold mergeNext
  split
  · rfl
  · split <;> rfl

def defaultFreePages (fuel : ℕ) (area : FreeArea) (base n : ℕ) : Except Fault FreeArea := do
  assert (n > 0)
  let area ← freeLoop base n area
  let area := area.updatePage base fun page ↦ setPageProperty { page with property := uint32 n }
  let area := { area with nrFree := uint32 (area.nrFree + n) }
  let links ← insertFree fuel area.links base
  let (area, base) := mergePrev { area with links } base
  return mergeNext area base

def defaultNrFreePages (area : FreeArea) : ℕ := area.nrFree

end Ucore
