import Ucore.Foundation.Memory
import Ucore.Mm.Pmm

/-!
# Sv39 page tables (`kern/mm/pmm.c`, `kern/mm/mmu.h`)

Tables live in memory and entries are 64-bit words. The `ref` field of a page belongs to the state of
the page allocator, which shares `struct Page` with the page tables. `tlb_invalidate` changes no
modelled state and is left out.
-/

namespace Ucore

open Foundation Memory

/-! ## Addresses and entries -/

def PDX1 (la : BitVec 64) : ℕ := ((la >>> 30) &&& 0x1FF#64).toNat
def PDX0 (la : BitVec 64) : ℕ := ((la >>> 21) &&& 0x1FF#64).toNat
def PTX (la : BitVec 64) : ℕ := ((la >>> 12) &&& 0x1FF#64).toNat

/-- The number of entries of a table. -/
@[irreducible]
def NPTEENTRY : ℕ := 512

def PTE_V {w : ℕ} : BitVec w := 0x001#w
def PTE_U {w : ℕ} : BitVec w := 0x010#w

def PTE_ADDR (pte : BitVec 64) : ℕ := ((pte &&& ~~~0x3FF#64) <<< 2).toNat

def pteCreate (ppn : ℕ) (type : BitVec 32) : BitVec 64 :=
  (BitVec.ofNat 64 ppn <<< 10) ||| PTE_V ||| type.signExtend 64

def pte2page (npage : ℕ) (pte : BitVec 64) : Except Fault ℕ :=
  if pte &&& PTE_V = 0 then .error .panic else pa2page npage (PTE_ADDR pte)

def pde2page (npage : ℕ) (pde : BitVec 64) : Except Fault ℕ := pa2page npage (PTE_ADDR pde)

theorem pte2page_eq {npage : ℕ} {pte : BitVec 64} (hvalid : ¬ pte &&& PTE_V = 0)
    (hlower : nbase ≤ PPN (PTE_ADDR pte)) (hupper : PPN (PTE_ADDR pte) < npage) :
    pte2page npage pte = .ok (PPN (PTE_ADDR pte) - nbase) := by
  have hbound := PPN_lt (BitVec.isLt ((pte &&& ~~~0x3FF#64) <<< 2))
  rw [pte2page, if_neg hvalid]
  exact pa2page_eq hlower hupper (hbound.trans (by decide))

/-! ## Page frames and their reference counts -/

/-- `alloc_page` and `free_page` with the `ref` fields of the pages they work on. -/
structure FrameAllocator where
  State : Type
  allocPage : State → Option ℕ × State
  freePage : State → ℕ → State
  pageRef : State → ℕ → ℤ
  setPageRef : State → ℕ → ℤ → State
  allocated : State → Set ℕ

/-- A page that is handed out is usable, was not allocated and has no references; the references of
allocated pages are left alone. -/
structure FrameAllocator.Correct (allocator : FrameAllocator) (usable : ℕ → Prop) : Prop where
  setRef : ∀ state page value, allocator.allocated (allocator.setPageRef state page value) =
    allocator.allocated state ∧ ∀ other, allocator.pageRef (allocator.setPageRef state page value)
      other = if other = page then value else allocator.pageRef state other
  allocNull : ∀ {state state'}, allocator.allocPage state = (none, state') →
    allocator.allocated state' = allocator.allocated state ∧
      ∀ other ∈ allocator.allocated state,
        allocator.pageRef state' other = allocator.pageRef state other
  allocSome : ∀ {state state' page}, allocator.allocPage state = (some page, state') →
    usable page ∧ page ∉ allocator.allocated state ∧
      allocator.allocated state' = insert page (allocator.allocated state) ∧
      allocator.pageRef state' page = 0 ∧ ∀ other ∈ allocator.allocated state,
        allocator.pageRef state' other = allocator.pageRef state other
  free : ∀ {state page}, page ∈ allocator.allocated state →
    allocator.allocated (allocator.freePage state page) = allocator.allocated state \ {page} ∧
      ∀ other ∈ allocator.allocated state, other ≠ page →
        allocator.pageRef (allocator.freePage state page) other = allocator.pageRef state other

/-- The pages that are held, and all reference counts. -/
structure FrameList where
  held : List ℕ
  ref : ℕ → ℤ

/-- The lowest page that is not held; its count is zero, as `default_free_pages` leaves it. -/
def FrameAllocator.firstFit (lower count : ℕ) : FrameAllocator where
  State := FrameList
  allocPage frames :=
    match (List.range' lower count).find? (· ∉ frames.held) with
    | none => (none, frames)
    | some page => (some page, ⟨page :: frames.held, Function.update frames.ref page 0⟩)
  freePage frames page := ⟨frames.held.filter (· ≠ page), Function.update frames.ref page 0⟩
  pageRef := FrameList.ref
  setPageRef frames page value := { frames with ref := Function.update frames.ref page value }
  allocated frames := {page | page ∈ frames.held}

theorem FrameAllocator.firstFit_correct {usable : ℕ → Prop} {lower count : ℕ}
    (husable : ∀ page, lower ≤ page → page < lower + count → usable page) :
    (FrameAllocator.firstFit lower count).Correct usable where
  setRef frames page value := ⟨rfl, fun other ↦ Function.update_apply _ _ _ _⟩
  allocNull {frames frames'} halloc := by
    unfold firstFit at halloc
    dsimp only at halloc
    split at halloc
    · obtain ⟨-, rfl⟩ := Prod.mk.inj halloc
      exact ⟨rfl, fun _ _ ↦ rfl⟩
    · cases (Prod.mk.inj halloc).1
  allocSome {frames frames' page} halloc := by
    unfold firstFit at halloc
    dsimp only at halloc
    split at halloc
    · cases (Prod.mk.inj halloc).1
    · rename_i start hfind
      obtain ⟨hstart, rfl⟩ := Prod.mk.inj halloc
      obtain rfl := Option.some.inj hstart
      have hrange := List.mem_range'_1.mp (List.mem_of_find?_eq_some hfind)
      have hfound := List.find?_some hfind
      have hfree := of_decide_eq_true hfound
      refine ⟨husable start hrange.1 hrange.2, hfree, ?_, Function.update_self _ _ _, ?_⟩
      · ext other
        exact List.mem_cons
      · intro other hother
        have hne : other ≠ start := by
          rintro rfl
          exact hfree hother
        exact Function.update_of_ne hne _ _
  free {frames page} _ := by
    refine ⟨?_, fun other _ hne ↦ Function.update_of_ne hne _ _⟩
    ext other
    refine List.mem_filter.trans ?_
    rw [decide_eq_true_iff]
    rfl

/-- The memory, the page allocator and the pages that were passed to `free_page` so far. -/
structure Paging (allocator : FrameAllocator) where
  mem : Memory
  frames : allocator.State
  freed : List ℕ

variable {allocator : FrameAllocator}

def pageRef (paging : Paging allocator) (page : ℕ) : ℤ := allocator.pageRef paging.frames page

def setPageRef (paging : Paging allocator) (page : ℕ) (value : ℤ) : Paging allocator :=
  { paging with frames := allocator.setPageRef paging.frames page value }

def pageRefInc (paging : Paging allocator) (page : ℕ) : Paging allocator :=
  setPageRef paging page (pageRef paging page + 1)

def pageRefDec (paging : Paging allocator) (page : ℕ) : Paging allocator :=
  setPageRef paging page (pageRef paging page - 1)

def freePage (paging : Paging allocator) (page : ℕ) : Paging allocator :=
  { paging with
    frames := allocator.freePage paging.frames page
    freed := page :: paging.freed }

/-- `*pte = value` -/
def setPte (paging : Paging allocator) (pte : ℕ) (value : BitVec 64) : Paging allocator :=
  { paging with mem := paging.mem.write pte value }

/-- `memset(kva, 0, PGSIZE)` -/
def clearPage (paging : Paging allocator) (kva : ℕ) : Paging allocator :=
  { paging with mem := paging.mem.fill kva PGSIZE 0 }

/-! ## The operations -/

/-- The block `if (!(*pdep & PTE_V)) { ... }`, which `get_pte` runs for both upper levels: the result
tells whether the entry is valid now. -/
def createTable (npage : ℕ) (paging : Paging allocator) (pdep : ℕ) (create : Bool) :
    Except Fault (Bool × Paging allocator) := do
  if paging.mem pdep &&& PTE_V ≠ 0 then return (true, paging)
  if !create then return (false, paging)
  match allocator.allocPage paging.frames with
  | (none, frames) => return (false, { paging with frames })
  | (some page, frames) =>
    let paging := setPageRef { paging with frames } page 1
    let kva ← KADDR npage (page2pa page)
    let paging := clearPage paging kva
    return (true, setPte paging pdep (pteCreate (page2ppn page) (PTE_U ||| PTE_V)))

def getPte (npage : ℕ) (paging : Paging allocator) (pgdir : ℕ) (la : BitVec 64) (create : Bool) :
    Except Fault (Option ℕ × Paging allocator) := do
  let pdep1 := pgdir + 8 * PDX1 la
  let (present, paging) ← createTable npage paging pdep1 create
  if !present then return (none, paging)
  let middle ← KADDR npage (PTE_ADDR (paging.mem pdep1))
  let pdep0 := middle + 8 * PDX0 la
  let (present, paging) ← createTable npage paging pdep0 create
  if !present then return (none, paging)
  let leaf ← KADDR npage (PTE_ADDR (paging.mem pdep0))
  return (some (leaf + 8 * PTX la), paging)

/-- The page that `get_page` returns, with what it stores in `*ptep_store`. -/
def getPage (npage : ℕ) (paging : Paging allocator) (pgdir : ℕ) (la : BitVec 64) :
    Except Fault (Option ℕ × Option ℕ) := do
  let (ptep, paging) ← getPte npage paging pgdir la false
  match ptep with
  | none => return (none, none)
  | some pte =>
    if paging.mem pte &&& PTE_V = 0 then return (none, ptep)
    let page ← pte2page npage (paging.mem pte)
    return (some page, ptep)

def pageRemovePte (npage : ℕ) (paging : Paging allocator) (ptep : ℕ) :
    Except Fault (Paging allocator) := do
  if paging.mem ptep &&& PTE_V = 0 then return paging
  let page ← pte2page npage (paging.mem ptep)
  let paging := pageRefDec paging page
  let paging := if pageRef paging page = 0 then freePage paging page else paging
  return setPte paging ptep 0

def pageRemove (npage : ℕ) (paging : Paging allocator) (pgdir : ℕ) (la : BitVec 64) :
    Except Fault (Paging allocator) := do
  let (ptep, paging) ← getPte npage paging pgdir la false
  match ptep with
  | none => return paging
  | some ptep => pageRemovePte npage paging ptep

/-- What `page_insert` does to the entry that is in the way. -/
def pageReplace (npage : ℕ) (paging : Paging allocator) (page ptep : ℕ) :
    Except Fault (Paging allocator) := do
  if paging.mem ptep &&& PTE_V = 0 then return paging
  let p ← pte2page npage (paging.mem ptep)
  if p = page then return pageRefDec paging page
  pageRemovePte npage paging ptep

def pageInsert (npage : ℕ) (paging : Paging allocator) (pgdir page : ℕ) (la : BitVec 64)
    (perm : BitVec 32) : Except Fault (ℤ × Paging allocator) := do
  let (ptep, paging) ← getPte npage paging pgdir la true
  match ptep with
  | none => return (-E_NO_MEM, paging)
  | some ptep =>
    let paging ← pageReplace npage (pageRefInc paging page) page ptep
    return (0, setPte paging ptep (pteCreate (page2ppn page) (PTE_V ||| perm)))

end Ucore
