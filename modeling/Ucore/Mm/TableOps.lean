import Ucore.Foundation.Cache
import Ucore.Mm.PageTable

/-!
# What the calls do to the memory and the TLB (`kern/mm/pmm.c`)

The hardware walks the tables while a call is at work. Here the calls return what it can see of them, in
program order: every store to an entry, every cleared page and every `sfence.vma`. Without these lists they
are the calls of the page tables.
-/

namespace Ucore

open Foundation Memory

inductive TableOp
  | store (pte : ℕ) (value : BitVec 64)
  | memset (kva : ℕ)
  | sfenceVma (la : BitVec 64)
  deriving DecidableEq

/-- `tlb_invalidate` -/
def tlbInvalidate (la : BitVec 64) : TableOp := .sfenceVma la

variable {allocator : FrameAllocator}

/-! ## The operations -/

def createTableOps (npage : ℕ) (paging : Paging allocator) (pdep : ℕ) (create : Bool) :
    Except Fault (Bool × Paging allocator × List TableOp) := do
  if paging.mem pdep &&& PTE_V ≠ 0 then return (true, paging, [])
  if !create then return (false, paging, [])
  match allocator.allocPage paging.frames with
  | (none, frames) => return (false, { paging with frames }, [])
  | (some page, frames) =>
    let paging := setPageRef { paging with frames } page 1
    let kva ← KADDR npage (page2pa page)
    let paging := clearPage paging kva
    let pte := pteCreate (page2ppn page) (PTE_U ||| PTE_V)
    return (true, setPte paging pdep pte, [.memset kva, .store pdep pte])

def getPteOps (npage : ℕ) (paging : Paging allocator) (pgdir : ℕ) (la : BitVec 64) (create : Bool) :
    Except Fault (Option ℕ × Paging allocator × List TableOp) := do
  let pdep1 := pgdir + 8 * PDX1 la
  let (present, paging, upper) ← createTableOps npage paging pdep1 create
  if !present then return (none, paging, upper)
  let middle ← KADDR npage (PTE_ADDR (paging.mem pdep1))
  let pdep0 := middle + 8 * PDX0 la
  let (present, paging, lower) ← createTableOps npage paging pdep0 create
  if !present then return (none, paging, upper ++ lower)
  let leaf ← KADDR npage (PTE_ADDR (paging.mem pdep0))
  return (some (leaf + 8 * PTX la), paging, upper ++ lower)

def pageRemovePteOps (npage : ℕ) (paging : Paging allocator) (la : BitVec 64) (ptep : ℕ) :
    Except Fault (Paging allocator × List TableOp) := do
  if paging.mem ptep &&& PTE_V = 0 then return (paging, [])
  let page ← pte2page npage (paging.mem ptep)
  let paging := pageRefDec paging page
  let paging := if pageRef paging page = 0 then freePage paging page else paging
  return (setPte paging ptep 0, [.store ptep 0, tlbInvalidate la])

def pageRemoveOps (npage : ℕ) (paging : Paging allocator) (pgdir : ℕ) (la : BitVec 64) :
    Except Fault (Paging allocator × List TableOp) := do
  let (ptep, paging, walk) ← getPteOps npage paging pgdir la false
  match ptep with
  | none => return (paging, walk)
  | some ptep =>
    let (paging, remove) ← pageRemovePteOps npage paging la ptep
    return (paging, walk ++ remove)

def pageReplaceOps (npage : ℕ) (paging : Paging allocator) (page : ℕ) (la : BitVec 64) (ptep : ℕ) :
    Except Fault (Paging allocator × List TableOp) := do
  if paging.mem ptep &&& PTE_V = 0 then return (paging, [])
  let p ← pte2page npage (paging.mem ptep)
  if p = page then return (pageRefDec paging page, [])
  pageRemovePteOps npage paging la ptep

def pageInsertOps (npage : ℕ) (paging : Paging allocator) (pgdir page : ℕ) (la : BitVec 64)
    (perm : BitVec 32) : Except Fault (ℤ × Paging allocator × List TableOp) := do
  let (ptep, paging, walk) ← getPteOps npage paging pgdir la true
  match ptep with
  | none => return (-E_NO_MEM, paging, walk)
  | some ptep =>
    let (paging, replace) ← pageReplaceOps npage (pageRefInc paging page) page la ptep
    let pte := pteCreate (page2ppn page) (PTE_V ||| perm)
    return (0, setPte paging ptep pte, walk ++ replace ++ [.store ptep pte, tlbInvalidate la])

/-! ## Without the lists -/

section Erasure

variable {npage pgdir pdep ptep page : ℕ} {paging : Paging allocator} {la : BitVec 64}
  {perm : BitVec 32} {create : Bool}

/-- Forget the list. -/
abbrev withoutOps {α β γ : Type} (outcome : α × β × γ) : α × β := (outcome.1, outcome.2.1)

theorem createTableOps_erase : withoutOps <$> createTableOps npage paging pdep create =
    createTable npage paging pdep create := by
  unfold createTableOps createTable
  by_cases hvalid : paging.mem pdep &&& PTE_V ≠ 0
  · rw [if_pos hvalid, if_pos hvalid]
    rfl
  · rw [if_neg hvalid, if_neg hvalid]
    cases create with
    | false => rfl
    | true =>
      rw [if_neg (by decide), if_neg (by decide)]
      rcases allocator.allocPage paging.frames with ⟨child | child, frames⟩
      · rfl
      · dsimp only
        rw [map_bind]
        rfl

theorem getPteOps_erase : withoutOps <$> getPteOps npage paging pgdir la create =
    getPte npage paging pgdir la create := by
  unfold getPteOps getPte
  simp only [← createTableOps_erase, bind_map_left, map_bind]
  refine bind_congr fun upper ↦ ?_
  obtain ⟨present, paging, upper⟩ := upper
  cases present with
  | false => rfl
  | true =>
    dsimp only [withoutOps]
    rw [if_neg (by decide), if_neg (by decide), map_bind]
    refine bind_congr fun middle ↦ ?_
    rw [map_bind]
    refine bind_congr fun lower ↦ ?_
    obtain ⟨present, paging, lower⟩ := lower
    cases present with
    | false => rfl
    | true =>
      dsimp only
      rw [if_neg (by decide), if_neg (by decide), map_bind]
      rfl

theorem pageRemovePteOps_erase : Prod.fst <$> pageRemovePteOps npage paging la ptep =
    pageRemovePte npage paging ptep := by
  unfold pageRemovePteOps pageRemovePte
  split_ifs
  · rfl
  · rw [map_bind]
    rfl

theorem pageRemoveOps_erase : Prod.fst <$> pageRemoveOps npage paging pgdir la =
    pageRemove npage paging pgdir la := by
  unfold pageRemoveOps pageRemove
  rw [← getPteOps_erase, bind_map_left, map_bind]
  refine bind_congr fun walk ↦ ?_
  obtain ⟨ptep | ptep, paging, walk⟩ := walk
  · rfl
  · dsimp only [withoutOps]
    rw [← pageRemovePteOps_erase, map_bind, ← bind_pure_comp]
    rfl

theorem pageReplaceOps_erase : Prod.fst <$> pageReplaceOps npage paging page la ptep =
    pageReplace npage paging page ptep := by
  unfold pageReplaceOps pageReplace
  rw [← pageRemovePteOps_erase]
  split_ifs
  · rfl
  · rw [map_bind]
    refine bind_congr fun p ↦ ?_
    split_ifs <;> rfl

theorem pageInsertOps_erase : withoutOps <$> pageInsertOps npage paging pgdir page la perm =
    pageInsert npage paging pgdir page la perm := by
  unfold pageInsertOps pageInsert
  rw [← getPteOps_erase, bind_map_left, map_bind]
  refine bind_congr fun walk ↦ ?_
  obtain ⟨ptep | ptep, paging, walk⟩ := walk
  · rfl
  · dsimp only [withoutOps]
    rw [← pageReplaceOps_erase, map_bind, bind_map_left]
    rfl

end Erasure

end Ucore
