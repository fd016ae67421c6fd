import Ucore.Foundation.Blocks
import Ucore.Libs.Defs

/-!
# Pages, addresses and the page allocator (`kern/mm/pmm.h`)

A `struct Page *` is the index of the page in `pages`. The conversions between pages, physical and
kernel virtual addresses work on 64-bit addresses and panic as the macros do. `PageAllocator` is what
`alloc_pages` and `free_pages` show to the rest of the kernel.
-/

namespace Ucore

open Foundation

def KERNBASE : ℕ := 0xFFFFFFFFC0200000
def KMEMSIZE : ℕ := 0x7E00000
def KERNTOP : ℕ := KERNBASE + KMEMSIZE
def PGSIZE : ℕ := 4096
def DRAM_BASE : ℕ := 0x80000000
def nbase : ℕ := DRAM_BASE / PGSIZE

/-- `va_pa_offset` has the value `PHYSICAL_MEMORY_OFFSET` from `page_init` on. -/
def va_pa_offset : ℕ := 0xFFFFFFFF40000000

/-- The bytes lie in the uppermost GiB, which is all that `boot_page_table_sv39` maps. -/
def BootMapped (kva length : ℕ) : Prop := DRAM_BASE + va_pa_offset ≤ kva ∧ kva + length ≤ 2 ^ 64

instance (kva length : ℕ) : Decidable (BootMapped kva length) :=
  inferInstanceAs (Decidable (_ ∧ _))

/-- `la >> PTXSHIFT` -/
def PPN (la : ℕ) : ℕ := la / PGSIZE

def page2ppn (page : ℕ) : ℕ := page + nbase

def page2pa (page : ℕ) : ℕ := page2ppn page * PGSIZE % 2 ^ 64

def PADDR (kva : ℕ) : Except Fault ℕ :=
  if kva < KERNBASE then .error .panic else .ok (kva - va_pa_offset)

def KADDR (npage pa : ℕ) : Except Fault ℕ :=
  if PPN pa ≥ npage then .error .panic else .ok ((pa + va_pa_offset) % 2 ^ 64)

/-- The index is a difference of two `size_t` and wraps below `nbase`. -/
def pa2page (npage pa : ℕ) : Except Fault ℕ :=
  if PPN pa ≥ npage then .error .panic else .ok ((PPN pa + (2 ^ 64 - nbase)) % 2 ^ 64)

def page2kva (npage page : ℕ) : Except Fault ℕ := KADDR npage (page2pa page)

def kva2page (npage kva : ℕ) : Except Fault ℕ := do
  let pa ← PADDR kva
  pa2page npage pa

/-- The kernel virtual address of a page. -/
def kvaOf (page : ℕ) : ℕ := (page2pa page + va_pa_offset) % 2 ^ 64

/-- The bytes of a page. -/
def pageBytes (page : ℕ) : Block := ⟨kvaOf page, PGSIZE⟩

@[simp]
theorem pageBytes_size (page : ℕ) : (pageBytes page).size = PGSIZE := rfl

section Conversions

variable {npage page pa : ℕ}

theorem PPN_lt (hpa : pa < 2 ^ 64) : PPN pa < 2 ^ 52 := by
  unfold PPN PGSIZE
  omega

/-- Physical pages from `nbase` on have the index that the source means. -/
theorem pa2page_eq (hlower : nbase ≤ PPN pa) (hupper : PPN pa < npage) (hpa : PPN pa < 2 ^ 64) :
    pa2page npage pa = .ok (PPN pa - nbase) := by
  have hindex : (PPN pa + (2 ^ 64 - nbase)) % 2 ^ 64 = PPN pa - nbase := by
    unfold nbase DRAM_BASE PGSIZE at *
    omega
  rw [pa2page, if_neg (by omega), hindex]

/-- `page_init` keeps `npage` small enough for page numbers to fit in an address. -/
theorem page2pa_eq (hnpage : npage ≤ KERNTOP / PGSIZE) (hpage : page2ppn page < npage) :
    page2pa page = page2ppn page * PGSIZE := by
  unfold page2pa KERNTOP KERNBASE KMEMSIZE PGSIZE at *
  exact Nat.mod_eq_of_lt (by omega)

theorem PPN_page2pa (hnpage : npage ≤ KERNTOP / PGSIZE) (hpage : page2ppn page < npage) :
    PPN (page2pa page) = page2ppn page := by
  rw [page2pa_eq hnpage hpage, PPN]
  exact Nat.mul_div_cancel _ (by decide)

theorem pa2page_page2pa (hnpage : npage ≤ KERNTOP / PGSIZE) (hpage : page2ppn page < npage) :
    pa2page npage (page2pa page) = .ok page := by
  have hppn := PPN_page2pa hnpage hpage
  have hbound : page2ppn page < 2 ^ 52 := hpage.trans_le (hnpage.trans (by decide))
  rw [pa2page_eq (hppn.symm ▸ Nat.le_add_left _ _) (hppn.symm ▸ hpage) (by omega), hppn, page2ppn,
    Nat.add_sub_cancel]

theorem page2kva_eq (hnpage : npage ≤ KERNTOP / PGSIZE) (hpage : page2ppn page < npage) :
    page2kva npage page = .ok (kvaOf page) := by
  rw [page2kva, KADDR, PPN_page2pa hnpage hpage, if_neg (by omega), kvaOf]

/-- The address of a page above `KERNBASE` is linear in the page. -/
theorem kvaOf_eq (hnpage : npage ≤ KERNTOP / PGSIZE) (hpage : page2ppn page < npage)
    (hbase : KERNBASE ≤ kvaOf page) : kvaOf page = page2ppn page * PGSIZE + va_pa_offset := by
  have hpa := page2pa_eq hnpage hpage
  rw [kvaOf, hpa] at hbase ⊢
  unfold KERNTOP KMEMSIZE KERNBASE PGSIZE va_pa_offset at *
  omega

theorem kva2page_kvaOf (hnpage : npage ≤ KERNTOP / PGSIZE) (hpage : page2ppn page < npage)
    (hbase : KERNBASE ≤ kvaOf page) : kva2page npage (kvaOf page) = .ok page := by
  have hkva := kvaOf_eq hnpage hpage hbase
  rw [kva2page, PADDR, if_neg (by omega), hkva, Nat.add_sub_cancel, ok_bind,
    ← page2pa_eq hnpage hpage]
  exact pa2page_page2pa hnpage hpage

end Conversions

/-- `alloc_pages` and `free_pages` over the state they work on. A block of pages is outstanding from
the call that lends it to the call that gives it back. -/
structure PageAllocator where
  State : Type
  allocPages : State → ℕ → Option ℕ × State
  freePages : State → ℕ → ℕ → State
  outstanding : State → Set Block

/-- Lent pages are usable and not lent already; giving a block back ends its loan. -/
structure PageAllocator.Correct (allocator : PageAllocator) (usable : ℕ → Prop) : Prop where
  allocNull : ∀ {state state' n}, allocator.allocPages state n = (none, state') →
    allocator.outstanding state' = allocator.outstanding state
  allocSome : ∀ {state state' n page}, 0 < n →
    allocator.allocPages state n = (some page, state') →
    (∀ other ∈ Block.cells ⟨page, n⟩, usable other) ∧
      (∀ block ∈ allocator.outstanding state, Disjoint block.cells (Block.cells ⟨page, n⟩)) ∧
      allocator.outstanding state' = insert ⟨page, n⟩ (allocator.outstanding state)
  free : ∀ {state} {block : Block}, block ∈ allocator.outstanding state →
    allocator.outstanding (allocator.freePages state block.start block.size) =
      allocator.outstanding state \ {block}

/-! ## An allocator by the book -/

/-- A block that lies on one side of every block of `held`. -/
def Vacant (held : List Block) (block : Block) : Prop :=
  ∀ other ∈ held, other.stop ≤ block.start ∨ block.stop ≤ other.start

instance (held : List Block) (block : Block) : Decidable (Vacant held block) :=
  inferInstanceAs (Decidable (∀ other ∈ held, _))

/-- The lowest vacant run of `n` pages. -/
def lowestFit (lower count : ℕ) (held : List Block) (n : ℕ) : Option ℕ :=
  (List.range' lower count).find?
    fun start ↦ start + n ≤ lower + count ∧ Vacant held ⟨start, n⟩

theorem lowestFit_spec {lower count n page : ℕ} {held : List Block}
    (h : lowestFit lower count held n = some page) :
    lower ≤ page ∧ page + n ≤ lower + count ∧ Vacant held ⟨page, n⟩ := by
  have hmem := List.mem_of_find?_eq_some h
  have hfound := List.find?_some h
  obtain ⟨hfits, hvacant⟩ := of_decide_eq_true hfound
  exact ⟨(List.mem_range'_1.mp hmem).1, hfits, hvacant⟩

/-- First fit over the list of the blocks that are held. -/
def PageAllocator.firstFit (lower count : ℕ) : PageAllocator where
  State := List Block
  allocPages held n :=
    match lowestFit lower count held n with
    | none => (none, held)
    | some page => (some page, ⟨page, n⟩ :: held)
  freePages held base n := held.filter (· ≠ ⟨base, n⟩)
  outstanding held := {block | block ∈ held}

theorem PageAllocator.firstFit_correct {usable : ℕ → Prop} {lower count : ℕ}
    (husable : ∀ page, lower ≤ page → page < lower + count → usable page) :
    (PageAllocator.firstFit lower count).Correct usable where
  allocNull {state state' n} halloc := by
    unfold firstFit at halloc
    dsimp only at halloc
    split at halloc
    · obtain ⟨-, rfl⟩ := Prod.mk.inj halloc
      rfl
    · cases (Prod.mk.inj halloc).1
  allocSome {state state' n page} hn halloc := by
    unfold firstFit at halloc
    dsimp only at halloc
    split at halloc
    · cases (Prod.mk.inj halloc).1
    · rename_i start hfind
      obtain ⟨hstart, rfl⟩ := Prod.mk.inj halloc
      obtain rfl := Option.some.inj hstart
      obtain ⟨hlower, hfits, hvacant⟩ := lowestFit_spec hfind
      refine ⟨fun other hother ↦ ?_, fun block hblock ↦ ?_, ?_⟩
      · rw [Block.mem_cells_mk] at hother
        exact husable other (by omega) (by omega)
      · rw [Set.disjoint_left]
        intro cell hcell hcell'
        have hside := hvacant block hblock
        rw [Block.mem_cells] at hcell hcell'
        omega
      · ext block
        exact List.mem_cons
  free {state block} hblock := by
    ext other
    refine List.mem_filter.trans ?_
    rw [decide_eq_true_iff]
    rfl

/-! ## Who holds the outstanding blocks -/

/-- The outstanding blocks are those of `owned` and those of `others`; no two share a page. -/
structure Ledger (allocator : PageAllocator) (state : allocator.State) (owned : List Block)
    (others : Set Block) : Prop where
  outstanding : allocator.outstanding state = others ∪ {block | block ∈ owned}
  nonempty : ∀ block ∈ owned, 0 < block.size
  apart : owned.Pairwise (fun left right ↦ Disjoint left.cells right.cells)
  foreign : ∀ other ∈ others, ∀ block ∈ owned, Disjoint other.cells block.cells

namespace Ledger

variable {allocator : PageAllocator} {usable : ℕ → Prop} {state state' : allocator.State}
  {owned owned' : List Block} {others : Set Block} {block : Block} {n page : ℕ}

theorem perm (h : Ledger allocator state owned others) (hperm : owned.Perm owned') :
    Ledger allocator state owned' others where
  outstanding := by
    rw [h.outstanding]
    ext block
    simp [hperm.mem_iff]
  nonempty block hblock := h.nonempty block (hperm.mem_iff.mpr hblock)
  apart := (hperm.pairwise_iff fun {left right} (hdisjoint : Disjoint left.cells right.cells) ↦
    hdisjoint.symm).mp h.apart
  foreign other hother block hblock := h.foreign other hother block (hperm.mem_iff.mpr hblock)

theorem allocNull (h : Ledger allocator state owned others) (hcorrect : allocator.Correct usable)
    (halloc : allocator.allocPages state n = (none, state')) :
    Ledger allocator state' owned others where
  outstanding := (hcorrect.allocNull halloc).trans h.outstanding
  nonempty := h.nonempty
  apart := h.apart
  foreign := h.foreign

theorem allocSome (h : Ledger allocator state owned others) (hcorrect : allocator.Correct usable)
    (hn : 0 < n) (halloc : allocator.allocPages state n = (some page, state')) :
    Ledger allocator state' (⟨page, n⟩ :: owned) others := by
  obtain ⟨-, hfresh, hlent⟩ := hcorrect.allocSome hn halloc
  rw [h.outstanding] at hfresh hlent
  refine ⟨?_, ?_, ?_, ?_⟩
  · rw [hlent]
    ext block
    simp only [Set.mem_insert_iff, Set.mem_union, Set.mem_ofPred_eq, List.mem_cons]
    tauto
  · intro block hblock
    rcases List.mem_cons.mp hblock with rfl | hmem
    · exact hn
    · exact h.nonempty block hmem
  · exact List.pairwise_cons.mpr
      ⟨fun block hblock ↦ (hfresh block (.inr hblock)).symm, h.apart⟩
  · intro other hother block hblock
    rcases List.mem_cons.mp hblock with rfl | hmem
    · exact hfresh other (.inl hother)
    · exact h.foreign other hother block hmem

theorem free (h : Ledger allocator state (block :: owned) others)
    (hcorrect : allocator.Correct usable) :
    Ledger allocator (allocator.freePages state block.start block.size) owned others := by
  have hmem : block ∈ allocator.outstanding state := by
    rw [h.outstanding]
    exact .inr List.mem_cons_self
  have hself : ∀ other : Block, Disjoint other.cells block.cells → other ≠ block := by
    rintro other hdisjoint rfl
    have hpos := h.nonempty other List.mem_cons_self
    have hcell : other.start ∈ other.cells := by
      rw [Block.mem_cells, Block.stop_eq]
      omega
    exact (disjoint_self.mp hdisjoint ▸ hcell : other.start ∈ (⊥ : Set ℕ))
  have hnot : block ∉ owned := fun hblock ↦
    hself block ((List.pairwise_cons.mp h.apart).1 block hblock) rfl
  have hforeign : block ∉ others := fun hblock ↦
    hself block (h.foreign block hblock block List.mem_cons_self) rfl
  refine ⟨?_, fun other hother ↦ h.nonempty other (List.mem_cons_of_mem _ hother),
    (List.pairwise_cons.mp h.apart).2, fun other hother kept hkept ↦
      h.foreign other hother kept (List.mem_cons_of_mem _ hkept)⟩
  rw [hcorrect.free hmem, h.outstanding]
  ext other
  simp only [Set.mem_sdiff, Set.mem_union, Set.mem_ofPred_eq, List.mem_cons, Set.mem_singleton_iff]
  constructor
  · rintro ⟨hother | rfl | hother, hne⟩
    · exact .inl hother
    · exact absurd rfl hne
    · exact .inr hother
  · rintro (hother | hother)
    · exact ⟨.inl hother, fun heq ↦ hforeign (heq ▸ hother)⟩
    · exact ⟨.inr (.inr hother), fun heq ↦ hnot (heq ▸ hother)⟩

/-- A loan to somebody else. -/
theorem lend (h : Ledger allocator state owned others) (hcorrect : allocator.Correct usable)
    (hn : 0 < n) (halloc : allocator.allocPages state n = (some page, state')) :
    Ledger allocator state' owned (insert ⟨page, n⟩ others) := by
  obtain ⟨-, hfresh, hlent⟩ := hcorrect.allocSome hn halloc
  rw [h.outstanding] at hfresh hlent
  refine ⟨by rw [hlent, Set.insert_union], h.nonempty, h.apart, fun other hother block hblock ↦ ?_⟩
  rcases hother with rfl | hother
  · exact (hfresh block (.inr hblock)).symm
  · exact h.foreign other hother block hblock

/-- Somebody else gives a loan back. -/
theorem giveBack (h : Ledger allocator state owned others) (hcorrect : allocator.Correct usable)
    (hblock : block ∈ others) :
    Ledger allocator (allocator.freePages state block.start block.size) owned
      (others \ {block}) := by
  have hmem : block ∈ allocator.outstanding state := by
    rw [h.outstanding]
    exact .inl hblock
  have hnot : block ∉ owned := by
    intro howned
    have hpos := h.nonempty block howned
    have hself := h.foreign block hblock block howned
    have hcell : block.start ∈ block.cells := by
      rw [Block.mem_cells, Block.stop_eq]
      omega
    exact Set.disjoint_left.mp hself hcell hcell
  refine ⟨?_, h.nonempty, h.apart, fun other hother ↦ h.foreign other hother.1⟩
  rw [hcorrect.free hmem, h.outstanding]
  ext other
  simp only [Set.mem_sdiff, Set.mem_union, Set.mem_ofPred_eq, Set.mem_singleton_iff]
  constructor
  · rintro ⟨hother | howned, hne⟩
    · exact .inl ⟨hother, hne⟩
    · exact .inr howned
  · rintro (⟨hother, hne⟩ | howned)
    · exact ⟨.inl hother, hne⟩
    · exact ⟨.inr howned, fun heq ↦ hnot (heq ▸ howned)⟩

end Ledger

end Ucore
