import Ucore.Mm.BootTable
import Ucore.Mm.DefaultPmmSpec

/-!
# Physical memory at boot (`page_init` in `kern/mm/pmm.c`)

`page_init` puts the array of page descriptors behind the kernel image and hands the whole pages that
are left to `init_memmap`. The addresses are 64-bit words and wrap. The conversions to descriptors
guard the upper end of the array and not the lower one.
-/

namespace Ucore

open Foundation

/-! ## Descriptors -/

/-- The conversion panics or returns one of the `npage - nbase` descriptors of `pages`. -/
def Guarded (npage : ℕ) (result : Except Fault ℕ) : Prop :=
  result = .error .panic ∨ ∃ page, result = .ok page ∧ page2ppn page < npage

section Descriptors

variable {npage pa kva : ℕ}

theorem guarded_pa2page (hnpage : npage ≤ 2 ^ 64) (hpa : pa < 2 ^ 64) :
    Guarded npage (pa2page npage pa) ↔ npage ≤ PPN pa ∨ nbase ≤ PPN pa := by
  have hppn := PPN_lt hpa
  by_cases hupper : npage ≤ PPN pa
  · exact iff_of_true (.inl (if_pos hupper)) (.inl hupper)
  by_cases hlower : nbase ≤ PPN pa
  · refine iff_of_true (.inr ⟨_, pa2page_eq hlower (by omega) (by omega), ?_⟩) (.inr hlower)
    rw [page2ppn]
    omega
  · have hwrapped : pa2page npage pa = .ok ((PPN pa + (2 ^ 64 - nbase)) % 2 ^ 64) := if_neg hupper
    refine iff_of_false ?_ (by omega)
    rintro (hpanic | ⟨page, hpage, hbound⟩)
    · rw [hwrapped] at hpanic
      cases hpanic
    · -- the index wraps to a value next to the largest `size_t`
      rw [hwrapped] at hpage
      obtain rfl := Except.ok.inj hpage
      unfold page2ppn nbase DRAM_BASE PGSIZE at *
      omega

/-- Above `KERNBASE` no address is below the DRAM. -/
theorem guarded_kva2page (hnpage : npage ≤ 2 ^ 64) (hkva : kva < 2 ^ 64) :
    Guarded npage (kva2page npage kva) := by
  by_cases hbase : kva < KERNBASE
  · left
    rw [kva2page, PADDR, if_pos hbase]
    rfl
  · have hoffset : kva - va_pa_offset < 2 ^ 64 := (Nat.sub_le _ _).trans_lt hkva
    rw [kva2page, PADDR, if_neg hbase, ok_bind]
    refine (guarded_pa2page hnpage hoffset).mpr (.inr ?_)
    unfold PPN nbase DRAM_BASE va_pa_offset KERNBASE PGSIZE at *
    omega

end Descriptors

/-- The conversions are guarded for page numbers that are `nbase` at least or too large, and for no
others. -/
theorem descriptors_guarded (npage pa kva pte pde : BitVec 64) :
    (Guarded npage.toNat (pa2page npage.toNat pa.toNat) ↔
      npage.toNat ≤ PPN pa.toNat ∨ nbase ≤ PPN pa.toNat) ∧
    Guarded npage.toNat (kva2page npage.toNat kva.toNat) ∧
    (Guarded npage.toNat (pte2page npage.toNat pte) ↔
      pte &&& PTE_V = 0 ∨ npage.toNat ≤ PPN (PTE_ADDR pte) ∨ nbase ≤ PPN (PTE_ADDR pte)) ∧
    (Guarded npage.toNat (pde2page npage.toNat pde) ↔
      npage.toNat ≤ PPN (PTE_ADDR pde) ∨ nbase ≤ PPN (PTE_ADDR pde)) := by
  have hnpage : npage.toNat ≤ 2 ^ 64 := npage.isLt.le
  have hentry : ∀ entry : BitVec 64, PTE_ADDR entry < 2 ^ 64 := fun entry ↦ BitVec.isLt _
  refine ⟨guarded_pa2page hnpage pa.isLt, guarded_kva2page hnpage kva.isLt, ?_,
    guarded_pa2page hnpage (hentry pde)⟩
  by_cases hvalid : pte &&& PTE_V = 0
  · exact iff_of_true (.inl (if_pos hvalid)) (.inl hvalid)
  · rw [pte2page, if_neg hvalid, guarded_pa2page hnpage (hentry pte)]
    exact (or_iff_right hvalid).symm

/-- The page frame 0 has a number below `nbase`. -/
theorem descriptors_unguarded : ¬ ∀ npage pa kva pte pde : BitVec 64,
    Guarded npage.toNat (pa2page npage.toNat pa.toNat) ∧
      Guarded npage.toNat (kva2page npage.toNat kva.toNat) ∧
      Guarded npage.toNat (pte2page npage.toNat pte) ∧
      Guarded npage.toNat (pde2page npage.toNat pde) := by
  intro hconversions
  have hguarded := (hconversions 0x88000#64 0#64 0#64 0#64 0#64).1
  rw [guarded_pa2page (by decide) (by decide)] at hguarded
  exact absurd hguarded (by decide)

/-! ## `page_init` -/

/-- `sizeof(struct Page)` -/
def pageStructSize : ℕ := 64

def ROUNDDOWN (a n : ℕ) : ℕ := a - a % n

/-- The sum is a `size_t`. -/
def ROUNDUP (a n : ℕ) : ℕ := ROUNDDOWN ((a + n - 1) % 2 ^ 64) n

/-- The `for` loop over the `count` descriptors from `page` on. -/
def reservePages : ℕ → ℕ → FreeArea → FreeArea
  | _, 0, area => area
  | page, count + 1, area => reservePages (page + 1) count (area.updatePage page setPageReserved)

/-- What `page_init` leaves behind, with the arguments of its call of `init_memmap`. -/
structure PhysicalMemory where
  npage : ℕ
  pages : ℕ
  area : FreeArea
  published : Option (ℕ × ℕ)

/-- `kernelEnd` is the address of `end`; base and size are what the device tree reports. An array that
reaches the end of the address space makes the kernel fault on a store of the loop. Stores do not fault
here, and such a call ends in `PADDR` instead. -/
def pageInit (fuel : ℕ) (area : FreeArea) (memoryBase memorySize kernelEnd : ℕ) :
    Except Fault PhysicalMemory := do
  if memorySize = 0 then throw .panic
  let memEnd := (memoryBase + memorySize) % 2 ^ 64
  let maxpa := if memEnd > KERNTOP then KERNTOP else memEnd
  let npage := maxpa / PGSIZE
  let pages := ROUNDUP kernelEnd PGSIZE
  -- `npage - nbase` is a difference of two `size_t`
  let count := (npage + (2 ^ 64 - nbase)) % 2 ^ 64
  let area := reservePages 0 count area
  let freemem ← PADDR ((pages + pageStructSize * count) % 2 ^ 64)
  let memBegin := ROUNDUP freemem PGSIZE
  let memEnd := ROUNDDOWN memEnd PGSIZE
  if freemem < memEnd then
    let base ← pa2page npage memBegin
    let area ← defaultInitMemmap fuel area base ((memEnd - memBegin) / PGSIZE)
    return ⟨npage, pages, area, some (base, (memEnd - memBegin) / PGSIZE)⟩
  return ⟨npage, pages, area, none⟩

/-- The page is handed to `init_memmap`. -/
def PhysicalMemory.Publishes (memory : PhysicalMemory) (page : ℕ) : Prop :=
  ∃ run ∈ memory.published, run.1 ≤ page ∧ page < run.1 + run.2

/-- Exactly the whole pages between the two physical addresses go to `init_memmap`, which is not
called without any. -/
structure PhysicalMemory.PublishesBetween (memory : PhysicalMemory) (lower upper : ℕ) : Prop where
  exact : ∀ page, memory.Publishes page ↔
    lower ≤ page2ppn page * PGSIZE ∧ (page2ppn page + 1) * PGSIZE ≤ upper
  called : (∀ page, ¬ memory.Publishes page) → memory.published = none

/-- Where the memory ends, and the number of its pages up to `KERNTOP`. -/
def memoryEnd (memorySize : ℕ) : ℕ := (DRAM_BASE + memorySize) % 2 ^ 64

def pageCount (memorySize : ℕ) : ℕ := min (memoryEnd memorySize) KERNTOP / PGSIZE

/-- The end of the descriptor array as it would be if addresses did not wrap. -/
def arrayEnd (memorySize kernelEnd : ℕ) : ℕ :=
  (kernelEnd + PGSIZE - 1) / PGSIZE * PGSIZE + pageStructSize * (pageCount memorySize - nbase)

/-- What `PADDR` returns is no address below the kernel image. -/
theorem PADDR_lower {kva pa : ℕ} (h : PADDR kva = .ok pa) : 0x80200000 ≤ pa := by
  by_cases hbase : kva < KERNBASE
  · rw [PADDR, if_pos hbase] at h
    cases h
  · rw [PADDR, if_neg hbase] at h
    have hvalue := Except.ok.inj h
    unfold KERNBASE va_pa_offset at *
    omega

section PageInit

variable {fuel size kernelEnd : ℕ} {area : FreeArea}

theorem ROUNDDOWN_eq (a : ℕ) : ROUNDDOWN a PGSIZE = a / PGSIZE * PGSIZE := by
  unfold ROUNDDOWN PGSIZE
  omega

/-- An address rounds up to the next page, the first one behind the last page. -/
theorem ROUNDUP_eq (a : ℕ) :
    ROUNDUP a PGSIZE = (a + PGSIZE - 1) / PGSIZE * PGSIZE % 2 ^ 64 := by
  rw [ROUNDUP, ROUNDDOWN_eq]
  unfold PGSIZE
  omega

theorem pageCount_lt (size : ℕ) : pageCount size < 2 ^ 52 := by
  unfold pageCount memoryEnd PGSIZE
  omega

theorem pageCount_eq (h : memoryEnd size ≤ KERNTOP) : pageCount size = memoryEnd size / PGSIZE := by
  rw [pageCount, min_eq_left h]

/-- The kernel computes the end of the array modulo the size of the address space. -/
theorem arrayEnd_wraps (hcount : nbase ≤ pageCount size) :
    (pageCount size + (2 ^ 64 - nbase)) % 2 ^ 64 = pageCount size - nbase ∧
      (ROUNDUP kernelEnd PGSIZE + pageStructSize * (pageCount size - nbase)) % 2 ^ 64 =
        arrayEnd size kernelEnd % 2 ^ 64 := by
  have hlt := pageCount_lt size
  constructor
  · unfold nbase DRAM_BASE PGSIZE at *
    omega
  · rw [ROUNDUP_eq, arrayEnd, Nat.mod_add_mod]

theorem pageInit_eq (hpos : 0 < size) (hcount : nbase ≤ pageCount size) :
    pageInit fuel area DRAM_BASE size kernelEnd = do
      let freemem ← PADDR (arrayEnd size kernelEnd % 2 ^ 64)
      let top := ROUNDDOWN (memoryEnd size) PGSIZE
      if freemem < top then
        let base ← pa2page (pageCount size) (ROUNDUP freemem PGSIZE)
        let area ← defaultInitMemmap fuel (reservePages 0 (pageCount size - nbase) area) base
          ((top - ROUNDUP freemem PGSIZE) / PGSIZE)
        return ⟨pageCount size, ROUNDUP kernelEnd PGSIZE, area,
          some (base, (top - ROUNDUP freemem PGSIZE) / PGSIZE)⟩
      return ⟨pageCount size, ROUNDUP kernelEnd PGSIZE,
        reservePages 0 (pageCount size - nbase) area, none⟩ := by
  obtain ⟨hdifference, harray⟩ := show _ ∧ (_ = arrayEnd size kernelEnd % 2 ^ 64) from
    arrayEnd_wraps hcount
  have hmin : ∀ memEnd : ℕ, (if memEnd > KERNTOP then KERNTOP else memEnd) = min memEnd KERNTOP := by
    intro memEnd
    split
    · exact (min_eq_right (by omega)).symm
    · exact (min_eq_left (by omega)).symm
  have hnpage : min ((DRAM_BASE + size) % 2 ^ 64) KERNTOP / PGSIZE = pageCount size := rfl
  unfold pageInit
  rw [if_neg hpos.ne']
  dsimp only
  rw [hmin, hnpage, hdifference, harray]
  rfl

/-- The descriptors of the range are reserved, the others are as before. -/
theorem reservePages_pages (page count other : ℕ) (area : FreeArea) :
    (reservePages page count area).pages other =
      if page ≤ other ∧ other < page + count then setPageReserved (area.pages other)
      else area.pages other := by
  induction count generalizing page area with
  | zero =>
    have hnone : ¬ (page ≤ other ∧ other < page + 0) := by omega
    rw [if_neg hnone]
    rfl
  | succ count ih =>
    rw [reservePages, ih, FreeArea.updatePage_pages]
    by_cases heq : other = page
    · rw [if_neg (by omega), if_pos heq, if_pos (by omega)]
    · rw [if_neg heq]
      exact if_congr (by omega) rfl rfl

theorem reservePages_defaultInit (page count : ℕ) (area : FreeArea) :
    reservePages page count (defaultInit area) = defaultInit (reservePages page count area) := by
  induction count generalizing page area with
  | zero => rfl
  | succ count ih => exact ih (page + 1) (area.updatePage page setPageReserved)

/-- Nothing is published when the array does not fit below the end of the address space. -/
theorem pageInit_wrapped (hpos : 0 < size) (hcount : nbase ≤ pageCount size)
    (hend : kernelEnd < 2 ^ 64) (hwraps : 2 ^ 64 ≤ arrayEnd size kernelEnd) :
    pageInit fuel area DRAM_BASE size kernelEnd = .error .panic := by
  have hlow : arrayEnd size kernelEnd % 2 ^ 64 < KERNBASE := by
    have hlt := pageCount_lt size
    unfold arrayEnd pageStructSize PGSIZE KERNBASE at *
    omega
  rw [pageInit_eq hpos hcount, PADDR, if_pos hlow]
  rfl

section Fits

variable (hpos : 0 < size) (hcount : nbase ≤ pageCount size) (hbase : KERNBASE ≤ kernelEnd)
  (hfits : arrayEnd size kernelEnd < 2 ^ 64)

include hbase hfits

/-- A memory with an array that fits ends below `KERNTOP`. -/
theorem pageCount_of_fits : pageCount size = memoryEnd size / PGSIZE := by
  apply pageCount_eq
  by_contra hlarge
  rw [arrayEnd, pageCount, min_eq_right (by omega)] at hfits
  unfold KERNTOP KERNBASE KMEMSIZE nbase DRAM_BASE pageStructSize PGSIZE at *
  omega

theorem PADDR_arrayEnd :
    PADDR (arrayEnd size kernelEnd % 2 ^ 64) = .ok (arrayEnd size kernelEnd - va_pa_offset) ∧
      KERNBASE ≤ arrayEnd size kernelEnd := by
  have habove : KERNBASE ≤ arrayEnd size kernelEnd := by
    unfold arrayEnd PGSIZE
    omega
  rw [Nat.mod_eq_of_lt hfits, PADDR, if_neg (by omega)]
  exact ⟨rfl, habove⟩

include hpos hcount

theorem pageInit_none
    (hfull : memoryEnd size / PGSIZE * PGSIZE ≤ arrayEnd size kernelEnd - va_pa_offset) :
    pageInit fuel area DRAM_BASE size kernelEnd =
      .ok ⟨pageCount size, ROUNDUP kernelEnd PGSIZE,
        reservePages 0 (pageCount size - nbase) area, none⟩ := by
  rw [pageInit_eq hpos hcount, (PADDR_arrayEnd hbase hfits).1, ok_bind, ROUNDDOWN_eq]
  dsimp only
  rw [if_neg (by omega)]
  rfl

/-- Where the array ends inside the last page, `pa2page` is asked for the page behind it. -/
theorem pageInit_incomplete
    (hlast : arrayEnd size kernelEnd - va_pa_offset < memoryEnd size / PGSIZE * PGSIZE)
    (hinside : memoryEnd size / PGSIZE * PGSIZE <
      arrayEnd size kernelEnd - va_pa_offset + PGSIZE) :
    pageInit fuel area DRAM_BASE size kernelEnd = .error .panic := by
  have hround : ROUNDUP (arrayEnd size kernelEnd - va_pa_offset) PGSIZE =
      memoryEnd size / PGSIZE * PGSIZE := by
    rw [ROUNDUP_eq]
    unfold PGSIZE va_pa_offset at *
    omega
  have hbehind : pageCount size ≤ PPN (memoryEnd size / PGSIZE * PGSIZE) := by
    rw [pageCount_of_fits hbase hfits, PPN, Nat.mul_div_cancel _ (by decide)]
  rw [pageInit_eq hpos hcount, (PADDR_arrayEnd hbase hfits).1, ok_bind, ROUNDDOWN_eq]
  dsimp only
  rw [if_pos hlast, hround, pa2page, if_pos hbehind]
  rfl

/-- Otherwise all pages from the first whole one on go to the free list. -/
theorem pageInit_published
    (hroom : arrayEnd size kernelEnd - va_pa_offset + PGSIZE ≤ memoryEnd size / PGSIZE * PGSIZE) :
    let first := (arrayEnd size kernelEnd - va_pa_offset + PGSIZE - 1) / PGSIZE
    ∃ area', pageInit fuel (defaultInit area) DRAM_BASE size kernelEnd =
        .ok ⟨pageCount size, ROUNDUP kernelEnd PGSIZE, area',
          some (first - nbase, pageCount size - first)⟩ ∧
      nbase ≤ first ∧ first < pageCount size ∧
      Listed (first - nbase) (first - nbase + (pageCount size - first)) area'
        [⟨first - nbase, uint32 (pageCount size - first)⟩] := by
  intro first
  obtain ⟨hpaddr, habove⟩ := PADDR_arrayEnd hbase hfits
  have hpages := pageCount_of_fits hbase hfits
  have hlt := pageCount_lt size
  have hlower : nbase ≤ first := by
    unfold first nbase DRAM_BASE va_pa_offset KERNBASE PGSIZE at *
    omega
  have hupper : first < pageCount size := by
    unfold first PGSIZE at *
    omega
  have hround : ROUNDUP (arrayEnd size kernelEnd - va_pa_offset) PGSIZE = first * PGSIZE := by
    rw [ROUNDUP_eq]
    unfold first PGSIZE at *
    omega
  have hppn : PPN (first * PGSIZE) = first := Nat.mul_div_cancel _ (by decide)
  have hindex : pa2page (pageCount size) (first * PGSIZE) = .ok (first - nbase) := by
    rw [pa2page_eq (hppn.symm ▸ hlower) (hppn.symm ▸ hupper) (by omega), hppn]
  have hnumber : (memoryEnd size / PGSIZE * PGSIZE - first * PGSIZE) / PGSIZE =
      pageCount size - first := by
    rw [← hpages, ← Nat.sub_mul, Nat.mul_div_cancel _ (by decide)]
  have hreserved : ∀ page, first - nbase ≤ page →
      page < first - nbase + (pageCount size - first) →
        pageReserved ((reservePages 0 (pageCount size - nbase) area).pages page) = true := by
    intro page _ hpage
    rw [reservePages_pages, if_pos (by omega)]
    simp [pageReserved, setPageReserved, testBit_setBit, PG_reserved]
  obtain ⟨area', hinit, hlisted, -⟩ := defaultInitMemmap_spec (by omega) hreserved fuel
  refine ⟨area', ?_, hlower, hupper, hlisted⟩
  have hbelow : arrayEnd size kernelEnd - va_pa_offset < memoryEnd size / PGSIZE * PGSIZE := by
    unfold PGSIZE at *
    omega
  rw [pageInit_eq hpos hcount, hpaddr, ok_bind, ROUNDDOWN_eq]
  dsimp only
  rw [if_pos hbelow, hround, hindex, ok_bind, hnumber, reservePages_defaultInit, hinit]
  rfl

/-- What the three cases say of the pages between the array and the end of the memory. -/
theorem pageInit_publishes_iff :
    (∃ memory, pageInit fuel (defaultInit area) DRAM_BASE size kernelEnd = .ok memory ∧
      memory.PublishesBetween (arrayEnd size kernelEnd - va_pa_offset) (memoryEnd size)) ↔
    memoryEnd size / PGSIZE * PGSIZE ≤ arrayEnd size kernelEnd - va_pa_offset ∨
      arrayEnd size kernelEnd - va_pa_offset + PGSIZE ≤ memoryEnd size / PGSIZE * PGSIZE := by
  have hpages := pageCount_of_fits hbase hfits
  by_cases hfull : memoryEnd size / PGSIZE * PGSIZE ≤ arrayEnd size kernelEnd - va_pa_offset
  · refine iff_of_true ⟨_, pageInit_none hpos hcount hbase hfits hfull, ?_⟩ (.inl hfull)
    refine ⟨fun page ↦ iff_of_false (fun hpage ↦ ?_) ?_, fun _ ↦ rfl⟩
    · obtain ⟨run, hrun, -⟩ := hpage
      cases hrun
    · unfold PGSIZE at *
      omega
  by_cases hroom : arrayEnd size kernelEnd - va_pa_offset + PGSIZE ≤
      memoryEnd size / PGSIZE * PGSIZE
  · obtain ⟨area', hinit, hlower, hupper, -⟩ :=
      @pageInit_published fuel size kernelEnd area hpos hcount hbase hfits hroom
    refine iff_of_true ⟨_, hinit, fun page ↦ ?_, fun hnone ↦ ?_⟩ (.inr hroom)
    · have hrun : ∀ first count : ℕ, (∃ run ∈ some (first, count), run.1 ≤ page ∧
          page < run.1 + run.2) ↔ first ≤ page ∧ page < first + count := by simp
      refine (hrun _ _).trans ?_
      unfold page2ppn PGSIZE at *
      omega
    · exact absurd ⟨_, rfl, le_rfl, by dsimp only; omega⟩ (hnone _)
  · refine iff_of_false ?_ (by omega)
    rintro ⟨memory, hinit, -⟩
    rw [pageInit_incomplete hpos hcount hbase hfits (by omega) (by omega)] at hinit
    cases hinit

end Fits

/-- Without a whole page of the DRAM no page is handed out. -/
theorem pageInit_below {memory : PhysicalMemory} (hcount : pageCount size < nbase)
    (hinit : pageInit fuel area DRAM_BASE size kernelEnd = .ok memory) :
    memory.published = none := by
  have hsmall : memoryEnd size < DRAM_BASE := by
    unfold pageCount KERNTOP KERNBASE KMEMSIZE nbase DRAM_BASE PGSIZE at *
    omega
  unfold pageInit at hinit
  by_cases hzero : size = 0
  · rw [if_pos hzero] at hinit
    cases hinit
  rw [if_neg hzero] at hinit
  obtain ⟨freemem, hpaddr, hinit⟩ := bind_eq_ok.mp hinit
  have habove : DRAM_BASE ≤ freemem := by
    have hlower := PADDR_lower hpaddr
    unfold DRAM_BASE
    omega
  have hnot : ¬ freemem < ROUNDDOWN (memoryEnd size) PGSIZE := by
    rw [ROUNDDOWN_eq]
    unfold PGSIZE
    omega
  change (if freemem < ROUNDDOWN (memoryEnd size) PGSIZE then _ else _) = _ at hinit
  rw [if_neg hnot] at hinit
  obtain rfl := Except.ok.inj hinit
  rfl

/-- `page_init` returns and publishes the left-over whole pages exactly when the array fits below the end
of the address space and does not end inside the last page of the memory. -/
theorem page_init_publishes (hpos : 0 < size) (hsize : size ≤ 2 ^ 30) (hbase : KERNBASE ≤ kernelEnd)
    (hend : kernelEnd < 2 ^ 64) :
    (∃ memory, pageInit fuel (defaultInit area) DRAM_BASE size kernelEnd = .ok memory ∧
      memory.PublishesBetween (arrayEnd size kernelEnd - va_pa_offset) (DRAM_BASE + size)) ↔
    arrayEnd size kernelEnd < 2 ^ 64 ∧
      ((DRAM_BASE + size) / PGSIZE * PGSIZE ≤ arrayEnd size kernelEnd - va_pa_offset ∨
        arrayEnd size kernelEnd - va_pa_offset + PGSIZE ≤
          (DRAM_BASE + size) / PGSIZE * PGSIZE) := by
  have hmemory : memoryEnd size = DRAM_BASE + size := by
    unfold memoryEnd DRAM_BASE
    omega
  have hcount : nbase ≤ pageCount size := by
    unfold pageCount nbase KERNTOP KERNBASE KMEMSIZE DRAM_BASE PGSIZE at *
    omega
  by_cases hfits : arrayEnd size kernelEnd < 2 ^ 64
  · rw [← hmemory, and_iff_right hfits]
    exact pageInit_publishes_iff hpos hcount hbase hfits
  · refine iff_of_false ?_ (fun h ↦ hfits h.1)
    rintro ⟨memory, hinit, -⟩
    rw [pageInit_wrapped hpos hcount hend (by omega)] at hinit
    cases hinit

end PageInit

/-- A machine with 128 MiB. -/
theorem page_init_publishes_sample : ∃ memory,
    pageInit 0 (defaultInit ⟨⟨id, id⟩, fun _ ↦ ⟨0, 0, 0⟩, 0⟩) DRAM_BASE 0x8000000
      0xFFFFFFFFC0214000 = .ok memory ∧
      memory.PublishesBetween (arrayEnd 0x8000000 0xFFFFFFFFC0214000 - va_pa_offset)
        (DRAM_BASE + 0x8000000) :=
  (page_init_publishes (by decide) (by decide) (by decide) (by decide)).mpr (by decide)

/-- With 545 pages the descriptors end inside the last of them. -/
theorem page_init_panics : ¬ ∀ (fuel : ℕ) (area : FreeArea) (size kernelEnd : ℕ), 0 < size →
    size ≤ 2 ^ 30 → KERNBASE ≤ kernelEnd → kernelEnd - va_pa_offset ≤ DRAM_BASE + size →
      ∃ memory, pageInit fuel (defaultInit area) DRAM_BASE size kernelEnd = .ok memory ∧
        memory.PublishesBetween (arrayEnd size kernelEnd - va_pa_offset) (DRAM_BASE + size) := by
  intro hpublishes
  obtain ⟨memory, hinit, -⟩ := hpublishes 0 ⟨⟨id, id⟩, fun _ ↦ ⟨0, 0, 0⟩, 0⟩ (545 * PGSIZE)
    0xFFFFFFFFC0218000 (by decide) (by decide) (by decide) (by decide)
  rw [pageInit_incomplete (by decide) (by decide) (by decide) (by decide) (by decide) (by decide)]
    at hinit
  cases hinit

/-! ## The mapping of the published pages -/

/-- The kernel virtual address of the page does not wrap, and the hardware translates it back. -/
def Addressable (mem : Memory) (root npage page : ℕ) : Prop :=
  page2pa page + va_pa_offset < 2 ^ 64 ∧ ∃ kva, page2kva npage page = .ok kva ∧
    sv39 mem root (BitVec.ofNat 64 kva) = some (page2pa page)

section Addressable

variable {fuel size kernelEnd root npage page : ℕ} {area : FreeArea} {mem : Memory}

theorem page2pa_of_published (hnpage : npage ≤ KERNTOP / PGSIZE) (hpage : page2ppn page < npage) :
    page2pa page = page2ppn page * PGSIZE ∧
      page2kva npage page = .ok ((page2pa page + va_pa_offset) % 2 ^ 64) := by
  refine ⟨page2pa_eq hnpage hpage, ?_⟩
  have hknown : PPN (page2pa page) < npage := PPN_page2pa hnpage hpage ▸ hpage
  exact KADDR_eq hknown

/-- The boot page table covers the first GiB of the DRAM, and addresses wrap behind it. -/
theorem addressable_iff (h : BootTable mem root) (hnpage : npage ≤ KERNTOP / PGSIZE)
    (hpage : page2ppn page < npage) :
    Addressable mem root npage page ↔ (page2ppn page + 1) * PGSIZE ≤ DRAM_BASE + 2 ^ 30 := by
  obtain ⟨hpa, hkva⟩ := page2pa_of_published hnpage hpage
  constructor
  · rintro ⟨hlt, -⟩
    rw [hpa] at hlt
    unfold va_pa_offset DRAM_BASE PGSIZE at *
    omega
  · intro hcovered
    have hlower : DRAM_BASE ≤ page2pa page := by
      rw [hpa]
      unfold page2ppn nbase DRAM_BASE PGSIZE
      omega
    have hupper : page2pa page < DRAM_BASE + 2 ^ 30 := by
      rw [hpa]
      unfold PGSIZE at *
      omega
    refine ⟨?_, _, hkva, h.sv39_linear hlower hupper⟩
    unfold va_pa_offset DRAM_BASE at *
    omega

/-- The published pages are addressable exactly when the memory ends in the first GiB of the DRAM, or is
so large that the kernel panics because the descriptors do not fit. -/
theorem published_addressable (h : BootTable mem root) (hbase : KERNBASE ≤ kernelEnd)
    (hend : kernelEnd < 2 ^ 64) :
    (∀ memory, pageInit fuel (defaultInit area) DRAM_BASE size kernelEnd = .ok memory →
      ∀ page, memory.Publishes page → Addressable mem root memory.npage page) ↔
    2 ^ 64 ≤ arrayEnd size kernelEnd ∨
      (DRAM_BASE + size) % 2 ^ 64 / PGSIZE * PGSIZE ≤ DRAM_BASE + 2 ^ 30 := by
  change _ ↔ _ ∨ memoryEnd size / PGSIZE * PGSIZE ≤ _
  have hnone : ∀ {memory : PhysicalMemory}, memory.published = none →
      ∀ page, ¬ memory.Publishes page := by
    rintro memory hnone page ⟨run, hrun, -⟩
    rw [hnone] at hrun
    cases hrun
  rcases Nat.eq_zero_or_pos size with rfl | hpos
  · exact iff_of_true (fun memory hinit ↦ by cases hinit) (.inr (by decide))
  by_cases hcount : nbase ≤ pageCount size
  swap
  · refine iff_of_true (fun memory hinit page hpage ↦ ?_) (.inr ?_)
    · exact absurd hpage (hnone (pageInit_below (by omega) hinit) page)
    · unfold pageCount KERNTOP KERNBASE KMEMSIZE nbase DRAM_BASE PGSIZE at *
      omega
  by_cases hfits : arrayEnd size kernelEnd < 2 ^ 64
  swap
  · refine iff_of_true (fun memory hinit ↦ ?_) (.inl (by omega))
    rw [pageInit_wrapped hpos hcount hend (by omega)] at hinit
    cases hinit
  have hpages := pageCount_of_fits hbase hfits
  by_cases hroom : arrayEnd size kernelEnd - va_pa_offset + PGSIZE ≤
      memoryEnd size / PGSIZE * PGSIZE
  · obtain ⟨area', hinit, hlower, hupper, -⟩ :=
      @pageInit_published fuel size kernelEnd area hpos hcount hbase hfits hroom
    have hnpage : pageCount size ≤ KERNTOP / PGSIZE := Nat.div_le_div_right (min_le_right _ _)
    rw [or_iff_right (by omega), hinit]
    constructor
    · intro haddressable
      -- the last page goes to the free list, too
      have hlast : page2ppn (pageCount size - 1 - nbase) = pageCount size - 1 := by
        unfold page2ppn
        omega
      have hcovered := (addressable_iff h hnpage (by omega)).mp
        (haddressable _ rfl (pageCount size - 1 - nbase)
          ⟨_, rfl, by dsimp only; omega, by dsimp only; omega⟩)
      rwa [hlast, Nat.sub_add_cancel (by omega), hpages] at hcovered
    · intro hcovered memory hmemory page hpage
      obtain rfl := Except.ok.inj hmemory
      obtain ⟨run, hrun, hstart, hstop⟩ := hpage
      obtain rfl := Option.some.inj hrun
      dsimp only at hstart hstop
      have hbound : page2ppn page < pageCount size := by
        unfold page2ppn
        omega
      refine (addressable_iff h hnpage hbound).mpr ?_
      calc (page2ppn page + 1) * PGSIZE
          ≤ pageCount size * PGSIZE := Nat.mul_le_mul_right _ hbound
        _ = memoryEnd size / PGSIZE * PGSIZE := by rw [hpages]
        _ ≤ DRAM_BASE + 2 ^ 30 := hcovered
  · refine iff_of_true (fun memory hinit page hpage ↦ ?_) (.inr ?_)
    · by_cases hfull : memoryEnd size / PGSIZE * PGSIZE ≤ arrayEnd size kernelEnd - va_pa_offset
      · rw [pageInit_none hpos hcount hbase hfits hfull] at hinit
        obtain rfl := Except.ok.inj hinit
        exact absurd hpage (hnone rfl page)
      · rw [pageInit_incomplete hpos hcount hbase hfits (by omega) (by omega)] at hinit
        cases hinit
    · unfold va_pa_offset DRAM_BASE PGSIZE at *
      omega

end Addressable

/-- The boot page table of the samples with 128 MiB -/
theorem published_addressable_sample :
    (∀ memory, pageInit 0 (defaultInit ⟨⟨id, id⟩, fun _ ↦ ⟨0, 0, 0⟩, 0⟩) DRAM_BASE 0x8000000
        0xFFFFFFFFC0214000 = .ok memory →
      ∀ page, memory.Publishes page →
        Addressable (sampleBoot 0 0).mem 0x80206 memory.npage page) ↔ True :=
  iff_true_intro
    ((published_addressable (sampleBoot_table 0 0) (by decide) (by decide)).mpr (by decide))

/-- With 2 GiB the page at `0xC0000000` has the kernel virtual address 0. -/
theorem published_wraps : ¬ ∀ (fuel : ℕ) (area : FreeArea) (mem : Memory) (root size kernelEnd : ℕ),
    BootTable mem root → size < 2 ^ 64 → KERNBASE ≤ kernelEnd → kernelEnd < 2 ^ 64 →
      ∀ memory, pageInit fuel (defaultInit area) DRAM_BASE size kernelEnd = .ok memory →
        ∀ page, memory.Publishes page → Addressable mem root memory.npage page := by
  intro haddress
  obtain ⟨area', hinit, -⟩ := @pageInit_published 0 0x80000000 0xFFFFFFFFC0214000
    ⟨⟨id, id⟩, fun _ ↦ ⟨0, 0, 0⟩, 0⟩ (by decide) (by decide) (by decide) (by decide) (by decide)
  have haddressable := haddress 0 _ _ _ 0x80000000 0xFFFFFFFFC0214000 (sampleBoot_table 0 0)
    (by decide) (by decide) (by decide) _ hinit 0x40000 ⟨_, rfl, by decide, by decide⟩
  exact absurd haddressable.1 (by decide)

end Ucore
