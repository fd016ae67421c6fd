import Ucore.Mm.DefaultPmmCheckRuns
import Ucore.Mm.PageInit

/-!
# Memory at boot with its self-test

`pmm_init` initialises the first-fit allocator, hands it the memory behind the kernel image and runs
`check_alloc_page` on it before any page table is touched.
-/

namespace Ucore

open Foundation ListEntry

/-- `init_pmm_manager(); page_init(); check_alloc_page();` at the front of `pmm_init` -/
def pmmInitMemory (fuel : ℕ) (area : FreeArea) (memoryBase memorySize kernelEnd : ℕ) :
    Except Fault PhysicalMemory := do
  let memory ← pageInit fuel (defaultInit area) memoryBase memorySize kernelEnd
  let (_, area) ← defaultCheck fuel memory.npage memory.area
  return { memory with area }

namespace World

variable {lower count npage fuel : ℕ} {area : FreeArea}
  (hworld : Reachable lower count (insertingInside lower count) ⟨area, ∅⟩)

include hworld

/-- The test on a range that was just initialised -/
theorem check_boot (hcount : count < 2 ^ 31) (hfive : 5 ≤ count) (hnpage : npage ≤ KERNTOP / PGSIZE)
    (hpages : page2ppn (lower + count) ≤ npage) (hfuel : count + 6 < fuel) :
    ∃ area', defaultCheck fuel npage area = .ok ((), area') ∧
      freeBlocks fuel area' = some [⟨lower, count⟩] ∧ area'.nrFree = count := by
  have hfree : free lower count ⟨area, ∅⟩ = Finset.Ico lower (lower + count) := by
    rw [free_eq (by omega), Finset.sdiff_empty]
  have hcover : cover [⟨lower, count⟩] = (free lower count ⟨area, ∅⟩ : Set ℕ) := by
    rw [hfree, cover_cons, cover_nil, Set.union_empty, Finset.coe_Ico]
    rfl
  have hwell := (hworld.spare (by omega)).wellListed
    (Separated.singleton (show 0 < Block.size ⟨lower, count⟩ by dsimp only; omega)) hcover
  obtain ⟨area', hcheck, hrestored⟩ := hworld.check_returns hcount hnpage hpages hfuel
    ⟨lower, by rw [hfree]; exact Finset.Ico_subset_Ico_right (by omega)⟩
  obtain ⟨blocks, hblocks⟩ := hrestored.blocks
  have hone := (hblocks (fuel + blocks.length) (by omega)).1
  rw [freeBlocks_eq hwell.toThreaded (by simp; omega)] at hone
  obtain rfl := Option.some.inj hone
  refine ⟨area', hcheck, (hblocks fuel (by simp; omega)).2, ?_⟩
  rw [hrestored.nrFree, hwell.total]
  simp

theorem check_boot_panics (hcount : count < 2 ^ 31) (hfew : count < 5)
    (hnpage : npage ≤ KERNTOP / PGSIZE) (hpages : page2ppn (lower + count) ≤ npage)
    (hfuel : count + 6 < fuel) : defaultCheck fuel npage area = .error .panic := by
  refine hworld.check_panics hcount hnpage hpages hfuel fun start hstart ↦ ?_
  rw [free_eq (by omega), Finset.sdiff_empty] at hstart
  have hfirst := Finset.mem_Ico.mp (hstart (Finset.mem_Ico.mpr ⟨le_rfl, by omega⟩))
  have hcell : start + 4 ∈ Finset.Ico start (start + 5) := Finset.mem_Ico.mpr ⟨by omega, by omega⟩
  have hlast := Finset.mem_Ico.mp (hstart hcell)
  omega

end World

section PmmInit

variable {fuel base size kernelEnd : ℕ} {area : FreeArea} {memory : PhysicalMemory}

theorem reservePages_links (page count : ℕ) (area : FreeArea) :
    (reservePages page count area).links = area.links ∧
      (reservePages page count area).nrFree = area.nrFree := by
  induction count generalizing page area with
  | zero => exact ⟨rfl, rfl⟩
  | succ count ih => exact ih (page + 1) (area.updatePage page setPageReserved)

/-- Without a call of `init_memmap` the list stays empty. -/
theorem pageInit_unpublished (h : pageInit fuel (defaultInit area) base size kernelEnd = .ok memory)
    (hnone : memory.published = none) : Spare 0 0 memory.area ∅ := by
  have hempty : memory.area.links = (defaultInit area).links ∧ memory.area.nrFree = 0 := by
    unfold pageInit at h
    by_cases hzero : size = 0
    · rw [if_pos hzero] at h
      cases h
    rw [if_neg hzero] at h
    obtain ⟨freemem, -, h⟩ := bind_eq_ok.mp h
    dsimp only at h
    split at h
    · obtain ⟨page, -, h⟩ := bind_eq_ok.mp h
      obtain ⟨area', -, h⟩ := bind_eq_ok.mp h
      obtain rfl := Except.ok.inj h
      cases hnone
    · obtain rfl := Except.ok.inj h
      exact reservePages_links 0 _ (defaultInit area)
  refine ⟨⟨[], ⟨⟨?_, nofun, fun page _ hpage ↦ absurd hpage (Nat.not_lt_zero page)⟩, nofun, .nil,
    hempty.2, ?_⟩, cover_nil⟩, fun page _ hpage ↦ absurd hpage (Nat.not_lt_zero page), nofun⟩
  · rw [hempty.1]
    exact Ring.listInit
  · rw [hempty.2]
    decide

/-- What is published comes from `init_memmap` on the reserved descriptors. -/
theorem pageInit_memmap {run : ℕ × ℕ}
    (h : pageInit fuel (defaultInit area) DRAM_BASE size kernelEnd = .ok memory)
    (hrun : memory.published = some run) :
    defaultInitMemmap fuel (defaultInit (reservePages 0
      ((pageCount size + (2 ^ 64 - nbase)) % 2 ^ 64) area)) run.1 run.2 = .ok memory.area := by
  have hmin : (if (DRAM_BASE + size) % 2 ^ 64 > KERNTOP then KERNTOP
      else (DRAM_BASE + size) % 2 ^ 64) = min ((DRAM_BASE + size) % 2 ^ 64) KERNTOP := by
    rw [min_def]
    split <;> split <;> omega
  unfold pageInit at h
  by_cases hzero : size = 0
  · rw [if_pos hzero] at h
    cases h
  rw [if_neg hzero] at h
  obtain ⟨freemem, -, h⟩ := bind_eq_ok.mp h
  dsimp only at h
  split at h
  · obtain ⟨page, -, h⟩ := bind_eq_ok.mp h
    obtain ⟨area', hinit, h⟩ := bind_eq_ok.mp h
    obtain rfl := Except.ok.inj h
    obtain rfl := Option.some.inj hrun
    rw [hmin] at hinit
    rw [← reservePages_defaultInit]
    exact hinit
  · obtain rfl := Except.ok.inj h
    cases hrun

theorem PADDR_error {kva : ℕ} {fault : Fault} (h : PADDR kva = .error fault) : fault = .panic := by
  by_cases hbase : kva < KERNBASE
  · rw [PADDR, if_pos hbase] at h
    exact (Except.error.inj h).symm
  · rw [PADDR, if_neg hbase] at h
    cases h

/-- Without a whole page of the DRAM `page_init` panics or publishes nothing. -/
theorem pageInit_below_cases (hcount : pageCount size < nbase) :
    pageInit fuel area DRAM_BASE size kernelEnd = .error .panic ∨
      ∃ memory, pageInit fuel area DRAM_BASE size kernelEnd = .ok memory ∧ memory.published = none := by
  cases hinit : pageInit fuel area DRAM_BASE size kernelEnd with
  | ok memory => exact .inr ⟨memory, rfl, pageInit_below hcount hinit⟩
  | error fault =>
    left
    have hsmall : memoryEnd size < DRAM_BASE := by
      unfold pageCount KERNTOP KERNBASE KMEMSIZE nbase DRAM_BASE PGSIZE at *
      omega
    unfold pageInit at hinit
    by_cases hzero : size = 0
    · rw [if_pos hzero] at hinit
      exact hinit.symm
    rw [if_neg hzero] at hinit
    rcases bind_eq_error.mp hinit with hpaddr | ⟨freemem, hpaddr, hinit⟩
    · rw [PADDR_error hpaddr]
    · have habove : DRAM_BASE ≤ freemem :=
        (by decide : DRAM_BASE ≤ 0x80200000).trans (PADDR_lower hpaddr)
      have hnot : ¬ freemem < ROUNDDOWN (memoryEnd size) PGSIZE := by
        rw [ROUNDDOWN_eq]
        unfold PGSIZE
        omega
      change (if freemem < ROUNDDOWN (memoryEnd size) PGSIZE then _ else _) = _ at hinit
      rw [if_neg hnot] at hinit
      cases hinit

/-- The whole memory fits into the range of an `int`. -/
theorem pageCount_sub_lt (hbase : KERNBASE ≤ kernelEnd) (hfits : arrayEnd size kernelEnd < 2 ^ 64) :
    pageCount size - nbase < 2 ^ 31 := by
  unfold arrayEnd pageStructSize KERNBASE PGSIZE at *
  omega

/-- The self-test fails on an empty list. -/
theorem pmmInitMemory_unpublished
    (h : pageInit fuel (defaultInit area) DRAM_BASE size kernelEnd = .ok memory)
    (hnone : memory.published = none) (hfuel : 7 ≤ fuel) :
    pmmInitMemory fuel area DRAM_BASE size kernelEnd = .error .panic := by
  have hpanic : defaultCheck fuel memory.npage memory.area = .error .panic :=
    defaultCheck_panics (pageInit_unpublished h hnone) (by decide)
      (fun page hpage ↦ absurd hpage (Nat.not_lt_zero page)) (by omega)
      fun start hrun ↦ hrun (a := start) ⟨le_rfl, by omega⟩
  rw [pmmInitMemory, h, ok_bind, hpanic]
  rfl

/-- The first page behind the descriptors -/
def firstFree (memorySize kernelEnd : ℕ) : ℕ :=
  (arrayEnd memorySize kernelEnd - va_pa_offset + PGSIZE - 1) / PGSIZE

theorem pageCount_le (size : ℕ) : pageCount size ≤ KERNTOP / PGSIZE :=
  Nat.div_le_div_right (min_le_right _ _)

section Published

variable (hpos : 0 < size) (hcount : nbase ≤ pageCount size) (hbase : KERNBASE ≤ kernelEnd)
  (hfits : arrayEnd size kernelEnd < 2 ^ 64) (hroom : firstFree size kernelEnd < pageCount size)

include hpos hcount hbase hfits hroom

/-- The allocator starts with the pages behind the descriptors, all of them free. -/
theorem pageInit_reachable : ∃ area',
    pageInit fuel (defaultInit area) DRAM_BASE size kernelEnd =
      .ok ⟨pageCount size, ROUNDUP kernelEnd PGSIZE, area', some (firstFree size kernelEnd - nbase,
        pageCount size - firstFree size kernelEnd)⟩ ∧
      nbase ≤ firstFree size kernelEnd ∧
      ∀ allowed, World.Reachable (firstFree size kernelEnd - nbase)
        (pageCount size - firstFree size kernelEnd) allowed ⟨area', ∅⟩ := by
  have hpages := pageCount_of_fits hbase hfits
  have hbelow : arrayEnd size kernelEnd - va_pa_offset + PGSIZE ≤
      memoryEnd size / PGSIZE * PGSIZE := by
    rw [← hpages]
    unfold firstFree PGSIZE at *
    omega
  obtain ⟨area', hinit, hlower, -, -⟩ := @pageInit_published fuel size kernelEnd area hpos hcount
    hbase hfits hbelow
  have hlower' : nbase ≤ firstFree size kernelEnd := hlower
  have hboot := pageInit_memmap hinit rfl
  have hwraps : (pageCount size + (2 ^ 64 - nbase)) % 2 ^ 64 = pageCount size - nbase :=
    (@arrayEnd_wraps size kernelEnd hcount).1
  rw [hwraps] at hboot
  refine ⟨area', hinit, hlower', fun allowed ↦ .boot (by omega) (fun page _ hpage ↦ ?_) hboot⟩
  rw [reservePages_pages, if_pos (by omega)]
  simp [pageReserved, setPageReserved, testBit_setBit, PG_reserved]

/-- Five pages at least: the whole range is still one block after the test. -/
theorem pmmInitMemory_returns (hfive : firstFree size kernelEnd + 5 ≤ pageCount size)
    (hfuel : pageCount size + 6 < fuel) :
    ∃ memory, pmmInitMemory fuel area DRAM_BASE size kernelEnd = .ok memory ∧
      World.freeBlocks fuel memory.area = some [⟨firstFree size kernelEnd - nbase,
        pageCount size - firstFree size kernelEnd⟩] ∧
      memory.area.nrFree = pageCount size - firstFree size kernelEnd := by
  obtain ⟨area', hinit, hlower, hreachable⟩ := @pageInit_reachable fuel size kernelEnd area hpos hcount
    hbase hfits hroom
  have hsmall := pageCount_sub_lt hbase hfits
  obtain ⟨area'', hcheck, hblocks, hfree⟩ := World.check_boot (hreachable _) (by omega) (by omega)
    (pageCount_le size) (show page2ppn _ ≤ pageCount size by unfold page2ppn; omega)
    (show _ < fuel by omega)
  refine ⟨⟨pageCount size, ROUNDUP kernelEnd PGSIZE, area'', some (firstFree size kernelEnd - nbase,
    pageCount size - firstFree size kernelEnd)⟩, ?_, hblocks, hfree⟩
  rw [pmmInitMemory, hinit, ok_bind, hcheck]
  rfl

theorem pmmInitMemory_panics (hfew : pageCount size < firstFree size kernelEnd + 5)
    (hfuel : pageCount size + 6 < fuel) :
    pmmInitMemory fuel area DRAM_BASE size kernelEnd = .error .panic := by
  obtain ⟨area', hinit, hlower, hreachable⟩ := @pageInit_reachable fuel size kernelEnd area hpos hcount
    hbase hfits hroom
  have hsmall := pageCount_sub_lt hbase hfits
  have hcheck := World.check_boot_panics (hreachable _) (by omega) (by omega)
    (pageCount_le size) (show page2ppn _ ≤ pageCount size by unfold page2ppn; omega)
    (show _ < fuel by omega)
  rw [pmmInitMemory, hinit, ok_bind, hcheck]
  rfl

end Published

/-- The array of descriptors lies in the memory that it describes. -/
def DescriptorsInMemory (memorySize kernelEnd : ℕ) : Prop :=
  arrayEnd memorySize kernelEnd < 2 ^ 64 ∧
    arrayEnd memorySize kernelEnd - va_pa_offset ≤ memoryEnd memorySize

/-- Whether the self-test is passed, for all arithmetic of `page_init`. -/
theorem pmmInitMemory_cases (hbase : KERNBASE ≤ kernelEnd) (hend : kernelEnd < 2 ^ 64)
    (hfuel : pageCount size + 6 < fuel) :
    ((arrayEnd size kernelEnd < 2 ^ 64 ∧
        firstFree size kernelEnd + 5 ≤ memoryEnd size / PGSIZE) ∧
      ∃ memory, pmmInitMemory fuel area DRAM_BASE size kernelEnd = .ok memory ∧
        World.freeBlocks fuel memory.area = some [⟨firstFree size kernelEnd - nbase,
          memoryEnd size / PGSIZE - firstFree size kernelEnd⟩] ∧
        memory.area.nrFree = memoryEnd size / PGSIZE - firstFree size kernelEnd) ∨
    (¬ (arrayEnd size kernelEnd < 2 ^ 64 ∧
        firstFree size kernelEnd + 5 ≤ memoryEnd size / PGSIZE) ∧
      pmmInitMemory fuel area DRAM_BASE size kernelEnd = .error .panic) := by
  by_cases hcount : pageCount size < nbase
  · refine .inr ⟨fun h ↦ ?_, ?_⟩
    · have hbelow : memoryEnd size < DRAM_BASE := by
        unfold pageCount KERNTOP KERNBASE KMEMSIZE nbase DRAM_BASE PGSIZE at *
        omega
      have habove := h.2
      unfold firstFree arrayEnd DRAM_BASE KERNBASE va_pa_offset PGSIZE at *
      omega
    · rcases pageInit_below_cases hcount with hpanic | ⟨memory, hinit, hnone⟩
      · rw [pmmInitMemory, hpanic]
        rfl
      · exact pmmInitMemory_unpublished hinit hnone (by omega)
  rcases Nat.eq_zero_or_pos size with rfl | hpos
  · refine .inr ⟨fun h ↦ ?_, rfl⟩
    have habove := h.2
    unfold firstFree arrayEnd memoryEnd DRAM_BASE KERNBASE va_pa_offset PGSIZE at *
    omega
  by_cases hfits : arrayEnd size kernelEnd < 2 ^ 64
  · have hpages := pageCount_of_fits hbase hfits
    rw [← hpages]
    by_cases hroom : firstFree size kernelEnd < pageCount size
    · by_cases hfive : firstFree size kernelEnd + 5 ≤ pageCount size
      · exact .inl ⟨⟨hfits, hfive⟩,
          pmmInitMemory_returns hpos (not_lt.mp hcount) hbase hfits hroom hfive
          hfuel⟩
      · exact .inr ⟨fun h ↦ hfive h.2, pmmInitMemory_panics hpos (not_lt.mp hcount) hbase hfits hroom
          (not_le.mp hfive) hfuel⟩
    refine .inr ⟨fun h ↦ hroom (by omega), ?_⟩
    by_cases hfull : memoryEnd size / PGSIZE * PGSIZE ≤ arrayEnd size kernelEnd - va_pa_offset
    · exact pmmInitMemory_unpublished (pageInit_none hpos (not_lt.mp hcount) hbase hfits hfull) rfl
        (by omega)
    · have hinside : memoryEnd size / PGSIZE * PGSIZE <
          arrayEnd size kernelEnd - va_pa_offset + PGSIZE := by
        unfold firstFree PGSIZE at *
        omega
      rw [pmmInitMemory,
        pageInit_incomplete hpos (not_lt.mp hcount) hbase hfits (not_le.mp hfull) hinside]
      rfl
  · refine .inr ⟨fun h ↦ hfits h.1, ?_⟩
    rw [pmmInitMemory, pageInit_wrapped hpos (not_lt.mp hcount) hend (not_lt.mp hfits)]
    rfl

/-- The kernel gets past the self-test exactly when the descriptors lie in the memory and at least five
whole pages are left behind them. These pages are one block then. With less it panics, where the stores
to the descriptors do not fault before. -/
theorem pmm_init_memory (hbase : KERNBASE ≤ kernelEnd) (hend : kernelEnd < 2 ^ 64) :
    ∃ least, ∀ fuel ≥ least,
      ((DescriptorsInMemory size kernelEnd ∧
          firstFree size kernelEnd + 5 ≤ memoryEnd size / PGSIZE) ∧
        ∃ memory, pmmInitMemory fuel area DRAM_BASE size kernelEnd = .ok memory ∧
          World.freeBlocks fuel memory.area = some [⟨firstFree size kernelEnd - nbase,
            memoryEnd size / PGSIZE - firstFree size kernelEnd⟩] ∧
          memory.area.nrFree = memoryEnd size / PGSIZE - firstFree size kernelEnd) ∨
      (¬ (DescriptorsInMemory size kernelEnd ∧
          firstFree size kernelEnd + 5 ≤ memoryEnd size / PGSIZE) ∧
        (∀ memory, pmmInitMemory fuel area DRAM_BASE size kernelEnd ≠ .ok memory) ∧
        (DescriptorsInMemory size kernelEnd →
          pmmInitMemory fuel area DRAM_BASE size kernelEnd = .error .panic)) := by
  refine ⟨pageCount size + 7, fun fuel hfuel ↦ ?_⟩
  rcases @pmmInitMemory_cases fuel size kernelEnd area hbase hend hfuel with
    ⟨⟨hfits, hfive⟩, hreturns⟩ | ⟨hfew, hpanic⟩
  · have hbelow : arrayEnd size kernelEnd - va_pa_offset ≤ memoryEnd size := by
      unfold firstFree PGSIZE at hfive
      omega
    exact .inl ⟨⟨⟨hfits, hbelow⟩, hfive⟩, hreturns⟩
  · refine .inr ⟨fun h ↦ hfew ⟨h.1.1, h.2⟩, fun memory hreturns ↦ ?_, fun _ ↦ hpanic⟩
    rw [hpanic] at hreturns
    cases hreturns

/-- With 128 MiB the free list starts out as one block of 31724 pages. -/
theorem pmm_init_memory_sample : ∃ least, ∀ fuel ≥ least, ∃ memory,
    pmmInitMemory fuel ⟨⟨id, id⟩, fun _ ↦ ⟨0, 0, 0⟩, 0⟩ DRAM_BASE 0x8000000 0xFFFFFFFFC0214000 =
      .ok memory ∧ World.freeBlocks fuel memory.area = some [⟨0x414, 31724⟩] ∧
        memory.area.nrFree = 31724 := by
  obtain ⟨least, hboots⟩ := @pmm_init_memory 0x8000000 0xFFFFFFFFC0214000
    ⟨⟨id, id⟩, fun _ ↦ ⟨0, 0, 0⟩, 0⟩ (by decide) (by decide)
  refine ⟨least, fun fuel hfuel ↦ ?_⟩
  rcases hboots fuel hfuel with ⟨-, hreturns⟩ | ⟨hfew, -⟩
  · exact hreturns
  · exact absurd ⟨⟨by decide, by decide⟩, by decide⟩ hfew

end PmmInit

end Ucore
