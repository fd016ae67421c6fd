import Ucore.Mm.PageTableRuns
import Ucore.Mm.Sv39

/-!
# The boot page table (`kern/init/entry.S`, `check_boot_pgdir` in `kern/mm/pmm.c`)

`boot_page_table_sv39` maps the kernel half with one leaf entry of 1 GiB. The hardware stops there;
`get_pte` takes every valid entry for a table and goes on into the first page of the DRAM, so that what
it finds depends on the words of the firmware.
-/

namespace Ucore

open Foundation Memory

variable {allocator : FrameAllocator} {npage root pa : ℕ} {paging : Paging allocator} {mem : Memory}

/-- The last entry of `boot_page_table_sv39` -/
def bootEntry : BitVec 64 := (0x80000#64 <<< 10) ||| 0xcf#64

/-- `boot_page_table_sv39` in the page frame `root` -/
structure BootTable (mem : Memory) (root : ℕ) : Prop where
  empty : ∀ index < 511, mem (entryOf root index) = 0
  last : mem (entryOf root 511) = bootEntry

/-! ## The kernel half -/

/-- The linear address of the physical address `pa` -/
def linear (pa : ℕ) : BitVec 64 := BitVec.ofNat 64 ((pa + va_pa_offset) % 2 ^ 64)

theorem linear_toNat (pa : ℕ) : (linear pa).toNat = (pa + va_pa_offset) % 2 ^ 64 := by
  rw [linear, BitVec.toNat_ofNat, Nat.mod_mod]

/-- The offset is a multiple of 1 GiB, so that only the uppermost index is moved. -/
theorem linear_indices (pa : ℕ) :
    (PDX1 (linear pa) = 511 ↔ pa / 2 ^ 30 % 512 = 2) ∧ PDX0 (linear pa) = pa / 2 ^ 21 % 512 ∧
      PTX (linear pa) = pa / 2 ^ 12 % 512 := by
  rw [PDX1_eq, PDX0_eq, PTX_eq, linear_toNat]
  unfold va_pa_offset
  omega

/-- The addresses of the uppermost GiB have all upper bits set. -/
theorem linear_canonical (hlower : DRAM_BASE ≤ pa) (hupper : pa < DRAM_BASE + 2 ^ 30) :
    ((linear pa).setWidth 39).signExtend 64 = linear pa := by
  have hvalue := linear_toNat pa
  unfold DRAM_BASE va_pa_offset at *
  apply BitVec.eq_of_toInt_eq
  rw [BitVec.toInt_signExtend_of_le (by decide), BitVec.toInt_setWidth,
    BitVec.toInt_eq_toNat_bmod, Int.bmod_def, Int.bmod_def]
  omega

theorem bootEntry_fields : bootEntry &&& PTE_V ≠ 0 ∧ bootEntry &&& PTE_R ≠ 0 ∧
    bootEntry &&& (PTE_R ||| PTE_X) ≠ 0 ∧ PTE_ADDR bootEntry = DRAM_BASE := by decide

/-- The hardware maps the kernel half linearly. -/
theorem BootTable.sv39_linear (h : BootTable mem root) (hlower : DRAM_BASE ≤ pa)
    (hupper : pa < DRAM_BASE + 2 ^ 30) : sv39 mem root (linear pa) = some pa := by
  obtain ⟨hvalid, hread, hleaf, haddr⟩ := bootEntry_fields
  have hindex : vpn (linear pa) 2 = 511 := by
    refine (linear_indices pa).1.mpr ?_
    unfold DRAM_BASE at hlower hupper
    omega
  have hoffset : (linear pa).toNat % 2 ^ 30 = pa - DRAM_BASE := by
    rw [linear_toNat]
    unfold DRAM_BASE va_pa_offset at *
    omega
  rw [sv39, if_pos (linear_canonical hlower hupper), sv39Walk, hindex, h.last]
  have hnot : ¬ (bootEntry &&& PTE_V = 0 ∨ bootEntry &&& PTE_R = 0 ∧ bootEntry &&& PTE_W ≠ 0) := by
    rw [not_or]
    exact ⟨hvalid, fun hwrite ↦ hread hwrite.1⟩
  have haligned : DRAM_BASE % 2 ^ (12 + 9 * 2) = 0 := by decide
  rw [if_neg hnot, if_neg hleaf, haddr, if_pos haligned, hoffset, Nat.add_sub_cancel' hlower]

/-- A canonical address with the uppermost index lies in the uppermost GiB. -/
theorem bootMapped_of_canonical {la : BitVec 64} (hcanonical : (la.setWidth 39).signExtend 64 = la)
    (hindex : vpn la 2 = 511) : BootMapped la.toNat 1 := by
  have hvalue := congrArg BitVec.toInt hcanonical
  rw [BitVec.toInt_signExtend_of_le (by decide), BitVec.toInt_setWidth,
    BitVec.toInt_eq_toNat_bmod, Int.bmod_def, Int.bmod_def] at hvalue
  rw [vpn_eq] at hindex
  have hlt := la.isLt
  unfold BootMapped DRAM_BASE va_pa_offset
  omega

/-- The hardware translates the addresses of the uppermost GiB and no others. -/
theorem BootTable.sv39_isSome_iff (h : BootTable mem root) (la : BitVec 64) :
    (sv39 mem root la).isSome ↔ BootMapped la.toNat 1 := by
  constructor
  · intro htranslated
    unfold sv39 at htranslated
    by_cases hcanonical : (la.setWidth 39).signExtend 64 = la
    · rw [if_pos hcanonical] at htranslated
      apply bootMapped_of_canonical hcanonical
      by_contra hindex
      have hlower : vpn la 2 < 511 := by
        rw [vpn_eq] at hindex ⊢
        omega
      rw [sv39Walk, h.empty _ hlower, if_pos (.inl (by decide))] at htranslated
      cases htranslated
    · rw [if_neg hcanonical] at htranslated
      cases htranslated
  · rintro ⟨hlower, hupper⟩
    have hlinear : linear (la.toNat - va_pa_offset) = la := by
      apply BitVec.eq_of_toNat_eq
      rw [linear_toNat]
      unfold DRAM_BASE va_pa_offset at *
      omega
    have hpa : sv39 mem root (linear (la.toNat - va_pa_offset)) = some (la.toNat - va_pa_offset) := by
      apply h.sv39_linear
      · exact Nat.le_sub_of_add_le hlower
      · unfold DRAM_BASE va_pa_offset at *
        omega
    rw [hlinear] at hpa
    rw [hpa]
    rfl

/-- A range is mapped if each of its bytes is. -/
theorem BootTable.bootMapped_iff (h : BootTable mem root) {kva length : ℕ} (hkva : kva < 2 ^ 64)
    (hpos : 0 < length) : BootMapped kva length ↔
      ∀ offset < length, (sv39 mem root (BitVec.ofNat 64 (kva + offset))).isSome := by
  have hbyte : ∀ address, (sv39 mem root (BitVec.ofNat 64 address)).isSome ↔
      BootMapped (address % 2 ^ 64) 1 := by
    intro address
    rw [h.sv39_isSome_iff, BitVec.toNat_ofNat]
  constructor
  · rintro ⟨hlower, hupper⟩ offset hoffset
    rw [hbyte, Nat.mod_eq_of_lt (by omega)]
    exact ⟨hlower.trans (Nat.le_add_right _ _), by omega⟩
  · intro hmapped
    have hfirst := (hbyte _).mp (hmapped 0 hpos)
    rw [Nat.add_zero, Nat.mod_eq_of_lt hkva] at hfirst
    refine ⟨hfirst.1, Nat.le_of_not_lt fun hover ↦ ?_⟩
    -- the byte at the end of the address space would be the one at 0
    have hwrapped := (hbyte _).mp (hmapped (2 ^ 64 - kva) (by omega))
    rw [Nat.add_sub_cancel' hkva.le, Nat.mod_self] at hwrapped
    exact absurd hwrapped.1 (by decide)

/-! ## What `get_pte` does -/

/-- What the first loop of `check_boot_pgdir` asserts of the page at `pa` -/
def Agrees (npage root : ℕ) (paging : Paging allocator) (pa : ℕ) : Prop :=
  ∃ kva pte, KADDR npage pa = .ok kva ∧
    getPte npage paging (frameKva root) (BitVec.ofNat 64 kva) false = .ok (some pte, paging) ∧
    PTE_ADDR (paging.mem pte) = pa

/-- The words of the first page of the DRAM, read as a table, lead to an entry with the address `pa`. -/
def LooksMapped (npage : ℕ) (mem : Memory) (pa : ℕ) : Prop :=
  let first := mem (entryOf nbase (pa / 2 ^ 21 % 512))
  first &&& PTE_V ≠ 0 ∧ PPN (PTE_ADDR first) < npage ∧
    PTE_ADDR (mem (entryOf (PPN (PTE_ADDR first)) (pa / 2 ^ 12 % 512))) = pa

theorem KADDR_eq (h : PPN pa < npage) : KADDR npage pa = .ok ((pa + va_pa_offset) % 2 ^ 64) := by
  rw [KADDR, if_neg (by omega)]

/-- Behind the last entry `get_pte` takes the first page of the DRAM for a table. -/
theorem BootTable.getPte_kernel {la : BitVec 64} (h : BootTable paging.mem root)
    (hnpage : nbase < npage) (hla : PDX1 la = 511) :
    getPte npage paging (frameKva root) la false =
      if paging.mem (entryOf nbase (PDX0 la)) &&& PTE_V = 0 then .ok (none, paging) else do
        let leaf ← KADDR npage (PTE_ADDR (paging.mem (entryOf nbase (PDX0 la))))
        return (some (leaf + 8 * PTX la), paging) := by
  obtain ⟨hvalid, -, -, haddr⟩ := bootEntry_fields
  have hframe : (DRAM_BASE + va_pa_offset) % 2 ^ 64 = frameKva nbase := rfl
  rw [getPte_lookup, hla, h.last, if_neg hvalid, haddr, KADDR_eq hnpage, ok_bind, hframe]
  rfl

theorem BootTable.getPte_other {la : BitVec 64} (h : BootTable paging.mem root)
    (hla : PDX1 la ≠ 511) : getPte npage paging (frameKva root) la false = .ok (none, paging) := by
  have hindex : PDX1 la < 511 := by
    have hlt := PDX1_lt la
    omega
  rw [getPte_lookup, h.empty _ hindex, if_pos (by decide)]

/-- The hardware translates the kernel half to `pa`; `get_pte` finds `pa` exactly when words that are no
tables happen to say so. -/
theorem getPte_boot_page_table (h : BootTable paging.mem root) (hlower : DRAM_BASE ≤ pa)
    (hupper : pa < npage * PGSIZE) :
    (pa < DRAM_BASE + 2 ^ 30 → sv39 paging.mem root (linear pa) = some pa) ∧
      (Agrees npage root paging pa ↔
        pa / 2 ^ 30 % 512 = 2 ∧ LooksMapped npage paging.mem pa) := by
  refine ⟨h.sv39_linear hlower, ?_⟩
  obtain ⟨hindex, hmiddle, hleaf⟩ := linear_indices pa
  have hknown : PPN pa < npage := (Nat.div_lt_iff_lt_mul (by decide)).mpr hupper
  have hnpage : nbase < npage := (Nat.div_le_div_right hlower).trans_lt hknown
  rw [Agrees, KADDR_eq hknown]
  constructor
  · rintro ⟨kva, pte, hkva, hcall, haddr⟩
    obtain rfl := Except.ok.inj hkva
    change getPte npage paging (frameKva root) (linear pa) false = _ at hcall
    by_cases hkernel : PDX1 (linear pa) = 511
    · refine ⟨hindex.mp hkernel, ?_⟩
      rw [h.getPte_kernel hnpage hkernel, hmiddle, hleaf] at hcall
      split_ifs at hcall with hvalid
      · cases (Prod.mk.inj (Except.ok.inj hcall)).1
      · obtain ⟨leaf, htable, hcall⟩ := bind_eq_ok.mp hcall
        obtain rfl := Option.some.inj (Prod.mk.inj (Except.ok.inj hcall)).1
        have hframe : PPN (PTE_ADDR (paging.mem (entryOf nbase (pa / 2 ^ 21 % 512)))) < npage := by
          by_contra hlarge
          rw [KADDR, if_pos (Nat.le_of_not_lt hlarge)] at htable
          cases htable
        rw [KADDR_PTE_ADDR hframe] at htable
        obtain rfl := Except.ok.inj htable
        exact ⟨hvalid, hframe, haddr⟩
    · rw [h.getPte_other hkernel] at hcall
      cases (Prod.mk.inj (Except.ok.inj hcall)).1
  · rintro ⟨hkernel, hvalid, hframe, haddr⟩
    refine ⟨_, _, rfl, ?_, haddr⟩
    change getPte npage paging (frameKva root) (linear pa) false = _
    rw [h.getPte_kernel hnpage (hindex.mpr hkernel), hmiddle, hleaf, if_neg hvalid,
      KADDR_PTE_ADDR hframe, ok_bind]
    rfl

/-- The boot page table in page frame `0x80206` and two words of the first two frames of the DRAM. -/
def sampleBoot (first second : BitVec 64) : Paging (FrameAllocator.firstFit 0x20A 16) :=
  { PageWorld.emptyPaging 16 with
    mem := Memory.write (Memory.write (Memory.write (fun _ ↦ 0) (entryOf 0x80001 0) second)
      (entryOf 0x80000 0) first) (entryOf 0x80206 511) bootEntry }

theorem sampleBoot_table (first second : BitVec 64) :
    BootTable (sampleBoot first second).mem 0x80206 where
  empty index hindex := by
    have hne : ∀ {other index' : ℕ}, other < 0x88000 → index' < 512 →
        (0x80206, index) ≠ (other, index') → entryOf 0x80206 index ≠ entryOf other index' := by
      intro other index' hother hindex' hne heq
      obtain ⟨rfl, rfl⟩ := entryOf_inj (show 0x88000 ≤ KERNTOP / PGSIZE by decide)
        (by decide) hother (by omega) hindex' heq
      exact hne rfl
    unfold sampleBoot
    dsimp only
    rw [write_of_ne (hne (by decide) (by decide) (by simp; omega)),
      write_of_ne (hne (by decide) (by decide) (by simp)),
      write_of_ne (hne (by decide) (by decide) (by simp))]
  last := by
    unfold sampleBoot
    dsimp only
    rw [write_same]

/-- Words that do look like tables. -/
theorem getPte_boot_page_table_mapped :
    Agrees 0x88000 0x80206 (sampleBoot (pteCreate 0x80001 0x1) (pteCreate 0x80000 0x7)) DRAM_BASE :=
  (getPte_boot_page_table (sampleBoot_table _ _) le_rfl (by decide)).2.mpr
    ⟨by decide, by decide +kernel, by decide +kernel, by decide +kernel⟩

/-- The first word of the DRAM is no valid entry. -/
theorem getPte_boot_page_table_zero : ¬ ∀ (npage root pa : ℕ)
    (paging : Paging (FrameAllocator.firstFit 0x20A 16)), BootTable paging.mem root →
      pa % PGSIZE = 0 → DRAM_BASE ≤ pa → pa < npage * PGSIZE → Agrees npage root paging pa := by
  intro hagrees
  obtain ⟨kva, pte, hkva, hcall, -⟩ := hagrees 0x88000 0x80206 DRAM_BASE (sampleBoot 0 0)
    (sampleBoot_table 0 0) (by decide) le_rfl (by decide)
  obtain rfl : 0xFFFFFFFFC0000000 = kva := Except.ok.inj hkva
  have hnull : (getPte 0x88000 (sampleBoot 0 0) (frameKva 0x80206) 0xFFFFFFFFC0000000#64
      false).toOption.any (fun outcome ↦ outcome.1.isNone) = true := by decide +kernel
  rw [hcall] at hnull
  cases hnull

/-! ## The loop of `check_boot_pgdir` -/

/-- The first loop of `check_boot_pgdir` from the value `i` on. -/
def checkBootPgdir (npage root : ℕ) (paging : Paging allocator) : ℕ → BitVec 32 → Except Fault Unit
  | 0, _ => .error .outOfFuel
  | fuel + 1, i =>
    -- the `int` is compared as a `size_t`
    let pa := (i.signExtend 64).toNat
    if pa < npage * PGSIZE then do
      let kva ← KADDR npage pa
      let (ptep, _) ← getPte npage paging (frameKva root) (BitVec.ofNat 64 kva) false
      match ptep with
      | none => throw .panic
      | some pte =>
        assert (PTE_ADDR (paging.mem pte) = pa)
        checkBootPgdir npage root paging fuel (i + BitVec.ofNat 32 PGSIZE)
    else return ()

/-- The start value is larger than every physical address, so that nothing is ever asserted. -/
theorem checkBootPgdir_skipped (fuel : ℕ) (hnpage : npage * PGSIZE ≤ KERNBASE) :
    checkBootPgdir npage root paging (fuel + 1) (BitVec.ofNat 32 KERNBASE) = .ok () := by
  have hstart : ((BitVec.ofNat 32 KERNBASE).signExtend 64).toNat = KERNBASE := by decide
  rw [checkBootPgdir, hstart]
  exact if_neg (Nat.not_lt.mpr hnpage)

end Ucore
