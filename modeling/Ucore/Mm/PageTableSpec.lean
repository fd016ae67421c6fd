import Ucore.Foundation.References
import Ucore.Mm.PageTable

/-!
# The tree of page tables

`ppnAt mem root path` follows a path of indices from the root table. The innermost index comes first,
so that paths of length one and two lead to tables and paths of length three to data pages. A tree
is well formed when no table is reached on two paths; then writing one entry changes what is found
at one path only.
-/

namespace Ucore

open Foundation Memory

/-! ## Entries -/

section Entries

variable {ppn npage : ℕ} {pte : BitVec 64} {type : BitVec 32}

theorem PDX1_lt (la : BitVec 64) : PDX1 la < 512 := by
  unfold PDX1
  rw [BitVec.toNat_and]
  exact Nat.lt_of_le_of_lt Nat.and_le_right (by decide)

theorem PDX0_lt (la : BitVec 64) : PDX0 la < 512 := by
  unfold PDX0
  rw [BitVec.toNat_and]
  exact Nat.lt_of_le_of_lt Nat.and_le_right (by decide)

theorem PTX_lt (la : BitVec 64) : PTX la < 512 := by
  unfold PTX
  rw [BitVec.toNat_and]
  exact Nat.lt_of_le_of_lt Nat.and_le_right (by decide)

/-- Clearing the low bits and shifting left is a shift to the right and back. -/
theorem PTE_ADDR_eq (pte : BitVec 64) : PTE_ADDR pte = pte.toNat / 1024 * 4096 % 2 ^ 64 := by
  have hmask : ~~~0x3FF#64 = BitVec.allOnes 64 <<< 10 := by decide
  have hshift : (pte &&& ~~~0x3FF#64) <<< 2 = pte >>> 10 <<< 12 := by
    rw [hmask, ← BitVec.shiftLeft_ushiftRight, ← BitVec.shiftLeft_add]
  rw [PTE_ADDR, hshift, BitVec.toNat_shiftLeft, BitVec.toNat_ushiftRight, Nat.shiftLeft_eq,
    Nat.shiftRight_eq_div_pow]

theorem PTE_ADDR_aligned (pte : BitVec 64) : PTE_ADDR pte = PPN (PTE_ADDR pte) * PGSIZE := by
  rw [PTE_ADDR_eq, PPN, PGSIZE]
  omega

/-- An entry gives back the page number that was put into it. -/
theorem PPN_pteCreate (hppn : ppn < 2 ^ 52) (htype : type.toNat < 0x400) :
    PPN (PTE_ADDR (pteCreate ppn type)) = ppn := by
  have hdiv : (pteCreate ppn type).toNat / 1024 = ppn := by
    have hflags : type.signExtend 64 >>> 10 = 0#64 := by
      have hmsb : type.msb = false := by
        rw [BitVec.msb_eq_decide, decide_eq_false_iff_not]
        omega
      apply BitVec.eq_of_toNat_eq
      rw [BitVec.signExtend_eq_setWidth_of_msb_false hmsb, BitVec.toNat_ushiftRight,
        BitVec.toNat_setWidth, Nat.shiftRight_eq_div_pow, BitVec.toNat_ofNat]
      omega
    have hshift : pteCreate ppn type >>> 10 = BitVec.ofNat 64 ppn <<< 10 >>> 10 := by
      rw [pteCreate, BitVec.ushiftRight_or_distrib, BitVec.ushiftRight_or_distrib, hflags]
      have hvalid : (PTE_V : BitVec 64) >>> 10 = 0#64 := by decide
      rw [hvalid, BitVec.or_zero, BitVec.or_zero]
    calc
      (pteCreate ppn type).toNat / 1024 = (pteCreate ppn type >>> 10).toNat := by
        rw [BitVec.toNat_ushiftRight, Nat.shiftRight_eq_div_pow]
      _ = ppn := by
        rw [hshift, BitVec.toNat_ushiftRight, BitVec.toNat_shiftLeft, BitVec.toNat_ofNat,
          Nat.shiftRight_eq_div_pow, Nat.shiftLeft_eq]
        omega
  rw [PTE_ADDR_eq, hdiv, PPN, PGSIZE]
  omega

/-- A page number does not reach into the flags. -/
theorem ppn_and_flags {mask : BitVec 64} (hmask : mask.toNat < 0x400) :
    BitVec.ofNat 64 ppn <<< 10 &&& mask = 0#64 := by
  apply BitVec.eq_of_getLsbD_eq
  intro bit hbit
  by_cases hsmall : bit < 10
  · simp [hsmall]
  · have hpow : 2 ^ 10 ≤ 2 ^ bit := Nat.pow_le_pow_right (by decide) (by omega)
    have hhigh : mask.getLsbD bit = false := Nat.testBit_lt_two_pow (hmask.trans_le hpow)
    simp [hhigh]

theorem PTE_V_or_lt (htype : type.toNat < 0x400) : (PTE_V ||| type).toNat < 0x400 := by
  rw [BitVec.toNat_or]
  exact Nat.or_lt_two_pow (show PTE_V.toNat < 2 ^ 10 by decide) htype

theorem pteCreate_valid : pteCreate ppn type &&& PTE_V ≠ 0 := by
  intro hzero
  have hbit := congrArg (fun word : BitVec 64 ↦ word.getLsbD 0) hzero
  simp [pteCreate, PTE_V] at hbit

end Entries

/-! ## Table cells -/

/-- The kernel virtual address of a page frame. -/
def frameKva (ppn : ℕ) : ℕ := (ppn * PGSIZE + va_pa_offset) % 2 ^ 64

/-- The address of an entry of the table in a page frame. -/
def entryOf (ppn index : ℕ) : ℕ := frameKva ppn + 8 * index

section Cells

variable {npage ppn other index index' page : ℕ} {pte : BitVec 64}

theorem KADDR_PTE_ADDR (h : PPN (PTE_ADDR pte) < npage) :
    KADDR npage (PTE_ADDR pte) = .ok (frameKva (PPN (PTE_ADDR pte))) := by
  rw [KADDR, if_neg (by omega), frameKva, ← PTE_ADDR_aligned]

theorem KADDR_page2pa (hnpage : npage ≤ KERNTOP / PGSIZE) (hpage : page2ppn page < npage) :
    KADDR npage (page2pa page) = .ok (frameKva (page2ppn page)) := by
  rw [KADDR, PPN_page2pa hnpage hpage, if_neg (by omega), frameKva, page2pa_eq hnpage hpage]

/-- A page that the kernel knows has a number that fits into an entry. -/
theorem ppn_lt (hnpage : npage ≤ KERNTOP / PGSIZE) (hppn : ppn < npage) : ppn < 2 ^ 52 := by
  unfold KERNTOP KERNBASE KMEMSIZE PGSIZE at hnpage
  omega

theorem entryOf_inj (hnpage : npage ≤ KERNTOP / PGSIZE) (hppn : ppn < npage)
    (hother : other < npage) (hindex : index < 512) (hindex' : index' < 512)
    (h : entryOf ppn index = entryOf other index') : ppn = other ∧ index = index' := by
  unfold entryOf frameKva KERNTOP KERNBASE KMEMSIZE PGSIZE va_pa_offset at *
  omega

/-- The entries of a table are the doublewords of its page. -/
theorem entryOf_mem_page (hnpage : npage ≤ KERNTOP / PGSIZE) (hppn : ppn < npage)
    (hother : other < npage) (hindex : index < 512) :
    frameKva other ≤ entryOf ppn index ∧ entryOf ppn index < frameKva other + PGSIZE ↔
      ppn = other := by
  unfold entryOf frameKva KERNTOP KERNBASE KMEMSIZE PGSIZE va_pa_offset at *
  omega

end Cells

/-! ## Paths -/

/-- The page number in a valid entry. -/
def pteTarget (pte : BitVec 64) : Option ℕ :=
  if pte &&& PTE_V = 0 then none else some (PPN (PTE_ADDR pte))

/-- The entry, if it is valid. -/
def validPte (pte : BitVec 64) : Option (BitVec 64) := if pte &&& PTE_V = 0 then none else some pte

/-- The page frame at the end of a path of indices, innermost index first. -/
def ppnAt (mem : Memory) (root : ℕ) : List ℕ → Option ℕ
  | [] => some root
  | index :: path => (ppnAt mem root path).bind fun ppn ↦ pteTarget (mem (entryOf ppn index))

/-- The valid entry at the end of a path. -/
def pteAt (mem : Memory) (root : ℕ) : List ℕ → Option (BitVec 64)
  | [] => none
  | index :: path => (ppnAt mem root path).bind fun ppn ↦ validPte (mem (entryOf ppn index))

/-- Indices of entries that do not start with one of the root entries `kernel`, which map the kernel
and lead to no tables. -/
def OffKernel (kernel : Finset ℕ) : List ℕ → Prop
  | [] => True
  | index :: path => index < 512 ∧ (path = [] → index ∉ kernel) ∧ OffKernel kernel path

/-- Paths that lead to tables, the root included. -/
def IsTable (kernel : Finset ℕ) (path : List ℕ) : Prop := OffKernel kernel path ∧ path.length < 3

/-- The paths that lead to data pages. -/
def IsSlot (kernel : Finset ℕ) (path : List ℕ) : Prop := OffKernel kernel path ∧ path.length = 3

/-- The entry that `get_pte` finds for a linear address. -/
def slotOf (la : BitVec 64) : List ℕ := [PTX la, PDX0 la, PDX1 la]

/-- Every table lies in a page the kernel knows, and is reached on one path only. -/
structure TableTree (npage : ℕ) (kernel : Finset ℕ) (mem : Memory) (root : ℕ) : Prop where
  bound : ∀ {path ppn}, IsTable kernel path → ppnAt mem root path = some ppn → ppn < npage
  unique : ∀ {path path' ppn}, IsTable kernel path → IsTable kernel path' →
    ppnAt mem root path = some ppn → ppnAt mem root path' = some ppn → path = path'

section Paths

variable {npage root ppn index : ℕ} {kernel : Finset ℕ} {mem mem' : Memory} {path parent : List ℕ} {pte : BitVec 64}
  {la : BitVec 64}

theorem ppnAt_nil : ppnAt mem root [] = some root := rfl

theorem ppnAt_cons : ppnAt mem root (index :: path) =
    (ppnAt mem root path).bind fun ppn ↦ pteTarget (mem (entryOf ppn index)) := rfl

theorem ppnAt_cons_of (h : ppnAt mem root path = some ppn) :
    ppnAt mem root (index :: path) = pteTarget (mem (entryOf ppn index)) := by
  rw [ppnAt_cons, h, Option.bind_some]

theorem pteTarget_zero : pteTarget 0#64 = none := by decide

theorem pteTarget_eq_none : pteTarget pte = none ↔ pte &&& PTE_V = 0 := by
  unfold pteTarget
  split <;> simp_all

theorem pteTarget_eq_map : pteTarget pte = (validPte pte).map (PPN ∘ PTE_ADDR) := by
  unfold pteTarget validPte
  split <;> rfl

theorem validPte_zero : validPte 0#64 = none := by decide

theorem pteAt_cons : pteAt mem root (index :: path) =
    (ppnAt mem root path).bind fun ppn ↦ validPte (mem (entryOf ppn index)) := rfl

/-- The page frame of a slot can be read off its entry. -/
theorem ppnAt_eq_map_pteAt :
    ppnAt mem root (index :: path) = (pteAt mem root (index :: path)).map (PPN ∘ PTE_ADDR) := by
  rw [ppnAt_cons, pteAt_cons]
  cases ppnAt mem root path with
  | none => rw [Option.bind_none, Option.bind_none, Option.map_none]
  | some ppn => rw [Option.bind_some, Option.bind_some, pteTarget_eq_map]

theorem pteTarget_pteCreate {type : BitVec 32} (hppn : ppn < 2 ^ 52) (htype : type.toNat < 0x400) :
    pteTarget (pteCreate ppn type) = some ppn := by
  rw [pteTarget, if_neg pteCreate_valid, PPN_pteCreate hppn htype]

theorem IsTable.tail (h : OffKernel kernel (index :: path)) (hlength : (index :: path).length ≤ 3) :
    IsTable kernel path := ⟨h.2.2, by simpa [Nat.lt_succ_iff] using hlength⟩

theorem isSlot_slotOf (hla : PDX1 la ∉ kernel) : IsSlot kernel (slotOf la) :=
  ⟨⟨PTX_lt la, by simp, PDX0_lt la, by simp, PDX1_lt la, fun _ ↦ hla, trivial⟩, rfl⟩

/-- What a path meets only depends on the entries of the tables. -/
theorem TableTree.ppnAt_congr (hmem : ∀ {path ppn index}, IsTable kernel path →
      ppnAt mem root path = some ppn → index < 512 →
      mem' (entryOf ppn index) = mem (entryOf ppn index))
    (hpath : OffKernel kernel path) (hlength : path.length ≤ 3) :
    ppnAt mem' root path = ppnAt mem root path := by
  induction path with
  | nil => rfl
  | cons index path ih =>
    have htable := IsTable.tail hpath hlength
    rw [ppnAt_cons, ppnAt_cons, ih hpath.2.2 htable.2.le]
    cases hppn : ppnAt mem root path with
    | none => rfl
    | some ppn => rw [Option.bind_some, Option.bind_some, hmem htable hppn hpath.1]

/-- When no entry of a table changes, the tree stays the same. -/
theorem TableTree.congr (h : TableTree npage kernel mem root)
    (hmem : ∀ {path ppn index}, IsTable kernel path → ppnAt mem root path = some ppn →
      index < 512 → mem' (entryOf ppn index) = mem (entryOf ppn index)) :
    TableTree npage kernel mem' root ∧ ∀ path, OffKernel kernel path → path.length ≤ 3 →
      ppnAt mem' root path = ppnAt mem root path := by
  have hsame : ∀ path, OffKernel kernel path → path.length ≤ 3 →
      ppnAt mem' root path = ppnAt mem root path :=
    fun path hpath hlength ↦ TableTree.ppnAt_congr hmem hpath hlength
  refine ⟨⟨fun htable hfound ↦ ?_, fun htable htable' hfound hfound' ↦ ?_⟩, hsame⟩
  · rw [hsame _ htable.1 htable.2.le] at hfound
    exact h.bound htable hfound
  · rw [hsame _ htable.1 htable.2.le] at hfound
    rw [hsame _ htable'.1 htable'.2.le] at hfound'
    exact h.unique htable htable' hfound hfound'

/-- A change inside a page that is no table is not noticed. -/
theorem TableTree.entry_offPage {child : ℕ} (h : TableTree npage kernel mem root)
    (hnpage : npage ≤ KERNTOP / PGSIZE) (hchild : child < npage)
    (hfresh : ∀ {path}, IsTable kernel path → ppnAt mem root path ≠ some child)
    (hmem : ∀ address, ¬ (frameKva child ≤ address ∧ address < frameKva child + PGSIZE) →
      mem' address = mem address)
    (htable : IsTable kernel path) (hfound : ppnAt mem root path = some ppn) (hindex : index < 512) :
    mem' (entryOf ppn index) = mem (entryOf ppn index) := by
  apply hmem
  rw [entryOf_mem_page hnpage (h.bound htable hfound) hchild hindex]
  rintro rfl
  exact hfresh htable hfound

/-- Different entries have different addresses. -/
theorem TableTree.entryOf_ne {index' other : ℕ} (h : TableTree npage kernel mem root)
    (hnpage : npage ≤ KERNTOP / PGSIZE) (hparent : IsTable kernel parent)
    (hppn : ppnAt mem root parent = some ppn) (hindex : index < 512) (htable : IsTable kernel path)
    (hother : ppnAt mem root path = some other) (hindex' : index' < 512)
    (hne : index' :: path ≠ index :: parent) : entryOf other index' ≠ entryOf ppn index := by
  intro heq
  obtain ⟨hsame, hsame'⟩ := entryOf_inj hnpage (h.bound htable hother) (h.bound hparent hppn)
    hindex' hindex heq
  apply hne
  rw [hsame', h.unique htable hparent (hother.trans (congrArg some hsame)) hppn]

/-- Writing an entry leaves alone what lies elsewhere. -/
theorem TableTree.ppnAt_write_of_not_suffix (h : TableTree npage kernel mem root)
    (hnpage : npage ≤ KERNTOP / PGSIZE) (hparent : IsTable kernel parent)
    (hppn : ppnAt mem root parent = some ppn) (hindex : index < 512) (hpath : OffKernel kernel path)
    (hlength : path.length ≤ 3) (hsuffix : ¬ (index :: parent) <:+ path) :
    ppnAt (mem.write (entryOf ppn index) pte) root path = ppnAt mem root path := by
  induction path with
  | nil => rw [ppnAt_nil, ppnAt_nil]
  | cons index' path ih =>
    have htable := IsTable.tail hpath hlength
    have hfront : ¬ (index :: parent) <:+ path :=
      fun hback ↦ hsuffix (hback.trans (List.suffix_cons index' path))
    rw [ppnAt_cons, ppnAt_cons, ih hpath.2.2 htable.2.le hfront]
    cases hfound : ppnAt mem root path with
    | none => rw [Option.bind_none, Option.bind_none]
    | some other =>
      have hne := h.entryOf_ne hnpage hparent hppn hindex htable hfound hpath.1
        fun heq ↦ hsuffix (heq ▸ List.suffix_rfl)
      rw [Option.bind_some, Option.bind_some, write_of_ne hne]

theorem TableTree.ppnAt_write_self (h : TableTree npage kernel mem root)
    (hnpage : npage ≤ KERNTOP / PGSIZE) (hparent : IsTable kernel parent)
    (hppn : ppnAt mem root parent = some ppn) (hindex : index < 512) :
    ppnAt (mem.write (entryOf ppn index) pte) root (index :: parent) = pteTarget pte := by
  have hshort : ¬ (index :: parent) <:+ parent := fun hsuffix ↦ by
    have hle := hsuffix.length_le
    simp at hle
  rw [ppnAt_cons, h.ppnAt_write_of_not_suffix hnpage hparent hppn hindex hparent.1
    hparent.2.le hshort, hppn, Option.bind_some, write_same]

/-- Below an invalid entry there is nothing. -/
theorem ppnAt_eq_none_of_suffix (hnone : ppnAt mem root parent = none) (hsuffix : parent <:+ path) :
    ppnAt mem root path = none := by
  obtain ⟨front, rfl⟩ := hsuffix
  induction front with
  | nil => exact hnone
  | cons index front ih => rw [List.cons_append, ppnAt_cons, ih, Option.bind_none]

theorem OffKernel.of_suffix (h : OffKernel kernel path) (hsuffix : parent <:+ path) :
    OffKernel kernel parent := by
  obtain ⟨front, rfl⟩ := hsuffix
  induction front with
  | nil => exact h
  | cons index front ih => exact ih h.2.2

theorem OffKernel.mono_empty (h : OffKernel kernel path) : OffKernel ∅ path := by
  induction path with
  | nil => trivial
  | cons index path ih => exact ⟨h.1, by simp, ih h.2.2⟩

/-- A proper extension of a path goes on with some entry. -/
theorem exists_entry_suffix (hsuffix : parent <:+ path) (hne : path ≠ parent) :
    ∃ index, (index :: parent) <:+ path := by
  obtain ⟨front, rfl⟩ := hsuffix
  rcases List.eq_nil_or_concat front with rfl | ⟨pre, index, rfl⟩
  · exact absurd rfl hne
  · exact ⟨index, pre, by simp⟩

/-- Assigning an entry of a leaf table changes one slot. -/
theorem TableTree.setSlot (pte : BitVec 64) (h : TableTree npage kernel mem root)
    (hnpage : npage ≤ KERNTOP / PGSIZE)
    (hslot : IsSlot kernel (index :: parent)) (hppn : ppnAt mem root parent = some ppn) :
    TableTree npage kernel (mem.write (entryOf ppn index) pte) root ∧
      ∀ path, OffKernel kernel path → path.length ≤ 3 →
        ppnAt (mem.write (entryOf ppn index) pte) root path =
          Function.update (ppnAt mem root) (index :: parent) (pteTarget pte) path := by
  have hparent : IsTable kernel parent := IsTable.tail hslot.1 hslot.2.le
  have hassign : ∀ path, OffKernel kernel path → path.length ≤ 3 →
      ppnAt (mem.write (entryOf ppn index) pte) root path =
        Function.update (ppnAt mem root) (index :: parent) (pteTarget pte) path := by
    intro path hpath hlength
    by_cases heq : path = index :: parent
    · rw [heq, Function.update_self]
      exact h.ppnAt_write_self hnpage hparent hppn hslot.1.1
    · rw [Function.update_of_ne heq]
      refine h.ppnAt_write_of_not_suffix hnpage hparent hppn hslot.1.1 hpath hlength ?_
      intro hsuffix
      exact heq (hsuffix.eq_of_length_le (hslot.2 ▸ hlength)).symm
  have htables : ∀ path, IsTable kernel path →
      ppnAt (mem.write (entryOf ppn index) pte) root path = ppnAt mem root path := by
    intro path htable
    have hne : path ≠ index :: parent := by
      intro heq
      have hlength := htable.2
      rw [heq, hslot.2] at hlength
      exact absurd hlength (by decide)
    rw [hassign path htable.1 htable.2.le, Function.update_of_ne hne]
  refine ⟨⟨fun htable hfound ↦ ?_, fun htable htable' hfound hfound' ↦ ?_⟩, hassign⟩
  · rw [htables _ htable] at hfound
    exact h.bound htable hfound
  · rw [htables _ htable] at hfound
    rw [htables _ htable'] at hfound'
    exact h.unique htable htable' hfound hfound'

/-- Hanging an empty page into an invalid entry adds one table and no slot. -/
theorem TableTree.addTable {child : ℕ} (h : TableTree npage kernel mem root)
    (hnpage : npage ≤ KERNTOP / PGSIZE) (hentry : IsTable kernel (index :: parent))
    (hppn : ppnAt mem root parent = some ppn) (hnone : ppnAt mem root (index :: parent) = none)
    (hchild : child < npage)
    (hfresh : ∀ {path}, IsTable kernel path → ppnAt mem root path ≠ some child)
    (hpte : pteTarget pte = some child) :
    TableTree npage kernel ((mem.fill (frameKva child) PGSIZE 0).write (entryOf ppn index) pte)
        root ∧
      ∀ path, OffKernel kernel path → path.length ≤ 3 →
        ppnAt ((mem.fill (frameKva child) PGSIZE 0).write (entryOf ppn index) pte) root path =
          Function.update (ppnAt mem root) (index :: parent) (some child) path := by
  have hparent : IsTable kernel parent := IsTable.tail hentry.1 hentry.2.le
  have hcells : ∀ {path ppn index}, IsTable kernel path → ppnAt mem root path = some ppn →
      index < 512 → (mem.fill (frameKva child) PGSIZE 0) (entryOf ppn index) =
        mem (entryOf ppn index) :=
    h.entry_offPage hnpage hchild hfresh fun address ↦ fill_outside
  obtain ⟨hblank, hcleared⟩ := h.congr hcells
  have hppn' : ppnAt (mem.fill (frameKva child) PGSIZE 0) root parent = some ppn := by
    rw [hcleared _ hparent.1 hparent.2.le, hppn]
  have hself : ppnAt ((mem.fill (frameKva child) PGSIZE 0).write (entryOf ppn index) pte) root
      (index :: parent) = some child := by
    rw [hblank.ppnAt_write_self hnpage hparent hppn' hentry.1.1, hpte]
  have hassign : ∀ path, OffKernel kernel path → path.length ≤ 3 →
      ppnAt ((mem.fill (frameKva child) PGSIZE 0).write (entryOf ppn index) pte) root path =
        Function.update (ppnAt mem root) (index :: parent) (some child) path := by
    intro path hpath hlength
    by_cases heq : path = index :: parent
    · rw [heq, Function.update_self, hself]
    · rw [Function.update_of_ne heq]
      by_cases hsuffix : (index :: parent) <:+ path
      · -- the new table is empty
        obtain ⟨next, hnext⟩ := exists_entry_suffix hsuffix heq
        have hindex := (hpath.of_suffix hnext).1
        have hne : entryOf child next ≠ entryOf ppn index := by
          intro hsame
          obtain ⟨hchild', -⟩ := entryOf_inj hnpage hchild (h.bound hparent hppn) hindex
            hentry.1.1 hsame
          exact hfresh hparent (hchild' ▸ hppn)
        have hzero := (entryOf_mem_page hnpage hchild hchild hindex).mpr rfl
        have hempty : ppnAt ((mem.fill (frameKva child) PGSIZE 0).write (entryOf ppn index) pte)
            root (next :: index :: parent) = none := by
          rw [ppnAt_cons_of hself, write_of_ne hne,
            fill_inside hzero.1 hzero.2]
          exact pteTarget_zero
        rw [ppnAt_eq_none_of_suffix hempty hnext, ppnAt_eq_none_of_suffix hnone hsuffix]
      · rw [hblank.ppnAt_write_of_not_suffix hnpage hparent hppn' hentry.1.1 hpath hlength hsuffix,
          hcleared path hpath hlength]
  refine ⟨⟨fun {path other} htable hfound ↦ ?_, fun {path path' other} htable htable' hfound hfound' ↦
    ?_⟩, hassign⟩
  · rw [hassign _ htable.1 htable.2.le, Function.update_apply] at hfound
    split at hfound
    · obtain rfl := Option.some.inj hfound
      exact hchild
    · exact h.bound htable hfound
  · rw [hassign _ htable.1 htable.2.le, Function.update_apply] at hfound
    rw [hassign _ htable'.1 htable'.2.le, Function.update_apply] at hfound'
    split at hfound <;> split at hfound'
    · rename_i hpath hpath'
      rw [hpath, hpath']
    · exact absurd (hfound'.trans hfound.symm) (hfresh htable')
    · exact absurd (hfound.trans hfound'.symm) (hfresh htable)
    · exact h.unique htable htable' hfound hfound'

/-- Assigning an entry of a leaf table changes one slot, seen at the entries themselves. -/
theorem TableTree.setSlot_pteAt (h : TableTree npage kernel mem root)
    (hnpage : npage ≤ KERNTOP / PGSIZE) (hslot : IsSlot kernel (index :: parent))
    (hppn : ppnAt mem root parent = some ppn) (hpath : IsSlot kernel path) :
    pteAt (mem.write (entryOf ppn index) pte) root path =
      Function.update (pteAt mem root) (index :: parent) (validPte pte) path := by
  obtain ⟨hindices, hlength⟩ := hpath
  cases path with
  | nil => exact absurd hlength (by decide)
  | cons index' path =>
    have htable := IsTable.tail hindices hlength.le
    have hparent : IsTable kernel parent := IsTable.tail hslot.1 hslot.2.le
    have hne : path ≠ index :: parent := by
      intro heq
      rw [heq, List.length_cons, hslot.2] at hlength
      exact absurd hlength (by decide)
    have hsame := (h.setSlot pte hnpage hslot hppn).2 path htable.1 htable.2.le
    rw [Function.update_of_ne hne] at hsame
    rw [pteAt_cons, hsame]
    by_cases heq : index' :: path = index :: parent
    · obtain ⟨hindex, htail⟩ := List.cons.inj heq
      rw [heq, Function.update_self, htail, hppn, Option.bind_some, hindex, write_same]
    · rw [Function.update_of_ne heq, pteAt_cons]
      cases hfound : ppnAt mem root path with
      | none => rw [Option.bind_none, Option.bind_none]
      | some other =>
        have hcell := h.entryOf_ne hnpage hparent hppn hslot.1.1 htable hfound hindices.1 heq
        rw [Option.bind_some, Option.bind_some, write_of_ne hcell]

/-- Hanging in an empty table changes no slot. -/
theorem TableTree.addTable_pteAt {child : ℕ} (h : TableTree npage kernel mem root)
    (hnpage : npage ≤ KERNTOP / PGSIZE) (hentry : IsTable kernel (index :: parent))
    (hppn : ppnAt mem root parent = some ppn) (hnone : ppnAt mem root (index :: parent) = none)
    (hchild : child < npage)
    (hfresh : ∀ {path}, IsTable kernel path → ppnAt mem root path ≠ some child)
    (hpte : pteTarget pte = some child) (hpath : IsSlot kernel path) :
    pteAt ((mem.fill (frameKva child) PGSIZE 0).write (entryOf ppn index) pte) root path =
      pteAt mem root path := by
  obtain ⟨hindices, hlength⟩ := hpath
  cases path with
  | nil => exact absurd hlength (by decide)
  | cons index' path =>
    have htable := IsTable.tail hindices hlength.le
    have hparent : IsTable kernel parent := IsTable.tail hentry.1 hentry.2.le
    have hassign := (h.addTable hnpage hentry hppn hnone hchild hfresh hpte).2 path htable.1
      htable.2.le
    rw [pteAt_cons, pteAt_cons, hassign]
    by_cases heq : path = index :: parent
    · -- the slot lies in the new table
      have hne : entryOf child index' ≠ entryOf ppn index := by
        intro hsame
        obtain ⟨hchild', -⟩ := entryOf_inj hnpage hchild (h.bound hparent hppn) hindices.1
          hentry.1.1 hsame
        exact hfresh hparent (hchild' ▸ hppn)
      have hzero := (entryOf_mem_page hnpage hchild hchild hindices.1).mpr rfl
      rw [heq, Function.update_self, hnone, Option.bind_some, Option.bind_none, write_of_ne hne,
        fill_inside hzero.1 hzero.2]
      exact validPte_zero
    · rw [Function.update_of_ne heq]
      cases hfound : ppnAt mem root path with
      | none => rw [Option.bind_none, Option.bind_none]
      | some other =>
        have hlonger : index' :: path ≠ index :: parent := by
          intro hsame
          have hshort := hentry.2
          rw [← hsame, hlength] at hshort
          exact absurd hshort (by decide)
        have hcell := h.entryOf_ne hnpage hparent hppn hentry.1.1 htable hfound hindices.1 hlonger
        have hpage : ¬ (frameKva child ≤ entryOf other index' ∧
            entryOf other index' < frameKva child + PGSIZE) := by
          rw [entryOf_mem_page hnpage (h.bound htable hfound) hchild hindices.1]
          intro hsame
          exact hfresh htable (hsame ▸ hfound)
        rw [Option.bind_some, Option.bind_some, write_of_ne hcell, fill_outside hpage]

end Paths

end Ucore
