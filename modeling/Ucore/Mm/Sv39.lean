import Ucore.Mm.PageTableSpec

/-!
# The Sv39 walk of the hardware

The hardware goes down the tables and stops at the first entry that is no pointer to a table. `walkAt`
follows the path of indices of a page, as `ppnAt` does; on tables that were hung in by `get_pte` the two
find the same.
-/

namespace Ucore

open Foundation Memory

def PTE_R : BitVec 64 := 0x002#64
def PTE_W : BitVec 64 := 0x004#64
def PTE_X : BitVec 64 := 0x008#64

/-- The index into a table of the level, where tables of the level 0 are at the bottom. -/
def vpn (la : BitVec 64) (level : ℕ) : ℕ := ((la >>> (12 + 9 * level)) &&& 0x1FF#64).toNat

/-- The Sv39 walk through the tables of the levels below the given one. -/
def sv39Walk (mem : Memory) (la : BitVec 64) : ℕ → ℕ → Option ℕ
  | 0, _ => none
  | level + 1, table =>
    let pte := mem (entryOf table (vpn la level))
    if pte &&& PTE_V = 0 ∨ pte &&& PTE_R = 0 ∧ pte &&& PTE_W ≠ 0 then none
    else if pte &&& (PTE_R ||| PTE_X) = 0 then sv39Walk mem la level (PPN (PTE_ADDR pte))
    -- a leaf, whose page must be aligned to its size
    else if PTE_ADDR pte % 2 ^ (12 + 9 * level) = 0 then
      some (PTE_ADDR pte + la.toNat % 2 ^ (12 + 9 * level))
    else none

/-- The physical address of a virtual one, whose upper bits must all be the bit 38. -/
def sv39 (mem : Memory) (root : ℕ) (la : BitVec 64) : Option ℕ :=
  if (la.setWidth 39).signExtend 64 = la then sv39Walk mem la 3 root else none

section Indices

variable (la : BitVec 64)

theorem vpn_eq (level : ℕ) : vpn la level = la.toNat / 2 ^ (12 + 9 * level) % 512 := by
  have hmask : 0x1FF#64 = BitVec.ofNat 64 (2 ^ 9 - 1) := rfl
  rw [vpn, BitVec.toNat_and, BitVec.toNat_ushiftRight, Nat.shiftRight_eq_div_pow, hmask,
    BitVec.toNat_ofNat, Nat.mod_eq_of_lt (by decide), Nat.and_two_pow_sub_one_eq_mod]

theorem PDX1_eq : PDX1 la = la.toNat / 2 ^ 30 % 512 := vpn_eq la 2
theorem PDX0_eq : PDX0 la = la.toNat / 2 ^ 21 % 512 := vpn_eq la 1
theorem PTX_eq : PTX la = la.toNat / 2 ^ 12 % 512 := vpn_eq la 0

end Indices

/-! ## Walks along a path -/

/-- A leaf entry with the number of indices that lead to it. -/
structure Leaf where
  depth : ℕ
  pte : BitVec 64
  deriving DecidableEq

inductive Walk
  | fault
  | leaf (leaf : Leaf)
  | table (ppn : ℕ)
  deriving DecidableEq

/-- What the hardware makes of an entry. -/
def walkEntry (depth : ℕ) (pte : BitVec 64) : Walk :=
  if pte &&& PTE_V = 0 ∨ pte &&& PTE_R = 0 ∧ pte &&& PTE_W ≠ 0 then .fault
  else if pte &&& (PTE_R ||| PTE_X) = 0 then .table (PPN (PTE_ADDR pte))
  else .leaf ⟨depth, pte⟩

def walkAt (mem : Memory) (root : ℕ) : List ℕ → Walk
  | [] => .table root
  | index :: path =>
    match walkAt mem root path with
    | .table ppn => walkEntry (path.length + 1) (mem (entryOf ppn index))
    | stopped => stopped

/-- The leaf that translates the addresses of a page. -/
def leafAt (mem : Memory) (root : ℕ) (path : List ℕ) : Option Leaf :=
  match walkAt mem root path with
  | .leaf leaf => some leaf
  | _ => none

/-- The physical address under a leaf, which must be aligned to its size. -/
def Leaf.translate (leaf : Leaf) (la : BitVec 64) : Option ℕ :=
  let size := 2 ^ (12 + 9 * (3 - leaf.depth))
  if PTE_ADDR leaf.pte % size = 0 then some (PTE_ADDR leaf.pte + la.toNat % size) else none

section Walks

variable {npage root ppn index depth : ℕ} {kernel : Finset ℕ} {mem mem' : Memory}
  {path parent : List ℕ} {pte : BitVec 64} {la : BitVec 64}

theorem walkAt_cons_table (h : walkAt mem root path = .table ppn) :
    walkAt mem root (index :: path) = walkEntry (path.length + 1) (mem (entryOf ppn index)) := by
  rw [walkAt, h]

theorem walkAt_cons_stopped (h : ∀ ppn, walkAt mem root path ≠ .table ppn) :
    walkAt mem root (index :: path) = walkAt mem root path := by
  cases hwalk : walkAt mem root path with
  | fault => rw [walkAt, hwalk]
  | leaf leaf => rw [walkAt, hwalk]
  | table ppn => exact absurd hwalk (h ppn)

/-- A walk that has stopped finds nothing further on. -/
theorem walkAt_of_suffix (hstop : ∀ ppn, walkAt mem root parent ≠ .table ppn)
    (hsuffix : parent <:+ path) : walkAt mem root path = walkAt mem root parent := by
  obtain ⟨front, rfl⟩ := hsuffix
  induction front with
  | nil => rfl
  | cons index front ih =>
    rw [List.cons_append, walkAt_cons_stopped, ih]
    rwa [ih]

theorem walkAt_fault_of_suffix (h : walkAt mem root parent = .fault) (hsuffix : parent <:+ path) :
    walkAt mem root path = .fault := by
  have hstop : ∀ ppn, walkAt mem root parent ≠ .table ppn := by simp [h]
  rw [walkAt_of_suffix hstop hsuffix, h]

theorem walkEntry_invalid (h : pte &&& PTE_V = 0) : walkEntry depth pte = .fault :=
  if_pos (.inl h)

/-- The entries that `get_pte` writes are pointers to tables. -/
theorem walkEntry_pteCreate (hppn : ppn < 2 ^ 52) :
    walkEntry depth (pteCreate ppn (PTE_U ||| PTE_V)) = .table ppn := by
  have hflags : ∀ mask : BitVec 64, mask.toNat < 0x400 →
      pteCreate ppn (PTE_U ||| PTE_V) &&& mask = 0x11#64 &&& mask := by
    intro mask hmask
    have htype : (PTE_V : BitVec 64) ||| (PTE_U ||| PTE_V : BitVec 32).signExtend 64 = 0x11#64 := by
      decide
    rw [pteCreate, BitVec.or_assoc, htype, BitVec.and_comm, BitVec.and_or_distrib_left,
      BitVec.and_comm, ppn_and_flags hmask, BitVec.zero_or, BitVec.and_comm]
  rw [walkEntry, hflags _ (by decide), hflags _ (by decide), hflags _ (by decide),
    hflags _ (by decide), if_neg (by decide), if_pos (by decide), PPN_pteCreate hppn (by decide)]

theorem pteTarget_of_walkEntry (h : walkEntry depth pte = .table ppn) :
    pteTarget pte = some ppn := by
  unfold walkEntry at h
  split_ifs at h with hfault
  rw [pteTarget, if_neg fun hinvalid ↦ hfault (.inl hinvalid), Walk.table.inj h]

theorem walkEntry_leaf {leaf : Leaf} (h : walkEntry depth pte = .leaf leaf) :
    pte &&& PTE_V ≠ 0 ∧ leaf = ⟨depth, pte⟩ := by
  unfold walkEntry at h
  split_ifs at h with hfault
  exact ⟨fun hinvalid ↦ hfault (.inl hinvalid), (Walk.leaf.inj h).symm⟩

theorem leafAt_eq_some {leaf : Leaf} :
    leafAt mem root path = some leaf ↔ walkAt mem root path = .leaf leaf := by
  unfold leafAt
  split
  · rename_i hleaf
    rw [hleaf, Option.some.injEq, Walk.leaf.injEq]
  · rename_i hleaf
    exact iff_of_false (by simp) (hleaf leaf)

theorem leafAt_congr (h : walkAt mem' root path = walkAt mem root path) :
    leafAt mem' root path = leafAt mem root path := by
  rw [leafAt, leafAt, h]

/-- Only the entries along the path are read. -/
theorem walkAt_congr (hmem : ∀ {parent index ppn}, (index :: parent) <:+ path →
      walkAt mem root parent = .table ppn → mem' (entryOf ppn index) = mem (entryOf ppn index)) :
    walkAt mem' root path = walkAt mem root path := by
  induction path with
  | nil => rfl
  | cons index path ih =>
    have hfront := ih fun hsuffix ↦ hmem (hsuffix.trans (List.suffix_cons index path))
    cases hwalk : walkAt mem root path with
    | table ppn =>
      rw [walkAt_cons_table hwalk, walkAt_cons_table (hfront.trans hwalk),
        hmem List.suffix_rfl hwalk]
    | fault | leaf =>
      have hstop : ∀ ppn, walkAt mem root path ≠ .table ppn := by simp [hwalk]
      rw [walkAt_cons_stopped hstop, walkAt_cons_stopped (by rwa [hfront]), hfront]

/-! ## The walk from the top -/

/-- One level of the walk. -/
theorem sv39Walk_succ {level table : ℕ} (hlevel : level + depth = 3) :
    sv39Walk mem la (level + 1) table =
      match walkEntry depth (mem (entryOf table (vpn la level))) with
      | .fault => none
      | .leaf leaf => leaf.translate la
      | .table ppn => sv39Walk mem la level ppn := by
  obtain rfl : level = 3 - depth := by omega
  rw [sv39Walk, walkEntry]
  split_ifs with hfault htable haligned
  · rfl
  · rfl
  · exact (if_pos haligned).symm
  · exact (if_neg haligned).symm

/-- The walk from the top translates an address by the leaf of its page. -/
theorem sv39_eq (mem : Memory) (root : ℕ) (la : BitVec 64) : sv39 mem root la =
    if (la.setWidth 39).signExtend 64 = la then
      (leafAt mem root (slotOf la)).bind fun leaf ↦ leaf.translate la else none := by
  have hupper : walkAt mem root [PDX1 la] = walkEntry 1 (mem (entryOf root (vpn la 2))) := rfl
  unfold sv39 slotOf
  congr 1
  rw [sv39Walk_succ (show 2 + 1 = 3 from rfl), ← hupper]
  cases hfirst : walkAt mem root [PDX1 la] with
  | fault | leaf =>
    have hstop : ∀ ppn, walkAt mem root [PDX1 la] ≠ .table ppn := by simp [hfirst]
    have hsuffix : [PDX1 la] <:+ [PTX la, PDX0 la, PDX1 la] := List.suffix_append [_, _] _
    rw [leafAt, walkAt_of_suffix hstop hsuffix, hfirst]
    rfl
  | table middle =>
    have hlower : walkAt mem root [PDX0 la, PDX1 la] =
        walkEntry 2 (mem (entryOf middle (vpn la 1))) := walkAt_cons_table hfirst
    dsimp only
    rw [sv39Walk_succ (show 1 + 2 = 3 from rfl), ← hlower]
    cases hsecond : walkAt mem root [PDX0 la, PDX1 la] with
    | fault | leaf =>
      rw [leafAt, walkAt_cons_stopped (by simp [hsecond]), hsecond]
      rfl
    | table table =>
      have hlast : walkAt mem root [PTX la, PDX0 la, PDX1 la] =
          walkEntry 3 (mem (entryOf table (vpn la 0))) := walkAt_cons_table hsecond
      dsimp only
      rw [sv39Walk_succ (show 0 + 3 = 3 from rfl), leafAt, ← hlast]
      cases walkAt mem root [PTX la, PDX0 la, PDX1 la] <;> rfl

end Walks

/-! ## The tables of `get_pte` -/

/-- The hardware takes every table for one, and no entry of the kernel. -/
structure HardwareTables (kernel : Finset ℕ) (mem : Memory) (root : ℕ) : Prop where
  pointers : ∀ {path ppn}, IsTable kernel path → ppnAt mem root path = some ppn →
    walkAt mem root path = .table ppn
  leaves : ∀ index ∈ kernel, index < 512 → ∀ ppn, walkAt mem root [index] ≠ .table ppn

namespace HardwareTables

variable {npage root ppn index child : ℕ} {kernel : Finset ℕ} {mem mem' : Memory}
  {path parent : List ℕ} {pte : BitVec 64} {leaf : Leaf}

/-- Whatever the hardware reads on from is a table of `get_pte`. -/
theorem isTable (h : HardwareTables kernel mem root) (hpath : OffKernel ∅ path)
    (hwalk : walkAt mem root path = .table ppn) :
    OffKernel kernel path ∧ ppnAt mem root path = some ppn := by
  induction path generalizing ppn with
  | nil => exact ⟨trivial, congrArg some (Walk.table.inj hwalk)⟩
  | cons index path ih =>
    cases hparent : walkAt mem root path with
    | fault | leaf =>
      rw [walkAt_cons_stopped (by simp [hparent]), hparent] at hwalk
      cases hwalk
    | table middle =>
      obtain ⟨hoff, hmiddle⟩ := ih hpath.2.2 hparent
      refine ⟨⟨hpath.1, fun hnil hkernel ↦ ?_, hoff⟩, ?_⟩
      · rw [hnil] at hwalk
        exact h.leaves index hkernel hpath.1 ppn hwalk
      · rw [walkAt_cons_table hparent] at hwalk
        rw [ppnAt_cons_of hmiddle, pteTarget_of_walkEntry hwalk]

/-- Where `ppnAt` finds nothing, the hardware faults. -/
theorem fault_of_none (h : HardwareTables kernel mem root) (hpath : OffKernel kernel path)
    (hlength : path.length ≤ 3) (hnone : ppnAt mem root path = none) :
    walkAt mem root path = .fault := by
  induction path with
  | nil => cases hnone
  | cons index path ih =>
    have htable := IsTable.tail hpath hlength
    cases hparent : ppnAt mem root path with
    | none => exact walkAt_fault_of_suffix (ih hpath.2.2 htable.2.le hparent) (List.suffix_cons _ _)
    | some ppn =>
      rw [ppnAt_cons_of hparent, pteTarget_eq_none] at hnone
      rw [walkAt_cons_table (h.pointers htable hparent), walkEntry_invalid hnone]

/-- A walk only depends on the entries of tables that lie on its path. -/
theorem walkAt_eq (h : HardwareTables kernel mem root) (hpath : OffKernel ∅ path)
    (hlength : path.length ≤ 3)
    (hmem : ∀ {parent index ppn}, (index :: parent) <:+ path → IsTable kernel parent →
      ppnAt mem root parent = some ppn → index < 512 →
      mem' (entryOf ppn index) = mem (entryOf ppn index)) :
    walkAt mem' root path = walkAt mem root path := by
  refine walkAt_congr fun {parent index ppn} hsuffix hwalk ↦ ?_
  have hread : OffKernel ∅ (index :: parent) := hpath.of_suffix hsuffix
  obtain ⟨hoff, hppn⟩ := h.isTable hread.2.2 hwalk
  exact hmem hsuffix ⟨hoff, hsuffix.length_le.trans hlength⟩ hppn hread.1

/-- When no table entry changes, nothing changes for the hardware. -/
theorem congr (h : HardwareTables kernel mem root)
    (hmem : ∀ {path ppn index}, IsTable kernel path → ppnAt mem root path = some ppn →
      index < 512 → mem' (entryOf ppn index) = mem (entryOf ppn index)) :
    HardwareTables kernel mem' root ∧ ∀ path, OffKernel ∅ path → path.length ≤ 3 →
      walkAt mem' root path = walkAt mem root path := by
  have hsame : ∀ path, OffKernel ∅ path → path.length ≤ 3 →
      walkAt mem' root path = walkAt mem root path :=
    fun path hpath hlength ↦ h.walkAt_eq hpath hlength fun _ ↦ hmem
  refine ⟨⟨fun {path ppn} htable hfound ↦ ?_, fun index hkernel hindex ppn ↦ ?_⟩, hsame⟩
  · rw [TableTree.ppnAt_congr hmem htable.1 htable.2.le] at hfound
    rw [hsame path htable.1.mono_empty htable.2.le, h.pointers htable hfound]
  · rw [hsame [index] ⟨hindex, by simp, trivial⟩ (by simp)]
    exact h.leaves index hkernel hindex ppn

/-- Writing an entry leaves walks alone that do not come past it. -/
theorem walkAt_write_of_not_suffix (h : HardwareTables kernel mem root)
    (htree : TableTree npage kernel mem root) (hnpage : npage ≤ KERNTOP / PGSIZE)
    (hparent : IsTable kernel parent) (hppn : ppnAt mem root parent = some ppn) (hindex : index < 512)
    (hpath : OffKernel ∅ path) (hlength : path.length ≤ 3) (hsuffix : ¬ (index :: parent) <:+ path) :
    walkAt (mem.write (entryOf ppn index) pte) root path = walkAt mem root path := by
  refine h.walkAt_eq hpath hlength fun {front index' other} hread hfront hother hindex' ↦ ?_
  apply write_of_ne
  refine htree.entryOf_ne hnpage hparent hppn hindex hfront hother hindex' ?_
  rintro heq
  exact hsuffix (heq ▸ hread)

/-- Assigning an entry of a leaf table changes the walk of one page. -/
theorem setSlot (pte : BitVec 64) (h : HardwareTables kernel mem root) (htree : TableTree npage kernel mem root)
    (hnpage : npage ≤ KERNTOP / PGSIZE) (hslot : IsSlot kernel (index :: parent))
    (hppn : ppnAt mem root parent = some ppn) :
    HardwareTables kernel (mem.write (entryOf ppn index) pte) root ∧
      ∀ path, OffKernel ∅ path → path.length ≤ 3 → path ≠ index :: parent →
        walkAt (mem.write (entryOf ppn index) pte) root path = walkAt mem root path := by
  have hparent : IsTable kernel parent := IsTable.tail hslot.1 hslot.2.le
  have hsame : ∀ path, OffKernel ∅ path → path.length ≤ 3 → path ≠ index :: parent →
      walkAt (mem.write (entryOf ppn index) pte) root path = walkAt mem root path := by
    intro path hpath hlength hne
    refine h.walkAt_write_of_not_suffix htree hnpage hparent hppn hslot.1.1 hpath hlength ?_
    intro hsuffix
    exact hne (hsuffix.eq_of_length_le (hslot.2 ▸ hlength)).symm
  have hshort : ∀ {path : List ℕ}, path.length < 3 → path ≠ index :: parent := by
    intro path hlength heq
    rw [heq, hslot.2] at hlength
    exact absurd hlength (by decide)
  refine ⟨⟨fun {path other} htable hfound ↦ ?_, fun index' hkernel hindex' other ↦ ?_⟩, hsame⟩
  · rw [(htree.setSlot pte hnpage hslot hppn).2 path htable.1 htable.2.le,
      Function.update_of_ne (hshort htable.2)] at hfound
    rw [hsame path htable.1.mono_empty htable.2.le (hshort htable.2), h.pointers htable hfound]
  · rw [hsame [index'] ⟨hindex', by simp, trivial⟩ (by simp) (hshort (by simp))]
    exact h.leaves index' hkernel hindex' other

/-- Memory that only differs in a page that is no table. -/
theorem offPage (h : HardwareTables kernel mem root) (htree : TableTree npage kernel mem root)
    (hnpage : npage ≤ KERNTOP / PGSIZE) (hchild : child < npage)
    (hfresh : ∀ {path}, IsTable kernel path → ppnAt mem root path ≠ some child)
    (hmem : ∀ address, ¬ (frameKva child ≤ address ∧ address < frameKva child + PGSIZE) →
      mem' address = mem address) :
    HardwareTables kernel mem' root ∧ ∀ path, OffKernel ∅ path → path.length ≤ 3 →
      walkAt mem' root path = walkAt mem root path :=
  h.congr (htree.entry_offPage hnpage hchild hfresh hmem)

/-- Hanging an empty page into an invalid entry changes the walk of no page. -/
theorem addTable (h : HardwareTables kernel mem root) (htree : TableTree npage kernel mem root)
    (hnpage : npage ≤ KERNTOP / PGSIZE) (hentry : IsTable kernel (index :: parent))
    (hppn : ppnAt mem root parent = some ppn) (hnone : ppnAt mem root (index :: parent) = none)
    (hchild : child < npage)
    (hfresh : ∀ {path}, IsTable kernel path → ppnAt mem root path ≠ some child)
    (hpte : ∀ depth, walkEntry depth pte = .table child) :
    HardwareTables kernel ((mem.fill (frameKva child) PGSIZE 0).write (entryOf ppn index) pte)
        root ∧
      ∀ path, OffKernel ∅ path → path.length ≤ 3 → path ≠ index :: parent →
        walkAt ((mem.fill (frameKva child) PGSIZE 0).write (entryOf ppn index) pte) root path =
          walkAt (mem.fill (frameKva child) PGSIZE 0) root path := by
  have hparent : IsTable kernel parent := IsTable.tail hentry.1 hentry.2.le
  have hcells : ∀ {path ppn index}, IsTable kernel path → ppnAt mem root path = some ppn →
      index < 512 → (mem.fill (frameKva child) PGSIZE 0) (entryOf ppn index) =
        mem (entryOf ppn index) :=
    htree.entry_offPage hnpage hchild hfresh fun address ↦ fill_outside
  obtain ⟨hblank_tree, hblank_ppn⟩ := htree.congr hcells
  obtain ⟨hblank, hcleared⟩ := h.congr hcells
  obtain ⟨-, hassign⟩ := htree.addTable hnpage hentry hppn hnone hchild hfresh
    (pteTarget_of_walkEntry (hpte 0))
  rw [← hblank_ppn parent hparent.1 hparent.2.le] at hppn
  have hwrite : ∀ {path}, OffKernel ∅ path → path.length ≤ 3 → ¬ (index :: parent) <:+ path →
      walkAt ((mem.fill (frameKva child) PGSIZE 0).write (entryOf ppn index) pte) root path =
        walkAt (mem.fill (frameKva child) PGSIZE 0) root path :=
    fun hpath hlength hsuffix ↦ hblank.walkAt_write_of_not_suffix hblank_tree hnpage hparent hppn
      hentry.1.1 hpath hlength hsuffix
  have hshort : ¬ (index :: parent) <:+ parent := fun hsuffix ↦ by
    have hle := hsuffix.length_le
    simp at hle
  have hself : walkAt ((mem.fill (frameKva child) PGSIZE 0).write (entryOf ppn index) pte) root
      (index :: parent) = .table child := by
    have hwalk := (hwrite hparent.1.mono_empty hparent.2.le hshort).trans
      (hblank.pointers hparent hppn)
    rw [walkAt_cons_table hwalk, write_same, hpte]
  have hsame : ∀ path, OffKernel ∅ path → path.length ≤ 3 → path ≠ index :: parent →
      walkAt ((mem.fill (frameKva child) PGSIZE 0).write (entryOf ppn index) pte) root path =
        walkAt (mem.fill (frameKva child) PGSIZE 0) root path := by
    intro path hpath hlength hne
    by_cases hsuffix : (index :: parent) <:+ path
    · -- a fault at the invalid entry before, a fault in the empty table now
      obtain ⟨next, hnext⟩ := exists_entry_suffix hsuffix hne
      have hindex := (hpath.of_suffix hnext).1
      have hinvalid : walkAt (mem.fill (frameKva child) PGSIZE 0) root (index :: parent) =
          .fault := by
        rw [← hblank_ppn _ hentry.1 hentry.2.le, ppnAt_cons_of hppn, pteTarget_eq_none] at hnone
        rw [walkAt_cons_table (hblank.pointers hparent hppn), walkEntry_invalid hnone]
      have hentry_ne : entryOf child next ≠ entryOf ppn index := by
        intro heq
        obtain ⟨rfl, -⟩ := entryOf_inj hnpage hchild (hblank_tree.bound hparent hppn) hindex
          hentry.1.1 heq
        exact hfresh hparent ((hblank_ppn parent hparent.1 hparent.2.le).symm.trans hppn)
      have hzero := (entryOf_mem_page hnpage hchild hchild hindex).mpr rfl
      have hempty : walkAt ((mem.fill (frameKva child) PGSIZE 0).write (entryOf ppn index) pte) root
          (next :: index :: parent) = .fault := by
        rw [walkAt_cons_table hself, write_of_ne hentry_ne, fill_inside hzero.1 hzero.2]
        exact walkEntry_invalid (by decide)
      rw [walkAt_fault_of_suffix hempty hnext, walkAt_fault_of_suffix hinvalid hsuffix]
    · exact hwrite hpath hlength hsuffix
  refine ⟨⟨fun {path other} htable hfound ↦ ?_, fun index' hkernel hindex' other ↦ ?_⟩, hsame⟩
  · rw [hassign path htable.1 htable.2.le, Function.update_apply] at hfound
    split at hfound
    · rename_i hpath
      rw [hpath, hself, Option.some.inj hfound]
    · rename_i hne
      rw [← hblank_ppn path htable.1 htable.2.le] at hfound
      rw [hsame path htable.1.mono_empty htable.2.le hne, hblank.pointers htable hfound]
  · have hne : [index'] ≠ index :: parent := by
      intro heq
      obtain ⟨rfl, rfl⟩ := List.cons.inj heq
      exact hentry.1.2.1 rfl hkernel
    rw [hsame [index'] ⟨hindex', by simp, trivial⟩ (by simp) hne]
    exact hblank.leaves index' hkernel hindex' other

end HardwareTables

end Ucore
