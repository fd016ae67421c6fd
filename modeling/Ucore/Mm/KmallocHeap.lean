import Ucore.Mm.KmallocSpec

/-!
# The heap between calls of the SLOB allocator

`Slob image heap blocks live grown` says that the pages `grown` are partitioned into the free blocks
of the ring and the live blocks. `slob_alloc` moves units from the ring to a new live block, growing
the heap by a page when nothing fits; `slob_free` moves a live block back.
-/

namespace Ucore

open Foundation Memory

/-- The loan of a single page. -/
def singlePage (page : ℕ) : Block := ⟨page, 1⟩

/-- The bytes of all pages the heap took. -/
def heapBytes (grown : List ℕ) : Set ℕ := cover (grown.map pageBytes)

structure Slob {allocator : PageAllocator} (image : KernelImage) (heap : Heap allocator)
    (blocks live : List Block) (grown : List ℕ) : Prop where
  ring : FreeRing image.arena heap.mem blocks
  position : heap.slobfree ∈ image.arena :: blocks.map Block.start
  apart : live.Pairwise (fun left right ↦ Disjoint left.cells right.cells)
  unused : ∀ block ∈ live, Disjoint (cover blocks) block.cells
  partition : cover blocks ∪ cover live = heapBytes grown
  units : ∀ block ∈ live, 0 < block.size ∧ SLOB_UNIT ∣ block.start ∧ SLOB_UNIT ∣ block.size
  usable : ∀ page ∈ grown, image.Usable page

/-- Cells that a call of the allocator must not write: those of live blocks, and those outside the
heap. -/
def Foreign (image : KernelImage) (live : List Block) (grown : List ℕ) (address : ℕ) : Prop :=
  address ∈ cover live ∨
    address ∉ heapBytes grown ∧ address ∉ Block.cells ⟨image.arena, SLOB_UNIT⟩

/-- Cells that the clients of the heap may own: the payloads of their blocks, and whatever lies outside
the heap. -/
def ClientCell (image : KernelImage) (small : List Block) (grown : List ℕ) (address : ℕ) : Prop :=
  (∃ block ∈ small, block.start + SLOB_UNIT ≤ address ∧ address < block.stop) ∨
    address ∉ heapBytes grown ∧ address ∉ Block.cells ⟨image.arena, SLOB_UNIT⟩

/-- The bytes of all free heap units. -/
def freeBytes {allocator : PageAllocator} (image : KernelImage) (heap : Heap allocator) : Set ℕ :=
  {address | ∃ blocks, FreeRing image.arena heap.mem blocks ∧ address ∈ cover blocks}

section Pages

variable {image : KernelImage} {page : ℕ}

theorem KernelImage.Usable.base_le (h : image.Usable page) : KERNBASE ≤ kvaOf page :=
  le_trans image.base_le_arena (le_trans (Nat.le_add_right _ _) h.2.le)

theorem KernelImage.Usable.kvaOf_eq (h : image.Usable page) :
    kvaOf page = page2ppn page * PGSIZE + va_pa_offset :=
  Ucore.kvaOf_eq image.npage_le h.1 h.base_le

theorem KernelImage.Usable.top_le (h : image.Usable page) : kvaOf page + PGSIZE ≤ 2 ^ 64 := by
  have hlt : kvaOf page < 2 ^ 64 := Nat.mod_lt _ (by decide)
  have heq := h.kvaOf_eq
  unfold PGSIZE va_pa_offset at *
  omega

theorem KernelImage.Usable.aligned (h : image.Usable page) : SLOB_UNIT ∣ kvaOf page := by
  rw [h.kvaOf_eq]
  unfold SLOB_UNIT PGSIZE va_pa_offset
  omega

/-- Different pages have different bytes. -/
theorem KernelImage.Usable.disjoint {other : ℕ} (h : image.Usable page) (h' : image.Usable other)
    (hne : page ≠ other) : Disjoint (pageBytes page).cells (pageBytes other).cells := by
  rw [Set.disjoint_left]
  intro address hcell hcell'
  rw [pageBytes, Block.mem_cells_mk, h.kvaOf_eq] at hcell
  rw [pageBytes, Block.mem_cells_mk, h'.kvaOf_eq] at hcell'
  unfold page2ppn PGSIZE at *
  omega

theorem KernelImage.Usable.not_arena (h : image.Usable page) {address : ℕ}
    (haddress : address ∈ (pageBytes page).cells) : address ∉ Block.cells ⟨image.arena, SLOB_UNIT⟩ := by
  intro harena
  have habove := h.2
  rw [pageBytes, Block.mem_cells_mk] at haddress
  rw [Block.mem_cells_mk] at harena
  omega

/-- A byte of a run of pages lies in one of them. -/
theorem mem_pageBytes_of_run {run : Block} {address : ℕ}
    (h : ∀ other ∈ run.cells, image.Usable other)
    (haddress : address ∈ Block.cells ⟨kvaOf run.start, PGSIZE * run.size⟩) :
    ∃ page ∈ run.cells, address ∈ (pageBytes page).cells := by
  rw [Block.mem_cells_mk] at haddress
  obtain ⟨offset, rfl⟩ := Nat.exists_eq_add_of_le haddress.1
  have hlt : offset / PGSIZE < run.size :=
    Nat.div_lt_of_lt_mul (Nat.add_lt_add_iff_left.mp haddress.2)
  have hpage : run.start + offset / PGSIZE ∈ run.cells :=
    ⟨Nat.le_add_right _ _, Nat.add_lt_add_left hlt _⟩
  have hfirst := h run.start ⟨le_rfl, Nat.lt_add_of_pos_right (Nat.zero_lt_of_lt hlt)⟩
  refine ⟨_, hpage, ?_⟩
  have hkva : kvaOf (run.start + offset / PGSIZE) = kvaOf run.start + offset / PGSIZE * PGSIZE := by
    rw [(h _ hpage).kvaOf_eq, hfirst.kvaOf_eq, page2ppn, page2ppn]
    ring
  have hsplit := Nat.div_add_mod' offset PGSIZE
  have hmod : offset % PGSIZE < PGSIZE := Nat.mod_lt _ (by decide)
  rw [pageBytes, Block.mem_cells_mk, hkva]
  omega

/-- Runs without a common page have no common byte. -/
theorem runBytes_disjoint {run run' : Block} (h : ∀ other ∈ run.cells, image.Usable other)
    (h' : ∀ other ∈ run'.cells, image.Usable other) (hdisjoint : Disjoint run.cells run'.cells) :
    Disjoint (Block.cells ⟨kvaOf run.start, PGSIZE * run.size⟩)
      (Block.cells ⟨kvaOf run'.start, PGSIZE * run'.size⟩) := by
  rw [Set.disjoint_left]
  intro address hcell hcell'
  obtain ⟨page, hpage, hbytes⟩ := mem_pageBytes_of_run h hcell
  obtain ⟨page', hpage', hbytes'⟩ := mem_pageBytes_of_run h' hcell'
  have hne : page ≠ page' := by
    rintro rfl
    exact Set.disjoint_left.mp hdisjoint hpage hpage'
  have hapart := (h page hpage).disjoint (h' page' hpage') hne
  exact Set.disjoint_left.mp hapart hbytes hbytes'

end Pages

namespace Slob

variable {allocator : PageAllocator} {image : KernelImage} {heap heap' : Heap allocator}
  {blocks live live' : List Block} {grown : List ℕ} {block : Block}

theorem perm (h : Slob image heap blocks live grown) (hperm : live.Perm live') :
    Slob image heap blocks live' grown where
  ring := h.ring
  position := h.position
  apart := (hperm.pairwise_iff fun {left right} (hdisjoint : Disjoint left.cells right.cells) ↦
    hdisjoint.symm).mp h.apart
  unused other hother := h.unused other (hperm.mem_iff.mpr hother)
  partition := by
    rw [← h.partition]
    congr 1
    ext address
    simp [hperm.mem_iff]
  units other hother := h.units other (hperm.mem_iff.mpr hother)
  usable := h.usable

theorem freeBytes_eq (h : Slob image heap blocks live grown) : freeBytes image heap = cover blocks := by
  ext address
  constructor
  · rintro ⟨others, hring, hcell⟩
    rwa [h.ring.unique hring]
  · exact fun hcell ↦ ⟨blocks, h.ring, hcell⟩

theorem unused_cover (h : Slob image heap blocks live grown) : Disjoint (cover blocks) (cover live) := by
  rw [Set.disjoint_right]
  rintro address ⟨block, hblock, hcell⟩
  exact Set.disjoint_right.mp (h.unused block hblock) hcell

/-- A live block that goes back to the ring adds its cells to the free ones. -/
theorem freeBytes_freed {blocks' : List Block} (h : Slob image heap blocks (block :: live) grown)
    (h' : Slob image heap' blocks' live grown) :
    freeBytes image heap' = freeBytes image heap ∪ block.cells := by
  have hsame := h'.partition.trans h.partition.symm
  rw [cover_cons] at hsame
  have hrest : ∀ address ∈ cover live, address ∉ cover blocks ∧ address ∉ block.cells := by
    rintro address ⟨other, hother, hcell⟩
    have hapart := (List.pairwise_cons.mp h.apart).1 other hother
    exact ⟨Set.disjoint_right.mp (h.unused other (List.mem_cons_of_mem _ hother)) hcell,
      Set.disjoint_right.mp hapart hcell⟩
  have hunused := h'.unused_cover
  rw [h.freeBytes_eq, h'.freeBytes_eq]
  ext address
  have hiff : address ∈ cover blocks' ∪ cover live ↔
      address ∈ cover blocks ∪ (block.cells ∪ cover live) := Set.ext_iff.mp hsame address
  have hnot := fun hcell : address ∈ cover blocks' ↦ Set.disjoint_left.mp hunused hcell
  have hlive := hrest address
  simp only [Set.mem_union] at hiff ⊢
  tauto

/-- A cell that is neither free nor part of `arena` is in use or outside the heap. -/
theorem foreign_of_used (h : Slob image heap blocks live grown) {address : ℕ}
    (hused : address ∉ freeBytes image heap)
    (harena : address ∉ Block.cells ⟨image.arena, SLOB_UNIT⟩) : Foreign image live grown address := by
  rw [h.freeBytes_eq] at hused
  by_cases hheap : address ∈ heapBytes grown
  · rw [← h.partition] at hheap
    exact .inl (hheap.resolve_left hused)
  · exact .inr ⟨hheap, harena⟩

/-- Every byte of the heap lies above the kernel image. -/
theorem above (h : Slob image heap blocks live grown) {address : ℕ}
    (haddress : address ∈ heapBytes grown) :
    image.arena + SLOB_UNIT < address ∧ address < 2 ^ 64 := by
  obtain ⟨bytes, hbytes, hcell⟩ := haddress
  obtain ⟨page, hpage, rfl⟩ := List.mem_map.mp hbytes
  have husable := h.usable page hpage
  have htop := husable.top_le
  have habove := husable.2
  rw [pageBytes, Block.mem_cells_mk] at hcell
  omega

theorem live_above (h : Slob image heap blocks live grown) (hblock : block ∈ live) :
    image.arena + SLOB_UNIT < block.start ∧ block.stop ≤ 2 ^ 64 := by
  have hsize := (h.units block hblock).1
  have hin : ∀ address ∈ block.cells, address ∈ heapBytes grown := by
    intro address hcell
    rw [← h.partition]
    exact .inr ⟨block, hblock, hcell⟩
  have hfirst := h.above (hin block.start (by rw [Block.mem_cells, Block.stop_eq]; omega))
  have hlast := h.above (hin (block.stop - 1) (by rw [Block.mem_cells, Block.stop_eq]; omega))
  omega

/-- Free blocks lie on either side of a live block. -/
theorem live_apart (h : Slob image heap blocks live grown) (hblock : block ∈ live) {other : Block}
    (hother : other ∈ blocks) :
    other.stop ≤ block.start ∨ block.start + block.size ≤ other.start := by
  refine Block.apart_of_disjoint (Set.disjoint_of_subset_left ?_ (h.unused block hblock))
    (h.ring.separated.nonempty other hother) (h.units block hblock).1
  exact fun address hcell ↦ ⟨other, hother, hcell⟩

/-- Moving a live block back to the ring. -/
theorem free {size fuel : ℕ} (h : Slob image heap blocks (block :: live) grown)
    (hunits : if size = 0 then SLOB_UNIT * slobUnits heap.mem block.start = block.size
      else (SLOB_UNIT : ℤ) * SLOB_UNITS size = block.size)
    (hfree : slobFree fuel heap block.start size = .ok heap') :
    ∃ blocks', Slob image heap' blocks' live grown ∧ heap'.bigblocks = heap.bigblocks ∧
      heap'.pages = heap.pages ∧
      ∀ address, Foreign image live grown address → heap'.mem address = heap.mem address := by
  obtain ⟨hpos, haligned, -⟩ := h.units block (by simp)
  have habove := h.live_above (show block ∈ block :: live by simp)
  rw [Block.stop_eq] at habove
  have hapart : ∀ other ∈ blocks, other.stop ≤ block.start ∨
      block.start + block.size ≤ other.start := fun other ↦ h.live_apart List.mem_cons_self
  obtain ⟨blocks', hring, hposition, hbig, hpages, hcover, hkept⟩ :=
    h.ring.slobFree image.base_le_arena h.position hpos haligned habove.1 habove.2 hapart hunits
      hfree
  have hhead := (List.pairwise_cons.mp h.apart).1
  have hcover' : cover blocks' = cover blocks ∪ block.cells := hcover
  refine ⟨blocks', ⟨hring, hposition, (List.pairwise_cons.mp h.apart).2, ?_, ?_, ?_, h.usable⟩,
    hbig, hpages, fun address hforeign ↦ ?_⟩
  · intro other hother
    rw [hcover', Set.disjoint_union_left]
    exact ⟨h.unused other (by simp [hother]), hhead other hother⟩
  · rw [hcover', ← h.partition, cover_cons, Set.union_assoc]
  · exact fun other hother ↦ h.units other (by simp [hother])
  · rcases hforeign with ⟨other, hother, hcell⟩ | ⟨hnot, harena⟩
    · refine hkept address ?_ ?_ ?_
      · exact Set.disjoint_right.mp (h.unused other (by simp [hother])) hcell
      · exact Set.disjoint_right.mp (hhead other hother) hcell
      · have := (h.live_above (show other ∈ block :: live by simp [hother])).1
        rw [Block.mem_cells] at hcell
        rw [Block.mem_cells_mk]
        omega
    · rw [← h.partition, Set.mem_union, not_or] at hnot
      refine hkept address hnot.1 ?_ harena
      exact fun hcell ↦ hnot.2 ⟨block, by simp, hcell⟩

/-- A foreign cell belongs neither to a free block nor to `arena`. -/
theorem not_mem_of_foreign (h : Slob image heap blocks live grown) {address : ℕ}
    (hforeign : Foreign image live grown address) :
    address ∉ cover blocks ∧ address ∉ Block.cells ⟨image.arena, SLOB_UNIT⟩ := by
  rcases hforeign with ⟨other, hother, hcell⟩ | ⟨hnot, harena⟩
  · refine ⟨Set.disjoint_right.mp (h.unused other hother) hcell, ?_⟩
    have := (h.live_above hother).1
    rw [Block.mem_cells] at hcell
    rw [Block.mem_cells_mk]
    omega
  · rw [← h.partition, Set.mem_union, not_or] at hnot
    exact ⟨hnot.1, harena⟩

/-- What is foreign to the other live blocks is not in this one. -/
theorem not_mem_head_of_foreign (h : Slob image heap blocks (block :: live) grown) {address : ℕ}
    (hforeign : Foreign image live grown address) : address ∉ block.cells := by
  intro hcell
  rcases hforeign with ⟨other, hother, hcell'⟩ | ⟨hnot, -⟩
  · have hapart := (List.pairwise_cons.mp h.apart).1 other hother
    exact Set.disjoint_left.mp hapart hcell hcell'
  · refine hnot ?_
    rw [← h.partition]
    exact .inr ⟨block, List.mem_cons_self, hcell⟩

/-- Moving units from the front of a free block to a new live block. -/
theorem take {pre post : List Block} {units : ℤ} {n : ℕ}
    (h : Slob image heap (pre ++ block :: post) live grown) (hn : SLOB_UNIT * units = n)
    (hpos : 0 < n) (hle : n ≤ block.size)
    (hheap : heap' = { heap with
      mem := slobTake heap.mem (ringNode image.arena pre) block.start units
      slobfree := ringNode image.arena pre }) :
    Slob image heap' (pre ++ (remainder block n ++ post)) (⟨block.start, n⟩ :: live) grown ∧
      slobUnits heap'.mem block.start = units ∧
      ∀ address, Foreign image live grown address → heap'.mem address = heap.mem address := by
  subst hheap
  have hmem : block ∈ pre ++ block :: post := by simp
  have hcover := cover_carve h.ring.separated hle
  have hcells : Block.cells ⟨block.start, n⟩ ⊆ cover (pre ++ block :: post) := by
    intro address hcell
    rw [Block.mem_cells_mk] at hcell
    exact ⟨block, hmem, by rw [Block.mem_cells, Block.stop_eq]; omega⟩
  have hsub : cover (pre ++ (remainder block n ++ post)) ⊆ cover (pre ++ block :: post) :=
    hcover ▸ Set.sdiff_subset
  refine ⟨⟨h.ring.slobTake hn hpos image.base_le_arena hle, FreeRing.ringNode_mem pre _, ?_, ?_, ?_, ?_,
    h.usable⟩, h.ring.slobTake_units hn hpos image.base_le_arena hle, fun address hforeign ↦ ?_⟩
  · refine List.pairwise_cons.mpr ⟨fun other hother ↦ ?_, h.apart⟩
    exact Set.disjoint_of_subset_left hcells (h.unused other hother)
  · intro other hother
    rcases List.mem_cons.mp hother with rfl | hlive
    · rw [hcover]
      exact Set.disjoint_sdiff_left
    · exact Set.disjoint_of_subset_left hsub (h.unused other hlive)
  · rw [← h.partition, hcover, cover_cons, ← Set.union_assoc]
    congr 1
    exact Set.sdiff_union_of_subset hcells
  · intro other hother
    rcases List.mem_cons.mp hother with rfl | hlive
    · exact ⟨hpos, h.ring.aligned block hmem, Int.natCast_dvd_natCast.mp ⟨units, hn.symm⟩⟩
    · exact h.units other hlive
  · obtain ⟨hnot, harena⟩ := h.not_mem_of_foreign hforeign
    have hblock : ∀ other ∈ pre ++ block :: post, address ∉ other.cells :=
      fun other hother hcell ↦ hnot ⟨other, hother, hcell⟩
    have hself := hblock block hmem
    have hunits := h.ring.units block hmem
    have hnode : address ≠ ringNode image.arena pre + 8 := by
      rw [Block.mem_cells_mk] at harena
      rcases ringNode_cases image.arena pre with ⟨-, hcur⟩ | ⟨front, left, hsplit, hcur⟩
      · unfold SLOB_UNIT at harena
        omega
      · have hleft : left ∈ pre ++ block :: post := by simp [hsplit]
        have hother := hblock left hleft
        have hge := h.ring.size_ge hleft
        rw [Block.mem_cells, Block.stop_eq] at hother
        unfold SLOB_UNIT at hge
        omega
    rw [Block.mem_cells, Block.stop_eq] at hself
    unfold SLOB_UNIT at hn hunits
    exact h.ring.slobTake_kept hn hpos hle hnode (by omega) (by omega)

/-! ## Growing -/

/-- A fresh page counts as live until it is released to the ring. -/
theorem extend {page : ℕ} (h : Slob image heap blocks live grown) (husable : image.Usable page)
    (hnew : page ∉ grown) : Slob image heap blocks (pageBytes page :: live) (page :: grown) := by
  have hdisjoint : Disjoint (heapBytes grown) (pageBytes page).cells := by
    rw [Set.disjoint_left]
    rintro address ⟨bytes, hbytes, hcell⟩
    obtain ⟨other, hother, rfl⟩ := List.mem_map.mp hbytes
    have hne : other ≠ page := fun heq ↦ hnew (heq ▸ hother)
    exact Set.disjoint_left.mp ((h.usable other hother).disjoint husable hne) hcell
  refine ⟨h.ring, h.position, List.pairwise_cons.mpr ⟨fun other hother ↦ ?_, h.apart⟩, ?_, ?_, ?_,
    ?_⟩
  · refine (Set.disjoint_of_subset_left ?_ hdisjoint).symm
    rw [← h.partition]
    exact fun address hcell ↦ .inr ⟨other, hother, hcell⟩
  · intro other hother
    rcases List.mem_cons.mp hother with rfl | hlive
    · exact Set.disjoint_of_subset_left (h.partition ▸ Set.subset_union_left) hdisjoint
    · exact h.unused other hlive
  · rw [cover_cons, heapBytes, List.map_cons, cover_cons, ← heapBytes, ← h.partition,
      Set.union_left_comm]
  · intro other hother
    rcases List.mem_cons.mp hother with rfl | hlive
    · rw [pageBytes_size]
      exact ⟨by decide, husable.aligned, by decide⟩
    · exact h.units other hlive
  · intro other hother
    rcases List.mem_cons.mp hother with rfl | hmem
    · exact husable
    · exact h.usable other hmem

/-- `slob_free(b, PAGE_SIZE)` gives a fresh page the units of a page. -/
theorem page_units {page : ℕ} (mem : Memory) :
    if PGSIZE = 0 then SLOB_UNIT * slobUnits mem (pageBytes page).start = (pageBytes page).size
      else (SLOB_UNIT : ℤ) * SLOB_UNITS PGSIZE = (pageBytes page).size := by
  rw [if_neg (by decide)]
  change (SLOB_UNIT : ℤ) * SLOB_UNITS PGSIZE = (PGSIZE : ℕ)
  decide

/-- A fresh page becomes a free block. -/
theorem grow {page fuel : ℕ} (h : Slob image heap blocks live grown) (husable : image.Usable page)
    (hnew : page ∉ grown) (hfree : slobFree fuel heap (kvaOf page) PGSIZE = .ok heap') :
    ∃ blocks', Slob image heap' blocks' live (page :: grown) ∧ heap'.bigblocks = heap.bigblocks ∧
      heap'.pages = heap.pages ∧
      ∀ address, Foreign image live (page :: grown) address →
        heap'.mem address = heap.mem address :=
  (h.extend husable hnew).free (page_units _) hfree

/-- The free ring only depends on `slobfree` and on the cells of its nodes. -/
theorem congr (h : Slob image heap blocks live grown) (hslobfree : heap'.slobfree = heap.slobfree)
    (hmem : ∀ address, address ∈ cover blocks ∨ address ∈ Block.cells ⟨image.arena, SLOB_UNIT⟩ →
      heap'.mem address = heap.mem address) : Slob image heap' blocks live grown where
  ring := by
    refine h.ring.congr fun node hnode ↦ ?_
    rcases List.mem_cons.mp hnode with rfl | hstart
    · exact ⟨hmem _ (.inr ⟨le_rfl, by simp [SLOB_UNIT]⟩), hmem _ (.inr ⟨by simp, by simp [SLOB_UNIT]⟩)⟩
    · obtain ⟨block, hblock, rfl⟩ := List.mem_map.mp hstart
      have hge := h.ring.size_ge hblock
      unfold SLOB_UNIT at hge
      refine ⟨hmem _ (.inl ⟨block, hblock, ?_⟩), hmem _ (.inl ⟨block, hblock, ?_⟩)⟩ <;>
        rw [Block.mem_cells, Block.stop_eq] <;> omega
  position := hslobfree ▸ h.position
  apart := h.apart
  unused := h.unused
  partition := h.partition
  units := h.units
  usable := h.usable

theorem withPages (h : Slob image heap blocks live grown) (pages : allocator.State) :
    Slob image { heap with pages } blocks live grown :=
  h.congr rfl fun _ _ ↦ rfl

/-- Writing to live blocks and outside the heap keeps the free ring. -/
theorem write (h : Slob image heap blocks live grown) (hslobfree : heap'.slobfree = heap.slobfree)
    (hmem : ∀ address, ¬ Foreign image live grown address →
      heap'.mem address = heap.mem address) : Slob image heap' blocks live grown :=
  h.congr hslobfree fun address hcell ↦ hmem address fun hforeign ↦
    have hnot := h.not_mem_of_foreign hforeign
    hcell.elim hnot.1 hnot.2

end Slob

section Alloc

variable {allocator : PageAllocator} {image : KernelImage} {heap heap' : Heap allocator}
  {blocks live runs : List Block} {grown : List ℕ} {others : Set Block}

/-- `__slob_get_free_pages` returns `NULL`, or the address of pages that now are on loan. -/
theorem slobGetFreePages_spec {order kva : ℕ} {owned : List Block}
    (hcorrect : allocator.Correct image.Usable)
    (hget : slobGetFreePages image heap order = .ok (kva, heap'))
    (hledger : Ledger allocator heap.pages owned others) :
    ∃ pages, heap' = { heap with pages } ∧
      ((kva = 0 ∧ Ledger allocator pages owned others) ∨
        ∃ page, kva = kvaOf page ∧ (∀ other ∈ Block.cells ⟨page, 2 ^ order⟩, image.Usable other) ∧
          Ledger allocator pages (⟨page, 2 ^ order⟩ :: owned) others) := by
  unfold slobGetFreePages at hget
  rcases halloc : allocator.allocPages heap.pages (2 ^ order) with ⟨result, pages⟩
  rw [halloc] at hget
  cases result with
  | none =>
    obtain ⟨rfl, rfl⟩ := Prod.mk.inj (Except.ok.inj hget)
    exact ⟨pages, rfl, .inl ⟨rfl, hledger.allocNull hcorrect halloc⟩⟩
  | some page =>
    have hpos : 0 < 2 ^ order := Nat.two_pow_pos order
    have husable := (hcorrect.allocSome hpos halloc).1
    have hpage : image.Usable page := husable page ⟨le_rfl, by rw [Block.stop_mk]; omega⟩
    have hkva : page2kva image.npage page = .ok (kvaOf page) :=
      page2kva_eq image.npage_le hpage.1
    simp only [hkva, ok_bind] at hget
    obtain ⟨rfl, rfl⟩ := Prod.mk.inj (Except.ok.inj hget)
    exact ⟨pages, rfl, .inr ⟨page, rfl, husable, hledger.allocSome hcorrect hpos halloc⟩⟩

/-- A page that was just lent is not a page of the heap yet. -/
theorem not_mem_of_ledger {page : ℕ} {pages : allocator.State}
    (hledger : Ledger allocator pages (singlePage page :: (grown.map singlePage ++ runs)) others) :
    page ∉ grown := by
  intro hmem
  have hclash := (List.pairwise_cons.mp hledger.apart).1 (singlePage page)
    (List.mem_append_left _ (List.mem_map_of_mem hmem))
  have hcell : page ∈ (singlePage page).cells := ⟨le_rfl, by simp [singlePage]⟩
  exact Set.disjoint_left.mp hclash hcell hcell

/-- What a call of `slob_alloc` does to the rest of the state. -/
structure Grows (image : KernelImage) (heap heap' : Heap allocator) (live runs : List Block)
    (others : Set Block) (grown grown' : List ℕ) : Prop where
  bigblocks : heap'.bigblocks = heap.bigblocks
  ledger : Ledger allocator heap'.pages (grown'.map singlePage ++ runs) others
  atMostOne : grown' = grown ∨ ∃ page, grown' = page :: grown
  kept : ∀ address, Foreign image live grown' address → heap'.mem address = heap.mem address

/-! ## The scan of `slob_alloc` -/

/-- What `slob_alloc` does once it has gone round the ring. -/
def slobGrow (image : KernelImage) (size fuel : ℕ) (heap : Heap allocator) :
    Except Fault (ℕ × Heap allocator) := do
  if size = PGSIZE then return (0, heap)
  let (page, heap) ← slobGetFreePages image heap 0
  if page = 0 then return (0, heap)
  let heap ← slobFree fuel heap page PGSIZE
  slobAllocScan image size 0 fuel heap heap.slobfree (slobNext heap.mem heap.slobfree)

/-- The state after the block behind `node` has given `units` units. -/
def takenBehind (heap : Heap allocator) (node : ℕ) (units : ℤ) : Heap allocator :=
  { heap with
    mem := slobTake heap.mem node (slobNext heap.mem node) units
    slobfree := node }

/-- The scan runs out of fuel, finds a block that fits, or comes round to `slobfree`. -/
theorem slobAllocScan_walk (image : KernelImage) {prev : ℕ} {nodes : List ℕ} (size fuel : ℕ)
    (hchain : Chain (slobNext heap.mem) id prev nodes heap.slobfree)
    (hnew : heap.slobfree ∉ nodes) :
    (fuel ≤ nodes.length ∧
      slobAllocScan image size 0 fuel heap prev (slobNext heap.mem prev) = .error .outOfFuel) ∨
    (∃ node ∈ prev :: nodes, SLOB_UNITS size ≤ slobUnits heap.mem (slobNext heap.mem node) ∧
      slobAllocScan image size 0 fuel heap prev (slobNext heap.mem prev) =
        .ok (slobNext heap.mem node, takenBehind heap node (SLOB_UNITS size))) ∨
    (∀ node ∈ heap.slobfree :: nodes, slobUnits heap.mem node < SLOB_UNITS size) ∧
      ∃ rest, fuel = rest + nodes.length + 1 ∧
        slobAllocScan image size 0 fuel heap prev (slobNext heap.mem prev) =
          slobGrow image size rest heap := by
  induction nodes generalizing prev fuel with
  | nil =>
    cases fuel with
    | zero => exact .inl ⟨le_rfl, rfl⟩
    | succ fuel =>
      have hnext : slobNext heap.mem prev = heap.slobfree := hchain
      rw [slobAllocScan]
      simp only [ne_eq, not_true_eq_false, if_false, add_zero, hnext]
      by_cases hfits : slobUnits heap.mem heap.slobfree ≥ SLOB_UNITS size
      · refine .inr (.inl ⟨prev, List.mem_cons_self, by rwa [hnext], ?_⟩)
        rw [if_pos hfits, takenBehind, hnext]
        rfl
      · refine .inr (.inr ⟨by simpa using hfits, fuel, rfl, ?_⟩)
        rw [if_neg hfits, if_pos trivial]
        rfl
  | cons node nodes ih =>
    cases fuel with
    | zero => exact .inl ⟨Nat.zero_le _, rfl⟩
    | succ fuel =>
      obtain ⟨hnext, hrest⟩ := hchain
      have hrest : Chain (slobNext heap.mem) id node nodes heap.slobfree := hrest
      rw [List.mem_cons, not_or] at hnew
      rw [slobAllocScan]
      simp only [ne_eq, not_true_eq_false, if_false, add_zero, hnext]
      by_cases hfits : slobUnits heap.mem node ≥ SLOB_UNITS size
      · refine .inr (.inl ⟨prev, List.mem_cons_self, by rwa [hnext], ?_⟩)
        rw [if_pos hfits, takenBehind, hnext]
        rfl
      · rw [if_neg hfits, if_neg (Ne.symm hnew.1)]
        refine (ih fuel hrest hnew.2).imp ?_ (Or.imp ?_ ?_)
        · rintro ⟨hshort, hscan⟩
          exact ⟨Nat.succ_le_succ hshort, hscan⟩
        · rintro ⟨other, hother, hfound⟩
          exact ⟨other, List.mem_cons_of_mem _ hother, hfound⟩
        · rintro ⟨hsmall, rest, hfuel, hgrow⟩
          refine ⟨fun other hother ↦ ?_, rest, congrArg (· + 1) hfuel, hgrow⟩
          rw [List.mem_cons, List.mem_cons] at hother
          rcases hother with rfl | rfl | hmem
          · exact hsmall _ List.mem_cons_self
          · omega
          · exact hsmall other (List.mem_cons_of_mem _ hmem)

/-- One round of `slob_alloc` from `slobfree`. -/
theorem Slob.scan_round (h : Slob image heap blocks live grown) (size fuel : ℕ) :
    (fuel ≤ 2 ^ 64 ∧ slobAllocScan image size 0 fuel heap heap.slobfree
      (slobNext heap.mem heap.slobfree) = .error .outOfFuel) ∨
    (∃ node ∈ image.arena :: blocks.map Block.start,
      SLOB_UNITS size ≤ slobUnits heap.mem (slobNext heap.mem node) ∧
      slobAllocScan image size 0 fuel heap heap.slobfree (slobNext heap.mem heap.slobfree) =
        .ok (slobNext heap.mem node, takenBehind heap node (SLOB_UNITS size))) ∨
    (∀ block ∈ blocks, slobUnits heap.mem block.start < SLOB_UNITS size) ∧
      ∃ rest, fuel ≤ rest + 2 ^ 65 ∧
        slobAllocScan image size 0 fuel heap heap.slobfree (slobNext heap.mem heap.slobfree) =
          slobGrow image size rest heap := by
  obtain ⟨pre, post, rfl, hnode⟩ := FreeRing.exists_ringNode h.position
  have hperm := FreeRing.walk_perm image.arena pre post
  have hlength := hperm.length_eq
  have hcount := h.ring.length_le
  have hchain := h.ring.chain_walk
  rw [← hnode] at hperm hchain
  have hnew := (List.nodup_cons.mp (hperm.nodup_iff.mpr h.ring.nodup)).1
  rw [List.length_cons, List.length_cons, List.length_map] at hlength
  refine (slobAllocScan_walk image size fuel hchain hnew).imp ?_ (Or.imp ?_ ?_)
  · rintro ⟨hshort, hscan⟩
    exact ⟨by omega, hscan⟩
  · rintro ⟨node, hmem, hfound⟩
    exact ⟨node, hperm.mem_iff.mp hmem, hfound⟩
  · rintro ⟨hsmall, rest, hfuel, hgrow⟩
    refine ⟨fun block hblock ↦ hsmall _ (hperm.mem_iff.mpr ?_), rest, by omega, hgrow⟩
    exact List.mem_cons_of_mem _ (List.mem_map_of_mem hblock)

/-- After the heap has grown, some block is too large to be passed over. -/
theorem Slob.not_small {page size : ℕ} (h : Slob image heap blocks live (page :: grown))
    (hapart : ∀ other ∈ live, Disjoint (pageBytes page).cells other.cells)
    (hsize : size + SLOB_UNIT < PGSIZE) :
    ¬ ∀ block ∈ blocks, slobUnits heap.mem block.start < SLOB_UNITS size := by
  have hrun : (pageBytes page).cells ⊆ cover blocks := by
    intro address hcell
    have hbytes : address ∈ heapBytes (page :: grown) := ⟨_, List.mem_cons_self, hcell⟩
    rw [← h.partition] at hbytes
    refine hbytes.resolve_right ?_
    rintro ⟨other, hother, hother_cell⟩
    exact Set.disjoint_left.mp (hapart other hother) hcell hother_cell
  have hpos : 0 < (pageBytes page).size := show 0 < PGSIZE by decide
  obtain ⟨block, hblock, hlow, hhigh⟩ := h.ring.separated.exists_of_run hpos hrun
  rw [Block.stop_eq, pageBytes_size] at hhigh
  intro hsmall
  have hunits := h.ring.units block hblock
  have hbound := hsmall block hblock
  unfold SLOB_UNITS SLOB_UNIT PGSIZE at *
  omega

/-- A node of the ring has a unit at least. -/
theorem Slob.units_pos {node : ℕ} (h : Slob image heap blocks live grown)
    (hnode : node ∈ image.arena :: blocks.map Block.start) : 1 ≤ slobUnits heap.mem node := by
  rcases List.mem_cons.mp hnode with rfl | hmem
  · exact h.ring.arenaUnits.ge
  · obtain ⟨block, hblock, rfl⟩ := List.mem_map.mp hmem
    have hunits := h.ring.units block hblock
    have hsize := h.ring.separated.nonempty block hblock
    unfold SLOB_UNIT at hunits
    omega

theorem Slob.next_mem {node : ℕ} (h : Slob image heap blocks live grown)
    (hnode : node ∈ image.arena :: blocks.map Block.start) :
    slobNext heap.mem node ∈ image.arena :: blocks.map Block.start := by
  obtain ⟨pre, post, rfl, rfl⟩ := FreeRing.exists_ringNode hnode
  rw [h.ring.next_ringNode]
  cases post with
  | nil => exact List.mem_cons_self
  | cons block post =>
    show block.start ∈ _
    simp

/-- `arena` is too small for two units. -/
theorem Slob.ne_arena {node size : ℕ} (h : Slob image heap blocks live grown)
    (hunits : 2 ≤ SLOB_UNITS size) (hfits : SLOB_UNITS size ≤ slobUnits heap.mem node) :
    node ≠ image.arena := by
  rintro rfl
  have harena := h.ring.arenaUnits
  omega

/-- Taking units behind a node of the ring -/
theorem Slob.takenBehind {node size : ℕ} (h : Slob image heap blocks live grown)
    (hnode : node ∈ image.arena :: blocks.map Block.start) (hunits : 1 ≤ SLOB_UNITS size)
    (hfits : SLOB_UNITS size ≤ slobUnits heap.mem (slobNext heap.mem node))
    (hnot : slobNext heap.mem node ≠ image.arena) :
    ∃ blocks', Slob image (takenBehind heap node (SLOB_UNITS size)) blocks'
        (⟨slobNext heap.mem node, SLOB_UNIT * SLOB_UNITS size⟩ :: live) grown ∧
      slobUnits (Ucore.takenBehind heap node (SLOB_UNITS size)).mem (slobNext heap.mem node) =
        SLOB_UNITS size ∧
      ∀ address, Foreign image live grown address →
        (Ucore.takenBehind heap node (SLOB_UNITS size)).mem address = heap.mem address := by
  obtain ⟨pre, post, rfl, rfl⟩ := FreeRing.exists_ringNode hnode
  have hnext := h.ring.next_ringNode
  cases post with
  | nil => exact absurd hnext hnot
  | cons block post =>
    have hnext : slobNext heap.mem (ringNode image.arena pre) = block.start := hnext
    have hblock := h.ring.units block (by simp)
    have hn : (SLOB_UNIT : ℤ) * SLOB_UNITS size = (SLOB_UNIT * SLOB_UNITS size : ℕ) := by
      push_cast
      rfl
    rw [hnext] at hfits ⊢
    exact ⟨_, h.take hn (by unfold SLOB_UNIT; omega) (by unfold SLOB_UNIT at *; omega)
      (by rw [Ucore.takenBehind, hnext])⟩

variable {size fuel m : ℕ}

/-- `slob_alloc` for a size of at least two units either finds them, with at most one page more, or
returns `NULL`. -/
theorem slobAlloc_spec (hcorrect : allocator.Correct image.Usable)
    (h : Slob image heap blocks live grown)
    (hledger : Ledger allocator heap.pages (grown.map singlePage ++ runs) others)
    (hunits : 2 ≤ SLOB_UNITS size) (halloc : slobAlloc image fuel heap size 0 = .ok (m, heap')) :
    ∃ blocks' grown', Grows image heap heap' live runs others grown grown' ∧
      ((m = 0 ∧ Slob image heap' blocks' live grown') ∨
        (Slob image heap' blocks' (⟨m, SLOB_UNIT * SLOB_UNITS size⟩ :: live) grown' ∧
          slobUnits heap'.mem m = SLOB_UNITS size)) := by
  obtain ⟨value, hassert, hscan⟩ := bind_eq_ok.mp halloc
  have hsize : size + SLOB_UNIT < PGSIZE := assert_eq_ok.mp hassert
  rcases h.scan_round size fuel with ⟨-, hshort⟩ | ⟨node, hnode, hfits, hfound⟩ |
    ⟨-, rest, -, hgrow⟩
  · rw [hshort] at hscan
    cases hscan
  · rw [hfound] at hscan
    obtain ⟨rfl, rfl⟩ := Prod.mk.inj (Except.ok.inj hscan)
    obtain ⟨blocks', htaken, hheader, hkept⟩ :=
      h.takenBehind hnode (by omega) hfits (h.ne_arena hunits hfits)
    exact ⟨blocks', grown, ⟨rfl, hledger, .inl rfl, hkept⟩, .inr ⟨htaken, hheader⟩⟩
  rw [hgrow, slobGrow, if_neg (by omega)] at hscan
  obtain ⟨⟨kva, next⟩, hget, hscan⟩ := bind_eq_ok.mp hscan
  obtain ⟨pages, hpages, hresult⟩ := slobGetFreePages_spec hcorrect hget hledger
  subst hpages
  rcases hresult with ⟨hnull, hledger'⟩ | ⟨page, hkva, husable, hledger'⟩
  · subst hnull
    obtain ⟨rfl, rfl⟩ := Prod.mk.inj (Except.ok.inj hscan)
    exact ⟨_, grown, ⟨rfl, hledger', .inl rfl, fun _ _ ↦ rfl⟩, .inl ⟨rfl, h.withPages pages⟩⟩
  · rw [hkva] at hscan
    have hpage : image.Usable page := husable page ⟨le_rfl, by simp⟩
    have hnonzero : kvaOf page ≠ 0 := by
      have := hpage.2
      omega
    have hnew : page ∉ grown := not_mem_of_ledger hledger'
    simp only [if_neg hnonzero] at hscan
    obtain ⟨freed, hfree, hscan⟩ := bind_eq_ok.mp hscan
    obtain ⟨blocks₁, hslob, hbig, hpages, hkept₁⟩ := (h.withPages pages).grow hpage hnew hfree
    have hapart := (List.pairwise_cons.mp ((h.withPages pages).extend hpage hnew).apart).1
    have hledger'' : Ledger allocator freed.pages
        ((page :: grown).map singlePage ++ runs) others := by
      rw [hpages]
      exact hledger'
    -- the second round finds a block: the one with the fresh page fits
    rcases hslob.scan_round size rest with ⟨-, hshort⟩ | ⟨node, hnode, hfits, hfound⟩ |
      ⟨hsmall, -⟩
    · rw [hshort] at hscan
      cases hscan
    · rw [hfound] at hscan
      obtain ⟨rfl, rfl⟩ := Prod.mk.inj (Except.ok.inj hscan)
      obtain ⟨blocks', htaken, hheader, hkept⟩ :=
        hslob.takenBehind hnode (by omega) hfits (hslob.ne_arena hunits hfits)
      refine ⟨blocks', page :: grown, ⟨hbig, hledger'', .inr ⟨page, rfl⟩, fun address hforeign ↦ ?_⟩,
        .inr ⟨htaken, hheader⟩⟩
      calc
        _ = freed.mem address := hkept address hforeign
        _ = heap.mem address := hkept₁ address hforeign
    · exact absurd hsmall (hslob.not_small hapart hsize)

/-- `slob_alloc` for a single unit takes it off the front of the first block, whichever that is. -/
theorem slobAlloc_first (h : Slob image heap blocks live grown) (hunits : SLOB_UNITS size = 1)
    (halloc : slobAlloc image fuel heap size 0 = .ok (m, heap')) :
    m = slobNext heap.mem heap.slobfree ∧
      heap' = takenBehind heap heap.slobfree (SLOB_UNITS size) := by
  obtain ⟨value, hassert, hscan⟩ := bind_eq_ok.mp halloc
  have hroom := h.units_pos (h.next_mem h.position)
  cases fuel with
  | zero => cases hscan
  | succ fuel =>
    have hfits : slobUnits heap.mem (slobNext heap.mem heap.slobfree) ≥ (SLOB_UNITS size : ℤ) := by
      rw [hunits]
      exact_mod_cast hroom
    rw [slobAllocScan] at hscan
    simp only [ne_eq, not_true_eq_false, if_false, add_zero, if_pos hfits] at hscan
    obtain ⟨rfl, rfl⟩ := Prod.mk.inj (Except.ok.inj hscan)
    exact ⟨rfl, rfl⟩

/-- The unit is one of the heap unless the first block is `arena`. -/
theorem slobAlloc_unit (h : Slob image heap blocks live grown)
    (hledger : Ledger allocator heap.pages (grown.map singlePage ++ runs) others)
    (hunits : SLOB_UNITS size = 1) (hnot : slobNext heap.mem heap.slobfree ≠ image.arena)
    (halloc : slobAlloc image fuel heap size 0 = .ok (m, heap')) :
    ∃ blocks', Grows image heap heap' live runs others grown grown ∧
      Slob image heap' blocks' (⟨m, SLOB_UNIT * SLOB_UNITS size⟩ :: live) grown ∧
      slobUnits heap'.mem m = SLOB_UNITS size := by
  obtain ⟨rfl, rfl⟩ := slobAlloc_first h hunits halloc
  have hroom := h.units_pos (h.next_mem h.position)
  obtain ⟨blocks', htaken, hheader, hkept⟩ :=
    h.takenBehind h.position hunits.ge (by rw [hunits]; exact_mod_cast hroom) hnot
  exact ⟨blocks', ⟨rfl, hledger, .inl rfl, hkept⟩, htaken, hheader⟩

end Alloc

end Ucore
