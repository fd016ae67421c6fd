import Ucore.Mm.KmallocInv

/-!
# Runs of `kmalloc` and `kfree`

A `HeapWorld` is the heap together with what its clients hold. Between the calls the clients write
to the memory they own and other parts of the kernel use the page allocator. The invariant of
`HeapInv` holds in every state that such a run reaches.
-/

namespace Ucore

open Foundation Memory

/-- The heap, the units of the small blocks and the addresses and orders of the big blocks its
clients hold, and the pages lent to others. -/
structure HeapWorld (allocator : PageAllocator) where
  heap : Heap allocator
  small : List Block
  big : List (ℕ × ℕ)
  others : Set Block

namespace HeapWorld

variable {allocator : PageAllocator}

/-- What the clients may write: the payload of their blocks, and whatever is neither `arena` nor part
of a page that the heap has on loan. -/
def Writable (image : KernelImage) (world : HeapWorld allocator) (address : ℕ) : Prop :=
  (∃ block ∈ world.small, block.start + SLOB_UNIT ≤ address ∧ address < block.stop) ∨
  (∃ handle ∈ world.big, address ∈ Block.cells ⟨handle.1, PGSIZE * 2 ^ handle.2⟩) ∨
  address ∉ Block.cells ⟨image.arena, SLOB_UNIT⟩ ∧
    ∀ loan ∈ allocator.outstanding world.heap.pages, loan ∉ world.others →
      ∀ page ∈ loan.cells, address ∉ (pageBytes page).cells

inductive Step (image : KernelImage) : HeapWorld allocator → HeapWorld allocator → Prop
  | kmallocNull {world : HeapWorld allocator} {heap' : Heap allocator} {fuel size : ℕ}
      (hsize : 0 < size) (hcall : kmalloc image fuel world.heap size = .ok (0, heap')) :
      Step image world { world with heap := heap' }
  | kmallocSmall {world : HeapWorld allocator} {heap' : Heap allocator} {fuel size p : ℕ}
      (hsize : 0 < size) (hsmall : size < PGSIZE - SLOB_UNIT) (hp : p ≠ 0)
      (hcall : kmalloc image fuel world.heap size = .ok (p, heap')) :
      Step image world { world with
        heap := heap'
        small := ⟨p - SLOB_UNIT, SLOB_UNIT * SLOB_UNITS (size + SLOB_UNIT)⟩ :: world.small }
  | kmallocBig {world : HeapWorld allocator} {heap' : Heap allocator} {fuel size p : ℕ}
      (hbig : ¬ size < PGSIZE - SLOB_UNIT) (hp : p ≠ 0)
      (hcall : kmalloc image fuel world.heap size = .ok (p, heap')) :
      Step image world { world with
        heap := heap'
        big := (p, findOrder (toInt32 size)) :: world.big }
  | kfreeSmall {world : HeapWorld allocator} {heap' : Heap allocator} {fuel : ℕ} {block : Block}
      (hblock : block ∈ world.small)
      (hcall : kfree image fuel world.heap (block.start + SLOB_UNIT) = .ok heap') :
      Step image world { world with heap := heap', small := world.small.erase block }
  | kfreeBig {world : HeapWorld allocator} {heap' : Heap allocator} {fuel : ℕ} {handle : ℕ × ℕ}
      (hhandle : handle ∈ world.big) (hcall : kfree image fuel world.heap handle.1 = .ok heap') :
      Step image world { world with heap := heap', big := world.big.erase handle }
  | write {world : HeapWorld allocator} {mem : Memory}
      (hmem : ∀ address, ¬ world.Writable image address → mem address = world.heap.mem address) :
      Step image world { world with heap := { world.heap with mem } }
  | otherAlloc {world : HeapWorld allocator} {n page : ℕ} {pages : allocator.State} (hn : 0 < n)
      (halloc : allocator.allocPages world.heap.pages n = (some page, pages)) :
      Step image world { world with
        heap := { world.heap with pages }
        others := insert ⟨page, n⟩ world.others }
  | otherAllocNull {world : HeapWorld allocator} {n : ℕ} {pages : allocator.State}
      (halloc : allocator.allocPages world.heap.pages n = (none, pages)) :
      Step image world { world with heap := { world.heap with pages } }
  | otherFree {world : HeapWorld allocator} {loan : Block} (hloan : loan ∈ world.others) :
      Step image world { world with
        heap := { world.heap with
          pages := allocator.freePages world.heap.pages loan.start loan.size }
        others := world.others \ {loan} }

/-- The states of all runs from the boot of the kernel on. -/
inductive Reachable (image : KernelImage) : HeapWorld allocator → Prop
  | boot (mem : Memory) (pages : allocator.State) :
      Reachable image ⟨Heap.boot image mem pages, [], [], allocator.outstanding pages⟩
  | step {world world' : HeapWorld allocator} (hworld : Reachable image world)
      (hstep : Step image world world') : Reachable image world'

/-- The books of the world agree with the memory of the heap. -/
def Sound (image : KernelImage) (world : HeapWorld allocator) : Prop :=
  ∃ blocks entries grown,
    HeapInv image world.heap blocks world.small entries grown world.others ∧
      world.big = entries.map BigBlock.handle

variable {image : KernelImage} {world world' : HeapWorld allocator}

theorem sound_boot (mem : Memory) (pages : allocator.State) :
    Sound image ⟨Heap.boot image mem pages, [], [], allocator.outstanding pages⟩ := by
  have htop := image.arena_le_top
  have hunits : slobUnits (Heap.boot image mem pages).mem image.arena = 1 := by
    change slobUnits (setSlobNext (setSlobUnits mem image.arena 1) image.arena image.arena) _ = 1
    rw [slobUnits_congr (setSlobNext_of_ne (by omega))]
    exact slobUnits_setSlobUnits (by decide) (by decide)
  have hnext : slobNext (Heap.boot image mem pages).mem image.arena = image.arena :=
    slobNext_setSlobNext (by unfold KERNTOP KERNBASE KMEMSIZE at htop; omega)
  have hring : FreeRing image.arena (Heap.boot image mem pages).mem [] :=
    ⟨hnext, hunits, by simp, by simp, Separated.nil, by simp⟩
  refine ⟨[], [], [], ⟨⟨hring, List.mem_cons_self, List.Pairwise.nil, by simp, ?_, by simp, by simp⟩,
    ⟨?_, by simp, List.Pairwise.nil, by simp⟩, by simp, by simp, rfl, by simp⟩, rfl⟩
  · simp [heapBytes]
  · simp [Heap.boot]

/-! ## What clients may write -/

section Writes

variable {blocks small : List Block} {entries : List BigBlock} {grown : List ℕ} {others : Set Block}
  {heap : Heap allocator} {address : ℕ}

/-- What is written lies in the payload of a small block, or outside the heap. -/
theorem Writable.cell {world : HeapWorld allocator}
    (h : HeapBooks image world.heap blocks small entries grown others)
    (hothers : world.others ⊆ others)
    (hbig : world.big = entries.map BigBlock.handle) (hwritable : world.Writable image address) :
    ClientCell image world.small grown address := by
  rcases hwritable with hpayload | ⟨handle, hhandle, hcell⟩ | ⟨harena, hpages⟩
  · exact .inl hpayload
  · rw [hbig] at hhandle
    obtain ⟨entry, hentry, heq⟩ := List.mem_map.mp hhandle
    rw [← heq] at hcell
    obtain ⟨page, hpage, hbytes⟩ := mem_pageBytes_of_run (h.lent entry hentry) hcell
    refine .inr ⟨h.not_heapBytes_of_entry hentry hpage hbytes, ?_⟩
    exact (h.lent entry hentry page hpage).not_arena hbytes
  · refine .inr ⟨fun hheap ↦ ?_, harena⟩
    obtain ⟨bytes, hbytes, hcell⟩ := hheap
    obtain ⟨page, hpage, rfl⟩ := List.mem_map.mp hbytes
    have howned : singlePage page ∈ grown.map singlePage ++ entries.map BigBlock.run :=
      List.mem_append_left _ (List.mem_map_of_mem hpage)
    have hself : page ∈ (singlePage page).cells := ⟨le_rfl, by simp [singlePage]⟩
    refine hpages (singlePage page) ?_ ?_ page hself hcell
    · rw [h.ledger.outstanding]
      exact .inr howned
    · intro hmem
      have hdisjoint := h.ledger.foreign _ (hothers hmem) _ howned
      exact Set.disjoint_left.mp hdisjoint hself hself

/-- The clients cannot reach headers and descriptors. -/
theorem keep_write {world : HeapWorld allocator} {mem : Memory}
    (h : HeapInv image world.heap blocks world.small entries grown world.others)
    (hbig : world.big = entries.map BigBlock.handle)
    (hmem : ∀ address, ¬ world.Writable image address → mem address = world.heap.mem address) :
    HeapInv image { world.heap with mem } blocks world.small entries grown world.others :=
  h.write fun address hnot ↦ hmem address fun hwritable ↦
    hnot (hwritable.cell h.books subset_rfl hbig)

end Writes

/-! ## One step and whole runs -/

theorem sound_kmallocNull {heap' : Heap allocator} {fuel size : ℕ} (h : Sound image world)
    (hcorrect : allocator.Correct image.Usable) (hsize : 0 < size)
    (hcall : kmalloc image fuel world.heap size = .ok (0, heap')) :
    Sound image { world with heap := heap' } := by
  obtain ⟨blocks, entries, grown, hinv, hbig⟩ := h
  by_cases hsmall : size < PGSIZE - SLOB_UNIT
  · obtain ⟨blocks', grown', -, ⟨-, hnext⟩ | ⟨hp, -⟩⟩ :=
      hinv.kmallocSmall hcorrect hsize hsmall hcall
    · exact ⟨blocks', entries, grown', hnext, hbig⟩
    · exact absurd rfl hp
  · rw [kmalloc, if_neg hsmall] at hcall
    obtain ⟨blocks', grown', -, -, ⟨-, hnext⟩ | ⟨bb, page, -, hp, -⟩⟩ :=
      hinv.kmallocBig hcorrect hcall
    · exact ⟨blocks', entries, grown', hnext, hbig⟩
    · exact absurd rfl hp

/-- Every step keeps the books. -/
theorem Step.sound (hstep : Step image world world') (hcorrect : allocator.Correct image.Usable)
    (h : Sound image world) : Sound image world' := by
  cases hstep with
  | kmallocNull hsize hcall => exact sound_kmallocNull h hcorrect hsize hcall
  | kmallocSmall hsize hsmall hp hcall =>
    obtain ⟨blocks, entries, grown, hinv, hbig⟩ := h
    obtain ⟨blocks', grown', -, ⟨hnull, -⟩ | ⟨-, -, hnext⟩⟩ :=
      hinv.kmallocSmall hcorrect hsize hsmall hcall
    · exact absurd hnull hp
    · exact ⟨blocks', entries, grown', hnext, hbig⟩
  | kmallocBig hlarge hp hcall =>
    obtain ⟨blocks, entries, grown, hinv, hbig⟩ := h
    rw [kmalloc, if_neg hlarge] at hcall
    obtain ⟨blocks', grown', -, -, ⟨hnull, -⟩ | ⟨bb, page, hkva, -, hnext⟩⟩ :=
      hinv.kmallocBig hcorrect hcall
    · exact absurd hnull hp
    · refine ⟨blocks', _, grown', hnext, ?_⟩
      rw [List.map_cons, ← hbig, hkva]
      rfl
  | kfreeSmall hblock hcall =>
    obtain ⟨blocks, entries, grown, hinv, hbig⟩ := h
    obtain ⟨blocks', hnext, -⟩ := hinv.kfreeSmall hblock hcall
    exact ⟨blocks', entries, grown, hnext, hbig⟩
  | kfreeBig hhandle hcall =>
    obtain ⟨blocks, entries, grown, hinv, hbig⟩ := h
    rw [hbig] at hhandle
    obtain ⟨entry, hentry, rfl⟩ := List.mem_map.mp hhandle
    obtain ⟨blocks', entries', hnext, hhandles, -⟩ := hinv.kfreeBig hcorrect hentry hcall
    exact ⟨blocks', entries', grown, hnext, by rw [hhandles, hbig]⟩
  | write hmem =>
    obtain ⟨blocks, entries, grown, hinv, hbig⟩ := h
    exact ⟨blocks, entries, grown, keep_write hinv hbig hmem, hbig⟩
  | otherAlloc hn halloc =>
    obtain ⟨blocks, entries, grown, hinv, hbig⟩ := h
    exact ⟨blocks, entries, grown, { hinv with
      slob := hinv.slob.withPages _
      ledger := hinv.ledger.lend hcorrect hn halloc }, hbig⟩
  | otherAllocNull halloc =>
    obtain ⟨blocks, entries, grown, hinv, hbig⟩ := h
    exact ⟨blocks, entries, grown, { hinv with
      slob := hinv.slob.withPages _
      ledger := hinv.ledger.allocNull hcorrect halloc }, hbig⟩
  | otherFree hloan =>
    obtain ⟨blocks, entries, grown, hinv, hbig⟩ := h
    exact ⟨blocks, entries, grown, { hinv with
      slob := hinv.slob.withPages _
      ledger := hinv.ledger.giveBack hcorrect hloan }, hbig⟩

theorem Reachable.sound (h : Reachable image world) (hcorrect : allocator.Correct image.Usable) :
    Sound image world := by
  induction h with
  | boot mem pages => exact sound_boot mem pages
  | step _ hstep ih => exact hstep.sound hcorrect ih

/-- In every state of a run the free ring through `arena` and the live blocks partition the pages of
the heap, the big block list holds the live big blocks, and `kfree` gives back the pages that were
obtained for a big block. -/
theorem slob_heap_invariant (hcorrect : allocator.Correct image.Usable)
    (hworld : Reachable image world) :
    ∃ blocks entries grown,
      HeapInv image world.heap blocks world.small entries grown world.others ∧
      world.big = entries.map BigBlock.handle ∧
      ∀ entry ∈ entries, entry.run ∈ allocator.outstanding world.heap.pages ∧
        ∀ fuel heap', kfree image fuel world.heap (kvaOf entry.page) = .ok heap' →
          heap'.pages = allocator.freePages world.heap.pages entry.page (2 ^ entry.order) := by
  obtain ⟨blocks, entries, grown, hinv, hbig⟩ := hworld.sound hcorrect
  refine ⟨blocks, entries, grown, hinv, hbig, fun entry hentry ↦ ⟨?_, fun fuel heap' hcall ↦ ?_⟩⟩
  · rw [hinv.ledger.outstanding]
    exact .inr (List.mem_append_right _ (List.mem_map_of_mem hentry))
  · obtain ⟨-, -, -, -, hpages, -⟩ := hinv.kfreeBig hcorrect hentry hcall
    exact hpages

/-- An image that ends in page `0x209`, as the linker lays it out. -/
def sampleImage : KernelImage where
  arena := 0xFFFFFFFFC0209030
  npage := 0x88000
  base_le_arena := by decide
  arena_aligned := by decide
  arena_le_top := by decide
  npage_le := by decide

theorem sampleImage_usable {page : ℕ} (hlower : 0x20A ≤ page) (hupper : page < 0x20A + 16) :
    sampleImage.Usable page := by
  unfold KernelImage.Usable kvaOf page2pa page2ppn nbase DRAM_BASE PGSIZE va_pa_offset SLOB_UNIT
  dsimp only [sampleImage]
  omega

/-- A first `kmalloc(100)` takes a page, and the eight units at its front become live. -/
theorem slob_heap_invariant_kmalloc :
    ∃ (world : HeapWorld (PageAllocator.firstFit 0x20A 16)) (blocks : List Block)
      (entries : List BigBlock) (grown : List ℕ),
      world.small = [⟨0xFFFFFFFFC020A000, 128⟩] ∧
        HeapInv sampleImage world.heap blocks world.small entries grown world.others := by
  let heap : Heap (PageAllocator.firstFit 0x20A 16) := Heap.boot sampleImage (fun _ ↦ 0) []
  have hcall : (kmalloc sampleImage 8 heap 100).toOption.any
      (fun outcome ↦ outcome.1 = 0xFFFFFFFFC020A010) = true := by decide +kernel
  obtain ⟨⟨p, heap'⟩, hreturn, hp⟩ := Option.any_eq_true _ _ |>.mp hcall
  obtain rfl := of_decide_eq_true hp
  have hreturn : kmalloc sampleImage 8 heap 100 = .ok (0xFFFFFFFFC020A010, heap') :=
    toOption_eq_some.mp hreturn
  obtain ⟨blocks, entries, grown, hinv, -⟩ := slob_heap_invariant
    (PageAllocator.firstFit_correct fun _ ↦ sampleImage_usable)
    ((Reachable.boot _ _).step (.kmallocSmall (by decide) (by decide) (by decide) hreturn))
  exact ⟨_, blocks, entries, grown, rfl, hinv⟩

end HeapWorld

end Ucore
