import Ucore.Mm.KmallocRuns

/-!
# Clients next to each other

Some blocks and loans are kept by one part of the kernel while its other clients go on. A step of
the others is a step of all clients together, and it leaves the kept blocks and pages alone.
-/

namespace Ucore

open Foundation Memory

namespace HeapWorld

variable {allocator : PageAllocator} {image : KernelImage} {world world' : HeapWorld allocator}
  {kept blocks : List Block} {extra : Set Block} {entries : List BigBlock} {grown : List ℕ}
  {address : ℕ}

/-- The clients of `world` together with the holder of `kept` and `extra`. -/
def extend (world : HeapWorld allocator) (kept : List Block) (extra : Set Block) :
    HeapWorld allocator :=
  { world with small := world.small ++ kept, others := world.others ∪ extra }

/-- The cells of kept blocks and of kept pages. -/
def Reserved (kept : List Block) (extra : Set Block) (address : ℕ) : Prop :=
  address ∈ cover kept ∨
    ∃ loan ∈ extra, address ∈ Block.cells ⟨kvaOf loan.start, PGSIZE * loan.size⟩

theorem Writable.extend (h : world.Writable image address) :
    (world.extend kept extra).Writable image address := by
  rcases h with ⟨block, hblock, hpayload⟩ | hbig | ⟨harena, hpages⟩
  · exact .inl ⟨block, List.mem_append_left _ hblock, hpayload⟩
  · exact .inr (.inl hbig)
  · exact .inr (.inr ⟨harena, fun loan hloan hnot ↦ hpages loan hloan fun hmem ↦ hnot (.inl hmem)⟩)

/-- A step of some clients is a step of all. -/
theorem Step.extend (hstep : Step image world world')
    (hdisjoint : ∀ loan ∈ world.others, loan ∉ extra) :
    Step image (world.extend kept extra) (world'.extend kept extra) := by
  cases hstep with
  | kmallocNull hsize hcall => exact .kmallocNull hsize hcall
  | kmallocSmall hsize hsmall hp hcall => exact .kmallocSmall hsize hsmall hp hcall
  | kmallocBig hbig hp hcall => exact .kmallocBig hbig hp hcall
  | @kfreeSmall heap' fuel block hblock hcall =>
    have hstep : Step image (world.extend kept extra) _ :=
      .kfreeSmall (List.mem_append_left kept hblock) hcall
    have herase : (world.extend kept extra).small.erase block = world.small.erase block ++ kept :=
      List.erase_append_left _ hblock
    rw [herase] at hstep
    exact hstep
  | kfreeBig hhandle hcall => exact .kfreeBig hhandle hcall
  | write hmem => exact .write fun address hnot ↦ hmem address fun hwritable ↦ hnot hwritable.extend
  | @otherAlloc n page pages hn halloc =>
    have hstep : Step image (world.extend kept extra) _ := .otherAlloc hn halloc
    have hinsert : insert ⟨page, n⟩ (world.extend kept extra).others =
        insert ⟨page, n⟩ world.others ∪ extra := (Set.insert_union).symm
    rw [hinsert] at hstep
    exact hstep
  | otherAllocNull halloc => exact .otherAllocNull halloc
  | @otherFree loan hloan =>
    have hstep : Step image (world.extend kept extra) _ := .otherFree (Set.mem_union_left extra hloan)
    have hdiff : (world.extend kept extra).others \ {loan} = world.others \ {loan} ∪ extra := by
      have hnot : Disjoint extra {loan} :=
        Set.disjoint_singleton_right.mpr (hdisjoint loan hloan)
      exact (Set.union_sdiff_distrib).trans (congrArg _ hnot.sdiff_eq_left)
    rw [hdiff] at hstep
    exact hstep

/-- What is lent in a step was not on loan before. -/
theorem Step.lends (hstep : Step image world world') (hcorrect : allocator.Correct image.Usable)
    {loan : Block} (hloan : loan ∈ world'.others) : loan ∈ world.others ∨
      ∀ held ∈ allocator.outstanding world.heap.pages, Disjoint held.cells loan.cells := by
  cases hstep with
  | otherAlloc hn halloc =>
    rcases Set.mem_insert_iff.mp hloan with rfl | hmem
    · exact .inr (hcorrect.allocSome hn halloc).2.1
    · exact .inl hmem
  | otherFree hother => exact .inl hloan.1
  | _ => exact .inl hloan

section Reserved

variable {small live : List Block} {others : Set Block} {heap : Heap allocator}

/-- Reserved cells are foreign to a heap among whose live blocks the kept ones are. -/
theorem Reserved.foreign_of (h : HeapInv image heap blocks small entries grown (others ∪ extra))
    (husable : ∀ loan ∈ extra, ∀ page ∈ loan.cells, image.Usable page)
    (hreserved : Reserved kept extra address) (hlive : kept ⊆ live) :
    Foreign image live grown address := by
  rcases hreserved with ⟨block, hblock, hcell⟩ | ⟨loan, hloan, hcell⟩
  · exact .inl ⟨block, hlive hblock, hcell⟩
  · exact .inr (h.outside_of_loan (.inr hloan) (husable loan hloan) hcell)

/-- Reserved cells are foreign to every call of the allocator. -/
theorem Reserved.foreign
    (h : HeapInv image heap blocks (small ++ kept) entries grown (others ∪ extra))
    (husable : ∀ loan ∈ extra, ∀ page ∈ loan.cells, image.Usable page)
    (hreserved : Reserved kept extra address) :
    Foreign image ((small ++ kept) ++ entries.map BigBlock.units) grown address :=
  hreserved.foreign_of h husable fun _ hblock ↦
    List.mem_append_left _ (List.mem_append_right _ hblock)

end Reserved

/-- The others may not write to reserved cells. -/
theorem Reserved.not_writable
    (h : HeapInv image world.heap blocks (world.small ++ kept) entries grown (world.others ∪ extra))
    (hbig : world.big = entries.map BigBlock.handle)
    (hdisjoint : ∀ loan ∈ world.others, loan ∉ extra)
    (husable : ∀ loan ∈ extra, ∀ page ∈ loan.cells, image.Usable page)
    (hreserved : Reserved kept extra address) : ¬ world.Writable image address := by
  intro hwritable
  have hsmall := (List.pairwise_append.mp h.slob.apart).1
  rcases hreserved with ⟨block, hblock, hcell⟩ | ⟨loan, hloan, hcell⟩
  · have hin : address ∈ heapBytes grown := by
      rw [← h.slob.partition]
      exact .inr ⟨block, List.mem_append_left _ (List.mem_append_right _ hblock), hcell⟩
    rcases hwritable.cell h.books Set.subset_union_left hbig with ⟨other, hother, hlow, hhigh⟩ | hout
    · have hapart := (List.pairwise_append.mp hsmall).2.2 other hother block hblock
      refine Set.disjoint_left.mp hapart ⟨?_, hhigh⟩ hcell
      exact le_trans (Nat.le_add_right _ _) hlow
    · exact hout.1 hin
  · have hout := h.outside_of_loan (.inr hloan) (husable loan hloan) hcell
    rcases hwritable with ⟨other, hother, hlow, hhigh⟩ | ⟨handle, hhandle, hcell'⟩ | ⟨-, hpages⟩
    · refine hout.1 ?_
      rw [← h.slob.partition]
      refine .inr ⟨other, List.mem_append_left _ (List.mem_append_left _ hother), ?_, hhigh⟩
      exact le_trans (Nat.le_add_right _ _) hlow
    · rw [hbig] at hhandle
      obtain ⟨entry, hentry, rfl⟩ := List.mem_map.mp hhandle
      have hforeign := h.ledger.foreign loan (.inr hloan) entry.run
        (List.mem_append_right _ (List.mem_map_of_mem hentry))
      have hapart := runBytes_disjoint (husable loan hloan) (h.lent entry hentry) hforeign
      exact Set.disjoint_left.mp hapart hcell hcell'
    · obtain ⟨page, hpage, hbytes⟩ := mem_pageBytes_of_run (husable loan hloan) hcell
      refine hpages loan ?_ (fun hmem ↦ hdisjoint loan hmem hloan) page hpage hbytes
      rw [h.ledger.outstanding]
      exact .inl (.inr hloan)

/-- A step of the others leaves reserved cells alone. -/
theorem Step.unchanged (hstep : Step image world world') (hcorrect : allocator.Correct image.Usable)
    (h : HeapInv image world.heap blocks (world.small ++ kept) entries grown (world.others ∪ extra))
    (hbig : world.big = entries.map BigBlock.handle)
    (hdisjoint : ∀ loan ∈ world.others, loan ∉ extra)
    (husable : ∀ loan ∈ extra, ∀ page ∈ loan.cells, image.Usable page)
    (hreserved : Reserved kept extra address) :
    world'.heap.mem address = world.heap.mem address := by
  have hlive : kept ⊆ (world.small ++ kept) ++ entries.map BigBlock.units := fun _ hblock ↦
    List.mem_append_left _ (List.mem_append_right _ hblock)
  have hkmalloc : ∀ {heap' : Heap allocator} {fuel size p : ℕ}, 0 < size →
      kmalloc image fuel world.heap size = .ok (p, heap') →
      heap'.mem address = world.heap.mem address := by
    intro heap' fuel size p hsize hcall
    by_cases hsmall : size < PGSIZE - SLOB_UNIT
    · obtain ⟨blocks', taken, -, hkept, ⟨-, hnext⟩ | ⟨-, -, hnext⟩⟩ :=
        h.kmalloc_taken hcorrect hsize hsmall hcall
      · exact hkept address (hreserved.foreign hnext husable)
      · exact hkept address (hreserved.foreign_of hnext husable hlive)
    · rw [kmalloc, if_neg hsmall] at hcall
      obtain ⟨blocks', grown', -, hkept, ⟨-, hnext⟩ | ⟨bb, page, -, -, hnext⟩⟩ :=
        h.kmallocBig hcorrect hcall
      · exact hkept address (hreserved.foreign hnext husable)
      · exact hkept address (hreserved.foreign_of hnext husable hlive)
  cases hstep with
  | kmallocNull hsize hcall => exact hkmalloc hsize hcall
  | kmallocSmall hsize hsmall hp hcall => exact hkmalloc hsize hcall
  | kmallocBig hlarge hp hcall =>
    refine hkmalloc ?_ hcall
    have : 0 < PGSIZE - SLOB_UNIT := by decide
    omega
  | @kfreeSmall heap' fuel block hblock hcall =>
    obtain ⟨blocks', hnext, -, -, hkept⟩ := h.kfreeSmall (List.mem_append_left kept hblock) hcall
    rw [List.erase_append_left _ hblock] at hnext hkept
    exact hkept address (hreserved.foreign hnext husable)
  | kfreeBig hhandle hcall =>
    rw [hbig] at hhandle
    obtain ⟨entry, hentry, rfl⟩ := List.mem_map.mp hhandle
    obtain ⟨blocks', entries', hnext, -, -, hkept⟩ := h.kfreeBig hcorrect hentry hcall
    exact hkept address
      (hreserved.foreign_of hnext husable fun _ hblock ↦ List.mem_append_right _ hblock)
  | write hmem => exact hmem address (hreserved.not_writable h hbig hdisjoint husable)
  | otherAlloc hn halloc => rfl
  | otherAllocNull halloc => rfl
  | otherFree hloan => rfl

end HeapWorld

end Ucore
