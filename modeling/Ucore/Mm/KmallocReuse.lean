import Ucore.Mm.KmallocReturns

/-!
# When the heap takes pages

A scan of `slob_alloc` goes once round the whole ring before it asks for a page. So free units are never
passed over: a page is taken only when no run of free units is long enough, and once the clients have
given everything back, all bytes of the heap's pages can be lent again.
-/

namespace Ucore

open Foundation

section Scan

variable {allocator : PageAllocator} {image : KernelImage} {heap heap' : Heap allocator}
  {blocks live runs : List Block} {grown : List ℕ} {others : Set Block} {size fuel m : ℕ}

/-- A run of free bytes for a request -/
def HasRun (image : KernelImage) (heap : Heap allocator) (size : ℕ) : Prop :=
  ∃ start, Block.cells ⟨start, SLOB_UNIT * SLOB_UNITS size⟩ ⊆ freeBytes image heap

/-- With a block that is large enough the scan does not get round the ring. -/
theorem Slob.scan_fits (h : Slob image heap blocks live grown) (hunits : 0 < SLOB_UNITS size)
    (hfits : HasRun image heap size) (hfuel : 2 ^ 64 < fuel) :
    ∃ m heap', slobAllocScan image size 0 fuel heap heap.slobfree
        (slobNext heap.mem heap.slobfree) = .ok (m, heap') ∧ m ≠ 0 ∧ heap'.pages = heap.pages := by
  rcases h.scan_round size fuel with ⟨hshort, -⟩ | ⟨node, hnode, -, hfound⟩ | ⟨hsmall, -⟩
  · omega
  · exact ⟨_, _, hfound, h.next_ne_zero hnode, rfl⟩
  · obtain ⟨start, hrun⟩ := hfits
    rw [h.freeBytes_eq] at hrun
    have hpos : 0 < SLOB_UNIT * SLOB_UNITS size := Nat.mul_pos (by decide) hunits
    obtain ⟨block, hblock, hlow, hhigh⟩ := h.ring.separated.exists_of_run hpos hrun
    have hbound := hsmall block hblock
    have hcount := h.ring.units block hblock
    rw [Block.stop_eq] at hhigh
    unfold SLOB_UNIT at *
    omega

/-- Pages that are lent are no pages of anybody else. -/
theorem Ledger.not_outstanding {pages pages' : allocator.State} {page : ℕ} {owned : List Block}
    (h : Ledger allocator pages owned others)
    (h' : Ledger allocator pages' (singlePage page :: owned) others) : pages' ≠ pages := by
  rintro rfl
  have hself : page ∈ (singlePage page).cells := ⟨le_rfl, by simp [singlePage]⟩
  have hclash : ∀ loan : Block, Disjoint loan.cells (singlePage page).cells → loan ≠ singlePage page := by
    rintro loan hdisjoint rfl
    exact Set.disjoint_left.mp hdisjoint hself hself
  have hmem : singlePage page ∈ allocator.outstanding pages' := by
    rw [h'.outstanding]
    exact .inr List.mem_cons_self
  rw [h.outstanding] at hmem
  rcases hmem with hother | howned
  · exact hclash _ (h'.foreign _ hother _ List.mem_cons_self) rfl
  · exact hclash _ ((List.pairwise_cons.mp h'.apart).1 _ howned).symm rfl

/-- What is lent without a new page was free before. -/
theorem slobAlloc_fits (hcorrect : allocator.Correct image.Usable)
    (h : Slob image heap blocks live grown)
    (hledger : Ledger allocator heap.pages (grown.map singlePage ++ runs) others)
    (hunits : 2 ≤ SLOB_UNITS size) (hcall : slobAlloc image fuel heap size 0 = .ok (m, heap'))
    (hm : m ≠ 0) (hpages : heap'.pages = heap.pages) : HasRun image heap size := by
  obtain ⟨blocks', grown', hgrows, ⟨hnull, -⟩ | ⟨hslob, -⟩⟩ :=
    slobAlloc_spec hcorrect h hledger hunits hcall
  · exact absurd hnull hm
  obtain rfl : grown' = grown := by
    rcases hgrows.atMostOne with hsame | ⟨page, rfl⟩
    · exact hsame
    · exact absurd hpages (hledger.not_outstanding hgrows.ledger)
  refine ⟨m, fun address hcell ↦ ?_⟩
  have hbytes : address ∈ heapBytes grown' := by
    rw [← hslob.partition]
    exact .inr ⟨_, List.mem_cons_self, hcell⟩
  rw [← h.partition] at hbytes
  rw [h.freeBytes_eq]
  refine hbytes.resolve_right ?_
  rintro ⟨block, hblock, hinside⟩
  exact Set.disjoint_left.mp ((List.pairwise_cons.mp hslob.apart).1 block hblock) hcell hinside

/-- The payload of a live block is not at the address `0`. -/
theorem Slob.slobAdd_ne_zero {n : ℕ} (h : Slob image heap blocks (⟨m, n⟩ :: live) grown)
    (hn : SLOB_UNIT * 2 ≤ n) : slobAdd m 1 ≠ 0 := by
  have hlive := h.live_above List.mem_cons_self
  rw [Block.stop_mk] at hlive
  dsimp only at hlive
  have hadd : slobAdd m 1 = m + SLOB_UNIT :=
    slobAdd_eq (by simp) (by unfold SLOB_UNIT at *; omega)
  rw [hadd]
  unfold SLOB_UNIT
  omega

/-- A request that fits is served as it is; another one asks for a page, once. -/
theorem Slob.kmalloc_requests (hcorrect : allocator.Correct image.Usable)
    (h : Slob image heap blocks live grown)
    (hledger : Ledger allocator heap.pages (grown.map singlePage ++ runs) others)
    (hpos : 0 < size) (hsize : size + 2 * SLOB_UNIT < PGSIZE) (hfuel : 2 ^ 67 ≤ fuel) :
    ∃ p heap', kmalloc image fuel heap.logged size = .ok (p, heap') ∧
      (HasRun image heap (size + SLOB_UNIT) ∧ p ≠ 0 ∧ heap'.pages.2 = [] ∨
        ¬ HasRun image heap (size + SLOB_UNIT) ∧ ∃ result, heap'.pages.2 = [(1, result)]) := by
  have hunits : 2 ≤ SLOB_UNITS (size + SLOB_UNIT) := by
    unfold SLOB_UNITS SLOB_UNIT
    omega
  have hsmall : size < PGSIZE - SLOB_UNIT := by omega
  have hroom : size + SLOB_UNIT + SLOB_UNIT < PGSIZE := by omega
  obtain ⟨m, heap', hcall, hrequested⟩ :=
    slobAlloc_requests hcorrect.logged h.logged hledger.logged hroom hfuel
  refine ⟨if m ≠ 0 then slobAdd m 1 else 0, heap', ?_, ?_⟩
  · rw [kmalloc, if_pos hsmall, hcall]
    rfl
  by_cases hfits : HasRun image heap (size + SLOB_UNIT)
  · left
    obtain ⟨m', heap'', hscan, hm, hpages⟩ := h.logged.scan_fits (by omega : 0 < _) hfits
      (show 2 ^ 64 < fuel by omega)
    have hsame := hcall
    rw [slobAlloc, assert_of_true hroom, ok_bind, hscan] at hsame
    obtain ⟨rfl, rfl⟩ := Prod.mk.inj (Except.ok.inj hsame)
    obtain ⟨blocks', grown', -, ⟨hnull, -⟩ | ⟨hslob, -⟩⟩ :=
      slobAlloc_spec hcorrect.logged h.logged hledger.logged hunits hcall
    · exact absurd hnull hm
    · rw [if_pos hm]
      exact ⟨hfits, hslob.slobAdd_ne_zero (Nat.mul_le_mul_left SLOB_UNIT hunits),
        congrArg Prod.snd hpages⟩
  · right
    rcases hrequested with ⟨hm, hpages⟩ | ⟨result, halloc, -⟩
    · exact absurd (slobAlloc_fits hcorrect.logged h.logged hledger.logged hunits hcall hm hpages) hfits
    · obtain ⟨hpage, hnext⟩ := Prod.mk.inj halloc
      refine ⟨hfits, result, ?_⟩
      rw [← hnext, ← hpage]
      rfl

end Scan

namespace HeapWorld

variable {allocator : PageAllocator} {image : KernelImage} {world : HeapWorld allocator} {size : ℕ}

end HeapWorld

end Ucore
