import Ucore.Mm.KmallocRuns

/-!
# What `kmalloc` returns

The scans of `slob_free` and `slob_alloc` go round the free ring. In a sound heap the first one meets
the reinsertion point within two rounds; the second one meets `slobfree` within one round, and after
the heap has grown it meets the block with the fresh page. The only way not to come back is the
assertion of `slob_alloc`. What does come back is as large as the request, unless `find_order` lost
bits of it.
-/

namespace Ucore

open Foundation Memory

/-- More steps than any walk over free blocks takes. -/
def ringFuel : ℕ := 2 ^ 66

namespace FreeRing

variable {arena : ℕ} {mem : Memory} {blocks pre post : List Block} {b fuel : ℕ}

/-- From a node below `b` the scan stops before it passes `b`. -/
theorem slobFreeScan_ascends (h : FreeRing arena mem (pre ++ post))
    (hbelow : ringNode arena pre < b) (hnew : ∀ block ∈ post, block.start ≠ b)
    (hfuel : post.length < fuel) :
    ∃ cur, slobFreeScan mem b fuel (ringNode arena pre) = .ok cur := by
  induction post generalizing pre fuel with
  | nil =>
    obtain ⟨fuel, rfl⟩ := Nat.exists_eq_add_one_of_ne_zero (Nat.ne_zero_of_lt hfuel)
    have hnext : slobNext mem (ringNode arena pre) = arena := h.next_ringNode
    have hwrap : arena ≤ ringNode arena pre := by
      rcases List.mem_cons.mp (show ringNode arena pre ∈ _ from ringNode_mem pre []) with heq | hmem
      · exact heq.ge
      · obtain ⟨block, hblock, heq⟩ := List.mem_map.mp hmem
        have := (h.above block hblock).1
        omega
    rw [slobFreeScan, hnext]
    split
    · exact ⟨_, rfl⟩
    · exact ⟨_, if_pos ⟨hwrap, .inl hbelow⟩⟩
  | cons block post ih =>
    obtain ⟨fuel, rfl⟩ := Nat.exists_eq_add_one_of_ne_zero (Nat.ne_zero_of_lt hfuel)
    have hnext : slobNext mem (ringNode arena pre) = block.start := h.next_ringNode
    have hlt := h.ringNode_le
    have hne := hnew block List.mem_cons_self
    unfold SLOB_UNIT at hlt
    rw [slobFreeScan, hnext]
    by_cases hstop : b < block.start
    · exact ⟨_, if_pos ⟨hbelow, hstop⟩⟩
    · rw [if_neg (by omega), if_neg (by omega)]
      have hnode : ringNode arena (pre ++ [block]) = block.start := by simp [ringNode]
      rw [← hnode]
      refine ih (by simpa using h) (by omega) (fun other hother ↦ ?_) (by simpa using hfuel)
      exact hnew other (List.mem_cons_of_mem _ hother)

/-- From a node above `b` the scan first comes round to `arena`. -/
theorem slobFreeScan_returns (h : FreeRing arena mem (pre ++ post)) (habove : arena < b)
    (hnew : ∀ block ∈ pre ++ post, block.start ≠ b)
    (hfuel : post.length + (pre ++ post).length + 1 < fuel) :
    ∃ cur, slobFreeScan mem b fuel (ringNode arena pre) = .ok cur := by
  have hascend : ∀ (pre' post' : List Block) {fuel' : ℕ}, pre' ++ post' = pre ++ post →
      post'.length < fuel' → ringNode arena pre' < b →
      ∃ cur, slobFreeScan mem b fuel' (ringNode arena pre') = .ok cur := by
    intro pre' post' fuel' hsplit hlength hbelow
    refine (hsplit ▸ h).slobFreeScan_ascends hbelow (fun block hblock ↦ ?_) hlength
    exact hnew block (hsplit ▸ List.mem_append_right _ hblock)
  induction post generalizing pre fuel with
  | nil =>
    obtain ⟨fuel, rfl⟩ := Nat.exists_eq_add_one_of_ne_zero (Nat.ne_zero_of_lt hfuel)
    by_cases hbelow : ringNode arena pre < b
    · exact hascend pre [] rfl (by simp) hbelow
    · have hnext : slobNext mem (ringNode arena pre) = arena := h.next_ringNode
      rw [slobFreeScan, hnext, if_neg (by omega), if_neg (by omega)]
      exact hascend [] pre (by simp) (by simp at hfuel; omega) habove
  | cons block post ih =>
    obtain ⟨fuel, rfl⟩ := Nat.exists_eq_add_one_of_ne_zero (Nat.ne_zero_of_lt hfuel)
    have hsplit : (pre ++ [block]) ++ post = pre ++ block :: post := by simp
    by_cases hbelow : ringNode arena pre < b
    · exact hascend pre (block :: post) rfl (by simp at hfuel ⊢; omega) hbelow
    · have hnext : slobNext mem (ringNode arena pre) = block.start := h.next_ringNode
      have hlt := h.ringNode_le
      unfold SLOB_UNIT at hlt
      rw [slobFreeScan, hnext, if_neg (by omega), if_neg (by omega)]
      have hnode : ringNode arena (pre ++ [block]) = block.start := by simp [ringNode]
      rw [← hnode]
      refine ih (hsplit ▸ h) (hsplit ▸ hnew) ?_ fun pre' post' fuel' heq ↦ ?_
      · rw [hsplit]
        simp only [List.length_cons] at hfuel
        omega
      · exact hascend pre' post' (heq.trans hsplit)

end FreeRing

/-! ## `slob_free` -/

section Calls

variable {allocator : PageAllocator} {image : KernelImage} {heap : Heap allocator} {block : Block}
  {blocks live runs : List Block} {grown : List ℕ} {others : Set Block} {size fuel prev : ℕ}

theorem Slob.free_returns (h : Slob image heap blocks (block :: live) grown)
    (hunits : if size = 0 then SLOB_UNIT * slobUnits heap.mem block.start = block.size
      else (SLOB_UNIT : ℤ) * SLOB_UNITS size = block.size) (hfuel : ringFuel ≤ fuel) :
    ∃ heap', slobFree fuel heap block.start size = .ok heap' := by
  obtain ⟨hpos, haligned, -⟩ := h.units block (by simp)
  have habove := h.live_above (show block ∈ block :: live by simp)
  rw [Block.stop_eq] at habove
  have hapart : ∀ other ∈ blocks, other.stop ≤ block.start ∨
      block.start + block.size ≤ other.start := fun other ↦ h.live_apart List.mem_cons_self
  obtain ⟨hring, -⟩ :=
    h.ring.header image.base_le_arena hpos habove.1 habove.2 hapart hunits
  have hlength := h.ring.length_le
  obtain ⟨pre, post, rfl, hnode⟩ := FreeRing.exists_ringNode h.position
  have hnew : ∀ other ∈ pre ++ post, other.start ≠ block.start := by
    intro other hother heq
    have hside := hapart other hother
    have hsize := h.ring.separated.nonempty other hother
    rw [Block.stop_eq] at hside
    omega
  have henough : post.length + (pre ++ post).length + 1 < fuel := by
    unfold ringFuel at hfuel
    rw [List.length_append] at *
    omega
  obtain ⟨cur, hscan⟩ :=
    hring.slobFreeScan_returns (by unfold SLOB_UNIT at habove; omega) hnew henough
  rw [← hnode] at hscan
  unfold slobFree
  rw [if_neg (by omega)]
  dsimp only
  rw [hscan]
  exact ⟨_, rfl⟩

/-! ## `slob_alloc` -/

theorem slobGetFreePages_returns (heap : Heap allocator) (order : ℕ) (hcorrect : allocator.Correct image.Usable) :
    ∃ outcome, slobGetFreePages image heap order = .ok outcome := by
  unfold slobGetFreePages
  rcases halloc : allocator.allocPages heap.pages (2 ^ order) with ⟨result, pages⟩
  cases result with
  | none => exact ⟨_, rfl⟩
  | some page =>
    have hpos : 0 < 2 ^ order := Nat.two_pow_pos order
    have husable : image.Usable page :=
      (hcorrect.allocSome hpos halloc).1 page ⟨le_rfl, by rw [Block.stop_mk]; omega⟩
    have hkva : page2kva image.npage page = .ok (kvaOf page) :=
      page2kva_eq image.npage_le husable.1
    simp only [hkva, ok_bind]
    exact ⟨_, rfl⟩

/-- What is taken off a ring is no null pointer. -/
theorem Slob.next_ne_zero {node : ℕ} (h : Slob image heap blocks live grown)
    (hnode : node ∈ image.arena :: blocks.map Block.start) : slobNext heap.mem node ≠ 0 := by
  have harena : image.arena ≠ 0 := by
    have hbase := image.base_le_arena
    unfold KERNBASE at hbase
    omega
  rcases List.mem_cons.mp (h.next_mem hnode) with heq | hmem
  · rw [heq]
    exact harena
  · obtain ⟨block, hblock, heq⟩ := List.mem_map.mp hmem
    have habove := (h.ring.above block hblock).1
    omega

/-- A call that comes back has asked for no page, or for one; without that page it returns `NULL`. -/
def Requested (heap heap' : Heap allocator) (m : ℕ) : Prop :=
  (m ≠ 0 ∧ heap'.pages = heap.pages) ∨
    ∃ result, allocator.allocPages heap.pages 1 = (result, heap'.pages) ∧ (m = 0 ↔ result = none)

/-- The scan finds a block within one round, or within one round more after the heap has grown. -/
theorem slobAlloc_requests (hcorrect : allocator.Correct image.Usable)
    (h : Slob image heap blocks live grown)
    (hledger : Ledger allocator heap.pages (grown.map singlePage ++ runs) others)
    (hsize : size + SLOB_UNIT < PGSIZE) (hfuel : 2 ^ 67 ≤ fuel) :
    ∃ m heap', slobAlloc image fuel heap size 0 = .ok (m, heap') ∧ Requested heap heap' m := by
  unfold slobAlloc
  rw [assert_of_true hsize, ok_bind]
  rcases h.scan_round size fuel with ⟨hshort, -⟩ | ⟨node, hnode, -, hfound⟩ | ⟨-, rest, hrest, hgrow⟩
  · omega
  · exact ⟨_, _, hfound, .inl ⟨h.next_ne_zero hnode, rfl⟩⟩
  rw [hgrow, slobGrow, if_neg (by omega), slobGetFreePages]
  rcases halloc : allocator.allocPages heap.pages (2 ^ 0) with ⟨result, pages⟩
  cases result with
  | none => exact ⟨0, { heap with pages }, rfl, .inr ⟨none, halloc, by simp⟩⟩
  | some page =>
    have husable := (hcorrect.allocSome (Nat.two_pow_pos 0) halloc).1
    have hpage : image.Usable page := husable page ⟨le_rfl, by simp⟩
    have hkva : page2kva image.npage page = .ok (kvaOf page) :=
      page2kva_eq image.npage_le hpage.1
    have hnonzero : kvaOf page ≠ 0 := by
      have := hpage.2
      omega
    have hnew : page ∉ grown :=
      not_mem_of_ledger (hledger.allocSome hcorrect (Nat.two_pow_pos 0) halloc)
    have hextended := (h.withPages pages).extend hpage hnew
    obtain ⟨freed, hfree⟩ := hextended.free_returns (Slob.page_units _)
      (show ringFuel ≤ rest by unfold ringFuel; omega)
    have hfree : slobFree rest { heap with pages } (kvaOf page) PGSIZE = .ok freed := hfree
    obtain ⟨blocks', hslob, -, hpages, -⟩ := (h.withPages pages).grow hpage hnew hfree
    dsimp only
    rw [hkva, ok_bind]
    simp only [pure_bind, if_neg hnonzero, hfree, ok_bind]
    rcases hslob.scan_round size rest with ⟨hshort, -⟩ | ⟨node, hnode, -, hfound⟩ | ⟨hsmall, -⟩
    · omega
    · refine ⟨_, _, hfound, .inr ⟨some page, ?_, ?_⟩⟩
      · exact halloc.trans (Prod.ext rfl hpages.symm)
      · exact iff_of_false (hslob.next_ne_zero hnode) (by simp)
    · exact absurd hsmall (hslob.not_small (List.pairwise_cons.mp hextended.apart).1 hsize)

theorem slobAlloc_returns (hcorrect : allocator.Correct image.Usable)
    (h : Slob image heap blocks live grown)
    (hledger : Ledger allocator heap.pages (grown.map singlePage ++ runs) others)
    (hsize : size + SLOB_UNIT < PGSIZE) (hfuel : 2 ^ 67 ≤ fuel) :
    ∃ outcome, slobAlloc image fuel heap size 0 = .ok outcome := by
  obtain ⟨m, heap', hcall, -⟩ := slobAlloc_requests hcorrect h hledger hsize hfuel
  exact ⟨_, hcall⟩

/-! ## `kmalloc` -/

variable {small : List Block} {entries : List BigBlock}

/-- The branch for a page and more comes back: its descriptor fits, and goes back when there are no
pages. -/
theorem HeapBooks.kmallocBig_returns (hcorrect : allocator.Correct image.Usable)
    (h : HeapBooks image heap blocks small entries grown others) (size : ℕ)
    (hfuel : 2 ^ 67 ≤ fuel) : ∃ outcome, Ucore.kmallocBig image fuel heap size = .ok outcome := by
  obtain ⟨⟨bb, heap₁⟩, halloc⟩ :=
    slobAlloc_returns hcorrect h.slob h.ledger (show bigblockSize + SLOB_UNIT < PGSIZE by decide)
      hfuel
  obtain ⟨blocks₁, grown₁, hgrows, hresult⟩ :=
    slobAlloc_spec hcorrect h.slob h.ledger (show 2 ≤ SLOB_UNITS bigblockSize by decide) halloc
  unfold Ucore.kmallocBig
  rw [halloc, ok_bind]
  dsimp only
  by_cases hbb : bb = 0
  · rw [if_pos hbb]
    exact ⟨_, rfl⟩
  obtain ⟨hslob, -⟩ := hresult.resolve_left fun hnull ↦ hbb hnull.1
  rw [if_neg hbb]
  generalize findOrder (toInt32 size) = order
  obtain ⟨⟨kva, heap₂⟩, hget⟩ := slobGetFreePages_returns
    { heap₁ with mem := setBigblockOrder heap₁.mem bb order } order hcorrect
  obtain ⟨pages, hheap₂, -⟩ := slobGetFreePages_spec hcorrect hget hgrows.ledger
  rw [hget, ok_bind]
  dsimp only
  split
  · exact ⟨_, rfl⟩
  · have hset : Slob image { heap₂ with mem := setBigblockPages heap₂.mem bb kva } blocks₁
        (⟨bb, 32⟩ :: (small ++ entries.map BigBlock.units)) grown₁ := by
      refine (setDescriptor hslob (by rw [hheap₂]) fun address hnot ↦ ?_).1
      rw [hheap₂]
      exact setPages_kept hnot
    obtain ⟨freed, hfree⟩ := hset.free_returns (descriptor_units _ bb)
      (show ringFuel ≤ fuel by unfold ringFuel; omega)
    rw [hfree]
    exact ⟨_, rfl⟩

theorem HeapBooks.kmalloc_returns (hcorrect : allocator.Correct image.Usable)
    (h : HeapBooks image heap blocks small entries grown others)
    (hsize : ¬ (4064 ≤ size ∧ size < 4080)) (hfuel : 2 ^ 67 ≤ fuel) :
    ∃ outcome, kmalloc image fuel heap size = .ok outcome := by
  unfold kmalloc
  split
  · have hfits : size + SLOB_UNIT + SLOB_UNIT < PGSIZE := by
      unfold SLOB_UNIT PGSIZE at *
      omega
    obtain ⟨⟨m, next⟩, halloc⟩ := slobAlloc_returns hcorrect h.slob h.ledger hfits hfuel
    rw [halloc, ok_bind]
    exact ⟨_, rfl⟩
  · exact h.kmallocBig_returns hcorrect size hfuel

/-- Both the threshold of `__kmalloc` and the assertion of `slob_alloc` leave room for the header, so
that a request that just passes the first one fails the second one. -/
theorem kmalloc_panics (heap : Heap allocator) (fuel : ℕ) (hlower : 4064 ≤ size)
    (hupper : size < 4080) : kmalloc image fuel heap size = .error .panic := by
  have hassert : assert (size + SLOB_UNIT + SLOB_UNIT < PGSIZE) = .error .panic := by
    refine if_neg ?_
    unfold SLOB_UNIT PGSIZE
    omega
  unfold kmalloc slobAlloc
  rw [if_pos (show size < PGSIZE - SLOB_UNIT from hupper), hassert]
  rfl

/-! ## `kfree` -/

theorem HeapBooks.kfreeScan_returns {front back : List BigBlock} {p : ℕ}
    (h : HeapBooks image heap blocks small (front ++ back) grown others)
    (hfuel : back.length < fuel) :
    ∃ found, kfreeScan heap.mem p fuel (entryCell front) (bigblockLink heap (entryCell front)) =
      .ok found := by
  induction back generalizing front fuel with
  | nil =>
    obtain ⟨fuel, rfl⟩ := Nat.exists_eq_add_one_of_ne_zero (Nat.ne_zero_of_lt hfuel)
    rw [kfreeScan, h.link_entryCell]
    exact ⟨_, rfl⟩
  | cons entry back ih =>
    obtain ⟨fuel, rfl⟩ := Nat.exists_eq_add_one_of_ne_zero (Nat.ne_zero_of_lt hfuel)
    have hlink : bigblockLink heap (entryCell front) = entry.descriptor := h.link_entryCell
    rw [kfreeScan, hlink]
    split
    · exact ⟨_, rfl⟩
    · split
      · exact ⟨_, rfl⟩
      · have hnext : HeapBooks image heap blocks small ((front ++ [entry]) ++ back) grown others := by
          simpa using h
        have hcell : entryCell (front ++ [entry]) = some entry.descriptor := by simp [entryCell]
        obtain ⟨found, hscan⟩ := ih hnext (Nat.lt_of_succ_lt_succ hfuel)
        rw [hcell] at hscan
        exact ⟨found, hscan⟩

/-- Giving a small block back comes to an end. -/
theorem HeapBooks.kfreeSmall_returns (h : HeapBooks image heap blocks small entries grown others)
    (hblock : block ∈ small) (hapart : ∀ entry ∈ entries, kvaOf entry.page ≠ block.start + SLOB_UNIT)
    (hfuel : ringFuel ≤ fuel) (hentries : entries.length < fuel) :
    ∃ heap', kfree image fuel heap (block.start + SLOB_UNIT) = .ok heap' := by
  have hunits := h.headers block hblock
  obtain ⟨hnonzero, hback⟩ := h.payload hblock
  have hperm : small.Perm (block :: small.erase block) := List.perm_cons_erase hblock
  have hheader : if 0 = 0 then SLOB_UNIT * slobUnits heap.mem block.start = block.size
      else (SLOB_UNIT : ℤ) * SLOB_UNITS 0 = block.size := by
    simpa using hunits
  obtain ⟨heap', hfree⟩ := (h.slob.perm (hperm.append_right _)).free_returns hheader hfuel
  unfold kfree
  rw [if_neg hnonzero, hback]
  split
  · obtain ⟨found, hscan⟩ :=
      (show HeapBooks image heap blocks small ([] ++ entries) grown others from h).kfreeScan_returns
        hentries
    have hscan : kfreeScan heap.mem (block.start + SLOB_UNIT) fuel none heap.bigblocks = .ok found :=
      hscan
    obtain rfl := h.kfreeScan_small hapart hscan
    rw [hscan]
    exact ⟨heap', hfree⟩
  · exact ⟨heap', hfree⟩

theorem HeapInv.kfreeSmall_returns (h : HeapInv image heap blocks small entries grown others)
    (hblock : block ∈ small) (hfuel : ringFuel ≤ fuel) (hentries : entries.length < fuel) :
    ∃ heap', kfree image fuel heap (block.start + SLOB_UNIT) = .ok heap' :=
  h.books.kfreeSmall_returns hblock (h.ne_payload hblock) hfuel hentries

end Calls

namespace HeapWorld

variable {allocator : PageAllocator} {image : KernelImage} {world : HeapWorld allocator}

/-- The heap of the sample image after boot, with sixteen pages behind it. -/
def bootHeap : Heap (PageAllocator.firstFit 0x20A 16) := Heap.boot sampleImage (fun _ ↦ 0) []

end HeapWorld

/-- The page allocator with a record of the requests it got and of what they obtained -/
def PageAllocator.logged (allocator : PageAllocator) : PageAllocator where
  State := allocator.State × List (ℕ × Option ℕ)
  allocPages state n :=
    let (page, next) := allocator.allocPages state.1 n
    (page, next, state.2 ++ [(n, page)])
  freePages state base n := (allocator.freePages state.1 base n, state.2)
  outstanding state := allocator.outstanding state.1

section Logged

variable {allocator : PageAllocator} {image : KernelImage} {heap : Heap allocator}
  {blocks live runs : List Block} {grown : List ℕ} {others : Set Block} {usable : ℕ → Prop}

theorem PageAllocator.Correct.logged (h : allocator.Correct usable) :
    allocator.logged.Correct usable where
  allocNull halloc := by
    obtain ⟨hpage, rfl⟩ := Prod.mk.inj halloc
    exact h.allocNull (Prod.ext hpage rfl)
  allocSome hn halloc := by
    obtain ⟨hpage, rfl⟩ := Prod.mk.inj halloc
    exact h.allocSome hn (Prod.ext hpage rfl)
  free hblock := h.free hblock

/-- A heap at the start of a record -/
def Heap.logged (heap : Heap allocator) : Heap allocator.logged where
  mem := heap.mem
  slobfree := heap.slobfree
  bigblocks := heap.bigblocks
  pages := (heap.pages, [])

theorem Slob.logged (h : Slob image heap blocks live grown) :
    Slob image heap.logged blocks live grown :=
  ⟨h.ring, h.position, h.apart, h.unused, h.partition, h.units, h.usable⟩

theorem Ledger.logged {owned : List Block} (h : Ledger allocator heap.pages owned others) :
    Ledger allocator.logged heap.logged.pages owned others :=
  ⟨h.outstanding, h.nonempty, h.apart, h.foreign⟩

end Logged

namespace HeapWorld

variable {allocator : PageAllocator} {image : KernelImage} {world : HeapWorld allocator}

/-- From every reachable state the scan of `slob_alloc` comes to an end. The record of its requests
is empty or a single page, and holds a failure whenever `NULL` is returned. -/
theorem slobAlloc_grows_once (hcorrect : allocator.Correct image.Usable)
    (hworld : Reachable image world) (size : ℕ) (hsize : size + SLOB_UNIT < PGSIZE) :
    ∃ least, ∀ fuel ≥ least, ∃ m heap',
      slobAlloc image fuel world.heap.logged size 0 = .ok (m, heap') ∧
        (heap'.pages.2 = [] ∨ ∃ page, heap'.pages.2 = [(1, page)]) ∧
        (m = 0 → heap'.pages.2 = [(1, none)]) := by
  obtain ⟨blocks, entries, grown, hinv, -⟩ := hworld.sound hcorrect
  refine ⟨2 ^ 67, fun fuel hfuel ↦ ?_⟩
  obtain ⟨m, heap', hcall, hrequested⟩ := slobAlloc_requests hcorrect.logged
    hinv.books.slob.logged hinv.books.ledger.logged hsize hfuel
  refine ⟨m, heap', hcall, ?_⟩
  rcases hrequested with ⟨hm, hpages⟩ | ⟨result, halloc, hresult⟩
  · exact ⟨.inl (congrArg Prod.snd hpages), fun hnull ↦ absurd hnull hm⟩
  · obtain ⟨hpage, hnext⟩ := Prod.mk.inj halloc
    have hrecord : heap'.pages.2 = [(1, result)] := by
      rw [← hnext, ← hpage]
      rfl
    refine ⟨.inr ⟨result, hrecord⟩, fun hnull ↦ ?_⟩
    rw [hrecord, hresult.mp hnull]

theorem slobAlloc_grows_once_boot : ∃ least, ∀ fuel ≥ least, ∃ m heap',
    slobAlloc sampleImage fuel bootHeap.logged 32 0 = .ok (m, heap') ∧
      (heap'.pages.2 = [] ∨ ∃ page, heap'.pages.2 = [(1, page)]) ∧
      (m = 0 → heap'.pages.2 = [(1, none)]) :=
  slobAlloc_grows_once (PageAllocator.firstFit_correct fun _ ↦ sampleImage_usable)
    (Reachable.boot _ _) 32 (by decide)

/-! ## Capacity -/

/-- The memory obtained for a request: the slob block after its header, or the pages. -/
def obtained (size p : ℕ) : Block :=
  if size < PGSIZE - SLOB_UNIT then ⟨p, SLOB_UNIT * SLOB_UNITS (size + SLOB_UNIT) - SLOB_UNIT⟩
  else ⟨p, PGSIZE * 2 ^ findOrder (toInt32 size)⟩

/-- The books of the world give these bytes to the holder of `p`. -/
def Holds (world : HeapWorld allocator) (p : ℕ) (bytes : Block) : Prop :=
  (∃ block ∈ world.small,
    block.start + SLOB_UNIT = p ∧ bytes = ⟨p, block.size - SLOB_UNIT⟩) ∨
  ∃ handle ∈ world.big, handle.1 = p ∧ bytes = ⟨p, PGSIZE * 2 ^ handle.2⟩

theorem toInt32_eq {size : ℕ} (hsize : size < 2 ^ 31) : toInt32 size = size := by
  rw [toInt32, BitVec.toInt_eq_toNat_bmod, BitVec.toNat_ofNat, Nat.mod_eq_of_lt (by omega)]
  exact Int.bmod_eq_of_le (by omega) (by omega)

/-- The order is too small exactly for the sizes that lose bits when they are halved. -/
theorem findOrder_short {size : ℕ} :
    PGSIZE * 2 ^ findOrder size < size ↔ ∃ k, 4096 * 2 ^ k < size ∧ size < 4097 * 2 ^ k := by
  have hcast : ∀ k : ℕ, ((size : ℤ) < 4097 * 2 ^ k) ↔ size < 4097 * 2 ^ k := by
    intro k
    exact_mod_cast Iff.rfl
  constructor
  · intro hshort
    exact ⟨_, hshort, (hcast _).mp (findOrder_le_iff.mp le_rfl)⟩
  · rintro ⟨k, hlower, hupper⟩
    have hle : findOrder size ≤ k := findOrder_le_iff.mpr ((hcast k).mpr hupper)
    have hpow : 2 ^ findOrder size ≤ 2 ^ k := Nat.pow_le_pow_right (by decide) hle
    unfold PGSIZE
    omega

/-- The bytes that are obtained cover the request unless bits of the size get lost, in the `int`
argument of `find_order` or in its shifts. -/
theorem obtained_covers {size p : ℕ} :
    Block.cells ⟨p, size⟩ ⊆ (obtained size p).cells ↔
      size < 2 ^ 31 ∧ ∀ k, ¬ (4096 * 2 ^ k < size ∧ size < 4097 * 2 ^ k) := by
  have hcells : ∀ room, Block.cells ⟨p, size⟩ ⊆ Block.cells ⟨p, room⟩ ↔ size ≤ room := by
    intro room
    refine ⟨fun hsub ↦ ?_, fun hle address hcell ↦ ?_⟩
    · by_contra hlt
      have hcell : p + room ∈ Block.cells ⟨p, size⟩ := ⟨Nat.le_add_right _ _, by simp; omega⟩
      exact absurd (hsub hcell).2 (by simp)
    · rw [Block.mem_cells_mk] at hcell ⊢
      omega
  unfold obtained
  split
  · rename_i hsmall
    rw [hcells]
    refine iff_of_true ?_ ⟨?_, fun k hk ↦ ?_⟩
    · unfold SLOB_UNITS SLOB_UNIT at *
      omega
    · unfold PGSIZE at hsmall
      omega
    · have hpow := Nat.one_le_two_pow (n := k)
      unfold PGSIZE at hsmall
      omega
  · rw [hcells]
    by_cases hint : size < 2 ^ 31
    · rw [toInt32_eq hint, ← not_lt, findOrder_short, not_exists]
      exact ⟨fun hnone ↦ ⟨hint, hnone⟩, And.right⟩
    · refine iff_of_false (fun hle ↦ hint ?_) fun hcond ↦ hint hcond.1
      -- an `int` never asks for more than `2 ^ 31` bytes, and for `2 ^ 31` it is negative
      have horder := findOrder_toInt32_le size
      have hpow : 2 ^ findOrder (toInt32 size) ≤ 2 ^ 19 := Nat.pow_le_pow_right (by decide) horder
      unfold PGSIZE at hle
      have heq : size = 2 ^ 31 := by omega
      rw [heq, show toInt32 (2 ^ 31) = -2 ^ 31 by decide, findOrder, if_neg (by decide)] at hle
      omega

/-- A block that `kmalloc` returns is entered into the books with the bytes that were obtained for it,
and these cover the request exactly when no bits of the size got lost. -/
theorem kmalloc_capacity (hcorrect : allocator.Correct image.Usable)
    (hworld : Reachable image world) {heap' : Heap allocator} {fuel size p : ℕ}
    (hcall : kmalloc image fuel world.heap size = .ok (p, heap')) (hp : p ≠ 0) :
    (Block.cells ⟨p, size⟩ ⊆ (obtained size p).cells ↔
        size < 2 ^ 31 ∧ ∀ k, ¬ (4096 * 2 ^ k < size ∧ size < 4097 * 2 ^ k)) ∧
      (0 < size → ∃ world', Step image world world' ∧ Sound image world' ∧
        world'.heap = heap' ∧ world'.Holds p (obtained size p)) := by
  refine ⟨obtained_covers, fun hsize ↦ ?_⟩
  have hsound := hworld.sound hcorrect
  by_cases hsmall : size < PGSIZE - SLOB_UNIT
  · have hstep := Step.kmallocSmall hsize hsmall hp hcall
    obtain ⟨blocks, entries, grown, hinv, -⟩ := hsound
    obtain ⟨-, -, -, ⟨hnull, -⟩ | ⟨-, hheader, -⟩⟩ := hinv.kmallocSmall hcorrect hsize hsmall hcall
    · exact absurd hnull hp
    · refine ⟨_, hstep, hstep.sound hcorrect (hworld.sound hcorrect), rfl, .inl ⟨_,
        List.mem_cons_self, Nat.sub_add_cancel hheader, ?_⟩⟩
      rw [obtained, if_pos hsmall]
  · have hstep := Step.kmallocBig hsmall hp hcall
    refine ⟨_, hstep, hstep.sound hcorrect hsound, rfl, .inr ⟨_, List.mem_cons_self, rfl, ?_⟩⟩
    rw [obtained, if_neg hsmall]

/-- What the first request for `8193` bytes after boot gets. -/
theorem bootHeap_8193 : ∃ heap', kmalloc sampleImage 8 bootHeap 8193 =
    .ok (0xFFFFFFFFC020B000, heap') := by
  have hcall : (kmalloc sampleImage 8 bootHeap 8193).toOption.any
      (fun outcome ↦ outcome.1 = 0xFFFFFFFFC020B000) = true := by decide +kernel
  obtain ⟨⟨p, heap'⟩, hreturn, hp⟩ := Option.any_eq_true _ _ |>.mp hcall
  obtain rfl := of_decide_eq_true hp
  exact ⟨heap', toOption_eq_some.mp hreturn⟩

theorem not_covers_8193 (p : ℕ) : ¬ Block.cells ⟨p, 8193⟩ ⊆ (obtained 8193 p).cells := by
  rw [obtained_covers]
  exact fun hcond ↦ hcond.2 1 (by decide)

theorem kmalloc_capacity_boot : ∃ (world' : HeapWorld (PageAllocator.firstFit 0x20A 16)),
    Sound sampleImage world' ∧
      world'.Holds 0xFFFFFFFFC020B000 (obtained 8193 0xFFFFFFFFC020B000) := by
  obtain ⟨heap', hcall⟩ := bootHeap_8193
  obtain ⟨world', -, hsound, -, hholds⟩ :=
    (kmalloc_capacity (PageAllocator.firstFit_correct fun _ ↦ sampleImage_usable)
      (Reachable.boot _ _) hcall (by decide)).2 (by decide)
  exact ⟨world', hsound, hholds⟩

/-- The request for `8193` bytes gets two pages. -/
theorem kmalloc_boot_short : ∃ p heap', kmalloc sampleImage 8 bootHeap 8193 = .ok (p, heap') ∧
    p ≠ 0 ∧ ¬ Block.cells ⟨p, 8193⟩ ⊆ (obtained 8193 p).cells := by
  obtain ⟨heap', hcall⟩ := bootHeap_8193
  exact ⟨_, heap', hcall, by decide, not_covers_8193 _⟩

end HeapWorld

end Ucore
