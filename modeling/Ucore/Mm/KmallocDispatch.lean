import Ucore.Mm.KmallocReturns

/-!
# Small and big blocks

`kfree` and `ksize` tell a big block from a small one by its address: a page-aligned pointer is
looked up in the big block list. The payload of a small block can be page-aligned, but it lies in the
heap, whose pages no big block shares. `kfree` gives back the very units or pages of the pointer and
a request that fails leaves nothing behind but a page that the heap took. `ksize` counts the header
of a small block among its usable bytes.
-/

namespace Ucore

open Foundation Memory

section Books

variable {allocator : PageAllocator} {image : KernelImage} {heap : Heap allocator}
  {blocks small : List Block} {entries front back : List BigBlock} {grown : List ℕ}
  {others : Set Block} {block : Block} {entry : BigBlock} {fuel p : ℕ}

/-- `kfree(p)` finds a descriptor of `p`. -/
def TakesBigPath (fuel : ℕ) (heap : Heap allocator) (p : ℕ) : Prop :=
  p % PGSIZE = 0 ∧ ∃ cell bb, kfreeScan heap.mem p fuel none heap.bigblocks = .ok (some (cell, bb))

/-- `ksize` looks for the descriptor that `kfree` looks for. -/
theorem ksizeScan_eq (mem : Memory) (p fuel : ℕ) (last : BigblockCell) (bb : ℕ) :
    ksizeScan mem p fuel bb = (kfreeScan mem p fuel last bb).map (Option.map Prod.snd) := by
  induction fuel generalizing last bb with
  | zero => rfl
  | succ fuel ih =>
    rw [ksizeScan, kfreeScan]
    split
    · rfl
    · split
      · rfl
      · exact ih (some bb) _

namespace HeapBooks

variable (h : HeapBooks image heap blocks small entries grown others)

include h

theorem scan_small (hapart : ∀ entry ∈ entries, kvaOf entry.page ≠ block.start + SLOB_UNIT)
    (hfuel : entries.length < fuel) :
    kfreeScan heap.mem (block.start + SLOB_UNIT) fuel none heap.bigblocks = .ok none := by
  obtain ⟨found, hscan⟩ :=
    (show HeapBooks image heap blocks small ([] ++ entries) grown others from h).kfreeScan_returns
      (p := block.start + SLOB_UNIT) hfuel
  have hscan : kfreeScan heap.mem (block.start + SLOB_UNIT) fuel none heap.bigblocks = .ok found :=
    hscan
  obtain rfl := h.kfreeScan_small hapart hscan
  exact hscan

theorem scan_big (hentry : entry ∈ entries) (hfuel : entries.length < fuel) :
    ∃ cell, kfreeScan heap.mem (kvaOf entry.page) fuel none heap.bigblocks =
      .ok (some (cell, entry.descriptor)) := by
  obtain ⟨found, hscan⟩ :=
    (show HeapBooks image heap blocks small ([] ++ entries) grown others from h).kfreeScan_returns
      (p := kvaOf entry.page) hfuel
  have hscan : kfreeScan heap.mem (kvaOf entry.page) fuel none heap.bigblocks = .ok found := hscan
  obtain ⟨front, back, rfl⟩ := List.append_of_mem hentry
  obtain ⟨rfl, -⟩ := h.kfree_big hscan
  exact ⟨_, hscan⟩

/-- The pages of a big block end below the top of the address space. -/
theorem run_le_top (hentry : entry ∈ entries) :
    KERNBASE ≤ kvaOf entry.page ∧ kvaOf entry.page + PGSIZE * 2 ^ entry.order ≤ 2 ^ 64 := by
  obtain ⟨count, hcount⟩ : ∃ count, 2 ^ entry.order = count + 1 :=
    ⟨_, (Nat.sub_add_cancel (Nat.two_pow_pos entry.order)).symm⟩
  have hfirst := h.lent entry hentry entry.page ⟨le_rfl, by simp [BigBlock.run]⟩
  have hlast := h.lent entry hentry (entry.page + count) (by
    rw [BigBlock.run, Block.mem_cells_mk, hcount]
    omega)
  have hoffset : kvaOf (entry.page + count) = kvaOf entry.page + count * PGSIZE := by
    rw [hlast.kvaOf_eq, hfirst.kvaOf_eq, page2ppn, page2ppn]
    ring
  refine ⟨hfirst.base_le, ?_⟩
  calc
    kvaOf entry.page + PGSIZE * 2 ^ entry.order = kvaOf (entry.page + count) + PGSIZE := by
      rw [hcount, hoffset]
      ring
    _ ≤ 2 ^ 64 := hlast.top_le

theorem small_lt (hblock : block ∈ small) : block.size < 2 ^ 32 := by
  have hlive := h.slob.live_above (List.mem_append_left _ hblock)
  have hbase := image.base_le_arena
  rw [Block.stop_eq] at hlive
  unfold KERNBASE at hbase
  omega

/-- For a small block `ksize` is the size of the block, its header included. -/
theorem ksize_small (hblock : block ∈ small)
    (hapart : ∀ entry ∈ entries, kvaOf entry.page ≠ block.start + SLOB_UNIT)
    (hfuel : entries.length < fuel) :
    ksize fuel heap (block.start + SLOB_UNIT) = .ok block.size := by
  obtain ⟨hnonzero, hback⟩ := h.payload hblock
  have hunits : slobUnits heap.mem (slobAdd (block.start + SLOB_UNIT) (-1)) * SLOB_UNIT =
      block.size := by
    rw [hback, Int.mul_comm]
    exact h.headers block hblock
  have hsize := h.small_lt hblock
  have hvalue : (BitVec.ofInt 32 (block.size : ℤ)).toNat = block.size := by
    rw [BitVec.ofInt_natCast, BitVec.toNat_ofNat, Nat.mod_eq_of_lt hsize]
  unfold ksize
  rw [if_neg hnonzero, hunits, ksizeScan_eq heap.mem _ fuel none, h.scan_small hapart hfuel]
  dsimp only
  rw [hvalue]
  split <;> rfl

/-- For a big block `ksize` is the size of its pages. -/
theorem ksize_big (hentry : entry ∈ entries) (hfuel : entries.length < fuel) :
    ksize fuel heap (kvaOf entry.page) = .ok (PGSIZE * 2 ^ entry.order) := by
  obtain ⟨-, hnonzero, haligned⟩ := h.big_address hentry
  obtain ⟨cell, hscan⟩ := h.scan_big hentry hfuel
  have horder := (h.fields entry hentry).1
  obtain ⟨hbase, htop⟩ := h.run_le_top hentry
  have hvalue : (BitVec.ofInt 32 ((PGSIZE : ℤ) * 2 ^ entry.order)).toNat =
      PGSIZE * 2 ^ entry.order := by
    have hcast : (PGSIZE : ℤ) * 2 ^ entry.order = (PGSIZE * 2 ^ entry.order : ℕ) := by
      push_cast
      rfl
    rw [hcast, BitVec.ofInt_natCast, BitVec.toNat_ofNat, Nat.mod_eq_of_lt]
    unfold KERNBASE at hbase
    omega
  unfold ksize
  rw [if_neg hnonzero, if_pos haligned, ksizeScan_eq heap.mem _ fuel none, hscan]
  show Except.ok (BitVec.ofInt 32 (PGSIZE * 2 ^ (bigblockOrder heap.mem entry.descriptor).toNat)).toNat =
    _
  rw [horder, Int.toNat_natCast, hvalue]

theorem kfree_small (hblock : block ∈ small)
    (hapart : ∀ entry ∈ entries, kvaOf entry.page ≠ block.start + SLOB_UNIT)
    (hfuel : entries.length < fuel) :
    kfree image fuel heap (block.start + SLOB_UNIT) = slobFree fuel heap block.start 0 := by
  obtain ⟨hnonzero, hback⟩ := h.payload hblock
  unfold kfree
  rw [if_neg hnonzero, hback, h.scan_small hapart hfuel]
  exact ite_id _

theorem freed_small {heap' : Heap allocator} {blocks' : List Block} (hblock : block ∈ small)
    (h' : HeapBooks image heap' blocks' (small.erase block) entries grown others) :
    freeBytes image heap' = freeBytes image heap ∪ block.cells :=
  (h.perm (List.perm_cons_erase hblock)).slob.freeBytes_freed h'.slob

end HeapBooks

theorem HeapBooks.kfreeBig_returns
    (h : HeapBooks image heap blocks small (front ++ entry :: back) grown others)
    (hfuel : ringFuel ≤ fuel) (hentries : (front ++ entry :: back).length < fuel) :
    ∃ heap', kfree image fuel heap (kvaOf entry.page) = .ok heap' := by
  obtain ⟨cell, hscan⟩ := h.scan_big (show entry ∈ front ++ entry :: back by simp) hentries
  rw [(h.kfree_big hscan).2]
  exact h.unlinked_slob.free_returns (HeapBooks.descriptor_units _ _) hfuel

/-- The entries determine the variable `bigblocks`. -/
theorem HeapBooks.bigblocks_eq (h : HeapBooks image heap blocks small entries grown others) :
    heap.bigblocks = (entries.map BigBlock.descriptor).head?.getD 0 :=
  (show HeapBooks image heap blocks small ([] ++ entries) grown others from h).link_entryCell

/-- A failing call leaves the books as they are, but for the pages that the heap takes. -/
theorem HeapInv.kmalloc_refused {heap' : Heap allocator} {size : ℕ}
    (h : HeapInv image heap blocks small entries grown others)
    (hcorrect : allocator.Correct image.Usable) (hsize : 0 < size)
    (hcall : kmalloc image fuel heap size = .ok (0, heap')) :
    ∃ blocks' taken, taken.length ≤ 1 ∧
      (∀ address, Foreign image (small ++ entries.map BigBlock.units) (taken ++ grown) address →
        heap'.mem address = heap.mem address) ∧
      HeapInv image heap' blocks' small entries (taken ++ grown) others := by
  by_cases hsmall : size < PGSIZE - SLOB_UNIT
  · obtain ⟨blocks', taken, hlength, hkept, ⟨-, hinv⟩ | ⟨hne, -⟩⟩ :=
      h.kmalloc_taken hcorrect hsize hsmall hcall
    · exact ⟨blocks', taken, hlength, hkept, hinv⟩
    · exact absurd rfl hne
  · rw [kmalloc, if_neg hsmall] at hcall
    obtain ⟨blocks', grown', hgrown, hkept, ⟨-, hinv⟩ | ⟨bb, page, -, hne, -⟩⟩ :=
      h.kmallocBig hcorrect hcall
    · rcases hgrown with rfl | ⟨page, rfl⟩
      · exact ⟨blocks', [], Nat.zero_le _, hkept, hinv⟩
      · exact ⟨blocks', [page], le_rfl, hkept, hinv⟩
    · exact absurd rfl hne

/-- The descriptor of a big block goes back to the ring. -/
theorem HeapBooks.freed_big {heap' : Heap allocator} {blocks' : List Block}
    (h : HeapBooks image heap blocks small (front ++ entry :: back) grown others)
    (h' : HeapBooks image heap' blocks' small (front ++ back) grown others) :
    freeBytes image heap' = freeBytes image heap ∪ entry.units.cells := by
  have hmiddle : (small ++ (front ++ entry :: back).map BigBlock.units).Perm
      (entry.units :: (small ++ (front ++ back).map BigBlock.units)) := by
    simp only [List.map_append, List.map_cons, ← List.append_assoc]
    exact List.perm_middle
  exact (h.slob.perm hmiddle).freeBytes_freed h'.slob

end Books

namespace HeapWorld

variable {allocator : PageAllocator} {image : KernelImage} {world : HeapWorld allocator} {p : ℕ}
  {own : Block}

/-- `own` is the memory behind the pointer `p` that a client holds: a small block with its header, or
the pages of a big block. -/
inductive Live (world : HeapWorld allocator) : ℕ → Block → Prop
  | small {block : Block} (h : block ∈ world.small) : Live world (block.start + SLOB_UNIT) block
  | big {handle : ℕ × ℕ} (h : handle ∈ world.big) :
      Live world handle.1 ⟨handle.1, PGSIZE * 2 ^ handle.2⟩

/-- `kmalloc(100)` and `kmalloc(8192)` after boot -/
def sampleCalls : Except Fault ((ℕ × Heap (PageAllocator.firstFit 0x20A 16)) ×
    (ℕ × Heap (PageAllocator.firstFit 0x20A 16))) := do
  let small ← kmalloc sampleImage 8 bootHeap 100
  let big ← kmalloc sampleImage 8 small.2 8192
  return (small, big)

theorem exists_small_big : ∃ world : HeapWorld (PageAllocator.firstFit 0x20A 16),
    Reachable sampleImage world ∧ world.small = [⟨0xFFFFFFFFC020A000, 128⟩] ∧
      world.big = [(0xFFFFFFFFC020B000, 1)] := by
  have hcalls : sampleCalls.toOption.any (fun outcome ↦
      outcome.1.1 = 0xFFFFFFFFC020A010 ∧ outcome.2.1 = 0xFFFFFFFFC020B000) = true := by
    decide +kernel
  obtain ⟨outcome, hreturn, hp⟩ := Option.any_eq_true _ _ |>.mp hcalls
  obtain ⟨hfirst, hsecond⟩ := of_decide_eq_true hp
  obtain ⟨⟨p, heap₁⟩, hcall, hreturn⟩ := bind_eq_ok.mp (toOption_eq_some.mp hreturn)
  obtain ⟨⟨q, heap₂⟩, hcall', hreturn⟩ := bind_eq_ok.mp hreturn
  obtain rfl := Except.ok.inj hreturn
  obtain rfl : p = 0xFFFFFFFFC020A010 := hfirst
  obtain rfl : q = 0xFFFFFFFFC020B000 := hsecond
  have hboot : Reachable sampleImage ⟨bootHeap, [], [],
      (PageAllocator.firstFit 0x20A 16).outstanding bootHeap.pages⟩ := .boot _ _
  have hsmall := hboot.step (.kmallocSmall (by decide) (by decide) (by decide) hcall)
  have hbig := hsmall.step (.kmallocBig (by decide) (by decide) hcall')
  refine ⟨_, hbig, rfl, ?_⟩
  rw [show findOrder (toInt32 8192) = 1 by simp [toInt32, findOrder]]

/-- `ksize` returns the size of all the memory behind a pointer. These bytes start at the pointer, so
they lie in this memory for the big blocks and for no small one, which starts with its header. -/
theorem ksize_usable (hcorrect : allocator.Correct image.Usable)
    (hworld : Reachable image world) (hlive : world.Live p own) :
    (∃ least, ∀ fuel ≥ least, ksize fuel world.heap p = .ok own.size) ∧
      (Block.cells ⟨p, own.size⟩ ⊆ own.cells ↔ ∃ order, (p, order) ∈ world.big) := by
  obtain ⟨blocks, entries, grown, hinv, hbig⟩ := hworld.sound hcorrect
  cases hlive with
  | small hblock =>
    have hapart := hinv.ne_payload hblock
    have hsize := hinv.room hblock
    refine ⟨⟨entries.length + 1, fun fuel hfuel ↦ hinv.books.ksize_small hblock hapart hfuel⟩,
      iff_of_false (fun hsub ↦ ?_) ?_⟩
    · have hlast : own.stop ∈ Block.cells ⟨own.start + SLOB_UNIT, own.size⟩ := by
        rw [Block.mem_cells_mk, Block.stop_eq]
        unfold SLOB_UNIT at *
        omega
      exact lt_irrefl _ (hsub hlast).2
    · rintro ⟨order, hhandle⟩
      rw [hbig] at hhandle
      obtain ⟨entry, hentry, heq⟩ := List.mem_map.mp hhandle
      exact hapart entry hentry (Prod.mk.inj heq).1
  | @big handle hhandle =>
    refine ⟨?_, iff_of_true subset_rfl ⟨handle.2, hhandle⟩⟩
    rw [hbig] at hhandle
    obtain ⟨entry, hentry, rfl⟩ := List.mem_map.mp hhandle
    exact ⟨entries.length + 1, fun fuel hfuel ↦ hinv.books.ksize_big hentry hfuel⟩

theorem ksize_usable_sample : ∃ world : HeapWorld (PageAllocator.firstFit 0x20A 16),
    ((∃ least, ∀ fuel ≥ least, ksize fuel world.heap 0xFFFFFFFFC020A010 = .ok 128) ∧
      ¬ Block.cells ⟨0xFFFFFFFFC020A010, 128⟩ ⊆ Block.cells ⟨0xFFFFFFFFC020A000, 128⟩) ∧
    ∃ least, ∀ fuel ≥ least, ksize fuel world.heap 0xFFFFFFFFC020B000 = .ok 8192 := by
  obtain ⟨world, hworld, hsmall, hbig⟩ := exists_small_big
  have hlive : world.Live 0xFFFFFFFFC020A010 ⟨0xFFFFFFFFC020A000, 128⟩ :=
    Live.small (hsmall ▸ List.mem_singleton_self _)
  have hlive' : world.Live 0xFFFFFFFFC020B000 ⟨0xFFFFFFFFC020B000, 8192⟩ :=
    Live.big (hbig ▸ List.mem_singleton_self (0xFFFFFFFFC020B000, 1))
  have hcorrect : (PageAllocator.firstFit 0x20A 16).Correct sampleImage.Usable :=
    PageAllocator.firstFit_correct fun _ ↦ sampleImage_usable
  obtain ⟨hsize, hfits⟩ := ksize_usable hcorrect hworld hlive
  refine ⟨world, ⟨hsize, fun hsub ↦ ?_⟩, (ksize_usable hcorrect hworld hlive').1⟩
  obtain ⟨order, hmem⟩ := hfits.mp hsub
  rw [hbig] at hmem
  simp at hmem

/-- The `128` bytes that `ksize` promises for a first `kmalloc(100)` end behind the block. -/
theorem ksize_overstates :
    ¬ ∀ (world : HeapWorld (PageAllocator.firstFit 0x20A 16)) (p : ℕ) (own : Block),
      Reachable sampleImage world → world.Live p own → ∀ fuel size,
        ksize fuel world.heap p = .ok size → Block.cells ⟨p, size⟩ ⊆ own.cells := by
  intro hall
  obtain ⟨world, hworld, hsmall, -⟩ := exists_small_big
  have hblock : (⟨0xFFFFFFFFC020A000, 128⟩ : Block) ∈ world.small := by
    rw [hsmall]
    exact List.mem_singleton_self _
  obtain ⟨blocks, entries, grown, hinv, -⟩ :=
    hworld.sound (PageAllocator.firstFit_correct fun _ ↦ sampleImage_usable)
  have hsize := hinv.books.ksize_small hblock (hinv.ne_payload hblock) (Nat.lt_succ_self _)
  have hsub := hall world _ _ hworld (.small hblock) _ _ hsize
  have hlast : 0xFFFFFFFFC020A080 ∈ Block.cells ⟨0xFFFFFFFFC020A000 + SLOB_UNIT, 128⟩ := by
    rw [Block.mem_cells_mk]
    decide
  exact absurd (hsub hlast).2 (by decide)

/-- `kfree` takes the branch for big blocks for these and only these: it unlinks the descriptor, gives
back the pages and frees the units of the descriptor; for a small block it frees the units from the
header on. The other entries of the big block list stay as they are. -/
theorem kfree_dispatch (hcorrect : allocator.Correct image.Usable)
    (hworld : Reachable image world) :
    ∃ blocks entries grown,
      HeapInv image world.heap blocks world.small entries grown world.others ∧
      world.big = entries.map BigBlock.handle ∧
      (∀ block ∈ world.small, ∃ least, ∀ fuel ≥ least,
        ¬ TakesBigPath fuel world.heap (block.start + SLOB_UNIT) ∧
        ∃ heap' blocks', kfree image fuel world.heap (block.start + SLOB_UNIT) = .ok heap' ∧
          slobFree fuel world.heap block.start 0 = .ok heap' ∧
          HeapInv image heap' blocks' (world.small.erase block) entries grown world.others ∧
          freeBytes image heap' = freeBytes image world.heap ∪ block.cells ∧
          heap'.bigblocks = world.heap.bigblocks ∧ heap'.pages = world.heap.pages) ∧
      ∀ front entry back, entries = front ++ entry :: back → ∃ least, ∀ fuel ≥ least,
        TakesBigPath fuel world.heap (kvaOf entry.page) ∧
        ∃ heap' blocks', kfree image fuel world.heap (kvaOf entry.page) = .ok heap' ∧
          HeapInv image heap' blocks' world.small (front ++ back) grown world.others ∧
          freeBytes image heap' = freeBytes image world.heap ∪ entry.units.cells ∧
          heap'.pages = allocator.freePages world.heap.pages entry.page (2 ^ entry.order) := by
  obtain ⟨blocks, entries, grown, hinv, hbig⟩ := hworld.sound hcorrect
  refine ⟨blocks, entries, grown, hinv, hbig, fun block hblock ↦ ?_, ?_⟩
  · have hapart := hinv.ne_payload hblock
    refine ⟨ringFuel + entries.length + 1, fun fuel hfuel ↦ ⟨?_, ?_⟩⟩
    · rintro ⟨-, cell, bb, hscan⟩
      rw [hinv.books.scan_small hapart (by omega)] at hscan
      cases hscan
    · obtain ⟨heap', hcall⟩ :=
        hinv.books.kfreeSmall_returns hblock hapart (show ringFuel ≤ fuel by omega) (by omega)
      obtain ⟨blocks', hinv', hlist, hpages, -⟩ := hinv.kfreeSmall hblock hcall
      have hfree := hinv.books.kfree_small hblock hapart (show entries.length < fuel by omega)
      exact ⟨heap', blocks', hcall, hfree ▸ hcall, hinv',
        hinv.books.freed_small hblock hinv'.books, hlist, hpages⟩
  · rintro front entry back rfl
    have hentry : entry ∈ front ++ entry :: back := by simp
    refine ⟨ringFuel + (front ++ entry :: back).length + 1, fun fuel hfuel ↦ ⟨?_, ?_⟩⟩
    · obtain ⟨-, -, haligned⟩ := hinv.books.big_address hentry
      obtain ⟨cell, hscan⟩ := hinv.books.scan_big hentry (show _ < fuel by omega)
      exact ⟨haligned, cell, _, hscan⟩
    · obtain ⟨heap', hcall⟩ :=
        hinv.books.kfreeBig_returns (show ringFuel ≤ fuel by omega) (by omega)
      obtain ⟨blocks', hbooks', hpages, -⟩ := hinv.books.kfreeBig hcorrect hcall
      exact ⟨heap', blocks', hcall, .of_books hbooks' fun _ hblock ↦ hinv.room hblock,
        hinv.books.freed_big hbooks', hpages⟩

theorem kfree_dispatch_sample : ∃ world : HeapWorld (PageAllocator.firstFit 0x20A 16),
    world.small = [⟨0xFFFFFFFFC020A000, 128⟩] ∧ world.big = [(0xFFFFFFFFC020B000, 1)] ∧
    (∃ least, ∀ fuel ≥ least, ¬ TakesBigPath fuel world.heap 0xFFFFFFFFC020A010) ∧
    ∃ least, ∀ fuel ≥ least, TakesBigPath fuel world.heap 0xFFFFFFFFC020B000 := by
  obtain ⟨world, hworld, hsmall, hbig⟩ := exists_small_big
  obtain ⟨blocks, entries, grown, -, hentries, hsmall_path, hbig_path⟩ :=
    kfree_dispatch (PageAllocator.firstFit_correct fun _ ↦ sampleImage_usable) hworld
  refine ⟨world, hsmall, hbig, ?_, ?_⟩
  · obtain ⟨least, hpath⟩ := hsmall_path ⟨0xFFFFFFFFC020A000, 128⟩ (by
      rw [hsmall]
      exact List.mem_singleton_self _)
    exact ⟨least, fun fuel hfuel ↦ (hpath fuel hfuel).1⟩
  · rw [hbig] at hentries
    obtain ⟨entry, rfl, hentry⟩ := List.map_eq_singleton_iff.mp hentries.symm
    obtain ⟨least, hpath⟩ := hbig_path [] entry [] rfl
    have haddress : kvaOf entry.page = 0xFFFFFFFFC020B000 := (Prod.mk.inj hentry).1
    exact ⟨least, fun fuel hfuel ↦ haddress ▸ (hpath fuel hfuel).1⟩

/-- When `kmalloc` fails, all that is live stays as it is, and the heap has grown by one page at most,
which is free. -/
theorem kmalloc_null (hcorrect : allocator.Correct image.Usable)
    (hworld : Reachable image world) {heap' : Heap allocator} {fuel size : ℕ} (hsize : 0 < size)
    (hcall : kmalloc image fuel world.heap size = .ok (0, heap')) :
    ∃ (blocks blocks' : List Block) (entries : List BigBlock) (grown taken : List ℕ),
      HeapInv image world.heap blocks world.small entries grown world.others ∧
      HeapInv image heap' blocks' world.small entries (taken ++ grown) world.others ∧
      world.big = entries.map BigBlock.handle ∧ heap'.bigblocks = world.heap.bigblocks ∧
      (∀ p own, world.Live p own → ∀ address ∈ own.cells,
        heap'.mem address = world.heap.mem address) ∧
      (∀ entry ∈ entries, ∀ address ∈ entry.units.cells,
        heap'.mem address = world.heap.mem address) ∧
      taken.length ≤ 1 ∧
      freeBytes image heap' = freeBytes image world.heap ∪ heapBytes taken ∧
      Disjoint (freeBytes image world.heap) (heapBytes taken) ∧
      allocator.outstanding heap'.pages = allocator.outstanding world.heap.pages ∪
        {loan | loan ∈ taken.map singlePage} := by
  obtain ⟨blocks, entries, grown, hinv, hbig⟩ := hworld.sound hcorrect
  obtain ⟨blocks', taken, hlength, hkept, hinv'⟩ := hinv.kmalloc_refused hcorrect hsize hcall
  obtain ⟨hfree, hdisjoint, hloans⟩ := hinv.balanced hinv' (List.Perm.refl _)
  refine ⟨blocks, blocks', entries, grown, taken, hinv, hinv', hbig, ?_, ?_, ?_, hlength, hfree,
    hdisjoint, hloans⟩
  · rw [hinv'.books.bigblocks_eq, hinv.books.bigblocks_eq]
  · intro p own hlive address hcell
    refine hkept address ?_
    cases hlive with
    | small hblock => exact .inl ⟨own, List.mem_append_left _ hblock, hcell⟩
    | big hhandle =>
      rw [hbig] at hhandle
      obtain ⟨entry, hentry, rfl⟩ := List.mem_map.mp hhandle
      obtain ⟨page, hpage, hbytes⟩ := mem_pageBytes_of_run (hinv.lent entry hentry) hcell
      exact .inr ⟨hinv'.books.not_heapBytes_of_entry hentry hpage hbytes,
        (hinv.lent entry hentry page hpage).not_arena hbytes⟩
  · intro entry hentry address hcell
    exact hkept address (.inl ⟨_, HeapBooks.mem_live_of_entry hentry, hcell⟩)

/-- With a single page for the heap there is none for the request. -/
theorem kmalloc_null_sample : ∃ heap' : Heap (PageAllocator.firstFit 0x20A 1),
    kmalloc sampleImage 8 (Heap.boot sampleImage (fun _ ↦ 0) []) 8192 = .ok (0, heap') ∧
      heap'.bigblocks = 0 := by
  let heap : Heap (PageAllocator.firstFit 0x20A 1) := Heap.boot sampleImage (fun _ ↦ 0) []
  have hcall : (kmalloc sampleImage 8 heap 8192).toOption.any
      (fun outcome ↦ outcome.1 = 0) = true := by decide +kernel
  obtain ⟨⟨p, heap'⟩, hreturn, hp⟩ := Option.any_eq_true _ _ |>.mp hcall
  obtain rfl := of_decide_eq_true hp
  have hreturn : kmalloc sampleImage 8 heap 8192 = .ok (0, heap') := toOption_eq_some.mp hreturn
  have hcorrect : (PageAllocator.firstFit 0x20A 1).Correct sampleImage.Usable :=
    PageAllocator.firstFit_correct fun _ hlower hupper ↦ sampleImage_usable hlower (by omega)
  have hworld : Reachable sampleImage
      ⟨heap, [], [], (PageAllocator.firstFit 0x20A 1).outstanding heap.pages⟩ := .boot _ _
  obtain ⟨-, -, -, -, -, -, -, -, hbig, -⟩ :=
    kmalloc_null hcorrect hworld (show 0 < 8192 by decide) hreturn
  exact ⟨heap', hreturn, hbig⟩

end HeapWorld

end Ucore
