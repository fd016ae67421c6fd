import Ucore.Mm.KmallocHeap

/-!
# What `kmalloc` and `kfree` keep

`HeapBooks` ties the memory of the heap to the books: the free blocks, the live small blocks, the
entries of the big block list and the loans of the page allocator. A call of `kmalloc` adds a live
block, a call of `kfree` takes one out. `HeapInv` says besides that no small block is without a
payload; only a request for no bytes leads to such a block.
-/

namespace Ucore

open Foundation Memory

/-! ## Big blocks -/

/-- A big block: its descriptor and the `2 ^ order` pages from `page` on. -/
structure BigBlock where
  descriptor : ℕ
  page : ℕ
  order : ℕ
deriving DecidableEq

namespace BigBlock

/-- The heap units of the descriptor. -/
def units (entry : BigBlock) : Block := ⟨entry.descriptor, SLOB_UNIT * SLOB_UNITS bigblockSize⟩

/-- The loan of the pages. -/
def run (entry : BigBlock) : Block := ⟨entry.page, 2 ^ entry.order⟩

/-- What the client holds: the address of the pages and the order. -/
def handle (entry : BigBlock) : ℕ × ℕ := (kvaOf entry.page, entry.order)

theorem units_eq (entry : BigBlock) : entry.units = ⟨entry.descriptor, 32⟩ := rfl

end BigBlock

/-- `find_order` drops the bits it shifts out. -/
theorem findOrder_le_iff {size : ℤ} {k : ℕ} : findOrder size ≤ k ↔ size < 4097 * 2 ^ k := by
  induction k generalizing size with
  | zero =>
    unfold findOrder
    split <;> omega
  | succ k ih =>
    unfold findOrder
    have hpow : (0 : ℤ) < 2 ^ k := Int.pow_pos (by decide)
    rw [pow_succ]
    split
    · rw [Nat.succ_le_succ_iff, ih]
      omega
    · omega

/-- An `int` size never asks for more than `2 ^ 19` pages. -/
theorem findOrder_toInt32_le (size : ℕ) : findOrder (toInt32 size) ≤ 19 := by
  have hlt : toInt32 size < 2 ^ 31 := BitVec.toInt_lt
  exact findOrder_le_iff.mpr (by omega)

/-! ## The invariant -/

structure HeapInv {allocator : PageAllocator} (image : KernelImage) (heap : Heap allocator)
    (blocks small : List Block) (entries : List BigBlock) (grown : List ℕ) (others : Set Block) :
    Prop where
  slob : Slob image heap blocks (small ++ entries.map BigBlock.units) grown
  ledger : Ledger allocator heap.pages (grown.map singlePage ++ entries.map BigBlock.run) others
  headers : ∀ block ∈ small, SLOB_UNIT * slobUnits heap.mem block.start = block.size ∧
    2 * SLOB_UNIT ≤ block.size
  fields : ∀ entry ∈ entries, bigblockOrder heap.mem entry.descriptor = entry.order ∧
    bigblockPages heap.mem entry.descriptor = kvaOf entry.page
  list : Chain (bigblockLink heap) some none (entries.map BigBlock.descriptor) 0
  lent : ∀ entry ∈ entries, ∀ page ∈ entry.run.cells, image.Usable page

/-- The books when requests for no bytes count, whose blocks are a header and nothing else. -/
structure HeapBooks {allocator : PageAllocator} (image : KernelImage) (heap : Heap allocator)
    (blocks small : List Block) (entries : List BigBlock) (grown : List ℕ) (others : Set Block) :
    Prop where
  slob : Slob image heap blocks (small ++ entries.map BigBlock.units) grown
  ledger : Ledger allocator heap.pages (grown.map singlePage ++ entries.map BigBlock.run) others
  headers : ∀ block ∈ small, SLOB_UNIT * slobUnits heap.mem block.start = block.size
  fields : ∀ entry ∈ entries, bigblockOrder heap.mem entry.descriptor = entry.order ∧
    bigblockPages heap.mem entry.descriptor = kvaOf entry.page
  list : Chain (bigblockLink heap) some none (entries.map BigBlock.descriptor) 0
  lent : ∀ entry ∈ entries, ∀ page ∈ entry.run.cells, image.Usable page

namespace HeapBooks

variable {allocator : PageAllocator} {image : KernelImage} {heap heap' : Heap allocator}
  {blocks small : List Block} {entries : List BigBlock} {grown grown' : List ℕ}
  {others : Set Block} {block : Block} {entry : BigBlock}

theorem perm {small' : List Block} (h : HeapBooks image heap blocks small entries grown others)
    (hperm : small.Perm small') : HeapBooks image heap blocks small' entries grown others :=
  { h with
    slob := h.slob.perm (hperm.append_right _)
    headers := fun block hblock ↦ h.headers block (hperm.mem_iff.mpr hblock) }

/-- A small block has a unit at least. -/
theorem size_ge (h : HeapBooks image heap blocks small entries grown others) (hblock : block ∈ small) :
    SLOB_UNIT ≤ block.size := by
  have hunits := h.slob.units block (List.mem_append_left _ hblock)
  exact Nat.le_of_dvd hunits.1 hunits.2.2

theorem mem_live_of_entry (hentry : entry ∈ entries) :
    entry.units ∈ small ++ entries.map BigBlock.units :=
  List.mem_append_right _ (List.mem_map_of_mem hentry)

theorem descriptor_above (h : HeapBooks image heap blocks small entries grown others)
    (hentry : entry ∈ entries) : image.arena + SLOB_UNIT < entry.descriptor :=
  (h.slob.live_above (mem_live_of_entry hentry)).1

/-- The three fields of a descriptor lie in its units. -/
theorem descriptor_cells (hentry : entry ∈ entries) {address : ℕ}
    (haddress : entry.descriptor ≤ address ∧ address < entry.descriptor + 32) :
    address ∈ cover (small ++ entries.map BigBlock.units) :=
  ⟨entry.units, mem_live_of_entry hentry, haddress⟩

/-- Headers and descriptors survive whatever leaves their cells alone. -/
theorem headers_congr {small' : List Block}
    (h : HeapBooks image heap blocks small entries grown others) (hsub : small' ⊆ small)
    (hmem : ∀ address ∈ cover small', heap'.mem address = heap.mem address) :
    ∀ block ∈ small', SLOB_UNIT * slobUnits heap'.mem block.start = block.size := by
  intro block hblock
  have hroom := h.size_ge (hsub hblock)
  have hcell : block.start ∈ cover small' := by
    refine ⟨block, hblock, ?_⟩
    unfold SLOB_UNIT at hroom
    rw [Block.mem_cells, Block.stop_eq]
    omega
  rw [slobUnits_congr (hmem _ hcell)]
  exact h.headers block (hsub hblock)

theorem fields_congr {entries' : List BigBlock}
    (h : HeapBooks image heap blocks small entries grown others) (hsub : entries' ⊆ entries)
    (hmem : ∀ entry ∈ entries', heap'.mem entry.descriptor = heap.mem entry.descriptor ∧
      heap'.mem (entry.descriptor + 8) = heap.mem (entry.descriptor + 8)) :
    ∀ entry ∈ entries', bigblockOrder heap'.mem entry.descriptor = entry.order ∧
      bigblockPages heap'.mem entry.descriptor = kvaOf entry.page := by
  intro entry hentry
  obtain ⟨horder, hpages⟩ := h.fields entry (hsub hentry)
  exact ⟨(readInt_congr (hmem entry hentry).1).trans horder,
    (readPointer_congr (hmem entry hentry).2).trans hpages⟩

theorem list_congr (h : HeapBooks image heap blocks small entries grown others)
    (hbig : heap'.bigblocks = heap.bigblocks)
    (hmem : ∀ entry ∈ entries,
      heap'.mem (entry.descriptor + 16) = heap.mem (entry.descriptor + 16)) :
    Chain (bigblockLink heap') some none (entries.map BigBlock.descriptor) 0 := by
  refine h.list.congr fun cell hcell ↦ ?_
  rcases List.mem_cons.mp hcell with rfl | hmem'
  · exact hbig
  · obtain ⟨descriptor, hdescriptor, rfl⟩ := List.mem_map.mp hmem'
    obtain ⟨entry, hentry, rfl⟩ := List.mem_map.mp hdescriptor
    exact readPointer_congr (hmem entry hentry)

/-- A change that leaves the cells of the blocks that stay live alone keeps the books. -/
theorem of_kept {small' blocks' : List Block}
    (h : HeapBooks image heap blocks small entries grown others) (hsub : small' ⊆ small)
    (hslob : Slob image heap' blocks' (small' ++ entries.map BigBlock.units) grown')
    (hledger : Ledger allocator heap'.pages
      (grown'.map singlePage ++ entries.map BigBlock.run) others)
    (hbig : heap'.bigblocks = heap.bigblocks)
    (hmem : ∀ address ∈ cover (small' ++ entries.map BigBlock.units),
      heap'.mem address = heap.mem address) :
    HeapBooks image heap' blocks' small' entries grown' others where
  slob := hslob
  ledger := hledger
  headers := h.headers_congr hsub fun address hcell ↦ hmem address (by simp [cover_append, hcell])
  fields := h.fields_congr (List.Subset.refl _) fun entry hentry ↦
    ⟨hmem _ (descriptor_cells hentry (by omega)), hmem _ (descriptor_cells hentry (by omega))⟩
  list := h.list_congr hbig fun entry hentry ↦ hmem _ (descriptor_cells hentry (by omega))
  lent := h.lent

/-- Writes to the cells of clients cannot reach headers and descriptors. -/
theorem write {mem : Memory} (h : HeapBooks image heap blocks small entries grown others)
    (hmem : ∀ address, ¬ ClientCell image small grown address → mem address = heap.mem address) :
    HeapBooks image { heap with mem } blocks small entries grown others := by
  have hlive : ∀ block ∈ small ++ entries.map BigBlock.units, ∀ address ∈ block.cells,
      ClientCell image small grown address →
        ∃ other ∈ small, other.start + SLOB_UNIT ≤ address ∧ address < other.stop := by
    intro block hblock address hcell hclient
    refine hclient.resolve_right fun hout ↦ hout.1 ?_
    rw [← h.slob.partition]
    exact .inr ⟨block, hblock, hcell⟩
  have hsmall := (List.pairwise_append.mp h.slob.apart).1
  have hcross := (List.pairwise_append.mp h.slob.apart).2.2
  have hpayload : ∀ {other : Block} {address : ℕ}, other.start + SLOB_UNIT ≤ address →
      address < other.stop → address ∈ other.cells := fun hlow hhigh ↦
    ⟨le_trans (Nat.le_add_right _ _) hlow, hhigh⟩
  -- headers lie in front of the payloads, descriptors in blocks of their own
  have hheader : ∀ block ∈ small, mem block.start = heap.mem block.start := by
    intro block hblock
    refine hmem _ fun hclient ↦ ?_
    have hcell : block.start ∈ block.cells := by
      rw [Block.mem_cells, Block.stop_eq]
      have := (h.slob.units block (List.mem_append_left _ hblock)).1
      omega
    obtain ⟨other, hother, hlow, hhigh⟩ :=
      hlive block (List.mem_append_left _ hblock) _ hcell hclient
    have hne : block ≠ other := by
      rintro rfl
      unfold SLOB_UNIT at hlow
      omega
    have hsymm : Std.Symm (fun left right : Block ↦ Disjoint left.cells right.cells) :=
      ⟨fun _ _ hdisjoint ↦ hdisjoint.symm⟩
    exact Set.disjoint_left.mp (hsmall.forall hblock hother hne) hcell (hpayload hlow hhigh)
  have hdescriptor : ∀ entry ∈ entries, ∀ address ∈ entry.units.cells,
      mem address = heap.mem address := by
    intro entry hentry address hcell
    refine hmem _ fun hclient ↦ ?_
    obtain ⟨other, hother, hlow, hhigh⟩ :=
      hlive entry.units (mem_live_of_entry hentry) _ hcell hclient
    exact Set.disjoint_left.mp (hcross other hother _ (List.mem_map_of_mem hentry))
      (hpayload hlow hhigh) hcell
  have hunits : ∀ entry ∈ entries, ∀ offset < 32,
      mem (entry.descriptor + offset) = heap.mem (entry.descriptor + offset) := by
    intro entry hentry offset hoffset
    refine hdescriptor entry hentry _ ?_
    rw [BigBlock.units_eq, Block.mem_cells_mk]
    omega
  refine ⟨h.slob.write rfl fun address hnot ↦ hmem address fun hclient ↦ hnot ?_, h.ledger, ?_, ?_,
    ?_, h.lent⟩
  · refine hclient.imp (fun hblock ↦ ?_) id
    obtain ⟨block, hblock, hlow, hhigh⟩ := hblock
    exact ⟨block, List.mem_append_left _ hblock, hpayload hlow hhigh⟩
  · intro block hblock
    rw [slobUnits_congr (hheader block hblock)]
    exact h.headers block hblock
  · exact h.fields_congr (List.Subset.refl _) fun entry hentry ↦
      ⟨hunits entry hentry 0 (by decide), hunits entry hentry 8 (by decide)⟩
  · exact h.list_congr rfl fun entry hentry ↦ hunits entry hentry 16 (by decide)

/-- What is foreign to the other live blocks is not in this one. -/
theorem not_mem_of_foreign {address : ℕ}
    (h : HeapBooks image heap blocks (block :: small) entries grown others)
    (hforeign : Foreign image (small ++ entries.map BigBlock.units) grown address) :
    address ∉ block.cells := h.slob.not_mem_head_of_foreign hforeign

/-- The bytes of pages that are lent to others lie outside the heap. -/
theorem outside_of_loan {loan : Block} {address : ℕ}
    (h : HeapBooks image heap blocks small entries grown others) (hloan : loan ∈ others)
    (husable : ∀ page ∈ loan.cells, image.Usable page)
    (haddress : address ∈ Block.cells ⟨kvaOf loan.start, PGSIZE * loan.size⟩) :
    address ∉ heapBytes grown ∧ address ∉ Block.cells ⟨image.arena, SLOB_UNIT⟩ := by
  obtain ⟨page, hpage, hbytes⟩ := mem_pageBytes_of_run husable haddress
  refine ⟨?_, (husable page hpage).not_arena hbytes⟩
  rintro ⟨bytes, hmem, hcell⟩
  obtain ⟨other, hother, rfl⟩ := List.mem_map.mp hmem
  have hdisjoint := h.ledger.foreign loan hloan (singlePage other)
    (List.mem_append_left _ (List.mem_map_of_mem hother))
  have hne : page ≠ other := by
    rintro rfl
    exact Set.disjoint_left.mp hdisjoint hpage ⟨le_rfl, by simp [singlePage]⟩
  have hapart := (husable page hpage).disjoint (h.slob.usable other hother) hne
  exact Set.disjoint_left.mp hapart hbytes hcell

/-! ## `kmalloc` -/

/-- What `slob_alloc` returns becomes a live block. -/
theorem allocated {m units : ℕ} (h : HeapBooks image heap blocks small entries grown others)
    (hgrows : Grows image heap heap' (small ++ entries.map BigBlock.units)
      (entries.map BigBlock.run) others grown grown')
    {blocks' : List Block} (hslob : Slob image heap' blocks'
      (⟨m, SLOB_UNIT * units⟩ :: (small ++ entries.map BigBlock.units)) grown')
    (hheader : slobUnits heap'.mem m = units) :
    HeapBooks image heap' blocks' (⟨m, SLOB_UNIT * units⟩ :: small) entries grown' others := by
  have hkept : ∀ address ∈ cover (small ++ entries.map BigBlock.units),
      heap'.mem address = heap.mem address := fun address hcell ↦ hgrows.kept address (.inl hcell)
  refine ⟨hslob, hgrows.ledger, ?_, ?_, ?_, h.lent⟩
  · intro block hblock
    rcases List.mem_cons.mp hblock with rfl | hmem
    · rw [hheader]
      push_cast
      rfl
    · exact h.headers_congr (List.Subset.refl _)
        (fun address hcell ↦ hkept address (by simp [cover_append, hcell])) block hmem
  · exact h.fields_congr (List.Subset.refl _) fun entry hentry ↦
      ⟨hkept _ (descriptor_cells hentry (by omega)), hkept _ (descriptor_cells hentry (by omega))⟩
  · exact h.list_congr hgrows.bigblocks fun entry hentry ↦
      hkept _ (descriptor_cells hentry (by omega))

/-- A small block becomes live, unless `arena` is handed out. -/
theorem kmallocSmall {size fuel p : ℕ} (h : HeapBooks image heap blocks small entries grown others)
    (hcorrect : allocator.Correct image.Usable)
    (hfirst : 0 < size ∨ slobNext heap.mem heap.slobfree ≠ image.arena)
    (hsmall : size < PGSIZE - SLOB_UNIT)
    (hcall : kmalloc image fuel heap size = .ok (p, heap')) :
    ∃ blocks' grown', Grows image heap heap' (small ++ entries.map BigBlock.units)
        (entries.map BigBlock.run) others grown grown' ∧
      ((p = 0 ∧ HeapBooks image heap' blocks' small entries grown' others) ∨
        ∃ m, p = slobAdd m 1 ∧ HeapBooks image heap' blocks'
          (⟨m, SLOB_UNIT * SLOB_UNITS (size + SLOB_UNIT)⟩ :: small) entries grown' others) := by
  unfold kmalloc at hcall
  rw [if_pos hsmall] at hcall
  obtain ⟨⟨m, next⟩, halloc, hcall⟩ := bind_eq_ok.mp hcall
  obtain ⟨hp, hnext⟩ := Prod.mk.inj (Except.ok.inj hcall)
  subst hnext
  have hresult : ∃ blocks' grown', Grows image heap next (small ++ entries.map BigBlock.units)
      (entries.map BigBlock.run) others grown grown' ∧
      ((m = 0 ∧ Slob image next blocks' (small ++ entries.map BigBlock.units) grown') ∨
        (Slob image next blocks' (⟨m, SLOB_UNIT * SLOB_UNITS (size + SLOB_UNIT)⟩ ::
            (small ++ entries.map BigBlock.units)) grown' ∧
          slobUnits next.mem m = SLOB_UNITS (size + SLOB_UNIT))) := by
    by_cases hpos : 0 < size
    · have hunits : 2 ≤ SLOB_UNITS (size + SLOB_UNIT) := by
        unfold SLOB_UNITS SLOB_UNIT
        omega
      exact slobAlloc_spec hcorrect h.slob h.ledger hunits halloc
    · obtain rfl : size = 0 := by omega
      obtain ⟨blocks', hgrows, hslob⟩ :=
        slobAlloc_unit h.slob h.ledger rfl (hfirst.resolve_left hpos) halloc
      exact ⟨blocks', grown, hgrows, .inr hslob⟩
  obtain ⟨blocks', grown', hgrows, ⟨hnull, hslob⟩ | ⟨hslob, hheader⟩⟩ := hresult
  · refine ⟨blocks', grown', hgrows, .inl ⟨by rw [← hp, hnull]; rfl, ?_⟩⟩
    exact h.of_kept (List.Subset.refl _) hslob hgrows.ledger hgrows.bigblocks fun address hcell ↦
      hgrows.kept address (.inl hcell)
  · have hlive := hslob.live_above List.mem_cons_self
    have hm : m ≠ 0 := by
      dsimp only at hlive
      omega
    rw [if_pos hm] at hp
    exact ⟨blocks', grown', hgrows, .inr ⟨m, hp.symm, h.allocated hgrows hslob hheader⟩⟩

/-- The pointer variable `bigblocks` holds an address. -/
theorem bigblocks_lt (h : HeapBooks image heap blocks small entries grown others) :
    heap.bigblocks < 2 ^ 64 := by
  have hlist := h.list
  cases entries with
  | nil =>
    have hnull : heap.bigblocks = 0 := hlist
    omega
  | cons entry rest =>
    have hfirst : heap.bigblocks = entry.descriptor := hlist.1
    have hlive := (h.slob.live_above (mem_live_of_entry List.mem_cons_self)).2
    rw [BigBlock.units_eq, Block.stop_mk] at hlive
    omega

/-- `slob_free(bb, sizeof(bigblock_t))` gives back the units of a descriptor. -/
theorem descriptor_units (mem : Memory) (bb : ℕ) :
    if bigblockSize = 0 then SLOB_UNIT * slobUnits mem bb = (Block.mk bb 32).size
      else (SLOB_UNIT : ℤ) * SLOB_UNITS bigblockSize = (Block.mk bb 32).size := by
  rw [if_neg (by decide)]
  rfl

/-- Writes to the units of a fresh descriptor change nothing else. -/
theorem setDescriptor {heap'' : Heap allocator} {bb : ℕ}
    (h : Slob image heap' blocks (⟨bb, 32⟩ :: (small ++ entries.map BigBlock.units)) grown)
    (hheap : heap''.slobfree = heap'.slobfree)
    (hmem : ∀ address, address ∉ Block.cells ⟨bb, 32⟩ → heap''.mem address = heap'.mem address) :
    Slob image heap'' blocks (⟨bb, 32⟩ :: (small ++ entries.map BigBlock.units)) grown ∧
      ∀ address, Foreign image (small ++ entries.map BigBlock.units) grown address →
        heap''.mem address = heap'.mem address := by
  refine ⟨h.write hheap fun address hnot ↦ hmem address fun hcell ↦ hnot (.inl ?_),
    fun address hforeign ↦ hmem address (h.not_mem_head_of_foreign hforeign)⟩
  exact ⟨_, List.mem_cons_self, hcell⟩

/-- The order and the pages are written inside the descriptor. -/
theorem setPages_kept {mem : Memory} {bb kva order address : ℕ}
    (hnot : address ∉ Block.cells ⟨bb, 32⟩) :
    setBigblockPages (setBigblockOrder mem bb order) bb kva address = mem address := by
  rw [Block.mem_cells_mk] at hnot
  rw [setBigblockPages, writePointer_of_ne (by omega), setBigblockOrder, writeInt_of_ne (by omega)]

/-- The three writes to a new descriptor give it its fields. -/
theorem setFields_spec {mem : Memory} {bb kva order next : ℕ} (horder : order ≤ 19)
    (hkva : kva < 2 ^ 64) (hnext : next < 2 ^ 64) {written : Memory}
    (hwritten : written =
      setBigblockNext (setBigblockPages (setBigblockOrder mem bb order) bb kva) bb next) :
    bigblockOrder written bb = order ∧ bigblockPages written bb = kva ∧
      bigblockNext written bb = next ∧
      ∀ address, address ∉ Block.cells ⟨bb, 32⟩ → written address = mem address := by
  subst hwritten
  have hkept : ∀ address, address ≠ bb + 16 →
      setBigblockNext (setBigblockPages (setBigblockOrder mem bb order) bb kva) bb next address =
        setBigblockPages (setBigblockOrder mem bb order) bb kva address :=
    fun address hne ↦ writePointer_of_ne hne
  refine ⟨?_, ?_, readPointer_writePointer hnext, fun address hnot ↦ ?_⟩
  · calc bigblockOrder _ bb
        = bigblockOrder (setBigblockPages (setBigblockOrder mem bb order) bb kva) bb :=
          readInt_congr (hkept bb (by omega))
      _ = bigblockOrder (setBigblockOrder mem bb order) bb :=
          readInt_congr (writePointer_of_ne (by omega))
      _ = order := readInt_writeInt (by omega) (by omega)
  · calc bigblockPages _ bb
        = bigblockPages (setBigblockPages (setBigblockOrder mem bb order) bb kva) bb :=
          readPointer_congr (hkept (bb + 8) (by omega))
      _ = kva := readPointer_writePointer hkva
  · have hne : address ≠ bb + 16 := by
      rw [Block.mem_cells_mk] at hnot
      omega
    exact (hkept address hne).trans (setPages_kept hnot)

/-- A descriptor that heads the list puts its big block into the books. -/
theorem enlist {blocks' : List Block} (h : HeapBooks image heap blocks small entries grown others)
    (hslob : Slob image heap' blocks' (entry.units :: (small ++ entries.map BigBlock.units)) grown')
    (hledger : Ledger allocator heap'.pages
      (entry.run :: (grown'.map singlePage ++ entries.map BigBlock.run)) others)
    (hkept : ∀ address ∈ cover (small ++ entries.map BigBlock.units),
      heap'.mem address = heap.mem address)
    (hfields : bigblockOrder heap'.mem entry.descriptor = entry.order ∧
      bigblockPages heap'.mem entry.descriptor = kvaOf entry.page)
    (hhead : heap'.bigblocks = entry.descriptor)
    (hnext : bigblockNext heap'.mem entry.descriptor = heap.bigblocks)
    (husable : ∀ page ∈ entry.run.cells, image.Usable page) :
    HeapBooks image heap' blocks' small (entry :: entries) grown' others where
  slob := hslob.perm List.perm_middle.symm
  ledger := hledger.perm List.perm_middle.symm
  headers := h.headers_congr (List.Subset.refl _) fun address hcell ↦
    hkept address (by simp [cover_append, hcell])
  fields := by
    intro other hother
    rcases List.mem_cons.mp hother with rfl | hmem
    · exact hfields
    · apply h.fields_congr (List.Subset.refl _) _ other hmem
      intro other hother
      exact ⟨hkept _ (descriptor_cells hother (by omega)),
        hkept _ (descriptor_cells hother (by omega))⟩
  list := by
    refine ⟨hhead, h.list.move hnext fun descriptor hdescriptor ↦ ?_⟩
    obtain ⟨other, hother, rfl⟩ := List.mem_map.mp hdescriptor
    exact readPointer_congr (hkept _ (descriptor_cells hother (by omega)))
  lent := by
    intro other hother
    rcases List.mem_cons.mp hother with rfl | hmem
    · exact husable
    · exact h.lent other hmem

/-- A big block becomes live: its descriptor heads the list. -/
theorem kmallocBig {size fuel p : ℕ} (h : HeapBooks image heap blocks small entries grown others)
    (hcorrect : allocator.Correct image.Usable)
    (hcall : Ucore.kmallocBig image fuel heap size = .ok (p, heap')) :
    ∃ blocks' grown', (grown' = grown ∨ ∃ page, grown' = page :: grown) ∧
      (∀ address, Foreign image (small ++ entries.map BigBlock.units) grown' address →
        heap'.mem address = heap.mem address) ∧
      ((p = 0 ∧ HeapBooks image heap' blocks' small entries grown' others) ∨
        ∃ bb page, p = kvaOf page ∧ p ≠ 0 ∧ HeapBooks image heap' blocks' small
          (⟨bb, page, findOrder (toInt32 size)⟩ :: entries) grown' others) := by
  unfold Ucore.kmallocBig at hcall
  obtain ⟨⟨bb, heap₁⟩, halloc, hcall⟩ := bind_eq_ok.mp hcall
  obtain ⟨blocks₁, grown₁, hgrows, hresult⟩ :=
    slobAlloc_spec hcorrect h.slob h.ledger (show 2 ≤ SLOB_UNITS bigblockSize by decide) halloc
  rcases hresult with ⟨hnull, hslob⟩ | ⟨hslob, -⟩
  · simp only [hnull, if_true] at hcall
    obtain ⟨rfl, rfl⟩ := Prod.mk.inj (Except.ok.inj hcall)
    exact ⟨blocks₁, grown₁, hgrows.atMostOne, hgrows.kept, .inl ⟨rfl,
      h.of_kept (List.Subset.refl _) hslob hgrows.ledger hgrows.bigblocks
        fun address hcell ↦ hgrows.kept address (.inl hcell)⟩⟩
  · have hbb : bb ≠ 0 := by
      have hlive := (hslob.live_above List.mem_cons_self).1
      dsimp only at hlive
      omega
    simp only [if_neg hbb] at hcall
    obtain ⟨⟨kva, heap₂⟩, hget, hcall⟩ := bind_eq_ok.mp hcall
    obtain ⟨pages, hheap₂, hresult⟩ := slobGetFreePages_spec hcorrect hget hgrows.ledger
    subst hheap₂
    have horder := findOrder_toInt32_le size
    generalize findOrder (toInt32 size) = order at *
    have hread : kva < 2 ^ 64 →
        bigblockPages (setBigblockPages (setBigblockOrder heap₁.mem bb order) bb kva) bb = kva :=
      readPointer_writePointer
    rcases hresult with ⟨hnull, hledger⟩ | ⟨page, hkva, husable, hledger⟩
    · -- no pages: the descriptor goes back to the ring
      rw [hread (by omega), if_neg (by simpa using hnull)] at hcall
      obtain ⟨freed, hfree, hcall⟩ := bind_eq_ok.mp hcall
      obtain ⟨rfl, rfl⟩ := Prod.mk.inj (Except.ok.inj hcall)
      obtain ⟨hset, hset_kept⟩ :
          Slob image { heap₁ with
            mem := setBigblockPages (setBigblockOrder heap₁.mem bb order) bb kva
            pages := pages } blocks₁ (⟨bb, 32⟩ :: (small ++ entries.map BigBlock.units)) grown₁ ∧ _ :=
        setDescriptor hslob rfl fun address hnot ↦ setPages_kept hnot
      obtain ⟨blocks₂, hfreed, hbig, hpages, hfreed_kept⟩ := hset.free (descriptor_units _ bb) hfree
      have hall : ∀ address, Foreign image (small ++ entries.map BigBlock.units) grown₁ address →
          freed.mem address = heap.mem address := fun address hforeign ↦ by
        rw [hfreed_kept address hforeign, hset_kept address hforeign, hgrows.kept address hforeign]
      refine ⟨blocks₂, grown₁, hgrows.atMostOne, hall, .inl ⟨rfl,
        h.of_kept (List.Subset.refl _) hfreed ?_ ?_ fun address hcell ↦ hall address (.inl hcell)⟩⟩
      · rw [hpages]
        exact hledger
      · exact hbig.trans hgrows.bigblocks
    · have hpage : image.Usable page := husable page ⟨le_rfl, by simp⟩
      have hkva_pos : kva ≠ 0 := by
        have := hpage.2
        omega
      have hkva_lt : kva < 2 ^ 64 := by
        have := hpage.top_le
        unfold PGSIZE at this
        omega
      rw [hread hkva_lt, if_pos hkva_pos] at hcall
      obtain ⟨rfl, rfl⟩ := Prod.mk.inj (Except.ok.inj hcall)
      have hbig_lt : heap₁.bigblocks < 2 ^ 64 := hgrows.bigblocks ▸ h.bigblocks_lt
      generalize hwritten : setBigblockNext
        (setBigblockPages (setBigblockOrder heap₁.mem bb order) bb kva) bb heap₁.bigblocks = written
      obtain ⟨horder_read, hpages, hnext, hwrites⟩ :=
        setFields_spec horder hkva_lt hbig_lt hwritten.symm
      obtain ⟨hset, hset_kept⟩ :
          Slob image { heap₁ with mem := written, bigblocks := bb, pages := pages } blocks₁
            (⟨bb, 32⟩ :: (small ++ entries.map BigBlock.units)) grown₁ ∧ _ :=
        setDescriptor hslob rfl hwrites
      have hall : ∀ address, Foreign image (small ++ entries.map BigBlock.units) grown₁ address →
          written address = heap.mem address := fun address hforeign ↦
        (hset_kept address hforeign).trans (hgrows.kept address hforeign)
      refine ⟨blocks₁, grown₁, hgrows.atMostOne, hall,
        .inr ⟨bb, page, hpages.trans hkva, hpages.trans_ne hkva_pos, ?_⟩⟩
      exact h.enlist hset hledger (fun address hcell ↦ hall address (.inl hcell))
        ⟨horder_read, hpages.trans hkva⟩ rfl (hnext.trans hgrows.bigblocks) husable

/-! ## `kfree` -/

/-- The pointer cell behind the first entries of the big block list. -/
abbrev entryCell (front : List BigBlock) : BigblockCell :=
  lastCell (some ∘ BigBlock.descriptor) none front

theorem link_entryCell {front back : List BigBlock}
    (h : HeapBooks image heap blocks small (front ++ back) grown others) :
    bigblockLink heap (entryCell front) = (back.map BigBlock.descriptor).head?.getD 0 := by
  have hlist := h.list
  rw [List.map_append] at hlist
  have hlink := hlist.link_lastCell
  rwa [lastCell_map] at hlink

/-- The scan of `kfree` finds the entry whose pages start at `block`, if there is one. -/
theorem kfreeScan_spec {front back : List BigBlock} {fuel p : ℕ}
    {found : Option (BigblockCell × ℕ)}
    (h : HeapBooks image heap blocks small (front ++ back) grown others)
    (hscan : kfreeScan heap.mem p fuel (entryCell front) (bigblockLink heap (entryCell front)) =
      .ok found) :
    (found = none ∧ ∀ entry ∈ back, kvaOf entry.page ≠ p) ∨
      ∃ pre entry post, front ++ back = pre ++ entry :: post ∧ kvaOf entry.page = p ∧
        found = some (entryCell pre, entry.descriptor) := by
  induction fuel generalizing front back with
  | zero => simp [kfreeScan] at hscan
  | succ fuel ih =>
    rw [kfreeScan, h.link_entryCell] at hscan
    cases back with
    | nil => exact .inl ⟨by simpa [eq_comm] using hscan, by simp⟩
    | cons entry back =>
      have hmem : entry ∈ front ++ entry :: back := by simp
      have hpos := h.descriptor_above hmem
      have hnonzero : entry.descriptor ≠ 0 := by omega
      simp only [List.map_cons, List.head?_cons, Option.getD_some, if_neg hnonzero,
        (h.fields entry hmem).2] at hscan
      by_cases hpage : kvaOf entry.page = p
      · rw [if_pos hpage] at hscan
        exact .inr ⟨front, entry, back, rfl, hpage, (Except.ok.inj hscan).symm⟩
      · rw [if_neg hpage] at hscan
        have hcell : entryCell (front ++ [entry]) = some entry.descriptor := by simp [entryCell]
        have hnext : HeapBooks image heap blocks small ((front ++ [entry]) ++ back) grown others := by
          simpa using h
        rcases ih hnext (by rw [hcell]; exact hscan) with ⟨hnone, hothers⟩ | ⟨pre, other, post, hsplit, hfound⟩
        · refine .inl ⟨hnone, fun other hother ↦ ?_⟩
          rcases List.mem_cons.mp hother with rfl | hback
          · exact hpage
          · exact hothers other hback
        · exact .inr ⟨pre, other, post, by simpa using hsplit, hfound⟩

/-- Big blocks have different addresses. -/
theorem handles_nodup (h : HeapBooks image heap blocks small entries grown others) :
    (entries.map fun entry ↦ kvaOf entry.page).Nodup := by
  have hapart := (List.pairwise_append.mp h.ledger.apart).2.1
  rw [List.pairwise_map] at hapart
  rw [List.Nodup, List.pairwise_map]
  refine hapart.imp_of_mem fun {left right} hleft hright hdisjoint heq ↦ ?_
  have hpage : ∀ entry : BigBlock, entry.page ∈ entry.run.cells :=
    fun entry ↦ ⟨le_rfl, by simp [BigBlock.run]⟩
  have hsame : left.page = right.page := by
    have husable := h.lent left hleft _ (hpage left)
    have husable' := h.lent right hright _ (hpage right)
    rw [husable.kvaOf_eq, husable'.kvaOf_eq] at heq
    unfold page2ppn PGSIZE at heq
    omega
  exact Set.disjoint_left.mp hdisjoint (hpage left) (hsame ▸ hpage right)

/-- The pages of big blocks are not pages of the heap. -/
theorem not_heapBytes_of_entry (h : HeapBooks image heap blocks small entries grown others)
    (hentry : entry ∈ entries) {page address : ℕ} (hpage : page ∈ entry.run.cells)
    (haddress : address ∈ (pageBytes page).cells) : address ∉ heapBytes grown := by
  rintro ⟨bytes, hbytes, hcell⟩
  obtain ⟨other, hother, rfl⟩ := List.mem_map.mp hbytes
  have hdisjoint := (List.pairwise_append.mp h.ledger.apart).2.2 (singlePage other)
    (List.mem_map_of_mem hother) entry.run (List.mem_map_of_mem hentry)
  have hne : other ≠ page := by
    rintro rfl
    exact Set.disjoint_left.mp hdisjoint ⟨le_rfl, by simp [singlePage]⟩ hpage
  have husable := h.lent entry hentry page hpage
  exact Set.disjoint_left.mp ((h.slob.usable other hother).disjoint husable hne) hcell haddress

/-- No big block starts at the payload of a small one. -/
theorem ne_payload (h : HeapBooks image heap blocks small entries grown others)
    (hblock : block ∈ small) (hroom : 2 * SLOB_UNIT ≤ block.size) (hentry : entry ∈ entries) :
    kvaOf entry.page ≠ block.start + SLOB_UNIT := by
  intro hpage
  have hfirst : entry.page ∈ entry.run.cells := ⟨le_rfl, by simp [BigBlock.run]⟩
  have hbytes : block.start + SLOB_UNIT ∈ (pageBytes entry.page).cells := by
    rw [pageBytes, Block.mem_cells_mk, hpage]
    exact ⟨le_rfl, by simp [PGSIZE]⟩
  refine h.not_heapBytes_of_entry hentry hfirst hbytes ?_
  rw [← h.slob.partition]
  refine .inr ⟨block, List.mem_append_left _ hblock, ?_⟩
  rw [Block.mem_cells, Block.stop_eq]
  unfold SLOB_UNIT at *
  omega

theorem kfreeScan_small {fuel : ℕ} {found : Option (BigblockCell × ℕ)}
    (h : HeapBooks image heap blocks small entries grown others)
    (hapart : ∀ entry ∈ entries, kvaOf entry.page ≠ block.start + SLOB_UNIT)
    (hscan : kfreeScan heap.mem (block.start + SLOB_UNIT) fuel none heap.bigblocks = .ok found) :
    found = none := by
  rcases kfreeScan_spec (show HeapBooks image heap blocks small ([] ++ entries) grown others from h)
    hscan with ⟨hnone, -⟩ | ⟨pre, entry, post, hsplit, hpage, -⟩
  · exact hnone
  · refine absurd hpage (hapart entry ?_)
    rw [show entries = pre ++ entry :: post from hsplit]
    simp

/-- The pointer to a payload is not null, and the header lies one unit in front of it. -/
theorem payload (h : HeapBooks image heap blocks small entries grown others) (hblock : block ∈ small) :
    block.start + SLOB_UNIT ≠ 0 ∧ slobAdd (block.start + SLOB_UNIT) (-1) = block.start := by
  have hlive := h.slob.live_above (List.mem_append_left _ hblock)
  have hroom := h.size_ge hblock
  rw [Block.stop_eq] at hlive
  unfold slobAdd SLOB_UNIT at *
  omega

/-- Giving a small block back. -/
theorem kfreeSmall {fuel : ℕ} (h : HeapBooks image heap blocks small entries grown others)
    (hblock : block ∈ small) (hapart : ∀ entry ∈ entries, kvaOf entry.page ≠ block.start + SLOB_UNIT)
    (hcall : kfree image fuel heap (block.start + SLOB_UNIT) = .ok heap') :
    ∃ blocks', HeapBooks image heap' blocks' (small.erase block) entries grown others ∧
      heap'.bigblocks = heap.bigblocks ∧ heap'.pages = heap.pages ∧
      ∀ address, Foreign image (small.erase block ++ entries.map BigBlock.units) grown address →
        heap'.mem address = heap.mem address := by
  have hperm : small.Perm (block :: small.erase block) := List.perm_cons_erase hblock
  have hunits := h.headers block hblock
  obtain ⟨hnonzero, hback⟩ := h.payload hblock
  have hfree : slobFree fuel heap block.start 0 = .ok heap' := by
    unfold kfree at hcall
    rw [if_neg hnonzero, hback] at hcall
    split at hcall
    · obtain ⟨found, hscan, hcall⟩ := bind_eq_ok.mp hcall
      obtain rfl := h.kfreeScan_small hapart hscan
      exact hcall
    · exact hcall
  have hslob := h.slob.perm (hperm.append_right _)
  obtain ⟨blocks', hfreed, hbig, hpages, hkept⟩ := hslob.free (by simpa using hunits) hfree
  refine ⟨blocks', h.of_kept List.erase_subset hfreed ?_ hbig fun address hcell ↦
    hkept address (.inl hcell), hbig, hpages, hkept⟩
  rw [hpages]
  exact h.ledger

theorem descriptors_nodup (h : HeapBooks image heap blocks small entries grown others) :
    (entries.map BigBlock.descriptor).Nodup := by
  have hapart := (List.pairwise_append.mp h.slob.apart).2.1
  rw [List.pairwise_map] at hapart
  rw [List.Nodup, List.pairwise_map]
  refine hapart.imp fun {left right} hdisjoint heq ↦ ?_
  have hcell : ∀ entry : BigBlock, entry.descriptor ∈ entry.units.cells :=
    fun entry ↦ ⟨le_rfl, by rw [BigBlock.units_eq, Block.stop_mk]; omega⟩
  exact Set.disjoint_left.mp hdisjoint (hcell left) (heq ▸ hcell right)

theorem link_setBigblockLink {next : ℕ} (hnext : next < 2 ^ 64) (cell : BigblockCell) :
    bigblockLink (setBigblockLink heap next cell) cell = next := by
  cases cell with
  | none => rfl
  | some bb => exact readPointer_writePointer hnext

theorem link_setBigblockLink_of_ne {next : ℕ} {cell other : BigblockCell} (hne : other ≠ cell) :
    bigblockLink (setBigblockLink heap next cell) other = bigblockLink heap other := by
  cases cell with
  | none =>
    cases other with
    | none => exact absurd rfl hne
    | some bb => rfl
  | some bb =>
    cases other with
    | none => rfl
    | some bb' =>
      have hne' : bb' + 16 ≠ bb + 16 := fun heq ↦ hne (congrArg some (Nat.add_right_cancel heq))
      exact readPointer_congr (writePointer_of_ne hne')

theorem setBigblockLink_kept {next address : ℕ} {front : List BigBlock}
    (haddress : ∀ other ∈ front, address ≠ other.descriptor + 16) :
    (setBigblockLink heap next (entryCell front)).mem address = heap.mem address := by
  rcases List.eq_nil_or_concat front with rfl | ⟨pre, left, rfl⟩
  · rfl
  · have hcell : entryCell (pre.concat left) = some left.descriptor := by simp [entryCell]
    rw [hcell]
    exact writePointer_of_ne (haddress left (by simp))

/-- Taking an entry out of the big block list. -/
theorem unlink {front back : List BigBlock}
    (h : HeapBooks image heap blocks small (front ++ entry :: back) grown others) :
    Chain (bigblockLink (setBigblockLink heap (bigblockNext heap.mem entry.descriptor)
      (entryCell front))) some none ((front ++ back).map BigBlock.descriptor) 0 := by
  have hlist := h.list
  have hnodup := h.descriptors_nodup
  have hnext : bigblockNext heap.mem entry.descriptor < 2 ^ 64 := readPointer_lt
  rw [List.map_append] at hlist hnodup ⊢
  have hfront : (none :: (front.map BigBlock.descriptor).map some).Nodup := by
    refine List.nodup_cons.mpr ⟨by simp, ?_⟩
    exact (List.nodup_append.mp hnodup).1.map (Option.some_injective _)
  have hcell : lastCell some none (front.map BigBlock.descriptor) = entryCell front := lastCell_map
  refine hlist.splice hfront (fun cell _ hne ↦ link_setBigblockLink_of_ne (hcell ▸ hne)) ?_
  rw [hcell]
  have hafter : Chain (bigblockLink heap) some (some entry.descriptor)
      (back.map BigBlock.descriptor) 0 := (Chain.append_iff.mp hlist).2
  refine hafter.move (link_setBigblockLink hnext _) fun descriptor hdescriptor ↦ ?_
  refine link_setBigblockLink_of_ne fun heq ↦ ?_
  have hmem : some descriptor ∈ none :: front.map (some ∘ BigBlock.descriptor) :=
    heq ▸ lastCell_mem
  obtain ⟨other, hother, hsame⟩ : ∃ other ∈ front, other.descriptor = descriptor := by
    simpa using hmem
  have hcross := (List.nodup_append.mp hnodup).2.2 descriptor
    (List.mem_map.mpr ⟨other, hother, hsame⟩) descriptor (List.mem_cons_of_mem _ hdescriptor)
  exact hcross rfl

/-- The address of a big block is not null and that of a page. -/
theorem big_address (h : HeapBooks image heap blocks small entries grown others)
    (hentry : entry ∈ entries) :
    image.Usable entry.page ∧ kvaOf entry.page ≠ 0 ∧ kvaOf entry.page % PGSIZE = 0 := by
  have hpage : image.Usable entry.page :=
    h.lent entry hentry entry.page ⟨le_rfl, by simp [BigBlock.run]⟩
  refine ⟨hpage, ?_, ?_⟩
  · have := hpage.2
    omega
  · rw [hpage.kvaOf_eq]
    unfold PGSIZE va_pa_offset
    omega

/-- The heap once `kfree` has taken `entry` out of the list behind `front` and given its pages back. -/
def unlinked (heap : Heap allocator) (front : List BigBlock) (entry : BigBlock) : Heap allocator :=
  { setBigblockLink heap (bigblockNext heap.mem entry.descriptor) (entryCell front) with
    pages := allocator.freePages heap.pages entry.page (2 ^ entry.order) }

theorem setBigblockLink_state (heap : Heap allocator) (next : ℕ) (cell : BigblockCell) :
    (setBigblockLink heap next cell).pages = heap.pages ∧
      (setBigblockLink heap next cell).slobfree = heap.slobfree := by
  cases cell <;> exact ⟨rfl, rfl⟩

/-- The link of a descriptor lies in its units. -/
theorem link_mem_units (entry : BigBlock) : entry.descriptor + 16 ∈ entry.units.cells :=
  ⟨by simp [BigBlock.units_eq], by rw [BigBlock.units_eq, Block.stop_mk]; simp⟩

section Unlink

variable {front back : List BigBlock} {fuel : ℕ}
  (h : HeapBooks image heap blocks small (front ++ entry :: back) grown others)

include h

/-- The link that changes is not another field of a descriptor. -/
theorem fields_apart {left right : BigBlock} (hleft : left ∈ front ++ entry :: back)
    (hright : right ∈ front) :
    left.descriptor ≠ right.descriptor + 16 ∧ left.descriptor + 8 ≠ right.descriptor + 16 := by
  by_cases heq : left = right
  · subst heq
    omega
  · have hapart := (List.pairwise_append.mp h.slob.apart).2.1
    rw [List.pairwise_map] at hapart
    have hsymm : Std.Symm (fun x y : BigBlock ↦ Disjoint x.units.cells y.units.cells) :=
      ⟨fun _ _ hdisjoint ↦ hdisjoint.symm⟩
    have hdisjoint := hapart.forall hleft (List.mem_append_left _ hright) heq
    have hnot := Set.disjoint_right.mp hdisjoint (link_mem_units right)
    rw [BigBlock.units_eq, Block.mem_cells_mk] at hnot
    omega

theorem unlinked_kept {address : ℕ}
    (hforeign : Foreign image (small ++ (entry :: back).map BigBlock.units) grown address) :
    (unlinked heap front entry).mem address = heap.mem address := by
  refine setBigblockLink_kept fun right hright heq ↦ ?_
  have hcell : address ∈ right.units.cells := heq ▸ link_mem_units right
  rcases hforeign with ⟨block, hblock, hblock_cell⟩ | ⟨hnot, -⟩
  · have hapart := h.slob.apart
    have hperm : (small ++ (front ++ entry :: back).map BigBlock.units).Perm
        (front.map BigBlock.units ++ (small ++ (entry :: back).map BigBlock.units)) := by
      rw [List.map_append, ← List.append_assoc, ← List.append_assoc]
      exact List.perm_append_comm.append_right _
    have hperm_apart := (hperm.pairwise_iff fun {left right : Block}
      (hdisjoint : Disjoint left.cells right.cells) ↦ hdisjoint.symm).mp hapart
    have hdisjoint := (List.pairwise_append.mp hperm_apart).2.2 right.units
      (List.mem_map_of_mem hright) block hblock
    exact Set.disjoint_left.mp hdisjoint hcell hblock_cell
  · refine hnot ?_
    rw [← h.slob.partition]
    exact .inr ⟨_, mem_live_of_entry (List.mem_append_left _ hright), hcell⟩

theorem unlinked_fields {left : BigBlock} (hleft : left ∈ front ++ entry :: back) :
    (unlinked heap front entry).mem left.descriptor = heap.mem left.descriptor ∧
      (unlinked heap front entry).mem (left.descriptor + 8) = heap.mem (left.descriptor + 8) :=
  ⟨setBigblockLink_kept fun _ hright ↦ (h.fields_apart hleft hright).1,
    setBigblockLink_kept fun _ hright ↦ (h.fields_apart hleft hright).2⟩

/-- The descriptor of the entry is no longer in use but not yet in the ring. -/
theorem unlinked_slob : Slob image (unlinked heap front entry) blocks
    (entry.units :: (small ++ (front ++ back).map BigBlock.units)) grown := by
  have hperm : (small ++ (front ++ entry :: back).map BigBlock.units).Perm
      (entry.units :: (small ++ (front ++ back).map BigBlock.units)) := by
    simp only [List.map_append, List.map_cons, ← List.append_assoc]
    exact List.perm_middle
  refine ((h.slob.write (setBigblockLink_state _ _ _).2 fun address hnot ↦ ?_).perm hperm).withPages _
  refine setBigblockLink_kept fun right hright heq ↦ hnot (.inl ⟨right.units, ?_, ?_⟩)
  · exact mem_live_of_entry (List.mem_append_left _ hright)
  · exact heq ▸ link_mem_units right

theorem unlinked_ledger (hcorrect : allocator.Correct image.Usable) :
    Ledger allocator (unlinked heap front entry).pages
      (grown.map singlePage ++ (front ++ back).map BigBlock.run) others := by
  have hruns : (grown.map singlePage ++ (front ++ entry :: back).map BigBlock.run).Perm
      (entry.run :: (grown.map singlePage ++ (front ++ back).map BigBlock.run)) := by
    simp only [List.map_append, List.map_cons, ← List.append_assoc]
    exact List.perm_middle
  exact (h.ledger.perm hruns).free hcorrect

/-- The big path of `kfree` -/
theorem kfree_big {found : Option (BigblockCell × ℕ)}
    (hscan : kfreeScan heap.mem (kvaOf entry.page) fuel none heap.bigblocks = .ok found) :
    found = some (entryCell front, entry.descriptor) ∧
      kfree image fuel heap (kvaOf entry.page) =
        Ucore.slobFree fuel (unlinked heap front entry) entry.descriptor bigblockSize := by
  have hentry : entry ∈ front ++ entry :: back := by simp
  obtain ⟨hpage, hnonzero, haligned⟩ := h.big_address hentry
  have hfound : found = some (entryCell front, entry.descriptor) := by
    rcases kfreeScan_spec (show HeapBooks image heap blocks small
      ([] ++ (front ++ entry :: back)) grown others from h) hscan with
      ⟨-, hothers⟩ | ⟨pre, other, post, hsplit, hsame, hfound⟩
    · exact absurd rfl (hothers entry hentry)
    have hsplit : pre ++ other :: post = front ++ entry :: back := hsplit.symm
    have hnodup := h.handles_nodup
    obtain rfl : other = entry :=
      List.inj_on_of_nodup_map hnodup (hsplit ▸ by simp) hentry hsame
    have hentries := hsplit ▸ hnodup.of_map
    rw [List.nodup_middle, List.nodup_cons, List.mem_append, not_or] at hentries
    obtain ⟨rfl, -, -⟩ := (List.append_cons_inj_of_notMem hentries.1.1 hentries.1.2).mp hsplit
    exact hfound
  refine ⟨hfound, ?_⟩
  have horder : bigblockOrder (setBigblockLink heap (bigblockNext heap.mem entry.descriptor)
      (entryCell front)).mem entry.descriptor = entry.order :=
    (readInt_congr (h.unlinked_fields hentry).1).trans (h.fields entry hentry).1
  have hpages := (setBigblockLink_state heap (bigblockNext heap.mem entry.descriptor)
    (entryCell front)).1
  unfold kfree slobFreePages
  rw [if_neg hnonzero, if_pos haligned, hscan, hfound, ok_bind]
  dsimp only
  rw [kva2page_kvaOf image.npage_le hpage.1 hpage.base_le, ok_bind, horder, Int.toNat_natCast,
    hpages]
  rfl

/-- Taking the entry out takes out what the client held. -/
theorem handles_erase : ((front ++ entry :: back).map BigBlock.handle).erase entry.handle =
    (front ++ back).map BigBlock.handle := by
  have hnot : entry.handle ∉ front.map BigBlock.handle := by
    intro hmem
    have hnodup := h.handles_nodup
    obtain ⟨other, hfront, heq⟩ := List.mem_map.mp hmem
    rw [List.map_append, List.nodup_append] at hnodup
    exact hnodup.2.2 _ (List.mem_map_of_mem hfront) _ List.mem_cons_self (Prod.mk.inj heq).1
  rw [List.map_append, List.map_append, List.map_cons, List.erase_append_right _ hnot,
    List.erase_cons_head]

/-- Giving a big block back: its pages go to the page allocator, its descriptor to the ring. -/
theorem kfreeBig (hcorrect : allocator.Correct image.Usable)
    (hcall : kfree image fuel heap (kvaOf entry.page) = .ok heap') :
    ∃ blocks', HeapBooks image heap' blocks' small (front ++ back) grown others ∧
      heap'.pages = allocator.freePages heap.pages entry.page (2 ^ entry.order) ∧
      ∀ address, Foreign image small grown address → heap'.mem address = heap.mem address := by
  obtain ⟨-, hnonzero, haligned⟩ := h.big_address (show entry ∈ front ++ entry :: back by simp)
  have hwhole := hcall
  unfold kfree at hcall
  rw [if_neg hnonzero, if_pos haligned] at hcall
  obtain ⟨found, hscan, -⟩ := bind_eq_ok.mp hcall
  have hfree := (h.kfree_big hscan).2.symm.trans hwhole
  obtain ⟨blocks', hfreed, hbig, hpages, hkept⟩ := h.unlinked_slob.free (descriptor_units _ _) hfree
  have hsub : front ++ back ⊆ front ++ entry :: back :=
    ((List.sublist_cons_self entry back).append_left front).subset
  have hstays : ∀ address ∈ cover (small ++ (front ++ back).map BigBlock.units),
      heap'.mem address = (unlinked heap front entry).mem address :=
    fun address hcell ↦ hkept address (.inl hcell)
  refine ⟨blocks', ⟨hfreed, ?_, ?_, ?_, ?_, fun kept hmem ↦ h.lent kept (hsub hmem)⟩, hpages,
    fun address hforeign ↦ ?_⟩
  · rw [hpages]
    exact h.unlinked_ledger hcorrect
  · refine h.headers_congr (List.Subset.refl _) fun address hcell ↦ ?_
    rw [hstays address (by rw [cover_append]; exact .inl hcell)]
    exact h.unlinked_kept (.inl (by rw [cover_append]; exact .inl hcell))
  · refine h.fields_congr hsub fun kept hmem ↦ ⟨?_, ?_⟩
    · rw [hstays _ (descriptor_cells hmem (by omega))]
      exact (h.unlinked_fields (hsub hmem)).1
    · rw [hstays _ (descriptor_cells hmem (by omega))]
      exact (h.unlinked_fields (hsub hmem)).2
  · refine h.unlink.congr fun cell hcell ↦ ?_
    rcases List.mem_cons.mp hcell with rfl | hmem
    · exact hbig
    · obtain ⟨descriptor, hlinked, rfl⟩ := List.mem_map.mp hmem
      obtain ⟨kept, hlisted, rfl⟩ := List.mem_map.mp hlinked
      exact readPointer_congr (hstays _ (descriptor_cells hlisted (by omega)))
  · have hcells : ∀ {live : List Block}, address ∈ cover small →
        address ∈ cover (small ++ live) := fun hcell ↦ by
      rw [cover_append]
      exact .inl hcell
    exact (hkept address (hforeign.imp_left hcells)).trans
      (h.unlinked_kept (hforeign.imp_left hcells))

end Unlink

/-! ## What a balanced run leaves -/

/-- Two loans of single pages are of different pages. -/
theorem heapBytes_disjoint {taken : List ℕ}
    (h : HeapBooks image heap blocks small entries (taken ++ grown) others) :
    Disjoint (heapBytes taken) (heapBytes grown) := by
  rw [Set.disjoint_left]
  rintro address ⟨bytes, hbytes, hcell⟩ ⟨bytes', hbytes', hcell'⟩
  obtain ⟨page, hpage, rfl⟩ := List.mem_map.mp hbytes
  obtain ⟨page', hpage', rfl⟩ := List.mem_map.mp hbytes'
  have hapart := (List.pairwise_append.mp h.ledger.apart).1
  rw [List.map_append] at hapart
  have hloans := (List.pairwise_append.mp hapart).2.2 _ (List.mem_map_of_mem hpage) _
    (List.mem_map_of_mem hpage')
  have hne : page ≠ page' := by
    rintro rfl
    have hself : page ∈ (singlePage page).cells := ⟨le_rfl, by simp [singlePage]⟩
    exact Set.disjoint_left.mp hloans hself hself
  have husable := h.slob.usable page (List.mem_append_left _ hpage)
  have husable' := h.slob.usable page' (List.mem_append_right _ hpage')
  exact Set.disjoint_left.mp (husable.disjoint husable' hne) hcell hcell'

/-- When the same blocks are live as before, the free units are those from before and the pages that
the heap took meanwhile. -/
theorem balanced {blocks' small' : List Block} {taken : List ℕ}
    (h : HeapBooks image heap blocks small entries grown others)
    (h' : HeapBooks image heap' blocks' small' entries (taken ++ grown) others)
    (hperm : small'.Perm small) :
    freeBytes image heap' = freeBytes image heap ∪ heapBytes taken ∧
      Disjoint (freeBytes image heap) (heapBytes taken) ∧
      allocator.outstanding heap'.pages =
        allocator.outstanding heap.pages ∪ {loan | loan ∈ taken.map singlePage} := by
  have hpartition := h.slob.partition
  have hpartition' := (h'.perm hperm).slob.partition
  have hunused := h.slob.unused_cover
  have hunused' := (h'.perm hperm).slob.unused_cover
  have hdisjoint := h'.heapBytes_disjoint
  have hbytes : heapBytes (taken ++ grown) = heapBytes taken ∪ heapBytes grown := by
    rw [heapBytes, List.map_append, cover_append]
    rfl
  rw [hbytes] at hpartition'
  rw [h.slob.freeBytes_eq, h'.slob.freeBytes_eq]
  refine ⟨?_, ?_, ?_⟩
  · have htaken : heapBytes taken \ cover (small ++ entries.map BigBlock.units) = heapBytes taken :=
      sdiff_eq_left.mpr (Set.disjoint_of_subset_right (hpartition ▸ Set.subset_union_right) hdisjoint)
    calc cover blocks'
        = (heapBytes taken ∪ heapBytes grown) \ cover (small ++ entries.map BigBlock.units) := by
          rw [← hpartition', Set.union_sdiff_right, sdiff_eq_left.mpr hunused']
      _ = cover blocks ∪ heapBytes taken := by
          rw [Set.union_sdiff_distrib, htaken, ← hpartition, Set.union_sdiff_right,
            sdiff_eq_left.mpr hunused, Set.union_comm]
  · refine Set.disjoint_of_subset_left ?_ hdisjoint.symm
    rw [← hpartition]
    exact Set.subset_union_left
  · rw [h.ledger.outstanding, h'.ledger.outstanding]
    ext loan
    simp only [Set.mem_union, Set.mem_ofPred_eq, List.mem_append, List.map_append]
    tauto

end HeapBooks

/-! ## Blocks with a payload -/

namespace HeapInv

variable {allocator : PageAllocator} {image : KernelImage} {heap heap' : Heap allocator}
  {blocks small : List Block} {entries : List BigBlock} {grown : List ℕ} {others : Set Block}
  {block : Block} {entry : BigBlock}

theorem books (h : HeapInv image heap blocks small entries grown others) :
    HeapBooks image heap blocks small entries grown others :=
  ⟨h.slob, h.ledger, fun block hblock ↦ (h.headers block hblock).1, h.fields, h.list, h.lent⟩

theorem room (h : HeapInv image heap blocks small entries grown others) (hblock : block ∈ small) :
    2 * SLOB_UNIT ≤ block.size := (h.headers block hblock).2

theorem of_books (h : HeapBooks image heap blocks small entries grown others)
    (hroom : ∀ block ∈ small, 2 * SLOB_UNIT ≤ block.size) :
    HeapInv image heap blocks small entries grown others :=
  ⟨h.slob, h.ledger, fun block hblock ↦ ⟨h.headers block hblock, hroom block hblock⟩, h.fields,
    h.list, h.lent⟩

theorem perm {small' : List Block} (h : HeapInv image heap blocks small entries grown others)
    (hperm : small.Perm small') : HeapInv image heap blocks small' entries grown others :=
  of_books (h.books.perm hperm) fun _ hblock ↦ h.room (hperm.mem_iff.mpr hblock)

/-- Writes to the cells of clients cannot reach headers and descriptors. -/
theorem write {mem : Memory} (h : HeapInv image heap blocks small entries grown others)
    (hmem : ∀ address, ¬ ClientCell image small grown address → mem address = heap.mem address) :
    HeapInv image { heap with mem } blocks small entries grown others :=
  of_books (h.books.write hmem) fun _ hblock ↦ h.room hblock

theorem ne_payload (h : HeapInv image heap blocks small entries grown others)
    (hblock : block ∈ small) : ∀ entry ∈ entries, kvaOf entry.page ≠ block.start + SLOB_UNIT :=
  fun _ hentry ↦ h.books.ne_payload hblock (h.room hblock) hentry

/-- A small block becomes live. -/
theorem kmallocSmall {size fuel p : ℕ} (h : HeapInv image heap blocks small entries grown others)
    (hcorrect : allocator.Correct image.Usable) (hpos : 0 < size)
    (hsmall : size < PGSIZE - SLOB_UNIT)
    (hcall : kmalloc image fuel heap size = .ok (p, heap')) :
    ∃ blocks' grown', Grows image heap heap' (small ++ entries.map BigBlock.units)
        (entries.map BigBlock.run) others grown grown' ∧
      ((p = 0 ∧ HeapInv image heap' blocks' small entries grown' others) ∨
        (p ≠ 0 ∧ SLOB_UNIT ≤ p ∧ HeapInv image heap' blocks'
          (⟨p - SLOB_UNIT, SLOB_UNIT * SLOB_UNITS (size + SLOB_UNIT)⟩ :: small) entries grown'
          others)) := by
  have hunits : 2 ≤ SLOB_UNITS (size + SLOB_UNIT) := by
    unfold SLOB_UNITS SLOB_UNIT
    omega
  obtain ⟨blocks', grown', hgrows, ⟨hnull, hbooks⟩ | ⟨m, rfl, hbooks⟩⟩ :=
    h.books.kmallocSmall hcorrect (.inl hpos) hsmall hcall
  · exact ⟨blocks', grown', hgrows, .inl ⟨hnull, of_books hbooks fun _ hblock ↦ h.room hblock⟩⟩
  · have hlive := hbooks.slob.live_above List.mem_cons_self
    rw [Block.stop_mk] at hlive
    dsimp only at hlive
    have hadd : slobAdd m 1 = m + SLOB_UNIT :=
      slobAdd_eq (by simp) (by unfold SLOB_UNIT at *; omega)
    rw [hadd, Nat.add_sub_cancel]
    refine ⟨blocks', grown', hgrows, .inr ⟨by unfold SLOB_UNIT; omega, by omega, ?_⟩⟩
    refine of_books hbooks fun block hblock ↦ ?_
    rcases List.mem_cons.mp hblock with rfl | hmem
    · rw [Nat.mul_comm]
      exact Nat.mul_le_mul_left _ hunits
    · exact h.room hmem

/-- The same with the pages that the heap takes, one at most. -/
theorem kmalloc_taken {size fuel p : ℕ} (h : HeapInv image heap blocks small entries grown others)
    (hcorrect : allocator.Correct image.Usable) (hpos : 0 < size)
    (hsmall : size < PGSIZE - SLOB_UNIT)
    (hcall : kmalloc image fuel heap size = .ok (p, heap')) :
    ∃ blocks' taken, taken.length ≤ 1 ∧
      (∀ address, Foreign image (small ++ entries.map BigBlock.units) (taken ++ grown) address →
        heap'.mem address = heap.mem address) ∧
      ((p = 0 ∧ HeapInv image heap' blocks' small entries (taken ++ grown) others) ∨
        (p ≠ 0 ∧ SLOB_UNIT ≤ p ∧ HeapInv image heap' blocks'
          (⟨p - SLOB_UNIT, SLOB_UNIT * SLOB_UNITS (size + SLOB_UNIT)⟩ :: small) entries
          (taken ++ grown) others)) := by
  obtain ⟨blocks', grown', hgrows, hresult⟩ := h.kmallocSmall hcorrect hpos hsmall hcall
  obtain ⟨taken, htaken, rfl⟩ : ∃ taken : List ℕ, taken.length ≤ 1 ∧ grown' = taken ++ grown := by
    rcases hgrows.atMostOne with rfl | ⟨page, rfl⟩
    · exact ⟨[], by simp, rfl⟩
    · exact ⟨[page], le_rfl, rfl⟩
  exact ⟨blocks', taken, htaken, hgrows.kept, hresult⟩

/-- A big block becomes live: its descriptor heads the list. -/
theorem kmallocBig {size fuel p : ℕ} (h : HeapInv image heap blocks small entries grown others)
    (hcorrect : allocator.Correct image.Usable)
    (hcall : Ucore.kmallocBig image fuel heap size = .ok (p, heap')) :
    ∃ blocks' grown', (grown' = grown ∨ ∃ page, grown' = page :: grown) ∧
      (∀ address, Foreign image (small ++ entries.map BigBlock.units) grown' address →
        heap'.mem address = heap.mem address) ∧
      ((p = 0 ∧ HeapInv image heap' blocks' small entries grown' others) ∨
        ∃ bb page, p = kvaOf page ∧ p ≠ 0 ∧ HeapInv image heap' blocks' small
          (⟨bb, page, findOrder (toInt32 size)⟩ :: entries) grown' others) := by
  obtain ⟨blocks', grown', hgrown, hkept, hresult⟩ := h.books.kmallocBig hcorrect hcall
  refine ⟨blocks', grown', hgrown, hkept, hresult.imp (And.imp_right fun hbooks ↦ ?_) ?_⟩
  · exact of_books hbooks fun _ hblock ↦ h.room hblock
  · rintro ⟨bb, page, hp, hne, hbooks⟩
    exact ⟨bb, page, hp, hne, of_books hbooks fun _ hblock ↦ h.room hblock⟩

/-- Giving a small block back. -/
theorem kfreeSmall {fuel : ℕ} (h : HeapInv image heap blocks small entries grown others)
    (hblock : block ∈ small) (hcall : kfree image fuel heap (block.start + SLOB_UNIT) = .ok heap') :
    ∃ blocks', HeapInv image heap' blocks' (small.erase block) entries grown others ∧
      heap'.bigblocks = heap.bigblocks ∧ heap'.pages = heap.pages ∧
      ∀ address, Foreign image (small.erase block ++ entries.map BigBlock.units) grown address →
        heap'.mem address = heap.mem address := by
  obtain ⟨blocks', hbooks, hrest⟩ := h.books.kfreeSmall hblock (h.ne_payload hblock) hcall
  exact ⟨blocks', of_books hbooks fun _ hmem ↦ h.room (List.mem_of_mem_erase hmem), hrest⟩

/-- Giving a big block back -/
theorem kfreeBig {fuel : ℕ} (h : HeapInv image heap blocks small entries grown others)
    (hcorrect : allocator.Correct image.Usable) (hentry : entry ∈ entries)
    (hcall : kfree image fuel heap (kvaOf entry.page) = .ok heap') :
    ∃ blocks' entries', HeapInv image heap' blocks' small entries' grown others ∧
      entries'.map BigBlock.handle = (entries.map BigBlock.handle).erase entry.handle ∧
      heap'.pages = allocator.freePages heap.pages entry.page (2 ^ entry.order) ∧
      ∀ address, Foreign image small grown address → heap'.mem address = heap.mem address := by
  obtain ⟨front, back, rfl⟩ := List.append_of_mem hentry
  obtain ⟨blocks', hbooks, hpages, hkept⟩ := h.books.kfreeBig hcorrect hcall
  exact ⟨blocks', front ++ back, of_books hbooks fun _ hblock ↦ h.room hblock,
    h.books.handles_erase.symm, hpages, hkept⟩

/-- The bytes of pages that are lent to others lie outside the heap. -/
theorem outside_of_loan {loan : Block} {address : ℕ}
    (h : HeapInv image heap blocks small entries grown others) (hloan : loan ∈ others)
    (husable : ∀ page ∈ loan.cells, image.Usable page)
    (haddress : address ∈ Block.cells ⟨kvaOf loan.start, PGSIZE * loan.size⟩) :
    address ∉ heapBytes grown ∧ address ∉ Block.cells ⟨image.arena, SLOB_UNIT⟩ :=
  h.books.outside_of_loan hloan husable haddress

/-- When the same blocks are live as before, the free units are those from before and the pages that
the heap took meanwhile. -/
theorem balanced {blocks' small' : List Block} {taken : List ℕ}
    (h : HeapInv image heap blocks small entries grown others)
    (h' : HeapInv image heap' blocks' small' entries (taken ++ grown) others)
    (hperm : small'.Perm small) :
    freeBytes image heap' = freeBytes image heap ∪ heapBytes taken ∧
      Disjoint (freeBytes image heap) (heapBytes taken) ∧
      allocator.outstanding heap'.pages =
        allocator.outstanding heap.pages ∪ {loan | loan ∈ taken.map singlePage} :=
  h.books.balanced h'.books hperm

end HeapInv

end Ucore
