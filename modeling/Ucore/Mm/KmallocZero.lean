import Ucore.Mm.KmallocDispatch

/-!
# Requests for no bytes

A request for no bytes takes one unit, as large as `arena`. It is served by the first block behind
`slobfree`, and where that is `arena` the client gets the node that holds the ring together; when
the ring has no other node it is not even unlinked. The payload of such a block is empty, so its
address can be that of a big block behind it, and `kfree` then frees that one. Runs that spare both
keep the blocks apart.
-/

namespace Ucore

open Foundation Memory

/-! ## What kinds of blocks share -/

/-- The memory of a big block -/
def BigBlock.bytes (entry : BigBlock) : Block := ⟨kvaOf entry.page, PGSIZE * 2 ^ entry.order⟩

namespace HeapBooks

variable {allocator : PageAllocator} {image : KernelImage} {heap : Heap allocator}
  {blocks small : List Block} {entries : List BigBlock} {grown : List ℕ} {others : Set Block}
  {entry : BigBlock}

/-- The bytes of a big block lie outside the heap. -/
theorem outside_of_entry (h : HeapBooks image heap blocks small entries grown others)
    (hentry : entry ∈ entries) {address : ℕ}
    (haddress : address ∈ Block.cells ⟨kvaOf entry.page, PGSIZE * 2 ^ entry.order⟩) :
    address ∉ heapBytes grown ∧ address ∉ Block.cells ⟨image.arena, SLOB_UNIT⟩ := by
  obtain ⟨page, hpage, hbytes⟩ := mem_pageBytes_of_run (h.lent entry hentry) haddress
  exact ⟨h.not_heapBytes_of_entry hentry hpage hbytes,
    (h.lent entry hentry page hpage).not_arena hbytes⟩

theorem bytes_apart (h : HeapBooks image heap blocks small entries grown others) :
    (entries.map BigBlock.bytes).Pairwise fun left right ↦ Disjoint left.cells right.cells := by
  have hruns := (List.pairwise_append.mp h.ledger.apart).2.1
  rw [List.pairwise_map] at hruns ⊢
  refine hruns.imp_of_mem fun {left right} hleft hright hdisjoint ↦ ?_
  have hbytes := runBytes_disjoint (h.lent left hleft) (h.lent right hright) hdisjoint
  rw [BigBlock.run, BigBlock.run] at hbytes
  exact hbytes

/-- All that is live is apart from each other. -/
theorem memory_apart (h : HeapBooks image heap blocks small entries grown others) :
    (small ++ entries.map BigBlock.bytes).Pairwise fun left right ↦ Disjoint left.cells right.cells := by
  refine List.pairwise_append.mpr
    ⟨(List.pairwise_append.mp h.slob.apart).1, h.bytes_apart, fun block hblock own hown ↦ ?_⟩
  obtain ⟨entry, hentry, rfl⟩ := List.mem_map.mp hown
  rw [Set.disjoint_left]
  intro address hcell hcell'
  refine (h.outside_of_entry hentry hcell').1 ?_
  rw [← h.slob.partition]
  exact .inr ⟨block, List.mem_append_left _ hblock, hcell⟩

/-- All that is live is apart from the nodes of the free ring. -/
theorem memory_unused (h : HeapBooks image heap blocks small entries grown others) {own free : Block}
    (hown : own ∈ small ++ entries.map BigBlock.bytes)
    (hfree : free ∈ ⟨image.arena, SLOB_UNIT⟩ :: blocks) : Disjoint own.cells free.cells := by
  rw [Set.disjoint_left]
  intro address hcell hcell'
  rcases List.mem_append.mp hown with hsmall | hbig
  · have hforeign : Foreign image (small ++ entries.map BigBlock.units) grown address :=
      .inl ⟨own, List.mem_append_left _ hsmall, hcell⟩
    obtain ⟨hnot, harena⟩ := h.slob.not_mem_of_foreign hforeign
    rcases List.mem_cons.mp hfree with rfl | hmem
    · exact harena hcell'
    · exact hnot ⟨free, hmem, hcell'⟩
  · obtain ⟨entry, hentry, rfl⟩ := List.mem_map.mp hbig
    obtain ⟨hheap, harena⟩ := h.outside_of_entry hentry hcell
    rcases List.mem_cons.mp hfree with rfl | hmem
    · exact harena hcell'
    · refine hheap ?_
      rw [← h.slob.partition]
      exact .inl ⟨free, hmem, hcell'⟩

end HeapBooks

namespace HeapWorld

variable {allocator : PageAllocator} {image : KernelImage} {world world' : HeapWorld allocator}

/-- The memory behind the results that are live, headers included -/
def memory (world : HeapWorld allocator) : List Block :=
  world.small ++ world.big.map fun handle ↦ ⟨handle.1, PGSIZE * 2 ^ handle.2⟩

/-! ## Runs -/

inductive Request where
  | kmalloc (size : ℕ)
  | kfreeSmall (block : Block)
  | kfreeBig (handle : ℕ × ℕ)
  | other

/-- A call with any size, or a step of `Step` that leaves the holdings of the clients alone. -/
inductive Serves (image : KernelImage) (world : HeapWorld allocator) :
    Request → HeapWorld allocator → Prop
  | kmallocNull {heap' : Heap allocator} {fuel size : ℕ}
      (hcall : kmalloc image fuel world.heap size = .ok (0, heap')) :
      Serves image world (.kmalloc size) { world with heap := heap' }
  | kmallocSmall {heap' : Heap allocator} {fuel size p : ℕ} (hsmall : size < PGSIZE - SLOB_UNIT)
      (hp : p ≠ 0) (hcall : kmalloc image fuel world.heap size = .ok (p, heap')) :
      Serves image world (.kmalloc size) { world with
        heap := heap'
        small := ⟨p - SLOB_UNIT, SLOB_UNIT * SLOB_UNITS (size + SLOB_UNIT)⟩ :: world.small }
  | kmallocBig {heap' : Heap allocator} {fuel size p : ℕ} (hbig : ¬ size < PGSIZE - SLOB_UNIT)
      (hp : p ≠ 0) (hcall : kmalloc image fuel world.heap size = .ok (p, heap')) :
      Serves image world (.kmalloc size) { world with
        heap := heap'
        big := (p, findOrder (toInt32 size)) :: world.big }
  | kfreeSmall {heap' : Heap allocator} {fuel : ℕ} {block : Block} (hblock : block ∈ world.small)
      (hcall : kfree image fuel world.heap (block.start + SLOB_UNIT) = .ok heap') :
      Serves image world (.kfreeSmall block)
        { world with heap := heap', small := world.small.erase block }
  | kfreeBig {heap' : Heap allocator} {fuel : ℕ} {handle : ℕ × ℕ} (hhandle : handle ∈ world.big)
      (hcall : kfree image fuel world.heap handle.1 = .ok heap') :
      Serves image world (.kfreeBig handle)
        { world with heap := heap', big := world.big.erase handle }
  | other {world' : HeapWorld allocator} (hstep : Step image world world')
      (hsmall : world'.small = world.small) (hbig : world'.big = world.big) :
      Serves image world .other world'

/-- The runs whose requests are `allowed` -/
inductive Run (image : KernelImage) (allowed : HeapWorld allocator → Request → Prop) :
    HeapWorld allocator → Prop
  | boot (mem : Memory) (pages : allocator.State) :
      Run image allowed ⟨Heap.boot image mem pages, [], [], allocator.outstanding pages⟩
  | step {world world' : HeapWorld allocator} {request : Request} (hworld : Run image allowed world)
      (hallowed : allowed world request) (hserves : Serves image world request world') :
      Run image allowed world'

/-- No unit is taken from `arena`, and no small block is given back whose payload starts where a big
block does. -/
def Sparing (image : KernelImage) (world : HeapWorld allocator) : Request → Prop
  | .kmalloc size => size = 0 → slobNext world.heap.mem world.heap.slobfree ≠ image.arena
  | .kfreeSmall block => ∀ handle ∈ world.big, handle.1 ≠ block.start + SLOB_UNIT
  | .kfreeBig _ | .other => True

/-! ## The invariant -/

/-- The books with blocks that are lost: the pointer to an empty payload at the top of the address
space is null. -/
def Kept (image : KernelImage) (world : HeapWorld allocator) : Prop :=
  ∃ blocks lost entries grown,
    HeapBooks image world.heap blocks (world.small ++ lost) entries grown world.others ∧
      world.big = entries.map BigBlock.handle

theorem kept_boot (mem : Memory) (pages : allocator.State) :
    Kept image ⟨Heap.boot image mem pages, [], [], allocator.outstanding pages⟩ := by
  obtain ⟨blocks, entries, grown, hinv, hbig⟩ : Sound image
      ⟨Heap.boot image mem pages, [], [], allocator.outstanding pages⟩ := sound_boot mem pages
  exact ⟨blocks, [], entries, grown, hinv.books, hbig⟩

theorem Kept.kmallocNull {heap' : Heap allocator} {fuel size : ℕ} (h : Kept image world)
    (hcorrect : allocator.Correct image.Usable) (hsparing : Sparing image world (.kmalloc size))
    (hcall : kmalloc image fuel world.heap size = .ok (0, heap')) :
    Kept image { world with heap := heap' } := by
  obtain ⟨blocks, lost, entries, grown, hbooks, hbig⟩ := h
  by_cases hsmall : size < PGSIZE - SLOB_UNIT
  · have hfirst : 0 < size ∨ slobNext world.heap.mem world.heap.slobfree ≠ image.arena :=
      (Nat.eq_zero_or_pos size).symm.imp_right hsparing
    obtain ⟨blocks', grown', -, ⟨-, hnext⟩ | ⟨m, -, hnext⟩⟩ :=
      hbooks.kmallocSmall hcorrect hfirst hsmall hcall
    · exact ⟨blocks', lost, entries, grown', hnext, hbig⟩
    · exact ⟨blocks', _ :: lost, entries, grown', hnext.perm List.perm_middle.symm, hbig⟩
  · rw [kmalloc, if_neg hsmall] at hcall
    obtain ⟨blocks', grown', -, -, ⟨-, hnext⟩ | ⟨bb, page, -, hp, -⟩⟩ :=
      hbooks.kmallocBig hcorrect hcall
    · exact ⟨blocks', lost, entries, grown', hnext, hbig⟩
    · exact absurd rfl hp

theorem Kept.kmallocSmall {heap' : Heap allocator} {fuel size p : ℕ} (h : Kept image world)
    (hcorrect : allocator.Correct image.Usable) (hsparing : Sparing image world (.kmalloc size))
    (hsmall : size < PGSIZE - SLOB_UNIT) (hp : p ≠ 0)
    (hcall : kmalloc image fuel world.heap size = .ok (p, heap')) :
    Kept image { world with
      heap := heap'
      small := ⟨p - SLOB_UNIT, SLOB_UNIT * SLOB_UNITS (size + SLOB_UNIT)⟩ :: world.small } := by
  obtain ⟨blocks, lost, entries, grown, hbooks, hbig⟩ := h
  have hfirst : 0 < size ∨ slobNext world.heap.mem world.heap.slobfree ≠ image.arena :=
    (Nat.eq_zero_or_pos size).symm.imp_right hsparing
  obtain ⟨blocks', grown', -, ⟨hnull, -⟩ | ⟨m, rfl, hnext⟩⟩ :=
    hbooks.kmallocSmall hcorrect hfirst hsmall hcall
  · exact absurd hnull hp
  · have hlive := hnext.slob.live_above List.mem_cons_self
    have hroom := hnext.size_ge List.mem_cons_self
    rw [Block.stop_mk] at hlive
    dsimp only at hlive hroom
    have hback : slobAdd m 1 - SLOB_UNIT = m := by
      unfold slobAdd at hp ⊢
      unfold SLOB_UNIT at *
      omega
    rw [hback]
    exact ⟨blocks', lost, entries, grown', hnext, hbig⟩

/-- A step of the other kind changes nothing but payloads and the loans of others. -/
theorem Kept.other (h : Kept image world) (hcorrect : allocator.Correct image.Usable)
    (hstep : Step image world world') (hsmall : world'.small = world.small)
    (hbig : world'.big = world.big) : Kept image world' := by
  have hsame {α : Type} [BEq α] [LawfulBEq α] {member : α} {holdings : List α} :
      (member :: holdings ≠ holdings) ∧ (member ∈ holdings → holdings.erase member ≠ holdings) :=
    ⟨List.cons_ne_self _ _, fun hmem heq ↦ by
      have hlength := List.length_erase_of_mem hmem
      have hpos := List.length_pos_of_mem hmem
      rw [heq] at hlength
      omega⟩
  cases hstep with
  | kmallocNull hsize hcall =>
    exact h.kmallocNull hcorrect (fun hzero ↦ absurd hzero hsize.ne') hcall
  | kmallocSmall => exact absurd hsmall hsame.1
  | kmallocBig => exact absurd hbig hsame.1
  | kfreeSmall hblock => exact absurd hsmall (hsame.2 hblock)
  | kfreeBig hhandle => exact absurd hbig (hsame.2 hhandle)
  | write hmem =>
    obtain ⟨blocks, lost, entries, grown, hbooks, hentries⟩ := h
    refine ⟨blocks, lost, entries, grown, hbooks.write fun address hnot ↦ hmem address ?_, hentries⟩
    refine fun hwritable ↦ hnot ((hwritable.cell hbooks subset_rfl hentries).imp_left ?_)
    rintro ⟨block, hblock, hcell⟩
    exact ⟨block, List.mem_append_left _ hblock, hcell⟩
  | otherAlloc hn halloc =>
    obtain ⟨blocks, lost, entries, grown, hbooks, hentries⟩ := h
    exact ⟨blocks, lost, entries, grown, { hbooks with
      slob := hbooks.slob.withPages _
      ledger := hbooks.ledger.lend hcorrect hn halloc }, hentries⟩
  | otherAllocNull halloc =>
    obtain ⟨blocks, lost, entries, grown, hbooks, hentries⟩ := h
    exact ⟨blocks, lost, entries, grown, { hbooks with
      slob := hbooks.slob.withPages _
      ledger := hbooks.ledger.allocNull hcorrect halloc }, hentries⟩
  | otherFree hloan =>
    obtain ⟨blocks, lost, entries, grown, hbooks, hentries⟩ := h
    exact ⟨blocks, lost, entries, grown, { hbooks with
      slob := hbooks.slob.withPages _
      ledger := hbooks.ledger.giveBack hcorrect hloan }, hentries⟩

/-- What a request must spare in terms of the entries -/
theorem Sparing.apart {entries : List BigBlock} {block : Block}
    (h : Sparing image world (.kfreeSmall block)) (hbig : world.big = entries.map BigBlock.handle) :
    ∀ entry ∈ entries, kvaOf entry.page ≠ block.start + SLOB_UNIT :=
  fun entry hentry ↦ h entry.handle (hbig ▸ List.mem_map_of_mem hentry)

theorem Kept.serves {request : Request} (h : Kept image world)
    (hcorrect : allocator.Correct image.Usable) (hsparing : Sparing image world request)
    (hserves : Serves image world request world') : Kept image world' := by
  cases hserves with
  | kmallocNull hcall => exact h.kmallocNull hcorrect hsparing hcall
  | kmallocSmall hsmall hp hcall => exact h.kmallocSmall hcorrect hsparing hsmall hp hcall
  | kmallocBig hlarge hp hcall =>
    obtain ⟨blocks, lost, entries, grown, hbooks, hbig⟩ := h
    rw [kmalloc, if_neg hlarge] at hcall
    obtain ⟨blocks', grown', -, -, ⟨hnull, -⟩ | ⟨bb, page, hkva, -, hnext⟩⟩ :=
      hbooks.kmallocBig hcorrect hcall
    · exact absurd hnull hp
    · refine ⟨blocks', lost, _, grown', hnext, ?_⟩
      rw [List.map_cons, ← hbig, hkva]
      rfl
  | kfreeSmall hblock hcall =>
    obtain ⟨blocks, lost, entries, grown, hbooks, hbig⟩ := h
    obtain ⟨blocks', hnext, -⟩ :=
      hbooks.kfreeSmall (List.mem_append_left _ hblock) (hsparing.apart hbig) hcall
    rw [List.erase_append_left _ hblock] at hnext
    exact ⟨blocks', lost, entries, grown, hnext, hbig⟩
  | kfreeBig hhandle hcall =>
    obtain ⟨blocks, lost, entries, grown, hbooks, hbig⟩ := h
    rw [hbig] at hhandle
    obtain ⟨entry, hentry, rfl⟩ := List.mem_map.mp hhandle
    obtain ⟨front, back, rfl⟩ := List.append_of_mem hentry
    obtain ⟨blocks', hnext, -⟩ := hbooks.kfreeBig hcorrect hcall
    exact ⟨blocks', lost, front ++ back, grown, hnext, by rw [hbig, hbooks.handles_erase]⟩
  | other hstep hsmall hbig => exact h.other hcorrect hstep hsmall hbig

theorem Run.kept (h : Run image (Sparing image) world) (hcorrect : allocator.Correct image.Usable) :
    Kept image world := by
  induction h with
  | boot mem pages => exact kept_boot mem pages
  | step _ hsparing hserves ih => exact ih.serves hcorrect hsparing hserves

/-- In every run that spares `arena` and the big blocks that start at an empty payload, all that is
live is apart from each other and from the nodes of the free ring, and every call comes to an end. -/
theorem kmalloc_zero_safe (hcorrect : allocator.Correct image.Usable)
    (hworld : Run image (Sparing image) world) :
    world.memory.Pairwise (fun left right ↦ Disjoint left.cells right.cells) ∧
    (∃ blocks, FreeRing image.arena world.heap.mem blocks ∧
      ∀ own ∈ world.memory, ∀ free ∈ ⟨image.arena, SLOB_UNIT⟩ :: blocks,
        Disjoint own.cells free.cells) ∧
    ∃ least, ∀ fuel ≥ least,
      (∀ size, kmalloc image fuel world.heap size ≠ .error .outOfFuel) ∧
      (∀ block ∈ world.small, Sparing image world (.kfreeSmall block) →
        ∃ heap', kfree image fuel world.heap (block.start + SLOB_UNIT) = .ok heap') ∧
      ∀ handle ∈ world.big, ∃ heap', kfree image fuel world.heap handle.1 = .ok heap' := by
  obtain ⟨blocks, lost, entries, grown, hbooks, hbig⟩ := hworld.kept hcorrect
  have hmemory : world.memory.Sublist ((world.small ++ lost) ++ entries.map BigBlock.bytes) := by
    have hbytes : world.memory = world.small ++ entries.map BigBlock.bytes := by
      rw [memory, hbig, List.map_map]
      rfl
    rw [hbytes]
    exact (List.sublist_append_left _ _).append_right _
  refine ⟨hbooks.memory_apart.sublist hmemory, ⟨blocks, hbooks.slob.ring, fun own hown free hfree ↦
    hbooks.memory_unused (hmemory.subset hown) hfree⟩, 2 ^ 67 + entries.length + 1,
    fun fuel hfuel ↦ ⟨fun size ↦ ?_, fun block hblock hsparing ↦ ?_, fun handle hhandle ↦ ?_⟩⟩
  · by_cases hsize : 4064 ≤ size ∧ size < 4080
    · rw [kmalloc_panics world.heap fuel hsize.1 hsize.2]
      exact nofun
    · obtain ⟨outcome, hcall⟩ :=
        hbooks.kmalloc_returns hcorrect hsize (show 2 ^ 67 ≤ fuel by omega)
      rw [hcall]
      exact nofun
  · exact hbooks.kfreeSmall_returns (List.mem_append_left _ hblock) (hsparing.apart hbig)
      (show ringFuel ≤ fuel by unfold ringFuel; omega) (by omega)
  · rw [hbig] at hhandle
    obtain ⟨entry, hentry, rfl⟩ := List.mem_map.mp hhandle
    obtain ⟨front, back, rfl⟩ := List.append_of_mem hentry
    exact hbooks.kfreeBig_returns (show ringFuel ≤ fuel by unfold ringFuel; omega) (by omega)

/-- What is not spared goes wrong at once: the client gets `arena` itself, or the pages of the big block
are given back instead of the small one. -/
theorem not_sparing (hcorrect : allocator.Correct image.Usable)
    (hworld : Run image (Sparing image) world) :
    (∀ fuel p heap', ¬ Sparing image world (.kmalloc 0) →
      kmalloc image fuel world.heap 0 = .ok (p, heap') → p = image.arena + SLOB_UNIT) ∧
    ∀ block, ¬ Sparing image world (.kfreeSmall block) →
      ∃ least, ∀ fuel ≥ least, TakesBigPath fuel world.heap (block.start + SLOB_UNIT) := by
  obtain ⟨blocks, lost, entries, grown, hbooks, hbig⟩ := hworld.kept hcorrect
  refine ⟨fun fuel p heap' hnot hcall ↦ ?_, fun block hnot ↦ ?_⟩
  · have harena : slobNext world.heap.mem world.heap.slobfree = image.arena :=
      not_not.mp fun hne ↦ hnot fun _ ↦ hne
    unfold kmalloc at hcall
    rw [if_pos (by decide)] at hcall
    obtain ⟨⟨m, next⟩, halloc, hcall⟩ := bind_eq_ok.mp hcall
    obtain ⟨hp, -⟩ := Prod.mk.inj (Except.ok.inj hcall)
    obtain ⟨hm, -⟩ := slobAlloc_first hbooks.slob rfl halloc
    have hbase := image.base_le_arena
    have htop := image.arena_le_top
    unfold KERNTOP KERNBASE KMEMSIZE at *
    rw [← hp, hm, harena, if_pos (by omega)]
    exact slobAdd_eq (by simp) (by omega)
  · simp only [Sparing, not_forall, not_not] at hnot
    obtain ⟨handle, hhandle, haddress⟩ := hnot
    rw [hbig] at hhandle
    obtain ⟨entry, hentry, rfl⟩ := List.mem_map.mp hhandle
    have haddress : kvaOf entry.page = block.start + SLOB_UNIT := haddress
    obtain ⟨-, -, haligned⟩ := hbooks.big_address hentry
    refine ⟨entries.length + 1, fun fuel hfuel ↦ ?_⟩
    obtain ⟨cell, hscan⟩ := hbooks.scan_big hentry hfuel
    rw [← haddress]
    exact ⟨haligned, cell, _, hscan⟩

/-- `kmalloc(100)` and `kmalloc(0)` after boot; the unit is the one behind the block. -/
def sampleZero : Except Fault ((ℕ × Heap (PageAllocator.firstFit 0x20A 16)) ×
    (ℕ × Heap (PageAllocator.firstFit 0x20A 16))) := do
  let block ← kmalloc sampleImage 8 bootHeap 100
  let unit ← kmalloc sampleImage 8 block.2 0
  return (block, unit)

theorem kmalloc_zero_safe_sample : ∃ world : HeapWorld (PageAllocator.firstFit 0x20A 16),
    world.small = [⟨0xFFFFFFFFC020A080, 16⟩, ⟨0xFFFFFFFFC020A000, 128⟩] ∧
      world.memory.Pairwise fun left right ↦ Disjoint left.cells right.cells := by
  have hcalls : sampleZero.toOption.any (fun outcome ↦
      outcome.1.1 = 0xFFFFFFFFC020A010 ∧ outcome.2.1 = 0xFFFFFFFFC020A090 ∧
        slobNext outcome.1.2.mem outcome.1.2.slobfree ≠ sampleImage.arena) = true := by
    decide +kernel
  obtain ⟨outcome, hreturn, hp⟩ := Option.any_eq_true _ _ |>.mp hcalls
  obtain ⟨hfirst, hsecond, hspared⟩ := of_decide_eq_true hp
  obtain ⟨⟨p, heap₁⟩, hcall, hreturn⟩ := bind_eq_ok.mp (toOption_eq_some.mp hreturn)
  obtain ⟨⟨q, heap₂⟩, hcall', hreturn⟩ := bind_eq_ok.mp hreturn
  obtain rfl := Except.ok.inj hreturn
  obtain rfl : p = 0xFFFFFFFFC020A010 := hfirst
  obtain rfl : q = 0xFFFFFFFFC020A090 := hsecond
  have hboot : Run sampleImage (Sparing sampleImage) ⟨bootHeap, [], [],
      (PageAllocator.firstFit 0x20A 16).outstanding bootHeap.pages⟩ := .boot _ _
  have hblock := hboot.step (show Sparing sampleImage _ (.kmalloc 100) from nofun)
    (.kmallocSmall (by decide) (by decide) hcall)
  have hunit := hblock.step (show Sparing sampleImage _ (.kmalloc 0) from fun _ ↦ hspared)
    (.kmallocSmall (by decide) (by decide) hcall')
  exact ⟨_, rfl, (kmalloc_zero_safe (PageAllocator.firstFit_correct fun _ ↦ sampleImage_usable)
    hunit).1⟩

/-- Two requests for no bytes after boot -/
def sampleTwice : Except Fault ((ℕ × Heap (PageAllocator.firstFit 0x20A 16)) ×
    (ℕ × Heap (PageAllocator.firstFit 0x20A 16))) := do
  let first ← kmalloc sampleImage 8 bootHeap 0
  let second ← kmalloc sampleImage 8 first.2 0
  return (first, second)

/-- Both get `arena`. -/
theorem kmalloc_zero_twice :
    ¬ ∀ world : HeapWorld (PageAllocator.firstFit 0x20A 16),
      Run sampleImage (fun _ _ ↦ True) world →
        world.memory.Pairwise fun left right ↦ Disjoint left.cells right.cells := by
  intro hall
  have hcalls : sampleTwice.toOption.any (fun outcome ↦
      outcome.1.1 = 0xFFFFFFFFC0209040 ∧ outcome.2.1 = 0xFFFFFFFFC0209040) = true := by
    decide +kernel
  obtain ⟨outcome, hreturn, hp⟩ := Option.any_eq_true _ _ |>.mp hcalls
  obtain ⟨hfirst, hsecond⟩ := of_decide_eq_true hp
  obtain ⟨⟨p, heap₁⟩, hcall, hreturn⟩ := bind_eq_ok.mp (toOption_eq_some.mp hreturn)
  obtain ⟨⟨q, heap₂⟩, hcall', hreturn⟩ := bind_eq_ok.mp hreturn
  obtain rfl := Except.ok.inj hreturn
  obtain rfl : p = 0xFFFFFFFFC0209040 := hfirst
  obtain rfl : q = 0xFFFFFFFFC0209040 := hsecond
  have hboot : Run sampleImage (fun _ _ ↦ True) ⟨bootHeap, [], [],
      (PageAllocator.firstFit 0x20A 16).outstanding bootHeap.pages⟩ := .boot _ _
  have hone := hboot.step trivial (.kmallocSmall (by decide) (by decide) hcall)
  have htwo := hone.step trivial (.kmallocSmall (by decide) (by decide) hcall')
  have hapart := (List.pairwise_cons.mp (hall _ htwo)).1 _ List.mem_cons_self
  exact Set.disjoint_left.mp hapart (show sampleImage.arena ∈ _ by
    rw [Block.mem_cells_mk]
    decide) (show sampleImage.arena ∈ _ by
    rw [Block.mem_cells_mk]
    decide)

end HeapWorld

end Ucore
