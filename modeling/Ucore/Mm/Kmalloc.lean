import Ucore.Foundation.Memory
import Ucore.Mm.Pmm

/-!
# The SLOB allocator (`kern/mm/kmalloc.c`)

Pointers are addresses and the headers of blocks live in memory: `units` fills the first doubleword
of a `slob_t` and `next` the second; a `bigblock_t` holds `order`, `pages` and `next` in its first
three. The static variables `slobfree` and `bigblocks` are fields of the state, `arena` is an object
of the kernel image. The loops take fuel.
-/

namespace Ucore

open Foundation Memory

/-- `sizeof(slob_t)` -/
def SLOB_UNIT : ℕ := 16

def SLOB_UNITS (size : ℕ) : ℕ := (size + SLOB_UNIT - 1) / SLOB_UNIT

/-- `sizeof(bigblock_t)` -/
def bigblockSize : ℕ := 24

/-- Where the linker puts `arena`, and how many pages `page_init` finds. -/
structure KernelImage where
  arena : ℕ
  npage : ℕ
  base_le_arena : KERNBASE ≤ arena
  arena_aligned : arena % 8 = 0
  arena_le_top : arena + SLOB_UNIT ≤ KERNTOP
  npage_le : npage ≤ KERNTOP / PGSIZE

/-- A page that lies strictly above the kernel image. -/
def KernelImage.Usable (image : KernelImage) (page : ℕ) : Prop :=
  page2ppn page < image.npage ∧ image.arena + SLOB_UNIT < kvaOf page

structure Heap (allocator : PageAllocator) where
  mem : Memory
  slobfree : ℕ
  bigblocks : ℕ
  pages : allocator.State

/-! ## Fields of a `slob_t` and of a `bigblock_t` -/

def slobUnits (mem : Memory) (b : ℕ) : ℤ := mem.readInt b
def slobNext (mem : Memory) (b : ℕ) : ℕ := mem.readPointer (b + 8)
def setSlobUnits (mem : Memory) (b : ℕ) (units : ℤ) : Memory := mem.writeInt b units
def setSlobNext (mem : Memory) (b next : ℕ) : Memory := mem.writePointer (b + 8) next

def bigblockOrder (mem : Memory) (bb : ℕ) : ℤ := mem.readInt bb
def bigblockPages (mem : Memory) (bb : ℕ) : ℕ := mem.readPointer (bb + 8)
def bigblockNext (mem : Memory) (bb : ℕ) : ℕ := mem.readPointer (bb + 16)
def setBigblockOrder (mem : Memory) (bb : ℕ) (order : ℤ) : Memory := mem.writeInt bb order
def setBigblockPages (mem : Memory) (bb pages : ℕ) : Memory := mem.writePointer (bb + 8) pages
def setBigblockNext (mem : Memory) (bb next : ℕ) : Memory := mem.writePointer (bb + 16) next

/-- `b + units` on a `slob_t *`. -/
def slobAdd (b : ℕ) (units : ℤ) : ℕ := ((b + SLOB_UNIT * units : ℤ) % 2 ^ 64).toNat

/-- `ALIGN(addr, size)` -/
def ALIGN (addr size : ℕ) : ℕ :=
  (BitVec.ofNat 64 (addr + size - 1) &&& ~~~BitVec.ofNat 64 (size - 1)).toNat

variable {allocator : PageAllocator}

/-- `__slob_get_free_pages`; a null pointer is `0`. -/
def slobGetFreePages (image : KernelImage) (heap : Heap allocator) (order : ℕ) :
    Except Fault (ℕ × Heap allocator) := do
  let (page, pages) := allocator.allocPages heap.pages (2 ^ order)
  let heap := { heap with pages }
  match page with
  | none => return (0, heap)
  | some page =>
    let kva ← page2kva image.npage page
    return (kva, heap)

/-- `__slob_free_pages` -/
def slobFreePages (image : KernelImage) (heap : Heap allocator) (kva order : ℕ) :
    Except Fault (Heap allocator) := do
  let page ← kva2page image.npage kva
  return { heap with pages := allocator.freePages heap.pages page (2 ^ order) }

/-! ## `slob_free` -/

/-- The loop that finds the reinsertion point of `b`. -/
def slobFreeScan (mem : Memory) (b : ℕ) : ℕ → ℕ → Except Fault ℕ
  | 0, _ => .error .outOfFuel
  | fuel + 1, cur =>
    let next := slobNext mem cur
    if b > cur ∧ b < next then .ok cur
    else if cur ≥ next ∧ (b > cur ∨ b < next) then .ok cur
    else slobFreeScan mem b fuel next

/-- Merge `b` with the block behind `cur`, or point it there. -/
def slobMergeNext (mem : Memory) (cur b : ℕ) : Memory :=
  if slobAdd b (slobUnits mem b) = slobNext mem cur then
    let mem := setSlobUnits mem b (slobUnits mem b + slobUnits mem (slobNext mem cur))
    setSlobNext mem b (slobNext mem (slobNext mem cur))
  else setSlobNext mem b (slobNext mem cur)

/-- Merge `cur` with `b`, or point it there. -/
def slobMergePrev (mem : Memory) (cur b : ℕ) : Memory :=
  if slobAdd cur (slobUnits mem cur) = b then
    let mem := setSlobUnits mem cur (slobUnits mem cur + slobUnits mem b)
    setSlobNext mem cur (slobNext mem b)
  else setSlobNext mem cur b

/-- Link `b` behind `cur` and merge it with both neighbours. -/
def slobInsert (mem : Memory) (cur b : ℕ) : Memory :=
  slobMergePrev (slobMergeNext mem cur b) cur b

def slobFree (fuel : ℕ) (heap : Heap allocator) (block size : ℕ) :
    Except Fault (Heap allocator) := do
  if block = 0 then return heap
  let mem := if size ≠ 0 then setSlobUnits heap.mem block (SLOB_UNITS size) else heap.mem
  let cur ← slobFreeScan mem block fuel heap.slobfree
  return { heap with mem := slobInsert mem cur block, slobfree := cur }

/-! ## `slob_alloc` -/

/-- Cut `units` units off the front of `cur`, which follows `prev`. -/
def slobTake (mem : Memory) (prev cur : ℕ) (units : ℤ) : Memory :=
  if slobUnits mem cur = units then setSlobNext mem prev (slobNext mem cur)
  else
    let mem := setSlobNext mem prev (slobAdd cur units)
    let mem := setSlobUnits mem (slobNext mem prev) (slobUnits mem cur - units)
    let mem := setSlobNext mem (slobNext mem prev) (slobNext mem cur)
    setSlobUnits mem cur units

/-- Split the head of `cur` off so that the rest starts at `aligned`. -/
def slobFragment (mem : Memory) (cur aligned : ℕ) (delta : ℤ) : Memory :=
  let mem := setSlobUnits mem aligned (slobUnits mem cur - delta)
  let mem := setSlobNext mem aligned (slobNext mem cur)
  let mem := setSlobNext mem cur aligned
  setSlobUnits mem cur delta

/-- The `for` loop of `slob_alloc`. -/
def slobAllocScan (image : KernelImage) (size align : ℕ) :
    ℕ → Heap allocator → ℕ → ℕ → Except Fault (ℕ × Heap allocator)
  | 0, _, _, _ => .error .outOfFuel
  | fuel + 1, heap, prev, cur => do
    let units : ℤ := SLOB_UNITS size
    let aligned := if align ≠ 0 then ALIGN cur align else 0
    let delta : ℤ := if align ≠ 0 then ((aligned : ℤ) - cur) / SLOB_UNIT else 0
    if slobUnits heap.mem cur ≥ units + delta then
      if delta ≠ 0 then
        let mem := slobFragment heap.mem cur aligned delta
        return (aligned, { heap with mem := slobTake mem cur aligned units, slobfree := cur })
      else
        return (cur, { heap with mem := slobTake heap.mem prev cur units, slobfree := prev })
    else if cur = heap.slobfree then
      if size = PGSIZE then return (0, heap)
      let (page, heap) ← slobGetFreePages image heap 0
      if page = 0 then return (0, heap)
      let heap ← slobFree fuel heap page PGSIZE
      slobAllocScan image size align fuel heap heap.slobfree (slobNext heap.mem heap.slobfree)
    else slobAllocScan image size align fuel heap cur (slobNext heap.mem cur)

def slobAlloc (image : KernelImage) (fuel : ℕ) (heap : Heap allocator) (size align : ℕ) :
    Except Fault (ℕ × Heap allocator) := do
  assert (size + SLOB_UNIT < PGSIZE)
  slobAllocScan image size align fuel heap heap.slobfree (slobNext heap.mem heap.slobfree)

/-! ## `kmalloc` and `kfree` -/

/-- `for (; size > 4096; size >>= 1) order++` on an `int`. -/
def findOrder (size : ℤ) : ℕ :=
  if size > 4096 then findOrder (size / 2) + 1 else 0
termination_by size.toNat
decreasing_by omega

/-- The value of a `size_t` that is passed as an `int`. -/
def toInt32 (size : ℕ) : ℤ := (BitVec.ofNat 32 size).toInt

/-- The branch of `__kmalloc` for a page and more. -/
def kmallocBig (image : KernelImage) (fuel : ℕ) (heap : Heap allocator) (size : ℕ) :
    Except Fault (ℕ × Heap allocator) := do
  let (bb, heap) ← slobAlloc image fuel heap bigblockSize 0
  if bb = 0 then return (0, heap)
  let order := findOrder (toInt32 size)
  let heap := { heap with mem := setBigblockOrder heap.mem bb order }
  let (pages, heap) ← slobGetFreePages image heap order
  let heap := { heap with mem := setBigblockPages heap.mem bb pages }
  if bigblockPages heap.mem bb ≠ 0 then
    let heap := { heap with mem := setBigblockNext heap.mem bb heap.bigblocks, bigblocks := bb }
    return (bigblockPages heap.mem bb, heap)
  let heap ← slobFree fuel heap bb bigblockSize
  return (0, heap)

def kmalloc (image : KernelImage) (fuel : ℕ) (heap : Heap allocator) (size : ℕ) :
    Except Fault (ℕ × Heap allocator) := do
  if size < PGSIZE - SLOB_UNIT then
    let (m, heap) ← slobAlloc image fuel heap (size + SLOB_UNIT) 0
    return (if m ≠ 0 then slobAdd m 1 else 0, heap)
  else kmallocBig image fuel heap size

/-- The pointer cells of the big block list: the variable `bigblocks`, or the `next` field of a
descriptor. -/
abbrev BigblockCell := Option ℕ

def bigblockLink (heap : Heap allocator) : BigblockCell → ℕ
  | none => heap.bigblocks
  | some bb => bigblockNext heap.mem bb

/-- `*last = next` -/
def setBigblockLink (heap : Heap allocator) (next : ℕ) : BigblockCell → Heap allocator
  | none => { heap with bigblocks := next }
  | some bb => { heap with mem := setBigblockNext heap.mem bb next }

/-- The loop of `kfree` over the big block list: the descriptor of `block` and the pointer cell that
leads to it. -/
def kfreeScan (mem : Memory) (block : ℕ) :
    ℕ → BigblockCell → ℕ → Except Fault (Option (BigblockCell × ℕ))
  | 0, _, _ => .error .outOfFuel
  | fuel + 1, last, bb =>
    if bb = 0 then .ok none
    else if bigblockPages mem bb = block then .ok (some (last, bb))
    else kfreeScan mem block fuel (some bb) (bigblockNext mem bb)

def kfree (image : KernelImage) (fuel : ℕ) (heap : Heap allocator) (block : ℕ) :
    Except Fault (Heap allocator) := do
  if block = 0 then return heap
  if block % PGSIZE = 0 then
    match ← kfreeScan heap.mem block fuel none heap.bigblocks with
    | some (last, bb) =>
      let heap := setBigblockLink heap (bigblockNext heap.mem bb) last
      let heap ← slobFreePages image heap block (bigblockOrder heap.mem bb).toNat
      slobFree fuel heap bb bigblockSize
    | none => slobFree fuel heap (slobAdd block (-1)) 0
  else slobFree fuel heap (slobAdd block (-1)) 0

/-! ## `ksize` -/

/-- The loop of `ksize` over the big block list. -/
def ksizeScan (mem : Memory) (block : ℕ) : ℕ → ℕ → Except Fault (Option ℕ)
  | 0, _ => .error .outOfFuel
  | fuel + 1, bb =>
    if bb = 0 then .ok none
    else if bigblockPages mem bb = block then .ok (some bb)
    else ksizeScan mem block fuel (bigblockNext mem bb)

/-- The size is returned as an `unsigned int`. -/
def ksize (fuel : ℕ) (heap : Heap allocator) (block : ℕ) : Except Fault ℕ := do
  if block = 0 then return 0
  let units := slobUnits heap.mem (slobAdd block (-1)) * SLOB_UNIT
  if block % PGSIZE = 0 then
    match ← ksizeScan heap.mem block fuel heap.bigblocks with
    | some bb => return (BitVec.ofInt 32 (PGSIZE * 2 ^ (bigblockOrder heap.mem bb).toNat)).toNat
    | none => return (BitVec.ofInt 32 units).toNat
  else return (BitVec.ofInt 32 units).toNat

/-- `static slob_t arena = {.next = &arena, .units = 1}; static slob_t *slobfree = &arena;` -/
def Heap.boot (image : KernelImage) (mem : Memory) (pages : allocator.State) : Heap allocator where
  mem := setSlobNext (setSlobUnits mem image.arena 1) image.arena image.arena
  slobfree := image.arena
  bigblocks := 0
  pages := pages

end Ucore
