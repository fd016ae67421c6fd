import Ucore.Foundation.Logging
import Ucore.Mm.KmallocReturns
import Ucore.Process.IntrFlags

/-!
# Interrupts in the allocators

`alloc_pages`, `free_pages`, `nr_free_pages` and the functions of `kern/mm/kmalloc.c` with
`sstatus` in the state and a log of the data they access, each with the flag `SIE` at that time. The
locks of `kmalloc.c` are `local_intr_save` and `local_intr_restore`. Without these two the functions
are those of `Kmalloc.lean`.
-/

namespace Ucore

open Foundation Memory

/-- What a call accesses: the header of a node of the free ring, the variables `slobfree` and
`bigblocks`, the `next` field of a descriptor of the big block list, its other fields, the free list
of pages with `nr_free`, and the header of a block or the descriptor that is in no list. -/
inductive Access where
  | slob (b : ℕ)
  | slobfree
  | bigblocks
  | bigblockNext (bb : ℕ)
  | bigblockData (bb : ℕ)
  | pages
  | own (block : ℕ)
  deriving DecidableEq

structure IntrHeap (allocator : PageAllocator) where
  heap : Heap allocator
  sstatus : BitVec 64
  accesses : List (Access × Bool)

abbrev Intr (allocator : PageAllocator) := StateT (IntrHeap allocator) (Except Fault)

namespace Intr

variable {allocator : PageAllocator} {α : Type}

def touch (accesses : List Access) : Intr allocator Unit :=
  modify fun state ↦
    { state with accesses := state.accesses ++ accesses.map fun what ↦ (what, sie state.sstatus) }

def heap : Intr allocator (Heap allocator) := do return (← get).heap

def update (change : Heap allocator → Heap allocator) : Intr allocator Unit :=
  modify fun state ↦ { state with heap := change state.heap }

/-- What the page allocator returns, with its next state -/
def manager (call : allocator.State → α × allocator.State) : Intr allocator α :=
  modifyGet fun state ↦
    ((call state.heap.pages).1,
      { state with heap := { state.heap with pages := (call state.heap.pages).2 } })

def localIntrSave : Intr allocator Bool :=
  modifyGet fun state ↦
    ((intrSave state.sstatus).1, { state with sstatus := (intrSave state.sstatus).2 })

def localIntrRestore (flag : Bool) : Intr allocator Unit :=
  modify fun state ↦ { state with sstatus := intrRestore state.sstatus flag }

/-- The macros of the addresses panic or have a value. -/
def lift (result : Except Fault α) : Intr allocator α :=
  match result with
  | .ok value => pure value
  | .error fault => throw fault

/-! ## `pmm.c` -/

def allocPages (n : ℕ) : Intr allocator (Option ℕ) := do
  let flag ← localIntrSave
  touch [.pages]
  let page ← manager (allocator.allocPages · n)
  localIntrRestore flag
  return page

def freePages (base n : ℕ) : Intr allocator Unit := do
  let flag ← localIntrSave
  touch [.pages]
  manager fun pages ↦ ((), allocator.freePages pages base n)
  localIntrRestore flag

/-- `nrFree` is what the manager counts. -/
def nrFreePages (nrFree : allocator.State → ℕ) : Intr allocator ℕ := do
  let flag ← localIntrSave
  touch [.pages]
  let ret ← manager fun pages ↦ (nrFree pages, pages)
  localIntrRestore flag
  return ret

/-! ## `kmalloc.c` -/

def slobGetFreePages (image : KernelImage) (order : ℕ) : Intr allocator ℕ := do
  match ← allocPages (2 ^ order) with
  | none => return 0
  | some page => lift (page2kva image.npage page)

def slobFreePages (image : KernelImage) (kva order : ℕ) : Intr allocator Unit := do
  let page ← lift (kva2page image.npage kva)
  freePages page (2 ^ order)

def slobFreeScan (b : ℕ) : ℕ → ℕ → Intr allocator ℕ
  | 0, _ => throw .outOfFuel
  | fuel + 1, cur => do
    touch [.slob cur]
    let heap ← heap
    let next := slobNext heap.mem cur
    if b > cur ∧ b < next then return cur
    else if cur ≥ next ∧ (b > cur ∨ b < next) then return cur
    else slobFreeScan b fuel next

/-- The headers that merging with the block behind `cur` accesses -/
def mergeNextAccesses (mem : Memory) (cur b : ℕ) : List Access :=
  if slobAdd b (slobUnits mem b) = slobNext mem cur then
    [.slob b, .slob cur, .slob (slobNext mem cur)]
  else [.slob b, .slob cur]

/-- `if (size) b->units = SLOB_UNITS(size);` -/
def setUnits (block size : ℕ) : Intr allocator Unit :=
  if size ≠ 0 then do
    touch [.own block]
    update fun heap ↦ { heap with mem := setSlobUnits heap.mem block (SLOB_UNITS size) }
  else pure ()

def slobFree (fuel block size : ℕ) : Intr allocator Unit := do
  if block = 0 then return
  setUnits block size
  let flags ← localIntrSave
  touch [.slobfree]
  let cur ← slobFreeScan block fuel (← heap).slobfree
  touch (mergeNextAccesses (← heap).mem cur block)
  update fun heap ↦ { heap with mem := slobMergeNext heap.mem cur block }
  touch [.slob cur, .slob block]
  update fun heap ↦ { heap with mem := slobMergePrev heap.mem cur block }
  touch [.slobfree]
  update fun heap ↦ { heap with slobfree := cur }
  localIntrRestore flags

/-- The headers that cutting units off `cur` accesses -/
def takeAccesses (mem : Memory) (prev cur : ℕ) (units : ℤ) : List Access :=
  if slobUnits mem cur = units then [.slob cur, .slob prev]
  else [.slob cur, .slob prev, .slob (slobAdd cur units)]

/-- The exit of the loop of `slob_alloc` with a block -/
def slobAllocTake (flags : Bool) (prev cur : ℕ) (units : ℤ) : Intr allocator ℕ := do
  touch (takeAccesses (← heap).mem prev cur units)
  update fun heap ↦ { heap with mem := slobTake heap.mem prev cur units }
  touch [.slobfree]
  update fun heap ↦ { heap with slobfree := prev }
  localIntrRestore flags
  return cur

def slobAllocScan (image : KernelImage) (size align : ℕ) :
    ℕ → Bool → ℕ → ℕ → Intr allocator ℕ
  | 0, _, _, _ => throw .outOfFuel
  | fuel + 1, flags, prev, cur => do
    touch [.slob cur]
    let state ← heap
    let units : ℤ := SLOB_UNITS size
    let aligned := if align ≠ 0 then ALIGN cur align else 0
    let delta : ℤ := if align ≠ 0 then ((aligned : ℤ) - cur) / SLOB_UNIT else 0
    if slobUnits state.mem cur ≥ units + delta then
      if delta ≠ 0 then
        touch [.slob aligned, .slob cur]
        update fun heap ↦ { heap with mem := slobFragment heap.mem cur aligned delta }
        slobAllocTake flags cur aligned units
      else slobAllocTake flags prev cur units
    else
      touch [.slobfree]
      if cur = state.slobfree then
        localIntrRestore flags
        if size = PGSIZE then return 0
        let page ← slobGetFreePages image 0
        if page = 0 then return 0
        slobFree fuel page PGSIZE
        let flags ← localIntrSave
        let state ← heap
        touch [.slobfree, .slob state.slobfree]
        slobAllocScan image size align fuel flags state.slobfree (slobNext state.mem state.slobfree)
      else
        touch [.slob cur]
        slobAllocScan image size align fuel flags cur (slobNext state.mem cur)

def slobAlloc (image : KernelImage) (fuel size align : ℕ) : Intr allocator ℕ := do
  lift (assert (size + SLOB_UNIT < PGSIZE))
  let flags ← localIntrSave
  let state ← heap
  touch [.slobfree, .slob state.slobfree]
  slobAllocScan image size align fuel flags state.slobfree (slobNext state.mem state.slobfree)

def kmallocBig (image : KernelImage) (fuel size : ℕ) : Intr allocator ℕ := do
  let bb ← slobAlloc image fuel bigblockSize 0
  if bb = 0 then return 0
  let order := findOrder (toInt32 size)
  touch [.own bb]
  update fun heap ↦ { heap with mem := setBigblockOrder heap.mem bb order }
  let pages ← slobGetFreePages image order
  touch [.own bb]
  update fun heap ↦ { heap with mem := setBigblockPages heap.mem bb pages }
  if bigblockPages (← heap).mem bb ≠ 0 then
    let flags ← localIntrSave
    touch [.bigblocks, .bigblockNext bb]
    update fun heap ↦ { heap with mem := setBigblockNext heap.mem bb heap.bigblocks, bigblocks := bb }
    localIntrRestore flags
    -- `return bb->pages`, where `bb` is in the list by now
    touch [.bigblockData bb]
    return bigblockPages (← heap).mem bb
  slobFree fuel bb bigblockSize
  return 0

def kmalloc (image : KernelImage) (fuel size : ℕ) : Intr allocator ℕ := do
  if size < PGSIZE - SLOB_UNIT then
    let m ← slobAlloc image fuel (size + SLOB_UNIT) 0
    return if m ≠ 0 then slobAdd m 1 else 0
  else kmallocBig image fuel size

def kfreeScan (block : ℕ) : ℕ → BigblockCell → ℕ → Intr allocator (Option (BigblockCell × ℕ))
  | 0, _, _ => throw .outOfFuel
  | fuel + 1, last, bb => do
    if bb = 0 then return none
    touch [.bigblockData bb]
    let heap ← heap
    if bigblockPages heap.mem bb = block then return some (last, bb)
    touch [.bigblockNext bb]
    kfreeScan block fuel (some bb) (bigblockNext heap.mem bb)

/-- The variable or the field that a pointer cell is -/
def cellAccess : BigblockCell → Access
  | none => .bigblocks
  | some bb => .bigblockNext bb

def kfree (image : KernelImage) (fuel block : ℕ) : Intr allocator Unit := do
  if block = 0 then return
  if block % PGSIZE = 0 then
    let flags ← localIntrSave
    touch [.bigblocks]
    match ← kfreeScan block fuel none (← heap).bigblocks with
    | some (last, bb) =>
      touch [.bigblockNext bb, cellAccess last]
      update fun heap ↦ setBigblockLink heap (bigblockNext heap.mem bb) last
      localIntrRestore flags
      touch [.own bb]
      slobFreePages image block (bigblockOrder (← heap).mem bb).toNat
      slobFree fuel bb bigblockSize
    | none =>
      localIntrRestore flags
      slobFree fuel (slobAdd block (-1)) 0
  else slobFree fuel (slobAdd block (-1)) 0

def ksizeScan (block : ℕ) : ℕ → ℕ → Intr allocator (Option ℕ)
  | 0, _ => throw .outOfFuel
  | fuel + 1, bb => do
    if bb = 0 then return none
    touch [.bigblockData bb]
    let heap ← heap
    if bigblockPages heap.mem bb = block then return some bb
    touch [.bigblockNext bb]
    ksizeScan block fuel (bigblockNext heap.mem bb)

/-- `((slob_t *)block - 1)->units * SLOB_UNIT` -/
def headerSize (block : ℕ) : Intr allocator ℕ := do
  touch [.own (slobAdd block (-1))]
  return (BitVec.ofInt 32 (slobUnits (← heap).mem (slobAdd block (-1)) * SLOB_UNIT)).toNat

def ksize (fuel block : ℕ) : Intr allocator ℕ := do
  if block = 0 then return 0
  if block % PGSIZE = 0 then
    let flags ← localIntrSave
    touch [.bigblocks]
    match ← ksizeScan block fuel (← heap).bigblocks with
    | some bb =>
      localIntrRestore flags
      -- the descriptor is still in the list
      touch [.bigblockData bb]
      return (BitVec.ofInt 32 (PGSIZE * 2 ^ (bigblockOrder (← heap).mem bb).toNat)).toNat
    | none =>
      localIntrRestore flags
      headerSize block
  else headerSize block

/-! ## The flag and the accesses -/

/-- From the status `before` to the status `after`, what is accessed with interrupts enabled is allowed to
be. -/
abbrev Runs (allowed : Access → Prop) (before : BitVec 64) (computation : Intr allocator α)
    (after : BitVec 64) : Prop :=
  Does IntrHeap.sstatus IntrHeap.accesses (fun event ↦ event.2 = true → allowed event.1) before
    computation after

/-- What belongs to the call alone -/
def Own (what : Access) : Prop := ∃ block, what = .own block

section Primitives

variable {β : Type} {allowed : Access → Prop} {before after : BitVec 64}

theorem restore_save (sstatus : BitVec 64) :
    intrRestore (intrSave sstatus).2 (intrSave sstatus).1 = sstatus := by
  unfold intrSave
  split_ifs with h
  · have hbit : sstatus.getLsbD 1 = true := (and_sie sstatus).mp h
    apply BitVec.eq_of_getLsbD_eq
    intro bit hbit'
    by_cases hone : bit = 1
    · subst hone
      simp [intrRestore, SSTATUS_SIE, hbit]
    · have hmask : SSTATUS_SIE.getLsbD bit = false := by
        have hpow : SSTATUS_SIE = BitVec.twoPow 64 1 := by decide
        rw [hpow, BitVec.getLsbD_twoPow]
        simp [Ne.symm hone]
      simp only [intrRestore, if_true, BitVec.getLsbD_or, BitVec.getLsbD_and, BitVec.getLsbD_not,
        hmask, hbit', decide_true, Bool.not_false, Bool.and_true, Bool.or_false]
  · rfl

theorem runs_touch {accesses : List Access} (h : ∀ what ∈ accesses, sie before = true → allowed what) :
    Runs allowed before (touch accesses : Intr allocator Unit) before := by
  intro s result s' hbefore hrun
  obtain ⟨-, rfl⟩ := Prod.mk.inj (Except.ok.inj hrun)
  refine ⟨hbefore, _, rfl, fun event hevent hon ↦ ?_⟩
  obtain ⟨what, hwhat, rfl⟩ := List.mem_map.mp hevent
  exact h what hwhat (hbefore ▸ hon)

/-- With interrupts disabled anything may be accessed. -/
theorem runs_touch_off {accesses : List Access} (hoff : sie before = false) :
    Runs allowed before (touch accesses : Intr allocator Unit) before :=
  runs_touch fun what _ hon ↦ absurd hon (by rw [hoff]; decide)

theorem runs_heap : Runs allowed before (heap : Intr allocator (Heap allocator)) before := by
  intro s result s' hbefore hrun
  obtain ⟨-, rfl⟩ := Prod.mk.inj (Except.ok.inj hrun)
  exact ⟨hbefore, [], (List.append_nil _).symm, nofun⟩

theorem runs_update {change : Heap allocator → Heap allocator} :
    Runs allowed before (update change) before := by
  intro s result s' hbefore hrun
  obtain ⟨-, rfl⟩ := Prod.mk.inj (Except.ok.inj hrun)
  exact ⟨hbefore, [], (List.append_nil _).symm, nofun⟩

theorem runs_manager {call : allocator.State → α × allocator.State} :
    Runs allowed before (manager call) before := by
  intro s result s' hbefore hrun
  obtain ⟨-, rfl⟩ := Prod.mk.inj (Except.ok.inj hrun)
  exact ⟨hbefore, [], (List.append_nil _).symm, nofun⟩

theorem runs_lift {result : Except Fault α} :
    Runs allowed before (lift result : Intr allocator α) before := by
  cases result with
  | ok value => exact Does.pure value
  | error fault => exact Does.throw fault

theorem runs_restore {flag : Bool} :
    Runs allowed before (localIntrRestore flag : Intr allocator Unit) (intrRestore before flag) := by
  intro s result s' hbefore hrun
  obtain ⟨-, rfl⟩ := Prod.mk.inj (Except.ok.inj hrun)
  subst hbefore
  exact ⟨rfl, [], (List.append_nil _).symm, nofun⟩

/-- The end of a critical section -/
theorem runs_restore_saved :
    Runs allowed (intrSave before).2
      (localIntrRestore (intrSave before).1 : Intr allocator Unit) before := by
  have hrestore : Runs allowed (intrSave before).2
      (localIntrRestore (intrSave before).1 : Intr allocator Unit) _ := runs_restore
  rw [restore_save] at hrestore
  exact hrestore

/-- The start of a critical section -/
theorem runs_save_bind {rest : Bool → Intr allocator β}
    (h : Runs allowed (intrSave before).2 (rest (intrSave before).1) after) :
    Runs allowed before (localIntrSave >>= rest) after := by
  have hstatus : ∀ s : IntrHeap allocator, s.sstatus = before →
      (intrSave s.sstatus).2 = (intrSave before).2 :=
    fun s hs ↦ congrArg (fun sstatus ↦ (intrSave sstatus).2) hs
  have hrest : ∀ s : IntrHeap allocator, s.sstatus = before →
      Runs allowed (intrSave before).2 (rest (intrSave s.sstatus).1) after := by
    intro s hs
    rw [hs]
    exact h
  exact Does.silent_bind (fun s ↦ rfl) (fun s ↦ rfl) hstatus hrest

theorem sie_saved (sstatus : BitVec 64) : sie (intrSave sstatus).2 = false := (intrSave_spec sstatus).2

end Primitives

section Calls

variable {image : KernelImage} {allowed : Access → Prop} {before : BitVec 64}

theorem runs_allocPages (n : ℕ) : Runs allowed before (allocPages n : Intr allocator _) before := by
  apply runs_save_bind
  apply Does.bind (runs_touch_off (sie_saved before))
  intro _
  apply Does.bind runs_manager
  intro page
  exact Does.bind runs_restore_saved fun _ ↦ Does.pure page

theorem runs_freePages (base n : ℕ) :
    Runs allowed before (freePages base n : Intr allocator Unit) before := by
  apply runs_save_bind
  apply Does.bind (runs_touch_off (sie_saved before))
  intro _
  exact Does.bind runs_manager fun _ ↦ runs_restore_saved

theorem runs_nrFreePages (nrFree : allocator.State → ℕ) :
    Runs allowed before (nrFreePages nrFree) before := by
  apply runs_save_bind
  apply Does.bind (runs_touch_off (sie_saved before))
  intro _
  apply Does.bind runs_manager
  intro ret
  exact Does.bind runs_restore_saved fun _ ↦ Does.pure ret

theorem runs_slobGetFreePages (order : ℕ) :
    Runs allowed before (slobGetFreePages image order : Intr allocator ℕ) before := by
  apply Does.bind (runs_allocPages _)
  intro page
  cases page with
  | none => exact Does.pure 0
  | some page => exact runs_lift

theorem runs_slobFreePages (kva order : ℕ) :
    Runs allowed before (slobFreePages image kva order : Intr allocator Unit) before :=
  Does.bind runs_lift fun page ↦ runs_freePages page _

theorem runs_slobFreeScan (hoff : sie before = false) (b fuel cur : ℕ) :
    Runs allowed before (slobFreeScan b fuel cur : Intr allocator ℕ) before := by
  induction fuel generalizing cur with
  | zero => exact Does.throw _
  | succ fuel ih =>
    apply Does.bind (runs_touch_off hoff)
    intro _
    apply Does.bind runs_heap
    intro heap
    apply Does.ite
    · exact fun _ ↦ Does.pure cur
    · intro _
      apply Does.ite
      · exact fun _ ↦ Does.pure cur
      · exact fun _ ↦ ih _

theorem runs_touch_own (hown : ∀ block, allowed (.own block)) (block : ℕ) :
    Runs allowed before (touch [.own block] : Intr allocator Unit) before := by
  apply runs_touch
  intro what hwhat _
  rw [List.mem_singleton.mp hwhat]
  exact hown block

theorem runs_touch_data (hdata : ∀ bb, allowed (.bigblockData bb)) (bb : ℕ) :
    Runs allowed before (touch [.bigblockData bb] : Intr allocator Unit) before := by
  apply runs_touch
  intro what hwhat _
  rw [List.mem_singleton.mp hwhat]
  exact hdata bb

theorem runs_setUnits (hown : ∀ block, allowed (.own block)) (block size : ℕ) :
    Runs allowed before (setUnits block size : Intr allocator Unit) before := by
  apply Does.ite
  · intro _
    exact Does.bind (runs_touch_own hown block) fun _ ↦ runs_update
  · exact fun _ ↦ Does.pure ()

theorem runs_slobFree (hown : ∀ block, allowed (.own block)) (fuel block size : ℕ) :
    Runs allowed before (slobFree fuel block size : Intr allocator Unit) before := by
  have hoff := sie_saved before
  apply Does.ite
  · exact fun _ ↦ Does.pure ()
  intro _
  apply Does.bind (runs_setUnits hown block size)
  intro _
  apply runs_save_bind
  apply Does.bind (runs_touch_off hoff)
  intro _
  apply Does.bind runs_heap
  intro heap
  apply Does.bind (runs_slobFreeScan hoff block fuel _)
  intro cur
  apply Does.bind runs_heap
  intro heap
  apply Does.bind (runs_touch_off hoff)
  intro _
  apply Does.bind runs_update
  intro _
  apply Does.bind (runs_touch_off hoff)
  intro _
  apply Does.bind runs_update
  intro _
  apply Does.bind (runs_touch_off hoff)
  intro _
  exact Does.bind runs_update fun _ ↦ runs_restore_saved

theorem runs_slobAllocTake (prev cur : ℕ) (units : ℤ) :
    Runs allowed (intrSave before).2
      (slobAllocTake (intrSave before).1 prev cur units : Intr allocator ℕ) before := by
  have hoff := sie_saved before
  apply Does.bind runs_heap
  intro heap
  apply Does.bind (runs_touch_off hoff)
  intro _
  apply Does.bind runs_update
  intro _
  apply Does.bind (runs_touch_off hoff)
  intro _
  apply Does.bind runs_update
  intro _
  exact Does.bind runs_restore_saved fun _ ↦ Does.pure cur

/-- The loop is entered with interrupts disabled and left with them as they were before; where it drops the
lock, it takes it again before it looks at the ring. -/
theorem runs_slobAllocScan (hown : ∀ block, allowed (.own block)) (size align fuel prev cur : ℕ) :
    Runs allowed (intrSave before).2
      (slobAllocScan image size align fuel (intrSave before).1 prev cur : Intr allocator ℕ)
      before := by
  have hoff := sie_saved before
  induction fuel generalizing prev cur with
  | zero => exact Does.throw _
  | succ fuel ih =>
    apply Does.bind (runs_touch_off hoff)
    intro _
    apply Does.bind runs_heap
    intro state
    apply Does.ite
    · intro _
      apply Does.ite
      · intro _
        apply Does.bind (runs_touch_off hoff)
        intro _
        exact Does.bind runs_update fun _ ↦ runs_slobAllocTake _ _ _
      · exact fun _ ↦ runs_slobAllocTake _ _ _
    intro _
    apply Does.bind (runs_touch_off hoff)
    intro _
    apply Does.ite
    · intro _
      apply Does.bind runs_restore_saved
      intro _
      apply Does.ite
      · exact fun _ ↦ Does.pure 0
      intro _
      apply Does.bind (runs_slobGetFreePages 0)
      intro page
      apply Does.ite
      · exact fun _ ↦ Does.pure 0
      intro _
      apply Does.bind (runs_slobFree hown fuel page PGSIZE)
      intro _
      apply runs_save_bind
      apply Does.bind runs_heap
      intro state
      exact Does.bind (runs_touch_off hoff) fun _ ↦ ih _ _
    · exact fun _ ↦ Does.bind (runs_touch_off hoff) fun _ ↦ ih _ _

theorem runs_slobAlloc (hown : ∀ block, allowed (.own block)) (fuel size align : ℕ) :
    Runs allowed before (slobAlloc image fuel size align : Intr allocator ℕ) before := by
  apply Does.bind runs_lift
  intro _
  apply runs_save_bind
  apply Does.bind runs_heap
  intro state
  apply Does.bind (runs_touch_off (sie_saved before))
  intro _
  exact runs_slobAllocScan hown size align fuel _ _

theorem runs_kmallocBig (hown : ∀ block, allowed (.own block))
    (hdata : ∀ bb, allowed (.bigblockData bb)) (fuel size : ℕ) :
    Runs allowed before (kmallocBig image fuel size : Intr allocator ℕ) before := by
  have hoff := sie_saved before
  apply Does.bind (runs_slobAlloc hown fuel bigblockSize 0)
  intro bb
  apply Does.ite
  · exact fun _ ↦ Does.pure 0
  intro _
  apply Does.bind (runs_touch_own hown bb)
  intro _
  apply Does.bind runs_update
  intro _
  apply Does.bind (runs_slobGetFreePages _)
  intro pages
  apply Does.bind (runs_touch_own hown bb)
  intro _
  apply Does.bind runs_update
  intro _
  apply Does.bind runs_heap
  intro heap
  apply Does.ite
  · intro _
    apply runs_save_bind
    apply Does.bind (runs_touch_off hoff)
    intro _
    apply Does.bind runs_update
    intro _
    apply Does.bind runs_restore_saved
    intro _
    apply Does.bind (runs_touch_data hdata bb)
    intro _
    exact Does.bind runs_heap fun _ ↦ Does.pure _
  · intro _
    exact Does.bind (runs_slobFree hown fuel bb bigblockSize) fun _ ↦ Does.pure 0

theorem runs_kmalloc (hown : ∀ block, allowed (.own block))
    (hdata : ∀ bb, allowed (.bigblockData bb)) (fuel size : ℕ) :
    Runs allowed before (kmalloc image fuel size : Intr allocator ℕ) before := by
  apply Does.ite
  · exact fun _ ↦ Does.bind (runs_slobAlloc hown fuel _ 0) fun _ ↦ Does.pure _
  · exact fun _ ↦ runs_kmallocBig hown hdata fuel size

theorem runs_kfreeScan (hoff : sie before = false) (block fuel : ℕ) (last : BigblockCell) (bb : ℕ) :
    Runs allowed before (kfreeScan block fuel last bb : Intr allocator _) before := by
  induction fuel generalizing last bb with
  | zero => exact Does.throw _
  | succ fuel ih =>
    apply Does.ite
    · exact fun _ ↦ Does.pure none
    intro _
    apply Does.bind (runs_touch_off hoff)
    intro _
    apply Does.bind runs_heap
    intro heap
    apply Does.ite
    · exact fun _ ↦ Does.pure _
    · exact fun _ ↦ Does.bind (runs_touch_off hoff) fun _ ↦ ih _ _

theorem runs_kfree (hown : ∀ block, allowed (.own block)) (fuel block : ℕ) :
    Runs allowed before (kfree image fuel block : Intr allocator Unit) before := by
  have hoff := sie_saved before
  apply Does.ite
  · exact fun _ ↦ Does.pure ()
  intro _
  apply Does.ite
  · intro _
    apply runs_save_bind
    apply Does.bind (runs_touch_off hoff)
    intro _
    apply Does.bind runs_heap
    intro heap
    apply Does.bind (runs_kfreeScan hoff block fuel none _)
    rintro (_ | ⟨last, bb⟩)
    · exact Does.bind runs_restore_saved fun _ ↦ runs_slobFree hown fuel _ 0
    · apply Does.bind (runs_touch_off hoff)
      intro _
      apply Does.bind runs_update
      intro _
      apply Does.bind runs_restore_saved
      intro _
      apply Does.bind (runs_touch_own hown bb)
      intro _
      apply Does.bind runs_heap
      intro heap
      exact Does.bind (runs_slobFreePages _ _) fun _ ↦ runs_slobFree hown fuel bb bigblockSize
  · exact fun _ ↦ runs_slobFree hown fuel _ 0

theorem runs_ksizeScan (hoff : sie before = false) (block fuel bb : ℕ) :
    Runs allowed before (ksizeScan block fuel bb : Intr allocator _) before := by
  induction fuel generalizing bb with
  | zero => exact Does.throw _
  | succ fuel ih =>
    apply Does.ite
    · exact fun _ ↦ Does.pure none
    intro _
    apply Does.bind (runs_touch_off hoff)
    intro _
    apply Does.bind runs_heap
    intro heap
    apply Does.ite
    · exact fun _ ↦ Does.pure _
    · exact fun _ ↦ Does.bind (runs_touch_off hoff) fun _ ↦ ih _

theorem runs_headerSize (hown : ∀ block, allowed (.own block)) (block : ℕ) :
    Runs allowed before (headerSize block : Intr allocator ℕ) before :=
  Does.bind (runs_touch_own hown _) fun _ ↦ Does.bind runs_heap fun _ ↦ Does.pure _

theorem runs_ksize (hown : ∀ block, allowed (.own block)) (hdata : ∀ bb, allowed (.bigblockData bb))
    (fuel block : ℕ) : Runs allowed before (ksize fuel block : Intr allocator ℕ) before := by
  have hoff := sie_saved before
  apply Does.ite
  · exact fun _ ↦ Does.pure 0
  intro _
  apply Does.ite
  · intro _
    apply runs_save_bind
    apply Does.bind (runs_touch_off hoff)
    intro _
    apply Does.bind runs_heap
    intro heap
    apply Does.bind (runs_ksizeScan hoff block fuel _)
    rintro (_ | bb)
    · exact Does.bind runs_restore_saved fun _ ↦ runs_headerSize hown block
    · apply Does.bind runs_restore_saved
      intro _
      apply Does.bind (runs_touch_data hdata bb)
      intro _
      exact Does.bind runs_heap fun _ ↦ Does.pure _
  · exact fun _ ↦ runs_headerSize hown block

end Calls

/-! ## Without the flag and the accesses -/

/-- On a heap `t` the computation has this outcome, whatever the flag is. -/
abbrev Computes (t : Heap allocator) (computation : Intr allocator α)
    (outcome : Except Fault (α × Heap allocator)) : Prop :=
  Erases IntrHeap.heap t computation outcome

section Erasure

variable {β : Type} {image : KernelImage} {t : Heap allocator}
  {outcome : Except Fault (β × Heap allocator)}

theorem computes_touch {accesses : List Access} {rest : Unit → Intr allocator β}
    (h : Computes t (rest ()) outcome) : Computes t (touch accesses >>= rest) outcome :=
  Erases.silent_bind (fun _ ↦ rfl) (fun _ hs ↦ hs) fun _ _ ↦ h

theorem computes_save {rest : Bool → Intr allocator β}
    (h : ∀ flag, Computes t (rest flag) outcome) : Computes t (localIntrSave >>= rest) outcome :=
  Erases.silent_bind (fun _ ↦ rfl) (fun _ hs ↦ hs) fun _ _ ↦ h _

theorem computes_restore {flag : Bool} {rest : Unit → Intr allocator β}
    (h : Computes t (rest ()) outcome) : Computes t (localIntrRestore flag >>= rest) outcome :=
  Erases.silent_bind (fun _ ↦ rfl) (fun _ hs ↦ hs) fun _ _ ↦ h

theorem computes_restore_last (flag : Bool) :
    Computes t (localIntrRestore flag) (.ok ((), t)) := by
  intro s hs
  rw [← hs]
  rfl

theorem computes_heap {rest : Heap allocator → Intr allocator β}
    (h : Computes t (rest t) outcome) : Computes t (heap >>= rest) outcome := by
  have hrest : ∀ s : IntrHeap allocator, s.heap = t → Computes t (rest s.heap) outcome := by
    intro s hs
    rw [hs]
    exact h
  exact Erases.silent_bind (fun _ ↦ rfl) (fun _ hs ↦ hs) hrest

theorem computes_update {change : Heap allocator → Heap allocator} {rest : Unit → Intr allocator β}
    (h : Computes (change t) (rest ()) outcome) : Computes t (update change >>= rest) outcome :=
  Erases.silent_bind (fun _ ↦ rfl) (fun _ hs ↦ congrArg change hs) fun _ _ ↦ h

theorem computes_manager {call : allocator.State → α × allocator.State}
    {rest : α → Intr allocator β}
    (h : Computes { t with pages := (call t.pages).2 } (rest (call t.pages).1) outcome) :
    Computes t (manager call >>= rest) outcome := by
  have hrest : ∀ s : IntrHeap allocator, s.heap = t →
      Computes { t with pages := (call t.pages).2 } (rest (call s.heap.pages).1) outcome := by
    intro s hs
    rw [hs]
    exact h
  refine Erases.silent_bind (fun _ ↦ rfl) (fun s hs ↦ ?_) hrest
  rw [← hs]

theorem computes_lift (result : Except Fault α) :
    Computes t (lift result) (result.map fun value ↦ (value, t)) := by
  cases result with
  | ok value => exact Erases.pure value t
  | error fault => exact Erases.throw fault t

theorem computes_allocPages (n : ℕ) : Computes t (allocPages n)
    (.ok ((allocator.allocPages t.pages n).1,
      { t with pages := (allocator.allocPages t.pages n).2 })) := by
  apply computes_save
  intro flag
  apply computes_touch
  apply computes_manager
  apply computes_restore
  exact Erases.pure _ _

theorem computes_freePages (base n : ℕ) : Computes t (freePages base n)
    (.ok ((), { t with pages := allocator.freePages t.pages base n })) := by
  apply computes_save
  intro flag
  apply computes_touch
  apply computes_manager
  exact computes_restore_last flag

theorem computes_slobGetFreePages (order : ℕ) :
    Computes t (slobGetFreePages image order) (Ucore.slobGetFreePages image t order) := by
  apply Erases.bind_ok (computes_allocPages _)
  unfold Ucore.slobGetFreePages
  rcases allocator.allocPages t.pages (2 ^ order) with ⟨page, pages⟩
  cases page with
  | none => exact Erases.pure 0 _
  | some page =>
    have hlift : Computes { t with pages } (lift (page2kva image.npage page)) _ := computes_lift _
    cases hkva : page2kva image.npage page with
    | error fault =>
      rw [hkva] at hlift
      simp only [hkva]
      exact hlift
    | ok kva =>
      rw [hkva] at hlift
      simp only [hkva]
      exact hlift

theorem computes_slobFreePages (kva order : ℕ) :
    Computes t (slobFreePages image kva order)
      ((Ucore.slobFreePages image t kva order).map fun heap ↦ ((), heap)) := by
  rw [Ucore.slobFreePages, except_map_bind]
  apply Erases.bind_map (computes_lift _)
  exact fun page ↦ computes_freePages page _

theorem computes_slobFreeScan (b fuel cur : ℕ) : Computes t (slobFreeScan b fuel cur)
    ((Ucore.slobFreeScan t.mem b fuel cur).map fun cur ↦ (cur, t)) := by
  induction fuel generalizing cur with
  | zero => exact Erases.throw _ _
  | succ fuel ih =>
    apply computes_touch
    apply computes_heap
    rw [Ucore.slobFreeScan, apply_ite (Except.map _), apply_ite (Except.map _)]
    apply Erases.ite
    · exact fun _ ↦ Erases.pure cur t
    · intro _
      apply Erases.ite
      · exact fun _ ↦ Erases.pure cur t
      · exact fun _ ↦ ih _

theorem computes_setUnits (block size : ℕ) : Computes t (setUnits block size)
    (.ok ((), { t with
      mem := if size ≠ 0 then setSlobUnits t.mem block (SLOB_UNITS size) else t.mem })) := by
  unfold setUnits
  split_ifs
  · apply computes_touch
    intro s hs
    rw [← hs]
    rfl
  · exact Erases.pure () t

theorem computes_slobFree (fuel block size : ℕ) : Computes t (slobFree fuel block size)
    ((Ucore.slobFree fuel t block size).map fun heap ↦ ((), heap)) := by
  rw [Ucore.slobFree, apply_ite (Except.map _)]
  apply Erases.ite
  · exact fun _ ↦ Erases.pure () t
  intro _
  apply Erases.bind_ok (computes_setUnits block size)
  apply computes_save
  intro flags
  apply computes_touch
  apply computes_heap
  rw [except_map_bind]
  apply Erases.bind_map (computes_slobFreeScan block fuel _)
  intro cur
  apply computes_heap
  apply computes_touch
  apply computes_update
  apply computes_touch
  apply computes_update
  apply computes_touch
  apply computes_update
  exact computes_restore_last flags

theorem computes_slobAllocTake (flags : Bool) (prev cur : ℕ) (units : ℤ) :
    Computes t (slobAllocTake flags prev cur units)
      (.ok (cur, { t with mem := slobTake t.mem prev cur units, slobfree := prev })) := by
  apply computes_heap
  apply computes_touch
  apply computes_update
  apply computes_touch
  apply computes_update
  apply computes_restore
  exact Erases.pure cur _

theorem computes_slobAllocScan (size align fuel : ℕ) (flags : Bool) (prev cur : ℕ) :
    Computes t (slobAllocScan image size align fuel flags prev cur)
      (Ucore.slobAllocScan image size align fuel t prev cur) := by
  induction fuel generalizing t flags prev cur with
  | zero => exact Erases.throw _ _
  | succ fuel ih =>
    rw [Ucore.slobAllocScan]
    apply computes_touch
    apply computes_heap
    apply Erases.ite
    · intro _
      apply Erases.ite
      · intro _
        apply computes_touch
        apply computes_update
        exact computes_slobAllocTake _ _ _ _
      · exact fun _ ↦ computes_slobAllocTake _ _ _ _
    intro _
    apply computes_touch
    apply Erases.ite
    · intro _
      apply computes_restore
      apply Erases.ite
      · exact fun _ ↦ Erases.pure 0 t
      intro _
      apply Erases.bind (computes_slobGetFreePages 0)
      intro page grown
      apply Erases.ite
      · exact fun _ ↦ Erases.pure 0 grown
      intro _
      apply Erases.bind_map (computes_slobFree fuel page PGSIZE)
      intro freed
      apply computes_save
      intro flags
      apply computes_heap
      apply computes_touch
      exact ih _ _ _
    · intro _
      apply computes_touch
      exact ih _ _ _

theorem computes_slobAlloc (fuel size align : ℕ) :
    Computes t (slobAlloc image fuel size align) (Ucore.slobAlloc image fuel t size align) := by
  apply Erases.bind_map (computes_lift _)
  intro _
  apply computes_save
  intro flags
  apply computes_heap
  apply computes_touch
  exact computes_slobAllocScan _ _ _ _ _ _

theorem computes_kmallocBig (fuel size : ℕ) :
    Computes t (kmallocBig image fuel size) (Ucore.kmallocBig image fuel t size) := by
  apply Erases.bind (computes_slobAlloc fuel bigblockSize 0)
  intro bb taken
  apply Erases.ite
  · exact fun _ ↦ Erases.pure 0 taken
  intro _
  apply computes_touch
  apply computes_update
  apply Erases.bind (computes_slobGetFreePages _)
  intro pages lent
  apply computes_touch
  apply computes_update
  apply computes_heap
  apply Erases.ite
  · intro _
    apply computes_save
    intro flags
    apply computes_touch
    apply computes_update
    apply computes_restore
    apply computes_touch
    apply computes_heap
    exact Erases.pure _ _
  · intro _
    apply Erases.bind_map (computes_slobFree fuel bb bigblockSize)
    exact fun freed ↦ Erases.pure 0 freed

theorem computes_kmalloc (fuel size : ℕ) :
    Computes t (kmalloc image fuel size) (Ucore.kmalloc image fuel t size) := by
  apply Erases.ite
  · intro _
    apply Erases.bind (computes_slobAlloc fuel (size + SLOB_UNIT) 0)
    exact fun m taken ↦ Erases.pure _ taken
  · exact fun _ ↦ computes_kmallocBig fuel size

theorem computes_kfreeScan (block fuel : ℕ) (last : BigblockCell) (bb : ℕ) :
    Computes t (kfreeScan block fuel last bb)
      ((Ucore.kfreeScan t.mem block fuel last bb).map fun found ↦ (found, t)) := by
  induction fuel generalizing last bb with
  | zero => exact Erases.throw _ _
  | succ fuel ih =>
    rw [Ucore.kfreeScan, apply_ite (Except.map _), apply_ite (Except.map _)]
    apply Erases.ite
    · exact fun _ ↦ Erases.pure none t
    intro _
    apply computes_touch
    apply computes_heap
    apply Erases.ite
    · exact fun _ ↦ Erases.pure _ t
    · intro _
      apply computes_touch
      exact ih _ _

theorem computes_kfree (fuel block : ℕ) : Computes t (kfree image fuel block)
    ((Ucore.kfree image fuel t block).map fun heap ↦ ((), heap)) := by
  rw [Ucore.kfree, apply_ite (Except.map _), apply_ite (Except.map _)]
  apply Erases.ite
  · exact fun _ ↦ Erases.pure () t
  intro _
  apply Erases.ite
  · intro _
    apply computes_save
    intro flags
    apply computes_touch
    apply computes_heap
    rw [except_map_bind]
    apply Erases.bind_map (computes_kfreeScan block fuel none _)
    rintro (_ | ⟨last, bb⟩)
    · apply computes_restore
      exact computes_slobFree fuel _ 0
    · apply computes_touch
      apply computes_update
      apply computes_restore
      apply computes_touch
      apply computes_heap
      dsimp only
      rw [except_map_bind]
      apply Erases.bind_map (computes_slobFreePages block _)
      exact fun freed ↦ computes_slobFree fuel bb bigblockSize
  · exact fun _ ↦ computes_slobFree fuel _ 0

theorem computes_ksizeScan (block fuel bb : ℕ) : Computes t (ksizeScan block fuel bb)
    ((Ucore.ksizeScan t.mem block fuel bb).map fun found ↦ (found, t)) := by
  induction fuel generalizing bb with
  | zero => exact Erases.throw _ _
  | succ fuel ih =>
    rw [Ucore.ksizeScan, apply_ite (Except.map _), apply_ite (Except.map _)]
    apply Erases.ite
    · exact fun _ ↦ Erases.pure none t
    intro _
    apply computes_touch
    apply computes_heap
    apply Erases.ite
    · exact fun _ ↦ Erases.pure _ t
    · intro _
      apply computes_touch
      exact ih _

theorem computes_headerSize (block : ℕ) : Computes t (headerSize block)
    (.ok ((BitVec.ofInt 32 (slobUnits t.mem (slobAdd block (-1)) * SLOB_UNIT)).toNat, t)) := by
  apply computes_touch
  apply computes_heap
  exact Erases.pure _ t

theorem computes_ksize (fuel block : ℕ) : Computes t (ksize fuel block)
    ((Ucore.ksize fuel t block).map fun size ↦ (size, t)) := by
  rw [Ucore.ksize, apply_ite (Except.map _)]
  apply Erases.ite
  · exact fun _ ↦ Erases.pure 0 t
  intro _
  dsimp only
  rw [apply_ite (Except.map _)]
  apply Erases.ite
  · intro _
    apply computes_save
    intro flags
    apply computes_touch
    apply computes_heap
    rw [except_map_bind]
    apply Erases.bind_map (computes_ksizeScan block fuel _)
    rintro (_ | bb)
    · apply computes_restore
      exact computes_headerSize block
    · apply computes_restore
      apply computes_touch
      apply computes_heap
      exact Erases.pure _ t
  · exact fun _ ↦ computes_headerSize block

end Erasure

/-! ## The calls of the kernel -/

/-- What a call owns, and the fields of a listed descriptor other than `next`, which do not change while
it is listed -/
def OwnOrData (what : Access) : Prop := Own what ∨ ∃ bb, what = .bigblockData bb

/-- Every call returns with the interrupts as it found them. The lists and their heads are accessed with
interrupts disabled only; `kmalloc` and `ksize` read the descriptor of a big block after that. -/
theorem allocators_interrupts (image : KernelImage) (nrFree : allocator.State → ℕ)
    (before : BitVec 64) (fuel n base size block : ℕ) :
    Runs Own before (allocPages n : Intr allocator _) before ∧
      Runs Own before (freePages base n : Intr allocator _) before ∧
      Runs Own before (nrFreePages nrFree) before ∧
      Runs OwnOrData before (kmalloc image fuel size : Intr allocator _) before ∧
      Runs Own before (kfree image fuel block : Intr allocator _) before ∧
      Runs OwnOrData before (ksize fuel block : Intr allocator _) before := by
  have hown : ∀ block, Own (.own block) := fun block ↦ ⟨block, rfl⟩
  have hown' : ∀ block, OwnOrData (.own block) := fun block ↦ .inl (hown block)
  have hdata : ∀ bb, OwnOrData (.bigblockData bb) := fun bb ↦ .inr ⟨bb, rfl⟩
  exact ⟨runs_allocPages n, runs_freePages base n, runs_nrFreePages nrFree,
    runs_kmalloc hown' hdata fuel size, runs_kfree hown fuel block,
    runs_ksize hown' hdata fuel block⟩

/-- The first `kmalloc(8193)` with interrupts enabled reads `bb->pages` after it has put `bb` into the
list and enabled them again. -/
theorem kmalloc_reads_enabled :
    ¬ Runs Own 2 (@kmalloc (PageAllocator.firstFit 0x20A 16) HeapWorld.sampleImage 8 8193) 2 := by
  let read := (Access.bigblockData 0xFFFFFFFFC020A000, true)
  have hcall : (kmalloc HeapWorld.sampleImage 8 8193 ⟨HeapWorld.bootHeap, 2, []⟩).toOption.any
      (fun outcome ↦ read ∈ outcome.2.accesses) = true := by
    decide +kernel
  obtain ⟨⟨p, state⟩, hreturn, hmem⟩ := Option.any_eq_true _ _ |>.mp hcall
  intro h
  obtain ⟨-, more, hmore, hallowed⟩ := h _ p state rfl (toOption_eq_some.mp hreturn)
  have haccess : read ∈ more := by
    have hmem := of_decide_eq_true hmem
    rw [hmore] at hmem
    exact hmem
  obtain ⟨block, hblock⟩ := hallowed _ haccess rfl
  cases hblock

end Intr

end Ucore
