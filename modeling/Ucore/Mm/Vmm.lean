import Ucore.Libs.List
import Ucore.Mm.Kmalloc

/-!
# Virtual memory areas (`kern/mm/vmm.c`)

A `struct mm_struct *` and a `struct vma_struct *` are addresses of heap objects; a `list_entry_t` is
the `mmap_list` of an mm or the `list_link` of a vma. The loops over the list take fuel. `mm_destroy`
records which objects it touches and which it frees, in the order in which it does so.
-/

namespace Ucore

open Foundation

structure VmaStruct where
  vmMm : ℕ
  vmStart : ℕ
  vmEnd : ℕ
  vmFlags : BitVec 32
deriving DecidableEq

structure MmStruct where
  mmapCache : ℕ
  pgdir : ℕ
  mapCount : BitVec 32
  smPriv : ℕ
deriving DecidableEq

/-- `sizeof(struct vma_struct)` -/
def vmaStructSize : ℕ := 48

/-- `sizeof(struct mm_struct)` -/
def mmStructSize : ℕ := 48

inductive VmaNode where
  | mmapList (mm : ℕ)
  | listLink (vma : ℕ)
deriving DecidableEq

/-- `le2vma(le, list_link)`, never applied to a list head. -/
def le2vma : VmaNode → ℕ
  | .listLink vma => vma
  | .mmapList _ => 0

/-- The object that a list entry is a field of. -/
def VmaNode.owner : VmaNode → ℕ
  | .mmapList mm => mm
  | .listLink vma => vma

/-- The heap with the fields of the objects in it. -/
structure Vmm (allocator : PageAllocator) where
  heap : Heap allocator
  mms : ℕ → MmStruct
  vmas : ℕ → VmaStruct
  links : Links VmaNode

variable {allocator : PageAllocator}

def Vmm.setMm (vmm : Vmm allocator) (mm : ℕ) (fields : MmStruct) : Vmm allocator :=
  { vmm with mms := Function.update vmm.mms mm fields }

def Vmm.setVma (vmm : Vmm allocator) (vma : ℕ) (fields : VmaStruct) : Vmm allocator :=
  { vmm with vmas := Function.update vmm.vmas vma fields }

/-- A null pointer is `0`. -/
def mmCreate (image : KernelImage) (fuel : ℕ) (vmm : Vmm allocator) :
    Except Fault (ℕ × Vmm allocator) := do
  let (mm, heap) ← kmalloc image fuel vmm.heap mmStructSize
  let vmm := { vmm with heap }
  if mm = 0 then return (0, vmm)
  let vmm := { vmm with links := listInit vmm.links (.mmapList mm) }
  return (mm, vmm.setMm mm { mmapCache := 0, pgdir := 0, mapCount := 0, smPriv := 0 })

def vmaCreate (image : KernelImage) (fuel : ℕ) (vmm : Vmm allocator) (vmStart vmEnd : ℕ)
    (vmFlags : BitVec 32) : Except Fault (ℕ × Vmm allocator) := do
  let (vma, heap) ← kmalloc image fuel vmm.heap vmaStructSize
  let vmm := { vmm with heap }
  if vma = 0 then return (0, vmm)
  return (vma, vmm.setVma vma { vmm.vmas vma with vmStart, vmEnd, vmFlags })

/-! ## Lookup -/

def findVma (fuel : ℕ) (vmm : Vmm allocator) (mm addr : ℕ) : Except Fault (ℕ × Vmm allocator) := do
  if mm = 0 then return (0, vmm)
  let cached := (vmm.mms mm).mmapCache
  let vma ←
    if cached ≠ 0 ∧ (vmm.vmas cached).vmStart ≤ addr ∧ (vmm.vmas cached).vmEnd > addr then
      pure cached
    else
      let list := VmaNode.mmapList mm
      let found := vmm.links.findFrom list
        (fun le ↦ (vmm.vmas (le2vma le)).vmStart ≤ addr ∧ addr < (vmm.vmas (le2vma le)).vmEnd)
        fuel list
      match found with
      | none => .error .outOfFuel
      | some none => pure 0
      | some (some le) => pure (le2vma le)
  if vma = 0 then return (0, vmm)
  return (vma, vmm.setMm mm { vmm.mms mm with mmapCache := vma })

/-! ## Insertion -/

def checkVmaOverlap (prev next : VmaStruct) : Except Fault Unit := do
  assert (prev.vmStart < prev.vmEnd)
  assert (prev.vmEnd ≤ next.vmStart)
  assert (next.vmStart < next.vmEnd)

/-- The loop of `insert_vma_struct`: `le_prev` when the next entry is the head or starts above. -/
def insertVmaScan (vmm : Vmm allocator) (list : VmaNode) (vmStart : ℕ) :
    ℕ → VmaNode → Except Fault VmaNode
  | 0, _ => .error .outOfFuel
  | fuel + 1, lePrev =>
    let le := vmm.links.next lePrev
    if le = list then .ok lePrev
    else if (vmm.vmas (le2vma le)).vmStart > vmStart then .ok lePrev
    else insertVmaScan vmm list vmStart fuel le

def insertVmaStruct (fuel : ℕ) (vmm : Vmm allocator) (mm vma : ℕ) :
    Except Fault (Vmm allocator) := do
  assert ((vmm.vmas vma).vmStart < (vmm.vmas vma).vmEnd)
  let list := VmaNode.mmapList mm
  let lePrev ← insertVmaScan vmm list (vmm.vmas vma).vmStart fuel list
  let leNext := vmm.links.next lePrev
  (if lePrev ≠ list then checkVmaOverlap (vmm.vmas (le2vma lePrev)) (vmm.vmas vma) else .ok ())
  (if leNext ≠ list then checkVmaOverlap (vmm.vmas vma) (vmm.vmas (le2vma leNext)) else .ok ())
  let vmm := vmm.setVma vma { vmm.vmas vma with vmMm := mm }
  let vmm := { vmm with links := listAddAfter vmm.links lePrev (.listLink vma) }
  return vmm.setMm mm { vmm.mms mm with mapCount := (vmm.mms mm).mapCount + 1 }

/-! ## Destruction -/

/-- A field of an object is read or written, or the object is passed to `kfree`. -/
inductive VmmEvent where
  | touch (object : ℕ)
  | free (object : ℕ)
deriving DecidableEq

/-- `list_del(le)` reads both fields of `le` and writes one field of each neighbour. -/
def listDelEvents (links : Links VmaNode) (le : VmaNode) : List VmmEvent :=
  [.touch le.owner, .touch (links.prev le).owner, .touch (links.next le).owner]

/-- The loop of `mm_destroy`. -/
def mmDestroyLoop (image : KernelImage) (mm : ℕ) :
    ℕ → Vmm allocator → List VmmEvent → Except Fault (Vmm allocator × List VmmEvent)
  | 0, _, _ => .error .outOfFuel
  | fuel + 1, vmm, events => do
    let list := VmaNode.mmapList mm
    let le := vmm.links.next list
    let events := events ++ [.touch mm]
    if le = list then return (vmm, events)
    let events := events ++ listDelEvents vmm.links le
    let vmm := { vmm with links := listDel vmm.links le }
    let heap ← kfree image fuel vmm.heap (le2vma le)
    mmDestroyLoop image mm fuel { vmm with heap } (events ++ [.free (le2vma le)])

def mmDestroy (image : KernelImage) (fuel : ℕ) (vmm : Vmm allocator) (mm : ℕ) :
    Except Fault (Vmm allocator × List VmmEvent) := do
  let (vmm, events) ← mmDestroyLoop image mm fuel vmm []
  let heap ← kfree image fuel vmm.heap mm
  return ({ vmm with heap }, events ++ [.free mm])

end Ucore
