import Ucore.Foundation.Rv64
import Ucore.Libs.List
import Ucore.Mm.Kmalloc

/-!
# Processes (`kern/process/proc.c`)

A `struct proc_struct *` is an address. The fields of a process that only C code touches are a
`ProcStruct`; its `context` and its trap frame, which assembly code reads and writes too, are
doublewords of memory. A `list_entry_t` of the process registry is one of the list heads or one of
the two links of a process. The loops that walk the lists take fuel.
-/

namespace Ucore

open Foundation Memory

def MAX_PROCESS : ℤ := 4096
def MAX_PID : ℤ := MAX_PROCESS * 2
def KSTACKPAGE : ℕ := 2
def KSTACKSIZE : ℕ := KSTACKPAGE * PGSIZE
def HASH_SHIFT : ℕ := 10
def HASH_LIST_SIZE : ℕ := 2 ^ HASH_SHIFT
def PROC_NAME_LEN : ℕ := 15
def CLONE_VM : BitVec 32 := 0x100

def SSTATUS_SIE : BitVec 64 := 0x2
def SSTATUS_SPIE : BitVec 64 := 0x20
def SSTATUS_SPP : BitVec 64 := 0x100

/-! ## Layout -/

/-- `sizeof(struct proc_struct)` -/
def procStructSize : ℕ := 232

/-- `&(proc->context)` -/
def contextOf (proc : ℕ) : ℕ := proc + 48

/-- `sizeof(struct context)`: `ra`, `sp` and `s0` to `s11` -/
def contextSize : ℕ := 112

/-- `sizeof(struct trapframe)`: 32 registers and four words -/
def trapframeSize : ℕ := 288

inductive ProcState where
  | PROC_UNINIT
  | PROC_SLEEPING
  | PROC_RUNNABLE
  | PROC_ZOMBIE
deriving DecidableEq

/-- `struct proc_struct`, less `context`, the links and the name. -/
structure ProcStruct where
  state : ProcState
  pid : ℤ
  runs : BitVec 32
  kstack : ℕ
  needResched : Bool
  parent : ℕ
  mm : ℕ
  tf : ℕ
  pgdir : ℕ
  flags : BitVec 32
deriving DecidableEq

/-- `struct trapframe`; the register `x_i` is `gpr i`. -/
structure TrapFrame where
  gpr : Fin 32 → BitVec 64
  status : BitVec 64
  epc : BitVec 64
  badvaddr : BitVec 64
  cause : BitVec 64

/-- The words of a trap frame in the order of its fields. -/
def TrapFrame.word (tf : TrapFrame) (index : ℕ) : BitVec 64 :=
  if h : index < 32 then tf.gpr ⟨index, h⟩
  else if index = 32 then tf.status
  else if index = 33 then tf.epc
  else if index = 34 then tf.badvaddr
  else tf.cause

/-- `*address = tf` -/
def storeTrapFrame (mem : Memory) (address : ℕ) (tf : TrapFrame) : Memory :=
  fun other ↦
    if address ≤ other ∧ other < address + trapframeSize then tf.word ((other - address) / 8)
    else mem other

/-- The list heads and the links of the processes. -/
inductive ProcNode where
  | procList
  | hashList (index : ℕ)
  | listLink (proc : ℕ)
  | hashLink (proc : ℕ)
deriving DecidableEq

/-- `le2proc(le, list_link)` and `le2proc(le, hash_link)`, never applied to a list head. -/
def le2proc : ProcNode → ℕ
  | .listLink proc | .hashLink proc => proc
  | .procList | .hashList _ => 0

/-- Addresses the linker fixes. -/
structure ProcImage extends KernelImage where
  bootPgdirPa : ℕ
  bootstack : ℕ
  forkret : ℕ
  kernelThreadEntry : ℕ
  initMain : ℕ
  hello : ℕ

/-- The variables of `proc.c` over the heap, those of `get_pid` included. -/
structure Kernel (allocator : PageAllocator) where
  heap : Heap allocator
  procs : ℕ → ProcStruct
  links : Links ProcNode
  nrProcess : ℤ
  lastPid : ℤ
  nextSafe : ℤ
  idleproc : ℕ
  initproc : ℕ
  current : ℕ

variable {allocator : PageAllocator}

def Kernel.setProc (kernel : Kernel allocator) (proc : ℕ) (fields : ProcStruct) :
    Kernel allocator :=
  { kernel with procs := Function.update kernel.procs proc fields }

def Kernel.setMem (kernel : Kernel allocator) (mem : Memory) : Kernel allocator :=
  { kernel with heap := { kernel.heap with mem } }

/-! ## Process identifiers -/

/-- The scan of `get_pid` from the entry behind `le` on; `goto repeat` starts it over. -/
def getPidScan (links : Links ProcNode) (procs : ℕ → ProcStruct) :
    ℕ → ProcNode → ℤ → ℤ → Except Fault (ℤ × ℤ)
  | 0, _, _, _ => .error .outOfFuel
  | fuel + 1, le, lastPid, nextSafe =>
    let le := links.next le
    if le = .procList then .ok (lastPid, nextSafe)
    else
      let pid := (procs (le2proc le)).pid
      if pid = lastPid then
        let lastPid := lastPid + 1
        if lastPid ≥ nextSafe then
          let lastPid := if lastPid ≥ MAX_PID then 1 else lastPid
          getPidScan links procs fuel .procList lastPid MAX_PID
        else getPidScan links procs fuel le lastPid nextSafe
      else if pid > lastPid ∧ nextSafe > pid then getPidScan links procs fuel le lastPid pid
      else getPidScan links procs fuel le lastPid nextSafe

/-- `get_pid`: the static variables it leaves, of which `lastPid` is the result. -/
def getPid (links : Links ProcNode) (procs : ℕ → ProcStruct) (fuel : ℕ) (lastPid nextSafe : ℤ) :
    Except Fault (ℤ × ℤ) :=
  let lastPid := lastPid + 1
  if lastPid ≥ MAX_PID then getPidScan links procs fuel .procList 1 MAX_PID
  else if lastPid ≥ nextSafe then getPidScan links procs fuel .procList lastPid MAX_PID
  else .ok (lastPid, nextSafe)

/-- `hash32` of `libs/hash.c` -/
def hash32 (val : BitVec 32) (bits : ℕ) : ℕ := ((val * 0x9e370001) >>> (32 - bits)).toNat

def pidHashfn (pid : ℤ) : ℕ := hash32 (BitVec.ofInt 32 pid) HASH_SHIFT

def hashProc (links : Links ProcNode) (procs : ℕ → ProcStruct) (proc : ℕ) : Links ProcNode :=
  listAdd links (.hashList (pidHashfn (procs proc).pid)) (.hashLink proc)

/-- `find_proc`; a null pointer is `0`. -/
def findProc (links : Links ProcNode) (procs : ℕ → ProcStruct) (fuel : ℕ) (pid : ℤ) :
    Except Fault ℕ :=
  if 0 < pid ∧ pid < MAX_PID then
    let list := ProcNode.hashList (pidHashfn pid)
    match links.findFrom list (fun le ↦ (procs (le2proc le)).pid = pid) fuel list with
    | none => .error .outOfFuel
    | some none => .ok 0
    | some (some le) => .ok (le2proc le)
  else .ok 0

/-! ## Making a process -/

def allocProc (image : ProcImage) (fuel : ℕ) (kernel : Kernel allocator) :
    Except Fault (ℕ × Kernel allocator) := do
  let (proc, heap) ← kmalloc image.toKernelImage fuel kernel.heap procStructSize
  let kernel := { kernel with heap }
  if proc = 0 then return (0, kernel)
  let kernel := kernel.setProc proc {
    state := .PROC_UNINIT
    pid := -1
    runs := 0
    kstack := 0
    needResched := false
    parent := 0
    mm := 0
    tf := 0
    pgdir := image.bootPgdirPa
    flags := 0 }
  let kernel := kernel.setMem (kernel.heap.mem.fill (contextOf proc) contextSize 0)
  let links := listInit (listInit kernel.links (.listLink proc)) (.hashLink proc)
  return (proc, { kernel with links })

def setupKstack (image : ProcImage) (kernel : Kernel allocator) (proc : ℕ) :
    Except Fault (ℤ × Kernel allocator) := do
  let (page, pages) := allocator.allocPages kernel.heap.pages KSTACKPAGE
  let kernel := { kernel with heap := { kernel.heap with pages } }
  match page with
  | none => return (-E_NO_MEM, kernel)
  | some page =>
    let kstack ← page2kva image.npage page
    return (0, kernel.setProc proc { kernel.procs proc with kstack })

def putKstack (image : ProcImage) (kernel : Kernel allocator) (proc : ℕ) :
    Except Fault (Kernel allocator) := do
  let page ← kva2page image.npage (kernel.procs proc).kstack
  let pages := allocator.freePages kernel.heap.pages page KSTACKPAGE
  return { kernel with heap := { kernel.heap with pages } }

/-- Kernel threads have no `mm` to copy or share. -/
def copyMm (kernel : Kernel allocator) (_cloneFlags : BitVec 32) (_proc : ℕ) : Except Fault ℤ := do
  assert ((kernel.procs kernel.current).mm = 0)
  return 0

/-- The trap frame at the top of the kernel stack, and the context that `switch_to` will load. -/
def copyThread (image : ProcImage) (kernel : Kernel allocator) (proc : ℕ) (esp : BitVec 64)
    (tf : TrapFrame) : Kernel allocator :=
  let frame := (kernel.procs proc).kstack + KSTACKSIZE - trapframeSize
  let kernel := kernel.setProc proc { kernel.procs proc with tf := frame }
  let mem := storeTrapFrame kernel.heap.mem frame tf
  let mem := mem.write (frame + 8 * 10) 0
  let mem := mem.write (frame + 8 * 2) (if esp = 0 then BitVec.ofNat 64 frame else esp)
  let mem := mem.writePointer (contextOf proc) image.forkret
  let mem := mem.writePointer (contextOf proc + 8) frame
  kernel.setMem mem

def wakeupProc (kernel : Kernel allocator) (proc : ℕ) : Except Fault (Kernel allocator) := do
  assert ((kernel.procs proc).state ≠ .PROC_ZOMBIE ∧ (kernel.procs proc).state ≠ .PROC_RUNNABLE)
  return kernel.setProc proc { kernel.procs proc with state := .PROC_RUNNABLE }

/-- `bad_fork_cleanup_proc`: `kfree(proc)` -/
def cleanupProc (image : ProcImage) (fuel : ℕ) (kernel : Kernel allocator) (proc : ℕ) :
    Except Fault (Kernel allocator) := do
  let heap ← kfree image.toKernelImage fuel kernel.heap proc
  return { kernel with heap }

/-- Step 5 of `do_fork`: a pid, both lists and the counter. -/
def register (fuel : ℕ) (kernel : Kernel allocator) (proc : ℕ) :
    Except Fault (Kernel allocator) := do
  let (lastPid, nextSafe) ←
    getPid kernel.links kernel.procs fuel kernel.lastPid kernel.nextSafe
  let kernel := kernel.setProc proc { kernel.procs proc with pid := lastPid }
  let links := hashProc kernel.links kernel.procs proc
  let links := listAdd links .procList (.listLink proc)
  return { kernel with links, lastPid, nextSafe, nrProcess := kernel.nrProcess + 1 }

def doFork (image : ProcImage) (fuel : ℕ) (kernel : Kernel allocator) (cloneFlags : BitVec 32)
    (stack : BitVec 64) (tf : TrapFrame) : Except Fault (ℤ × Kernel allocator) := do
  if kernel.nrProcess ≥ MAX_PROCESS then return (-E_NO_FREE_PROC, kernel)
  let (proc, kernel) ← allocProc image fuel kernel
  if proc = 0 then return (-E_NO_MEM, kernel)
  let kernel := kernel.setProc proc { kernel.procs proc with parent := kernel.current }
  let (ret, kernel) ← setupKstack image kernel proc
  if ret ≠ 0 then
    let kernel ← cleanupProc image fuel kernel proc
    return (ret, kernel)
  let ret ← copyMm kernel cloneFlags proc
  if ret ≠ 0 then
    let kernel ← putKstack image kernel proc
    let kernel ← cleanupProc image fuel kernel proc
    return (ret, kernel)
  let kernel := copyThread image kernel proc stack tf
  let kernel ← register fuel kernel proc
  let kernel ← wakeupProc kernel proc
  return ((kernel.procs proc).pid, kernel)

/-- The trap frame that `kernel_thread` builds; `sstatus` is the value of the register. -/
def kernelThreadFrame (image : ProcImage) (sstatus fn arg : BitVec 64) : TrapFrame where
  gpr index := if index = 8 then fn else if index = 9 then arg else 0
  status := (sstatus ||| SSTATUS_SPP ||| SSTATUS_SPIE) &&& ~~~SSTATUS_SIE
  epc := BitVec.ofNat 64 image.kernelThreadEntry
  badvaddr := 0
  cause := 0

def kernelThread (image : ProcImage) (fuel : ℕ) (kernel : Kernel allocator)
    (sstatus fn arg : BitVec 64) (cloneFlags : BitVec 32) : Except Fault (ℤ × Kernel allocator) :=
  doFork image fuel kernel (cloneFlags ||| CLONE_VM) 0 (kernelThreadFrame image sstatus fn arg)

/-- The loop of `proc_init` over the hash buckets. -/
def initBuckets (links : Links ProcNode) : ℕ → Links ProcNode
  | 0 => links
  | index + 1 => listInit (initBuckets links index) (.hashList index)

/-- `memset(name, 0, PROC_NAME_LEN)`: one doubleword and seven bytes of the next. -/
def clearName (mem : Memory) (name : ℕ) : Memory :=
  (mem.write name 0).write (name + 8) (mem (name + 8) &&& 0xFF00000000000000)

/-- `proc_init`. The buffers of its self-check stay allocated; what the check prints and the names of
the processes are left out. -/
def procInit (image : ProcImage) (fuel : ℕ) (kernel : Kernel allocator) (sstatus : BitVec 64) :
    Except Fault (Kernel allocator) := do
  let links := initBuckets (listInit kernel.links .procList) HASH_LIST_SIZE
  let (idleproc, kernel) ← allocProc image fuel { kernel with links }
  assert (idleproc ≠ 0)
  let kernel := { kernel with idleproc }
  let (contextMem, heap) ← kmalloc image.toKernelImage fuel kernel.heap contextSize
  -- a store through a null pointer does not return
  assert (contextMem ≠ 0)
  let kernel := { kernel with heap }.setMem (heap.mem.fill contextMem contextSize 0)
  let (nameMem, heap) ← kmalloc image.toKernelImage fuel kernel.heap PROC_NAME_LEN
  assert (nameMem ≠ 0)
  let kernel := { kernel with heap }.setMem (clearName heap.mem nameMem)
  let kernel := kernel.setProc idleproc { kernel.procs idleproc with
    pid := 0
    state := .PROC_RUNNABLE
    kstack := image.bootstack
    needResched := true }
  let kernel := { kernel with nrProcess := kernel.nrProcess + 1, current := idleproc }
  let (pid, kernel) ← kernelThread image fuel kernel sstatus (BitVec.ofNat 64 image.initMain)
    (BitVec.ofNat 64 image.hello) 0
  assert (0 < pid)
  let initproc ← findProc kernel.links kernel.procs fuel pid
  let kernel := { kernel with initproc }
  assert (kernel.idleproc ≠ 0 ∧ (kernel.procs kernel.idleproc).pid = 0)
  assert (kernel.initproc ≠ 0 ∧ (kernel.procs kernel.initproc).pid = 1)
  return kernel

end Ucore
