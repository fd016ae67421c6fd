import Ucore.Process.Switch

/-!
# The scheduler (`kern/schedule/sched.c`, `proc_run` in `kern/process/proc.c`)

`schedule` selects a process and `proc_run` switches to it. What they do to the kernel is split at the
points where interrupts are disabled and restored and where the stack changes, since another thread
runs the code behind `switch_to`.
-/

namespace Ucore

open Foundation Rv64

variable {allocator : PageAllocator}

/-- The loop of `schedule`; `next` is the process that it met last, `NULL` before the first one. -/
def scheduleScan (links : Links ProcNode) (procs : ℕ → ProcStruct) (last : ProcNode) :
    ℕ → ProcNode → ℕ → Except Fault ℕ
  | 0, _, _ => .error .outOfFuel
  | fuel + 1, le, next =>
    let le := links.next le
    let next := if le ≠ .procList then le2proc le else next
    if le ≠ .procList ∧ (procs next).state = .PROC_RUNNABLE then .ok next
    else if le ≠ last then scheduleScan links procs last fuel le next
    else .ok next

/-- The process that `schedule` selects. -/
def scheduleNext (fuel : ℕ) (kernel : Kernel allocator) : Except Fault ℕ := do
  let last :=
    if kernel.current = kernel.idleproc then ProcNode.procList else .listLink kernel.current
  let next ← scheduleScan kernel.links kernel.procs last fuel last 0
  if next = 0 ∨ (kernel.procs next).state ≠ .PROC_RUNNABLE then return kernel.idleproc
  return next

/-- The body of `schedule` before it calls `proc_run`. -/
def scheduleSelect (fuel : ℕ) (kernel : Kernel allocator) : Except Fault (ℕ × Kernel allocator) := do
  let current := kernel.current
  let kernel := kernel.setProc current { kernel.procs current with needResched := false }
  let next ← scheduleNext fuel kernel
  return (next, kernel.setProc next { kernel.procs next with runs := (kernel.procs next).runs + 1 })

/-! ## `satp` -/

def RISCV_PGSHIFT : ℕ := 12
def SATP32_MODE : BitVec 32 := 0x80000000

/-- The register that holds an operand of type `unsigned int`: words are kept sign-extended. -/
def unsignedOperand (value : BitVec 32) : BitVec 64 := value.signExtend 64

/-- The value that `lsatp` writes; its parameter is an `unsigned int`. -/
def lsatp (pgdir : BitVec 32) : BitVec 64 :=
  unsignedOperand (SATP32_MODE ||| (pgdir >>> RISCV_PGSHIFT))

/-- The value that `enable_paging` writes. -/
def enablePaging (bootPgdirPa : BitVec 64) : BitVec 64 :=
  0x8000000000000000 ||| (bootPgdirPa >>> RISCV_PGSHIFT)

/-- The value that `kern_entry` writes, from the virtual address of the table. -/
def kernEntry (bootPageTable : BitVec 64) : BitVec 64 :=
  ((bootPageTable - BitVec.ofNat 64 va_pa_offset) >>> 12) ||| (8 <<< 60)

/-! ## `proc_run` -/

/-- `proc_run` up to its call of `switch_to`: `current` and `satp` change. -/
def procRunEnter (kernel : Kernel allocator) (proc : ℕ) : Kernel allocator × BitVec 64 :=
  ({ kernel with current := proc }, lsatp (BitVec.ofNat 32 (kernel.procs proc).pgdir))

/-- What `switch_to` stores. -/
def saveContext (mem : Memory) (context : ℕ) (x : Register → BitVec 64) : Memory :=
  contextSlots.foldl (fun mem slot ↦ mem.write (context + slot.2) (x slot.1)) mem

/-- `schedule` up to the point where another thread goes on: the registers `x` of the thread that runs
are stored in its context. -/
def schedule (fuel : ℕ) (kernel : Kernel allocator) (x : Register → BitVec 64) :
    Except Fault (Kernel allocator) := do
  let current := kernel.current
  let (next, kernel) ← scheduleSelect fuel kernel
  if next = current then return kernel
  let (kernel, _) := procRunEnter kernel next
  return kernel.setMem (saveContext kernel.heap.mem (contextOf current) x)

end Ucore
