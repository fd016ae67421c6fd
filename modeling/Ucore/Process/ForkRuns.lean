import Ucore.Mm.KmallocFrame
import Ucore.Process.ForkSpec
import Ucore.Process.SchedSpec

/-!
# Runs of `do_fork` after `proc_init`

A `ProcWorld` is the state of the kernel together with what the other clients of the two allocators
hold. Processes are forked and scheduled, the running thread writes to its own stack, and the clients
go on; the invariant says which blocks and pages belong to which process.
-/

namespace Ucore

open Foundation Memory

/-- The two pages of a kernel stack. -/
def stackRun (kstack : ℕ) : Block := ⟨(kstack - va_pa_offset) / PGSIZE - nbase, KSTACKPAGE⟩

theorem stackRun_kvaOf {image : KernelImage} {page : ℕ} (h : image.Usable page) :
    stackRun (kvaOf page) = ⟨page, KSTACKPAGE⟩ := by
  have hindex : (kvaOf page - va_pa_offset) / PGSIZE = page + nbase := by
    rw [h.kvaOf_eq, Nat.add_sub_cancel]
    exact Nat.mul_div_cancel _ (by decide)
  rw [stackRun, hindex, Nat.add_sub_cancel]

theorem stackBytes_eq (kstack : ℕ) : stackBytes kstack = ⟨kstack, PGSIZE * KSTACKPAGE⟩ := by
  rw [stackBytes, KSTACKSIZE, Nat.mul_comm]

theorem first_mem_run (page : ℕ) : page ∈ Block.cells ⟨page, KSTACKPAGE⟩ := by
  rw [Block.mem_cells_mk]
  exact ⟨le_rfl, Nat.lt_add_of_pos_right (by decide)⟩

structure ProcWorld (allocator : PageAllocator) where
  kernel : Kernel allocator
  small : List Block
  big : List (ℕ × ℕ)
  others : Set Block

namespace ProcWorld

variable {allocator : PageAllocator}

/-- The heap as its other clients see it. -/
def clients (world : ProcWorld allocator) : HeapWorld allocator :=
  ⟨world.kernel.heap, world.small, world.big, world.others⟩

def withClients (world : ProcWorld allocator) (clients : HeapWorld allocator) :
    ProcWorld allocator :=
  ⟨{ world.kernel with heap := clients.heap }, clients.small, clients.big, clients.others⟩

inductive Step (image : ProcImage) : ProcWorld allocator → ProcWorld allocator → Prop
  | fork {world : ProcWorld allocator} {kernel' : Kernel allocator} {fuel : ℕ} {flags : BitVec 32}
      {esp : BitVec 64} {tf : TrapFrame} {ret : ℤ}
      (hcall : doFork image fuel world.kernel flags esp tf = .ok (ret, kernel')) :
      Step image world { world with kernel := kernel' }
  | schedule {world : ProcWorld allocator} {kernel' : Kernel allocator} {fuel : ℕ}
      {x : Rv64.Register → BitVec 64} (hcall : Ucore.schedule fuel world.kernel x = .ok kernel') :
      Step image world { world with kernel := kernel' }
  | procRun {world : ProcWorld allocator} {proc : ℕ} {x : Rv64.Register → BitVec 64}
      (hproc : IsProcess world.kernel proc) (hother : proc ≠ world.kernel.current) :
      Step image world { world with
        kernel := (procRunEnter world.kernel proc).1.setMem
          (saveContext world.kernel.heap.mem (contextOf world.kernel.current) x) }
  | client {world : ProcWorld allocator} {clients : HeapWorld allocator}
      (hstep : HeapWorld.Step image.toKernelImage world.clients clients) :
      Step image world (world.withClients clients)
  | stack {world : ProcWorld allocator} {mem : Memory}
      (hthread : world.kernel.current ≠ world.kernel.idleproc)
      (hmem : ∀ address ∉ (stackBytes (world.kernel.procs world.kernel.current).kstack).cells,
        mem address = world.kernel.heap.mem address) :
      Step image world { world with kernel := world.kernel.setMem mem }
  | fields {world : ProcWorld allocator} {proc : ℕ} {fields : ProcStruct}
      (hpid : fields.pid = (world.kernel.procs proc).pid)
      (hkstack : fields.kstack = (world.kernel.procs proc).kstack)
      (htf : fields.tf = (world.kernel.procs proc).tf)
      (hpgdir : fields.pgdir = (world.kernel.procs proc).pgdir)
      (hmm : fields.mm = (world.kernel.procs proc).mm) :
      Step image world { world with kernel := world.kernel.setProc proc fields }

/-- The states of all runs from `proc_init` on, which is called while the heap is in use already. -/
inductive Reachable (image : ProcImage) : ProcWorld allocator → Prop
  | boot {clients : HeapWorld allocator} {kernel kernel' : Kernel allocator} {fuel : ℕ}
      {sstatus : BitVec 64} (hclients : clients.Reachable image.toKernelImage)
      (hheap : kernel.heap = clients.heap) (hcount : kernel.nrProcess = 0)
      (hlast : kernel.lastPid = MAX_PID) (hsafe : kernel.nextSafe = MAX_PID)
      (hinit : procInit image fuel kernel sstatus = .ok kernel') :
      Reachable image ⟨kernel', clients.small, clients.big, clients.others⟩
  | step {world world' : ProcWorld allocator} (hworld : Reachable image world)
      (hstep : Step image world world') : Reachable image world'

def stackRuns (procs : ℕ → ProcStruct) (members : List ℕ) : Set Block :=
  {run | ∃ proc ∈ members, run = stackRun (procs proc).kstack}

/-- The members of the registry own their blocks and their stacks; `boot` are the blocks that
`proc_init` took, the one of the idle process among them. -/
structure Inv (image : ProcImage) (world : ProcWorld allocator) (members : List ℕ)
    (boot blocks : List Block) (entries : List BigBlock) (grown : List ℕ) : Prop where
  registry : Registry world.kernel members
  heap : HeapInv image.toKernelImage world.kernel.heap blocks
    (world.small ++ (members.map procBlock ++ boot)) entries grown
    (world.others ∪ stackRuns world.kernel.procs members)
  big : world.big = entries.map BigBlock.handle
  idle : world.kernel.idleproc ≠ 0 ∧ SLOB_UNIT ≤ world.kernel.idleproc ∧
    procBlock world.kernel.idleproc ∈ boot
  idleStack : (world.kernel.procs world.kernel.idleproc).kstack = image.bootstack
  header : ∀ proc ∈ members, SLOB_UNIT ≤ proc
  stack : ∀ proc ∈ members, ∃ page, (world.kernel.procs proc).kstack = kvaOf page ∧
    ∀ other ∈ Block.cells ⟨page, KSTACKPAGE⟩, image.Usable other
  apart : members.Pairwise fun proc other ↦ Disjoint
    (stackRun (world.kernel.procs proc).kstack).cells
    (stackRun (world.kernel.procs other).kstack).cells
  foreign : ∀ loan ∈ world.others, ∀ proc ∈ members,
    Disjoint loan.cells (stackRun (world.kernel.procs proc).kstack).cells
  current : world.kernel.current ∈ world.kernel.idleproc :: members

section StackRuns

variable {procs procs' : ℕ → ProcStruct} {members : List ℕ} {proc : ℕ}

theorem stackRuns_congr (h : ∀ proc ∈ members, (procs' proc).kstack = (procs proc).kstack) :
    stackRuns procs' members = stackRuns procs members := by
  ext run
  constructor
  · rintro ⟨proc, hproc, rfl⟩
    exact ⟨proc, hproc, by rw [h proc hproc]⟩
  · rintro ⟨proc, hproc, rfl⟩
    exact ⟨proc, hproc, by rw [h proc hproc]⟩

theorem stackRuns_cons : stackRuns procs (proc :: members) =
    insert (stackRun (procs proc).kstack) (stackRuns procs members) := by
  ext run
  simp [stackRuns]

end StackRuns

namespace Inv

variable {image : ProcImage} {world : ProcWorld allocator} {kernel' : Kernel allocator}
  {members : List ℕ} {boot blocks blocks' : List Block} {entries : List BigBlock}
  {grown grown' : List ℕ} {proc fuel : ℕ}

/-- A kernel stack is the bytes of its two pages. -/
theorem stack_bytes (h : Inv image world members boot blocks entries grown) (hproc : proc ∈ members) :
    stackBytes (world.kernel.procs proc).kstack =
        ⟨kvaOf (stackRun (world.kernel.procs proc).kstack).start,
          PGSIZE * (stackRun (world.kernel.procs proc).kstack).size⟩ ∧
      ∀ page ∈ (stackRun (world.kernel.procs proc).kstack).cells, image.Usable page := by
  obtain ⟨page, hkstack, husable⟩ := h.stack proc hproc
  have hrun : stackRun (world.kernel.procs proc).kstack = ⟨page, KSTACKPAGE⟩ := by
    rw [hkstack]
    exact stackRun_kvaOf (husable page (first_mem_run page))
  rw [hrun, hkstack]
  exact ⟨rfl, husable⟩

theorem usable (h : Inv image world members boot blocks entries grown) :
    ∀ run ∈ stackRuns world.kernel.procs members, ∀ page ∈ run.cells, image.Usable page := by
  rintro run ⟨proc, hproc, rfl⟩
  exact (h.stack_bytes hproc).2

theorem owner (h : Inv image world members boot blocks entries grown)
    (hproc : proc ∈ world.kernel.idleproc :: members) : proc ≠ 0 ∧ SLOB_UNIT ≤ proc ∧
      procBlock proc ∈ world.small ++ (members.map procBlock ++ boot) := by
  rcases List.mem_cons.mp hproc with rfl | hmem
  · obtain ⟨hnonnull, hheader, hblock⟩ := h.idle
    exact ⟨hnonnull, hheader, List.mem_append_right _ (List.mem_append_right _ hblock)⟩
  · refine ⟨h.registry.nonnull proc hmem, h.header proc hmem, ?_⟩
    exact List.mem_append_right _ (List.mem_append_left _ (List.mem_map_of_mem hmem))

/-- A change of the kernel that concerns neither the registry nor the stacks. -/
theorem update (h : Inv image world members boot blocks entries grown)
    (hregistry : Registry kernel' members)
    (hheap : HeapInv image.toKernelImage kernel'.heap blocks'
      (world.small ++ (members.map procBlock ++ boot)) entries grown'
      (world.others ∪ stackRuns world.kernel.procs members))
    (hkstack : ∀ proc ∈ world.kernel.idleproc :: members,
      (kernel'.procs proc).kstack = (world.kernel.procs proc).kstack)
    (hidle : kernel'.idleproc = world.kernel.idleproc)
    (hcurrent : kernel'.current ∈ world.kernel.idleproc :: members) :
    Inv image { world with kernel := kernel' } members boot blocks' entries grown' where
  registry := hregistry
  heap := by
    rw [← stackRuns_congr fun proc hproc ↦ hkstack proc (List.mem_cons_of_mem _ hproc)] at hheap
    exact hheap
  big := h.big
  idle := hidle ▸ h.idle
  idleStack := by
    change (kernel'.procs kernel'.idleproc).kstack = image.bootstack
    rw [hidle, hkstack _ List.mem_cons_self]
    exact h.idleStack
  header := h.header
  stack proc hproc := by
    change ∃ page, (kernel'.procs proc).kstack = kvaOf page ∧ _
    rw [hkstack proc (List.mem_cons_of_mem _ hproc)]
    exact h.stack proc hproc
  apart := by
    refine h.apart.imp_of_mem fun hproc hother hdisjoint ↦ ?_
    change Disjoint (stackRun (kernel'.procs _).kstack).cells
      (stackRun (kernel'.procs _).kstack).cells
    rw [hkstack _ (List.mem_cons_of_mem _ hproc), hkstack _ (List.mem_cons_of_mem _ hother)]
    exact hdisjoint
  foreign loan hloan proc hproc := by
    change Disjoint loan.cells (stackRun (kernel'.procs proc).kstack).cells
    rw [hkstack proc (List.mem_cons_of_mem _ hproc)]
    exact h.foreign loan hloan proc hproc
  current := hidle ▸ hcurrent

/-! ## `do_fork` -/

/-- A new process owns a block of the heap and two pages that nobody had. -/
theorem forked {esp : BitVec 64} {tf : TrapFrame} {page : ℕ} {pid : ℤ}
    (h : Inv image world members boot blocks entries grown)
    (hnew : proc ∉ world.kernel.idleproc :: members) (hheader : SLOB_UNIT ≤ proc)
    (husable : ∀ other ∈ Block.cells ⟨page, KSTACKPAGE⟩, image.Usable other)
    (hfresh : ∀ loan ∈ world.others ∪ stackRuns world.kernel.procs members,
      Disjoint loan.cells (Block.cells ⟨page, KSTACKPAGE⟩))
    (hregistry : Registry kernel' (proc :: members))
    (hforked : Forked image world.kernel kernel' esp tf proc page pid)
    (hheap : HeapInv image.toKernelImage kernel'.heap blocks'
      (procBlock proc :: (world.small ++ (members.map procBlock ++ boot))) entries grown'
      (insert ⟨page, KSTACKPAGE⟩ (world.others ∪ stackRuns world.kernel.procs members))) :
    Inv image { world with kernel := kernel' } (proc :: members) boot blocks' entries grown' := by
  have hkstack : ∀ other ∈ world.kernel.idleproc :: members,
      (kernel'.procs other).kstack = (world.kernel.procs other).kstack := fun other hother ↦
    congrArg ProcStruct.kstack (hforked.procs other fun heq ↦ hnew (heq ▸ hother))
  have hmember : ∀ other ∈ members,
      (kernel'.procs other).kstack = (world.kernel.procs other).kstack :=
    fun other hother ↦ hkstack other (List.mem_cons_of_mem _ hother)
  have hown : (kernel'.procs proc).kstack = kvaOf page := by rw [hforked.fields]
  have hrun : stackRun (kernel'.procs proc).kstack = ⟨page, KSTACKPAGE⟩ := by
    rw [hown]
    exact stackRun_kvaOf (husable page (first_mem_run page))
  have hruns : insert ⟨page, KSTACKPAGE⟩ (world.others ∪ stackRuns world.kernel.procs members) =
      world.others ∪ stackRuns kernel'.procs (proc :: members) := by
    rw [stackRuns_cons, hrun, stackRuns_congr hmember, Set.union_insert]
  have hperm : (procBlock proc :: (world.small ++ (members.map procBlock ++ boot))).Perm
      (world.small ++ ((proc :: members).map procBlock ++ boot)) := List.perm_middle.symm
  rw [hruns] at hheap
  refine ⟨hregistry, hheap.perm hperm, h.big, hforked.idleproc ▸ h.idle, ?_,
    List.forall_mem_cons.mpr ⟨hheader, h.header⟩, List.forall_mem_cons.mpr ⟨⟨page, hown, husable⟩,
    fun other hother ↦ ?_⟩, List.pairwise_cons.mpr ⟨fun other hother ↦ ?_, ?_⟩,
    fun loan hloan other hother ↦ ?_, ?_⟩
  · change (kernel'.procs kernel'.idleproc).kstack = image.bootstack
    rw [hforked.idleproc, hkstack _ List.mem_cons_self]
    exact h.idleStack
  · change ∃ page, (kernel'.procs other).kstack = kvaOf page ∧ _
    rw [hmember other hother]
    exact h.stack other hother
  · change Disjoint (stackRun (kernel'.procs proc).kstack).cells
      (stackRun (kernel'.procs other).kstack).cells
    rw [hrun, hmember other hother]
    exact (hfresh _ (.inr ⟨other, hother, rfl⟩)).symm
  · refine h.apart.imp_of_mem fun hother hother' hdisjoint ↦ ?_
    change Disjoint (stackRun (kernel'.procs _).kstack).cells
      (stackRun (kernel'.procs _).kstack).cells
    rw [hmember _ hother, hmember _ hother']
    exact hdisjoint
  · change Disjoint loan.cells (stackRun (kernel'.procs other).kstack).cells
    rcases List.mem_cons.mp hother with rfl | hmem
    · rw [hrun]
      exact hfresh loan (.inl hloan)
    · rw [hmember other hmem]
      exact h.foreign loan hloan other hmem
  · change kernel'.current ∈ kernel'.idleproc :: proc :: members
    rw [hforked.current, hforked.idleproc]
    rcases List.mem_cons.mp h.current with hidle | hmem
    · exact List.mem_cons.mpr (.inl hidle)
    · exact List.mem_cons_of_mem _ (List.mem_cons_of_mem _ hmem)

/-- Whatever belongs to the processes that exist is foreign to the new stack. -/
theorem reserved_fresh {page address : ℕ} {heap : Heap allocator} {live : List Block}
    (h : Inv image world members boot blocks entries grown)
    (husable : ∀ other ∈ Block.cells ⟨page, KSTACKPAGE⟩, image.Usable other)
    (hfresh : ∀ loan ∈ world.others ∪ stackRuns world.kernel.procs members,
      Disjoint loan.cells (Block.cells ⟨page, KSTACKPAGE⟩))
    (hlive : world.small ++ (members.map procBlock ++ boot) ⊆ live)
    (hheap : HeapInv image.toKernelImage heap blocks' live entries grown'
      (insert ⟨page, KSTACKPAGE⟩ (world.others ∪ stackRuns world.kernel.procs members)))
    (hreserved : HeapWorld.Reserved (members.map procBlock ++ boot)
      (stackRuns world.kernel.procs members) address) :
    Foreign image.toKernelImage
        ((world.small ++ (members.map procBlock ++ boot)) ++ entries.map BigBlock.units) grown'
        address ∧
      address ∉ (stackBytes (kvaOf page)).cells := by
  rw [stackBytes_eq]
  rcases hreserved with ⟨block, hblock, hcell⟩ | ⟨run, hrun, hcell⟩
  · have hmem := List.mem_append_right world.small hblock
    refine ⟨.inl ⟨block, List.mem_append_left _ hmem, hcell⟩, fun hstack ↦ ?_⟩
    have houtside := hheap.outside_of_loan (.inl rfl) husable hstack
    refine houtside.1 ?_
    rw [← hheap.slob.partition]
    exact .inr ⟨block, List.mem_append_left _ (hlive hmem), hcell⟩
  · refine ⟨.inr (hheap.outside_of_loan (.inr (.inr hrun)) (h.usable run hrun) hcell), ?_⟩
    have hapart := runBytes_disjoint (h.usable run hrun) husable (hfresh run (.inr hrun))
    exact Set.disjoint_left.mp hapart hcell

theorem doFork {flags : BitVec 32} {esp : BitVec 64} {tf : TrapFrame} {ret : ℤ}
    (h : Inv image world members boot blocks entries grown)
    (hcorrect : allocator.Correct image.Usable)
    (hcall : Ucore.doFork image fuel world.kernel flags esp tf = .ok (ret, kernel')) :
    ∃ proc blocks' taken, proc ∉ world.kernel.idleproc :: members ∧ taken.length ≤ 1 ∧
      (∀ address, HeapWorld.Reserved (members.map procBlock ++ boot)
        (stackRuns world.kernel.procs members) address →
          kernel'.heap.mem address = world.kernel.heap.mem address) ∧
      ((ret < 0 ∧ OnlyProc world.kernel kernel' proc ∧
          (∀ address, Foreign image.toKernelImage
            ((world.small ++ (members.map procBlock ++ boot)) ++ entries.map BigBlock.units)
            (taken ++ grown) address →
              kernel'.heap.mem address = world.kernel.heap.mem address) ∧
          Inv image { world with kernel := kernel' } members boot blocks' entries
            (taken ++ grown)) ∨
        (1 ≤ ret ∧ ∃ page, Forked image world.kernel kernel' esp tf proc page ret ∧
          Inv image { world with kernel := kernel' } (proc :: members) boot blocks' entries
            (taken ++ grown))) := by
  obtain ⟨proc, blocks', taken, hnew, htaken, ⟨hneg, honly, hkept, hheap⟩ |
    ⟨hpos, hheader, page, husable, hfresh, hregistry, hforked, hheap, hkept⟩⟩ :=
    doFork_spec hcorrect h.registry h.heap
      (fun other hother ↦ ⟨(h.owner hother).1, (h.owner hother).2.2⟩)
      (List.subset_cons_self _ _) hcall
  · have hnew' : proc ∉ members := fun hmem ↦ hnew (List.mem_cons_of_mem _ hmem)
    refine ⟨proc, blocks', taken, hnew, htaken, fun address hreserved ↦
      hkept address (hreserved.foreign hheap h.usable), .inl ⟨hneg, honly, hkept, ?_⟩⟩
    refine h.update (honly.registry h.registry hnew') hheap (fun other hother ↦ ?_)
      honly.idleproc (honly.current ▸ h.current)
    rw [honly.procs other fun heq ↦ hnew (heq ▸ hother)]
  · refine ⟨proc, blocks', taken, hnew, htaken, fun address hreserved ↦ ?_,
      .inr ⟨hpos, page, hforked, h.forked hnew hheader husable hfresh hregistry hforked hheap⟩⟩
    obtain ⟨hforeign, hstack⟩ :=
      h.reserved_fresh husable hfresh (List.subset_cons_self _ _) hheap hreserved
    exact hkept address hforeign hstack

/-! ## The other steps -/

theorem loan_not_stack (h : Inv image world members boot blocks entries grown) :
    ∀ loan ∈ world.others, loan ∉ stackRuns world.kernel.procs members := by
  rintro loan hloan ⟨proc, hproc, rfl⟩
  have hself := first_mem_run (stackRun (world.kernel.procs proc).kstack).start
  exact Set.disjoint_left.mp (h.foreign _ hloan proc hproc) hself hself

/-- A step of the other clients leaves the processes alone. -/
theorem client {clients : HeapWorld allocator}
    (h : Inv image world members boot blocks entries grown)
    (hcorrect : allocator.Correct image.Usable)
    (hstep : HeapWorld.Step image.toKernelImage world.clients clients) :
    (∀ address, HeapWorld.Reserved (members.map procBlock ++ boot)
        (stackRuns world.kernel.procs members) address →
      clients.heap.mem address = world.kernel.heap.mem address) ∧
    ∃ blocks' entries' grown',
      Inv image (world.withClients clients) members boot blocks' entries' grown' := by
  refine ⟨fun address ↦
    hstep.unchanged hcorrect h.heap h.big h.loan_not_stack h.usable, ?_⟩
  have hsound : HeapWorld.Sound image.toKernelImage (world.clients.extend
      (members.map procBlock ++ boot) (stackRuns world.kernel.procs members)) :=
    ⟨blocks, entries, grown, h.heap, h.big⟩
  obtain ⟨blocks', entries', grown', hheap, hbig⟩ :=
    (hstep.extend h.loan_not_stack).sound hcorrect hsound
  have hregistry : Registry { world.kernel with heap := clients.heap } members :=
    h.registry.congr (fun _ _ ↦ ⟨rfl, rfl⟩) (fun _ _ ↦ rfl) rfl rfl rfl
  refine ⟨blocks', entries', grown', hregistry, hheap, hbig, h.idle, h.idleStack, h.header, h.stack,
    h.apart,
    fun loan hloan proc hproc ↦ ?_, h.current⟩
  rcases hstep.lends hcorrect hloan with hmem | hfresh
  · exact h.foreign loan hmem proc hproc
  · refine (hfresh _ ?_).symm
    change _ ∈ allocator.outstanding world.kernel.heap.pages
    rw [h.heap.ledger.outstanding]
    exact .inl (.inr ⟨proc, hproc, rfl⟩)

/-- Writes to stacks and to `struct proc_struct`s. -/
theorem setMem {mem : Memory} (h : Inv image world members boot blocks entries grown)
    (hmem : ∀ address, (∀ proc ∈ members,
        address ∉ (stackBytes (world.kernel.procs proc).kstack).cells) →
      (∀ proc ∈ world.kernel.idleproc :: members,
        ¬ (proc ≤ address ∧ address < proc + procStructSize)) →
      mem address = world.kernel.heap.mem address) :
    Inv image { world with kernel := world.kernel.setMem mem } members boot blocks entries grown := by
  refine h.update (h.registry.congr (fun _ _ ↦ ⟨rfl, rfl⟩) (fun _ _ ↦ rfl) rfl rfl rfl)
    (h.heap.write fun address hnot ↦ hmem address (fun proc hproc hcell ↦ hnot (.inr ?_))
      fun proc hproc hcell ↦ hnot (.inl ?_)) (fun _ _ ↦ rfl) rfl h.current
  · obtain ⟨hbytes, husable⟩ := h.stack_bytes hproc
    rw [hbytes] at hcell
    exact h.heap.outside_of_loan (.inr ⟨proc, hproc, rfl⟩) husable hcell
  · obtain ⟨-, hheader, hblock⟩ := h.owner hproc
    exact procBlock_payload hblock hheader hcell.1 hcell.2

/-- `schedule` up to the point where another thread goes on. -/
theorem schedule {x : Rv64.Register → BitVec 64}
    (h : Inv image world members boot blocks entries grown)
    (hcall : Ucore.schedule fuel world.kernel x = .ok kernel') :
    Inv image { world with kernel := kernel' } members boot blocks entries grown := by
  obtain ⟨hcurrent, haccounted, mem, hkernel, hmem⟩ := schedule_spec h.registry h.current hcall
  have hregistry : Registry kernel' members :=
    haccounted.registry h.registry (by rw [hkernel]) (by rw [hkernel]) (by rw [hkernel])
      (by rw [hkernel])
  have hwritten : Inv image { world with kernel := world.kernel.setMem mem } members boot blocks
      entries grown := by
    refine h.setMem fun address _ hprocs ↦ ?_
    rcases hmem with rfl | rfl
    · rfl
    · exact saveContext_outside (hprocs _ h.current)
  have hheap : kernel'.heap = (world.kernel.setMem mem).heap := by rw [hkernel]; rfl
  refine h.update hregistry (hheap ▸ hwritten.heap) (fun proc _ ↦ ?_) (by rw [hkernel]) hcurrent
  rw [haccounted proc]

/-- `proc_run` up to the point where the other thread goes on. -/
theorem procRun {x : Rv64.Register → BitVec 64}
    (h : Inv image world members boot blocks entries grown)
    (hproc : proc ∈ world.kernel.idleproc :: members) :
    Inv image { world with
      kernel := (procRunEnter world.kernel proc).1.setMem
        (saveContext world.kernel.heap.mem (contextOf world.kernel.current) x) }
      members boot blocks entries grown := by
  have hwritten : Inv image { world with
      kernel := world.kernel.setMem
        (saveContext world.kernel.heap.mem (contextOf world.kernel.current) x) }
      members boot blocks entries grown := h.setMem fun address _ hprocs ↦
    saveContext_outside (hprocs world.kernel.current h.current)
  exact h.update (h.registry.congr (fun _ _ ↦ ⟨rfl, rfl⟩) (fun _ _ ↦ rfl) rfl rfl rfl)
    hwritten.heap (fun _ _ ↦ rfl) rfl hproc

/-- Fields that identify the process or its stack stay. -/
theorem fields {fields : ProcStruct} (h : Inv image world members boot blocks entries grown)
    (hpid : fields.pid = (world.kernel.procs proc).pid)
    (hkstack : fields.kstack = (world.kernel.procs proc).kstack) :
    Inv image { world with kernel := world.kernel.setProc proc fields } members boot blocks entries
      grown := by
  have hsame : ∀ {α : Type} (field : ProcStruct → α),
      field fields = field (world.kernel.procs proc) → ∀ other,
        field ((world.kernel.setProc proc fields).procs other) =
          field (world.kernel.procs other) := by
    intro α field hfield other
    by_cases heq : other = proc
    · subst heq
      exact (congrArg field (Function.update_self _ _ _)).trans hfield
    · exact congrArg field (Function.update_of_ne heq _ _)
  refine h.update (h.registry.congr (fun _ _ ↦ ⟨rfl, rfl⟩) (fun other _ ↦ ?_) rfl rfl rfl) h.heap
    (fun other _ ↦ hsame ProcStruct.kstack hkstack other) rfl h.current
  exact hsame ProcStruct.pid hpid other

/-! ## What belongs to one process -/

/-- The cells of the `struct proc_struct` and of the stack of a process. -/
def Own (world : ProcWorld allocator) (proc address : ℕ) : Prop :=
  address ∈ (procBlock proc).cells ∨ proc ≠ world.kernel.idleproc ∧
    address ∈ (stackBytes (world.kernel.procs proc).kstack).cells

theorem reserved_of_own {address : ℕ} (h : Inv image world members boot blocks entries grown)
    (hproc : proc ∈ world.kernel.idleproc :: members) (hown : Own world proc address) :
    HeapWorld.Reserved (members.map procBlock ++ boot) (stackRuns world.kernel.procs members)
      address := by
  rcases hown with hcell | ⟨hne, hcell⟩
  · refine .inl ⟨procBlock proc, ?_, hcell⟩
    rcases List.mem_cons.mp hproc with rfl | hmem
    · exact List.mem_append_right _ h.idle.2.2
    · exact List.mem_append_left _ (List.mem_map_of_mem hmem)
  · have hmem := List.mem_of_ne_of_mem hne hproc
    rw [(h.stack_bytes hmem).1] at hcell
    exact .inr ⟨_, ⟨proc, hmem, rfl⟩, hcell⟩

theorem procBlocks_apart {other : ℕ} (h : Inv image world members boot blocks entries grown)
    (hproc : proc ∈ world.kernel.idleproc :: members)
    (hother : other ∈ world.kernel.idleproc :: members) (hne : proc ≠ other) :
    Disjoint (procBlock proc).cells (procBlock other).cells := by
  obtain ⟨-, hheader, hblock⟩ := h.owner hproc
  obtain ⟨-, hheader', hblock'⟩ := h.owner hother
  have hblocks : procBlock proc ≠ procBlock other := by
    intro heq
    have hstart : proc - SLOB_UNIT = other - SLOB_UNIT := congrArg Block.start heq
    omega
  have hsymm : Std.Symm fun left right : Block ↦ Disjoint left.cells right.cells :=
    ⟨fun _ _ hdisjoint ↦ hdisjoint.symm⟩
  exact h.heap.slob.apart.forall (List.mem_append_left _ hblock) (List.mem_append_left _ hblock')
    hblocks

/-- Contexts lie in the address space, and no two of them overlap. -/
theorem context_fits (h : Inv image world members boot blocks entries grown)
    (hproc : proc ∈ world.kernel.idleproc :: members) : contextOf proc + contextSize ≤ 2 ^ 64 := by
  obtain ⟨-, hheader, hblock⟩ := h.owner hproc
  have hlive := h.heap.slob.live_above (List.mem_append_left _ hblock)
  rw [procBlock, Block.stop_mk] at hlive
  unfold contextOf contextSize procStructSize SLOB_UNITS SLOB_UNIT at *
  omega

theorem context_own {slot : Rv64.Register × ℕ}
    (h : Inv image world members boot blocks entries grown)
    (hproc : proc ∈ world.kernel.idleproc :: members) (hslot : slot ∈ contextSlots) :
    contextOf proc + slot.2 ∈ (procBlock proc).cells := by
  obtain ⟨-, hheader, -⟩ := h.owner hproc
  have hlt := contextSlots_lt hslot
  rw [procBlock, Block.mem_cells_mk]
  unfold contextOf contextSize procStructSize SLOB_UNITS SLOB_UNIT REGBYTES at *
  omega

theorem contexts_apart {other : ℕ} (h : Inv image world members boot blocks entries grown)
    (hproc : proc ∈ world.kernel.idleproc :: members)
    (hother : other ∈ world.kernel.idleproc :: members) (hne : proc ≠ other) :
    contextOf proc + contextSize ≤ contextOf other ∨
      contextOf other + contextSize ≤ contextOf proc := by
  obtain ⟨-, hheader, -⟩ := h.owner hproc
  obtain ⟨-, hheader', -⟩ := h.owner hother
  have hsize : 0 < SLOB_UNIT * SLOB_UNITS (procStructSize + SLOB_UNIT) := by decide
  have hside := Block.apart_of_disjoint (h.procBlocks_apart hproc hother hne) hsize hsize
  rw [procBlock, procBlock, Block.stop_mk, Block.stop_mk] at hside
  dsimp only at hside
  unfold contextOf contextSize procStructSize SLOB_UNITS SLOB_UNIT at *
  omega

theorem stacks_apart {other : ℕ} (h : Inv image world members boot blocks entries grown)
    (hproc : proc ∈ members) (hother : other ∈ members) (hne : proc ≠ other) :
    Disjoint (stackBytes (world.kernel.procs proc).kstack).cells
      (stackBytes (world.kernel.procs other).kstack).cells := by
  obtain ⟨hbytes, husable⟩ := h.stack_bytes hproc
  obtain ⟨hbytes', husable'⟩ := h.stack_bytes hother
  rw [hbytes, hbytes']
  have hsymm : Std.Symm fun proc other ↦ Disjoint
      (stackRun (world.kernel.procs proc).kstack).cells
      (stackRun (world.kernel.procs other).kstack).cells :=
    ⟨fun _ _ hdisjoint ↦ hdisjoint.symm⟩
  exact runBytes_disjoint husable husable' (h.apart.forall hproc hother hne)

theorem stack_fits (h : Inv image world members boot blocks entries grown) (hproc : proc ∈ members) :
    (world.kernel.procs proc).kstack + KSTACKSIZE ≤ 2 ^ 64 := by
  obtain ⟨page, hkstack, husable⟩ := h.stack proc hproc
  have hfirst := husable page (first_mem_run page)
  have hsecond := husable (page + 1) ⟨Nat.le_succ _, Nat.lt_succ_self _⟩
  have htop := hsecond.top_le
  have hnext : kvaOf (page + 1) = kvaOf page + PGSIZE := by
    rw [hsecond.kvaOf_eq, hfirst.kvaOf_eq, page2ppn, page2ppn]
    ring
  have hsize : KSTACKSIZE = PGSIZE + PGSIZE := rfl
  rw [hkstack, hsize, ← Nat.add_assoc, ← hnext]
  exact htop

theorem stack_outside {address : ℕ} (h : Inv image world members boot blocks entries grown)
    (hproc : proc ∈ members)
    (hcell : address ∈ (stackBytes (world.kernel.procs proc).kstack).cells) :
    address ∉ heapBytes grown := by
  obtain ⟨hbytes, husable⟩ := h.stack_bytes hproc
  rw [hbytes] at hcell
  exact (h.heap.outside_of_loan (.inr ⟨proc, hproc, rfl⟩) husable hcell).1

theorem procBlock_inside {address : ℕ} (h : Inv image world members boot blocks entries grown)
    (hproc : proc ∈ world.kernel.idleproc :: members) (hcell : address ∈ (procBlock proc).cells) :
    address ∈ heapBytes grown := by
  obtain ⟨-, -, hblock⟩ := h.owner hproc
  rw [← h.heap.slob.partition]
  exact .inr ⟨_, List.mem_append_left _ hblock, hcell⟩

/-- No cell belongs to two processes. -/
theorem own_apart {other address : ℕ} (h : Inv image world members boot blocks entries grown)
    (hproc : proc ∈ world.kernel.idleproc :: members)
    (hother : other ∈ world.kernel.idleproc :: members) (hne : proc ≠ other)
    (hown : Own world proc address) : ¬ Own world other address := by
  rintro (hcell' | ⟨hthread', hcell'⟩) <;> rcases hown with hcell | ⟨hthread, hcell⟩
  · exact Set.disjoint_left.mp (h.procBlocks_apart hproc hother hne) hcell hcell'
  · exact h.stack_outside (List.mem_of_ne_of_mem hthread hproc) hcell
      (h.procBlock_inside hother hcell')
  · exact h.stack_outside (List.mem_of_ne_of_mem hthread' hother) hcell'
      (h.procBlock_inside hproc hcell)
  · exact Set.disjoint_left.mp (h.stacks_apart (List.mem_of_ne_of_mem hthread hproc)
      (List.mem_of_ne_of_mem hthread' hother) hne) hcell hcell'

end Inv

/-! ## `proc_init` -/

section Boot

variable {image : ProcImage} {kernel kernel' : Kernel allocator} {blocks small : List Block}
  {entries : List BigBlock} {grown : List ℕ} {others : Set Block} {fuel proc : ℕ}

theorem initBuckets_rings {links : Links ProcNode} (h : Ring links .procList []) (count : ℕ) :
    Ring (initBuckets links count) .procList [] ∧
      ∀ index < count, Ring (initBuckets links count) (.hashList index) [] := by
  induction count with
  | zero => exact ⟨h, fun index hindex ↦ absurd hindex (Nat.not_lt_zero index)⟩
  | succ count ih =>
    refine ⟨ih.1.listInit_other (by simp), fun index hindex ↦ ?_⟩
    rcases Nat.lt_succ_iff_lt_or_eq.mp hindex with hlt | rfl
    · exact (ih.2 index hlt).listInit_other (by simp [Nat.ne_of_gt hlt])
    · exact Ring.listInit

/-- Writes to the payload of a new block. -/
theorem write_payload {heap : Heap allocator} {mem : Memory} {size p : ℕ}
    (h : HeapInv image.toKernelImage heap blocks
      (⟨p - SLOB_UNIT, SLOB_UNIT * SLOB_UNITS (size + SLOB_UNIT)⟩ :: small) entries grown others)
    (hheader : SLOB_UNIT ≤ p)
    (hmem : ∀ address, ¬ (p ≤ address ∧ address < p + SLOB_UNIT * SLOB_UNITS size) →
      mem address = heap.mem address) :
    HeapInv image.toKernelImage { heap with mem } blocks
      (⟨p - SLOB_UNIT, SLOB_UNIT * SLOB_UNITS (size + SLOB_UNIT)⟩ :: small) entries grown
      others := by
  refine h.write fun address hnot ↦ hmem address fun hcell ↦ hnot (.inl ?_)
  refine ⟨_, List.mem_cons_self, ?_⟩
  rw [Block.stop_mk]
  dsimp only
  unfold SLOB_UNITS SLOB_UNIT at *
  omega

theorem clearName_of_ne {mem : Memory} {name address : ℕ} (h : address ≠ name)
    (h' : address ≠ name + 8) : clearName mem name address = mem address := by
  rw [clearName, write_of_ne h', write_of_ne h]

/-- The idle process is counted and stands on no list. -/
theorem registry_idle {idle : Kernel allocator} {links : Links ProcNode}
    (honly : OnlyProc kernel kernel' proc)
    (hinit : kernel.links = initBuckets (listInit links .procList) HASH_LIST_SIZE)
    (hcount : kernel.nrProcess = 0) (hlast : kernel.lastPid = MAX_PID)
    (hsafe : kernel.nextSafe = MAX_PID) (hlinks : idle.links = kernel'.links)
    (hnrProcess : idle.nrProcess = kernel'.nrProcess + 1) (hlastPid : idle.lastPid = kernel'.lastPid)
    (hnextSafe : idle.nextSafe = kernel'.nextSafe) : Registry idle [] := by
  have hrings := initBuckets_rings (Ring.listInit : Ring (listInit links .procList) _ [])
    HASH_LIST_SIZE
  rw [← hinit] at hrings
  refine .empty ?_ (fun index hindex ↦ ?_) ?_ ?_ ?_
  · rw [hlinks]
    exact honly.ring_empty (by simp) (by simp) hrings.1
  · rw [hlinks]
    exact honly.ring_empty (by simp) (by simp) (hrings.2 index hindex)
  · rw [hnrProcess, honly.nrProcess]
    exact congrArg (· + 1) hcount
  · rw [hlastPid, honly.lastPid]
    exact hlast
  · rw [hnextSafe, honly.nextSafe]
    exact hsafe

/-- `proc_init` up to its first fork: the registry is empty, and the idle process runs. -/
theorem procInit_idle {sstatus : BitVec 64} (hcorrect : allocator.Correct image.Usable)
    (h : HeapInv image.toKernelImage kernel.heap blocks small entries grown others)
    (hcount : kernel.nrProcess = 0) (hlast : kernel.lastPid = MAX_PID)
    (hsafe : kernel.nextSafe = MAX_PID) (hinit : procInit image fuel kernel sstatus = .ok kernel') :
    ∃ (idle : Kernel allocator) (boot blocks' : List Block) (grown' : List ℕ),
      Inv image ⟨idle, small, entries.map BigBlock.handle, others⟩ [] boot blocks' entries grown' ∧
      ∃ pid forked, kernelThread image fuel idle sstatus (BitVec.ofNat 64 image.initMain)
          (BitVec.ofNat 64 image.hello) 0 = .ok (pid, forked) ∧
        ∃ initproc, kernel' = { forked with initproc } := by
  let links := initBuckets (listInit kernel.links .procList) HASH_LIST_SIZE
  have h : HeapInv image.toKernelImage { kernel with links }.heap blocks small entries grown
      others := h
  obtain ⟨⟨idleproc, kernel₁⟩, halloc, hinit⟩ := bind_eq_ok.mp hinit
  dsimp only at hinit
  obtain ⟨honly, blocks₁, taken₁, -, -, ⟨rfl, -⟩ | ⟨hidle, hheader, -, -, hheap₁⟩⟩ :=
    allocProc_spec hcorrect h halloc
  · cases hinit
  rw [assert_of_true hidle, ok_bind] at hinit
  obtain ⟨⟨contextMem, heap₂⟩, hcontext, hinit⟩ := bind_eq_ok.mp hinit
  dsimp only at hinit
  obtain ⟨blocks₂, taken₂, -, -, ⟨rfl, -⟩ | ⟨hnonnull, hheader₂, hheap₂⟩⟩ :=
    hheap₁.kmalloc_taken hcorrect (by decide) (by decide) hcontext
  · cases hinit
  rw [assert_of_true hnonnull, ok_bind] at hinit
  have hheap₂ : HeapInv image.toKernelImage
      { heap₂ with mem := heap₂.mem.fill contextMem contextSize 0 } blocks₂ _ entries _ others :=
    write_payload hheap₂ hheader₂ fun address hout ↦ fill_outside hout
  have honly₂ : OnlyProc { kernel with links, idleproc }
      (Kernel.setMem { kernel₁ with heap := heap₂, idleproc }
        (heap₂.mem.fill contextMem contextSize 0)) idleproc := { honly with idleproc := rfl }
  generalize hkernel₂ : Kernel.setMem _ (heap₂.mem.fill contextMem contextSize 0) = kernel₂ at *
  have hmem₂ : kernel₂.heap = { heap₂ with mem := heap₂.mem.fill contextMem contextSize 0 } := by
    rw [← hkernel₂]
    rfl
  obtain ⟨⟨nameMem, heap₃⟩, hname, hinit⟩ := bind_eq_ok.mp hinit
  dsimp only at hinit
  obtain ⟨blocks₃, taken₃, -, -, ⟨rfl, -⟩ | ⟨hnonnull₃, hheader₃, hheap₃⟩⟩ :=
    hheap₂.kmalloc_taken hcorrect (by decide) (by decide) (hmem₂ ▸ hname)
  · cases hinit
  rw [assert_of_true hnonnull₃, ok_bind] at hinit
  have hheap₃ : HeapInv image.toKernelImage
      { heap₃ with mem := clearName heap₃.mem nameMem } blocks₃ _ entries _ others :=
    write_payload hheap₃ hheader₃ fun address hout ↦ clearName_of_ne
      (fun heq ↦ hout (by unfold SLOB_UNITS SLOB_UNIT PROC_NAME_LEN; omega))
      (fun heq ↦ hout (by unfold SLOB_UNITS SLOB_UNIT PROC_NAME_LEN; omega))
  obtain ⟨⟨pid, forked⟩, hfork, hinit⟩ := bind_eq_ok.mp hinit
  dsimp only at hinit
  obtain ⟨-, -, hinit⟩ := bind_eq_ok.mp hinit
  obtain ⟨initproc, -, hinit⟩ := bind_eq_ok.mp hinit
  obtain ⟨-, -, hinit⟩ := bind_eq_ok.mp hinit
  obtain ⟨-, -, hinit⟩ := bind_eq_ok.mp hinit
  obtain rfl := Except.ok.inj hinit
  obtain ⟨idle, hkernel, hfork⟩ : ∃ idle, idle = _ ∧ kernelThread image fuel idle sstatus
      (BitVec.ofNat 64 image.initMain) (BitVec.ofNat 64 image.hello) 0 = .ok (pid, forked) :=
    ⟨_, rfl, hfork⟩
  have hheap : idle.heap = { heap₃ with mem := clearName heap₃.mem nameMem } := by
    rw [hkernel]
    rfl
  have hlinks : idle.links = kernel₂.links := by
    rw [hkernel]
    rfl
  have hidleproc : idle.idleproc = idleproc := by
    rw [hkernel]
    exact honly₂.idleproc
  have hcurrent : idle.current = idleproc := by rw [hkernel]
  have hregistry : Registry idle [] := by
    refine registry_idle honly₂ rfl hcount hlast hsafe hlinks ?_ ?_ ?_ <;>
      rw [hkernel]
    · rfl
    · rfl
    · rfl
  let boot : List Block :=
    [⟨nameMem - SLOB_UNIT, SLOB_UNIT * SLOB_UNITS (PROC_NAME_LEN + SLOB_UNIT)⟩,
      ⟨contextMem - SLOB_UNIT, SLOB_UNIT * SLOB_UNITS (contextSize + SLOB_UNIT)⟩,
      procBlock idleproc]
  have hperm : (boot ++ small).Perm (small ++ (List.map procBlock [] ++ boot)) :=
    List.perm_append_comm
  have hstacks : others ∪ stackRuns idle.procs [] = others := by simp [stackRuns]
  have hblock : procBlock idleproc ∈ boot :=
    List.mem_cons_of_mem _ (List.mem_cons_of_mem _ List.mem_cons_self)
  refine ⟨idle, boot, blocks₃, taken₃ ++ (taken₂ ++ (taken₁ ++ grown)), ?_, pid, forked, hfork,
    initproc, rfl⟩
  refine ⟨hregistry, ?_, rfl, ?_, ?_, by simp, by simp, List.Pairwise.nil, by simp, ?_⟩
  · change HeapInv image.toKernelImage idle.heap blocks₃ (small ++ (List.map procBlock [] ++ boot))
      entries _ (others ∪ stackRuns idle.procs [])
    rw [hstacks, hheap]
    exact hheap₃.perm hperm
  · change idle.idleproc ≠ 0 ∧ SLOB_UNIT ≤ idle.idleproc ∧ procBlock idle.idleproc ∈ boot
    rw [hidleproc]
    exact ⟨hidle, hheader, hblock⟩
  · change (idle.procs idle.idleproc).kstack = image.bootstack
    rw [hidleproc, hkernel]
    simp [Kernel.setProc]
  · change idle.current ∈ idle.idleproc :: []
    rw [hcurrent, hidleproc]
    exact List.mem_cons_self

end Boot

/-! ## Whole runs -/

/-- The books of the world agree with its memory. -/
def Sound (image : ProcImage) (world : ProcWorld allocator) : Prop :=
  ∃ members boot blocks entries grown, Inv image world members boot blocks entries grown

variable {image : ProcImage} {world world' : ProcWorld allocator}

theorem Step.sound (hstep : Step image world world') (hcorrect : allocator.Correct image.Usable)
    (h : Sound image world) : Sound image world' := by
  obtain ⟨members, boot, blocks, entries, grown, h⟩ := h
  cases hstep with
  | fork hcall =>
    obtain ⟨proc, blocks', taken, -, -, -, ⟨-, -, -, hnext⟩ | ⟨-, page, -, hnext⟩⟩ :=
      h.doFork hcorrect hcall
    · exact ⟨_, _, _, _, _, hnext⟩
    · exact ⟨_, _, _, _, _, hnext⟩
  | schedule hcall => exact ⟨_, _, _, _, _, h.schedule hcall⟩
  | procRun hproc hother => exact ⟨_, _, _, _, _, h.procRun (h.registry.isProcess_iff.mp hproc)⟩
  | client hclient =>
    obtain ⟨-, blocks', entries', grown', hnext⟩ := h.client hcorrect hclient
    exact ⟨_, _, _, _, _, hnext⟩
  | stack hthread hmem =>
    refine ⟨_, _, _, _, _, h.setMem fun address hstacks _ ↦ hmem address (hstacks _ ?_)⟩
    exact List.mem_of_ne_of_mem hthread h.current
  | fields hpid hkstack htf hpgdir hmm => exact ⟨_, _, _, _, _, h.fields hpid hkstack⟩

/-- The fields that a process keeps for life -/
def SameIdentity (fields fields' : ProcStruct) : Prop :=
  fields'.pid = fields.pid ∧ fields'.kstack = fields.kstack ∧ fields'.tf = fields.tf ∧
    fields'.pgdir = fields.pgdir ∧ fields'.mm = fields.mm

theorem SameIdentity.refl (fields : ProcStruct) : SameIdentity fields fields :=
  ⟨rfl, rfl, rfl, rfl, rfl⟩

/-- Whatever the running thread and the rest of the kernel do, the other processes keep their stacks,
their contexts and their identity. -/
theorem Step.frame {members : List ℕ} {boot blocks : List Block} {entries : List BigBlock}
    {grown : List ℕ} {proc : ℕ} (hstep : Step image world world')
    (hcorrect : allocator.Correct image.Usable)
    (h : Inv image world members boot blocks entries grown)
    (hproc : proc ∈ world.kernel.idleproc :: members) (hother : proc ≠ world.kernel.current) :
    (∀ address, Inv.Own world proc address →
      world'.kernel.heap.mem address = world.kernel.heap.mem address) ∧
    SameIdentity (world.kernel.procs proc) (world'.kernel.procs proc) := by
  have hsaved : ∀ (x : Rv64.Register → BitVec 64) (address : ℕ), Inv.Own world proc address →
      saveContext world.kernel.heap.mem (contextOf world.kernel.current) x address =
        world.kernel.heap.mem address := by
    refine fun x address hown ↦ saveContext_outside fun hcell ↦ ?_
    refine h.own_apart hproc h.current hother hown (.inl ?_)
    rw [procBlock, Block.mem_cells_mk]
    unfold procStructSize SLOB_UNITS SLOB_UNIT at *
    omega
  cases hstep with
  | fork hcall =>
    obtain ⟨child, blocks', taken, hnew, -, hkept, hresult⟩ := h.doFork hcorrect hcall
    have hne : proc ≠ child := fun heq ↦ hnew (heq ▸ hproc)
    refine ⟨fun address hown ↦ hkept address (h.reserved_of_own hproc hown), ?_⟩
    dsimp only
    rcases hresult with ⟨-, honly, -⟩ | ⟨-, page, hforked, -⟩
    · rw [honly.procs proc hne]
      exact .refl _
    · rw [hforked.procs proc hne]
      exact .refl _
  | schedule hcall =>
    obtain ⟨-, haccounted, mem, hkernel, hmem⟩ := schedule_spec h.registry h.current hcall
    refine ⟨fun address hown ↦ ?_, ?_⟩
    · rw [hkernel]
      rcases hmem with rfl | rfl
      · rfl
      · exact hsaved _ address hown
    · dsimp only
      rw [haccounted proc]
      exact ⟨rfl, rfl, rfl, rfl, rfl⟩
  | procRun hnext hne => exact ⟨hsaved _, .refl _⟩
  | client hclient =>
    obtain ⟨hkept, -⟩ := h.client hcorrect hclient
    exact ⟨fun address hown ↦ hkept address (h.reserved_of_own hproc hown), .refl _⟩
  | stack hthread hmem =>
    refine ⟨fun address hown ↦ hmem address fun hcell ↦ ?_, .refl _⟩
    exact h.own_apart hproc h.current hother hown (.inr ⟨hthread, hcell⟩)
  | @fields changed fields hpid hkstack htf hpgdir hmm =>
    refine ⟨fun _ _ ↦ rfl, ?_⟩
    by_cases heq : proc = changed
    · subst heq
      simp only [Kernel.setProc, Function.update_self]
      exact ⟨hpid, hkstack, htf, hpgdir, hmm⟩
    · simp only [Kernel.setProc, Function.update_of_ne heq]
      exact .refl _

/-- `proc_init` ends with a fork by the idle process. -/
theorem boot_forks {clients : HeapWorld allocator} {kernel kernel' : Kernel allocator} {fuel : ℕ}
    {sstatus : BitVec 64} (hcorrect : allocator.Correct image.Usable)
    (hclients : clients.Reachable image.toKernelImage) (hheap : kernel.heap = clients.heap)
    (hcount : kernel.nrProcess = 0) (hlast : kernel.lastPid = MAX_PID)
    (hsafe : kernel.nextSafe = MAX_PID) (hinit : procInit image fuel kernel sstatus = .ok kernel') :
    ∃ idle forked initproc,
      (∃ boot blocks entries grown,
        Inv image ⟨idle, clients.small, clients.big, clients.others⟩ [] boot blocks entries grown) ∧
      Step image ⟨idle, clients.small, clients.big, clients.others⟩
        ⟨forked, clients.small, clients.big, clients.others⟩ ∧
      forked.idleproc = idle.idleproc ∧ forked.current = idle.current ∧
      kernel' = { forked with initproc } := by
  obtain ⟨blocks, entries, grown, hinv, hbig⟩ := hclients.sound hcorrect
  rw [← hheap] at hinv
  rw [hbig]
  obtain ⟨idle, boot, blocks₁, grown₁, h, pid, forked, hfork, initproc, hkernel⟩ :=
    procInit_idle hcorrect hinv hcount hlast hsafe hinit
  refine ⟨idle, forked, initproc, ⟨boot, blocks₁, entries, grown₁, h⟩, .fork hfork, ?_, ?_, hkernel⟩
  all_goals
    obtain ⟨child, blocks', taken, -, -, -, ⟨-, honly, -⟩ | ⟨-, page, hforked, -⟩⟩ :=
      h.doFork hcorrect hfork
  · exact honly.idleproc
  · exact hforked.idleproc
  · exact honly.current
  · exact hforked.current

theorem Reachable.sound (h : Reachable image world) (hcorrect : allocator.Correct image.Usable) :
    Sound image world := by
  induction h with
  | boot hclients hheap hcount hlast hsafe hinit =>
    obtain ⟨idle, forked, initproc, ⟨boot, blocks, entries, grown, h⟩, hstep, -, -, rfl⟩ :=
      boot_forks hcorrect hclients hheap hcount hlast hsafe hinit
    obtain ⟨members, boot', blocks₂, entries', grown₂, h⟩ :=
      hstep.sound hcorrect ⟨_, _, _, _, _, h⟩
    refine ⟨members, boot', blocks₂, entries', grown₂, h.update ?_ h.heap (fun _ _ ↦ rfl) rfl h.current⟩
    exact h.registry.congr (fun _ _ ↦ ⟨rfl, rfl⟩) (fun _ _ ↦ rfl) rfl rfl rfl
  | step _ hstep ih => exact hstep.sound hcorrect ih

/-- The addresses of the image that the linker made. -/
def sampleImage : ProcImage where
  toKernelImage := HeapWorld.sampleImage
  bootPgdirPa := 0x80208000
  bootstack := 0xFFFFFFFFC0206000
  forkret := 0xFFFFFFFFC020329E
  kernelThreadEntry := 0xFFFFFFFFC0203224
  initMain := 0xFFFFFFFFC02032AC
  hello := 0xFFFFFFFFC0205600

/-- The kernel when `proc_init` is called, with `count` free pages. -/
def sampleKernel (count : ℕ) : Kernel (PageAllocator.firstFit 0x20A count) where
  heap := Heap.boot HeapWorld.sampleImage (fun _ ↦ 0) []
  procs := fun _ ↦ freshProc sampleImage
  links := ⟨id, id⟩
  nrProcess := 0
  lastPid := MAX_PID
  nextSafe := MAX_PID
  idleproc := 0
  initproc := 0
  current := 0

/-- `proc_init`, then one more `kernel_thread`. -/
def sampleFork (count : ℕ) : Except Fault
    (Kernel (PageAllocator.firstFit 0x20A count) × ℤ ×
      Kernel (PageAllocator.firstFit 0x20A count)) := do
  let kernel ← procInit sampleImage 16 (sampleKernel count) 0
  let outcome ← kernelThread sampleImage 16 kernel 0 1 2 0
  return (kernel, outcome)

theorem sampleKernel_clients (count : ℕ) : HeapWorld.Reachable HeapWorld.sampleImage
    ⟨(sampleKernel count).heap, [], [], (PageAllocator.firstFit 0x20A count).outstanding
      (sampleKernel count).heap.pages⟩ := .boot _ _

theorem sampleFork_reachable {count : ℕ} {ret : ℤ}
    {kernel kernel' : Kernel (PageAllocator.firstFit 0x20A count)}
    (h : sampleFork count = .ok (kernel, ret, kernel')) :
    Reachable sampleImage ⟨kernel, [], [], (PageAllocator.firstFit 0x20A count).outstanding
        (sampleKernel count).heap.pages⟩ ∧
      kernelThread sampleImage 16 kernel 0 1 2 0 = .ok (ret, kernel') := by
  obtain ⟨kernel₁, hinit, h⟩ := bind_eq_ok.mp h
  obtain ⟨outcome, hfork, h⟩ := bind_eq_ok.mp h
  obtain ⟨rfl, rfl⟩ := Prod.mk.inj (Except.ok.inj h)
  exact ⟨.boot (sampleKernel_clients count) rfl rfl rfl rfl hinit, hfork⟩

/-- In every state of a run the process list, the hash buckets, the counter and the pids describe the
same processes, and `find_proc` finds them by their pids. -/
theorem process_registry (hcorrect : allocator.Correct image.Usable)
    (hworld : Reachable image world) :
    ∃ members : List ℕ,
      Ring world.kernel.links .procList (members.map .listLink) ∧
      world.kernel.nrProcess = 1 + members.length ∧ world.kernel.nrProcess ≤ MAX_PROCESS ∧
      (members.map fun proc ↦ (world.kernel.procs proc).pid).Nodup ∧
      (∀ proc ∈ members,
        1 ≤ (world.kernel.procs proc).pid ∧ (world.kernel.procs proc).pid < MAX_PID) ∧
      (∀ index < HASH_LIST_SIZE, Ring world.kernel.links (.hashList index)
        ((members.filter fun proc ↦
          hash32 (BitVec.ofInt 32 (world.kernel.procs proc).pid) HASH_SHIFT = index).map
            .hashLink)) ∧
      ∀ (pid : ℤ) (fuel : ℕ), members.length < fuel →
        ∃ result, findProc world.kernel.links world.kernel.procs fuel pid = .ok result ∧
          ((result = 0 ∧ ∀ proc ∈ members, (world.kernel.procs proc).pid ≠ pid) ∨
            result ∈ members ∧ result ≠ 0 ∧ (world.kernel.procs result).pid = pid ∧
              ∀ proc ∈ members, (world.kernel.procs proc).pid = pid → proc = result) := by
  obtain ⟨members, boot, blocks, entries, grown, h⟩ := hworld.sound hcorrect
  have hregistry := h.registry
  exact ⟨members, hregistry.list, hregistry.count, hregistry.limit, hregistry.distinct,
    hregistry.range, hregistry.buckets, fun pid fuel hfuel ↦ hregistry.findProc_spec pid hfuel⟩

/-- After `proc_init` and one more `kernel_thread` three processes are counted. -/
theorem process_registry_sample :
    ∃ (world : ProcWorld (PageAllocator.firstFit 0x20A 16)) (members : List ℕ),
      Ring world.kernel.links .procList (members.map .listLink) ∧
      world.kernel.nrProcess = 1 + members.length ∧ world.kernel.nrProcess = 3 := by
  have hrun : (sampleFork 16).toOption.any (fun outcome ↦ outcome.2.2.nrProcess = 3) = true := by
    decide +kernel
  obtain ⟨⟨kernel, ret, kernel'⟩, hcall, hcount⟩ := Option.any_eq_true _ _ |>.mp hrun
  obtain ⟨hworld, hfork⟩ := sampleFork_reachable (toOption_eq_some.mp hcall)
  obtain ⟨members, hring, hmembers, -⟩ := process_registry
    (PageAllocator.firstFit_correct fun _ ↦ HeapWorld.sampleImage_usable)
    (hworld.step (.fork hfork))
  exact ⟨_, members, hring, hmembers, of_decide_eq_true hcount⟩

/-- A `do_fork` that fails leaves the registry, the pid cursor, every process and all memory in use as
they were, and what it took is free again: at most one page has moved to the heap. -/
theorem doFork_failing {kernel' : Kernel allocator} {fuel : ℕ} {flags : BitVec 32} {esp : BitVec 64}
    {tf : TrapFrame} {ret : ℤ} (hcorrect : allocator.Correct image.Usable)
    (hworld : Reachable image world)
    (hcall : doFork image fuel world.kernel flags esp tf = .ok (ret, kernel')) (hneg : ret < 0) :
    ∃ (members : List ℕ) (proc : ℕ) (taken : List ℕ),
      Ring world.kernel.links .procList (members.map .listLink) ∧
      proc ∉ world.kernel.idleproc :: members ∧ OnlyProc world.kernel kernel' proc ∧
      (∀ address ∉ freeBytes image.toKernelImage kernel'.heap,
        address ∉ Block.cells ⟨image.arena, SLOB_UNIT⟩ →
          kernel'.heap.mem address = world.kernel.heap.mem address) ∧
      (∀ other ∈ world.kernel.idleproc :: members, ∀ address ∈ (procBlock other).cells,
        kernel'.heap.mem address = world.kernel.heap.mem address) ∧
      (∀ other ∈ members, ∀ address ∈ (stackBytes (world.kernel.procs other).kstack).cells,
        kernel'.heap.mem address = world.kernel.heap.mem address) ∧
      taken.length ≤ 1 ∧
      freeBytes image.toKernelImage kernel'.heap =
        freeBytes image.toKernelImage world.kernel.heap ∪ heapBytes taken ∧
      Disjoint (freeBytes image.toKernelImage world.kernel.heap) (heapBytes taken) ∧
      allocator.outstanding kernel'.heap.pages =
        allocator.outstanding world.kernel.heap.pages ∪ {loan | loan ∈ taken.map singlePage} := by
  obtain ⟨members, boot, blocks, entries, grown, h⟩ := hworld.sound hcorrect
  obtain ⟨proc, blocks', taken, hnew, htaken, hreserved, ⟨-, honly, hkept, hnext⟩ | ⟨hpos, -⟩⟩ :=
    h.doFork hcorrect hcall
  swap
  · omega
  have hstacks : stackRuns kernel'.procs members = stackRuns world.kernel.procs members := by
    refine stackRuns_congr fun other hother ↦ ?_
    rw [honly.procs other fun heq ↦ hnew (heq ▸ List.mem_cons_of_mem _ hother)]
  have hheap : HeapInv image.toKernelImage kernel'.heap blocks'
      (world.small ++ (members.map procBlock ++ boot)) entries (taken ++ grown)
      (world.others ∪ stackRuns world.kernel.procs members) := hstacks ▸ hnext.heap
  refine ⟨members, proc, taken, h.registry.list, hnew, honly, fun address hused harena ↦ ?_,
    fun other hother address hcell ↦ ?_, fun other hother address hcell ↦ ?_, htaken,
    h.heap.balanced hheap (List.Perm.refl _)⟩
  · exact hkept address (hheap.slob.foreign_of_used hused harena)
  · exact hreserved address (h.reserved_of_own hother (.inl hcell))
  · refine hreserved address (.inr ⟨_, ⟨other, hother, rfl⟩, ?_⟩)
    rw [← (h.stack_bytes hother).1]
    exact hcell

/-- With three pages the second kernel stack is not to be had. -/
theorem doFork_failing_sample :
    ∃ (kernel kernel' : Kernel (PageAllocator.firstFit 0x20A 3)) (proc : ℕ),
      kernelThread sampleImage 16 kernel 0 1 2 0 = .ok (-E_NO_MEM, kernel') ∧
        OnlyProc kernel kernel' proc := by
  have hrun : (sampleFork 3).toOption.any (fun outcome ↦ outcome.2.1 = -E_NO_MEM) = true := by
    decide +kernel
  obtain ⟨⟨kernel, ret, kernel'⟩, hcall, hret⟩ := Option.any_eq_true _ _ |>.mp hrun
  obtain rfl := of_decide_eq_true hret
  obtain ⟨hworld, hfork⟩ := sampleFork_reachable (toOption_eq_some.mp hcall)
  have hpages : ∀ page, 0x20A ≤ page → page < 0x20A + 3 → sampleImage.Usable page :=
    fun page hlower hupper ↦ HeapWorld.sampleImage_usable hlower (by omega)
  obtain ⟨members, proc, taken, -, -, honly, -⟩ :=
    doFork_failing (PageAllocator.firstFit_correct hpages) hworld hfork (by decide)
  exact ⟨kernel, kernel', proc, hfork, honly⟩

end ProcWorld

end Ucore
