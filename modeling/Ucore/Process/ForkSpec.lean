import Ucore.Mm.KmallocRuns
import Ucore.Process.Registry

/-!
# What the steps of `do_fork` do

A process under construction owns a block of the heap, then two pages for its kernel stack; until it is
entered into the registry nothing else refers to it. `OnlyProc` says that a step touched nothing but
the heap and what belongs to that process.
-/

namespace Ucore

open Foundation Memory

/-- The heap units of a `struct proc_struct`. -/
def procBlock (proc : ℕ) : Block :=
  ⟨proc - SLOB_UNIT, SLOB_UNIT * SLOB_UNITS (procStructSize + SLOB_UNIT)⟩

/-- The bytes of a kernel stack. -/
def stackBytes (kstack : ℕ) : Block := ⟨kstack, KSTACKSIZE⟩

/-- Where `copy_thread` puts the trap frame. -/
def frameOf (kstack : ℕ) : ℕ := kstack + KSTACKSIZE - trapframeSize

/-- The fields that `alloc_proc` sets. -/
def freshProc (image : ProcImage) : ProcStruct where
  state := .PROC_UNINIT
  pid := -1
  runs := 0
  kstack := 0
  needResched := false
  parent := 0
  mm := 0
  tf := 0
  pgdir := image.bootPgdirPa
  flags := 0

/-- The trap frame that a child leaves through: `a0` is 0, `sp` the frame itself or the user stack. -/
def childFrame (tf : TrapFrame) (esp : BitVec 64) (frame : ℕ) : TrapFrame :=
  { tf with
    gpr := fun index ↦
      if index = 2 then if esp = 0 then BitVec.ofNat 64 frame else esp
      else if index = 10 then 0
      else tf.gpr index }

structure OnlyProc {allocator : PageAllocator} (kernel kernel' : Kernel allocator) (proc : ℕ) :
    Prop where
  procs : ∀ other ≠ proc, kernel'.procs other = kernel.procs other
  links : ∀ node, node ≠ .listLink proc → node ≠ .hashLink proc →
    kernel'.links.next node = kernel.links.next node ∧
      kernel'.links.prev node = kernel.links.prev node
  nrProcess : kernel'.nrProcess = kernel.nrProcess
  lastPid : kernel'.lastPid = kernel.lastPid
  nextSafe : kernel'.nextSafe = kernel.nextSafe
  idleproc : kernel'.idleproc = kernel.idleproc
  initproc : kernel'.initproc = kernel.initproc
  current : kernel'.current = kernel.current

namespace OnlyProc

variable {allocator : PageAllocator} {kernel kernel' kernel'' : Kernel allocator} {proc : ℕ}

theorem refl (kernel : Kernel allocator) (proc : ℕ) : OnlyProc kernel kernel proc :=
  ⟨fun _ _ ↦ rfl, fun _ _ _ ↦ ⟨rfl, rfl⟩, rfl, rfl, rfl, rfl, rfl, rfl⟩

theorem trans (h : OnlyProc kernel kernel' proc) (h' : OnlyProc kernel' kernel'' proc) :
    OnlyProc kernel kernel'' proc where
  procs other hother := (h'.procs other hother).trans (h.procs other hother)
  links node hlist hhash :=
    ⟨(h'.links node hlist hhash).1.trans (h.links node hlist hhash).1,
      (h'.links node hlist hhash).2.trans (h.links node hlist hhash).2⟩
  nrProcess := h'.nrProcess.trans h.nrProcess
  lastPid := h'.lastPid.trans h.lastPid
  nextSafe := h'.nextSafe.trans h.nextSafe
  idleproc := h'.idleproc.trans h.idleproc
  initproc := h'.initproc.trans h.initproc
  current := h'.current.trans h.current

theorem setProc (kernel : Kernel allocator) (proc : ℕ) (fields : ProcStruct) :
    OnlyProc kernel (kernel.setProc proc fields) proc :=
  { refl kernel proc with procs := fun _ hother ↦ Function.update_of_ne hother _ _ }

theorem withHeap (kernel : Kernel allocator) (proc : ℕ) (heap : Heap allocator) :
    OnlyProc kernel { kernel with heap } proc :=
  { refl kernel proc with }

/-- The registry does not know a process under construction. -/
theorem registry {members : List ℕ} (h : OnlyProc kernel kernel' proc)
    (hregistry : Registry kernel members) (hnew : proc ∉ members) : Registry kernel' members := by
  refine hregistry.congr (fun node hnode ↦ h.links node ?_ ?_) (fun other hother ↦ ?_) h.nrProcess
    h.lastPid h.nextSafe
  · exact fun heq ↦ hnew (hnode proc (.inl heq))
  · exact fun heq ↦ hnew (hnode proc (.inr heq))
  · have hne : other ≠ proc := fun heq ↦ hnew (heq ▸ hother)
    rw [h.procs other hne]

/-- Lists that are empty stay so when only one process's own links change. -/
theorem ring_empty (h : OnlyProc kernel kernel' proc) {head : ProcNode}
    (hlist : head ≠ .listLink proc) (hhash : head ≠ .hashLink proc)
    (hring : Ring kernel.links head []) : Ring kernel'.links head [] := by
  have hlinks := h.links head hlist hhash
  refine hring.congr (fun node hnode ↦ ?_) fun node hnode ↦ ?_
  · rw [List.mem_singleton.mp hnode]
    exact hlinks.1
  · rw [List.mem_singleton.mp hnode]
    exact hlinks.2

end OnlyProc

section Steps

variable {allocator : PageAllocator} {image : ProcImage} {kernel kernel' : Kernel allocator}
  {blocks small : List Block} {entries : List BigBlock} {grown : List ℕ} {others : Set Block}
  {proc fuel : ℕ}

/-- The fields and the context lie behind the header of the block. -/
theorem procBlock_payload {small : List Block} {address : ℕ} (hblock : procBlock proc ∈ small)
    (hheader : SLOB_UNIT ≤ proc) (hlower : proc ≤ address)
    (hupper : address < proc + procStructSize) :
    ∃ block ∈ small, block.start + SLOB_UNIT ≤ address ∧ address < block.stop := by
  refine ⟨procBlock proc, hblock, ?_⟩
  rw [procBlock, Block.stop_mk]
  dsimp only
  unfold procStructSize SLOB_UNITS SLOB_UNIT at *
  omega

/-- `alloc_proc` -/
theorem allocProc_spec (hcorrect : allocator.Correct image.Usable)
    (h : HeapInv image.toKernelImage kernel.heap blocks small entries grown others)
    (hcall : allocProc image fuel kernel = .ok (proc, kernel')) :
    OnlyProc kernel kernel' proc ∧ ∃ blocks' taken, taken.length ≤ 1 ∧
      (∀ address, Foreign image.toKernelImage (small ++ entries.map BigBlock.units) (taken ++ grown)
        address → kernel'.heap.mem address = kernel.heap.mem address) ∧
      ((proc = 0 ∧ kernel' = { kernel with heap := kernel'.heap } ∧
          HeapInv image.toKernelImage kernel'.heap blocks' small entries (taken ++ grown) others) ∨
        (proc ≠ 0 ∧ SLOB_UNIT ≤ proc ∧ kernel'.procs proc = freshProc image ∧
          (∀ index < 14, kernel'.heap.mem (contextOf proc + 8 * index) = 0) ∧
          HeapInv image.toKernelImage kernel'.heap blocks' (procBlock proc :: small) entries
            (taken ++ grown) others)) := by
  unfold allocProc at hcall
  obtain ⟨⟨p, heap⟩, hkmalloc, hcall⟩ := bind_eq_ok.mp hcall
  obtain ⟨blocks', taken, htaken, hkept, hresult⟩ :=
    h.kmalloc_taken hcorrect (by decide) (by decide) hkmalloc
  dsimp only at hcall
  rcases hresult with ⟨rfl, hheap⟩ | ⟨hp, hheader, hheap⟩
  · rw [if_pos rfl] at hcall
    obtain ⟨rfl, rfl⟩ := Prod.mk.inj (Except.ok.inj hcall)
    exact ⟨.withHeap kernel 0 heap, blocks', taken, htaken, hkept, .inl ⟨rfl, rfl, hheap⟩⟩
  · rw [if_neg hp] at hcall
    obtain ⟨rfl, rfl⟩ := Prod.mk.inj (Except.ok.inj hcall)
    have hlinks : ∀ node, node ≠ .listLink p → node ≠ .hashLink p →
        (listInit (listInit kernel.links (.listLink p)) (.hashLink p)).next node =
            kernel.links.next node ∧
          (listInit (listInit kernel.links (.listLink p)) (.hashLink p)).prev node =
            kernel.links.prev node := fun node hlist hhash ↦
      ⟨(listInit_next_of_ne hhash).trans (listInit_next_of_ne hlist),
        (listInit_prev_of_ne hhash).trans (listInit_prev_of_ne hlist)⟩
    have hfill : ∀ address, ¬ (contextOf p ≤ address ∧ address < contextOf p + contextSize) →
        heap.mem.fill (contextOf p) contextSize 0 address = heap.mem address :=
      fun address ↦ fill_outside
    refine ⟨⟨fun other hother ↦ Function.update_of_ne hother _ _, hlinks, rfl, rfl, rfl, rfl, rfl,
      rfl⟩, blocks', taken, htaken, fun address hforeign ↦ ?_, .inr ⟨hp, hheader,
      Function.update_self _ _ _, fun index hindex ↦ ?_, ?_⟩⟩
    · refine (hfill address fun hcontext ↦ ?_).trans (hkept address hforeign)
      refine hheap.books.not_mem_of_foreign hforeign ?_
      rw [Block.mem_cells_mk]
      unfold contextOf contextSize procStructSize SLOB_UNITS SLOB_UNIT at *
      omega
    · exact fill_inside (Nat.le_add_right _ _) (by unfold contextSize; omega)
    · refine hheap.write fun address hnot ↦ hfill address fun hcontext ↦ hnot (.inl ?_)
      refine procBlock_payload List.mem_cons_self hheader ?_ ?_ <;>
        unfold contextOf contextSize procStructSize at * <;> omega

/-- `setup_kstack` -/
theorem setupKstack_spec {ret : ℤ} (hcorrect : allocator.Correct image.Usable)
    (h : HeapInv image.toKernelImage kernel.heap blocks small entries grown others)
    (hcall : setupKstack image kernel proc = .ok (ret, kernel')) :
    OnlyProc kernel kernel' proc ∧ kernel'.heap.mem = kernel.heap.mem ∧
      ((ret = -E_NO_MEM ∧
          HeapInv image.toKernelImage kernel'.heap blocks small entries grown others) ∨
        (ret = 0 ∧ ∃ page, (∀ other ∈ Block.cells ⟨page, KSTACKPAGE⟩, image.Usable other) ∧
          (∀ loan ∈ others, Disjoint loan.cells (Block.cells ⟨page, KSTACKPAGE⟩)) ∧
          kernel'.procs proc = { kernel.procs proc with kstack := kvaOf page } ∧
          HeapInv image.toKernelImage kernel'.heap blocks small entries grown
            (insert ⟨page, KSTACKPAGE⟩ others))) := by
  unfold setupKstack at hcall
  rcases halloc : allocator.allocPages kernel.heap.pages KSTACKPAGE with ⟨result, pages⟩
  rw [halloc] at hcall
  cases result with
  | none =>
    obtain ⟨rfl, rfl⟩ := Prod.mk.inj (Except.ok.inj hcall)
    exact ⟨.withHeap kernel proc _, rfl, .inl ⟨rfl, { h with
      slob := h.slob.withPages pages
      ledger := h.ledger.allocNull hcorrect halloc }⟩⟩
  | some page =>
    have hpos : 0 < KSTACKPAGE := by decide
    obtain ⟨husable, hfresh, -⟩ := hcorrect.allocSome hpos halloc
    have hpage : image.Usable page := husable page ⟨le_rfl, Nat.lt_add_of_pos_right hpos⟩
    have hkva : page2kva image.npage page = .ok (kvaOf page) :=
      page2kva_eq image.npage_le hpage.1
    simp only [hkva, ok_bind] at hcall
    obtain ⟨rfl, rfl⟩ := Prod.mk.inj (Except.ok.inj hcall)
    have hothers : others ⊆ allocator.outstanding kernel.heap.pages := by
      rw [h.ledger.outstanding]
      exact Set.subset_union_left
    refine ⟨(OnlyProc.withHeap kernel proc _).trans (.setProc _ proc _), rfl, .inr ⟨rfl, page,
      husable, fun loan hloan ↦ hfresh loan (hothers hloan), Function.update_self _ _ _, { h with
        slob := h.slob.withPages pages
        ledger := h.ledger.lend hcorrect hpos halloc }⟩⟩

/-- The words that `copy_thread` changes lie in the frame or in the context. -/
theorem copyThread_kept {address : ℕ} {esp : BitVec 64} {tf : TrapFrame}
    (hstack : address ∉ (stackBytes (kernel.procs proc).kstack).cells)
    (hcontext : address ≠ contextOf proc ∧ address ≠ contextOf proc + 8) :
    (copyThread image kernel proc esp tf).heap.mem address = kernel.heap.mem address := by
  unfold stackBytes KSTACKSIZE KSTACKPAGE PGSIZE at hstack
  rw [Block.mem_cells_mk] at hstack
  unfold copyThread
  dsimp only [Kernel.setMem, Kernel.setProc]
  unfold KSTACKSIZE KSTACKPAGE PGSIZE trapframeSize
  rw [writePointer_of_ne (by omega), writePointer_of_ne (by omega), write_of_ne (by omega),
    write_of_ne (by omega), storeTrapFrame, if_neg (by unfold trapframeSize; omega)]

/-- `copy_thread` -/
theorem copyThread_spec {page : ℕ} (esp : BitVec 64) (tf : TrapFrame)
    (h : HeapInv image.toKernelImage kernel.heap blocks small entries grown others)
    (hblock : procBlock proc ∈ small) (hheader : SLOB_UNIT ≤ proc)
    (hloan : ⟨page, KSTACKPAGE⟩ ∈ others)
    (husable : ∀ other ∈ Block.cells ⟨page, KSTACKPAGE⟩, image.Usable other)
    (hkstack : (kernel.procs proc).kstack = kvaOf page) :
    OnlyProc kernel (copyThread image kernel proc esp tf) proc ∧
      HeapInv image.toKernelImage (copyThread image kernel proc esp tf).heap blocks small entries
        grown others := by
  refine ⟨(OnlyProc.setProc kernel proc _).trans (.withHeap _ proc _), ?_⟩
  refine h.write fun address hnot ↦ copyThread_kept (fun hstack ↦ ?_) ⟨?_, ?_⟩
  · rw [hkstack] at hstack
    refine hnot (.inr (h.outside_of_loan hloan husable ?_))
    rw [stackBytes, Block.mem_cells_mk] at hstack
    rw [Block.mem_cells_mk, Nat.mul_comm]
    exact hstack
  · rintro rfl
    exact hnot (.inl (procBlock_payload hblock hheader (by unfold contextOf; omega)
      (by unfold contextOf procStructSize; omega)))
  · rintro rfl
    exact hnot (.inl (procBlock_payload hblock hheader (by unfold contextOf; omega)
      (by unfold contextOf procStructSize; omega)))

/-- `kfree(proc)` -/
theorem cleanupProc_spec
    (h : HeapInv image.toKernelImage kernel.heap blocks (procBlock proc :: small) entries grown
      others) (hheader : SLOB_UNIT ≤ proc)
    (hcall : cleanupProc image fuel kernel proc = .ok kernel') :
    OnlyProc kernel kernel' proc ∧
      (∀ address, Foreign image.toKernelImage (small ++ entries.map BigBlock.units) grown address →
        kernel'.heap.mem address = kernel.heap.mem address) ∧
      ∃ blocks', HeapInv image.toKernelImage kernel'.heap blocks' small entries grown others := by
  obtain ⟨heap, hfree, hcall⟩ := bind_eq_ok.mp hcall
  obtain rfl := Except.ok.inj hcall
  have hstart : (procBlock proc).start + SLOB_UNIT = proc := Nat.sub_add_cancel hheader
  rw [← hstart] at hfree
  obtain ⟨blocks', hinv, -, -, hkept⟩ := h.kfreeSmall List.mem_cons_self hfree
  rw [List.erase_cons_head] at hinv hkept
  exact ⟨.withHeap kernel proc heap, hkept, blocks', hinv⟩

/-- The frame that `copy_thread` builds. -/
theorem copyThread_frame {esp : BitVec 64} {tf : TrapFrame} {index : ℕ} (hindex : index < 36)
    (hcontext : contextOf proc ∉ (stackBytes (kernel.procs proc).kstack).cells ∧
      contextOf proc + 8 ∉ (stackBytes (kernel.procs proc).kstack).cells) :
    (copyThread image kernel proc esp tf).heap.mem
        (frameOf (kernel.procs proc).kstack + 8 * index) =
      (childFrame tf esp (frameOf (kernel.procs proc).kstack)).word index := by
  unfold stackBytes at hcontext
  rw [Block.mem_cells_mk, Block.mem_cells_mk] at hcontext
  unfold copyThread
  dsimp only [Kernel.setMem, Kernel.setProc]
  rw [← frameOf]
  have hroom : frameOf (kernel.procs proc).kstack + trapframeSize =
      (kernel.procs proc).kstack + KSTACKSIZE :=
    Nat.sub_add_cancel ((show trapframeSize ≤ KSTACKSIZE by decide).trans (Nat.le_add_left _ _))
  have hsize : trapframeSize = 288 := rfl
  have hlow : (kernel.procs proc).kstack ≤ frameOf (kernel.procs proc).kstack := by
    have : trapframeSize ≤ KSTACKSIZE := by decide
    omega
  generalize frameOf (kernel.procs proc).kstack = frame at *
  rw [writePointer_of_ne (by omega), writePointer_of_ne (by omega)]
  have hword : ∀ tf' : TrapFrame, storeTrapFrame kernel.heap.mem frame tf' (frame + 8 * index) =
      tf'.word index := by
    intro tf'
    rw [storeTrapFrame, if_pos (by omega)]
    congr 1
    omega
  by_cases hsp : index = 2
  · subst hsp
    rw [write_same]
    rfl
  rw [write_of_ne (by omega)]
  by_cases ha0 : index = 10
  · subst ha0
    rw [write_same]
    rfl
  rw [write_of_ne (by omega), hword]
  unfold TrapFrame.word childFrame
  split
  · have hne : ∀ register : Fin 32, register.val ≠ index → (⟨index, ‹_›⟩ : Fin 32) ≠ register :=
      fun register hvalue heq ↦ hvalue (congrArg Fin.val heq).symm
    dsimp only
    rw [if_neg (hne 2 (Ne.symm hsp)), if_neg (hne 10 (Ne.symm ha0))]
  · rfl

/-- The context that `copy_thread` completes. -/
theorem copyThread_context {esp : BitVec 64} {tf : TrapFrame} {index : ℕ}
    (hzero : kernel.heap.mem (contextOf proc + 8 * index) = 0)
    (hcontext : contextOf proc + 8 * index ∉ (stackBytes (kernel.procs proc).kstack).cells) :
    (copyThread image kernel proc esp tf).heap.mem (contextOf proc + 8 * index) =
      if index = 0 then BitVec.ofNat 64 image.forkret
      else if index = 1 then BitVec.ofNat 64 (frameOf (kernel.procs proc).kstack) else 0 := by
  by_cases hsp : index = 1
  · subst hsp
    exact write_same
  by_cases hra : index = 0
  · subst hra
    exact (writePointer_of_ne (by omega)).trans write_same
  rw [copyThread_kept hcontext ⟨by omega, by omega⟩, hzero, if_neg hra, if_neg hsp]

/-! ## `do_fork` -/

/-- A process with a kernel stack in the two pages from `page` on, ready for its first run. -/
structure Forked (image : ProcImage) (kernel kernel' : Kernel allocator) (esp : BitVec 64)
    (tf : TrapFrame) (proc page : ℕ) (pid : ℤ) : Prop where
  fields : kernel'.procs proc = { freshProc image with
    state := .PROC_RUNNABLE
    pid
    kstack := kvaOf page
    parent := kernel.current
    tf := frameOf (kvaOf page) }
  procs : ∀ other ≠ proc, kernel'.procs other = kernel.procs other
  frame : ∀ index < 36, kernel'.heap.mem (frameOf (kvaOf page) + 8 * index) =
    (childFrame tf esp (frameOf (kvaOf page))).word index
  context : ∀ index < 14, kernel'.heap.mem (contextOf proc + 8 * index) =
    if index = 0 then BitVec.ofNat 64 image.forkret
    else if index = 1 then BitVec.ofNat 64 (frameOf (kvaOf page)) else 0
  idleproc : kernel'.idleproc = kernel.idleproc
  initproc : kernel'.initproc = kernel.initproc
  current : kernel'.current = kernel.current

/-- The cells of a live block lie in the heap. -/
theorem mem_heapBytes_of_live {block : Block} {address : ℕ} {heap : Heap allocator}
    (h : HeapInv image.toKernelImage heap blocks (block :: small) entries grown others)
    (haddress : address ∈ block.cells) : address ∈ heapBytes grown := by
  rw [← h.slob.partition]
  exact .inr ⟨block, List.mem_cons_self, haddress⟩

theorem contextOf_mem {index : ℕ} (hheader : SLOB_UNIT ≤ proc) (hindex : index < 14) :
    contextOf proc + 8 * index ∈ (procBlock proc).cells := by
  rw [procBlock, Block.mem_cells_mk]
  unfold contextOf procStructSize SLOB_UNITS SLOB_UNIT at *
  omega

/-- A block that is new to the heap belongs to no process. -/
theorem not_mem_of_procBlock {heap : Heap allocator} {owners : List ℕ}
    (h : HeapInv image.toKernelImage heap blocks (procBlock proc :: small) entries grown others)
    (howners : ∀ other ∈ owners, procBlock other ∈ small) : proc ∉ owners := by
  intro hmem
  have hapart := (List.pairwise_cons.mp h.slob.apart).1 (procBlock proc)
    (List.mem_append_left _ (howners proc hmem))
  have hself : (procBlock proc).start ∈ (procBlock proc).cells := by
    have hpos : 0 < SLOB_UNIT * SLOB_UNITS (procStructSize + SLOB_UNIT) := by decide
    exact ⟨le_rfl, Nat.lt_add_of_pos_right hpos⟩
  exact Set.disjoint_left.mp hapart hself hself

/-- What comes after the kernel stack was obtained. -/
theorem forkTail_spec {members : List ℕ} {esp : BitVec 64} {tf : TrapFrame} {page : ℕ}
    {kernel₁ kernel₂ : Kernel allocator} (hregistry : Registry kernel members)
    (hroom : kernel.nrProcess < MAX_PROCESS) (hnew : proc ∉ members) (hproc : proc ≠ 0)
    (hheader : SLOB_UNIT ≤ proc)
    (h : HeapInv image.toKernelImage kernel₁.heap blocks (procBlock proc :: small) entries grown
      others)
    (hloan : ⟨page, KSTACKPAGE⟩ ∈ others)
    (husable : ∀ other ∈ Block.cells ⟨page, KSTACKPAGE⟩, image.Usable other)
    (honly : OnlyProc kernel kernel₁ proc)
    (hfields : kernel₁.procs proc =
      { freshProc image with kstack := kvaOf page, parent := kernel.current })
    (hzero : ∀ index < 14, kernel₁.heap.mem (contextOf proc + 8 * index) = 0)
    (hregister : register fuel (copyThread image kernel₁ proc esp tf) proc = .ok kernel₂)
    (hwakeup : wakeupProc kernel₂ proc = .ok kernel') :
    Registry kernel' (proc :: members) ∧
      HeapInv image.toKernelImage kernel'.heap blocks (procBlock proc :: small) entries grown
        others ∧
      kernel'.heap.mem = (copyThread image kernel₁ proc esp tf).heap.mem ∧
      ∃ pid, 1 ≤ pid ∧ Forked image kernel kernel' esp tf proc page pid := by
  have hkstack : (kernel₁.procs proc).kstack = kvaOf page := by rw [hfields]
  obtain ⟨hcopied, hheap⟩ :=
    copyThread_spec esp tf h List.mem_cons_self hheader hloan husable hkstack
  have honly' := honly.trans hcopied
  have hregistry' := honly'.registry hregistry hnew
  obtain ⟨pid, nextSafe, hpos, -, rfl, hentered⟩ := hregistry'.register_spec hnew hproc
    (honly'.nrProcess ▸ hroom) hregister
  obtain ⟨value, -, hwakeup⟩ := bind_eq_ok.mp hwakeup
  obtain rfl := Except.ok.inj hwakeup
  have hstack : ∀ index < 14, contextOf proc + 8 * index ∉ (stackBytes (kvaOf page)).cells := by
    intro index hindex hcell
    refine (h.outside_of_loan hloan husable ?_).1
      (mem_heapBytes_of_live h (contextOf_mem hheader hindex))
    rwa [Nat.mul_comm]
  refine ⟨hentered.congr (fun _ _ ↦ ⟨rfl, rfl⟩) (fun other hother ↦ ?_) rfl rfl rfl, hheap, rfl, pid,
    hpos, ?_, fun other hother ↦ ?_, fun index hindex ↦ ?_, fun index hindex ↦ ?_, honly'.idleproc,
    honly'.initproc, honly'.current⟩
  · by_cases heq : other = proc
    · subst heq
      simp [Kernel.setProc]
    · simp [Kernel.setProc, heq]
  · simp only [Kernel.setProc, Function.update_self, copyThread, Kernel.setMem, hfields]
    rfl
  · simp only [Kernel.setProc, Function.update_of_ne hother]
    exact honly'.procs other hother
  · rw [← hkstack]
    refine copyThread_frame hindex ?_
    rw [hkstack]
    exact ⟨hstack 0 (by decide), hstack 1 (by decide)⟩
  · rw [← hkstack]
    refine copyThread_context (hzero index hindex) ?_
    rw [hkstack]
    exact hstack index hindex

/-- A failing `do_fork` gives back what it took, a page that the heap has kept apart; a successful one
enters one new process. -/
theorem doFork_spec {members owners : List ℕ} {flags : BitVec 32} {esp : BitVec 64} {tf : TrapFrame}
    {ret : ℤ} (hcorrect : allocator.Correct image.Usable) (hregistry : Registry kernel members)
    (h : HeapInv image.toKernelImage kernel.heap blocks small entries grown others)
    (howners : ∀ other ∈ owners, other ≠ 0 ∧ procBlock other ∈ small) (hmembers : members ⊆ owners)
    (hcall : doFork image fuel kernel flags esp tf = .ok (ret, kernel')) :
    ∃ proc blocks' taken, proc ∉ owners ∧ taken.length ≤ 1 ∧
      ((ret < 0 ∧ OnlyProc kernel kernel' proc ∧
          (∀ address, Foreign image.toKernelImage (small ++ entries.map BigBlock.units)
            (taken ++ grown) address → kernel'.heap.mem address = kernel.heap.mem address) ∧
          HeapInv image.toKernelImage kernel'.heap blocks' small entries (taken ++ grown) others) ∨
        (1 ≤ ret ∧ SLOB_UNIT ≤ proc ∧ ∃ page,
          (∀ other ∈ Block.cells ⟨page, KSTACKPAGE⟩, image.Usable other) ∧
          (∀ loan ∈ others, Disjoint loan.cells (Block.cells ⟨page, KSTACKPAGE⟩)) ∧
          Registry kernel' (proc :: members) ∧ Forked image kernel kernel' esp tf proc page ret ∧
          HeapInv image.toKernelImage kernel'.heap blocks' (procBlock proc :: small) entries
            (taken ++ grown) (insert ⟨page, KSTACKPAGE⟩ others) ∧
          ∀ address, Foreign image.toKernelImage (small ++ entries.map BigBlock.units)
            (taken ++ grown) address → address ∉ (stackBytes (kvaOf page)).cells →
              kernel'.heap.mem address = kernel.heap.mem address)) := by
  have hnull : 0 ∉ owners := fun hmem ↦ (howners 0 hmem).1 rfl
  unfold doFork at hcall
  by_cases hfull : kernel.nrProcess ≥ MAX_PROCESS
  · rw [if_pos hfull] at hcall
    obtain ⟨rfl, rfl⟩ := Prod.mk.inj (Except.ok.inj hcall)
    exact ⟨0, blocks, [], hnull, Nat.zero_le _, .inl ⟨by decide, .refl _ _, fun _ _ ↦ rfl, h⟩⟩
  rw [if_neg hfull] at hcall
  obtain ⟨⟨proc, kernel₁⟩, halloc, hcall⟩ := bind_eq_ok.mp hcall
  dsimp only at hcall
  obtain ⟨honly, blocks₁, taken, htaken, hkept, hresult⟩ := allocProc_spec hcorrect h halloc
  rcases hresult with ⟨rfl, -, hheap⟩ | ⟨hproc, hheader, hfields, hzero, hheap⟩
  · rw [if_pos rfl] at hcall
    obtain ⟨rfl, rfl⟩ := Prod.mk.inj (Except.ok.inj hcall)
    exact ⟨0, blocks₁, taken, hnull, htaken, .inl ⟨by decide, honly, hkept, hheap⟩⟩
  have hnew : proc ∉ owners := not_mem_of_procBlock hheap fun other hother ↦ (howners other hother).2
  rw [if_neg hproc] at hcall
  have hparent := honly.trans
    (.setProc kernel₁ proc { kernel₁.procs proc with parent := kernel₁.current })
  have hfields' : (kernel₁.setProc proc
      { kernel₁.procs proc with parent := kernel₁.current }).procs proc =
        { freshProc image with parent := kernel.current } := by
    simp only [Kernel.setProc, Function.update_self, hfields, honly.current]
  have hmem' : (kernel₁.setProc proc
      { kernel₁.procs proc with parent := kernel₁.current }).heap = kernel₁.heap := rfl
  generalize kernel₁.setProc proc { kernel₁.procs proc with parent := kernel₁.current } = kernel₂ at *
  obtain ⟨⟨result, kernel₃⟩, hkstack, hcall⟩ := bind_eq_ok.mp hcall
  dsimp only at hcall
  rw [← hmem'] at hheap hzero hkept
  obtain ⟨honly', hmem, hresult⟩ := setupKstack_spec hcorrect hheap hkstack
  rcases hresult with ⟨rfl, hheap'⟩ | ⟨rfl, page, husable, hfresh, hfields'', hheap'⟩
  · rw [if_pos (by decide)] at hcall
    obtain ⟨kernel₄, hcleanup, hcall⟩ := bind_eq_ok.mp hcall
    obtain ⟨rfl, rfl⟩ := Prod.mk.inj (Except.ok.inj hcall)
    obtain ⟨honly'', hkept', blocks₂, hheap''⟩ := cleanupProc_spec hheap' hheader hcleanup
    refine ⟨proc, blocks₂, taken, hnew, htaken, .inl ⟨by decide, (hparent.trans honly').trans honly'',
      fun address hforeign ↦ ?_, hheap''⟩⟩
    calc
      kernel₄.heap.mem address = kernel₃.heap.mem address := hkept' address hforeign
      _ = kernel₂.heap.mem address := by rw [hmem]
      _ = kernel.heap.mem address := hkept address hforeign
  · rw [if_neg (by decide)] at hcall
    obtain ⟨ret', hcopy, hcall⟩ := bind_eq_ok.mp hcall
    obtain ⟨value, -, hcopy⟩ := bind_eq_ok.mp hcopy
    obtain rfl := Except.ok.inj hcopy
    rw [if_neg (by decide)] at hcall
    obtain ⟨kernel₄, hregister, hcall⟩ := bind_eq_ok.mp hcall
    obtain ⟨kernel₅, hwakeup, hcall⟩ := bind_eq_ok.mp hcall
    obtain ⟨rfl, rfl⟩ := Prod.mk.inj (Except.ok.inj hcall)
    rw [← hmem] at hzero hkept
    obtain ⟨hregistry', hheap'', hmem'', pid, hpid, hforked⟩ :=
      forkTail_spec hregistry (not_le.mp hfull) (fun hmem ↦ hnew (hmembers hmem)) hproc hheader
        hheap' (Set.mem_insert _ _) husable (hparent.trans honly') (hfields''.trans (by rw [hfields']))
        hzero hregister hwakeup
    have hret : (kernel₅.procs proc).pid = pid := by rw [hforked.fields]
    rw [hret]
    refine ⟨proc, blocks₁, taken, hnew, htaken, .inr ⟨hpid, hheader, page, husable, hfresh,
      hregistry', hforked, hheap'', fun address hforeign hstack ↦ ?_⟩⟩
    have hoff : ∀ index < 14, address ≠ contextOf proc + 8 * index := by
      rintro index hindex rfl
      exact hheap'.books.not_mem_of_foreign hforeign (contextOf_mem hheader hindex)
    rw [hmem'', copyThread_kept, hkept address hforeign]
    · rwa [hfields'']
    · exact ⟨hoff 0 (by decide), hoff 1 (by decide)⟩

end Steps

end Ucore
