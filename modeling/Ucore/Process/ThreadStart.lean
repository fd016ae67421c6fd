import Ucore.Process.SwitchRuns

/-!
# The first run of a kernel thread

`kernel_thread` leaves a process whose context points at `forkret` and whose stack holds a trap frame.
Nothing touches either until the process runs. The first switch to it then goes through `forkret`,
`forkrets` and `__trapret` to `kernel_thread_entry`.
-/

namespace Ucore

open Foundation Memory Rv64

/-- The symbols of `trapentry.S` too; the boot stack comes first in `.data`. -/
structure EntryImage extends ProcImage where
  forkrets : BitVec 64
  trapret : BitVec 64
  distinct : [BitVec.ofNat 64 forkret, forkrets, trapret].Nodup
  bootstack_below : bootstack + KSTACKSIZE ≤ arena

section Code

variable {allocator : PageAllocator}

/-- The code that a new thread runs through. `forkret` is C code: it calls `forkrets(current->tf)` and may
use the stack below `sp` and any register. -/
inductive Executes (image : EntryImage) (rules : SstatusRules) (kernel : Kernel allocator) :
    Machine → Machine → Prop
  | forkret {machine machine' : Machine} (hpc : machine.pc = BitVec.ofNat 64 image.forkret)
      (htf : machine'.x a0 = BitVec.ofNat 64 (kernel.procs kernel.current).tf)
      (hjump : machine'.pc = image.forkrets)
      (hmem : ∀ address, (machine.x sp).toNat ≤ address →
        machine'.mem address = machine.mem address) :
      Executes image rules kernel machine machine'
  | forkrets {machine : Machine} (hpc : machine.pc = image.forkrets) :
      Executes image rules kernel machine (run rules (Ucore.forkrets image.trapret) machine)
  | trapret {machine : Machine} (hpc : machine.pc = image.trapret) :
      Executes image rules kernel machine (run rules __trapret machine)

/-- At the entry of a kernel thread -/
structure Started (image : ProcImage) (machine : Machine) (fn arg : BitVec 64) (kstack : ℕ) :
    Prop where
  pc : machine.pc = BitVec.ofNat 64 image.kernelThreadEntry
  supervisor : machine.supervisor = true
  s0 : machine.x s0 = fn
  s1 : machine.x s1 = arg
  a0 : machine.x a0 = 0
  sp : machine.x sp = BitVec.ofNat 64 (kstack + KSTACKSIZE - trapframeSize)
  sie : machine.sstatus.getLsbD 1 = true

variable {image : EntryImage} {rules : SstatusRules} {kernel : Kernel allocator}
  {machine machine₁ machine₂ machine₃ : Machine} {fn arg sstatus : BitVec 64} {kstack : ℕ}

theorem EntryImage.symbols_ne (image : EntryImage) :
    (BitVec.ofNat 64 image.forkret ≠ image.forkrets ∧
      BitVec.ofNat 64 image.forkret ≠ image.trapret) ∧ image.forkrets ≠ image.trapret := by
  simpa using image.distinct

/-! The program counter decides what is executed. -/

theorem Executes.of_forkret (h : Executes image rules kernel machine machine₁)
    (hpc : machine.pc = BitVec.ofNat 64 image.forkret) :
    machine₁.x a0 = BitVec.ofNat 64 (kernel.procs kernel.current).tf ∧
      machine₁.pc = image.forkrets ∧
      ∀ address, (machine.x sp).toNat ≤ address → machine₁.mem address = machine.mem address := by
  cases h with
  | forkret _ htf hjump hmem => exact ⟨htf, hjump, hmem⟩
  | forkrets hpc' => exact absurd (hpc.symm.trans hpc') image.symbols_ne.1.1
  | trapret hpc' => exact absurd (hpc.symm.trans hpc') image.symbols_ne.1.2

theorem Executes.of_forkrets (h : Executes image rules kernel machine machine₁)
    (hpc : machine.pc = image.forkrets) :
    machine₁ = run rules (Ucore.forkrets image.trapret) machine := by
  cases h with
  | forkret hpc' => exact absurd (hpc'.symm.trans hpc) image.symbols_ne.1.1
  | forkrets => rfl
  | trapret hpc' => exact absurd (hpc.symm.trans hpc') image.symbols_ne.2

theorem Executes.of_trapret (h : Executes image rules kernel machine machine₁)
    (hpc : machine.pc = image.trapret) : machine₁ = run rules __trapret machine := by
  cases h with
  | forkret hpc' => exact absurd (hpc'.symm.trans hpc) image.symbols_ne.1.2
  | forkrets hpc' => exact absurd (hpc'.symm.trans hpc) image.symbols_ne.2
  | trapret => rfl

/-- The words of the frame of a new kernel thread that matter at its start. -/
theorem childFrame_kernelThread (image : ProcImage) (sstatus fn arg : BitVec 64) (frame : ℕ) :
    let tf := childFrame (kernelThreadFrame image sstatus fn arg) 0 frame
    tf.word 8 = fn ∧ tf.word 9 = arg ∧ tf.word 10 = 0 ∧ tf.word 2 = BitVec.ofNat 64 frame ∧
      tf.word 33 = BitVec.ofNat 64 image.kernelThreadEntry ∧ (tf.word 32).getLsbD 8 = true ∧
      (tf.word 32).getLsbD 5 = true := by
  refine ⟨rfl, rfl, rfl, rfl, rfl, ?_, ?_⟩ <;>
    simp [TrapFrame.word, childFrame, kernelThreadFrame, SSTATUS_SPP, SSTATUS_SPIE, SSTATUS_SIE]

/-- `__trapret` with the frame of a new kernel thread -/
theorem trapret_started (hsp : machine.x sp = BitVec.ofNat 64 (frameOf kstack))
    (hfits : frameOf kstack + trapframeSize ≤ 2 ^ 64)
    (hframe : ∀ index < 36, machine.mem (frameOf kstack + 8 * index) =
      (childFrame (kernelThreadFrame image.toProcImage sstatus fn arg) 0 (frameOf kstack)).word
        index) :
    Started image.toProcImage (run rules __trapret machine) fn arg kstack := by
  have hspec : (∀ register : Register, register ≠ 0 →
      (run rules __trapret machine).x register = _) ∧ _ := trapret_spec hsp hfits
  obtain ⟨hregisters, -, hreturn, hmode, hinterrupts⟩ := hspec
  have hfields := childFrame_kernelThread image.toProcImage sstatus fn arg (frameOf kstack)
  dsimp only at hfields
  obtain ⟨hfn, harg, hzero, hstack, hepc, hspp, hspie⟩ := hfields
  refine ⟨?_, ?_, ?_, ?_, ?_, ?_, ?_⟩
  · exact hreturn.trans ((hframe 33 (by decide)).trans hepc)
  · rw [hmode, hframe 32 (by decide), hspp]
  · exact (hregisters s0 (by decide)).trans ((hframe 8 (by decide)).trans hfn)
  · exact (hregisters s1 (by decide)).trans ((hframe 9 (by decide)).trans harg)
  · exact (hregisters a0 (by decide)).trans ((hframe 10 (by decide)).trans hzero)
  · exact (hregisters sp (by decide)).trans ((hframe 2 (by decide)).trans hstack)
  · rw [hinterrupts, hframe 32 (by decide), hspie]

/-- From `forkret` on there is one way, and it ends at the entry of the thread. -/
theorem executes_start (hpc : machine.pc = BitVec.ofNat 64 image.forkret)
    (hsp : machine.x sp = BitVec.ofNat 64 (frameOf kstack))
    (htf : (kernel.procs kernel.current).tf = frameOf kstack)
    (hfits : frameOf kstack + trapframeSize ≤ 2 ^ 64)
    (hframe : ∀ index < 36, machine.mem (frameOf kstack + 8 * index) =
      (childFrame (kernelThreadFrame image.toProcImage sstatus fn arg) 0 (frameOf kstack)).word
        index)
    (h₁ : Executes image rules kernel machine machine₁)
    (h₂ : Executes image rules kernel machine₁ machine₂)
    (h₃ : Executes image rules kernel machine₂ machine₃) :
    machine₁.pc = image.forkrets ∧ machine₂.pc = image.trapret ∧
      Started image.toProcImage machine₃ fn arg kstack := by
  have hstart : (machine.x sp).toNat = frameOf kstack := by
    rw [hsp, BitVec.toNat_ofNat]
    exact Nat.mod_eq_of_lt (by unfold trapframeSize at hfits; omega)
  obtain ⟨hcall, hjump, hmem⟩ := h₁.of_forkret hpc
  obtain rfl := h₂.of_forkrets hjump
  obtain rfl := h₃.of_trapret rfl
  have hframe' : ∀ index < 36,
      (run rules (Ucore.forkrets image.trapret) machine₁).mem (frameOf kstack + 8 * index) =
        (childFrame (kernelThreadFrame image.toProcImage sstatus fn arg) 0 (frameOf kstack)).word
          index := by
    intro index hindex
    calc
      (run rules (Ucore.forkrets image.trapret) machine₁).mem (frameOf kstack + 8 * index) =
          machine₁.mem (frameOf kstack + 8 * index) := rfl
      _ = machine.mem (frameOf kstack + 8 * index) := hmem _ (by omega)
      _ = _ := hframe index hindex
  exact ⟨hjump, rfl, trapret_started (hcall.trans (by rw [htf])) hfits hframe'⟩

/-- The way exists. -/
theorem exists_executes (hpc : machine.pc = BitVec.ofNat 64 image.forkret) :
    ∃ machine₁ machine₂ machine₃, Executes image rules kernel machine machine₁ ∧
      Executes image rules kernel machine₁ machine₂ ∧
      Executes image rules kernel machine₂ machine₃ := by
  let called : Machine :=
    { machine with
      x := Function.update machine.x a0 (BitVec.ofNat 64 (kernel.procs kernel.current).tf)
      pc := image.forkrets }
  have htf : called.x a0 = BitVec.ofNat 64 (kernel.procs kernel.current).tf := by
    simp only [called, Function.update_self]
  exact ⟨called, run rules (Ucore.forkrets image.trapret) called, _,
    .forkret hpc htf rfl fun _ _ ↦ rfl, .forkrets rfl, .trapret rfl⟩

end Code

/-! ## Waiting for the first run -/

namespace ProcWorld

variable {allocator : PageAllocator}

/-- The process has never run: its context, its frame and the pointer to it are those that `copy_thread`
wrote. -/
structure Ready (image : ProcImage) (world : ProcWorld allocator) (proc : ℕ) (tf : TrapFrame) :
    Prop where
  process : IsProcess world.kernel proc
  thread : proc ≠ world.kernel.idleproc
  tf_eq : (world.kernel.procs proc).tf = frameOf (world.kernel.procs proc).kstack
  frame : ∀ index < 36,
    world.kernel.heap.mem (frameOf (world.kernel.procs proc).kstack + 8 * index) =
      (childFrame tf 0 (frameOf (world.kernel.procs proc).kstack)).word index
  context : HoldsContext world.kernel.heap.mem proc
    (startRegisters image (world.kernel.procs proc))

/-- A run in which `proc` is not the process that runs. -/
inductive Waits (image : ProcImage) (proc : ℕ) : ProcWorld allocator → ProcWorld allocator → Prop
  | refl (world : ProcWorld allocator) : Waits image proc world world
  | step {world world' world'' : ProcWorld allocator} (hrun : Waits image proc world world')
      (hother : proc ≠ world'.kernel.current) (hstep : Step image world' world'') :
      Waits image proc world world''

variable {image : ProcImage} {world world' : ProcWorld allocator} {proc : ℕ} {tf : TrapFrame}

theorem frame_inside {kstack index : ℕ} (hindex : index < 36) :
    frameOf kstack + 8 * index ∈ (stackBytes kstack).cells := by
  rw [stackBytes, Block.mem_cells_mk]
  unfold frameOf KSTACKSIZE KSTACKPAGE PGSIZE trapframeSize
  omega

theorem Step.isProcess (hstep : Step image world world') (hcorrect : allocator.Correct image.Usable)
    (h : Sound image world) (hproc : IsProcess world.kernel proc) :
    IsProcess world'.kernel proc ∧ world'.kernel.idleproc = world.kernel.idleproc := by
  obtain ⟨members, boot, blocks, entries, grown, h⟩ := h
  have hmem := h.registry.isProcess_iff.mp hproc
  cases hstep with
  | fork hcall =>
    obtain ⟨child, blocks', taken, -, -, -, ⟨-, honly, -, hnext⟩ | ⟨-, page, hforked, hnext⟩⟩ :=
      h.doFork hcorrect hcall
    · refine ⟨hnext.registry.isProcess_iff.mpr ?_, honly.idleproc⟩
      dsimp only
      rw [honly.idleproc]
      exact hmem
    · refine ⟨hnext.registry.isProcess_iff.mpr ?_, hforked.idleproc⟩
      dsimp only
      rw [hforked.idleproc]
      rcases List.mem_cons.mp hmem with rfl | hmember
      · exact List.mem_cons_self
      · exact List.mem_cons_of_mem _ (List.mem_cons_of_mem _ hmember)
  | schedule hcall =>
    obtain ⟨-, -, mem, hkernel, -⟩ := schedule_spec h.registry h.current hcall
    rw [hkernel]
    exact ⟨hproc, rfl⟩
  | _ => exact ⟨hproc, rfl⟩

/-- Nothing happens to a process that waits. -/
theorem Ready.step (h : Ready image world proc tf) (hcorrect : allocator.Correct image.Usable)
    (hsound : Sound image world) (hstep : Step image world world')
    (hother : proc ≠ world.kernel.current) : Ready image world' proc tf := by
  obtain ⟨hprocess, hidle⟩ := hstep.isProcess hcorrect hsound h.process
  obtain ⟨members, boot, blocks, entries, grown, hinv⟩ := hsound
  have hmem := hinv.registry.isProcess_iff.mp h.process
  obtain ⟨hkept, -, hkstack, htf, -⟩ := hstep.frame hcorrect hinv hmem hother
  refine ⟨hprocess, hidle ▸ h.thread, ?_, fun index hindex ↦ ?_, fun slot hslot ↦ ?_⟩
  · rw [htf, hkstack]
    exact h.tf_eq
  · rw [hkstack, hkept _ (.inr ⟨h.thread, frame_inside hindex⟩)]
    exact h.frame index hindex
  · rw [hkept _ (.inl (hinv.context_own hmem hslot)), h.context slot hslot, startRegisters,
      startRegisters, htf]

theorem Waits.ready (hrun : Waits image proc world world') (hcorrect : allocator.Correct image.Usable)
    (hsound : Sound image world) (h : Ready image world proc tf) :
    Sound image world' ∧ Ready image world' proc tf := by
  induction hrun with
  | refl => exact ⟨hsound, h⟩
  | step _ hother hstep ih =>
    exact ⟨hstep.sound hcorrect ih.1, ih.2.step hcorrect ih.1 hstep hother⟩

/-- A new kernel thread is ready for its first run. -/
theorem Sound.kernelThread {kernel' : Kernel allocator} {fuel : ℕ} {sstatus fn arg : BitVec 64}
    {flags : BitVec 32} {pid : ℤ} (hsound : Sound image world)
    (hcorrect : allocator.Correct image.Usable)
    (hcall : kernelThread image fuel world.kernel sstatus fn arg flags = .ok (pid, kernel'))
    (hpid : 0 < pid) :
    ∃ proc, proc ≠ kernel'.current ∧ (kernel'.procs proc).pid = pid ∧
      Ready image { world with kernel := kernel' } proc (kernelThreadFrame image sstatus fn arg) := by
  obtain ⟨members, boot, blocks, entries, grown, h⟩ := hsound
  obtain ⟨proc, blocks', taken, hnew, -, -, ⟨hneg, -⟩ | ⟨-, page, hforked, hnext⟩⟩ :=
    h.doFork hcorrect hcall
  · omega
  have hkstack : (kernel'.procs proc).kstack = kvaOf page := by rw [hforked.fields]
  refine ⟨proc, ?_, by rw [hforked.fields], ?_, ?_, ?_, fun index hindex ↦ ?_, hforked.holdsContext⟩
  · rintro rfl
    rw [hforked.current] at hnew
    exact hnew h.current
  · exact hnext.registry.isProcess_iff.mpr (List.mem_cons_of_mem _ List.mem_cons_self)
  · dsimp only
    rw [hforked.idleproc]
    exact fun heq ↦ hnew (heq ▸ List.mem_cons_self)
  · dsimp only
    rw [hforked.fields]
  · dsimp only
    rw [hkstack]
    exact hforked.frame index hindex

/-- The stack of a process fills two pages that are lent to it, holds its frame and shares no byte with
another stack. -/
structure StackReserved (world : ProcWorld allocator) (proc : ℕ) : Prop where
  pages : ∃ page, (world.kernel.procs proc).kstack = kvaOf page ∧
    ⟨page, KSTACKPAGE⟩ ∈ allocator.outstanding world.kernel.heap.pages ∧
    (stackBytes (world.kernel.procs proc).kstack).cells ⊆
      (pageBytes page).cells ∪ (pageBytes (page + 1)).cells
  frame : Block.cells ⟨(world.kernel.procs proc).tf, trapframeSize⟩ ⊆
    (stackBytes (world.kernel.procs proc).kstack).cells
  apart : ∀ other, IsProcess world.kernel other → other ≠ proc →
    Disjoint (stackBytes (world.kernel.procs proc).kstack).cells
      (stackBytes (world.kernel.procs other).kstack).cells

theorem Ready.stackReserved {image : EntryImage} (h : Ready image.toProcImage world proc tf)
    (hsound : Sound image.toProcImage world) : StackReserved world proc := by
  obtain ⟨members, boot, blocks, entries, grown, hinv⟩ := hsound
  have hmem := List.mem_of_ne_of_mem h.thread (hinv.registry.isProcess_iff.mp h.process)
  obtain ⟨page, hkstack, husable⟩ := hinv.stack proc hmem
  have hrun : stackRun (world.kernel.procs proc).kstack = ⟨page, KSTACKPAGE⟩ := by
    rw [hkstack]
    exact stackRun_kvaOf (husable page (first_mem_run page))
  have hbytes : ∀ address ∈ (stackBytes (world.kernel.procs proc).kstack).cells,
      ∃ other ∈ Block.cells ⟨page, KSTACKPAGE⟩, address ∈ (pageBytes other).cells := by
    intro address hcell
    rw [hkstack, stackBytes_eq] at hcell
    exact mem_pageBytes_of_run husable hcell
  refine ⟨⟨page, hkstack, ?_, fun address hcell ↦ ?_⟩, ?_, fun other hother hne ↦ ?_⟩
  · rw [hinv.heap.ledger.outstanding]
    exact .inl (.inr ⟨proc, hmem, hrun.symm⟩)
  · obtain ⟨other, hother, hcell'⟩ := hbytes address hcell
    rw [Block.mem_cells_mk] at hother
    obtain rfl | rfl : other = page ∨ other = page + 1 := by
      unfold KSTACKPAGE at hother
      omega
    · exact .inl hcell'
    · exact .inr hcell'
  · intro address hcell
    rw [Block.mem_cells_mk, h.tf_eq] at hcell
    rw [stackBytes, Block.mem_cells_mk]
    unfold frameOf KSTACKSIZE KSTACKPAGE PGSIZE trapframeSize at *
    omega
  · rcases List.mem_cons.mp (hinv.registry.isProcess_iff.mp hother) with rfl | hother'
    · -- the boot stack is part of the kernel image
      rw [hinv.idleStack, Set.disjoint_left]
      intro address hcell hcell'
      obtain ⟨other, hother, hcell⟩ := hbytes address hcell
      have habove := (husable other hother).2
      have hbelow := image.bootstack_below
      rw [pageBytes, Block.mem_cells_mk] at hcell
      rw [stackBytes, Block.mem_cells_mk] at hcell'
      omega
    · exact hinv.stacks_apart hmem hother' hne.symm

/-- The first switch to a process lands at `forkret` with everything in place. -/
theorem Ready.switched {state : ThreadWorld allocator} (rules : SstatusRules)
    (h : Ready image state.world proc tf) (hcorrect : allocator.Correct image.Usable)
    (hsound : Sound image state.world) (hother : proc ≠ state.world.kernel.current)
    (hfrom : state.hart.x a0 = BitVec.ofNat 64 (contextOf state.world.kernel.current))
    (hto : state.hart.x a1 = BitVec.ofNat 64 (contextOf proc)) :
    let entered := state.switched rules proc
    let frame := frameOf (state.world.kernel.procs proc).kstack
    entered.hart.pc = BitVec.ofNat 64 image.forkret ∧
      entered.hart.x sp = BitVec.ofNat 64 frame ∧
      (entered.world.kernel.procs entered.world.kernel.current).tf = frame ∧
      frame + trapframeSize ≤ 2 ^ 64 ∧
      ∀ index < 36, entered.machine.mem (frame + 8 * index) = (childFrame tf 0 frame).word index := by
  obtain ⟨-, -, hloaded, hpc⟩ :=
    ThreadWorld.switchTo_processes rules hsound h.process hother hfrom hto
  have hstep := ThreadWorld.switched_step rules hsound h.process hother hfrom hto
  obtain ⟨members, boot, blocks, entries, grown, hinv⟩ := hsound
  have hmem := hinv.registry.isProcess_iff.mp h.process
  obtain ⟨hkept, -⟩ := hstep.frame hcorrect hinv hmem hother
  refine ⟨?_, ?_, h.tf_eq, ?_, fun index hindex ↦ ?_⟩
  · exact hpc.trans (h.context (ra, 0) (by decide))
  · have hstart : startRegisters image (state.world.kernel.procs proc) sp =
        BitVec.ofNat 64 (frameOf (state.world.kernel.procs proc).kstack) := by
      rw [← h.tf_eq]
      rfl
    exact (hloaded (sp, 8) (by decide)).symm.trans ((h.context (sp, 8) (by decide)).trans hstart)
  · have hroom := hinv.stack_fits (List.mem_of_ne_of_mem h.thread hmem)
    unfold frameOf KSTACKSIZE KSTACKPAGE PGSIZE trapframeSize at *
    omega
  · exact (hkept _ (.inr ⟨h.thread, frame_inside hindex⟩)).trans (h.frame index hindex)

/-- When a thread made by `kernel_thread` is switched to for the first time, from whatever thread and
with whatever registers, it reaches `kernel_thread_entry` through `forkret`, `forkrets` and `__trapret`,
with its function and argument and on its own stack. -/
theorem kernelThread_starts {image : EntryImage} {kernel' : Kernel allocator} {fuel : ℕ}
    {sstatus fn arg : BitVec 64} {flags : BitVec 32} {pid : ℤ} (rules : SstatusRules)
    (hcorrect : allocator.Correct image.Usable) (hworld : Reachable image.toProcImage world)
    (hcall : kernelThread image.toProcImage fuel world.kernel sstatus fn arg flags =
      .ok (pid, kernel')) (hpid : 0 < pid) :
    ∃ proc, IsProcess kernel' proc ∧ (kernel'.procs proc).pid = pid ∧ proc ≠ kernel'.current ∧
      ∀ later, Waits image.toProcImage proc { world with kernel := kernel' } later →
        proc ≠ later.kernel.current →
        StackReserved later proc ∧
        ∀ state : ThreadWorld allocator, state.world = later →
          state.hart.x a0 = BitVec.ofNat 64 (contextOf later.kernel.current) →
          state.hart.x a1 = BitVec.ofNat 64 (contextOf proc) →
          let entered := state.switched rules proc
          entered.hart.pc = BitVec.ofNat 64 image.forkret ∧
          (∀ machine₁ machine₂ machine₃,
            Executes image rules entered.world.kernel entered.machine machine₁ →
            Executes image rules entered.world.kernel machine₁ machine₂ →
            Executes image rules entered.world.kernel machine₂ machine₃ →
              machine₁.pc = image.forkrets ∧ machine₂.pc = image.trapret ∧
                Started image.toProcImage machine₃ fn arg (later.kernel.procs proc).kstack) ∧
          ∃ machine₁ machine₂ machine₃,
            Executes image rules entered.world.kernel entered.machine machine₁ ∧
            Executes image rules entered.world.kernel machine₁ machine₂ ∧
            Executes image rules entered.world.kernel machine₂ machine₃ := by
  have hsound := hworld.sound hcorrect
  obtain ⟨proc, hcurrent, hnumber, hready⟩ := hsound.kernelThread hcorrect hcall hpid
  have hsound' : Sound image.toProcImage { world with kernel := kernel' } :=
    Step.sound (.fork hcall) hcorrect hsound
  refine ⟨proc, hready.process, hnumber, hcurrent, fun later hrun hother ↦ ?_⟩
  obtain ⟨hsound, hready⟩ := hrun.ready hcorrect hsound' hready
  refine ⟨hready.stackReserved hsound, fun state hstate hfrom hto ↦ ?_⟩
  subst hstate
  obtain ⟨hpc, hsp, htf, hfits, hframe⟩ := hready.switched rules hcorrect hsound hother hfrom hto
  exact ⟨hpc, fun machine₁ machine₂ machine₃ h₁ h₂ h₃ ↦
    executes_start hpc hsp htf hfits hframe h₁ h₂ h₃, exists_executes hpc⟩

/-- The sample image with the symbols of `trapentry.S` -/
def sampleEntry : EntryImage where
  toProcImage := sampleImage
  forkrets := 0xFFFFFFFFC0200DF4
  trapret := 0xFFFFFFFFC0200DA6
  distinct := by decide
  bootstack_below := by decide

/-- A thread with function 1 and argument 2, switched to at once. -/
theorem kernelThread_starts_sample :
    ∃ (machine : Machine) (kstack : ℕ), Started sampleImage machine 1 2 kstack := by
  have hrun : (sampleFork 16).toOption.any (fun outcome ↦ outcome.2.1 = 2) = true := by
    decide +kernel
  obtain ⟨⟨kernel, pid, kernel'⟩, hcall, hpid⟩ := Option.any_eq_true _ _ |>.mp hrun
  obtain rfl := of_decide_eq_true hpid
  obtain ⟨hworld, hfork⟩ := sampleFork_reachable (toOption_eq_some.mp hcall)
  have hcorrect := PageAllocator.firstFit_correct fun page : ℕ ↦
    @HeapWorld.sampleImage_usable page
  have hworld : Reachable sampleEntry.toProcImage _ := hworld
  obtain ⟨proc, -, -, hother, hstart⟩ :=
    kernelThread_starts .standard hcorrect hworld hfork (by decide)
  let hart : Hart :=
    { x := fun register ↦ if register = a0 then BitVec.ofNat 64 (contextOf kernel'.current)
        else BitVec.ofNat 64 (contextOf proc)
      pc := 0
      sstatus := 0
      sepc := 0
      supervisor := true }
  obtain ⟨-, hswitch⟩ := hstart _ (.refl _) hother
  obtain ⟨-, hall, machine₁, machine₂, machine₃, h₁, h₂, h₃⟩ :=
    hswitch ⟨_, hart, fun _ _ ↦ 0⟩ rfl rfl rfl
  exact ⟨machine₃, _, (hall machine₁ machine₂ machine₃ h₁ h₂ h₃).2.2⟩

end ProcWorld

end Ucore
