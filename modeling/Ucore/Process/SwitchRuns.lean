import Ucore.Process.ForkRuns

/-!
# Any number of threads

The running thread changes its registers as it likes, the kernel goes on, and `switch_to` moves to
another thread. `saved` records what a thread had in its registers when it last called `switch_to`;
what it finds there when it runs again is the same.
-/

namespace Ucore

open Foundation Memory Rv64

/-- The context that `copy_thread` writes. -/
def startRegisters (image : ProcImage) (fields : ProcStruct) (register : Register) : BitVec 64 :=
  if register = ra then BitVec.ofNat 64 image.forkret
  else if register = sp then BitVec.ofNat 64 fields.tf
  else 0

/-! ## Contexts of new processes -/

section Contexts

variable {allocator : PageAllocator} {image : ProcImage}

/-- The context at `proc` holds `registers`. -/
def HoldsContext (mem : Memory) (proc : ℕ) (registers : Register → BitVec 64) : Prop :=
  ∀ slot ∈ contextSlots, mem (contextOf proc + slot.2) = registers slot.1

theorem contextSlots_index {slot : Register × ℕ} (hslot : slot ∈ contextSlots) :
    ∃ index < 14, slot.2 = 8 * index ∧ (index = 0 ↔ slot.1 = ra) ∧ (index = 1 ↔ slot.1 = sp) := by
  revert slot
  decide

theorem Forked.holdsContext {kernel kernel' : Kernel allocator} {esp : BitVec 64}
    {tf : TrapFrame} {proc page : ℕ} {pid : ℤ}
    (h : Forked image kernel kernel' esp tf proc page pid) :
    HoldsContext kernel'.heap.mem proc (startRegisters image (kernel'.procs proc)) := by
  intro slot hslot
  obtain ⟨index, hindex, hoffset, hra, hsp⟩ := contextSlots_index hslot
  rw [hoffset, h.context index hindex, startRegisters, h.fields]
  simp only [hra, hsp]

/-- A step makes no process but the one it forks. -/
theorem ProcWorld.Step.processes {world world' : ProcWorld allocator} {proc : ℕ}
    (hstep : ProcWorld.Step image world world') (hcorrect : allocator.Correct image.Usable)
    (h : world.Sound image) (hproc : IsProcess world'.kernel proc) :
    IsProcess world.kernel proc ∨ HoldsContext world'.kernel.heap.mem proc
      (startRegisters image (world'.kernel.procs proc)) := by
  obtain ⟨members, boot, blocks, entries, grown, h⟩ := h
  cases hstep with
  | fork hcall =>
    obtain ⟨child, blocks', taken, -, -, -, ⟨-, honly, -, hnext⟩ | ⟨-, page, hforked, hnext⟩⟩ :=
      h.doFork hcorrect hcall
    · have hmem := hnext.registry.isProcess_iff.mp hproc
      dsimp only at hmem
      rw [honly.idleproc] at hmem
      exact .inl (h.registry.isProcess_iff.mpr hmem)
    · have hmem := hnext.registry.isProcess_iff.mp hproc
      dsimp only at hmem
      rw [hforked.idleproc] at hmem
      by_cases heq : proc = child
      · subst heq
        exact .inr hforked.holdsContext
      · refine .inl (h.registry.isProcess_iff.mpr ?_)
        simpa [heq] using hmem
  | schedule hcall =>
    obtain ⟨-, -, mem, hkernel, -⟩ := schedule_spec h.registry h.current hcall
    rw [hkernel] at hproc
    exact .inl hproc
  | _ => exact .inl hproc

end Contexts

/-! ## Threads -/

structure ThreadWorld (allocator : PageAllocator) where
  world : ProcWorld allocator
  hart : Hart
  saved : ℕ → Register → BitVec 64

namespace ThreadWorld

variable {allocator : PageAllocator}

def machine (state : ThreadWorld allocator) : Machine :=
  { state.hart with mem := state.world.kernel.heap.mem }

/-- `switch_to(&(current->context), &(proc->context))` behind `current = proc` -/
def switched (rules : SstatusRules) (state : ThreadWorld allocator) (proc : ℕ) :
    ThreadWorld allocator where
  world := { state.world with
    kernel := (procRunEnter state.world.kernel proc).1.setMem (run rules switchTo state.machine).mem }
  hart := (run rules switchTo state.machine).toHart
  saved := Function.update state.saved state.world.kernel.current state.hart.x

inductive Step (image : ProcImage) (rules : SstatusRules) :
    ThreadWorld allocator → ThreadWorld allocator → Prop
  | compute {state : ThreadWorld allocator} (hart : Hart) : Step image rules state { state with hart }
  | kernel {state : ThreadWorld allocator} {world' : ProcWorld allocator}
      {saved : ℕ → Register → BitVec 64} (hstep : ProcWorld.Step image state.world world')
      (hcurrent : world'.kernel.current = state.world.kernel.current)
      (hold : ∀ proc, IsProcess state.world.kernel proc → saved proc = state.saved proc)
      (hnew : ∀ proc, IsProcess world'.kernel proc → ¬ IsProcess state.world.kernel proc →
        saved proc = startRegisters image (world'.kernel.procs proc)) :
      Step image rules state { state with world := world', saved }
  | switchTo {state : ThreadWorld allocator} {proc : ℕ} (hproc : IsProcess state.world.kernel proc)
      (hother : proc ≠ state.world.kernel.current)
      (hfrom : state.hart.x a0 = BitVec.ofNat 64 (contextOf state.world.kernel.current))
      (hto : state.hart.x a1 = BitVec.ofNat 64 (contextOf proc)) :
      Step image rules state (state.switched rules proc)

/-- After `proc_init` the idle process runs, and the other one has the context of `copy_thread`. -/
inductive Reachable (image : ProcImage) (rules : SstatusRules) : ThreadWorld allocator → Prop
  | boot {clients : HeapWorld allocator} {kernel kernel' : Kernel allocator} {fuel : ℕ}
      {sstatus : BitVec 64} {saved : ℕ → Register → BitVec 64} (hart : Hart)
      (hclients : clients.Reachable image.toKernelImage) (hheap : kernel.heap = clients.heap)
      (hcount : kernel.nrProcess = 0) (hlast : kernel.lastPid = MAX_PID)
      (hsafe : kernel.nextSafe = MAX_PID) (hinit : procInit image fuel kernel sstatus = .ok kernel')
      (hnew : ∀ proc, IsProcess kernel' proc → proc ≠ kernel'.idleproc →
        saved proc = startRegisters image (kernel'.procs proc)) :
      Reachable image rules
        ⟨⟨kernel', clients.small, clients.big, clients.others⟩, hart, saved⟩
  | step {state state' : ThreadWorld allocator} (hstate : Reachable image rules state)
      (hstep : Step image rules state state') : Reachable image rules state'

variable {image : ProcImage} {rules : SstatusRules} {state state' : ThreadWorld allocator}

/-! ## The invariant -/

/-- Every thread but the running one has what it had in its context. -/
def Suspended (state : ThreadWorld allocator) : Prop :=
  ∀ proc, IsProcess state.world.kernel proc → proc ≠ state.world.kernel.current →
    HoldsContext state.world.kernel.heap.mem proc (state.saved proc)

section Invariant

variable {saved : ℕ → Register → BitVec 64} {proc : ℕ}

theorem Suspended.kernel {world' : ProcWorld allocator} (h : Suspended state)
    (hcorrect : allocator.Correct image.Usable) (hsound : state.world.Sound image)
    (hstep : ProcWorld.Step image state.world world')
    (hcurrent : world'.kernel.current = state.world.kernel.current)
    (hold : ∀ proc, IsProcess state.world.kernel proc → saved proc = state.saved proc)
    (hnew : ∀ proc, IsProcess world'.kernel proc → ¬ IsProcess state.world.kernel proc →
      saved proc = startRegisters image (world'.kernel.procs proc)) :
    Suspended { state with world := world', saved } := by
  intro proc hproc hother
  dsimp only at hproc hother ⊢
  rw [hcurrent] at hother
  by_cases hlisted : IsProcess state.world.kernel proc
  · obtain ⟨members, boot, blocks, entries, grown, hinv⟩ := hsound
    have hmem := hinv.registry.isProcess_iff.mp hlisted
    obtain ⟨hkept, -⟩ := hstep.frame hcorrect hinv hmem hother
    intro slot hslot
    rw [hold proc hlisted, hkept _ (.inl (hinv.context_own hmem hslot))]
    exact h proc hlisted hother slot hslot
  · rw [hnew proc hproc hlisted]
    exact (hstep.processes hcorrect hsound hproc).resolve_left hlisted

/-- `switch_to` between two processes -/
theorem switchTo_processes (rules : SstatusRules) (hsound : state.world.Sound image)
    (hproc : IsProcess state.world.kernel proc) (hother : proc ≠ state.world.kernel.current)
    (hfrom : state.hart.x a0 = BitVec.ofNat 64 (contextOf state.world.kernel.current))
    (hto : state.hart.x a1 = BitVec.ofNat 64 (contextOf proc)) :
    (run rules switchTo state.machine).mem = saveContext state.world.kernel.heap.mem
        (contextOf state.world.kernel.current) state.hart.x ∧
      HoldsContext (run rules switchTo state.machine).mem state.world.kernel.current state.hart.x ∧
      HoldsContext state.world.kernel.heap.mem proc (run rules switchTo state.machine).x ∧
      (run rules switchTo state.machine).pc = state.world.kernel.heap.mem (contextOf proc) := by
  obtain ⟨members, boot, blocks, entries, grown, hinv⟩ := hsound
  have hmem := hinv.registry.isProcess_iff.mp hproc
  have hfits := hinv.context_fits hinv.current
  have hsource : state.machine.x a0 = BitVec.ofNat 64 (contextOf state.world.kernel.current) := hfrom
  have htarget : state.machine.x a1 = BitVec.ofNat 64 (contextOf proc) := hto
  have hspec : (∀ slot ∈ contextSlots, (run rules switchTo state.machine).mem _ = _) ∧ _ :=
    switchTo_spec hsource htarget hfits (hinv.context_fits hmem)
      (hinv.contexts_apart hinv.current hmem hother.symm)
  obtain ⟨hstored, -, hloaded, -, hpc, -⟩ := hspec
  exact ⟨switchTo_mem hfrom hfits, hstored, fun slot hslot ↦ (hloaded slot hslot).symm, hpc⟩

/-- What `switch_to` does to memory is what `proc_run` does in the view of the kernel. -/
theorem switched_step (rules : SstatusRules) (hsound : state.world.Sound image)
    (hproc : IsProcess state.world.kernel proc) (hother : proc ≠ state.world.kernel.current)
    (hfrom : state.hart.x a0 = BitVec.ofNat 64 (contextOf state.world.kernel.current))
    (hto : state.hart.x a1 = BitVec.ofNat 64 (contextOf proc)) :
    ProcWorld.Step image state.world (state.switched rules proc).world := by
  obtain ⟨hmem, -⟩ := switchTo_processes rules hsound hproc hother hfrom hto
  rw [switched, hmem]
  exact .procRun hproc hother

theorem Suspended.switchTo (h : Suspended state) (hcorrect : allocator.Correct image.Usable)
    (hsound : state.world.Sound image) (hproc : IsProcess state.world.kernel proc)
    (hother : proc ≠ state.world.kernel.current)
    (hfrom : state.hart.x a0 = BitVec.ofNat 64 (contextOf state.world.kernel.current))
    (hto : state.hart.x a1 = BitVec.ofNat 64 (contextOf proc)) :
    Suspended (state.switched rules proc) := by
  have hstep := switched_step rules hsound hproc hother hfrom hto
  obtain ⟨-, hstored, -⟩ := switchTo_processes rules hsound hproc hother hfrom hto
  obtain ⟨members, boot, blocks, entries, grown, hinv⟩ := hsound
  intro thread hthread _
  by_cases heq : thread = state.world.kernel.current
  · subst heq
    simp only [switched, Function.update_self]
    exact hstored
  · have hthread' : IsProcess state.world.kernel thread := hthread
    have hmem := hinv.registry.isProcess_iff.mp hthread'
    obtain ⟨hkept, -⟩ := hstep.frame hcorrect hinv hmem heq
    intro slot hslot
    rw [hkept _ (.inl (hinv.context_own hmem hslot))]
    simp only [switched, Function.update_of_ne heq]
    exact h thread hthread' heq slot hslot

end Invariant

/-! ## Whole runs -/

/-- The runs of threads are runs of the kernel. -/
theorem Step.sound (hstep : Step image rules state state') (hcorrect : allocator.Correct image.Usable)
    (hsound : state.world.Sound image) (h : Suspended state) :
    state'.world.Sound image ∧ Suspended state' := by
  cases hstep with
  | compute hart => exact ⟨hsound, h⟩
  | kernel hstep hcurrent hold hnew =>
    exact ⟨hstep.sound hcorrect hsound, h.kernel hcorrect hsound hstep hcurrent hold hnew⟩
  | switchTo hproc hother hfrom hto =>
    have hstep := switched_step rules hsound hproc hother hfrom hto
    exact ⟨hstep.sound hcorrect hsound, h.switchTo hcorrect hsound hproc hother hfrom hto⟩

theorem Reachable.sound (h : Reachable image rules state)
    (hcorrect : allocator.Correct image.Usable) :
    state.world.Sound image ∧ Suspended state := by
  induction h with
  | @boot clients kernel kernel' fuel sstatus saved hart hclients hheap hcount hlast hsafe hinit
      hnew =>
    refine ⟨(ProcWorld.Reachable.boot hclients hheap hcount hlast hsafe hinit).sound hcorrect, ?_⟩
    obtain ⟨idle, forked, initproc, ⟨boot, blocks, entries, grown, h⟩, hstep, hidle, hcurrent, rfl⟩ :=
      ProcWorld.boot_forks hcorrect hclients hheap hcount hlast hsafe hinit
    let before : ThreadWorld allocator :=
      ⟨⟨idle, clients.small, clients.big, clients.others⟩, hart, saved⟩
    have halone : Suspended before := by
      intro proc hproc hother
      have hmem := List.mem_singleton.mp (h.registry.isProcess_iff.mp hproc)
      exact absurd (hmem.trans (List.mem_singleton.mp h.current).symm) hother
    have hforked : Suspended
        ⟨⟨forked, clients.small, clients.big, clients.others⟩, hart, saved⟩ := by
      refine halone.kernel hcorrect ⟨_, _, _, _, _, h⟩ hstep hcurrent (fun _ _ ↦ rfl) ?_
      intro proc hproc hlisted
      exact hnew proc hproc fun heq ↦ hlisted (.inl (heq.trans hidle))
    exact hforked
  | step _ hstep ih => exact hstep.sound hcorrect ih.1 ih.2

/-- Whenever `switch_to` returns in a thread, the thread has the registers with which it called
`switch_to` the last time, or those that `copy_thread` wrote if it never did, and goes on where it
left. -/
theorem switchTo_isolated {proc : ℕ} (hcorrect : allocator.Correct image.Usable)
    (hstate : Reachable image rules state) (hproc : IsProcess state.world.kernel proc)
    (hother : proc ≠ state.world.kernel.current)
    (hfrom : state.hart.x a0 = BitVec.ofNat 64 (contextOf state.world.kernel.current))
    (hto : state.hart.x a1 = BitVec.ofNat 64 (contextOf proc)) :
    (∀ register ∈ [ra, sp, s0, s1, s2, s3, s4, s5, s6, s7, s8, s9, s10, s11],
      (state.switched rules proc).hart.x register = state.saved proc register) ∧
      (state.switched rules proc).hart.pc = state.saved proc ra := by
  obtain ⟨hsound, hsuspended⟩ := hstate.sound hcorrect
  obtain ⟨-, -, hloaded, hpc⟩ := switchTo_processes rules hsound hproc hother hfrom hto
  have hcontext := hsuspended proc hproc hother
  refine ⟨fun register hregister ↦ ?_, ?_⟩
  · have hslot : ∃ slot ∈ contextSlots, slot.1 = register := by
      revert register
      decide
    obtain ⟨slot, hslot, rfl⟩ := hslot
    exact (hloaded slot hslot).symm.trans (hcontext slot hslot)
  · exact hpc.trans (hcontext (ra, 0) (by decide))

/-- The first switch of all starts `init_main` at `forkret`. -/
theorem switchTo_isolated_first :
    ∃ (state : ThreadWorld (PageAllocator.firstFit 0x20A 16)) (proc : ℕ),
      (state.switched .standard proc).hart.x ra = 0xFFFFFFFFC020329E := by
  have hrun : (procInit ProcWorld.sampleImage 16 (ProcWorld.sampleKernel 16) 0).toOption.any
      (fun kernel ↦ kernel.current = kernel.idleproc ∧ (kernel.procs kernel.idleproc).pid = 0 ∧
        kernel.nrProcess = 2) = true := by decide +kernel
  obtain ⟨kernel, hinit, hkernel⟩ := Option.any_eq_true _ _ |>.mp hrun
  have hinit := toOption_eq_some.mp hinit
  obtain ⟨hcurrent, hidle, hcount⟩ := of_decide_eq_true hkernel
  have hcorrect := PageAllocator.firstFit_correct fun page : ℕ ↦
    @HeapWorld.sampleImage_usable page
  have hworld : ProcWorld.Reachable ProcWorld.sampleImage _ :=
    .boot (ProcWorld.sampleKernel_clients 16) rfl rfl rfl rfl hinit
  obtain ⟨members, boot, blocks, entries, grown, h⟩ := hworld.sound hcorrect
  obtain ⟨proc, rfl⟩ : ∃ proc, members = [proc] := by
    have hlength := h.registry.count
    dsimp only at hlength
    exact List.length_eq_one_iff.mp (by omega)
  have hproc : IsProcess kernel proc := h.registry.isProcess_iff.mpr (by simp)
  have hother : proc ≠ kernel.current := by
    rintro rfl
    have hpid := (h.registry.range _ List.mem_cons_self).1
    dsimp only at hpid
    rw [hcurrent, hidle] at hpid
    omega
  let hart : Hart :=
    { x := fun register ↦ if register = a0 then BitVec.ofNat 64 (contextOf kernel.current)
        else BitVec.ofNat 64 (contextOf proc)
      pc := 0
      sstatus := 0
      sepc := 0
      supervisor := true }
  let saved (proc : ℕ) := startRegisters ProcWorld.sampleImage (kernel.procs proc)
  have hstate : Reachable ProcWorld.sampleImage .standard ⟨_, hart, saved⟩ :=
    .boot hart (ProcWorld.sampleKernel_clients 16) rfl rfl rfl rfl hinit fun _ _ _ ↦ rfl
  obtain ⟨hregisters, -⟩ := switchTo_isolated hcorrect hstate hproc hother rfl rfl
  exact ⟨_, proc, hregisters ra (by simp)⟩

end ThreadWorld

end Ucore
