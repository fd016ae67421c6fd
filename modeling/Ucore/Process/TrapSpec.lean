import Ucore.Process.Trap

/-!
# Transparent traps

What `__alltraps` saves is what `__trapret` restores, since the two and `struct trapframe` agree on
where each register is, and no handler writes another field of the frame than `epc`.
-/

namespace Ucore

open Foundation Rv64 Relation

/-! ## `__alltraps` -/

/-- The words of the frame that `SAVE_ALL` fills through `s0` to `s4`. -/
def csrSlots : List (Register × ℕ) := [(s0, 16), (s1, 256), (s2, 264), (s3, 272), (s4, 280)]

theorem alltraps_eq : __alltraps =
    [.csrwSscratch sp, .addi sp sp (-288)] ++ ((stores sp frameSlots).map .plain ++
      ([.csrr s0 .sscratch, .csrr s1 .sstatus, .csrr s2 .sepc, .csrr s3 .stval,
          .csrr s4 .scause] ++
        ((stores sp csrSlots).map .plain ++ [.plain (.mv a0 sp)]))) := by decide

theorem csrSlots_lt {slot : Register × ℕ} (hslot : slot ∈ csrSlots) : slot.2 < trapframeSize := by
  revert slot
  decide

theorem frameSlots_apart {register : Register} (hsp : register ≠ sp) :
    8 * register.val ∉ csrSlots.map Prod.snd := by
  revert register
  decide

section Save

variable {rules : SstatusRules} {machine saved : TrapMachine}

/-- The general registers are saved before any of them is used, but for `sp`. -/
theorem saveRegisters_spec (hsaved : saved =
      TrapMachine.run rules ((stores sp frameSlots).map .plain)
        (TrapMachine.run rules [.csrwSscratch sp, .addi sp sp (-288)] machine)) :
    saved.x sp = machine.x sp + BitVec.ofInt 64 (-288) ∧
      (saved.sscratch = machine.x sp ∧ saved.sstatus = machine.sstatus ∧
        saved.sepc = machine.sepc ∧ saved.stval = machine.stval ∧
        saved.scause = machine.scause) ∧
      ∀ register : Register, register ≠ 0 → register ≠ sp →
        saved.mem (saved.address sp (8 * register.val)) = machine.x register := by
  let entered := TrapMachine.run rules [.csrwSscratch sp, .addi sp sp (-288)] machine
  have hx : entered.x = Function.update machine.x sp (machine.x sp + BitVec.ofInt 64 (-288)) := rfl
  have hstored : saved =
      { entered with toMachine := run rules (stores sp frameSlots) entered.toMachine } :=
    hsaved.trans TrapMachine.run_plain
  have hhart : saved.toHart = entered.toHart := by
    rw [hstored]
    exact run_stores_hart
  have hsp : saved.x sp = entered.x sp := by rw [hhart]
  have hcsrs : saved.sscratch = entered.sscratch ∧ saved.sstatus = entered.sstatus ∧
      saved.sepc = entered.sepc ∧ saved.stval = entered.stval ∧ saved.scause = entered.scause := by
    refine ⟨?_, by rw [hhart], by rw [hhart], ?_, ?_⟩ <;> rw [hstored]
  refine ⟨?_, hcsrs, ?_⟩
  · rw [hsp, hx, Function.update_self]
  · intro register hzero hne
    have hslot := mem_frameSlots hzero hne
    have hlt : ∀ slot ∈ frameSlots, slot.2 < 2 ^ 64 := fun slot hslot ↦
      (frameSlots_lt hslot).trans (by decide)
    have haddress : saved.address sp (8 * register.val) =
        entered.address sp (8 * register.val) := by
      rw [Machine.address, Machine.address, hsp]
    calc
      saved.mem (saved.address sp (8 * register.val)) =
          (run rules (stores sp frameSlots) entered.toMachine).mem
            (entered.address sp (8 * register.val)) := by rw [haddress, hstored]
      _ = entered.x register := run_stores_offset (by decide) hlt hslot
      _ = machine.x register := by rw [hx, Function.update_of_ne hne]

/-- The rest of the frame goes through registers that are saved by then. -/
theorem saveCsrs_spec (hsaved : saved =
      TrapMachine.run rules ((stores sp csrSlots).map .plain ++ [.plain (.mv a0 sp)])
        (TrapMachine.run rules [.csrr s0 .sscratch, .csrr s1 .sstatus, .csrr s2 .sepc,
          .csrr s3 .stval, .csrr s4 .scause] machine)) :
    saved.x sp = machine.x sp ∧ saved.x a0 = machine.x sp ∧
      (∀ register : Register, register ≠ sp →
        saved.mem (saved.address sp (8 * register.val)) =
          machine.mem (machine.address sp (8 * register.val))) ∧
      saved.mem (saved.address sp 16) = machine.sscratch ∧
      saved.mem (saved.address sp 256) = machine.sstatus ∧
      saved.mem (saved.address sp 264) = machine.sepc ∧
      saved.mem (saved.address sp 272) = machine.stval ∧
      saved.mem (saved.address sp 280) = machine.scause := by
  let read := TrapMachine.run rules [.csrr s0 .sscratch, .csrr s1 .sstatus, .csrr s2 .sepc,
    .csrr s3 .stval, .csrr s4 .scause] machine
  have hread : read.x sp = machine.x sp ∧ read.mem = machine.mem := ⟨rfl, rfl⟩
  let stored := run rules (stores sp csrSlots) read.toMachine
  have hhart : stored.toHart = read.toHart := run_stores_hart
  have hstored : saved = { read with
      toMachine := { stored with x := Function.update stored.x a0 (stored.x sp) } } := by
    rw [hsaved, TrapMachine.run_append, TrapMachine.run_plain]
    rfl
  have hsp : stored.x sp = machine.x sp := by rw [hhart, hread.1]
  have hsaved_sp : saved.x sp = machine.x sp := by
    rw [hstored]
    exact hsp
  have haddress : ∀ offset, saved.address sp offset = read.address sp offset := by
    intro offset
    rw [Machine.address, Machine.address, hsaved_sp, hread.1]
  have hmem : saved.mem = stored.mem := by rw [hstored]
  have hlt : ∀ slot ∈ csrSlots, slot.2 < 2 ^ 64 := fun slot hslot ↦
    (csrSlots_lt hslot).trans (by decide)
  have hslots : ∀ slot ∈ csrSlots, saved.mem (saved.address sp slot.2) = read.x slot.1 := by
    intro slot hslot
    rw [hmem, haddress]
    exact run_stores_offset (by decide) hlt hslot
  refine ⟨hsaved_sp, ?_, ?_, hslots (s0, 16) (by decide), hslots (s1, 256) (by decide),
    hslots (s2, 264) (by decide), hslots (s3, 272) (by decide), hslots (s4, 280) (by decide)⟩
  · rw [hstored]
    change Function.update stored.x a0 (stored.x sp) a0 = machine.x sp
    rw [Function.update_self, hsp]
  · intro register hne
    rw [hmem, haddress]
    exact run_stores_of_offset hlt (by omega) (frameSlots_apart hne)

/-- `__alltraps` calls `trap` with a frame that holds the context of the trap. -/
theorem alltraps_spec (hsaved : saved = TrapMachine.run rules __alltraps machine) :
    saved.x sp = machine.x sp + BitVec.ofInt 64 (-288) ∧ saved.x a0 = saved.x sp ∧
      (∀ register : Register, register ≠ 0 →
        saved.mem (saved.address sp (8 * register.val)) = machine.x register) ∧
      saved.mem (saved.address sp 256) = machine.sstatus ∧
      saved.mem (saved.address sp 264) = machine.sepc ∧
      saved.mem (saved.address sp 272) = machine.stval ∧
      saved.mem (saved.address sp 280) = machine.scause := by
  rw [alltraps_eq, TrapMachine.run_append, TrapMachine.run_append, TrapMachine.run_append]
    at hsaved
  obtain ⟨hsp', ha0, hkept, h16, h256, h264, h272, h280⟩ := saveCsrs_spec hsaved
  generalize hregisters : TrapMachine.run rules ((stores sp frameSlots).map .plain) _ = registers at *
  obtain ⟨hsp, ⟨hsscratch, hsstatus, hsepc, hstval, hscause⟩, hregisters⟩ :=
    saveRegisters_spec hregisters.symm
  refine ⟨hsp'.trans hsp, ha0.trans hsp'.symm, ?_, h256.trans hsstatus, h264.trans hsepc,
    h272.trans hstval, h280.trans hscause⟩
  intro register hzero
  by_cases hne : register = sp
  · subst hne
    exact h16.trans hsscratch
  · exact (hkept register hne).trans (hregisters register hzero hne)

end Save

/-! ## `trap` -/

/-- Code that returns, with `sp` as it was and the given frame at `tf`. -/
def Returns (tf : BitVec 64) (frame : TrapFrame) (state : TrapState) (results : TrapState → Prop) :
    Prop :=
  (∃ state', results state') ∧
    ∀ state', results state' → state'.x sp = state.x sp ∧ state'.frame tf = frame

namespace Returns

variable {tf : BitVec 64} {frame : TrapFrame} {state : TrapState}

theorem done : Returns tf (state.frame tf) state (Eq state) :=
  ⟨⟨state, rfl⟩, fun _ heq ↦ heq ▸ ⟨rfl, rfl⟩⟩

theorem call {callees : Callees} {callee : Callee} :
    Returns tf (state.frame tf) state (callees.call tf callee state) :=
  ⟨callees.returns tf callee state, fun _ hcall ↦ ⟨callees.sp hcall, callees.frame hcall⟩⟩

theorem comp {first second : TrapState → TrapState → Prop} {between : TrapFrame}
    (hfirst : Returns tf between state (first state))
    (hsecond : ∀ state', state'.frame tf = between → Returns tf frame state' (second state')) :
    Returns tf frame state (Comp first second state) := by
  constructor
  · obtain ⟨state', hstate'⟩ := hfirst.1
    obtain ⟨state'', hstate''⟩ := (hsecond state' (hfirst.2 state' hstate').2).1
    exact ⟨state'', state', hstate', hstate''⟩
  · intro state'' hcomp
    obtain ⟨state', hstate', hstate''⟩ := hcomp
    obtain ⟨hsp, hframe⟩ := hfirst.2 state' hstate'
    obtain ⟨hsp', hframe'⟩ := (hsecond state' hframe).2 state'' hstate''
    exact ⟨hsp'.trans hsp, hframe'⟩

/-- Code that leaves the frame alone, in sequence -/
theorem seq {first second : TrapState → TrapState → Prop}
    (hfirst : Returns tf (state.frame tf) state (first state))
    (hsecond : ∀ state', Returns tf (state'.frame tf) state' (second state')) :
    Returns tf (state.frame tf) state (Comp first second state) :=
  hfirst.comp fun state' hframe ↦ hframe ▸ hsecond state'

end Returns

section Handlers

variable {callees : Callees} {tf : BitVec 64} {text : BitVec 64 → BitVec 16} {state : TrapState}

/-- The fields of a frame have addresses of their own. -/
theorem word_setEpc {epc : BitVec 64} {index : ℕ} (hindex : index < 36) :
    (state.setEpc tf epc).word tf index = if index = 33 then epc else state.word tf index := by
  split_ifs with h
  · subst h
    exact Memory.write_same
  · refine Memory.write_of_ne fun heq ↦ h ?_
    have hsum : BitVec.ofNat 64 (index * REGBYTES) = BitVec.ofNat 64 (33 * REGBYTES) :=
      (BitVec.add_right_inj _).mp (BitVec.eq_of_toNat_eq heq)
    have hvalue := congrArg BitVec.toNat hsum
    rw [BitVec.toNat_ofNat, BitVec.toNat_ofNat] at hvalue
    unfold REGBYTES at hvalue
    omega

theorem frame_setEpc {epc : BitVec 64} :
    (state.setEpc tf epc).frame tf = { state.frame tf with epc } := by
  have hgpr : ∀ index : Fin 32, (state.setEpc tf epc).word tf index = state.word tf index :=
    fun index ↦ (word_setEpc (by omega)).trans (if_neg (by omega))
  have hstatus : (state.setEpc tf epc).word tf 32 = state.word tf 32 := word_setEpc (by decide)
  have hepc : (state.setEpc tf epc).word tf 33 = epc := word_setEpc (by decide)
  have hbadvaddr : (state.setEpc tf epc).word tf 34 = state.word tf 34 := word_setEpc (by decide)
  have hcause : (state.setEpc tf epc).word tf 35 = state.word tf 35 := word_setEpc (by decide)
  simp only [TrapState.frame, hgpr, hstatus, hepc, hbadvaddr, hcause]

theorem printFields_returns (fields : List (String × ℕ)) :
    Returns tf (state.frame tf) state (printFields callees tf fields state) := by
  induction fields generalizing state with
  | nil => exact .done
  | cons field fields ih =>
    apply Returns.seq
    · exact .call
    · exact fun _ ↦ ih

theorem printTrapframe_returns :
    Returns tf (state.frame tf) state (printTrapframe callees tf state) := by
  apply Returns.seq .call
  intro state'
  apply Returns.seq
  · exact printFields_returns _
  · exact fun _ ↦ printFields_returns _

/-- The counters are no part of the frame. -/
theorem timerInterrupt_returns :
    Returns tf (state.frame tf) state (timerInterrupt callees tf state) := by
  apply Returns.seq .call
  intro counted
  dsimp only
  split_ifs
  · let ticked := { counted with ticks := counted.ticks + 1 }
    have hticked : Returns tf (ticked.frame tf) ticked
        (Comp (printTicks callees tf) (fun printed ↦
          let state := { printed with tickPrints := printed.tickPrints + 1 }
          if state.tickPrints = 10 then callees.call tf .sbiShutdown state else Eq state)
            ticked) := by
      apply Returns.seq .call
      intro printed
      let shown := { printed with tickPrints := printed.tickPrints + 1 }
      have hshutdown : Returns tf (shown.frame tf) shown (callees.call tf .sbiShutdown shown) :=
        .call
      have hdone : Returns tf (shown.frame tf) shown (Eq shown) := .done
      dsimp only
      split_ifs
      · exact hshutdown
      · exact hdone
    exact hticked
  · let ticked := { counted with ticks := counted.ticks + 1 }
    have hdone : Returns tf (ticked.frame tf) ticked (Eq ticked) := .done
    exact hdone

theorem interruptHandler_returns :
    Returns tf (state.frame tf) state (interruptHandler callees tf state) := by
  unfold interruptHandler
  dsimp only
  split
  case h_6 => exact timerInterrupt_returns
  case h_13 => exact printTrapframe_returns
  all_goals exact .call

theorem skipInstruction_returns {format : String} :
    Returns tf { state.frame tf with epc := advancePc text (state.frame tf).epc } state
      (skipInstruction callees tf text format state) := by
  apply Returns.comp .call
  intro printed hframe
  have hskipped : (printed.setEpc tf (advancePc text (printed.frame tf).epc)).frame tf =
      { state.frame tf with epc := advancePc text (state.frame tf).epc } := by
    rw [frame_setEpc, hframe]
  refine ⟨⟨_, rfl⟩, fun state' heq ↦ ?_⟩
  rw [← heq]
  exact ⟨rfl, hskipped⟩

/-- Where the code that trapped goes on. -/
def resumePc (text : BitVec 64 → BitVec 16) (cause pc : BitVec 64) : BitVec 64 :=
  if cause.toNat = CAUSE_BREAKPOINT ∨ cause.toNat = CAUSE_ILLEGAL_INSTRUCTION then
    advancePc text pc
  else pc

theorem resumePc_interrupt {cause pc : BitVec 64} (hcause : cause.toInt < 0) :
    resumePc text cause pc = pc := by
  apply if_neg
  rw [BitVec.toInt_eq_toNat_cond] at hcause
  unfold CAUSE_BREAKPOINT CAUSE_ILLEGAL_INSTRUCTION
  split_ifs at hcause <;> omega

theorem exceptionHandler_returns :
    Returns tf
      { state.frame tf with epc := resumePc text (state.frame tf).cause (state.frame tf).epc } state
      (exceptionHandler callees tf text state) := by
  by_cases hskip : (state.frame tf).cause.toNat = CAUSE_BREAKPOINT ∨
      (state.frame tf).cause.toNat = CAUSE_ILLEGAL_INSTRUCTION
  · rw [resumePc, if_pos hskip]
    rcases hskip with hcause | hcause
    · simp only [exceptionHandler, hcause]
      exact skipInstruction_returns
    · simp only [exceptionHandler, hcause]
      exact skipInstruction_returns
  · rw [resumePc, if_neg hskip]
    obtain ⟨hbreakpoint, hillegal⟩ := not_or.mp hskip
    unfold exceptionHandler
    dsimp only
    split
    case h_3 hcause => exact absurd hcause hillegal
    case h_4 hcause => exact absurd hcause hbreakpoint
    case h_16 => exact printTrapframe_returns
    all_goals exact .call

/-- `trap` writes nothing of the frame but the `epc` of an instruction that is skipped. -/
theorem trap_returns :
    Returns tf
      { state.frame tf with epc := resumePc text (state.frame tf).cause (state.frame tf).epc } state
      (trap callees tf text state) := by
  unfold trap
  split_ifs with hinterrupt
  · rw [resumePc_interrupt hinterrupt]
    exact interruptHandler_returns
  · exact exceptionHandler_returns

end Handlers

/-! ## From the trap to the return -/

section Transparent

variable {rules : SstatusRules} {callees : Callees} {text : BitVec 64 → BitVec 16}
  {state state' : TrapState}

/-- `jal trap` with the frame at `sp` -/
theorem jalTrap_returns (hcall : state.x a0 = state.x sp) :
    Returns (state.x sp)
      { state.frame (state.x sp) with
        epc := resumePc text (state.frame (state.x sp)).cause (state.frame (state.x sp)).epc }
      state (jalTrap callees text state) := by
  unfold jalTrap
  rw [hcall]
  have hspills : ∀ spilling : TrapState,
      Returns (state.x sp) (spilling.frame (state.x sp)) spilling (Spills (state.x sp) spilling) :=
    fun spilling ↦ ⟨⟨spilling, rfl, rfl, rfl, rfl⟩, fun _ hspills ↦ ⟨hspills.sp, hspills.frame⟩⟩
  apply Returns.comp (hspills state)
  intro entered hframe
  rw [← hframe]
  apply Returns.comp trap_returns
  intro handled hframe'
  rw [← hframe']
  exact hspills handled

/-- The interrupted code goes on at `pc` as if nothing had happened. -/
structure Resumed (state : TrapState) (pc : BitVec 64) (state' : TrapState) : Prop where
  pc : state'.pc = pc
  supervisor : state'.supervisor = state.supervisor
  registers : ∀ register : Register, register ≠ 0 → state'.x register = state.x register
  sie : state'.sstatus.getLsbD 1 = state.sstatus.getLsbD 1

/-- The frame that `trap` is called with. -/
theorem frame_alltraps {saved : TrapState} (hsaved : saved =
      { state with toTrapMachine := state.toTrapMachine.run rules __alltraps }) :
    saved.x a0 = saved.x sp ∧
      (∀ register : Register, register ≠ 0 →
        (saved.frame (saved.x sp)).gpr register = state.x register) ∧
      (saved.frame (saved.x sp)).status = state.sstatus ∧
      (saved.frame (saved.x sp)).epc = state.sepc ∧
      (saved.frame (saved.x sp)).cause = state.scause := by
  have hmachine : saved.toTrapMachine = state.toTrapMachine.run rules __alltraps := by rw [hsaved]
  obtain ⟨-, ha0, hregisters, hsstatus, hsepc, -, hscause⟩ := alltraps_spec hmachine
  refine ⟨ha0, fun register hzero ↦ ?_, hsstatus, hsepc, hscause⟩
  rw [← hregisters register hzero, Nat.mul_comm]
  rfl

/-- `__trapret` restores what the frame at `sp` holds. -/
theorem frame_trapret {returned : TrapState} (hreturned : state' =
      { returned with toMachine := run rules __trapret returned.toMachine }) :
    (∀ register : Register, register ≠ 0 →
        state'.x register = (returned.frame (returned.x sp)).gpr register) ∧
      state'.pc = (returned.frame (returned.x sp)).epc ∧
      state'.supervisor = (returned.frame (returned.x sp)).status.getLsbD 8 ∧
      state'.sstatus.getLsbD 1 = (returned.frame (returned.x sp)).status.getLsbD 5 := by
  subst hreturned
  have hframe : (∀ register : Register, register ≠ 0 →
      (run rules __trapret returned.toMachine).x register = _) ∧ _ := trapret_frame
  obtain ⟨hregisters, -, hpc, hsupervisor, hsie⟩ := hframe
  refine ⟨fun register hzero ↦ (hregisters register hzero).trans ?_, hpc, hsupervisor, hsie⟩
  rw [Nat.mul_comm]
  rfl

/-- A trap with the given cause is handled, and however it is handled the code goes on at `pc`. -/
def Resumes (rules : SstatusRules) (callees : Callees) (text : BitVec 64 → BitVec 16)
    (state : TrapState) (stvec cause value pc : BitVec 64) : Prop :=
  let trapped := { state with toTrapMachine := state.toTrapMachine.enter stvec cause value }
  (∃ state', handleTrap rules callees text trapped state') ∧
    ∀ state', handleTrap rules callees text trapped state' → Resumed state pc state'

theorem handleTrap_resumes (stvec cause value : BitVec 64) :
    Resumes rules callees text state stvec cause value (resumePc text cause state.pc) := by
  let trapped := { state with toTrapMachine := state.toTrapMachine.enter stvec cause value }
  let saved := { trapped with toTrapMachine := trapped.toTrapMachine.run rules __alltraps }
  have hsaved : saved.x a0 = saved.x sp ∧ _ := frame_alltraps rfl
  obtain ⟨ha0, hregisters, hstatus, hepc, hcause⟩ := hsaved
  have htrap : Returns _ _ saved (jalTrap callees text saved) := jalTrap_returns ha0
  obtain ⟨⟨returned, hreturned⟩, hreturns⟩ := htrap
  refine ⟨⟨_, returned, hreturned, rfl⟩, ?_⟩
  rintro state' ⟨returned, hreturned, hrestored⟩
  obtain ⟨hsp, hframe⟩ := hreturns returned hreturned
  obtain ⟨hregisters', hpc, hsupervisor, hsie⟩ := frame_trapret hrestored
  rw [hsp, hframe] at hregisters' hpc hsupervisor hsie
  constructor
  · rw [hpc, hepc, hcause]
    rfl
  · calc
      state'.supervisor = _ := hsupervisor
      _ = trapped.sstatus.getLsbD 8 := by rw [hstatus]
      _ = state.supervisor := trapStatus_spp _ _
  · intro register hzero
    exact (hregisters' register hzero).trans (hregisters register hzero)
  · calc
      state'.sstatus.getLsbD 1 = _ := hsie
      _ = trapped.sstatus.getLsbD 5 := by rw [hstatus]
      _ = state.sstatus.getLsbD 1 := trapStatus_spie _ _

/-- An interrupt is transparent, and a breakpoint or an illegal instruction is skipped. -/
theorem trap_transparent (rules : SstatusRules) (callees : Callees)
    (text : BitVec 64 → BitVec 16) (state : TrapState) (stvec value : BitVec 64) :
    (∀ cause : BitVec 64, cause.toInt < 0 →
        Resumes rules callees text state stvec cause value state.pc) ∧
      ∀ cause : BitVec 64,
        cause.toNat = CAUSE_BREAKPOINT ∨ cause.toNat = CAUSE_ILLEGAL_INSTRUCTION →
        Resumes rules callees text state stvec cause value
          (state.pc + if text state.pc &&& 0x3 = 0x3 then 4 else 2) := by
  constructor
  · intro cause hcause
    have hresumes : Resumes rules callees text state stvec cause value
        (resumePc text cause state.pc) := handleTrap_resumes stvec cause value
    rwa [resumePc_interrupt hcause] at hresumes
  · intro cause hcause
    have hresumes : Resumes rules callees text state stvec cause value
        (resumePc text cause state.pc) := handleTrap_resumes stvec cause value
    rw [resumePc, if_pos hcause, advancePc] at hresumes
    split_ifs at hresumes ⊢ <;> exact hresumes

/-- Calls that do nothing -/
def Callees.quiet : Callees where
  call _ _ := Eq
  returns _ _ state := ⟨state, rfl⟩
  sp heq := by rw [heq]
  frame heq := by rw [heq]

/-- A timer interrupt and a compressed breakpoint in the kernel -/
theorem trap_transparent_sample :
    let state : TrapState :=
      { x := fun _ ↦ 0xffffffffc0210000, pc := 0xffffffffc0200100, sstatus := 0x2, sepc := 0,
        supervisor := true, mem := fun _ ↦ 0, sscratch := 0, stval := 0, scause := 0, ticks := 99,
        tickPrints := 9 }
    Resumes .standard .quiet (fun _ ↦ 0x9002) state 0xffffffffc0200000 0x8000000000000005 0
        0xffffffffc0200100 ∧
      Resumes .standard .quiet (fun _ ↦ 0x9002) state 0xffffffffc0200000 3 0
        0xffffffffc0200102 := by
  intro state
  have h := trap_transparent .standard .quiet (fun _ ↦ 0x9002) state 0xffffffffc0200000 0
  exact ⟨h.1 _ (by decide), h.2 3 (.inl rfl)⟩

end Transparent

end Ucore
