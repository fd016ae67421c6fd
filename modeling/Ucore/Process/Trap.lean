import Mathlib.Logic.Relation
import Ucore.Foundation.Rv64Traps
import Ucore.Process.Switch

/-!
# Traps (`kern/trap/trap.c`, `kern/trap/trapentry.S`)

`__alltraps` saves the interrupted context in a trap frame below `sp`, `trap` handles the cause, and
`__trapret` restores the context from the frame. The functions of other files that the handlers call
may do anything, except that they return with `sp` and the frame as they were.
-/

namespace Ucore

open Foundation Rv64 Relation

/-! ## `trapentry.S` -/

def SAVE_ALL : List TrapInstr :=
  [.csrwSscratch sp, .addi sp sp (-36 * REGBYTES)] ++
  ([.sd 1 (1 * REGBYTES) sp,
    .sd 3 (3 * REGBYTES) sp,
    .sd 4 (4 * REGBYTES) sp,
    .sd 5 (5 * REGBYTES) sp,
    .sd 6 (6 * REGBYTES) sp,
    .sd 7 (7 * REGBYTES) sp,
    .sd 8 (8 * REGBYTES) sp,
    .sd 9 (9 * REGBYTES) sp,
    .sd 10 (10 * REGBYTES) sp,
    .sd 11 (11 * REGBYTES) sp,
    .sd 12 (12 * REGBYTES) sp,
    .sd 13 (13 * REGBYTES) sp,
    .sd 14 (14 * REGBYTES) sp,
    .sd 15 (15 * REGBYTES) sp,
    .sd 16 (16 * REGBYTES) sp,
    .sd 17 (17 * REGBYTES) sp,
    .sd 18 (18 * REGBYTES) sp,
    .sd 19 (19 * REGBYTES) sp,
    .sd 20 (20 * REGBYTES) sp,
    .sd 21 (21 * REGBYTES) sp,
    .sd 22 (22 * REGBYTES) sp,
    .sd 23 (23 * REGBYTES) sp,
    .sd 24 (24 * REGBYTES) sp,
    .sd 25 (25 * REGBYTES) sp,
    .sd 26 (26 * REGBYTES) sp,
    .sd 27 (27 * REGBYTES) sp,
    .sd 28 (28 * REGBYTES) sp,
    .sd 29 (29 * REGBYTES) sp,
    .sd 30 (30 * REGBYTES) sp,
    .sd 31 (31 * REGBYTES) sp] : List Instr).map .plain ++
  [.csrr s0 .sscratch, .csrr s1 .sstatus, .csrr s2 .sepc, .csrr s3 .stval, .csrr s4 .scause] ++
  ([.sd s0 (2 * REGBYTES) sp,
    .sd s1 (32 * REGBYTES) sp,
    .sd s2 (33 * REGBYTES) sp,
    .sd s3 (34 * REGBYTES) sp,
    .sd s4 (35 * REGBYTES) sp] : List Instr).map .plain

/-- `__alltraps` up to `jal trap`, which returns to `__trapret`. -/
def __alltraps : List TrapInstr := SAVE_ALL ++ [.plain (.mv a0 sp)]

/-! ## `trap.c` -/

def TICK_NUM : BitVec 64 := 100

@[match_pattern] abbrev IRQ_U_SOFT : ℕ := 0
@[match_pattern] abbrev IRQ_S_SOFT : ℕ := 1
@[match_pattern] abbrev IRQ_H_SOFT : ℕ := 2
@[match_pattern] abbrev IRQ_M_SOFT : ℕ := 3
@[match_pattern] abbrev IRQ_U_TIMER : ℕ := 4
@[match_pattern] abbrev IRQ_S_TIMER : ℕ := 5
@[match_pattern] abbrev IRQ_H_TIMER : ℕ := 6
@[match_pattern] abbrev IRQ_M_TIMER : ℕ := 7
@[match_pattern] abbrev IRQ_U_EXT : ℕ := 8
@[match_pattern] abbrev IRQ_S_EXT : ℕ := 9
@[match_pattern] abbrev IRQ_H_EXT : ℕ := 10
@[match_pattern] abbrev IRQ_M_EXT : ℕ := 11

@[match_pattern] abbrev CAUSE_MISALIGNED_FETCH : ℕ := 0x0
@[match_pattern] abbrev CAUSE_FETCH_ACCESS : ℕ := 0x1
@[match_pattern] abbrev CAUSE_ILLEGAL_INSTRUCTION : ℕ := 0x2
@[match_pattern] abbrev CAUSE_BREAKPOINT : ℕ := 0x3
@[match_pattern] abbrev CAUSE_MISALIGNED_LOAD : ℕ := 0x4
@[match_pattern] abbrev CAUSE_LOAD_ACCESS : ℕ := 0x5
@[match_pattern] abbrev CAUSE_MISALIGNED_STORE : ℕ := 0x6
@[match_pattern] abbrev CAUSE_STORE_ACCESS : ℕ := 0x7
@[match_pattern] abbrev CAUSE_USER_ECALL : ℕ := 0x8
@[match_pattern] abbrev CAUSE_SUPERVISOR_ECALL : ℕ := 0x9
@[match_pattern] abbrev CAUSE_HYPERVISOR_ECALL : ℕ := 0xa
@[match_pattern] abbrev CAUSE_MACHINE_ECALL : ℕ := 0xb
@[match_pattern] abbrev CAUSE_FETCH_PAGE_FAULT : ℕ := 0xc
@[match_pattern] abbrev CAUSE_LOAD_PAGE_FAULT : ℕ := 0xd
@[match_pattern] abbrev CAUSE_STORE_PAGE_FAULT : ℕ := 0xf

/-- The machine and the counters of timer interrupts. -/
structure TrapState extends TrapMachine where
  ticks : BitVec 64
  tickPrints : BitVec 64

/-- The word of the trap frame at `tf`. -/
def TrapState.word (state : TrapState) (tf : BitVec 64) (index : ℕ) : BitVec 64 :=
  state.mem (tf + BitVec.ofNat 64 (index * REGBYTES)).toNat

/-- `*tf` -/
def TrapState.frame (state : TrapState) (tf : BitVec 64) : TrapFrame where
  gpr index := state.word tf index
  status := state.word tf 32
  epc := state.word tf 33
  badvaddr := state.word tf 34
  cause := state.word tf 35

/-- `tf->epc = epc` -/
def TrapState.setEpc (state : TrapState) (tf epc : BitVec 64) : TrapState :=
  { state with mem := state.mem.write (tf + BitVec.ofNat 64 (33 * REGBYTES)).toNat epc }

/-- The functions of other files that the handlers call. -/
inductive Callee where
  | cprintf (format : String) (arguments : List (BitVec 64))
  | clockSetNextEvent
  | sbiShutdown

/-- What the calls may do while the frame at `tf` is live: they return, with `sp` and the frame as they
were. -/
structure Callees where
  call : BitVec 64 → Callee → TrapState → TrapState → Prop
  returns : ∀ tf callee state, ∃ state', call tf callee state state'
  sp : ∀ {tf callee state state'}, call tf callee state state' → state'.x sp = state.x sp
  frame : ∀ {tf callee state state'}, call tf callee state state' →
    state'.frame tf = state.frame tf

/-- `text` is the halfword at each address of the kernel's code. -/
def advancePc (text : BitVec 64 → BitVec 16) (epc : BitVec 64) : BitVec 64 :=
  if text epc &&& 0x3 = 0x3 then epc + 4 else epc + 2

section Handlers

variable (callees : Callees) (tf : BitVec 64)

/-- `cprintf(format, field)` for each of some fields of the frame -/
def printFields : List (String × ℕ) → TrapState → TrapState → Prop
  | [] => Eq
  | (format, index) :: fields =>
    Comp (fun state ↦ callees.call tf (.cprintf format [state.word tf index]) state)
      (printFields fields)

def printRegs : TrapState → TrapState → Prop :=
  printFields callees tf (List.zipIdx [
    "  zero     0x%08x\n",
    "  ra       0x%08x\n",
    "  sp       0x%08x\n",
    "  gp       0x%08x\n",
    "  tp       0x%08x\n",
    "  t0       0x%08x\n",
    "  t1       0x%08x\n",
    "  t2       0x%08x\n",
    "  s0       0x%08x\n",
    "  s1       0x%08x\n",
    "  a0       0x%08x\n",
    "  a1       0x%08x\n",
    "  a2       0x%08x\n",
    "  a3       0x%08x\n",
    "  a4       0x%08x\n",
    "  a5       0x%08x\n",
    "  a6       0x%08x\n",
    "  a7       0x%08x\n",
    "  s2       0x%08x\n",
    "  s3       0x%08x\n",
    "  s4       0x%08x\n",
    "  s5       0x%08x\n",
    "  s6       0x%08x\n",
    "  s7       0x%08x\n",
    "  s8       0x%08x\n",
    "  s9       0x%08x\n",
    "  s10      0x%08x\n",
    "  s11      0x%08x\n",
    "  t3       0x%08x\n",
    "  t4       0x%08x\n",
    "  t5       0x%08x\n",
    "  t6       0x%08x\n"])

def printTrapframe : TrapState → TrapState → Prop :=
  Comp (callees.call tf (.cprintf "trapframe at %p\n" [tf]))
    (Comp (printRegs callees tf)
      (printFields callees tf [
        ("  status   0x%08x\n", 32),
        ("  epc      0x%08x\n", 33),
        ("  badvaddr 0x%08x\n", 34),
        ("  cause    0x%08x\n", 35)]))

/-- Without `DEBUG_GRADE` -/
def printTicks : TrapState → TrapState → Prop :=
  callees.call tf (.cprintf "%d ticks\n" [TICK_NUM])

/-- `case IRQ_S_TIMER` -/
def timerInterrupt : TrapState → TrapState → Prop :=
  Comp (callees.call tf .clockSetNextEvent) fun state ↦
    let state := { state with ticks := state.ticks + 1 }
    if state.ticks % TICK_NUM = 0 then
      Comp (printTicks callees tf) (fun state ↦
        let state := { state with tickPrints := state.tickPrints + 1 }
        if state.tickPrints = 10 then callees.call tf .sbiShutdown state else Eq state) state
    else Eq state

def interruptHandler (state : TrapState) : TrapState → Prop :=
  let print := fun format ↦ callees.call tf (.cprintf format []) state
  match (((state.frame tf).cause <<< 1) >>> 1).toNat with
  | IRQ_U_SOFT => print "User software interrupt\n"
  | IRQ_S_SOFT => print "Supervisor software interrupt\n"
  | IRQ_H_SOFT => print "Hypervisor software interrupt\n"
  | IRQ_M_SOFT => print "Machine software interrupt\n"
  | IRQ_U_TIMER => print "User software interrupt\n"
  | IRQ_S_TIMER => timerInterrupt callees tf state
  | IRQ_H_TIMER => print "Hypervisor software interrupt\n"
  | IRQ_M_TIMER => print "Machine software interrupt\n"
  | IRQ_U_EXT => print "User software interrupt\n"
  | IRQ_S_EXT => print "Supervisor external interrupt\n"
  | IRQ_H_EXT => print "Hypervisor software interrupt\n"
  | IRQ_M_EXT => print "Machine software interrupt\n"
  | _ => printTrapframe callees tf state

/-- `cprintf(format, tf->epc); tf->epc = advance_pc(tf->epc);` -/
def skipInstruction (text : BitVec 64 → BitVec 16) (format : String) :
    TrapState → TrapState → Prop :=
  Comp (fun state ↦ callees.call tf (.cprintf format [(state.frame tf).epc]) state) fun state ↦
    Eq (state.setEpc tf (advancePc text (state.frame tf).epc))

def exceptionHandler (text : BitVec 64 → BitVec 16) (state : TrapState) : TrapState → Prop :=
  let print := fun format ↦ callees.call tf (.cprintf format []) state
  match (state.frame tf).cause.toNat with
  | CAUSE_MISALIGNED_FETCH => print "Instruction address misaligned\n"
  | CAUSE_FETCH_ACCESS => print "Instruction access fault\n"
  | CAUSE_ILLEGAL_INSTRUCTION =>
    skipInstruction callees tf text "Illegal instruction caught at 0x%08x\n" state
  | CAUSE_BREAKPOINT => skipInstruction callees tf text "Breakpoint caught at 0x%08x\n" state
  | CAUSE_MISALIGNED_LOAD => print "Load address misaligned\n"
  | CAUSE_LOAD_ACCESS => print "Load access fault\n"
  | CAUSE_MISALIGNED_STORE => print "AMO address misaligned\n"
  | CAUSE_STORE_ACCESS => print "Store/AMO access fault\n"
  | CAUSE_USER_ECALL => print "Environment call from U-mode\n"
  | CAUSE_SUPERVISOR_ECALL => print "Environment call from S-mode\n"
  | CAUSE_HYPERVISOR_ECALL => print "Environment call from H-mode\n"
  | CAUSE_MACHINE_ECALL => print "Environment call from M-mode\n"
  | CAUSE_FETCH_PAGE_FAULT => print "Instruction page fault\n"
  | CAUSE_LOAD_PAGE_FAULT => print "Load page fault\n"
  | CAUSE_STORE_PAGE_FAULT => print "Store/AMO page fault\n"
  | _ => printTrapframe callees tf state

def trap (text : BitVec 64 → BitVec 16) (state : TrapState) : TrapState → Prop :=
  if (state.frame tf).cause.toInt < 0 then interruptHandler callees tf state
  else exceptionHandler callees tf text state

end Handlers

/-- The compiled code of a C function uses registers and the stack below the frame as it likes. -/
structure Spills (tf : BitVec 64) (state state' : TrapState) : Prop where
  sp : state'.x sp = state.x sp
  frame : state'.frame tf = state.frame tf
  ticks : state'.ticks = state.ticks
  tickPrints : state'.tickPrints = state.tickPrints

/-- `jal trap` -/
def jalTrap (callees : Callees) (text : BitVec 64 → BitVec 16) (state : TrapState) :
    TrapState → Prop :=
  Comp (Spills (state.x a0)) (Comp (trap callees (state.x a0) text) (Spills (state.x a0))) state

/-- From `__alltraps` to the `sret` of `__trapret` -/
def handleTrap (rules : SstatusRules) (callees : Callees) (text : BitVec 64 → BitVec 16)
    (state state' : TrapState) : Prop :=
  ∃ returned, jalTrap callees text
      { state with toTrapMachine := state.toTrapMachine.run rules __alltraps } returned ∧
    state' = { returned with toMachine := run rules __trapret returned.toMachine }

end Ucore
