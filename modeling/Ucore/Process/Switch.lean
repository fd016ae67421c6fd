import Ucore.Foundation.Rv64
import Ucore.Process.Proc

/-!
# Context switches (`kern/process/switch.S`, `kern/trap/trapentry.S`)

The assembly code as lists of instructions, and what each list does to registers and memory.
-/

namespace Ucore

open Foundation Rv64

def ra : Register := 1
def sp : Register := 2
def s0 : Register := 8
def s1 : Register := 9
def a0 : Register := 10
def a1 : Register := 11
def s2 : Register := 18
def s3 : Register := 19
def s4 : Register := 20
def s5 : Register := 21
def s6 : Register := 22
def s7 : Register := 23
def s8 : Register := 24
def s9 : Register := 25
def s10 : Register := 26
def s11 : Register := 27

def REGBYTES : ℕ := 8

/-- `switch_to(from, to)` with `from` in `a0` and `to` in `a1` -/
def switchTo : List Instr := [
  .sd ra (0 * REGBYTES) a0,
  .sd sp (1 * REGBYTES) a0,
  .sd s0 (2 * REGBYTES) a0,
  .sd s1 (3 * REGBYTES) a0,
  .sd s2 (4 * REGBYTES) a0,
  .sd s3 (5 * REGBYTES) a0,
  .sd s4 (6 * REGBYTES) a0,
  .sd s5 (7 * REGBYTES) a0,
  .sd s6 (8 * REGBYTES) a0,
  .sd s7 (9 * REGBYTES) a0,
  .sd s8 (10 * REGBYTES) a0,
  .sd s9 (11 * REGBYTES) a0,
  .sd s10 (12 * REGBYTES) a0,
  .sd s11 (13 * REGBYTES) a0,
  .ld ra (0 * REGBYTES) a1,
  .ld sp (1 * REGBYTES) a1,
  .ld s0 (2 * REGBYTES) a1,
  .ld s1 (3 * REGBYTES) a1,
  .ld s2 (4 * REGBYTES) a1,
  .ld s3 (5 * REGBYTES) a1,
  .ld s4 (6 * REGBYTES) a1,
  .ld s5 (7 * REGBYTES) a1,
  .ld s6 (8 * REGBYTES) a1,
  .ld s7 (9 * REGBYTES) a1,
  .ld s8 (10 * REGBYTES) a1,
  .ld s9 (11 * REGBYTES) a1,
  .ld s10 (12 * REGBYTES) a1,
  .ld s11 (13 * REGBYTES) a1,
  .ret]

def RESTORE_ALL : List Instr := [
  .ld s1 (32 * REGBYTES) sp,
  .ld s2 (33 * REGBYTES) sp,
  .csrwSstatus s1,
  .csrwSepc s2,
  .ld 1 (1 * REGBYTES) sp,
  .ld 3 (3 * REGBYTES) sp,
  .ld 4 (4 * REGBYTES) sp,
  .ld 5 (5 * REGBYTES) sp,
  .ld 6 (6 * REGBYTES) sp,
  .ld 7 (7 * REGBYTES) sp,
  .ld 8 (8 * REGBYTES) sp,
  .ld 9 (9 * REGBYTES) sp,
  .ld 10 (10 * REGBYTES) sp,
  .ld 11 (11 * REGBYTES) sp,
  .ld 12 (12 * REGBYTES) sp,
  .ld 13 (13 * REGBYTES) sp,
  .ld 14 (14 * REGBYTES) sp,
  .ld 15 (15 * REGBYTES) sp,
  .ld 16 (16 * REGBYTES) sp,
  .ld 17 (17 * REGBYTES) sp,
  .ld 18 (18 * REGBYTES) sp,
  .ld 19 (19 * REGBYTES) sp,
  .ld 20 (20 * REGBYTES) sp,
  .ld 21 (21 * REGBYTES) sp,
  .ld 22 (22 * REGBYTES) sp,
  .ld 23 (23 * REGBYTES) sp,
  .ld 24 (24 * REGBYTES) sp,
  .ld 25 (25 * REGBYTES) sp,
  .ld 26 (26 * REGBYTES) sp,
  .ld 27 (27 * REGBYTES) sp,
  .ld 28 (28 * REGBYTES) sp,
  .ld 29 (29 * REGBYTES) sp,
  .ld 30 (30 * REGBYTES) sp,
  .ld 31 (31 * REGBYTES) sp,
  .ld 2 (2 * REGBYTES) sp]

def __trapret : List Instr := RESTORE_ALL ++ [.sret]

/-- `forkrets(tf)` with `tf` in `a0`; `trapret` is the address of `__trapret`. -/
def forkrets (trapret : BitVec 64) : List Instr := [.mv sp a0, .j trapret]

/-! ## `switch_to` -/

/-- The registers of a `struct context` and the offsets of its fields. -/
def contextSlots : List (Register × ℕ) :=
  [ra, sp, s0, s1, s2, s3, s4, s5, s6, s7, s8, s9, s10, s11].zipIdx.map
    fun slot ↦ (slot.1, slot.2 * REGBYTES)

theorem switchTo_eq : switchTo = stores a0 contextSlots ++ (loads a1 contextSlots ++ [.ret]) := rfl

theorem contextSlots_lt {slot : Register × ℕ} (hslot : slot ∈ contextSlots) :
    slot.2 + REGBYTES ≤ contextSize := by
  revert slot
  decide

theorem contextSlots_nodup : (contextSlots.map Prod.snd).Nodup := by decide

section SwitchTo

variable {rules : SstatusRules} {machine : Machine} {start : ℕ} {base : Register}

/-- The address of a field of an object that does not wrap around. -/
theorem address_eq {offset size : ℕ} (hbase : machine.x base = BitVec.ofNat 64 start)
    (hfits : start + size ≤ 2 ^ 64) (hoffset : offset < size) :
    machine.address base offset = start + offset := by
  rw [Machine.address, hbase, ← BitVec.ofNat_add, BitVec.toNat_ofNat]
  exact Nat.mod_eq_of_lt (by omega)

/-- `switch_to` stores the registers of the caller at `source`, fills them from `target` and returns
to the `ra` found there. -/
theorem switchTo_spec {source target : ℕ} (hsource : machine.x a0 = BitVec.ofNat 64 source)
    (htarget : machine.x a1 = BitVec.ofNat 64 target) (hfits : source + contextSize ≤ 2 ^ 64)
    (hfits' : target + contextSize ≤ 2 ^ 64)
    (hapart : source + contextSize ≤ target ∨ target + contextSize ≤ source) :
    (∀ slot ∈ contextSlots, (run rules switchTo machine).mem (source + slot.2) =
        machine.x slot.1) ∧
      (∀ address, (∀ slot ∈ contextSlots, address ≠ source + slot.2) →
        (run rules switchTo machine).mem address = machine.mem address) ∧
      (∀ slot ∈ contextSlots, (run rules switchTo machine).x slot.1 =
        machine.mem (target + slot.2)) ∧
      (∀ register ∉ contextSlots.map Prod.fst,
        (run rules switchTo machine).x register = machine.x register) ∧
      (run rules switchTo machine).pc = machine.mem target ∧
      (run rules switchTo machine).sstatus = machine.sstatus ∧
      (run rules switchTo machine).supervisor = machine.supervisor := by
  have hstored : ∀ slot ∈ contextSlots, machine.address a0 slot.2 = source + slot.2 :=
    fun slot hslot ↦ address_eq hsource hfits (by
      have := contextSlots_lt hslot
      unfold REGBYTES at this
      omega)
  have hnodup : (contextSlots.map fun slot ↦ machine.address a0 slot.2).Nodup := by
    have hoffsets : contextSlots.map (fun slot ↦ source + slot.2) =
        (contextSlots.map Prod.snd).map (source + ·) := List.map_map.symm
    rw [List.map_congr_left hstored, hoffsets]
    exact contextSlots_nodup.map fun _ _ ↦ Nat.add_left_cancel
  rw [switchTo_eq, run_append, run_append]
  have hhart : (run rules (stores a0 contextSlots) machine).toHart = machine.toHart :=
    run_stores_hart
  have hslots : ∀ slot ∈ contextSlots,
      (run rules (stores a0 contextSlots) machine).mem (source + slot.2) = machine.x slot.1 :=
    fun slot hslot ↦ hstored slot hslot ▸ run_stores_slot hnodup hslot
  have hframe : ∀ address, (∀ slot ∈ contextSlots, address ≠ source + slot.2) →
      (run rules (stores a0 contextSlots) machine).mem address = machine.mem address :=
    fun address hne ↦ run_stores_of_ne fun slot hslot ↦ hstored slot hslot ▸ hne slot hslot
  generalize run rules (stores a0 contextSlots) machine = stored at *
  have htarget' : stored.x a1 = BitVec.ofNat 64 target := by rw [hhart, htarget]
  have hloaded : ∀ slot ∈ contextSlots, stored.mem (stored.address a1 slot.2) =
      machine.mem (target + slot.2) := by
    intro slot hslot
    have hlt := contextSlots_lt hslot
    unfold REGBYTES at hlt
    rw [address_eq htarget' hfits' (by omega)]
    refine hframe _ fun slot' hslot' ↦ ?_
    have hlt' := contextSlots_lt hslot'
    unfold REGBYTES at hlt'
    omega
  have hframe' : (run rules (loads a1 contextSlots) stored).mem = stored.mem ∧ _ := run_loads_frame
  obtain ⟨hmem, -, hsstatus, -, hsupervisor⟩ := hframe'
  have hfilled : ∀ slot ∈ contextSlots, (run rules (loads a1 contextSlots) stored).x slot.1 =
      machine.mem (target + slot.2) := fun slot hslot ↦
    (run_loads_slot (by decide) (by decide) hslot).trans (hloaded slot hslot)
  have hkept : ∀ register ∉ contextSlots.map Prod.fst,
      (run rules (loads a1 contextSlots) stored).x register = machine.x register :=
    fun register hregister ↦ (run_loads_of_ne hregister).trans (by rw [hhart])
  generalize run rules (loads a1 contextSlots) stored = loaded at *
  refine ⟨fun slot hslot ↦ ?_, fun address hne ↦ ?_, hfilled, hkept, hfilled (ra, 0) (by decide),
    ?_, ?_⟩
  · exact (congrFun hmem _).trans (hslots slot hslot)
  · exact (congrFun hmem _).trans (hframe address hne)
  · exact hsstatus.trans (by rw [hhart])
  · exact hsupervisor.trans (by rw [hhart])

end SwitchTo

/-! ## `__trapret` -/

/-- The registers that `RESTORE_ALL` loads before the stack pointer, and where a frame holds them. -/
def frameSlots : List (Register × ℕ) :=
  ((List.finRange 32).filter fun register ↦ register ≠ 0 ∧ register ≠ sp).map
    fun register ↦ (register, register.val * REGBYTES)

theorem RESTORE_ALL_eq : RESTORE_ALL =
    [.ld s1 256 sp, .ld s2 264 sp, .csrwSstatus s1, .csrwSepc s2] ++
      (loads sp frameSlots ++ [.ld sp 16 sp]) := by decide

section Trapret

variable {rules : SstatusRules} {machine : Machine} {frame : ℕ}

theorem mem_frameSlots {register : Register} (hzero : register ≠ 0) (hsp : register ≠ sp) :
    (register, 8 * register.val) ∈ frameSlots := by
  revert register
  decide

theorem frameSlots_lt {slot : Register × ℕ} (hslot : slot ∈ frameSlots) :
    slot.2 < trapframeSize := by
  revert slot
  decide

/-- The status and the return address are written before the registers are loaded. -/
theorem restoreHead_spec {entered : Machine}
    (hentered : entered =
      run rules [.ld s1 256 sp, .ld s2 264 sp, .csrwSstatus s1, .csrwSepc s2] machine) :
    entered.x sp = machine.x sp ∧ entered.mem = machine.mem ∧
      entered.sepc = machine.mem (machine.address sp 264) ∧
      ∀ bit, rules.writable.getLsbD bit = true →
        entered.sstatus.getLsbD bit = (machine.mem (machine.address sp 256)).getLsbD bit := by
  subst hentered
  exact ⟨rfl, rfl, rfl, fun bit hbit ↦ csrwSstatus_getLsbD hbit⟩

/-- The stack pointer is loaded last, since all other loads go through it. -/
theorem restoreLoads_spec {loaded : Machine}
    (hloaded : loaded = run rules (loads sp frameSlots ++ [.ld sp 16 sp]) machine) :
    (∀ register : Register, register ≠ 0 →
        loaded.x register = machine.mem (machine.address sp (8 * register.val))) ∧
      loaded.mem = machine.mem ∧ loaded.sstatus = machine.sstatus ∧
      loaded.sepc = machine.sepc := by
  rw [run_append] at hloaded
  have hframe : (run rules (loads sp frameSlots) machine).mem = machine.mem ∧ _ := run_loads_frame
  obtain ⟨hmem, -, hsstatus, hsepc, -⟩ := hframe
  have hstays : (run rules (loads sp frameSlots) machine).x sp = machine.x sp :=
    run_loads_of_ne (by decide)
  have hfilled : ∀ register : Register, register ≠ 0 → register ≠ sp →
      (run rules (loads sp frameSlots) machine).x register =
        machine.mem (machine.address sp (8 * register.val)) := fun register hzero hne ↦
    run_loads_slot (by decide) (by decide) (mem_frameSlots hzero hne)
  generalize run rules (loads sp frameSlots) machine = others at *
  subst hloaded
  refine ⟨fun register hzero ↦ ?_, hmem, hsstatus, hsepc⟩
  by_cases hne : register = sp
  · subst hne
    change Function.update others.x sp (others.mem (others.address sp 16)) sp = _
    rw [Function.update_self, hmem, Machine.address, hstays]
    rfl
  · exact (Function.update_of_ne hne _ _).trans (hfilled register hzero hne)

/-- `__trapret` leaves through the frame that `sp` points at, wherever that is. -/
theorem trapret_frame :
    (∀ register : Register, register ≠ 0 →
        (run rules __trapret machine).x register =
          machine.mem (machine.address sp (8 * register.val))) ∧
      (run rules __trapret machine).mem = machine.mem ∧
      (run rules __trapret machine).pc = machine.mem (machine.address sp 264) ∧
      (run rules __trapret machine).supervisor =
        (machine.mem (machine.address sp 256)).getLsbD 8 ∧
      (run rules __trapret machine).sstatus.getLsbD 1 =
        (machine.mem (machine.address sp 256)).getLsbD 5 := by
  rw [__trapret, RESTORE_ALL_eq, run_append, run_append]
  obtain ⟨hsp, hmem, hsepc, hbits⟩ := restoreHead_spec
    (rfl : run rules [.ld s1 256 sp, .ld s2 264 sp, .csrwSstatus s1, .csrwSepc s2] machine = _)
  generalize run rules [.ld s1 256 sp, .ld s2 264 sp, .csrwSstatus s1, .csrwSepc s2] machine =
    entered at *
  obtain ⟨hregisters, hmem', hsstatus, hsepc'⟩ := restoreLoads_spec
    (rfl : run rules (loads sp frameSlots ++ [.ld sp 16 sp]) entered = _)
  generalize run rules (loads sp frameSlots ++ [.ld sp 16 sp]) entered = loaded at *
  refine ⟨fun register hzero ↦ ?_, hmem'.trans hmem, hsepc'.trans hsepc, ?_, ?_⟩
  · refine (hregisters register hzero).trans ?_
    rw [hmem, Machine.address, hsp]
    rfl
  · exact (congrArg (·.getLsbD 8) hsstatus).trans (hbits 8 rules.spp)
  · refine (sretStatus_sie loaded.sstatus).trans ?_
    rw [hsstatus]
    exact hbits 5 rules.spie

/-- A frame that does not wrap around -/
theorem trapret_spec (hsp : machine.x sp = BitVec.ofNat 64 frame)
    (hfits : frame + trapframeSize ≤ 2 ^ 64) :
    (∀ register : Register, register ≠ 0 →
        (run rules __trapret machine).x register = machine.mem (frame + 8 * register.val)) ∧
      (run rules __trapret machine).mem = machine.mem ∧
      (run rules __trapret machine).pc = machine.mem (frame + 264) ∧
      (run rules __trapret machine).supervisor = (machine.mem (frame + 256)).getLsbD 8 ∧
      (run rules __trapret machine).sstatus.getLsbD 1 = (machine.mem (frame + 256)).getLsbD 5 := by
  have hstatus : machine.address sp 256 = frame + 256 := address_eq hsp hfits (by decide)
  have hepc : machine.address sp 264 = frame + 264 := address_eq hsp hfits (by decide)
  rw [← hstatus, ← hepc]
  refine ⟨fun register hzero ↦ ?_, trapret_frame.2⟩
  have hregister : machine.address sp (8 * register.val) = frame + 8 * register.val :=
    address_eq hsp hfits (by unfold trapframeSize; omega)
  rw [← hregister]
  exact trapret_frame.1 register hzero

end Trapret

end Ucore
