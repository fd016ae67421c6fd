import Mathlib.Algebra.GroupWithZero.Nat
import Mathlib.Data.Fin.Basic
import Mathlib.Data.List.Nodup
import Mathlib.Logic.Function.Basic
import Ucore.Foundation.Memory

/-!
# A fragment of RV64

The instructions that context switches and trap returns are made of: doubleword loads and stores,
moves, jumps, writes of `sstatus` and `sepc`, and `sret`. Code is a list of instructions that runs from
front to back; `pc` is where a jump, a `ret` or an `sret` at its end goes to.
-/

namespace Ucore.Foundation.Rv64

/-- `x0` reads as zero and is never written here. -/
abbrev Register := Fin 32

/-- Register numbers are written as literals. -/
instance neZero_registers : NeZero 32 := ⟨by decide⟩

/-- What a write to `sstatus` changes: among others the bits `SIE`, `SPIE` and `SPP`. -/
structure SstatusRules where
  writable : BitVec 64
  sie : writable.getLsbD 1 = true
  spie : writable.getLsbD 5 = true
  spp : writable.getLsbD 8 = true

/-- `SIE`, `SPIE`, `SPP`, `FS`, `SUM` and `MXR` -/
def SstatusRules.standard : SstatusRules := ⟨0xC6122, by decide, by decide, by decide⟩

structure Hart where
  x : Register → BitVec 64
  pc : BitVec 64
  sstatus : BitVec 64
  sepc : BitVec 64
  supervisor : Bool

structure Machine extends Hart where
  mem : Memory

inductive Instr where
  | sd (rs : Register) (offset : ℕ) (base : Register)
  | ld (rd : Register) (offset : ℕ) (base : Register)
  | mv (rd rs : Register)
  | j (target : BitVec 64)
  | ret
  | csrwSstatus (rs : Register)
  | csrwSepc (rs : Register)
  | sret
deriving DecidableEq

def Machine.address (machine : Machine) (base : Register) (offset : ℕ) : ℕ :=
  (machine.x base + BitVec.ofNat 64 offset).toNat

/-- `sret` moves `SPIE` to `SIE` and `SPP` to the privilege mode, sets `SPIE` and clears `SPP`. -/
def sretStatus (sstatus : BitVec 64) : BitVec 64 :=
  let interrupts := if sstatus.getLsbD 5 then sstatus ||| 0x2#64 else sstatus &&& ~~~0x2#64
  (interrupts ||| 0x20#64) &&& ~~~0x100#64

def Instr.exec (rules : SstatusRules) (instr : Instr) (machine : Machine) : Machine :=
  match instr with
  | .sd rs offset base =>
    { machine with mem := machine.mem.write (machine.address base offset) (machine.x rs) }
  | .ld rd offset base =>
    { machine with x := Function.update machine.x rd (machine.mem (machine.address base offset)) }
  | .mv rd rs => { machine with x := Function.update machine.x rd (machine.x rs) }
  | .j target => { machine with pc := target }
  | .ret => { machine with pc := machine.x 1 }
  | .csrwSstatus rs =>
    { machine with
      sstatus := (machine.sstatus &&& ~~~rules.writable) ||| (machine.x rs &&& rules.writable) }
  | .csrwSepc rs => { machine with sepc := machine.x rs }
  | .sret =>
    { machine with
      pc := machine.sepc
      supervisor := machine.sstatus.getLsbD 8
      sstatus := sretStatus machine.sstatus }

def run (rules : SstatusRules) (code : List Instr) (machine : Machine) : Machine :=
  code.foldl (fun machine instr ↦ instr.exec rules machine) machine

variable {rules : SstatusRules} {machine : Machine} {base : Register}
  {slots : List (Register × ℕ)} {code code' : List Instr}

theorem run_append : run rules (code ++ code') machine = run rules code' (run rules code machine) :=
  List.foldl_append

theorem run_cons {instr : Instr} :
    run rules (instr :: code) machine = run rules code (instr.exec rules machine) := rfl

@[simp]
theorem run_nil : run rules [] machine = machine := rfl

/-! ## Blocks of stores and loads -/

/-- Store every register of `slots` at its offset. -/
def stores (base : Register) (slots : List (Register × ℕ)) : List Instr :=
  slots.map fun slot ↦ .sd slot.1 slot.2 base

def loads (base : Register) (slots : List (Register × ℕ)) : List Instr :=
  slots.map fun slot ↦ .ld slot.1 slot.2 base

theorem run_stores_hart :
    (run rules (stores base slots) machine).toHart = machine.toHart := by
  induction slots generalizing machine with
  | nil => rfl
  | cons slot slots ih => exact ih

theorem run_stores_mem : (run rules (stores base slots) machine).mem =
    slots.foldl (fun mem slot ↦ mem.write (machine.address base slot.2) (machine.x slot.1))
      machine.mem := by
  induction slots generalizing machine with
  | nil => rfl
  | cons slot slots ih => exact ih

/-- Stores leave all other cells alone. -/
theorem run_stores_of_ne {other : ℕ}
    (h : ∀ slot ∈ slots, other ≠ machine.address base slot.2) :
    (run rules (stores base slots) machine).mem other = machine.mem other := by
  induction slots generalizing machine with
  | nil => rfl
  | cons slot slots ih =>
    let stored := Instr.exec rules (.sd slot.1 slot.2 base) machine
    calc
      (run rules (stores base slots) stored).mem other = stored.mem other :=
        ih fun slot' hslot' ↦ h slot' (List.mem_cons_of_mem _ hslot')
      _ = machine.mem other := Memory.write_of_ne (h slot List.mem_cons_self)

/-- A block of stores to different cells leaves each register in its cell. -/
theorem run_stores_slot (hnodup : (slots.map fun slot ↦ machine.address base slot.2).Nodup)
    {slot : Register × ℕ} (hslot : slot ∈ slots) :
    (run rules (stores base slots) machine).mem (machine.address base slot.2) =
      machine.x slot.1 := by
  induction slots generalizing machine with
  | nil => cases hslot
  | cons first slots ih =>
    obtain ⟨hfirst, hrest⟩ := List.nodup_cons.mp hnodup
    let stored := Instr.exec rules (.sd first.1 first.2 base) machine
    change (run rules (stores base slots) stored).mem _ = _
    rcases List.mem_cons.mp hslot with rfl | hmem
    · have hkept : (run rules (stores base slots) stored).mem (machine.address base slot.2) =
          stored.mem (machine.address base slot.2) := run_stores_of_ne fun other hother heq ↦
        hfirst (List.mem_map.mpr ⟨other, hother, heq.symm⟩)
      exact hkept.trans Memory.write_same
    · have hsaved : (run rules (stores base slots) stored).mem (stored.address base slot.2) =
          stored.x slot.1 := ih hrest hmem
      exact hsaved

/-- Loads change nothing but their registers. -/
theorem run_loads_frame :
    (run rules (loads base slots) machine).mem = machine.mem ∧
      (run rules (loads base slots) machine).pc = machine.pc ∧
      (run rules (loads base slots) machine).sstatus = machine.sstatus ∧
      (run rules (loads base slots) machine).sepc = machine.sepc ∧
      (run rules (loads base slots) machine).supervisor = machine.supervisor := by
  induction slots generalizing machine with
  | nil => exact ⟨rfl, rfl, rfl, rfl, rfl⟩
  | cons slot slots ih => exact ih

theorem run_loads_of_ne {register : Register} (h : register ∉ slots.map Prod.fst) :
    (run rules (loads base slots) machine).x register = machine.x register := by
  induction slots generalizing machine with
  | nil => rfl
  | cons slot slots ih =>
    rw [List.map_cons, List.mem_cons, not_or] at h
    exact (ih h.2).trans (Function.update_of_ne h.1 _ _)

/-- A block of loads to different registers, the base not among them, fills each from its cell. -/
theorem run_loads_slot (hbase : base ∉ slots.map Prod.fst) (hnodup : (slots.map Prod.fst).Nodup)
    {slot : Register × ℕ} (hslot : slot ∈ slots) :
    (run rules (loads base slots) machine).x slot.1 =
      machine.mem (machine.address base slot.2) := by
  induction slots generalizing machine with
  | nil => cases hslot
  | cons first slots ih =>
    obtain ⟨hfirst, hrest⟩ := List.nodup_cons.mp hnodup
    rw [List.map_cons, List.mem_cons, not_or] at hbase
    rcases List.mem_cons.mp hslot with rfl | hmem
    · exact (run_loads_of_ne hfirst).trans (Function.update_self _ _ _)
    · let loaded := Instr.exec rules (.ld first.1 first.2 base) machine
      have hkept : loaded.address base slot.2 = machine.address base slot.2 := by
        simp only [loaded, Machine.address, Instr.exec, Function.update_of_ne hbase.1]
      have hfilled : (run rules (loads base slots) loaded).x slot.1 =
          loaded.mem (loaded.address base slot.2) := ih hbase.2 hrest hmem
      rw [hkept] at hfilled
      exact hfilled

/-! ## `sstatus` -/

theorem csrwSstatus_getLsbD {rs : Register} {bit : ℕ} (hbit : rules.writable.getLsbD bit = true) :
    ((Instr.csrwSstatus rs).exec rules machine).sstatus.getLsbD bit =
      (machine.x rs).getLsbD bit := by
  have hlt : bit < 64 := by
    by_contra hge
    rw [BitVec.getLsbD_of_ge _ _ (by omega)] at hbit
    cases hbit
  simp only [Instr.exec, BitVec.getLsbD_or, BitVec.getLsbD_and, BitVec.getLsbD_not, hbit, hlt]
  simp

/-- After `sret` interrupts are enabled exactly if they were to be. -/
theorem sretStatus_sie (sstatus : BitVec 64) :
    (sretStatus sstatus).getLsbD 1 = sstatus.getLsbD 5 := by
  unfold sretStatus
  cases h : sstatus.getLsbD 5 <;> simp

end Ucore.Foundation.Rv64
