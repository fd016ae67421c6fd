import Ucore.Foundation.Rv64

/-!
# Traps of RV64

The registers a trap goes through and the instructions that move them. A hart that traps saves its
`pc` in `sepc` and its privilege and interrupt enable in `sstatus`; `sret` takes them from there.
-/

namespace Ucore.Foundation.Rv64

structure TrapMachine extends Machine where
  sscratch : BitVec 64
  stval : BitVec 64
  scause : BitVec 64

inductive Csr where
  | sscratch | sstatus | sepc | stval | scause
deriving DecidableEq

def TrapMachine.csr (machine : TrapMachine) : Csr → BitVec 64
  | .sscratch => machine.sscratch
  | .sstatus => machine.sstatus
  | .sepc => machine.sepc
  | .stval => machine.stval
  | .scause => machine.scause

inductive TrapInstr where
  | plain (instr : Instr)
  | addi (rd rs : Register) (immediate : ℤ)
  | csrr (rd : Register) (csr : Csr)
  | csrwSscratch (rs : Register)
deriving DecidableEq

namespace TrapMachine

variable {rules : SstatusRules} {machine : TrapMachine} {code code' : List TrapInstr}

def exec (rules : SstatusRules) (machine : TrapMachine) : TrapInstr → TrapMachine
  | .plain instr => { machine with toMachine := instr.exec rules machine.toMachine }
  | .addi rd rs immediate =>
    { machine with
      x := Function.update machine.x rd (machine.x rs + BitVec.ofInt 64 immediate) }
  | .csrr rd csr => { machine with x := Function.update machine.x rd (machine.csr csr) }
  | .csrwSscratch rs => { machine with sscratch := machine.x rs }

def run (rules : SstatusRules) (code : List TrapInstr) (machine : TrapMachine) : TrapMachine :=
  code.foldl (exec rules) machine

theorem run_append : run rules (code ++ code') machine = run rules code' (run rules code machine) :=
  List.foldl_append

/-- Plain code leaves the registers of traps alone. -/
theorem run_plain {code : List Instr} :
    run rules (code.map .plain) machine =
      { machine with toMachine := Rv64.run rules code machine.toMachine } := by
  induction code generalizing machine with
  | nil => rfl
  | cons instr code ih => exact ih

end TrapMachine

/-! ## Entry -/

/-- A trap moves `SIE` to `SPIE` and the privilege mode to `SPP`, and clears `SIE`. -/
def trapStatus (supervisor : Bool) (sstatus : BitVec 64) : BitVec 64 :=
  let previous := if sstatus.getLsbD 1 then sstatus ||| 0x20#64 else sstatus &&& ~~~0x20#64
  let mode := if supervisor then previous ||| 0x100#64 else previous &&& ~~~0x100#64
  mode &&& ~~~0x2#64

/-- A trap with the given cause jumps to the handler at `stvec`. -/
def TrapMachine.enter (machine : TrapMachine) (stvec cause value : BitVec 64) : TrapMachine :=
  { machine with
    pc := stvec
    sstatus := trapStatus machine.supervisor machine.sstatus
    sepc := machine.pc
    supervisor := true
    stval := value
    scause := cause }

/-- What was enabled before the trap is enabled after the return. -/
theorem trapStatus_spie (supervisor : Bool) (sstatus : BitVec 64) :
    (trapStatus supervisor sstatus).getLsbD 5 = sstatus.getLsbD 1 := by
  unfold trapStatus
  cases h : sstatus.getLsbD 1 <;> cases supervisor <;> simp

theorem trapStatus_spp (supervisor : Bool) (sstatus : BitVec 64) :
    (trapStatus supervisor sstatus).getLsbD 8 = supervisor := by
  unfold trapStatus
  cases h : sstatus.getLsbD 1 <;> cases supervisor <;> simp

/-! ## Addresses of fields -/

/-- Fields at different offsets are at different addresses, also where the object wraps around. -/
theorem Machine.address_injective {machine machine' : Machine} {base base' : Register}
    {offset offset' : ℕ} (hbase : machine'.x base' = machine.x base) (hoffset : offset < 2 ^ 64)
    (hoffset' : offset' < 2 ^ 64)
    (h : machine'.address base' offset' = machine.address base offset) : offset' = offset := by
  unfold Machine.address at h
  rw [hbase] at h
  have hsum : BitVec.ofNat 64 offset' = BitVec.ofNat 64 offset :=
    (BitVec.add_right_inj _).mp (BitVec.eq_of_toNat_eq h)
  have hvalue := congrArg BitVec.toNat hsum
  rwa [BitVec.toNat_ofNat, BitVec.toNat_ofNat, Nat.mod_eq_of_lt hoffset,
    Nat.mod_eq_of_lt hoffset'] at hvalue

/-- `run_stores_slot` with the offsets compared and not the addresses. -/
theorem run_stores_offset {rules : SstatusRules} {machine : Machine} {base : Register}
    {slots : List (Register × ℕ)} (hnodup : (slots.map Prod.snd).Nodup)
    (hlt : ∀ slot ∈ slots, slot.2 < 2 ^ 64) {slot : Register × ℕ} (hslot : slot ∈ slots) :
    (run rules (stores base slots) machine).mem (machine.address base slot.2) =
      machine.x slot.1 := by
  apply run_stores_slot _ hslot
  have haddresses : slots.map (fun slot ↦ machine.address base slot.2) =
      (slots.map Prod.snd).map (machine.address base) := by
    rw [List.map_map]
    rfl
  rw [haddresses]
  apply List.Nodup.map_on _ hnodup
  intro offset hoffset offset' hoffset' heq
  obtain ⟨slot, hslot, rfl⟩ := List.mem_map.mp hoffset
  obtain ⟨slot', hslot', rfl⟩ := List.mem_map.mp hoffset'
  exact Machine.address_injective rfl (hlt slot' hslot') (hlt slot hslot) heq

theorem run_stores_of_offset {rules : SstatusRules} {machine : Machine} {base : Register}
    {slots : List (Register × ℕ)} (hlt : ∀ slot ∈ slots, slot.2 < 2 ^ 64) {offset : ℕ}
    (hoffset : offset < 2 ^ 64) (hne : offset ∉ slots.map Prod.snd) :
    (run rules (stores base slots) machine).mem (machine.address base offset) =
      machine.mem (machine.address base offset) := by
  apply run_stores_of_ne
  intro slot hslot heq
  have hsame : offset = slot.2 := Machine.address_injective rfl (hlt slot hslot) hoffset heq
  exact hne (List.mem_map.mpr ⟨slot, hslot, hsame.symm⟩)

end Ucore.Foundation.Rv64
