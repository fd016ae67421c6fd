import Ucore.Process.ForkRuns

/-!
# The root that `proc_run` selects

`kern_entry` and `enable_paging` write a 64-bit `satp` with the mode of Sv39. `lsatp` puts the mode bit of
a 32-bit `satp` in front of a truncated page number; in a 64-bit register this is another mode,
whatever the page table.
-/

namespace Ucore

/-- Bits 63:60 of `satp` -/
def satpMode (satp : BitVec 64) : ℕ := satp.toNat / 2 ^ 60

/-- Bits 43:0 of `satp` -/
def satpPpn (satp : BitVec 64) : ℕ := satp.toNat % 2 ^ 44

def SATP_MODE_SV39 : ℕ := 8

/-- `satp` selects Sv39 with the table at `pgdir`. -/
def Sv39Root (satp : BitVec 64) (pgdir : ℕ) : Prop :=
  satpMode satp = SATP_MODE_SV39 ∧ satpPpn satp = pgdir / PGSIZE

instance (satp : BitVec 64) (pgdir : ℕ) : Decidable (Sv39Root satp pgdir) :=
  inferInstanceAs (Decidable (_ ∧ _))

/-- A write of a mode that the hart does not implement has no effect on `satp`. -/
structure SatpRules where
  implements : ℕ → Bool
  sv39 : implements SATP_MODE_SV39 = true

def writeSatp (rules : SatpRules) (satp value : BitVec 64) : BitVec 64 :=
  if rules.implements (satpMode value) then value else satp

/-! ## The three encodings -/

/-- The mode bit joined with a page number of a physical address of 56 bits -/
theorem sv39Root_or {ppn : BitVec 64} {pgdir : ℕ} (hppn : ppn.toNat = pgdir / PGSIZE)
    (hpgdir : pgdir < 2 ^ 56) : Sv39Root (0x8000000000000000 ||| ppn) pgdir := by
  have hlt : pgdir / PGSIZE < 2 ^ 44 := by
    unfold PGSIZE
    omega
  have hsum : ((0x8000000000000000 : BitVec 64) ||| ppn).toNat = 2 ^ 63 + pgdir / PGSIZE := by
    rw [BitVec.toNat_or, hppn]
    have hlow : pgdir / PGSIZE < 2 ^ 63 := hlt.trans (by decide)
    exact (Nat.two_pow_add_eq_or_of_lt hlow 1).symm
  unfold Sv39Root satpMode satpPpn SATP_MODE_SV39
  rw [hsum]
  generalize pgdir / PGSIZE = page at *
  constructor <;> omega

theorem toNat_shift {pgdir : ℕ} (hpgdir : pgdir < 2 ^ 56) :
    (BitVec.ofNat 64 pgdir >>> 12).toNat = pgdir / PGSIZE := by
  rw [BitVec.toNat_ushiftRight, BitVec.toNat_ofNat, Nat.mod_eq_of_lt (by omega),
    Nat.shiftRight_eq_div_pow]
  rfl

theorem enablePaging_root {pgdir : ℕ} (hpgdir : pgdir < 2 ^ 56) :
    Sv39Root (enablePaging (BitVec.ofNat 64 pgdir)) pgdir :=
  sv39Root_or (toNat_shift hpgdir) hpgdir

/-- `kern_entry` reads the physical address off the virtual one. -/
theorem kernEntry_root {pgdir : ℕ} (hpgdir : pgdir < 2 ^ 56) :
    Sv39Root (kernEntry (BitVec.ofNat 64 (pgdir + va_pa_offset))) pgdir := by
  have hphysical : BitVec.ofNat 64 (pgdir + va_pa_offset) - BitVec.ofNat 64 va_pa_offset =
      BitVec.ofNat 64 pgdir := by
    rw [BitVec.ofNat_add, BitVec.add_sub_cancel]
  rw [kernEntry, hphysical, BitVec.or_comm]
  exact sv39Root_or (toNat_shift hpgdir) hpgdir

/-- The sign of the 32-bit operand fills the mode field. -/
theorem lsatp_mode (pgdir : BitVec 32) : satpMode (lsatp pgdir) = 15 := by
  let operand := SATP32_MODE ||| (pgdir >>> RISCV_PGSHIFT)
  have hlower : 2 ^ 31 ≤ operand.toNat := by
    rw [BitVec.toNat_or]
    exact Nat.left_le_or
  have hupper := operand.isLt
  have hnegative : operand.msb = true := by
    rw [BitVec.msb_eq_decide]
    exact decide_eq_true hlower
  have hvalue : (lsatp pgdir).toNat = operand.toNat + (2 ^ 64 - 2 ^ 32) := by
    rw [lsatp, unsignedOperand, BitVec.toNat_signExtend, if_pos hnegative, BitVec.toNat_setWidth,
      Nat.mod_eq_of_lt (hupper.trans (by decide))]
  unfold satpMode
  rw [hvalue]
  omega

theorem lsatp_not_root (pgdir : BitVec 32) (root : ℕ) : ¬ Sv39Root (lsatp pgdir) root := by
  rintro ⟨hmode, -⟩
  rw [lsatp_mode] at hmode
  cases hmode

/-! ## Runs of `proc_run` -/

section Runs

variable {allocator : PageAllocator}

structure SatpState (allocator : PageAllocator) where
  kernel : Kernel allocator
  satp : BitVec 64

/-- `proc_run`, seen from `current` and `satp` -/
def procRunSatp (rules : SatpRules) (state : SatpState allocator) (proc : ℕ) :
    SatpState allocator :=
  if proc = state.kernel.current then state
  else
    let (kernel, value) := procRunEnter state.kernel proc
    ⟨kernel, writeSatp rules state.satp value⟩

/-- Between the calls the kernel does anything but touch `current` and `satp`. -/
inductive SatpRun (rules : SatpRules) : List ℕ → SatpState allocator → SatpState allocator → Prop
  | nil (state : SatpState allocator) : SatpRun rules [] state state
  | procRun {state final : SatpState allocator} {procs : List ℕ} {proc : ℕ}
      (hrest : SatpRun rules procs (procRunSatp rules state proc) final) :
      SatpRun rules (proc :: procs) state final
  | between {state final : SatpState allocator} {procs : List ℕ} {kernel : Kernel allocator}
      (hcurrent : kernel.current = state.kernel.current)
      (hrest : SatpRun rules procs ⟨kernel, state.satp⟩ final) : SatpRun rules procs state final

/-- A call switches if it names another process than the one that runs. -/
def Switches (current : ℕ) (procs : List ℕ) : Prop := ∃ proc ∈ procs, proc ≠ current

variable {rules : SatpRules} {state final : SatpState allocator} {procs : List ℕ}

/-- The first switch leaves a mode that no later one repairs. -/
theorem SatpRun.mode (h : SatpRun rules procs state final) (hreserved : rules.implements 15 = true)
    (hmode : satpMode state.satp = 15 ∨ Switches state.kernel.current procs) :
    satpMode final.satp = 15 := by
  induction h with
  | nil state =>
    rcases hmode with hmode | ⟨proc, hproc, -⟩
    · exact hmode
    · cases hproc
  | @procRun state final procs proc hrest ih =>
    refine ih ?_
    by_cases hsame : proc = state.kernel.current
    · rw [procRunSatp, if_pos hsame]
      refine hmode.imp_right fun ⟨other, hother, hne⟩ ↦ ⟨other, ?_, hne⟩
      exact List.mem_of_ne_of_mem (fun heq ↦ hne (heq.trans hsame)) hother
    · rw [procRunSatp, if_neg hsame]
      refine .inl ?_
      simp only [procRunEnter, writeSatp, lsatp_mode, hreserved, if_true]
  | between hcurrent hrest ih =>
    refine ih (hmode.imp_right fun hswitches ↦ ?_)
    dsimp only
    rw [hcurrent]
    exact hswitches

/-- Without an effective switch `satp` keeps its value. -/
theorem SatpRun.kept (h : SatpRun rules procs state final)
    (hidle : rules.implements 15 = false ∨ ¬ Switches state.kernel.current procs) :
    final.satp = state.satp := by
  induction h with
  | nil state => rfl
  | @procRun state final procs proc hrest ih =>
    by_cases hsame : proc = state.kernel.current
    · rw [procRunSatp, if_pos hsame] at ih
      refine ih (hidle.imp_right fun hnone ⟨other, hother, hne⟩ ↦ hnone ⟨other, ?_, hne⟩)
      exact List.mem_cons_of_mem _ hother
    · have hignored : rules.implements 15 = false :=
        hidle.resolve_right fun hnone ↦ hnone ⟨proc, List.mem_cons_self, hsame⟩
      rw [procRunSatp, if_neg hsame] at ih
      have hkept : writeSatp rules state.satp (procRunEnter state.kernel proc).2 = state.satp := by
        rw [writeSatp, if_neg]
        simp only [procRunEnter, lsatp_mode, hignored, Bool.false_eq_true, not_false_eq_true]
      exact (ih (.inl hignored)).trans hkept
  | between hcurrent hrest ih =>
    refine ih (hidle.imp_right fun hnone hswitches ↦ hnone ?_)
    rw [← hcurrent]
    exact hswitches

/-- No process has a page table that `proc_run` selects: `satp` denotes the table of `current` after a
run exactly if it did so before and no write of `proc_run` took effect. -/
theorem procRun_satp (rules : SatpRules) :
    (∀ (kernel : Kernel allocator) (proc : ℕ),
      ¬ Sv39Root (procRunEnter kernel proc).2 (kernel.procs proc).pgdir) ∧
    ∀ (state final : SatpState allocator) (procs : List ℕ), SatpRun rules procs state final →
      (Sv39Root final.satp (final.kernel.procs final.kernel.current).pgdir ↔
        (rules.implements 15 = false ∨ ¬ Switches state.kernel.current procs) ∧
          Sv39Root state.satp (final.kernel.procs final.kernel.current).pgdir) := by
  refine ⟨fun kernel proc ↦ lsatp_not_root _ _, fun state final procs hrun ↦ ?_⟩
  by_cases hidle : rules.implements 15 = false ∨ ¬ Switches state.kernel.current procs
  · rw [hrun.kept hidle]
    exact (and_iff_right hidle).symm
  · rw [not_or, Bool.not_eq_false, not_not] at hidle
    have hmode := hrun.mode hidle.1 (.inr hidle.2)
    refine ⟨fun hroot ↦ ?_, fun hroot ↦ ?_⟩
    · rw [Sv39Root, hmode] at hroot
      cases hroot.1
    · rcases hroot.1 with hignored | hnone
      · rw [hidle.1] at hignored
        cases hignored
      · exact absurd hidle.2 hnone

/-- For the boot page table, the one of every process here, `lsatp` gives another mode than `kern_entry`
and `enable_paging`. -/
theorem procRun_satp_boot :
    ∃ (kernel : Kernel (PageAllocator.firstFit 0x20A 16)) (proc : ℕ),
      (kernel.procs proc).pgdir = 0x80208000 ∧
      Sv39Root (kernEntry 0xFFFFFFFFC0208000) 0x80208000 ∧
      Sv39Root (enablePaging 0x80208000) 0x80208000 ∧
      satpMode (procRunEnter kernel proc).2 = 15 ∧
      ¬ Sv39Root (procRunEnter kernel proc).2 (kernel.procs proc).pgdir :=
  ⟨ProcWorld.sampleKernel 16, 1, by decide⟩

/-- A hart that implements every mode is left with another one than Sv39. -/
theorem procRun_satp_switch :
    ∃ state final : SatpState (PageAllocator.firstFit 0x20A 16),
      Sv39Root state.satp (final.kernel.procs final.kernel.current).pgdir ∧
        ¬ Sv39Root final.satp (final.kernel.procs final.kernel.current).pgdir := by
  let rules : SatpRules := ⟨fun _ ↦ true, rfl⟩
  let state : SatpState (PageAllocator.firstFit 0x20A 16) :=
    ⟨ProcWorld.sampleKernel 16, enablePaging 0x80208000⟩
  have hrun : SatpRun rules [1] state (procRunSatp rules state 1) := .procRun (.nil _)
  have hroot := (procRun_satp rules).2 state _ [1] hrun
  refine ⟨state, procRunSatp rules state 1, by decide, fun hfinal ↦ ?_⟩
  rcases (hroot.mp hfinal).1 with hignored | hnone
  · cases hignored
  · exact hnone ⟨1, List.mem_cons_self, by decide⟩

end Runs

end Ucore
