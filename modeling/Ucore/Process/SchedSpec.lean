import Ucore.Process.Registry
import Ucore.Process.Sched

/-!
# What `schedule` does

Over a registry `schedule` selects the idle process or a registered one. It counts the selection,
clears the request of the caller and, when it switches, stores the registers of the caller in its
context.
-/

namespace Ucore

open Foundation Rv64

/-! ## Saved contexts -/

section Contexts

variable {mem : Memory} {context address : ℕ} {x : Register → BitVec 64}

theorem storeSlots_of_ne {slots : List (Register × ℕ)}
    (h : ∀ slot ∈ slots, address ≠ context + slot.2) :
    slots.foldl (fun mem slot ↦ mem.write (context + slot.2) (x slot.1)) mem address =
      mem address := by
  induction slots generalizing mem with
  | nil => rfl
  | cons slot slots ih =>
    calc
      slots.foldl (fun mem slot ↦ mem.write (context + slot.2) (x slot.1))
          (mem.write (context + slot.2) (x slot.1)) address =
        mem.write (context + slot.2) (x slot.1) address :=
          ih fun other hother ↦ h other (List.mem_cons_of_mem _ hother)
      _ = mem address := Memory.write_of_ne (h slot List.mem_cons_self)

theorem saveContext_of_ne (h : ∀ slot ∈ contextSlots, address ≠ context + slot.2) :
    saveContext mem context x address = mem address := storeSlots_of_ne h

/-- What `switch_to` leaves in memory. -/
theorem switchTo_mem {rules : SstatusRules} {machine : Machine}
    (hsource : machine.x a0 = BitVec.ofNat 64 context) (hfits : context + contextSize ≤ 2 ^ 64) :
    (run rules switchTo machine).mem = saveContext machine.mem context machine.x := by
  rw [switchTo_eq, run_append, run_append, run_cons, run_nil]
  have hslots : ∀ (mem : Memory) (slot : Register × ℕ), slot ∈ contextSlots →
      mem.write (machine.address a0 slot.2) (machine.x slot.1) =
        mem.write (context + slot.2) (machine.x slot.1) := by
    intro mem slot hslot
    have hlt := contextSlots_lt hslot
    rw [address_eq hsource hfits (by unfold REGBYTES at hlt; omega)]
  calc
    (run rules (loads a1 contextSlots) (run rules (stores a0 contextSlots) machine)).mem =
        (run rules (stores a0 contextSlots) machine).mem := run_loads_frame.1
    _ = contextSlots.foldl
        (fun mem slot ↦ mem.write (machine.address a0 slot.2) (machine.x slot.1)) machine.mem :=
      run_stores_mem
    _ = saveContext machine.mem context machine.x := List.foldl_ext _ _ _ hslots

/-- A context is part of its `struct proc_struct`. -/
theorem saveContext_outside {proc : ℕ}
    (h : ¬ (proc ≤ address ∧ address < proc + procStructSize)) :
    saveContext mem (contextOf proc) x address = mem address := by
  refine saveContext_of_ne fun slot hslot heq ↦ h ?_
  have hlt := contextSlots_lt hslot
  unfold contextOf contextSize REGBYTES procStructSize at *
  omega

end Contexts

/-! ## The selection -/

section Selection

variable {allocator : PageAllocator} {kernel kernel' : Kernel allocator} {members : List ℕ}
  {fuel next : ℕ} {x : Register → BitVec 64}

theorem scheduleScan_mem {last le : ProcNode} {result : ℕ} (hregistry : Registry kernel members)
    (hle : le ∈ ProcNode.procList :: members.map .listLink) (hnext : next = 0 ∨ next ∈ members)
    (hcall : scheduleScan kernel.links kernel.procs last fuel le next = .ok result) :
    result = 0 ∨ result ∈ members := by
  induction fuel generalizing le next with
  | zero => cases hcall
  | succ fuel ih =>
    unfold scheduleScan at hcall
    have hle' := hregistry.list.next_mem hle
    generalize kernel.links.next le = le' at *
    dsimp only at hcall
    have hnext' : (if le' ≠ .procList then le2proc le' else next) = 0 ∨
        (if le' ≠ .procList then le2proc le' else next) ∈ members := by
      rcases List.mem_cons.mp hle' with rfl | hmem
      · simpa using hnext
      · obtain ⟨proc, hproc, rfl⟩ := List.mem_map.mp hmem
        exact .inr hproc
    generalize (if le' ≠ .procList then le2proc le' else next) = next' at *
    split_ifs at hcall
    · exact Except.ok.inj hcall ▸ hnext'
    · exact ih hle' hnext' hcall
    · exact Except.ok.inj hcall ▸ hnext'

theorem scheduleNext_mem (hregistry : Registry kernel members)
    (hcurrent : kernel.current ∈ kernel.idleproc :: members)
    (hcall : scheduleNext fuel kernel = .ok next) : next ∈ kernel.idleproc :: members := by
  obtain ⟨found, hscan, hcall⟩ := bind_eq_ok.mp hcall
  have hlast : (if kernel.current = kernel.idleproc then ProcNode.procList
      else .listLink kernel.current) ∈ ProcNode.procList :: members.map .listLink := by
    by_cases hidle : kernel.current = kernel.idleproc
    · rw [if_pos hidle]
      exact List.mem_cons_self
    · rw [if_neg hidle]
      have hmem := List.mem_of_ne_of_mem hidle hcurrent
      exact List.mem_cons_of_mem _ (List.mem_map_of_mem hmem)
  have hfound := scheduleScan_mem hregistry hlast (.inl rfl) hscan
  split_ifs at hcall with hnone
  · exact Except.ok.inj hcall ▸ List.mem_cons_self
  · obtain rfl := Except.ok.inj hcall
    rw [not_or] at hnone
    exact List.mem_cons_of_mem _ (hfound.resolve_left hnone.1)

/-- Only scheduling data of processes differs. -/
def Accounted (kernel kernel' : Kernel allocator) : Prop :=
  ∀ proc, kernel'.procs proc = { kernel.procs proc with
    needResched := (kernel'.procs proc).needResched
    runs := (kernel'.procs proc).runs }

theorem Accounted.setProc {proc : ℕ} {needResched : Bool} {runs : BitVec 32}
    (h : Accounted kernel kernel') :
    Accounted kernel (kernel'.setProc proc { kernel'.procs proc with needResched, runs }) := by
  intro other
  by_cases heq : other = proc
  · subst heq
    simp only [Kernel.setProc, Function.update_self]
    rw [h other]
  · simp only [Kernel.setProc, Function.update_of_ne heq]
    exact h other

theorem Accounted.registry (h : Accounted kernel kernel') (hregistry : Registry kernel members)
    (hlinks : kernel'.links = kernel.links) (hcount : kernel'.nrProcess = kernel.nrProcess)
    (hlast : kernel'.lastPid = kernel.lastPid) (hsafe : kernel'.nextSafe = kernel.nextSafe) :
    Registry kernel' members :=
  hregistry.congr (fun _ _ ↦ by rw [hlinks]; exact ⟨rfl, rfl⟩) (fun proc _ ↦ by rw [h proc]) hcount
    hlast hsafe

/-- `schedule` up to the call of `proc_run`. -/
theorem scheduleSelect_spec (hregistry : Registry kernel members)
    (hcurrent : kernel.current ∈ kernel.idleproc :: members)
    (hcall : scheduleSelect fuel kernel = .ok (next, kernel')) :
    next ∈ kernel.idleproc :: members ∧ Accounted kernel kernel' ∧
      kernel' = { kernel with procs := kernel'.procs } := by
  obtain ⟨found, hnext, hcall⟩ := bind_eq_ok.mp hcall
  obtain ⟨rfl, rfl⟩ := Prod.mk.inj (Except.ok.inj hcall)
  have hself : Accounted kernel kernel := fun _ ↦ rfl
  have hcleared : Accounted kernel (kernel.setProc kernel.current
      { kernel.procs kernel.current with needResched := false }) := hself.setProc
  have hregistry' := hcleared.registry hregistry rfl rfl rfl rfl
  have hcurrent' : (kernel.setProc kernel.current
      { kernel.procs kernel.current with needResched := false }).current ∈
        kernel.idleproc :: members := hcurrent
  have hselected := scheduleNext_mem hregistry' hcurrent' hnext
  exact ⟨hselected, hcleared.setProc, rfl⟩

/-- `schedule` up to the point where another thread goes on. -/
theorem schedule_spec (hregistry : Registry kernel members)
    (hcurrent : kernel.current ∈ kernel.idleproc :: members)
    (hcall : schedule fuel kernel x = .ok kernel') :
    kernel'.current ∈ kernel.idleproc :: members ∧ Accounted kernel kernel' ∧
      ∃ mem, kernel' = { kernel with
          heap := { kernel.heap with mem }
          procs := kernel'.procs
          current := kernel'.current } ∧
        (mem = kernel.heap.mem ∨ mem = saveContext kernel.heap.mem (contextOf kernel.current) x) := by
  obtain ⟨⟨next, selected⟩, hselect, hcall⟩ := bind_eq_ok.mp hcall
  obtain ⟨hnext, haccounted, hselected⟩ := scheduleSelect_spec hregistry hcurrent hselect
  dsimp only at hcall
  split_ifs at hcall with hsame
  · obtain rfl := Except.ok.inj hcall
    rw [hselected]
    exact ⟨hcurrent, haccounted, kernel.heap.mem, rfl, .inl rfl⟩
  · obtain rfl := Except.ok.inj hcall
    rw [hselected]
    exact ⟨hnext, haccounted, _, rfl, .inr rfl⟩

end Selection

end Ucore
