import Ucore.Process.Satp

/-!
# Interrupts across switches (`kern/sync/sync.h`)

The statements of `schedule` and `proc_run` one by one, with the variables of each call kept by the
thread that made it. A call saves the flag twice, in `schedule` and in `proc_run`; between the second
save and the second restore other threads run, and a thread that runs for the first time leaves
through `sret`.
-/

namespace Ucore

open Foundation Rv64

/-- The bit `SIE` -/
def sie (sstatus : BitVec 64) : Bool := sstatus.getLsbD 1

/-- `__intr_save` -/
def intrSave (sstatus : BitVec 64) : Bool × BitVec 64 :=
  if sstatus &&& SSTATUS_SIE ≠ 0 then (true, sstatus &&& ~~~SSTATUS_SIE) else (false, sstatus)

/-- `__intr_restore` -/
def intrRestore (sstatus : BitVec 64) (flag : Bool) : BitVec 64 :=
  if flag then sstatus ||| SSTATUS_SIE else sstatus

theorem and_sie (sstatus : BitVec 64) : sstatus &&& SSTATUS_SIE ≠ 0 ↔ sie sstatus = true := by
  have hbit : SSTATUS_SIE = BitVec.twoPow 64 1 := by decide
  rw [hbit, BitVec.and_twoPow, sie]
  cases sstatus.getLsbD 1 <;> decide

theorem intrSave_spec (sstatus : BitVec 64) :
    (intrSave sstatus).1 = sie sstatus ∧ sie (intrSave sstatus).2 = false := by
  unfold intrSave
  by_cases h : sstatus &&& SSTATUS_SIE ≠ 0
  · rw [if_pos h, (and_sie sstatus).mp h]
    refine ⟨rfl, ?_⟩
    simp [sie, SSTATUS_SIE]
  · rw [if_neg h]
    have hsie : sie sstatus = false := by
      rw [← Bool.not_eq_true]
      exact fun heq ↦ h ((and_sie sstatus).mpr heq)
    exact ⟨hsie.symm, hsie⟩

theorem sie_intrRestore (sstatus : BitVec 64) (flag : Bool) :
    sie (intrRestore sstatus flag) = (flag || sie sstatus) := by
  cases flag
  · rfl
  · simp [intrRestore, sie, SSTATUS_SIE]

/-! ## Statements -/

/-- Where a thread is, with the variables of its calls: `flag` and `inner` are the `intr_flag` of `schedule`
and of `proc_run`. -/
inductive Control where
  | outside
  | fresh
  | entered (flag : Bool)
  | cleared (flag : Bool)
  | selected (flag : Bool) (next : ℕ)
  | counted (flag : Bool) (next : ℕ)
  | procRun (flag inner : Bool) (prev proc : ℕ)
  | current (flag inner : Bool) (prev proc : ℕ)
  | satp (flag inner : Bool) (prev proc : ℕ)
  | switched (flag inner : Bool)
  | restored (flag : Bool)

/-- `thread` is the one whose code the hart executes. -/
structure SchedState (allocator : PageAllocator) extends SatpState allocator where
  sstatus : BitVec 64
  thread : ℕ
  control : ℕ → Control

namespace SchedState

variable {allocator : PageAllocator}

/-- The running thread goes on to `control`. -/
def goto (state : SchedState allocator) (control : Control) : SchedState allocator :=
  { state with control := Function.update state.control state.thread control }

/-- Behind the `local_intr_save` of `schedule` -/
def called (state : SchedState allocator) : SchedState allocator :=
  { state.goto (.entered (intrSave state.sstatus).1) with sstatus := (intrSave state.sstatus).2 }

/-- The statements of `schedule`, of `proc_run` and of the first run of a thread. -/
inductive Exec (satpRules : SatpRules) (rules : SstatusRules) :
    SchedState allocator → SchedState allocator → Prop
  | call {state : SchedState allocator} (h : state.control state.thread = .outside) :
      Exec satpRules rules state state.called
  | clear {state : SchedState allocator} {flag : Bool}
      (h : state.control state.thread = .entered flag) :
      Exec satpRules rules state
        { state.goto (.cleared flag) with
          kernel := state.kernel.setProc state.kernel.current
            { state.kernel.procs state.kernel.current with needResched := false } }
  | select {state : SchedState allocator} {flag : Bool} {fuel next : ℕ}
      (h : state.control state.thread = .cleared flag)
      (hnext : scheduleNext fuel state.kernel = .ok next) :
      Exec satpRules rules state (state.goto (.selected flag next))
  | count {state : SchedState allocator} {flag : Bool} {next : ℕ}
      (h : state.control state.thread = .selected flag next) :
      Exec satpRules rules state
        { state.goto (.counted flag next) with
          kernel := state.kernel.setProc next
            { state.kernel.procs next with runs := (state.kernel.procs next).runs + 1 } }
  | stay {state : SchedState allocator} {flag : Bool} {next : ℕ}
      (h : state.control state.thread = .counted flag next) (hsame : next = state.kernel.current) :
      Exec satpRules rules state (state.goto (.restored flag))
  | procRun {state : SchedState allocator} {flag : Bool} {next : ℕ}
      (h : state.control state.thread = .counted flag next) (hother : next ≠ state.kernel.current) :
      Exec satpRules rules state
        { state.goto (.procRun flag (intrSave state.sstatus).1 state.kernel.current next) with
          sstatus := (intrSave state.sstatus).2 }
  | current {state : SchedState allocator} {flag inner : Bool} {prev proc : ℕ}
      (h : state.control state.thread = .procRun flag inner prev proc) :
      Exec satpRules rules state
        { state.goto (.current flag inner prev proc) with
          kernel := { state.kernel with current := proc } }
  | satp {state : SchedState allocator} {flag inner : Bool} {prev proc : ℕ}
      (h : state.control state.thread = .current flag inner prev proc) :
      Exec satpRules rules state
        { state.goto (.satp flag inner prev proc) with
          satp := writeSatp satpRules state.satp
            (lsatp (BitVec.ofNat 32 (state.kernel.procs proc).pgdir)) }
  | switchTo {state : SchedState allocator} {flag inner : Bool} {prev proc : ℕ}
      {x : Register → BitVec 64} (h : state.control state.thread = .satp flag inner prev proc) :
      Exec satpRules rules state
        { state.goto (.switched flag inner) with
          kernel := state.kernel.setMem
            (saveContext state.kernel.heap.mem (contextOf prev) x)
          thread := proc }
  | restoreInner {state : SchedState allocator} {flag inner : Bool}
      (h : state.control state.thread = .switched flag inner) :
      Exec satpRules rules state
        { state.goto (.restored flag) with sstatus := intrRestore state.sstatus inner }
  | restore {state : SchedState allocator} {flag : Bool}
      (h : state.control state.thread = .restored flag) :
      Exec satpRules rules state
        { state.goto .outside with sstatus := intrRestore state.sstatus flag }
  | start {state : SchedState allocator} {machine : Machine}
      (h : state.control state.thread = .fresh) (hmem : machine.mem = state.kernel.heap.mem)
      (hstatus : machine.sstatus = state.sstatus)
      (hframe : machine.x sp = BitVec.ofNat 64 (state.kernel.procs state.kernel.current).tf) :
      Exec satpRules rules state
        { state.goto .outside with sstatus := (run rules __trapret machine).sstatus }

/-- Outside `schedule` a thread enables and disables interrupts as it likes and does whatever it likes
to the kernel, but it does not choose the process that runs. -/
inductive Step (satpRules : SatpRules) (rules : SstatusRules) :
    SchedState allocator → SchedState allocator → Prop
  | exec {state state' : SchedState allocator} (h : Exec satpRules rules state state') :
      Step satpRules rules state state'
  | other {state : SchedState allocator} {kernel : Kernel allocator} {sstatus : BitVec 64}
      (h : state.control state.thread = .outside)
      (hcurrent : kernel.current = state.kernel.current) :
      Step satpRules rules state { state with kernel, sstatus }

/-- At first one thread runs, and all others have yet to run. -/
inductive Reachable (satpRules : SatpRules) (rules : SstatusRules) : SchedState allocator → Prop
  | boot (kernel : Kernel allocator) (satp sstatus : BitVec 64) :
      Reachable satpRules rules
        { kernel, satp, sstatus
          thread := kernel.current
          control := Function.update (fun _ ↦ .fresh) kernel.current .outside }
  | step {state state' : SchedState allocator} (hstate : Reachable satpRules rules state)
      (hstep : Step satpRules rules state state') : Reachable satpRules rules state'

end SchedState

/-! ## The invariant -/

/-- The `intr_flag` of the call of `schedule` that a thread is in. -/
def Control.flag : Control → Option Bool
  | .outside | .fresh => none
  | .entered flag | .cleared flag | .selected flag _ | .counted flag _ | .procRun flag _ _ _
  | .current flag _ _ _ | .satp flag _ _ _ | .switched flag _ | .restored flag => some flag

/-- The `intr_flag` of the call of `proc_run` that a thread is in, if any. -/
def Control.inner : Control → Bool
  | .procRun _ inner _ _ | .current _ inner _ _ | .satp _ inner _ _ | .switched _ inner => inner
  | _ => false

/-- The process that runs is the thread that runs, but at the end of `proc_run`. -/
def Control.Consistent (thread current : ℕ) : Control → Prop
  | .procRun _ _ _ proc => current = thread ∧ proc ≠ thread
  | .current _ _ _ proc | .satp _ _ _ proc => current = proc ∧ proc ≠ thread
  | _ => current = thread

namespace SchedState

variable {allocator : PageAllocator} {satpRules : SatpRules} {rules : SstatusRules}
  {state state' : SchedState allocator}

/-- Interrupts are off inside `schedule`, so `proc_run` finds them off; whoever does not run has never run or
waits in `switch_to`. -/
structure Disciplined (state : SchedState allocator) : Prop where
  off : state.control state.thread ≠ .outside → sie state.sstatus = false
  inner : ∀ thread, (state.control thread).inner = false
  suspended : ∀ thread ≠ state.thread, state.control thread = .fresh ∨
    ∃ flag inner, state.control thread = .switched flag inner
  current : (state.control state.thread).Consistent state.thread state.kernel.current

theorem Disciplined.goto {control : Control} (h : Disciplined state)
    (hthread : state'.thread = state.thread)
    (hcontrol : state'.control = Function.update state.control state.thread control)
    (hoff : control ≠ .outside → sie state'.sstatus = false) (hinner : control.inner = false)
    (hcurrent : control.Consistent state.thread state'.kernel.current) : Disciplined state' := by
  have hself : state'.control state'.thread = control := by
    rw [hcontrol, hthread, Function.update_self]
  refine ⟨hself ▸ hoff, fun thread ↦ ?_, fun thread hne ↦ ?_, ?_⟩
  · rw [hcontrol]
    by_cases heq : thread = state.thread
    · rw [heq, Function.update_self]
      exact hinner
    · rw [Function.update_of_ne heq]
      exact h.inner thread
  · rw [hthread] at hne
    rw [hcontrol, Function.update_of_ne hne]
    exact h.suspended thread hne
  · rw [hself, hthread]
    exact hcurrent

/-- Only `switch_to` lets another thread run. -/
theorem Disciplined.exec (hstate : Disciplined state) (h : Exec satpRules rules state state') :
    Disciplined state' := by
  have hoff := hstate.off
  have hinner := hstate.inner state.thread
  have hcurrent := hstate.current
  cases h with
  | call h =>
    rw [h] at hcurrent
    exact hstate.goto rfl rfl (fun _ ↦ (intrSave_spec _).2) rfl hcurrent
  | clear h | select h hnext | count h | stay h hsame =>
    rw [h] at hoff hcurrent
    exact hstate.goto rfl rfl (fun _ ↦ hoff nofun) rfl hcurrent
  | procRun h hother =>
    rw [h] at hoff hcurrent
    have hflag : (intrSave state.sstatus).1 = false := (intrSave_spec _).1.trans (hoff nofun)
    refine hstate.goto rfl rfl (fun _ ↦ (intrSave_spec _).2) hflag ⟨hcurrent, fun heq ↦ hother ?_⟩
    exact heq.trans hcurrent.symm
  | current h =>
    rw [h] at hoff hinner hcurrent
    exact hstate.goto rfl rfl (fun _ ↦ hoff nofun) hinner ⟨rfl, hcurrent.2⟩
  | satp h =>
    rw [h] at hoff hinner hcurrent
    exact hstate.goto rfl rfl (fun _ ↦ hoff nofun) hinner hcurrent
  | @switchTo flag inner prev proc x h =>
    rw [h] at hoff hinner hcurrent
    have hnew : Function.update state.control state.thread (.switched flag inner) proc =
        state.control proc := Function.update_of_ne hcurrent.2 _ _
    have hproc := hstate.suspended proc hcurrent.2
    have hself : Function.update state.control state.thread (.switched flag inner) state.thread =
        .switched flag inner := Function.update_self _ _ _
    refine ⟨fun _ ↦ hoff nofun, fun thread ↦ ?_, fun thread hne ↦ ?_, ?_⟩
    · show (Function.update state.control state.thread (.switched flag inner) thread).inner = false
      rcases eq_or_ne thread state.thread with rfl | hother
      · rw [hself]
        exact hinner
      · rw [Function.update_of_ne hother]
        exact hstate.inner thread
    · rcases eq_or_ne thread state.thread with rfl | hother
      · exact .inr ⟨flag, inner, hself⟩
      · have hkept := hstate.suspended thread hother
        rw [← Function.update_of_ne (f := state.control) hother (.switched flag inner)] at hkept
        exact hkept
    · show Control.Consistent proc state.kernel.current
        (Function.update state.control state.thread (.switched flag inner) proc)
      rw [hnew]
      rcases hproc with hfresh | ⟨_, _, hswitched⟩
      · rw [hfresh]
        exact hcurrent.1
      · rw [hswitched]
        exact hcurrent.1
  | @restoreInner flag inner h =>
    rw [h] at hoff hinner hcurrent
    have hsie : sie (intrRestore state.sstatus inner) = false := by
      rw [sie_intrRestore, hoff nofun, Bool.or_false]
      exact hinner
    exact hstate.goto rfl rfl (fun _ ↦ hsie) rfl hcurrent
  | restore h | start h hmem hstatus hframe =>
    rw [h] at hcurrent
    exact hstate.goto rfl rfl (fun h ↦ absurd rfl h) rfl hcurrent

theorem Disciplined.step (hstate : Disciplined state) (h : Step satpRules rules state state') :
    Disciplined state' := by
  cases h with
  | exec h => exact hstate.exec h
  | other h hkernel =>
    have hcurrent := hstate.current
    rw [h] at hcurrent
    refine ⟨fun hinside ↦ absurd h hinside, hstate.inner, hstate.suspended, ?_⟩
    dsimp only
    rw [h, hkernel]
    exact hcurrent

theorem Reachable.disciplined (h : Reachable satpRules rules state) : Disciplined state := by
  induction h with
  | boot kernel satp sstatus =>
    have hself : Function.update (fun _ ↦ Control.fresh) kernel.current .outside kernel.current =
        .outside := Function.update_self _ _ _
    have hothers (thread : ℕ) (hne : thread ≠ kernel.current) :
        Function.update (fun _ ↦ Control.fresh) kernel.current .outside thread = .fresh :=
      Function.update_of_ne hne _ _
    refine ⟨fun hinside ↦ absurd hself hinside, fun thread ↦ ?_,
      fun thread hne ↦ .inl (hothers thread hne), ?_⟩
    · dsimp only
      rcases eq_or_ne thread kernel.current with rfl | hne
      · rw [hself]
        rfl
      · rw [hothers thread hne]
        rfl
    · dsimp only
      rw [hself]
      rfl
  | step hstate hstep ih => exact ih.step hstep

/-- What `schedule` and `proc_run` change they change with interrupts off. -/
theorem Disciplined.quiet (hstate : Disciplined state) (h : Exec satpRules rules state state') :
    (state'.kernel = state.kernel ∧ state'.satp = state.satp) ∨
      sie state.sstatus = false ∧ sie state'.sstatus = false := by
  have hoff := hstate.off
  cases h with
  | call | select | stay | procRun | restoreInner | restore | start => exact .inl ⟨rfl, rfl⟩
  | clear h | count h | current h | satp h | switchTo h =>
    rw [h] at hoff
    exact .inr ⟨hoff nofun, hoff nofun⟩

/-! ## Calls -/

/-- A run in which `thread` does not leave `schedule`; others may. -/
inductive During (satpRules : SatpRules) (rules : SstatusRules) (thread : ℕ) :
    SchedState allocator → SchedState allocator → Prop
  | refl (state : SchedState allocator) : During satpRules rules thread state state
  | step {state state' state'' : SchedState allocator}
      (hrun : During satpRules rules thread state state') (hstep : Step satpRules rules state' state'')
      (hinside : state''.control thread ≠ .outside) : During satpRules rules thread state state''

/-- The call of `schedule` in `state` by the running thread returns in `state'`. -/
def Returns (satpRules : SatpRules) (rules : SstatusRules) (state state' : SchedState allocator) :
    Prop :=
  state.control state.thread = .outside ∧
    ∃ last, During satpRules rules state.thread state.called last ∧
      Exec satpRules rules last state' ∧ state'.control state.thread = .outside

theorem called_control (state : SchedState allocator) :
    state.called.control state.thread = .entered (sie state.sstatus) := by
  have hself : state.called.control state.thread = .entered (intrSave state.sstatus).1 :=
    Function.update_self _ _ _
  rw [hself, (intrSave_spec _).1]

/-- A statement moves the running thread only, and within a call it keeps the flag. -/
theorem Exec.goto (h : Exec satpRules rules state state') :
    ∃ control, state'.control = Function.update state.control state.thread control ∧
      (state.control state.thread ≠ .outside → control ≠ .outside →
        control.flag = (state.control state.thread).flag) := by
  cases h with
  | call h => exact ⟨_, rfl, fun hinside ↦ absurd h hinside⟩
  | restore | start => exact ⟨_, rfl, fun _ hinside ↦ absurd rfl hinside⟩
  | clear h | select h | count h | stay h | procRun h | current h | satp h | switchTo h
  | restoreInner h => exact ⟨_, rfl, fun _ _ ↦ (congrArg Control.flag h).symm⟩

/-- A call keeps its flag until it returns. -/
theorem Exec.flag {thread : ℕ} {flag : Bool} (h : Exec satpRules rules state state')
    (hflag : (state.control thread).flag = some flag) (hinside : state'.control thread ≠ .outside) :
    (state'.control thread).flag = some flag := by
  obtain ⟨control, hcontrol, hkept⟩ := h.goto
  rw [hcontrol] at hinside ⊢
  rcases eq_or_ne thread state.thread with rfl | hne
  · rw [Function.update_self] at hinside ⊢
    have hcall : state.control state.thread ≠ .outside := by
      intro houtside
      rw [houtside] at hflag
      cases hflag
    exact (hkept hcall hinside).trans hflag
  · rw [Function.update_of_ne hne]
    exact hflag

theorem During.flag {thread : ℕ} {flag : Bool} (h : During satpRules rules thread state state')
    (hflag : (state.control thread).flag = some flag) :
    (state'.control thread).flag = some flag := by
  induction h with
  | refl => exact hflag
  | step hrun hstep hinside ih =>
    cases hstep with
    | exec h => exact h.flag ih hinside
    | other h hcurrent => exact ih

theorem During.disciplined {thread : ℕ} (h : During satpRules rules thread state state')
    (hstate : Disciplined state) : Disciplined state' := by
  induction h with
  | refl => exact hstate
  | step hrun hstep hinside ih => exact ih.step hstep

/-- The last statement of a call restores what the first one saved. -/
theorem Disciplined.returns (hstate : Disciplined state) (h : Returns satpRules rules state state') :
    state'.thread = state.thread ∧ sie state'.sstatus = sie state.sstatus := by
  obtain ⟨hcall, last, hrun, hlast, houtside⟩ := h
  have hflag : (last.control state.thread).flag = some (sie state.sstatus) :=
    hrun.flag (congrArg Control.flag (called_control state))
  have hcalled : Exec satpRules rules state state.called := .call hcall
  have hoff := (hrun.disciplined (hstate.exec hcalled)).off
  have hthread : last.thread = state.thread := by
    by_contra hne
    obtain ⟨control, hcontrol, -⟩ := hlast.goto
    rw [hcontrol, Function.update_of_ne (Ne.symm hne)] at houtside
    rw [houtside] at hflag
    cases hflag
  rw [← hthread] at hflag houtside ⊢
  have hleft : ∀ control ≠ .outside,
      ¬ Function.update last.control last.thread control last.thread = .outside := by
    intro control hinside
    rw [Function.update_self]
    exact hinside
  cases hlast with
  | @restore flag h =>
    rw [h] at hoff hflag
    refine ⟨rfl, ?_⟩
    calc
      sie (intrRestore last.sstatus flag) = (flag || sie last.sstatus) := sie_intrRestore _ _
      _ = flag := by rw [hoff nofun, Bool.or_false]
      _ = sie state.sstatus := Option.some.inj hflag
  | call h | start h =>
    rw [h] at hflag
    cases hflag
  | clear | select | count | stay | procRun | current | satp | switchTo | restoreInner =>
    exact absurd houtside (hleft _ nofun)

/-- The statements do to the kernel what `schedule` does, up to the point where it gives the hart away
or restores its flag. -/
theorem schedule_executes {fuel : ℕ} {kernel' : Kernel allocator} {x : Register → BitVec 64}
    (houtside : state.control state.thread = .outside)
    (h : schedule fuel state.kernel x = .ok kernel') :
    ∃ state', Relation.ReflTransGen (Exec satpRules rules) state state' ∧
      state'.kernel = kernel' ∧
      ((state'.thread = state.thread ∧ state'.kernel.current = state.kernel.current ∧
          state'.control state.thread = .restored (sie state.sstatus)) ∨
        state'.thread = state'.kernel.current ∧ state'.kernel.current ≠ state.kernel.current ∧
          ∃ inner, state'.control state.thread = .switched (sie state.sstatus) inner) := by
  obtain ⟨⟨_, _⟩, hselect, h⟩ := bind_eq_ok.mp h
  obtain ⟨next, hnext, hselect⟩ := bind_eq_ok.mp hselect
  obtain ⟨rfl, rfl⟩ := Prod.mk.inj (Except.ok.inj hselect)
  dsimp only at h
  have hself (control : ℕ → Control) (value : Control) :
      Function.update control state.thread value state.thread = value := Function.update_self _ _ _
  have hflag := (intrSave_spec state.sstatus).1
  have hcalled : Relation.ReflTransGen (Exec satpRules rules) state state.called :=
    .single (.call houtside)
  have hcleared := hcalled.tail (.clear (hself _ _))
  have hselected := hcleared.tail (.select (hself _ _) hnext)
  have hcounted := hselected.tail (.count (hself _ _))
  by_cases hsame : next = state.kernel.current
  · rw [if_pos hsame] at h
    refine ⟨_, hcounted.tail (.stay (hself _ _) hsame), Except.ok.inj h, .inl ⟨rfl, rfl, ?_⟩⟩
    exact (hself _ _).trans (congrArg Control.restored hflag)
  · rw [if_neg hsame] at h
    have hrun := hcounted.tail (.procRun (hself _ _) hsame)
    have hcurrent := hrun.tail (.current (hself _ _))
    have hsatp := hcurrent.tail (.satp (hself _ _))
    have hswitched := hsatp.tail (.switchTo (x := x) (hself _ _))
    let inner := (intrSave (intrSave state.sstatus).2).1
    refine ⟨_, hswitched, Except.ok.inj h, .inr ⟨rfl, hsame, inner, ?_⟩⟩
    rw [← hflag]
    exact hself _ _

/-- A call of `schedule` returns with the interrupts as it found them, whichever threads ran in between,
and every change of the kernel that `schedule` and `proc_run` make happens with interrupts off. -/
theorem schedule_interrupts (satpRules : SatpRules) (rules : SstatusRules)
    (state : SchedState allocator) (hstate : Reachable satpRules rules state) :
    (∀ state', Returns satpRules rules state state' →
      state'.thread = state.thread ∧ sie state'.sstatus = sie state.sstatus) ∧
    ∀ state', Exec satpRules rules state state' →
      state'.kernel ≠ state.kernel ∨ state'.satp ≠ state.satp →
      sie state.sstatus = false ∧ sie state'.sstatus = false := by
  have hinv := hstate.disciplined
  refine ⟨fun state' hcall ↦ hinv.returns hcall, fun state' hexec hchanged ↦ ?_⟩
  refine (hinv.quiet hexec).resolve_left fun hkept ↦ ?_
  rcases hchanged with hkernel | hsatp
  · exact hkernel hkept.1
  · exact hsatp hkept.2

/-- A call that selects the process that runs returns. -/
theorem Returns.stay {fuel : ℕ} (houtside : state.control state.thread = .outside)
    (hnext : scheduleNext fuel (state.kernel.setProc state.kernel.current
      { state.kernel.procs state.kernel.current with needResched := false }) =
        .ok state.kernel.current) :
    ∃ state', Returns satpRules rules state state' := by
  have hself (control : ℕ → Control) (value : Control) :
      Function.update control state.thread value state.thread = value := Function.update_self _ _ _
  have hleft (control : ℕ → Control) (value : Control) (hinside : value ≠ .outside) :
      Function.update control state.thread value state.thread ≠ .outside := by
    rw [hself]
    exact hinside
  have hcalled : During satpRules rules state.thread state.called state.called := .refl _
  have hcleared := hcalled.step (.exec (.clear (hself _ _))) (hleft _ _ nofun)
  have hselected := hcleared.step (.exec (.select (hself _ _) hnext)) (hleft _ _ nofun)
  have hcounted := hselected.step (.exec (.count (hself _ _))) (hleft _ _ nofun)
  have hstayed := hcounted.step (.exec (.stay (hself _ _) rfl)) (hleft _ _ nofun)
  exact ⟨_, houtside, _, hstayed, .restore (hself _ _), hself _ _⟩

/-- `idleproc` alone calls with interrupts enabled: `need_resched` changes with interrupts off, and the call
returns with interrupts enabled. -/
theorem schedule_interrupts_idle :
    ∃ state state' returned : SchedState (PageAllocator.firstFit 0x20A 16),
      sie state.sstatus = true ∧
      Exec ⟨fun _ ↦ true, rfl⟩ .standard state.called state' ∧
      state'.kernel ≠ state.called.kernel ∧ sie state'.sstatus = false ∧
      Returns ⟨fun _ ↦ true, rfl⟩ .standard state returned ∧ sie returned.sstatus = true := by
  let satpRules : SatpRules := ⟨fun _ ↦ true, rfl⟩
  let kernel := (ProcWorld.sampleKernel 16).setProc 0
    { (ProcWorld.sampleKernel 16).procs 0 with needResched := true }
  let state : SchedState (PageAllocator.firstFit 0x20A 16) :=
    { kernel, satp := 0, sstatus := 2, thread := kernel.current
      control := Function.update (fun _ ↦ .fresh) kernel.current .outside }
  have hstate : Reachable satpRules .standard state := .boot kernel 0 2
  have henabled : sie state.sstatus = true := by decide
  have houtside : state.control state.thread = .outside := by
    show Function.update (fun _ ↦ Control.fresh) kernel.current .outside kernel.current = _
    exact Function.update_self _ _ _
  have hcalled : Reachable satpRules .standard state.called :=
    .step hstate (.exec (.call houtside))
  have hclear : Exec satpRules .standard state.called _ := .clear (called_control state)
  have hidle : scheduleNext 1 (state.kernel.setProc state.kernel.current
      { state.kernel.procs state.kernel.current with needResched := false }) =
        .ok state.kernel.current := rfl
  obtain ⟨returned, hreturns⟩ : ∃ returned, Returns satpRules .standard state returned :=
    Returns.stay houtside hidle
  have hflag := ((schedule_interrupts satpRules .standard state hstate).1 returned hreturns).2
  have hchanged : (state.called.kernel.setProc 0
      { state.called.kernel.procs 0 with needResched := false }) ≠ state.called.kernel := by
    intro heq
    have hresched := congrArg (fun kernel ↦ (kernel.procs 0).needResched) heq
    cases hresched
  have hoff := (schedule_interrupts satpRules .standard _ hcalled).2 _ hclear (.inl hchanged)
  exact ⟨state, _, returned, henabled, hclear, hchanged, hoff.2, hreturns, hflag.trans henabled⟩

end SchedState

end Ucore
