import Mathlib.Logic.Function.Iterate
import Ucore.Process.Pid

/-!
# The order in which pids are given out

`get_pid` goes round the cycle `1, ..., MAX_PID - 1` from the pid it returned last. It passes over pids
that are in use and stops at the first one that is not, so a pid comes up again only after all others
were in use for some time.
-/

namespace Ucore

open Foundation

/-- `k` steps round the cycle of pids from `lastPid` -/
def pidAfter (lastPid : ℤ) (k : ℕ) : ℤ := pidSucc^[k] lastPid

section Cycle

variable {lastPid pid : ℤ} {k : ℕ}

theorem pidAfter_succ (lastPid : ℤ) (k : ℕ) : pidAfter lastPid (k + 1) = pidSucc (pidAfter lastPid k) :=
  Function.iterate_succ_apply' pidSucc k lastPid

theorem pidAfter_add (lastPid : ℤ) (j k : ℕ) :
    pidAfter (pidAfter lastPid j) k = pidAfter lastPid (j + k) := by
  unfold pidAfter
  rw [← Function.iterate_add_apply, Nat.add_comm]

theorem pidAfter_eq (hpos : 1 ≤ lastPid) (hmax : lastPid < MAX_PID) (k : ℕ) :
    pidAfter lastPid k = (lastPid - 1 + k) % (MAX_PID - 1) + 1 := by
  induction k with
  | zero =>
    unfold pidAfter MAX_PID MAX_PROCESS at *
    rw [Function.iterate_zero, id]
    omega
  | succ k ih =>
    rw [pidAfter_succ, ih]
    unfold pidSucc MAX_PID MAX_PROCESS
    split <;> omega

/-- The cycle is closed after `MAX_PID - 1` steps and not before. -/
theorem le_of_pidAfter_self (hpos : 1 ≤ lastPid) (hmax : lastPid < MAX_PID) (hk : 0 < k)
    (hself : pidAfter lastPid k = lastPid) : (MAX_PID - 1).toNat ≤ k := by
  rw [pidAfter_eq hpos hmax] at hself
  unfold MAX_PID MAX_PROCESS at *
  omega

/-- All pids are on the cycle. -/
theorem exists_pidAfter (hpos : 1 ≤ lastPid) (hmax : lastPid < MAX_PID) (hpid : 1 ≤ pid)
    (hpid_max : pid < MAX_PID) : ∃ k < (MAX_PID - 1).toNat, pidAfter lastPid k = pid := by
  refine ⟨((pid - lastPid) % (MAX_PID - 1)).toNat, ?_, ?_⟩
  · unfold MAX_PID MAX_PROCESS at *
    omega
  · rw [pidAfter_eq hpos hmax]
    unfold MAX_PID MAX_PROCESS at *
    omega

end Cycle

section Scan

variable {links : Links ProcNode} {procs : ℕ → ProcStruct} {pre post nodes : List ProcNode}
  {fuel : ℕ} {lastPid nextSafe pid safe : ℤ}

/-- From `start` the search has come to `pid` over pids in use. -/
def Skips (pids : List ℤ) (start pid : ℤ) : Prop :=
  ∃ k, pid = pidAfter start k ∧ ∀ j < k, pidAfter start j ∈ pids

theorem Skips.refl (pids : List ℤ) (start : ℤ) : Skips pids start start :=
  ⟨0, rfl, fun j hj ↦ absurd hj (Nat.not_lt_zero j)⟩

theorem Skips.succ {pids : List ℤ} {start pid : ℤ} (h : Skips pids start pid) (hused : pid ∈ pids) :
    Skips pids start (pidSucc pid) := by
  obtain ⟨k, rfl, hskipped⟩ := h
  refine ⟨k + 1, (pidAfter_succ start k).symm, fun j hj ↦ ?_⟩
  rcases Nat.lt_succ_iff_lt_or_eq.mp hj with hlt | rfl
  · exact hskipped j hlt
  · exact hused

/-- A sweep moves its candidate only where it meets it on the list. -/
theorem getPidScan_skips {start : ℤ} (hring : Ring links .procList (pre ++ post))
    (hswept : Swept procs pre lastPid nextSafe)
    (hskips : Skips ((pre ++ post).map (pidOf procs)) start lastPid)
    (hscan : getPidScan links procs fuel (pre.getLast?.getD .procList) lastPid nextSafe =
      .ok (pid, safe)) : Skips ((pre ++ post).map (pidOf procs)) start pid := by
  induction fuel generalizing pre post lastPid nextSafe with
  | zero => simp [getPidScan] at hscan
  | succ fuel ih =>
    cases post with
    | nil =>
      rw [List.append_nil] at hring
      rw [getPidScan_end hring] at hscan
      obtain ⟨rfl, -⟩ := Prod.mk.inj (Except.ok.inj hscan)
      exact hskips
    | cons le post =>
      have hmember : pidOf procs le ∈ (pre ++ le :: post).map (pidOf procs) :=
        List.mem_map_of_mem (List.mem_append_right _ List.mem_cons_self)
      rcases getPidScan_step fuel hring hswept with
        ⟨lastPid', nextSafe', hstep, hswept', hmoved⟩ | ⟨hused, hstep⟩
      · have hsplit : (pre ++ [le]) ++ post = pre ++ le :: post := by simp
        have hskips' : Skips ((pre ++ le :: post).map (pidOf procs)) start lastPid' := by
          rcases hmoved with rfl | ⟨hused, rfl⟩
          · exact hskips
          · exact hskips.succ (hused ▸ hmember)
        rw [hstep] at hscan
        rw [← hsplit] at hring hskips' ⊢
        exact ih hring hswept' hskips' (by simpa using hscan)
      · rw [hstep] at hscan
        have hagain : Swept procs [] (pidSucc lastPid) MAX_PID :=
          .start (one_le_pidSucc hswept.one_le) pidSucc_lt
        have hwhole : Ring links .procList ([] ++ (pre ++ le :: post)) := hring
        have hskips' := ih hwhole hagain (hskips.succ (hused ▸ hmember)) hscan
        exact hskips'

theorem getPid_skips (hring : Ring links .procList nodes)
    (hcursor : PidCursor (nodes.map (pidOf procs)) lastPid nextSafe)
    (hcall : getPid links procs fuel lastPid nextSafe = .ok (pid, safe)) :
    Skips (nodes.map (pidOf procs)) (pidSucc lastPid) pid := by
  have hpos := one_le_pidSucc hcursor.one_le
  have hsweep : getPidScan links procs fuel .procList (pidSucc lastPid) MAX_PID = .ok (pid, safe) →
      Skips (nodes.map (pidOf procs)) (pidSucc lastPid) pid := fun hscan ↦
    getPidScan_skips (show Ring links .procList ([] ++ nodes) from hring) (.start hpos pidSucc_lt)
      (.refl _ _) hscan
  unfold getPid at hcall
  dsimp only at hcall
  split at hcall
  · rename_i hend
    refine hsweep ?_
    rwa [pidSucc, if_pos hend]
  · rename_i hroom
    have hsucc : pidSucc lastPid = lastPid + 1 := if_neg hroom
    split at hcall
    · exact hsweep (hsucc.symm ▸ hcall)
    · obtain ⟨rfl, -⟩ := Prod.mk.inj (Except.ok.inj hcall)
      rw [hsucc]
      exact .refl _ _

end Scan

namespace PidWorld

variable {world world' world'' : PidWorld} {fuel : ℕ} {pid nextSafe : ℤ} {seen : Set ℤ}

/-- A run of creations and removals, with all pids that were on the list in one of its states -/
inductive Run (world : PidWorld) : Set ℤ → PidWorld → Prop
  | refl : Run world {pid | pid ∈ world.pids} world
  | step {seen : Set ℤ} {world' world'' : PidWorld} (hrun : Run world seen world')
      (hstep : Step world' world'') : Run world (seen ∪ {pid | pid ∈ world''.pids}) world''

/-- What a run has seen since `world`: all pids that the cursor passed. -/
structure Passed (world : PidWorld) (seen : Set ℤ) (world' : PidWorld) : Prop where
  sound : Sound world'
  nodup : world'.pids.Nodup
  listed : ∀ pid ∈ world'.pids, pid ∈ seen
  cursor : ∃ k, world'.lastPid = pidAfter world.lastPid k ∧
    ∀ j, 0 < j → j ≤ k → pidAfter world.lastPid j ∈ seen

/-- The pids between the old cursor and the new one are in use. -/
theorem Passed.getPid (h : Passed world seen world')
    (hcall : getPid world'.links world'.procs fuel world'.lastPid world'.nextSafe =
      .ok (pid, nextSafe)) :
    ∃ k, 0 < k ∧ pid = pidAfter world.lastPid k ∧
      ∀ j, 0 < j → j < k → pidAfter world.lastPid j ∈ seen := by
  obtain ⟨k, hlast, hseen⟩ := h.cursor
  obtain ⟨more, hpid, hskipped⟩ := getPid_skips h.sound.ring h.sound.cursor hcall
  have hshift : ∀ j, pidAfter (pidSucc world'.lastPid) j = pidAfter world.lastPid (k + (j + 1)) := by
    intro j
    rw [← pidAfter_add, ← hlast]
    rfl
  refine ⟨k + (more + 1), by omega, hpid.trans (hshift more), fun j hpos hj ↦ ?_⟩
  by_cases hle : j ≤ k
  · exact hseen j hpos hle
  · obtain ⟨i, rfl⟩ := Nat.exists_eq_add_of_lt (not_le.mp hle)
    have hused := hskipped i (by omega)
    rw [hshift] at hused
    exact h.listed _ hused

theorem Run.passed (hsound : Sound world) (hnodup : world.pids.Nodup) (hrun : Run world seen world') :
    Passed world seen world' := by
  induction hrun with
  | refl => exact ⟨hsound, hnodup, fun _ hpid ↦ hpid, 0, rfl, fun j hpos hj ↦ absurd hpos (by omega)⟩
  | @step seen world' world'' hrun hstep ih =>
    obtain ⟨hsound', hnodup'⟩ := hstep.sound ih.sound ih.nodup
    refine ⟨hsound', hnodup', fun _ hpid ↦ .inr hpid, ?_⟩
    cases hstep with
    | @create fuel proc pid nextSafe hnew hcall =>
      obtain ⟨k, -, hpid, hseen⟩ := ih.getPid hcall
      refine ⟨k, hpid, fun j hpos hj ↦ ?_⟩
      rcases Nat.lt_or_eq_of_le hj with hlt | rfl
      · exact .inl (hseen j hpos hlt)
      · have hpids := pids_create { world'.procs proc with pid } hnew
        right
        rw [← hpid]
        exact (congrArg (pid ∈ ·) hpids).mpr List.mem_cons_self
    | remove =>
      obtain ⟨k, hlast, hseen⟩ := ih.cursor
      exact ⟨k, hlast, fun j hpos hj ↦ .inl (hseen j hpos hj)⟩

/-- A pid is given out again only when every other pid has been in use in between. -/
theorem get_pid_reuse (hsound : Sound world) (hnodup : world.pids.Nodup)
    (hmax : world.lastPid < MAX_PID) (hrun : Run world seen world')
    (hcall : getPid world'.links world'.procs fuel world'.lastPid world'.nextSafe =
      .ok (world.lastPid, nextSafe)) :
    ∀ pid, 1 ≤ pid → pid < MAX_PID → pid ≠ world.lastPid → pid ∈ seen := by
  intro pid hpid hpid_max hne
  have hpos := hsound.cursor.one_le
  obtain ⟨k, hk, hself, hseen⟩ := (hrun.passed hsound hnodup).getPid hcall
  have hround := le_of_pidAfter_self hpos hmax hk hself.symm
  obtain ⟨j, hj, rfl⟩ := exists_pidAfter hpos hmax hpid hpid_max
  refine hseen j (Nat.pos_of_ne_zero fun hzero ↦ hne ?_) (hj.trans_le hround)
  rw [hzero]
  rfl

/-- The last of `n` processes is the first on the list. -/
def crowd : ℕ → List ℕ
  | 0 => []
  | n + 1 => n :: crowd n

def crowdLinks : ℕ → Links ProcNode
  | 0 => listInit ⟨id, id⟩ .procList
  | n + 1 => listAdd (crowdLinks n) .procList (.listLink n)

/-- `n` processes with the pids `1, ..., n` -/
def crowded (n : ℕ) (lastPid : ℤ) : PidWorld where
  links := crowdLinks n
  procs proc := ⟨.PROC_RUNNABLE, proc + 1, 0, 0, false, 0, 0, 0, 0, 0⟩
  members := crowd n
  lastPid := lastPid
  nextSafe := MAX_PID

theorem mem_crowd (n proc : ℕ) : proc ∈ crowd n ↔ proc < n := by
  induction n with
  | zero => simp [crowd]
  | succ n ih =>
    rw [crowd, List.mem_cons, ih]
    omega

theorem crowd_nodup (n : ℕ) : (crowd n).Nodup := by
  induction n with
  | zero => exact List.nodup_nil
  | succ n ih => exact List.nodup_cons.mpr ⟨fun hmem ↦ absurd ((mem_crowd n n).mp hmem) (by omega), ih⟩

theorem crowdLinks_ring (n : ℕ) : Ring (crowdLinks n) .procList ((crowd n).map .listLink) := by
  induction n with
  | zero => exact Ring.listInit
  | succ n ih =>
    refine ih.listAdd_head ?_
    simp [mem_crowd]

theorem crowded_pids (n : ℕ) (lastPid : ℤ) :
    (crowded n lastPid).pids = (crowd n).map fun proc : ℕ ↦ (proc : ℤ) + 1 := by
  rw [pids, List.map_map]
  rfl

theorem mem_crowded_pids (n : ℕ) (lastPid pid : ℤ) :
    pid ∈ (crowded n lastPid).pids ↔ 1 ≤ pid ∧ pid ≤ n := by
  rw [crowded_pids, List.mem_map]
  constructor
  · rintro ⟨proc, hproc, rfl⟩
    have hlt := (mem_crowd n proc).mp hproc
    omega
  · rintro ⟨hpos, hle⟩
    exact ⟨(pid - 1).toNat, (mem_crowd n _).mpr (by omega), by omega⟩

/-- With all other pids in use the pid 8191 comes up twice in a row. -/
theorem get_pid_reuse_crowded :
    (∃ fuel nextSafe, getPid (crowded 8190 8191).links (crowded 8190 8191).procs fuel 8191 MAX_PID =
      .ok (8191, nextSafe)) ∧
    Set.Icc 1 8190 ⊆ {pid | pid ∈ (crowded 8190 8191).pids} := by
  have hcursor : PidCursor (crowded 8190 8191).pids 8191 MAX_PID :=
    ⟨by decide, by decide, le_rfl, fun pid _ ↦ by unfold MAX_PID MAX_PROCESS; omega⟩
  have hsound : Sound (crowded 8190 8191) := ⟨crowdLinks_ring 8190, hcursor⟩
  have hnodup : (crowded 8190 8191).pids.Nodup := by
    rw [crowded_pids]
    exact (crowd_nodup 8190).map fun left right heq ↦ by simpa using heq
  obtain ⟨least, hreturns⟩ := getPid_returns hsound.ring (show (1 : ℤ) ≤ 8191 by decide) (by decide)
    (fun hmem ↦ by have := (mem_crowded_pids 8190 8191 8191).mp hmem; omega) hcursor.one_le
  obtain ⟨⟨pid, safe⟩, hcall⟩ := hreturns least le_rfl
  have hswept := getPid_sound hsound.ring hcursor hcall
  have hlt := hswept.lt_nextSafe.trans_le hswept.nextSafe_le
  have hpos := hswept.one_le
  have hunused := hswept.not_mem
  change pid ∉ (crowded 8190 8191).pids at hunused
  rw [mem_crowded_pids] at hunused
  obtain rfl : pid = 8191 := by
    unfold MAX_PID MAX_PROCESS at hlt
    omega
  refine ⟨⟨least, safe, hcall⟩, fun pid hpid ↦ ?_⟩
  have hlast : pid < 8191 := Int.lt_add_one_iff.mpr hpid.2
  exact get_pid_reuse hsound hnodup (by decide) .refl hcall pid hpid.1 (hlast.trans (by decide)) hlast.ne

end PidWorld

end Ucore
