import Mathlib.Data.Int.ConditionallyCompleteOrder
import Mathlib.Data.Int.Interval
import Mathlib.Order.ConditionallyCompleteLattice.Finset
import Mathlib.Logic.Relation
import Ucore.Process.Proc

/-!
# Process identifiers

`get_pid` sweeps the process list with a candidate and the end of a window behind it. A sweep keeps
the listed pids it has met out of the window; whenever it starts over, the candidate has come closer
to the next free pid on the cycle of pids. So the search ends, and pids stay unique however
allocations and removals of processes alternate.
-/

namespace Ucore

open Foundation

def pidOf (procs : ℕ → ProcStruct) (le : ProcNode) : ℤ := (procs (le2proc le)).pid

/-- What a sweep knows once it has met the nodes `seen`. -/
structure Swept (procs : ℕ → ProcStruct) (seen : List ProcNode) (lastPid nextSafe : ℤ) : Prop where
  one_le : 1 ≤ lastPid
  lt_nextSafe : lastPid < nextSafe
  nextSafe_le : nextSafe ≤ MAX_PID
  apart : ∀ le ∈ seen, pidOf procs le < lastPid ∨ nextSafe ≤ pidOf procs le

/-- What `get_pid` relies on between the calls. -/
structure PidCursor (pids : List ℤ) (lastPid nextSafe : ℤ) : Prop where
  one_le : 1 ≤ lastPid
  le_max : lastPid ≤ MAX_PID
  nextSafe_le : nextSafe ≤ MAX_PID
  window : ∀ pid ∈ pids, ¬ (lastPid < pid ∧ pid < nextSafe)

/-- The candidate that follows `pid`. -/
def pidSucc (pid : ℤ) : ℤ := if pid + 1 ≥ MAX_PID then 1 else pid + 1

/-- How far `pid` is from `free` on the cycle of pids. -/
def pidDistance (free pid : ℤ) : ℕ := ((free - pid) % (MAX_PID - 1)).toNat

section Candidates

variable {pid free : ℤ}

theorem one_le_pidSucc (hpid : 1 ≤ pid) : 1 ≤ pidSucc pid := by
  unfold pidSucc
  split <;> omega

theorem pidSucc_lt : pidSucc pid < MAX_PID := by
  unfold pidSucc
  split
  · decide
  · omega

theorem pidSucc_eq (h : pid + 1 < MAX_PID) : pidSucc pid = pid + 1 := if_neg (by omega)

/-- A candidate in use moves towards the free pid and never past it. -/
theorem pidDistance_succ_lt (hpid : 1 ≤ pid) (hmax : pid < MAX_PID) (hfree : 1 ≤ free)
    (hfree_max : free < MAX_PID) (hne : pid ≠ free) :
    pidDistance free (pidSucc pid) < pidDistance free pid := by
  unfold pidDistance pidSucc MAX_PID MAX_PROCESS at *
  split <;> omega

end Candidates

section Scan

variable {links : Links ProcNode} {procs : ℕ → ProcStruct} {pre post nodes : List ProcNode}
  {le : ProcNode} {fuel : ℕ} {lastPid nextSafe pid safe free : ℤ}

theorem Swept.start (hpos : 1 ≤ lastPid) (hmax : lastPid < MAX_PID) :
    Swept procs [] lastPid MAX_PID :=
  ⟨hpos, hmax, le_rfl, by simp⟩

theorem getPidScan_end (hring : Ring links .procList pre) :
    getPidScan links procs (fuel + 1) (pre.getLast?.getD .procList) lastPid nextSafe =
      .ok (lastPid, nextSafe) := by
  have hnext : links.next (pre.getLast?.getD .procList) = .procList :=
    Ring.next_before (show Ring links .procList (pre ++ []) by simpa using hring)
  rw [getPidScan, if_pos hnext]

/-- One node of a sweep: it goes on behind the node, or the candidate moves and it starts over. -/
theorem getPidScan_step (fuel : ℕ) (hring : Ring links .procList (pre ++ le :: post))
    (hswept : Swept procs pre lastPid nextSafe) :
    (∃ lastPid' nextSafe',
      getPidScan links procs (fuel + 1) (pre.getLast?.getD .procList) lastPid nextSafe =
          getPidScan links procs fuel le lastPid' nextSafe' ∧
        Swept procs (pre ++ [le]) lastPid' nextSafe' ∧
        (lastPid' = lastPid ∨ pidOf procs le = lastPid ∧ lastPid' = pidSucc lastPid)) ∨
      pidOf procs le = lastPid ∧
        getPidScan links procs (fuel + 1) (pre.getLast?.getD .procList) lastPid nextSafe =
          getPidScan links procs fuel .procList (pidSucc lastPid) MAX_PID := by
  have hnext : links.next (pre.getLast?.getD .procList) = le := hring.next_before
  have hne : le ≠ .procList := hring.ne_head (by simp)
  obtain ⟨hpos, hlt, hmax, hapart⟩ := hswept
  -- the nodes met before stay out of any smaller window
  have hkeep : ∀ {lastPid' nextSafe' : ℤ}, lastPid ≤ lastPid' → lastPid' < nextSafe' →
      nextSafe' ≤ nextSafe → (pidOf procs le < lastPid' ∨ nextSafe' ≤ pidOf procs le) →
      Swept procs (pre ++ [le]) lastPid' nextSafe' := by
    intro lastPid' nextSafe' hle hlt' hle' hlast
    refine ⟨hpos.trans hle, hlt', hle'.trans hmax, fun other hother ↦ ?_⟩
    rcases List.mem_append.mp hother with hseen | hself
    · exact (hapart other hseen).imp (lt_of_lt_of_le · hle) hle'.trans
    · rw [List.mem_singleton.mp hself]
      exact hlast
  rw [getPidScan, hnext, if_neg hne]
  change (∃ lastPid' nextSafe', (if pidOf procs le = lastPid then _ else _) = _ ∧ _) ∨
    _ ∧ (if pidOf procs le = lastPid then _ else _) = _
  by_cases hused : pidOf procs le = lastPid
  · rw [if_pos hused]
    by_cases hfull : lastPid + 1 ≥ nextSafe
    · exact .inr ⟨hused, if_pos hfull⟩
    · have hsucc : pidSucc lastPid = lastPid + 1 := pidSucc_eq (by omega)
      exact .inl ⟨lastPid + 1, nextSafe, if_neg hfull,
        hkeep (by omega) (by omega) le_rfl (.inl (by omega)), .inr ⟨hused, hsucc.symm⟩⟩
  · rw [if_neg hused]
    by_cases hcut : pidOf procs le > lastPid ∧ nextSafe > pidOf procs le
    · exact .inl ⟨lastPid, pidOf procs le, if_pos hcut,
        hkeep le_rfl hcut.1 hcut.2.le (.inr le_rfl), .inl rfl⟩
    · exact .inl ⟨lastPid, nextSafe, if_neg hcut,
        hkeep le_rfl hlt le_rfl (by omega), .inl rfl⟩

/-- A sweep that comes to its end has kept every listed pid out of the window. -/
theorem getPidScan_sound (hring : Ring links .procList (pre ++ post))
    (hswept : Swept procs pre lastPid nextSafe)
    (hscan : getPidScan links procs fuel (pre.getLast?.getD .procList) lastPid nextSafe =
      .ok (pid, safe)) : Swept procs (pre ++ post) pid safe := by
  induction fuel generalizing pre post lastPid nextSafe with
  | zero => simp [getPidScan] at hscan
  | succ fuel ih =>
    cases post with
    | nil =>
      rw [List.append_nil] at hring ⊢
      rw [getPidScan_end hring] at hscan
      obtain ⟨rfl, rfl⟩ := Prod.mk.inj (Except.ok.inj hscan)
      exact hswept
    | cons le post =>
      rcases getPidScan_step fuel hring hswept with
        ⟨lastPid', nextSafe', hstep, hswept', -⟩ | ⟨-, hstep⟩
      · have hsplit : (pre ++ [le]) ++ post = pre ++ le :: post := by simp
        rw [hstep] at hscan
        rw [← hsplit] at hring ⊢
        exact ih hring hswept' (by simpa using hscan)
      · rw [hstep] at hscan
        have hagain : Swept procs [] (pidSucc lastPid) MAX_PID :=
          .start (one_le_pidSucc hswept.one_le) pidSucc_lt
        have hwhole : Ring links .procList ([] ++ (pre ++ le :: post)) := hring
        have hswept' := ih hwhole hagain hscan
        exact hswept'

/-- With a free pid around, the search ends. The measure is the distance to it, then what is left of
the sweep. -/
theorem getPidScan_returns (hring : Ring links .procList (pre ++ post)) (hfree : 1 ≤ free)
    (hfree_max : free < MAX_PID) (hunused : ∀ le ∈ pre ++ post, pidOf procs le ≠ free)
    (hswept : Swept procs pre lastPid nextSafe)
    (hfuel : pidDistance free lastPid * ((pre ++ post).length + 1) + post.length < fuel) :
    ∃ outcome, getPidScan links procs fuel (pre.getLast?.getD .procList) lastPid nextSafe =
      .ok outcome := by
  induction fuel generalizing pre post lastPid nextSafe with
  | zero => omega
  | succ fuel ih =>
    cases post with
    | nil =>
      rw [List.append_nil] at hring
      exact ⟨_, getPidScan_end hring⟩
    | cons le post =>
      have hcloser : pidOf procs le = lastPid →
          (pidDistance free (pidSucc lastPid) + 1) * ((pre ++ le :: post).length + 1) ≤
            pidDistance free lastPid * ((pre ++ le :: post).length + 1) := by
        intro hused
        have hne : lastPid ≠ free := hused ▸ hunused le (by simp)
        have hmax := lt_of_lt_of_le hswept.lt_nextSafe hswept.nextSafe_le
        exact Nat.mul_le_mul_right _
          (pidDistance_succ_lt hswept.one_le hmax hfree hfree_max hne)
      rw [Nat.succ_mul] at hcloser
      rcases getPidScan_step fuel hring hswept with
        ⟨lastPid', nextSafe', hstep, hswept', hmoved⟩ | ⟨hused, hstep⟩
      · have hsplit : (pre ++ [le]) ++ post = pre ++ le :: post := by simp
        have hrest : pidDistance free lastPid' * ((pre ++ le :: post).length + 1) + post.length <
            fuel := by
          rw [List.length_cons] at hfuel
          rcases hmoved with rfl | ⟨hused, rfl⟩
          · omega
          · have := hcloser hused
            omega
        rw [hstep]
        simpa using ih (hsplit ▸ hring) (hsplit ▸ hunused) hswept' (hsplit ▸ hrest)
      · rw [hstep]
        have hagain : Swept procs [] (pidSucc lastPid) MAX_PID :=
          .start (one_le_pidSucc hswept.one_le) pidSucc_lt
        have hwhole : Ring links .procList ([] ++ (pre ++ le :: post)) := hring
        refine ih hwhole hunused hagain ?_
        have := hcloser hused
        rw [List.nil_append]
        omega

theorem Swept.not_mem (h : Swept procs nodes pid safe) : pid ∉ nodes.map (pidOf procs) := by
  intro hmem
  obtain ⟨le, hle, heq⟩ := List.mem_map.mp hmem
  have hapart := h.apart le hle
  have hlt := h.lt_nextSafe
  omega

/-- With the new process on the list, the cursor is fit for the next call. -/
theorem Swept.cursor (h : Swept procs nodes pid safe) :
    PidCursor (pid :: nodes.map (pidOf procs)) pid safe := by
  refine ⟨h.one_le, h.lt_nextSafe.le.trans h.nextSafe_le, h.nextSafe_le, fun other hother ↦ ?_⟩
  rcases List.mem_cons.mp hother with rfl | hmem
  · omega
  · obtain ⟨le, hle, rfl⟩ := List.mem_map.mp hmem
    have hapart := h.apart le hle
    omega

/-! ## `get_pid` -/

theorem getPid_sound (hring : Ring links .procList nodes)
    (hcursor : PidCursor (nodes.map (pidOf procs)) lastPid nextSafe)
    (hcall : getPid links procs fuel lastPid nextSafe = .ok (pid, safe)) :
    Swept procs nodes pid safe := by
  obtain ⟨hpos, hmax, hle, hwindow⟩ := hcursor
  have hsweep : ∀ {start : ℤ}, 1 ≤ start → start < MAX_PID →
      getPidScan links procs fuel .procList start MAX_PID = .ok (pid, safe) →
      Swept procs nodes pid safe := fun hstart hlt hscan ↦
    getPidScan_sound (show Ring links .procList ([] ++ nodes) from hring) (.start hstart hlt) hscan
  unfold getPid at hcall
  dsimp only at hcall
  split at hcall
  · exact hsweep le_rfl (by decide) hcall
  · rename_i hroom
    split at hcall
    · exact hsweep (by omega) (by omega) hcall
    · -- the window of the last sweep still has room
      rename_i hsafe
      obtain ⟨rfl, rfl⟩ := Prod.mk.inj (Except.ok.inj hcall)
      refine ⟨by omega, by omega, hle, fun le hle' ↦ ?_⟩
      have hout := hwindow _ (List.mem_map_of_mem hle')
      omega

theorem getPid_returns (hring : Ring links .procList nodes) (hfree : 1 ≤ free)
    (hfree_max : free < MAX_PID) (hunused : free ∉ nodes.map (pidOf procs)) (hpos : 1 ≤ lastPid) :
    ∃ least, ∀ fuel ≥ least,
      ∃ outcome, getPid links procs fuel lastPid nextSafe = .ok outcome := by
  have hne : ∀ le ∈ nodes, pidOf procs le ≠ free := fun le hle heq ↦
    hunused (heq ▸ List.mem_map_of_mem hle)
  have hdistance : ∀ pid, pidDistance free pid ≤ MAX_PID.toNat := by
    intro pid
    unfold pidDistance MAX_PID MAX_PROCESS
    omega
  refine ⟨MAX_PID.toNat * (nodes.length + 1) + nodes.length + 1, fun fuel hfuel ↦ ?_⟩
  have hsweep : ∀ {start : ℤ}, 1 ≤ start → start < MAX_PID →
      ∃ outcome, getPidScan links procs fuel .procList start MAX_PID = .ok outcome := by
    intro start hstart hlt
    have hle := Nat.mul_le_mul_right (nodes.length + 1) (hdistance start)
    refine getPidScan_returns (show Ring links .procList ([] ++ nodes) from hring) hfree hfree_max
      hne (.start hstart hlt) ?_
    rw [List.nil_append]
    omega
  unfold getPid
  dsimp only
  split
  · exact hsweep le_rfl (by decide)
  · split
    · exact hsweep (by omega) (by omega)
    · exact ⟨_, rfl⟩

/-- Fewer than all pids are in use. -/
theorem exists_free_pid {pids : List ℤ}
    (hfew : ((Finset.Ico 1 MAX_PID).filter (· ∈ pids)).card < (MAX_PID - 1).toNat) :
    ∃ free, 1 ≤ free ∧ free < MAX_PID ∧ free ∉ pids := by
  by_contra! hall
  have hfull : (Finset.Ico 1 MAX_PID).filter (· ∈ pids) = Finset.Ico 1 MAX_PID := by
    refine Finset.filter_true_of_mem fun pid hpid ↦ ?_
    rw [Finset.mem_Ico] at hpid
    exact hall pid hpid.1 hpid.2
  rw [hfull, Int.card_Ico] at hfew
  exact lt_irrefl _ hfew

end Scan

/-! ## Processes that come and go -/

/-- The process list with the statics of `get_pid`. -/
structure PidWorld where
  links : Links ProcNode
  procs : ℕ → ProcStruct
  members : List ℕ
  lastPid : ℤ
  nextSafe : ℤ

namespace PidWorld

def pids (world : PidWorld) : List ℤ :=
  (world.members.map ProcNode.listLink).map (pidOf world.procs)

inductive Step : PidWorld → PidWorld → Prop
  | create {world : PidWorld} {fuel proc : ℕ} {pid nextSafe : ℤ} (hnew : proc ∉ world.members)
      (hcall : getPid world.links world.procs fuel world.lastPid world.nextSafe =
        .ok (pid, nextSafe)) :
      Step world {
        links := listAdd world.links .procList (.listLink proc)
        procs := Function.update world.procs proc { world.procs proc with pid }
        members := proc :: world.members
        lastPid := pid
        nextSafe }
  | remove {world : PidWorld} {pre post : List ℕ} {proc : ℕ}
      (hmember : world.members = pre ++ proc :: post) :
      Step world { world with
        links := listDel world.links (.listLink proc)
        members := pre ++ post }

/-- The process list and the cursor of `get_pid` are in order. -/
structure Sound (world : PidWorld) : Prop where
  ring : Ring world.links .procList (world.members.map .listLink)
  cursor : PidCursor world.pids world.lastPid world.nextSafe

variable {world world' : PidWorld}

theorem pids_create {proc : ℕ} (fields : ProcStruct) (hnew : proc ∉ world.members) :
    ((proc :: world.members).map ProcNode.listLink).map
        (pidOf (Function.update world.procs proc fields)) = fields.pid :: world.pids := by
  simp only [List.map_cons, pids, List.map_map]
  refine congrArg₂ _ ?_ (List.map_congr_left fun other hother ↦ ?_)
  · simp [pidOf, le2proc]
  · have hne : other ≠ proc := fun heq ↦ hnew (heq ▸ hother)
    simp [pidOf, le2proc, hne]

theorem Step.sound (hstep : Step world world') (h : Sound world) (hnodup : world.pids.Nodup) :
    Sound world' ∧ world'.pids.Nodup := by
  cases hstep with
  | @create fuel proc pid nextSafe hnew hcall =>
    have hswept := getPid_sound h.ring h.cursor hcall
    have hlink : ProcNode.listLink proc ∉ .procList :: world.members.map .listLink := by
      simpa using hnew
    have hpids := pids_create { world.procs proc with pid } hnew
    refine ⟨⟨h.ring.listAdd_head hlink, ?_⟩, ?_⟩
    · exact (congrArg (PidCursor · pid nextSafe) hpids).mpr hswept.cursor
    · exact (congrArg List.Nodup hpids).mpr (List.nodup_cons.mpr ⟨hswept.not_mem, hnodup⟩)
  | @remove pre post proc hmember =>
    have hring := h.ring
    have hcursor := h.cursor
    unfold pids at hcursor hnodup
    rw [hmember, List.map_append, List.map_cons] at hring hcursor hnodup
    have hsub : (((pre ++ post).map ProcNode.listLink).map (pidOf world.procs)).Sublist
        ((pre.map ProcNode.listLink ++ .listLink proc :: post.map ProcNode.listLink).map
          (pidOf world.procs)) := by
      rw [List.map_append]
      exact ((List.sublist_cons_self _ _).append_left _).map _
    refine ⟨⟨?_, ?_⟩, hnodup.sublist hsub⟩
    · rw [List.map_append]
      exact hring.listDel_member
    · exact { hcursor with window := fun pid hpid ↦ hcursor.window pid (hsub.subset hpid) }

theorem Sound.run (h : Sound world) (hnodup : world.pids.Nodup)
    (hrun : Relation.ReflTransGen Step world world') : Sound world' ∧ world'.pids.Nodup := by
  induction hrun with
  | refl => exact ⟨h, hnodup⟩
  | tail _ hstep ih => exact hstep.sound ih.1 ih.2

/-- From any list and cursor in order, `get_pid` ends with a pid that no listed process has and leaves
a cursor in order; distinct pids stay distinct in every run of creations and removals. -/
theorem get_pid_sound (hring : Ring world.links .procList (world.members.map .listLink))
    (hcursor : PidCursor world.pids world.lastPid world.nextSafe) :
    (((Finset.Ico 1 MAX_PID).filter (· ∈ world.pids)).card < (MAX_PID - 1).toNat →
      ∃ least, ∀ fuel ≥ least, ∃ pid nextSafe,
        getPid world.links world.procs fuel world.lastPid world.nextSafe = .ok (pid, nextSafe) ∧
          1 ≤ pid ∧ pid < MAX_PID ∧ pid ∉ world.pids ∧
          PidCursor (pid :: world.pids) pid nextSafe) ∧
      (world.pids.Nodup → ∀ world', Relation.ReflTransGen Step world world' →
        world'.pids.Nodup ∧ Sound world') := by
  refine ⟨fun hfew ↦ ?_, fun hnodup world' hrun ↦ ?_⟩
  · obtain ⟨free, hfree, hfree_max, hunused⟩ := exists_free_pid hfew
    obtain ⟨least, hreturns⟩ := getPid_returns hring hfree hfree_max hunused hcursor.one_le
    refine ⟨least, fun fuel hfuel ↦ ?_⟩
    obtain ⟨⟨pid, nextSafe⟩, hcall⟩ := hreturns fuel hfuel
    have hswept := getPid_sound hring hcursor hcall
    exact ⟨pid, nextSafe, hcall, hswept.one_le,
      lt_of_lt_of_le hswept.lt_nextSafe hswept.nextSafe_le, hswept.not_mem, hswept.cursor⟩
  · exact (Sound.run ⟨hring, hcursor⟩ hnodup hrun).symm

/-- Two processes with the pids 1 and 8191, the cursor just below the second. -/
def sample : PidWorld where
  links := listAdd (listAdd (listInit ⟨id, id⟩ .procList) .procList (.listLink 2)) .procList
    (.listLink 1)
  procs proc := ⟨.PROC_RUNNABLE, if proc = 1 then 8191 else 1, 0, 0, false, 0, 0, 0, 0, 0⟩
  members := [1, 2]
  lastPid := 8190
  nextSafe := 8191

/-- The search wraps round and ends with the pid 2. -/
example : getPid sample.links sample.procs 10 sample.lastPid sample.nextSafe = .ok (2, 8191) := by
  decide

theorem sample_pids : sample.pids = [8191, 1] := rfl

theorem get_pid_sound_wrap : ∃ least, ∀ fuel ≥ least, ∃ pid nextSafe,
    getPid sample.links sample.procs fuel sample.lastPid sample.nextSafe = .ok (pid, nextSafe) ∧
      1 ≤ pid ∧ pid < MAX_PID ∧ pid ∉ [8191, 1] ∧ PidCursor (pid :: [8191, 1]) pid nextSafe := by
  have hring : Ring sample.links .procList (sample.members.map .listLink) :=
    (Ring.listInit.listAdd_head (by simp)).listAdd_head (by simp)
  have hcursor : PidCursor sample.pids sample.lastPid sample.nextSafe := by
    refine ⟨by decide, by decide, by decide, fun pid hpid ↦ ?_⟩
    rw [sample_pids] at hpid
    change ¬ (8190 < pid ∧ pid < 8191)
    omega
  refine (get_pid_sound hring hcursor).1 ?_
  have hcard : ((Finset.Ico 1 MAX_PID).filter (· ∈ sample.pids)).card ≤ 2 := by
    refine (Finset.card_le_card (t := {8191, 1}) fun pid hpid ↦ ?_).trans (by decide)
    have hmem := (Finset.mem_filter.mp hpid).2
    rw [sample_pids] at hmem
    simpa using hmem
  exact lt_of_le_of_lt hcard (by decide)

end PidWorld

end Ucore
