import Ucore.Foundation.Cyclic
import Ucore.Process.ForkRuns

/-!
# Which process `schedule` selects

`schedule` walks the ring from behind the current process. It skips the list head and comes to the
current process last; the idle process is what remains when nobody is runnable. While states and list
stay as they are, the calls go round the runnable processes.
-/

namespace Ucore

open Foundation Rv64

variable {allocator : PageAllocator} {kernel kernel' selected : Kernel allocator}
  {members : List ℕ} {proc fuel : ℕ}

/-- `idleproc` is not on `proc_list`, whose entries are processes. -/
structure Schedulable (kernel : Kernel allocator) (members : List ℕ) : Prop where
  list : Ring kernel.links .procList (members.map .listLink)
  nonnull : ∀ proc ∈ members, proc ≠ 0
  idle : kernel.idleproc ∉ members
  current : kernel.current ∈ kernel.idleproc :: members

/-- The processes from behind `current` on, from the list head when the idle process runs. -/
def scheduleOrder (kernel : Kernel allocator) (members : List ℕ) : List ℕ :=
  if kernel.current = kernel.idleproc then members else after members kernel.current

def runnable (kernel : Kernel allocator) (proc : ℕ) : Bool :=
  (kernel.procs proc).state = .PROC_RUNNABLE

theorem Schedulable.nodup (h : Schedulable kernel members) : members.Nodup :=
  List.Nodup.of_map _ (List.nodup_cons.mp h.list.nodup).2

theorem scheduleOrder_isRotated : scheduleOrder kernel members ~r members := by
  unfold scheduleOrder
  split_ifs
  · exact List.IsRotated.refl members
  · exact after_isRotated

/-- The registry of every run is one that `schedule` can walk. -/
theorem ProcWorld.Reachable.schedulable {image : ProcImage} {world : ProcWorld allocator}
    (hworld : world.Reachable image) (hcorrect : allocator.Correct image.Usable) :
    ∃ members, Schedulable world.kernel members := by
  obtain ⟨members, boot, blocks, entries, grown, h⟩ := hworld.sound hcorrect
  refine ⟨members, h.registry.list, h.registry.nonnull, fun hidle ↦ ?_, h.current⟩
  -- the block of `idleproc` would be live twice
  have hlive := (List.pairwise_append.mp h.heap.slob.apart).1
  have hblocks := (List.pairwise_append.mp hlive).2.1
  have hself := (List.pairwise_append.mp hblocks).2.2 _ (List.mem_map_of_mem hidle) _ h.idle.2.2
  have hcell : (procBlock world.kernel.idleproc).start ∈
      (procBlock world.kernel.idleproc).cells :=
    Block.mem_cells_mk.mpr ⟨le_rfl, Nat.lt_add_of_pos_right (by decide)⟩
  exact Set.disjoint_left.mp hself hcell hcell

/-! ## The walk -/

/-- The process of an entry that is not the list head. -/
def listedProc (node : ProcNode) : Option ℕ := if node ≠ .procList then some (le2proc node) else none

section Walk

variable {links : Links ProcNode} {procs : ℕ → ProcStruct} {last le : ProcNode} {next : ℕ}

/-- The walk passes over the list head. -/
theorem scheduleScan_head (hhead : listedProc (links.next le) = none) :
    scheduleScan links procs last (fuel + 1) le next =
      if links.next le ≠ last then scheduleScan links procs last fuel (links.next le) next
      else .ok next := by
  have hentry : links.next le = .procList := by
    by_contra hne
    simp [listedProc, hne] at hhead
  rw [scheduleScan]
  simp [hentry]

theorem scheduleScan_process (hlisted : listedProc (links.next le) = some proc) :
    scheduleScan links procs last (fuel + 1) le next =
      if (procs proc).state = .PROC_RUNNABLE then .ok proc
      else if links.next le ≠ last then scheduleScan links procs last fuel (links.next le) proc
      else .ok proc := by
  obtain ⟨hentry, rfl⟩ : links.next le ≠ .procList ∧ le2proc (links.next le) = proc := by
    by_cases hhead : links.next le = .procList
    · simp [listedProc, hhead] at hlisted
    · simpa [listedProc, hhead] using hlisted
  rw [scheduleScan]
  simp [hentry]

/-- What a walk over `visited` that began with `next` ends with. -/
def Meets (procs : ℕ → ProcStruct) (visited : List ℕ) (next found : ℕ) : Prop :=
  visited.find? (fun proc ↦ (procs proc).state = .PROC_RUNNABLE) = some found ∨
    (∀ proc ∈ visited, (procs proc).state ≠ .PROC_RUNNABLE) ∧ (found = next ∨ found ∈ visited)

theorem Meets.skip {visited : List ℕ} {found : ℕ} (hstate : (procs proc).state ≠ .PROC_RUNNABLE)
    (h : Meets procs visited proc found) : Meets procs (proc :: visited) next found := by
  rcases h with hfound | ⟨hnone, hlast⟩
  · left
    rwa [List.find?_cons_of_neg (by simpa using hstate)]
  · refine .inr ⟨List.forall_mem_cons.mpr ⟨hstate, hnone⟩, .inr ?_⟩
    rcases hlast with rfl | hmem
    · exact List.mem_cons_self
    · exact List.mem_cons_of_mem _ hmem

/-- The walk over the rest of a ring, which ends at the entry where it began. -/
theorem scheduleScan_walk {pre post : List ProcNode} (procs : ℕ → ProcStruct)
    (hring : Ring links last (pre ++ post)) (next : ℕ) (hfuel : post.length < fuel) :
    ∃ found, scheduleScan links procs last fuel (pre.getLast?.getD last) next = .ok found ∧
      Meets procs ((post ++ [last]).filterMap listedProc) next found := by
  induction post generalizing pre fuel next with
  | nil =>
    obtain ⟨fuel, rfl⟩ := Nat.exists_eq_add_one_of_ne_zero (Nat.ne_zero_of_lt hfuel)
    have hback : links.next (pre.getLast?.getD last) = last := hring.next_before
    cases hlisted : listedProc last with
    | none =>
      refine ⟨next, ?_, .inr ⟨by simp [hlisted], .inl rfl⟩⟩
      rw [scheduleScan_head (by rwa [hback]), if_neg (not_not_intro hback)]
    | some proc =>
      refine ⟨proc, ?_, ?_⟩
      · rw [scheduleScan_process (by rwa [hback]), if_neg (not_not_intro hback), ite_self]
      · by_cases hstate : (procs proc).state = .PROC_RUNNABLE
        · left
          simp [hlisted, hstate]
        · exact .inr ⟨by simp [hlisted, hstate], .inr (by simp [hlisted])⟩
  | cons following post ih =>
    obtain ⟨fuel, rfl⟩ := Nat.exists_eq_add_one_of_ne_zero (Nat.ne_zero_of_lt hfuel)
    have hnext : links.next (pre.getLast?.getD last) = following := hring.next_before
    have hne : following ≠ last := hring.ne_head (by simp)
    have hsplit : Ring links last ((pre ++ [following]) ++ post) := by simpa using hring
    have hrest : ∀ next, ∃ found, scheduleScan links procs last fuel following next = .ok found ∧
        Meets procs ((post ++ [last]).filterMap listedProc) next found := by
      intro next
      have hwalk := ih hsplit next (Nat.lt_of_succ_lt_succ hfuel)
      rwa [List.getLast?_concat, Option.getD_some] at hwalk
    cases hlisted : listedProc following with
    | none =>
      obtain ⟨found, hscan, hmeets⟩ := hrest next
      refine ⟨found, ?_, ?_⟩
      · rw [scheduleScan_head (hnext ▸ hlisted), hnext, if_pos hne, hscan]
      · rwa [List.cons_append, List.filterMap_cons_none hlisted]
    | some proc =>
      rw [List.cons_append, List.filterMap_cons_some hlisted,
        scheduleScan_process (hnext ▸ hlisted), hnext, if_pos hne]
      by_cases hstate : (procs proc).state = .PROC_RUNNABLE
      · exact ⟨proc, if_pos hstate, .inl (by simp [hstate])⟩
      · obtain ⟨found, hscan, hmeets⟩ := hrest proc
        exact ⟨found, (if_neg hstate).trans hscan, hmeets.skip hstate⟩

end Walk

/-! ## The selection -/

theorem scheduleScan_mono {links : Links ProcNode} {procs : ℕ → ProcStruct} {last le : ProcNode}
    {next found more : ℕ} (h : scheduleScan links procs last fuel le next = .ok found)
    (hle : fuel ≤ more) : scheduleScan links procs last more le next = .ok found := by
  induction fuel generalizing le next more with
  | zero => cases h
  | succ fuel ih =>
    obtain ⟨more, rfl⟩ := Nat.exists_eq_add_one_of_ne_zero (Nat.ne_zero_of_lt hle)
    have hrest := Nat.le_of_succ_le_succ hle
    rw [scheduleScan] at h ⊢
    split_ifs at h ⊢
    all_goals first | exact h | exact ih h hrest

theorem scheduleNext_mono {next more : ℕ} (h : scheduleNext fuel kernel = .ok next)
    (hle : fuel ≤ more) : scheduleNext more kernel = .ok next := by
  obtain ⟨found, hscan, hfound⟩ := bind_eq_ok.mp h
  exact bind_eq_ok.mpr ⟨found, scheduleScan_mono hscan hle, hfound⟩

theorem schedule_mono {x : Register → BitVec 64} {more : ℕ}
    (h : schedule fuel kernel x = .ok kernel') (hle : fuel ≤ more) :
    schedule more kernel x = .ok kernel' := by
  obtain ⟨selection, hselect, hswitch⟩ := bind_eq_ok.mp h
  obtain ⟨next, hnext, hselected⟩ := bind_eq_ok.mp hselect
  refine bind_eq_ok.mpr ⟨selection, ?_, hswitch⟩
  exact bind_eq_ok.mpr ⟨next, scheduleNext_mono hnext hle, hselected⟩

theorem listedProc_members (procs : List ℕ) :
    (procs.map ProcNode.listLink).filterMap listedProc = procs := by
  rw [List.filterMap_map]
  exact List.filterMap_some

/-- The entry behind which the walk begins. -/
def scheduleLast (kernel : Kernel allocator) : ProcNode :=
  if kernel.current = kernel.idleproc then .procList else .listLink kernel.current

theorem Schedulable.scan (h : Schedulable kernel members) (hfuel : members.length < fuel) :
    ∃ found, scheduleScan kernel.links kernel.procs (scheduleLast kernel) fuel
        (scheduleLast kernel) 0 = .ok found ∧
      Meets kernel.procs (scheduleOrder kernel members) 0 found := by
  unfold scheduleLast scheduleOrder
  by_cases hidle : kernel.current = kernel.idleproc
  · rw [if_pos hidle, if_pos hidle]
    have hring : Ring kernel.links .procList ([] ++ members.map .listLink) := h.list
    obtain ⟨found, hscan, hmeets⟩ :=
      scheduleScan_walk kernel.procs hring 0 (by simpa using hfuel)
    refine ⟨found, hscan, ?_⟩
    rw [List.filterMap_append, listedProc_members] at hmeets
    simpa [listedProc] using hmeets
  · rw [if_neg hidle, if_neg hidle]
    have hmem : kernel.current ∈ members := List.mem_of_ne_of_mem hidle h.current
    obtain ⟨pre, post, hmembers⟩ := List.append_of_mem hmem
    have hnodup := hmembers ▸ h.nodup
    have hfresh : kernel.current ∉ pre := fun hin ↦
      (List.nodup_append.mp hnodup).2.2 _ hin _ List.mem_cons_self rfl
    have hlist : Ring kernel.links .procList
        (pre.map .listLink ++ ProcNode.listLink kernel.current :: post.map .listLink) := by
      simpa [hmembers] using h.list
    have hring : Ring kernel.links (.listLink kernel.current)
        ([] ++ (post.map .listLink ++ ProcNode.procList :: pre.map .listLink)) := hlist.rotate
    have hwalk : (post.map ProcNode.listLink ++ ProcNode.procList :: pre.map .listLink).length <
        fuel := by
      have hlength : members.length = pre.length + (post.length + 1) := by simp [hmembers]
      simp only [List.length_append, List.length_map, List.length_cons]
      omega
    obtain ⟨found, hscan, hmeets⟩ := scheduleScan_walk kernel.procs hring 0 hwalk
    refine ⟨found, hscan, ?_⟩
    rw [hmembers, after_append hfresh]
    rw [List.filterMap_append, List.filterMap_append, List.filterMap_cons_none (by rfl),
      listedProc_members, listedProc_members] at hmeets
    exact hmeets

theorem Schedulable.scheduleNext_eq (h : Schedulable kernel members) (hfuel : members.length < fuel) :
    scheduleNext fuel kernel =
      .ok (((scheduleOrder kernel members).find? (runnable kernel)).getD kernel.idleproc) := by
  obtain ⟨found, hscan, hmeets⟩ := h.scan hfuel
  have hcall : scheduleNext fuel kernel =
      .ok (if found = 0 ∨ (kernel.procs found).state ≠ .PROC_RUNNABLE then kernel.idleproc
        else found) := by
    unfold scheduleLast at hscan
    unfold scheduleNext
    dsimp only
    rw [hscan, ok_bind]
    split_ifs <;> rfl
  rw [hcall]
  rcases hmeets with hfound | ⟨hnone, hlast⟩
  · have hrunnable : (kernel.procs found).state = .PROC_RUNNABLE := by
      simpa using List.find?_some hfound
    have hmem : found ∈ members :=
      scheduleOrder_isRotated.mem_iff.mp (List.mem_of_find?_eq_some hfound)
    have hfind : (scheduleOrder kernel members).find? (runnable kernel) = some found := hfound
    rw [hfind, if_neg (by simp [hrunnable, h.nonnull found hmem])]
    rfl
  · have hfind : (scheduleOrder kernel members).find? (runnable kernel) = none :=
      List.find?_eq_none.mpr fun proc hproc ↦ by simpa [runnable] using hnone proc hproc
    rw [hfind, if_pos]
    · rfl
    · rcases hlast with rfl | hmem
      · exact .inl rfl
      · exact .inr (hnone found hmem)

/-- What a selection writes: `runs` of the selected process and `need_resched` of the caller. -/
def accounted (kernel : Kernel allocator) (next proc : ℕ) : ProcStruct :=
  { kernel.procs proc with
    runs := if proc = next then (kernel.procs proc).runs + 1 else (kernel.procs proc).runs
    needResched := if proc = kernel.current then false else (kernel.procs proc).needResched }

/-- The kernel after `current->need_resched = 0`. -/
def answered (kernel : Kernel allocator) : Kernel allocator :=
  kernel.setProc kernel.current { kernel.procs kernel.current with needResched := false }

theorem answered_procs : (answered kernel).procs proc = { kernel.procs proc with
    needResched := if proc = kernel.current then false else (kernel.procs proc).needResched } := by
  by_cases hcurrent : proc = kernel.current
  · subst hcurrent
    simp [answered, Kernel.setProc]
  · simp [answered, Kernel.setProc, hcurrent]

theorem setProc_answered (next : ℕ) : (answered kernel).setProc next
    { (answered kernel).procs next with runs := ((answered kernel).procs next).runs + 1 } =
      { kernel with procs := accounted kernel next } := by
  have hprocs : Function.update (answered kernel).procs next
      { (answered kernel).procs next with runs := ((answered kernel).procs next).runs + 1 } =
        accounted kernel next := by
    funext proc
    by_cases hnext : proc = next
    · subst hnext
      rw [Function.update_self, answered_procs, accounted, if_pos rfl]
    · rw [Function.update_of_ne hnext, answered_procs, accounted, if_neg hnext]
  exact congrArg (fun procs ↦ { kernel with procs }) hprocs

theorem Schedulable.scheduleSelect_eq (h : Schedulable kernel members)
    (hfuel : members.length < fuel) :
    let next := ((scheduleOrder kernel members).find? (runnable kernel)).getD kernel.idleproc
    scheduleSelect fuel kernel = .ok (next, { kernel with procs := accounted kernel next }) := by
  intro next
  have hrunnable : runnable (answered kernel) = runnable kernel := by
    funext proc
    unfold runnable
    rw [answered_procs]
  have hanswered : Schedulable (answered kernel) members := ⟨h.list, h.nonnull, h.idle, h.current⟩
  have hnext : scheduleNext fuel (answered kernel) = .ok next := by
    rw [hanswered.scheduleNext_eq hfuel, hrunnable]
    rfl
  calc
    scheduleSelect fuel kernel = (scheduleNext fuel (answered kernel) >>= fun next ↦
      .ok (next, (answered kernel).setProc next { (answered kernel).procs next with
        runs := ((answered kernel).procs next).runs + 1 })) := rfl
    _ = .ok (next, (answered kernel).setProc next { (answered kernel).procs next with
        runs := ((answered kernel).procs next).runs + 1 }) := by
      rw [hnext, ok_bind]
    _ = .ok (next, { kernel with procs := accounted kernel next }) := by
      rw [setProc_answered]

/-- What `schedule` leaves when it selects `next`: `proc_run` is called for another process only. -/
def scheduled (kernel : Kernel allocator) (next : ℕ) (x : Register → BitVec 64) :
    Kernel allocator :=
  let selected := { kernel with procs := accounted kernel next }
  if next = kernel.current then selected
  else (procRunEnter selected next).1.setMem
    (saveContext kernel.heap.mem (contextOf kernel.current) x)

theorem scheduled_fields (kernel : Kernel allocator) (next : ℕ) (x : Register → BitVec 64) :
    (scheduled kernel next x).procs = accounted kernel next ∧
      (scheduled kernel next x).current = next ∧
      (scheduled kernel next x).links = kernel.links ∧
      (scheduled kernel next x).idleproc = kernel.idleproc := by
  unfold scheduled
  by_cases hsame : next = kernel.current
  · rw [if_pos hsame]
    exact ⟨rfl, hsame.symm, rfl, rfl⟩
  · rw [if_neg hsame]
    exact ⟨rfl, rfl, rfl, rfl⟩

theorem Schedulable.schedule_eq (h : Schedulable kernel members) (hfuel : members.length < fuel)
    (x : Register → BitVec 64) :
    schedule fuel kernel x = .ok (scheduled kernel
      (((scheduleOrder kernel members).find? (runnable kernel)).getD kernel.idleproc) x) := by
  unfold schedule scheduled
  rw [h.scheduleSelect_eq hfuel, ok_bind]
  dsimp only
  split_ifs <;> rfl

/-- The first runnable process behind the current one, else the idle process. -/
theorem Schedulable.choice (h : Schedulable kernel members) :
    ∃ next, ((scheduleOrder kernel members).find? (runnable kernel)).getD kernel.idleproc = next ∧
      ((∃ pre post, scheduleOrder kernel members = pre ++ next :: post ∧
          (kernel.procs next).state = .PROC_RUNNABLE ∧
          ∀ proc ∈ pre, (kernel.procs proc).state ≠ .PROC_RUNNABLE) ∨
        next = kernel.idleproc) ∧
      (next = kernel.idleproc ↔
        ∀ proc ∈ members, (kernel.procs proc).state ≠ .PROC_RUNNABLE) := by
  cases hfind : (scheduleOrder kernel members).find? (runnable kernel) with
  | none =>
    refine ⟨kernel.idleproc, rfl, .inr rfl, iff_of_true rfl fun proc hproc ↦ ?_⟩
    have hmem : proc ∈ scheduleOrder kernel members := scheduleOrder_isRotated.mem_iff.mpr hproc
    simpa [runnable] using List.find?_eq_none.mp hfind proc hmem
  | some next =>
    obtain ⟨hstate, pre, post, horder, hpre⟩ := List.find?_eq_some_iff_append.mp hfind
    have hrunnable : (kernel.procs next).state = .PROC_RUNNABLE := of_decide_eq_true hstate
    have hmem : next ∈ members :=
      scheduleOrder_isRotated.mem_iff.mp (List.mem_of_find?_eq_some hfind)
    refine ⟨next, rfl, .inl ⟨pre, post, horder, hrunnable, fun proc hproc ↦ ?_⟩, ?_⟩
    · simpa [runnable] using hpre proc hproc
    · exact iff_of_false (fun hidle ↦ h.idle (hidle ▸ hmem)) fun hnone ↦ hnone next hmem hrunnable

/-- `schedule` returns. It selects the first runnable process of the ring behind the current one, which
comes last; the idle process is selected when there is none. Only `runs` of the selected process and
`need_resched` of the caller change, and `proc_run` is called for another process only. -/
theorem schedule_selects (h : Schedulable kernel members) (x : Register → BitVec 64) :
    ∃ least, ∀ fuel ≥ least, ∃ next,
      scheduleSelect fuel kernel = .ok (next, { kernel with procs := accounted kernel next }) ∧
      schedule fuel kernel x = .ok (scheduled kernel next x) ∧
      ((∃ pre post, scheduleOrder kernel members = pre ++ next :: post ∧
          (kernel.procs next).state = .PROC_RUNNABLE ∧
          ∀ proc ∈ pre, (kernel.procs proc).state ≠ .PROC_RUNNABLE) ∨
        next = kernel.idleproc) ∧
      (next = kernel.idleproc ↔
        ∀ proc ∈ members, (kernel.procs proc).state ≠ .PROC_RUNNABLE) := by
  obtain ⟨next, hnext, hfirst, hidle⟩ := h.choice
  refine ⟨members.length + 1, fun fuel hfuel ↦ ⟨next, ?_, ?_, hfirst, hidle⟩⟩
  · rw [h.scheduleSelect_eq hfuel, hnext]
  · rw [h.schedule_eq hfuel, hnext]

/-- Three processes on the list; the second one sleeps. -/
def sampleRing : Kernel (PageAllocator.firstFit 0x20A 16) :=
  { ProcWorld.sampleKernel 16 with
    procs := fun proc ↦ { freshProc ProcWorld.sampleImage with
      state := if proc = 0x2000 then .PROC_SLEEPING else .PROC_RUNNABLE }
    links := listAdd (listAdd (listAdd (listInit ⟨id, id⟩ .procList) .procList (.listLink 0x1000))
      .procList (.listLink 0x2000)) .procList (.listLink 0x3000)
    idleproc := 0x4000
    current := 0x3000 }

theorem sampleRing_schedulable : Schedulable sampleRing [0x3000, 0x2000, 0x1000] := by
  have hempty : Ring (listInit ⟨id, id⟩ .procList) ProcNode.procList [] :=
    Ring.nil_iff.mpr (by decide)
  have hfirst : Ring (listAdd _ ProcNode.procList (.listLink 0x1000)) .procList
      [.listLink 0x1000] := hempty.listAdd_head (by simp)
  have hsecond : Ring (listAdd _ ProcNode.procList (.listLink 0x2000)) .procList
      [.listLink 0x2000, .listLink 0x1000] := hfirst.listAdd_head (by simp)
  have hthird : Ring (listAdd _ ProcNode.procList (.listLink 0x3000)) .procList
      [.listLink 0x3000, .listLink 0x2000, .listLink 0x1000] := hsecond.listAdd_head (by simp)
  exact ⟨hthird, by decide, by decide, by decide⟩

/-- The sleeping process is passed over. -/
theorem schedule_selects_sample : ∃ fuel kernel',
    schedule fuel sampleRing (fun _ ↦ 0) = .ok kernel' ∧ kernel'.current = 0x1000 ∧
      (kernel'.procs 0x1000).runs = 1 ∧ (kernel'.procs 0x3000).runs = 0 := by
  obtain ⟨least, hcall⟩ := schedule_selects sampleRing_schedulable (fun _ ↦ 0)
  obtain ⟨next, -, hschedule, hfirst, hidle⟩ := hcall least le_rfl
  have hbusy : next ≠ sampleRing.idleproc := fun heq ↦ hidle.mp heq 0x1000 (by decide) rfl
  obtain ⟨pre, post, horder, hstate, hpre⟩ := hfirst.resolve_right hbusy
  have hnext : next = 0x1000 := by
    have hwalk : [0x2000, 0x1000, 0x3000] = pre ++ next :: post := horder
    match pre, hwalk with
    | [], hwalk =>
      obtain rfl := (List.cons.inj hwalk).1
      exact absurd hstate (by decide)
    | [_], hwalk => exact ((List.cons.inj (List.cons.inj hwalk).2).1).symm
    | _ :: second :: _, hwalk =>
      obtain rfl := (List.cons.inj (List.cons.inj hwalk).2).1
      exact absurd rfl (hpre 0x1000 (by simp))
  subst hnext
  refine ⟨least, _, hschedule, (scheduled_fields _ _ _).2.1, ?_, ?_⟩
  · rw [(scheduled_fields _ _ _).1]
    rfl
  · rw [(scheduled_fields _ _ _).1]
    rfl

/-! ## Going round -/

/-- What may happen between two calls: states, list and `runs` of the processes stay. -/
structure Undisturbed (members : List ℕ) (kernel kernel' : Kernel allocator) : Prop where
  list : Ring kernel'.links .procList (members.map .listLink)
  state : ∀ proc ∈ members, (kernel'.procs proc).state = (kernel.procs proc).state
  runs : ∀ proc ∈ members, (kernel'.procs proc).runs = (kernel.procs proc).runs
  idleproc : kernel'.idleproc = kernel.idleproc
  current : kernel'.current = kernel.current

/-- Calls of `schedule` one after the other, with the processes that they select. -/
inductive ScheduleRun (members : List ℕ) :
    Kernel allocator → List ℕ → Kernel allocator → Prop
  | stop {kernel : Kernel allocator} : ScheduleRun members kernel [] kernel
  | call {kernel kernel₁ kernel₂ kernel₃ : Kernel allocator} {fuel : ℕ} {x : Register → BitVec 64}
      {selected : List ℕ} (hcall : schedule fuel kernel x = .ok kernel₁)
      (hquiet : Undisturbed members kernel₁ kernel₂)
      (hrest : ScheduleRun members kernel₂ selected kernel₃) :
      ScheduleRun members kernel (kernel₁.current :: selected) kernel₃

/-- The runnable processes in the order in which they will be selected. -/
def turnsOf (kernel : Kernel allocator) (members : List ℕ) : List ℕ :=
  (scheduleOrder kernel members).filter (runnable kernel)

theorem turnsOf_isRotated : turnsOf kernel members ~r members.filter (runnable kernel) :=
  filter_isRotated _ scheduleOrder_isRotated

theorem turnsOf_nodup (h : Schedulable kernel members) : (turnsOf kernel members).Nodup :=
  (turnsOf_isRotated.nodup_iff).mpr (h.nodup.filter _)

theorem mem_turnsOf : proc ∈ turnsOf kernel members ↔
    proc ∈ members ∧ (kernel.procs proc).state = .PROC_RUNNABLE := by
  rw [turnsOf_isRotated.mem_iff, List.mem_filter]
  simp [runnable]

/-- A call serves the first in turn, who goes to the end of the line. -/
theorem Schedulable.call {kernel₁ kernel₂ : Kernel allocator} {x : Register → BitVec 64}
    (h : Schedulable kernel members) (hsome : turnsOf kernel members ≠ [])
    (hcall : schedule fuel kernel x = .ok kernel₁) (hquiet : Undisturbed members kernel₁ kernel₂) :
    (turnsOf kernel members).head? = some kernel₁.current ∧ Schedulable kernel₂ members ∧
      turnsOf kernel₂ members = (turnsOf kernel members).rotate 1 ∧
      ∀ proc ∈ members, (kernel₂.procs proc).runs =
        (kernel.procs proc).runs + if proc = kernel₁.current then 1#32 else 0#32 := by
  obtain ⟨next, hnext⟩ : ∃ next,
      (scheduleOrder kernel members).find? (runnable kernel) = some next := by
    obtain ⟨proc, hproc⟩ := List.exists_mem_of_ne_nil _ hsome
    obtain ⟨hmem, hstate⟩ := List.mem_filter.mp hproc
    exact Option.isSome_iff_exists.mp (List.find?_isSome.mpr ⟨proc, hmem, hstate⟩)
  have hmem : next ∈ members :=
    scheduleOrder_isRotated.mem_iff.mp (List.mem_of_find?_eq_some hnext)
  obtain rfl : kernel₁ = scheduled kernel next x := by
    have hmore := schedule_mono hcall (Nat.le_add_right fuel (members.length + 1))
    rw [h.schedule_eq (by omega), hnext] at hmore
    exact (Except.ok.inj hmore).symm
  obtain ⟨hprocs, hcurrent, -, hidle⟩ := scheduled_fields kernel next x
  have hcurrent₂ : kernel₂.current = next := hquiet.current.trans hcurrent
  have hidle₂ : kernel₂.idleproc = kernel.idleproc := hquiet.idleproc.trans hidle
  have hne : next ≠ kernel.idleproc := fun heq ↦ h.idle (heq ▸ hmem)
  have hstates : ∀ proc ∈ members, runnable kernel₂ proc = runnable kernel proc := by
    intro proc hproc
    unfold runnable
    rw [hquiet.state proc hproc, hprocs]
    rfl
  refine ⟨?_, ⟨hquiet.list, h.nonnull, hidle₂ ▸ h.idle, ?_⟩, ?_, fun proc hproc ↦ ?_⟩
  · rw [hcurrent, turnsOf, List.head?_filter, hnext]
  · rw [hcurrent₂]
    exact List.mem_cons_of_mem _ hmem
  · have horder : scheduleOrder kernel₂ members = after members next := by
      rw [scheduleOrder, hcurrent₂, hidle₂, if_neg hne]
    calc
      turnsOf kernel₂ members = (after members next).filter (runnable kernel) := by
        rw [turnsOf, horder]
        exact List.filter_congr fun proc hproc ↦ hstates proc (after_isRotated.mem_iff.mp hproc)
      _ = (turnsOf kernel members).rotate 1 := after_served scheduleOrder_isRotated h.nodup hnext
  · rw [hquiet.runs proc hproc, hprocs, hcurrent]
    unfold accounted
    by_cases hsame : proc = next
    · rw [if_pos hsame, if_pos hsame]
      rfl
    · rw [if_neg hsame, if_neg hsame, BitVec.add_zero]

/-- A run of calls goes round the runnable processes. -/
theorem ScheduleRun.selected_eq {selected : List ℕ} (h : Schedulable kernel members)
    (hsome : turnsOf kernel members ≠ []) (hrun : ScheduleRun members kernel selected kernel') :
    selected = cyclic (turnsOf kernel members) selected.length ∧ Schedulable kernel' members ∧
      ∀ proc ∈ members, (kernel'.procs proc).runs =
        (kernel.procs proc).runs + BitVec.ofNat 32 (selected.count proc) := by
  induction hrun with
  | stop => exact ⟨rfl, h, fun proc _ ↦ (BitVec.add_zero _).symm⟩
  | @call _ kernel₁ kernel₂ _ _ _ _ hcall hquiet _ ih =>
    obtain ⟨hhead, hschedulable, hturns, hruns⟩ := h.call hsome hcall hquiet
    have hsome' : turnsOf kernel₂ members ≠ [] := by
      rw [hturns]
      exact fun hnil ↦ hsome (List.rotate_eq_nil_iff.mp hnil)
    obtain ⟨hselected, hlast, hcounts⟩ := ih hschedulable hsome'
    refine ⟨?_, hlast, fun proc hproc ↦ ?_⟩
    · rw [List.length_cons, cyclic, hhead, ← hturns, ← hselected]
      rfl
    · rw [hcounts proc hproc, hruns proc hproc]
      by_cases hserved : proc = kernel₁.current
      · rw [if_pos hserved, hserved, List.count_cons_self, Nat.add_comm, BitVec.ofNat_add,
          BitVec.add_assoc]
      · rw [if_neg hserved, List.count_cons_of_ne (Ne.symm hserved), BitVec.add_zero]

/-- The calls go round the runnable processes: the first round serves each of them once, in ring order
from behind the current process on, and the others repeat it. `runs` is an `int`. -/
structure GoesRound (kernel : Kernel allocator) (members selected : List ℕ)
    (kernel' : Kernel allocator) : Prop where
  order : turnsOf kernel members ~r members.filter (runnable kernel)
  turns : ∀ turn < selected.length,
    selected[turn]? = (turnsOf kernel members)[turn % (turnsOf kernel members).length]?
  round : selected.length = (turnsOf kernel members).length → selected = turnsOf kernel members
  counted : ∀ rounds, selected.length = rounds * (turnsOf kernel members).length →
    ∀ proc ∈ members, (kernel.procs proc).state = .PROC_RUNNABLE →
      (kernel'.procs proc).runs = (kernel.procs proc).runs + BitVec.ofNat 32 rounds

/-- After some rounds `runs` has grown by their number. -/
def CountsRounds (kernel : Kernel allocator) (members selected : List ℕ) (kernel' : Kernel allocator) :
    Prop :=
  ∀ rounds : ℕ, selected.length = rounds * (turnsOf kernel members).length →
    ∀ proc ∈ members, (kernel.procs proc).state = .PROC_RUNNABLE →
      (kernel'.procs proc).runs.toInt = (kernel.procs proc).runs.toInt + rounds

theorem ScheduleRun.goesRound {selected : List ℕ} (h : Schedulable kernel members)
    (hsome : turnsOf kernel members ≠ []) (hrun : ScheduleRun members kernel selected kernel') :
    GoesRound kernel members selected kernel' := by
  obtain ⟨hselected, -, hcounts⟩ := hrun.selected_eq h hsome
  refine ⟨turnsOf_isRotated, fun turn hturn ↦ ?_, fun hround ↦ ?_,
    fun rounds hrounds proc hproc hrunnable ↦ ?_⟩
  · calc
      selected[turn]? = (cyclic (turnsOf kernel members) selected.length)[turn]? := by
        rw [← hselected]
      _ = _ := getElem?_cyclic hsome hturn
  · calc
      selected = cyclic (turnsOf kernel members) (1 * (turnsOf kernel members).length) := by
        rw [Nat.one_mul, ← hround, ← hselected]
      _ = turnsOf kernel members := by
        rw [cyclic_rounds]
        simp
  · have hcount := count_cyclic_rounds (turnsOf_nodup h)
      (mem_turnsOf.mpr ⟨hproc, hrunnable⟩) rounds
    rw [hcounts proc hproc, hselected, hrounds, hcount]

/-- The calls select the runnable processes in turn, beginning behind the current process and in ring
order, and go round and round; every call returns. A round adds one to `runs` of each of them, which is
the number of rounds exactly while it is an `int`. -/
theorem schedule_rounds_iff {selected : List ℕ} (h : Schedulable kernel members)
    (hsome : ∃ proc ∈ members, (kernel.procs proc).state = .PROC_RUNNABLE)
    (hrun : ScheduleRun members kernel selected kernel') :
    GoesRound kernel members selected kernel' ∧
      (∀ x, ∃ least, ∀ fuel ≥ least, ∃ next, schedule fuel kernel' x = .ok next) ∧
      (CountsRounds kernel members selected kernel' ↔
        ∀ rounds : ℕ, selected.length = rounds * (turnsOf kernel members).length →
          ∀ proc ∈ members, (kernel.procs proc).state = .PROC_RUNNABLE →
            (kernel.procs proc).runs.toInt + rounds < 2 ^ 31) := by
  obtain ⟨first, hfirst, hstate⟩ := hsome
  have hnonempty : turnsOf kernel members ≠ [] :=
    List.ne_nil_of_mem (mem_turnsOf.mpr ⟨hfirst, hstate⟩)
  have hround := hrun.goesRound h hnonempty
  obtain ⟨-, hlast, -⟩ := hrun.selected_eq h hnonempty
  refine ⟨hround, fun x ↦ ⟨members.length + 1, fun fuel hfuel ↦ ⟨_, hlast.schedule_eq hfuel x⟩⟩, ?_⟩
  constructor
  · intro hcounts rounds hrounds proc hproc hrunnable
    have hexact := hcounts rounds hrounds proc hproc hrunnable
    rwa [hround.counted rounds hrounds proc hproc hrunnable, toInt_add_ofNat_iff] at hexact
  · intro hsmall rounds hrounds proc hproc hrunnable
    rw [hround.counted rounds hrounds proc hproc hrunnable]
    exact toInt_add_ofNat_iff.mpr (hsmall rounds hrounds proc hproc hrunnable)

/-- There are runs of any number of calls. -/
theorem Schedulable.exists_run (h : Schedulable kernel members)
    (hsome : turnsOf kernel members ≠ []) (count : ℕ) :
    ∃ selected kernel', ScheduleRun members kernel selected kernel' ∧ selected.length = count := by
  induction count generalizing kernel with
  | zero => exact ⟨[], kernel, .stop, rfl⟩
  | succ count ih =>
    have hcall := h.schedule_eq (Nat.lt_succ_self members.length) (fun _ ↦ 0)
    obtain ⟨next, hnext⟩ : ∃ next, scheduled kernel
        (((scheduleOrder kernel members).find? (runnable kernel)).getD kernel.idleproc)
        (fun _ ↦ 0) = next := ⟨_, rfl⟩
    rw [hnext] at hcall
    have hquiet : Undisturbed members next next := by
      refine ⟨?_, fun _ _ ↦ rfl, fun _ _ ↦ rfl, rfl, rfl⟩
      rw [← hnext, (scheduled_fields _ _ _).2.2.1]
      exact h.list
    obtain ⟨-, hschedulable, hturns, -⟩ := h.call hsome hcall hquiet
    have hsome' : turnsOf next members ≠ [] := by
      rw [hturns]
      exact fun hnil ↦ hsome (List.rotate_eq_nil_iff.mp hnil)
    obtain ⟨selected, kernel', hrun, hlength⟩ := ih hschedulable hsome'
    exact ⟨_, kernel', .call hcall hquiet hrun, by rw [List.length_cons, hlength]⟩

theorem sampleRing_turns : turnsOf sampleRing [0x3000, 0x2000, 0x1000] = [0x1000, 0x3000] := by
  decide +kernel

theorem sampleRing_turns_nonempty : turnsOf sampleRing [0x3000, 0x2000, 0x1000] ≠ [] := by
  rw [sampleRing_turns]
  exact List.cons_ne_nil _ _

/-- Six calls serve each of the two runnable processes three times. -/
theorem schedule_rounds_iff_sample : ∃ selected kernel',
    ScheduleRun [0x3000, 0x2000, 0x1000] sampleRing selected kernel' ∧ selected.length = 6 ∧
      selected[3]? = some 0x3000 ∧ (kernel'.procs 0x1000).runs.toInt = 3 := by
  obtain ⟨selected, kernel', hrun, hlength⟩ :=
    sampleRing_schedulable.exists_run sampleRing_turns_nonempty 6
  obtain ⟨hround, -, hiff⟩ := schedule_rounds_iff sampleRing_schedulable
    ⟨0x1000, by decide, rfl⟩ hrun
  rw [sampleRing_turns] at hiff
  have hcounts : CountsRounds sampleRing [0x3000, 0x2000, 0x1000] selected kernel' := by
    apply hiff.mpr
    intro rounds hrounds proc _ _
    have hthree : rounds = 3 := by
      simp only [hlength, List.length_cons, List.length_nil] at hrounds
      omega
    have hfresh : (sampleRing.procs proc).runs = 0 := rfl
    rw [hthree, hfresh]
    decide
  have hsix : selected.length = 3 * (turnsOf sampleRing [0x3000, 0x2000, 0x1000]).length := by
    rw [hlength, sampleRing_turns]
    rfl
  refine ⟨selected, kernel', hrun, hlength, ?_, ?_⟩
  · rw [hround.turns 3 (by omega), sampleRing_turns]
    rfl
  · exact hcounts 3 hsix 0x1000 (by decide) rfl

/-- After 2³¹ rounds from 0 on `runs` is negative. -/
theorem schedule_rounds_wrap : ¬ ∀ (kernel kernel' : Kernel (PageAllocator.firstFit 0x20A 16))
    (members selected : List ℕ), Schedulable kernel members →
      (∃ proc ∈ members, (kernel.procs proc).state = .PROC_RUNNABLE) →
      ScheduleRun members kernel selected kernel' → CountsRounds kernel members selected kernel' := by
  intro hexact
  obtain ⟨selected, kernel', hrun, hlength⟩ :=
    sampleRing_schedulable.exists_run sampleRing_turns_nonempty (2 ^ 31 * 2)
  have hrounds : selected.length =
      2 ^ 31 * (turnsOf sampleRing [0x3000, 0x2000, 0x1000]).length := by
    rw [hlength, sampleRing_turns]
    rfl
  have hcounts := hexact sampleRing kernel' _ selected sampleRing_schedulable
    ⟨0x1000, by decide, rfl⟩ hrun (2 ^ 31) hrounds 0x1000 (by decide) rfl
  have hlarge := (hrun.goesRound sampleRing_schedulable sampleRing_turns_nonempty).counted (2 ^ 31)
    hrounds 0x1000 (by decide) rfl
  have hfresh : (sampleRing.procs 0x1000).runs = 0 := rfl
  rw [hlarge, hfresh] at hcounts
  revert hcounts
  decide

end Ucore
