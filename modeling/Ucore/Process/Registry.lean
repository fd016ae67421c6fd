import Ucore.Process.Pid

/-!
# The process registry

`Registry kernel members` ties the process list, the hash buckets, the counter and the statics of
`get_pid` to one list of processes, the youngest first. `do_fork` adds a process to all of them;
`find_proc` reads one bucket and finds what a search of the whole list would find.
-/

namespace Ucore

open Foundation

theorem pidHashfn_lt (pid : ℤ) : pidHashfn pid < HASH_LIST_SIZE := by
  unfold pidHashfn hash32 HASH_LIST_SIZE
  rw [BitVec.toNat_ushiftRight, Nat.shiftRight_eq_div_pow]
  have hword := (BitVec.ofInt 32 pid * 0x9e370001).isLt
  unfold HASH_SHIFT
  omega

/-- The processes whose pid hashes to `index`. -/
def bucket (procs : ℕ → ProcStruct) (members : List ℕ) (index : ℕ) : List ℕ :=
  members.filter fun proc ↦ pidHashfn (procs proc).pid = index

def pidsOf (procs : ℕ → ProcStruct) (members : List ℕ) : List ℤ :=
  members.map fun proc ↦ (procs proc).pid

structure Registry {allocator : PageAllocator} (kernel : Kernel allocator) (members : List ℕ) :
    Prop where
  list : Ring kernel.links .procList (members.map .listLink)
  buckets : ∀ index < HASH_LIST_SIZE,
    Ring kernel.links (.hashList index) ((bucket kernel.procs members index).map .hashLink)
  count : kernel.nrProcess = 1 + members.length
  limit : kernel.nrProcess ≤ MAX_PROCESS
  nonnull : ∀ proc ∈ members, proc ≠ 0
  range : ∀ proc ∈ members, 1 ≤ (kernel.procs proc).pid ∧ (kernel.procs proc).pid < MAX_PID
  distinct : (pidsOf kernel.procs members).Nodup
  cursor : PidCursor (pidsOf kernel.procs members) kernel.lastPid kernel.nextSafe

/-- The processes of a kernel: the idle one and those on `proc_list`. -/
def IsProcess {allocator : PageAllocator} (kernel : Kernel allocator) (proc : ℕ) : Prop :=
  proc = kernel.idleproc ∨
    ∃ members : List ℕ, Ring kernel.links .procList (members.map .listLink) ∧ proc ∈ members

section Buckets

variable {procs procs' : ℕ → ProcStruct} {members : List ℕ} {proc index : ℕ}

theorem mem_bucket : proc ∈ bucket procs members index ↔
    proc ∈ members ∧ pidHashfn (procs proc).pid = index := by
  simp [bucket]

theorem bucket_congr (hpids : ∀ proc ∈ members, (procs' proc).pid = (procs proc).pid) :
    bucket procs' members index = bucket procs members index := by
  refine List.filter_congr fun proc hproc ↦ ?_
  rw [hpids proc hproc]

theorem pidsOf_congr (hpids : ∀ proc ∈ members, (procs' proc).pid = (procs proc).pid) :
    pidsOf procs' members = pidsOf procs members := List.map_congr_left hpids

theorem bucket_cons : bucket procs (proc :: members) index =
    if pidHashfn (procs proc).pid = index then proc :: bucket procs members index
    else bucket procs members index := by
  by_cases h : pidHashfn (procs proc).pid = index
  · rw [if_pos h, bucket, List.filter_cons_of_pos (by simpa using h)]
    rfl
  · rw [if_neg h, bucket, List.filter_cons_of_neg (by simpa using h)]
    rfl

end Buckets

namespace Registry

variable {allocator : PageAllocator} {kernel kernel' : Kernel allocator} {members : List ℕ}
  {proc fuel : ℕ}

/-- What `proc_init` sets up before its first fork. -/
theorem empty (hlist : Ring kernel.links .procList [])
    (hbuckets : ∀ index < HASH_LIST_SIZE, Ring kernel.links (.hashList index) [])
    (hcount : kernel.nrProcess = 1) (hlast : kernel.lastPid = MAX_PID)
    (hsafe : kernel.nextSafe = MAX_PID) : Registry kernel [] where
  list := hlist
  buckets := hbuckets
  count := hcount
  limit := hcount ▸ by decide
  nonnull := by simp
  range := by simp
  distinct := List.nodup_nil
  cursor := by
    rw [hlast, hsafe]
    exact ⟨by decide, le_rfl, le_rfl, by simp [pidsOf]⟩

/-- The registry depends on the links of its processes and their pids only. -/
theorem congr (h : Registry kernel members)
    (hlinks : ∀ node, (∀ other, node = .listLink other ∨ node = .hashLink other → other ∈ members) →
      kernel'.links.next node = kernel.links.next node ∧
        kernel'.links.prev node = kernel.links.prev node)
    (hpids : ∀ proc ∈ members, (kernel'.procs proc).pid = (kernel.procs proc).pid)
    (hcount : kernel'.nrProcess = kernel.nrProcess) (hlast : kernel'.lastPid = kernel.lastPid)
    (hsafe : kernel'.nextSafe = kernel.nextSafe) : Registry kernel' members where
  list := by
    have hmember : ∀ node ∈ ProcNode.procList :: members.map .listLink,
        ∀ other, node = .listLink other ∨ node = .hashLink other → other ∈ members := by
      intro node hnode other hother
      rcases hother with rfl | rfl
      · simpa using hnode
      · simp at hnode
    exact h.list.congr (fun node hnode ↦ (hlinks node (hmember node hnode)).1)
      fun node hnode ↦ (hlinks node (hmember node hnode)).2
  buckets index hindex := by
    have hmember : ∀ node ∈
        ProcNode.hashList index :: (bucket kernel.procs members index).map .hashLink,
        ∀ other, node = .listLink other ∨ node = .hashLink other → other ∈ members := by
      intro node hnode other hother
      rcases hother with rfl | rfl
      · simp at hnode
      · have hmem : other ∈ bucket kernel.procs members index := by simpa using hnode
        exact (mem_bucket.mp hmem).1
    rw [bucket_congr hpids]
    exact (h.buckets index hindex).congr (fun node hnode ↦ (hlinks node (hmember node hnode)).1)
      fun node hnode ↦ (hlinks node (hmember node hnode)).2
  count := hcount.trans h.count
  limit := hcount ▸ h.limit
  nonnull := h.nonnull
  range proc hproc := by
    rw [hpids proc hproc]
    exact h.range proc hproc
  distinct := by
    rw [pidsOf_congr hpids]
    exact h.distinct
  cursor := by
    rw [pidsOf_congr hpids, hlast, hsafe]
    exact h.cursor

theorem isProcess_iff (h : Registry kernel members) :
    IsProcess kernel proc ↔ proc ∈ kernel.idleproc :: members := by
  rw [IsProcess, List.mem_cons]
  refine or_congr_right ⟨?_, fun hmem ↦ ⟨members, h.list, hmem⟩⟩
  rintro ⟨others, hring, hmem⟩
  have hsame : ProcNode.listLink proc ∈ members.map ProcNode.listLink := by
    rw [h.list.unique hring]
    exact List.mem_map_of_mem hmem
  simpa using hsame

/-! ## Entering a process -/

/-- The links after `hash_proc` and the `list_add` behind it. -/
def registered (links : Links ProcNode) (procs : ℕ → ProcStruct) (proc : ℕ) : Links ProcNode :=
  listAdd (hashProc links procs proc) .procList (.listLink proc)

/-- A new process joins the list and one bucket. -/
theorem registered_rings {links : Links ProcNode} {procs : ℕ → ProcStruct} (hnew : proc ∉ members)
    (hlist : Ring links .procList (members.map .listLink))
    (hbuckets : ∀ index < HASH_LIST_SIZE,
      Ring links (.hashList index) ((bucket procs members index).map .hashLink)) :
    Ring (registered links procs proc) .procList ((proc :: members).map .listLink) ∧
      ∀ index < HASH_LIST_SIZE, Ring (registered links procs proc) (.hashList index)
        ((bucket procs (proc :: members) index).map .hashLink) := by
  have hown := hbuckets _ (pidHashfn_lt (procs proc).pid)
  have hlist₁ : Ring (hashProc links procs proc) .procList (members.map .listLink) :=
    hown.listAdd_other hlist (by simp) (by simp)
  have hbuckets₁ : ∀ index < HASH_LIST_SIZE, Ring (hashProc links procs proc) (.hashList index)
      ((bucket procs (proc :: members) index).map .hashLink) := by
    intro index hindex
    rw [bucket_cons]
    by_cases hhash : pidHashfn (procs proc).pid = index
    · rw [if_pos hhash, ← hhash]
      have hfresh : proc ∉ bucket procs members (pidHashfn (procs proc).pid) :=
        fun hmem ↦ hnew (mem_bucket.mp hmem).1
      exact hown.listAdd_head (by simpa using hfresh)
    · rw [if_neg hhash]
      refine hown.listAdd_other (hbuckets index hindex) (fun node hnode ↦ ?_) ?_
      · -- no process is in two buckets
        simp only [List.mem_cons, List.mem_map, mem_bucket] at hnode ⊢
        rcases hnode with rfl | ⟨other, ⟨-, hother⟩, rfl⟩
        · simpa using Ne.symm hhash
        · rintro (heq | ⟨other', ⟨-, hother'⟩, heq⟩)
          · cases heq
          · obtain rfl := ProcNode.hashLink.inj heq
            exact hhash (hother'.symm.trans hother)
      · simp only [List.mem_cons, List.mem_map, mem_bucket, reduceCtorEq, false_or]
        rintro ⟨other, ⟨hother, -⟩, heq⟩
        obtain rfl := ProcNode.hashLink.inj heq
        exact hnew hother
  refine ⟨hlist₁.listAdd_head (by simpa using hnew), fun index hindex ↦ ?_⟩
  exact hlist₁.listAdd_other (hbuckets₁ index hindex) (by simp) (by simp)

/-- What step 5 of `do_fork` leaves. -/
theorem register_spec (h : Registry kernel members) (hnew : proc ∉ members) (hnonnull : proc ≠ 0)
    (hroom : kernel.nrProcess < MAX_PROCESS)
    (hcall : Ucore.register fuel kernel proc = .ok kernel') :
    ∃ pid nextSafe, 1 ≤ pid ∧ pid < MAX_PID ∧
      kernel' = { kernel.setProc proc { kernel.procs proc with pid } with
        links := registered kernel.links
          (Function.update kernel.procs proc { kernel.procs proc with pid }) proc
        lastPid := pid
        nextSafe
        nrProcess := kernel.nrProcess + 1 } ∧
      Registry kernel' (proc :: members) := by
  obtain ⟨⟨pid, nextSafe⟩, hpid, hcall⟩ := bind_eq_ok.mp hcall
  obtain rfl := Except.ok.inj hcall
  have hpids : (members.map ProcNode.listLink).map (pidOf kernel.procs) =
      pidsOf kernel.procs members := List.map_map
  have hswept := getPid_sound h.list (hpids ▸ h.cursor) hpid
  have hlt := lt_of_lt_of_le hswept.lt_nextSafe hswept.nextSafe_le
  let procs' := Function.update kernel.procs proc { kernel.procs proc with pid }
  have hkept : ∀ other ∈ members, (procs' other).pid = (kernel.procs other).pid := by
    intro other hother
    have hne : other ≠ proc := fun heq ↦ hnew (heq ▸ hother)
    exact congrArg ProcStruct.pid (Function.update_of_ne hne _ _)
  have hself : (procs' proc).pid = pid := by simp [procs']
  have hbuckets : ∀ index < HASH_LIST_SIZE,
      Ring kernel.links (.hashList index) ((bucket procs' members index).map .hashLink) := by
    intro index hindex
    rw [bucket_congr hkept]
    exact h.buckets index hindex
  have hpids' : pidsOf procs' (proc :: members) = pid :: pidsOf kernel.procs members := by
    rw [pidsOf, List.map_cons, hself]
    exact congrArg _ (pidsOf_congr hkept)
  have hrings := registered_rings hnew h.list hbuckets
  refine ⟨pid, nextSafe, hswept.one_le, hlt, rfl, hrings.1, hrings.2, ?_, Int.add_one_le_of_lt hroom,
    ?_, ?_, ?_, ?_⟩
  · have hcount := h.count
    change kernel.nrProcess + 1 = 1 + ((members.length + 1 : ℕ) : ℤ)
    omega
  · exact List.forall_mem_cons.mpr ⟨hnonnull, h.nonnull⟩
  · refine List.forall_mem_cons.mpr ⟨?_, fun other hother ↦ ?_⟩
    · change 1 ≤ (procs' proc).pid ∧ (procs' proc).pid < MAX_PID
      rw [hself]
      exact ⟨hswept.one_le, hlt⟩
    · change 1 ≤ (procs' other).pid ∧ (procs' other).pid < MAX_PID
      rw [hkept other hother]
      exact h.range other hother
  · change (pidsOf procs' (proc :: members)).Nodup
    rw [hpids']
    exact List.nodup_cons.mpr ⟨hpids ▸ hswept.not_mem, h.distinct⟩
  · change PidCursor (pidsOf procs' (proc :: members)) pid nextSafe
    rw [hpids', ← hpids]
    exact hswept.cursor

/-! ## `find_proc` -/

/-- One bucket is enough: `find_proc` gives the only process with the pid, or `NULL`. -/
theorem findProc_spec (h : Registry kernel members) (pid : ℤ) (hfuel : members.length < fuel) :
    ∃ result, findProc kernel.links kernel.procs fuel pid = .ok result ∧
      ((result = 0 ∧ ∀ proc ∈ members, (kernel.procs proc).pid ≠ pid) ∨
        result ∈ members ∧ result ≠ 0 ∧ (kernel.procs result).pid = pid ∧
          ∀ proc ∈ members, (kernel.procs proc).pid = pid → proc = result) := by
  unfold findProc
  by_cases hrange : 0 < pid ∧ pid < MAX_PID
  · rw [if_pos hrange]
    have hring := h.buckets _ (pidHashfn_lt pid)
    have hlength : ((bucket kernel.procs members (pidHashfn pid)).map ProcNode.hashLink).length <
        fuel := by
      rw [List.length_map]
      exact lt_of_le_of_lt (List.length_filter_le _ _) hfuel
    dsimp only
    rw [hring.findFrom_head _ hlength, List.find?_map]
    cases hfind : (bucket kernel.procs members (pidHashfn pid)).find?
        ((fun le ↦ decide ((kernel.procs (le2proc le)).pid = pid)) ∘ ProcNode.hashLink) with
    | none =>
      refine ⟨0, rfl, .inl ⟨rfl, fun proc hproc heq ↦ ?_⟩⟩
      have hmem : proc ∈ bucket kernel.procs members (pidHashfn pid) :=
        mem_bucket.mpr ⟨hproc, by rw [heq]⟩
      simpa [le2proc, heq] using List.find?_eq_none.mp hfind proc hmem
    | some found =>
      have hmem := (mem_bucket.mp (List.mem_of_find?_eq_some hfind)).1
      have htest := List.find?_some hfind
      have hpid : (kernel.procs found).pid = pid := of_decide_eq_true htest
      refine ⟨found, rfl, .inr ⟨hmem, h.nonnull found hmem, hpid, fun proc hproc heq ↦ ?_⟩⟩
      exact List.inj_on_of_nodup_map h.distinct hproc hmem (heq.trans hpid.symm)
  · rw [if_neg hrange]
    refine ⟨0, rfl, .inl ⟨rfl, fun proc hproc heq ↦ hrange ?_⟩⟩
    have := h.range proc hproc
    omega

end Registry

end Ucore
