import Ucore.Mm.BootTable
import Ucore.Mm.Tlb

/-!
# Runs with a TLB

Calls on the active tables run one after the other, and the hardware takes translations into the TLB at any
time, also between the stores of a call. The stores of a call are pending until they are done.
-/

namespace Ucore

open Foundation Memory

/-- The pages as the call in progress will leave them, and what the hardware sees. -/
structure TlbWorld (allocator : FrameAllocator) where
  world : PageWorld allocator
  hart : Cached Memory VirtualPage Leaf TableOp

namespace TlbWorld

variable {allocator : FrameAllocator} {npage root : ℕ} {kernel : Finset ℕ}
  {state state' : TlbWorld allocator}

inductive Step (npage root : ℕ) (kernel : Finset ℕ) : TlbWorld allocator → TlbWorld allocator → Prop
  | hardware {state : TlbWorld allocator} {hart' : Cached Memory VirtualPage Leaf TableOp}
      (hstep : Cached.Step tableOperations (pageLeaf root) state.hart hart') :
      Step npage root kernel state { state with hart := hart' }
  | pageInsert {state : TlbWorld allocator} {page : ℕ} {la : BitVec 64} {perm : BitVec 32}
      {result : ℤ} {paging' : Paging allocator} {ops : List TableOp}
      (hidle : state.hart.pending = []) (hpage : page ∈ state.world.data)
      (hperm : perm.toNat < 0x400) (hla : PDX1 la ∉ kernel)
      (hcall : pageInsertOps npage state.world.paging (frameKva root) page la perm =
        .ok (result, paging', ops)) :
      Step npage root kernel state
        ⟨⟨paging', state.world.data ∩ allocator.allocated paging'.frames⟩,
          { state.hart with pending := ops }⟩
  | pageRemove {state : TlbWorld allocator} {la : BitVec 64} {paging' : Paging allocator}
      {ops : List TableOp} (hidle : state.hart.pending = []) (hla : PDX1 la ∉ kernel)
      (hcall : pageRemoveOps npage state.world.paging (frameKva root) la = .ok (paging', ops)) :
      Step npage root kernel state
        ⟨⟨paging', state.world.data ∩ allocator.allocated paging'.frames⟩,
          { state.hart with pending := ops }⟩
  | getPte {state : TlbWorld allocator} {la : BitVec 64} {create : Bool} {ptep : Option ℕ}
      {paging' : Paging allocator} {ops : List TableOp} (hidle : state.hart.pending = [])
      (hla : PDX1 la ∉ kernel)
      (hcall : getPteOps npage state.world.paging (frameKva root) la create =
        .ok (ptep, paging', ops)) :
      Step npage root kernel state
        ⟨⟨paging', state.world.data⟩, { state.hart with pending := ops }⟩
  | other {state : TlbWorld allocator} {world' : PageWorld allocator}
      (hidle : state.hart.pending = []) (hstep : PageWorld.Step npage root kernel state.world world')
      (hmem : ∀ {path ppn index}, IsTable kernel path →
        ppnAt state.world.paging.mem root path = some ppn → index < 512 →
        world'.paging.mem (entryOf ppn index) = state.world.paging.mem (entryOf ppn index)) :
      Step npage root kernel state ⟨world', { state.hart with mem := world'.paging.mem }⟩

/-- A run starts with an empty TLB and a root table that leads to no other tables. -/
inductive Reachable (npage root : ℕ) (kernel : Finset ℕ) : TlbWorld allocator → Prop
  | boot {world : PageWorld allocator} (hroot : root < npage)
      (hempty : ∀ index < 512, index ∉ kernel →
        world.paging.mem (entryOf root index) &&& PTE_V = 0)
      (hleaves : ∀ index ∈ kernel, ∀ ppn,
        walkEntry 1 (world.paging.mem (entryOf root index)) ≠ .table ppn)
      (hdata : ∀ page ∈ world.data, page ∈ allocator.allocated world.paging.frames ∧
        page2ppn page < npage ∧ pageRef world.paging page = 0) :
      Reachable npage root kernel ⟨world, ⟨world.paging.mem, ∅, []⟩⟩
  | step {state state' : TlbWorld allocator} (hstate : Reachable npage root kernel state)
      (hstep : Step npage root kernel state state') : Reachable npage root kernel state'

/-! ## One step -/

/-- What holds at any time, also in the middle of a call. -/
structure Flushing (npage root : ℕ) (kernel : Finset ℕ) (state : TlbWorld allocator) : Prop where
  world : PageWorld.Reachable npage root kernel state.world
  hardware : HardwareTables kernel state.world.paging.mem root
  settling : state.hart.Settling tableOperations (pageLeaf root)
  outcome : tableOperations.outcome state.hart.mem state.hart.pending = state.world.paging.mem

namespace Flushing

theorem boot {world : PageWorld allocator} (hroot : root < npage)
    (hempty : ∀ index < 512, index ∉ kernel → world.paging.mem (entryOf root index) &&& PTE_V = 0)
    (hleaves : ∀ index ∈ kernel, ∀ ppn,
      walkEntry 1 (world.paging.mem (entryOf root index)) ≠ .table ppn)
    (hdata : ∀ page ∈ world.data, page ∈ allocator.allocated world.paging.frames ∧
      page2ppn page < npage ∧ pageRef world.paging page = 0) :
    Flushing npage root kernel ⟨world, ⟨world.paging.mem, ∅, []⟩⟩ where
  world := .boot hroot hempty hdata
  hardware := by
    refine ⟨fun {path ppn} htable hfound ↦ ?_, fun index hkernel _ ppn ↦ hleaves index hkernel ppn⟩
    by_cases hpath : path = []
    · rw [hpath, ppnAt_nil] at hfound
      rw [hpath, walkAt, Option.some.inj hfound]
    · rw [PageWorld.ppnAt_boot hempty htable.1 hpath] at hfound
      cases hfound
  settling := ⟨∅, fun entry hentry ↦ hentry.elim, .done⟩
  outcome := rfl

theorem mem_eq (h : Flushing npage root kernel state) (hidle : state.hart.pending = []) :
    state.hart.mem = state.world.paging.mem := by
  have hmem := h.outcome
  rwa [hidle, outcome_nil] at hmem

/-- A call starts, and its stores are pending. -/
theorem call {world' : PageWorld allocator} {ops : List TableOp}
    (h : Flushing npage root kernel state) (hidle : state.hart.pending = [])
    (hworld : PageWorld.Reachable npage root kernel world')
    (hspec : HardwareTables kernel world'.paging.mem root ∧
      Traced root state.world.paging.mem world'.paging.mem ops) :
    Flushing npage root kernel ⟨world', { state.hart with pending := ops }⟩ where
  world := hworld
  hardware := hspec.1
  settling := h.settling.start hidle (h.mem_eq hidle ▸ hspec.2.flushes)
  outcome := by
    dsimp only
    rw [h.mem_eq hidle, hspec.2.outcome]

theorem step (h : Flushing npage root kernel state) (hstep : Step npage root kernel state state')
    (hcorrect : allocator.Correct (Frame npage root)) (hnpage : npage ≤ KERNTOP / PGSIZE) :
    Flushing npage root kernel state' := by
  have hown := h.world.ownership hcorrect hnpage
  cases hstep with
  | hardware hstep =>
    exact ⟨h.world, h.hardware, hstep.settling h.settling, hstep.outcome.trans h.outcome⟩
  | pageInsert hidle hpage hperm hla hcall =>
    have hworld := h.world.step (.pageInsert hpage hperm hla (erase_ok pageInsertOps_erase hcall))
    exact h.call hidle hworld
      (pageInsertOps_traced hown.toTables h.hardware hcorrect hnpage hla hcall)
  | pageRemove hidle hla hcall =>
    have hworld := h.world.step (.pageRemove hla (fst_ok pageRemoveOps_erase hcall))
    exact h.call hidle hworld
      (pageRemoveOps_traced hown.toTables h.hardware hcorrect hnpage hla hcall)
  | @getPte la create ptep paging' ops hidle hla hcall =>
    have herase := erase_ok getPteOps_erase hcall
    obtain ⟨hhardware, htraced, -⟩ :=
      getPteOps_traced hown.toTables h.hardware hcorrect hnpage hla hcall
    refine h.call hidle ?_ ⟨hhardware, htraced⟩
    cases create with
    | true => exact h.world.step (.getPte hla herase)
    | false =>
      rw [hown.tree.getPte_lookup hla] at herase
      obtain ⟨-, rfl⟩ := Prod.mk.inj (Except.ok.inj herase)
      exact h.world
  | other hidle hstep hmem =>
    obtain ⟨hhardware, hsame⟩ := h.hardware.congr hmem
    have hcoherent := h.settling.coherent hidle
    refine ⟨h.world.step hstep, hhardware, ⟨∅, hcoherent.change subset_rfl ?_, ?_⟩, ?_⟩
    · rw [h.mem_eq hidle]
      exact sameAnswers fun page _ ↦ hsame page.path page.isSlot.1 page.isSlot.2.le
    · dsimp only
      rw [hidle]
      exact .done
    · dsimp only
      rw [hidle, outcome_nil]

end Flushing

/-! ## Whole runs -/

theorem Reachable.flushing (h : Reachable npage root kernel state)
    (hcorrect : allocator.Correct (Frame npage root)) (hnpage : npage ≤ KERNTOP / PGSIZE) :
    Flushing npage root kernel state := by
  induction h with
  | boot hroot hempty hleaves hdata => exact .boot hroot hempty hleaves hdata
  | step _ hstep ih => exact ih.step hstep hcorrect hnpage


/-- The boot page table can start a run: it has one leaf for the kernel and nothing else. -/
theorem Reachable.of_bootTable {world : PageWorld allocator} (h : BootTable world.paging.mem root)
    (hroot : root < npage) (hdata : ∀ page ∈ world.data,
      page ∈ allocator.allocated world.paging.frames ∧ page2ppn page < npage ∧
        pageRef world.paging page = 0) :
    Reachable npage root {511} ⟨world, ⟨world.paging.mem, ∅, []⟩⟩ := by
  refine .boot hroot (fun index hindex hkernel ↦ ?_) (fun index hkernel ppn ↦ ?_) hdata
  · rw [Finset.mem_singleton] at hkernel
    rw [h.empty index (by omega)]
    decide
  · have hleaf : walkEntry 1 bootEntry = .leaf ⟨1, bootEntry⟩ := by decide
    rw [Finset.mem_singleton.mp hkernel, h.last, hleaf]
    exact Walk.noConfusion

/-- The hardware may do any number of steps. -/
theorem Reachable.hardware {hart' : Cached Memory VirtualPage Leaf TableOp}
    (h : Reachable npage root kernel state)
    (hsteps : Relation.ReflTransGen (Cached.Step tableOperations (pageLeaf root)) state.hart hart') :
    Reachable npage root kernel { state with hart := hart' } := by
  induction hsteps with
  | refl => exact h
  | tail _ hstep ih => exact ih.step (.hardware hstep)

/-- Between the calls every TLB entry is the entry of its page in the tables, so that none is for a page
that was unmapped or replaced, and none has old permissions. -/
theorem tlb_coherent (hcorrect : allocator.Correct (Frame npage root))
    (hnpage : npage ≤ KERNTOP / PGSIZE) (h : Reachable npage root kernel state)
    (hidle : state.hart.pending = []) :
    state.hart.mem = state.world.paging.mem ∧ ∀ entry ∈ state.hart.cache,
      pageLeaf root state.world.paging.mem entry.1 = some entry.2 ∧
      ∀ la, PDX1 la ∉ kernel → entry.1 = pageOf la → ∃ ptep,
        getPte npage state.world.paging (frameKva root) la false =
          .ok (some ptep, state.world.paging) ∧
        entry.2 = ⟨3, state.world.paging.mem ptep⟩ ∧ state.world.paging.mem ptep &&& PTE_V ≠ 0 := by
  have hflushing := h.flushing hcorrect hnpage
  have htree := (hflushing.world.ownership hcorrect hnpage).tree
  have hmem := hflushing.mem_eq hidle
  have hcoherent := hflushing.settling.coherent hidle
  rw [hmem] at hcoherent
  refine ⟨hmem, fun entry hentry ↦ ?_⟩
  have hleaf := hcoherent entry hentry (Set.notMem_empty _)
  refine ⟨hleaf, fun la hla hpage ↦ ?_⟩
  rw [hpage] at hleaf
  exact hflushing.hardware.getPte_of_leaf htree hla hleaf

/-- A page is mapped under the boot page table, and its translation taken into the TLB. -/
theorem tlb_coherent_insert : ∃ state : TlbWorld (FrameAllocator.firstFit 0x20A 16),
    state.hart.pending = [] ∧ ∃ entry ∈ state.hart.cache, entry.1 = pageOf 0x1000#64 ∧
      ∃ ptep, getPte 0x88000 state.world.paging (frameKva 0x80206) 0x1000#64 false =
          .ok (some ptep, state.world.paging) ∧ entry.2 = ⟨3, state.world.paging.mem ptep⟩ := by
  have hcall : (pageInsertOps 0x88000 (sampleBoot 0 0) (frameKva 0x80206) 0x20A 0x1000#64
      0x6#32).toOption.any (fun outcome ↦
        (leafAt outcome.2.1.mem 0x80206 (slotOf 0x1000#64)).isSome) = true := by decide +kernel
  obtain ⟨⟨result, paging', ops⟩, hreturn, houtcome⟩ := Option.any_eq_true _ _ |>.mp hcall
  obtain ⟨leaf, hleaf⟩ := Option.isSome_iff_exists.mp houtcome
  have hboot : Reachable 0x88000 0x80206 {511}
      ⟨⟨sampleBoot 0 0, {0x20A}⟩, ⟨(sampleBoot 0 0).mem, ∅, []⟩⟩ := by
    refine .of_bootTable (sampleBoot_table 0 0) (by decide) fun page hpage ↦ ?_
    rw [Set.mem_singleton_iff] at hpage
    subst hpage
    exact ⟨List.mem_cons_self, by decide, rfl⟩
  have hcorrect := PageWorld.firstFit_frames (le_refl 16)
  have hstart := hboot.step (.pageInsert rfl rfl (by decide) (by decide) (toOption_eq_some.mp hreturn))
  obtain ⟨tlb, hfinish⟩ : ∃ tlb, Relation.ReflTransGen
      (Cached.Step tableOperations (pageLeaf 0x80206)) ⟨(sampleBoot 0 0).mem, ∅, ops⟩
      ⟨tableOperations.outcome (sampleBoot 0 0).mem ops, tlb, []⟩ :=
    Cached.exists_finish _ _ _
  have hdone := hstart.hardware hfinish
  have hmem := (hdone.flushing hcorrect (by decide)).mem_eq rfl
  have hlookup : pageLeaf 0x80206 (tableOperations.outcome (sampleBoot 0 0).mem ops)
      (pageOf 0x1000#64) = some leaf := by
    rw [show tableOperations.outcome (sampleBoot 0 0).mem ops = paging'.mem from hmem]
    exact hleaf
  have hloaded := hdone.step (.hardware (.load hlookup))
  obtain ⟨-, hentries⟩ := tlb_coherent hcorrect (by decide) hloaded rfl
  obtain ⟨-, hfound⟩ := hentries (pageOf 0x1000#64, leaf) (Set.mem_insert _ _)
  obtain ⟨ptep, hptep, hentry, -⟩ := hfound 0x1000#64 (by decide) rfl
  exact ⟨_, rfl, (pageOf 0x1000#64, leaf), Set.mem_insert _ _, rfl, ptep, hptep, hentry⟩

end TlbWorld

end Ucore
