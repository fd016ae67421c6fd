import Mathlib.Order.Interval.Finset.Nat
import Ucore.Mm.KmallocReturns
import Ucore.Mm.VmmSpec

/-!
# Runs of `insert_vma_struct` and `find_vma`

A run starts with the `mm_create` of an mm. Between the calls on it other code fills in vmas that are
not on its list and uses the heap.
-/

namespace Ucore

open Foundation

namespace Vmm

variable {allocator : PageAllocator} {image : KernelImage} {vmm vmm' : Vmm allocator}
  {mm vma fuel addr : ℕ} {inserted : List ℕ}

/-- The states of all runs on one mm, with the vmas inserted so far, the last one first. -/
inductive Reachable (image : KernelImage) (mm : ℕ) : Vmm allocator → List ℕ → Prop
  | create {vmm vmm' : Vmm allocator} {fuel : ℕ} (hmm : mm ≠ 0)
      (hcall : mmCreate image fuel vmm = .ok (mm, vmm')) : Reachable image mm vmm' []
  | prepare {vmm : Vmm allocator} {inserted : List ℕ} {vma : ℕ} (fields : VmaStruct)
      (heap : Heap allocator) (hrun : Reachable image mm vmm inserted) (hvma : vma ∉ inserted) :
      Reachable image mm { vmm.setVma vma fields with heap } inserted
  | insert {vmm vmm' : Vmm allocator} {inserted : List ℕ} {fuel vma : ℕ}
      (hrun : Reachable image mm vmm inserted) (hvma : vma ≠ 0)
      (hcall : insertVmaStruct fuel vmm mm vma = .ok vmm') :
      Reachable image mm vmm' (vma :: inserted)
  | find {vmm vmm' : Vmm allocator} {inserted : List ℕ} {fuel addr vma : ℕ}
      (hrun : Reachable image mm vmm inserted)
      (hcall : findVma fuel vmm mm addr = .ok (vma, vmm')) : Reachable image mm vmm' inserted

/-- A call that comes back comes back with any more fuel as well. -/
theorem insertVmaScan_mono {list node result : VmaNode} {vmStart more : ℕ}
    (h : insertVmaScan vmm list vmStart fuel node = .ok result) (hle : fuel ≤ more) :
    insertVmaScan vmm list vmStart more node = .ok result := by
  induction fuel generalizing node more with
  | zero => simp [insertVmaScan] at h
  | succ fuel ih =>
    obtain ⟨more, rfl⟩ : ∃ rest, more = rest + 1 := ⟨more - 1, by omega⟩
    rw [insertVmaScan] at h ⊢
    split at h
    · rename_i hend
      rw [if_pos hend]
      exact h
    · rename_i hgo
      rw [if_neg hgo]
      split at h
      · rename_i habove
        rw [if_pos habove]
        exact h
      · rename_i hbelow
        rw [if_neg hbelow]
        exact ih h (by omega)

theorem insertVmaStruct_mono {more : ℕ} (h : insertVmaStruct fuel vmm mm vma = .ok vmm')
    (hle : fuel ≤ more) : insertVmaStruct more vmm mm vma = .ok vmm' := by
  unfold insertVmaStruct at h ⊢
  obtain ⟨value, hassert, h⟩ := bind_eq_ok.mp h
  obtain ⟨lePrev, hscan, h⟩ := bind_eq_ok.mp h
  rw [hassert, ok_bind]
  dsimp only
  rw [insertVmaScan_mono hscan hle, ok_bind]
  exact h

theorem findVma_mono {more : ℕ} (h : findVma fuel vmm mm addr = .ok (vma, vmm'))
    (hle : fuel ≤ more) : findVma more vmm mm addr = .ok (vma, vmm') := by
  unfold findVma at h ⊢
  split at h
  · rename_i hnull
    rw [if_pos hnull]
    exact h
  · rename_i hmm
    rw [if_neg hmm]
    dsimp only at h ⊢
    split at h
    · rename_i hhit
      rw [if_pos hhit]
      exact h
    · rename_i hmiss
      rw [if_neg hmiss]
      split at h
      · cases h
      · rename_i hnone
        rw [Links.findFrom_mono hnone hle]
        exact h
      · rename_i le hsome
        rw [Links.findFrom_mono hsome hle]
        exact h

/-! ## What runs keep -/

theorem listed_of_mmCreate (hmm : mm ≠ 0) (hcall : mmCreate image fuel vmm = .ok (mm, vmm')) :
    Listed vmm' mm [] := by
  unfold mmCreate at hcall
  obtain ⟨⟨p, heap⟩, hkmalloc, hcall⟩ := bind_eq_ok.mp hcall
  dsimp only at hcall
  split at hcall
  · obtain ⟨rfl, -⟩ := Prod.mk.inj (Except.ok.inj hcall)
    exact absurd rfl hmm
  · obtain ⟨rfl, rfl⟩ := Prod.mk.inj (Except.ok.inj hcall)
    refine ⟨Ring.listInit, Ascending.nil, ?_, by simp, .inl ?_⟩
    · simp [setMm]
    · simp [setMm]

/-- The list does not depend on the heap and on the vmas that are not on it. -/
theorem Listed.prepare {members : List ℕ} (h : Listed vmm mm members) (hvma : vma ∉ members)
    (fields : VmaStruct) (heap : Heap allocator) :
    Listed { vmm.setVma vma fields with heap } mm members := by
  have hkept : ∀ other ∈ members, Function.update vmm.vmas vma fields other = vmm.vmas other := by
    intro other hother
    have hne : other ≠ vma := fun heq ↦ hvma (heq ▸ hother)
    exact Function.update_of_ne hne _ _
  refine ⟨h.ring, ⟨fun other hother ↦ ?_, ?_⟩, h.count, h.nonnull, h.cache⟩
  · simpa [start, stop, setVma, hkept other hother] using h.ascending.nonempty other hother
  · refine h.ascending.ordered.imp_of_mem fun {left right} hleft hright hle ↦ ?_
    simpa [start, stop, setVma, hkept left hleft, hkept right hright] using hle

theorem Listed.findVma_result {members : List ℕ} (h : Listed vmm mm members) (hmm : mm ≠ 0)
    (hcall : findVma fuel vmm mm addr = .ok (vma, vmm')) :
    vma = vmm.search members addr ∧ vmm' = vmm.remember mm (vmm.search members addr) := by
  have hmore := findVma_mono hcall (Nat.le_add_right fuel (members.length + 1))
  rw [findVma_eq h hmm (by omega)] at hmore
  obtain ⟨hvma, hvmm⟩ := Prod.mk.inj (Except.ok.inj hmore)
  exact ⟨hvma.symm, hvmm.symm⟩

theorem Reachable.listed (h : Reachable image mm vmm inserted) :
    mm ≠ 0 ∧ ∃ members, Listed vmm mm members ∧ members.Perm inserted := by
  induction h with
  | create hmm hcall => exact ⟨hmm, [], listed_of_mmCreate hmm hcall, List.Perm.nil⟩
  | prepare fields heap _ hvma ih =>
    obtain ⟨hmm, members, hlisted, hperm⟩ := ih
    exact ⟨hmm, members, hlisted.prepare (fun hmem ↦ hvma (hperm.mem_iff.mp hmem)) fields heap,
      hperm⟩
  | @insert vmm vmm' inserted fuel vma _ hvma hcall ih =>
    obtain ⟨hmm, members, hlisted, hperm⟩ := ih
    have hmore := insertVmaStruct_mono hcall (Nat.le_add_right fuel (members.length + 1))
    refine ⟨hmm, _, hlisted.insert hvma hmore (by omega), ?_⟩
    calc
      (vmm.passed vma members ++ vma :: vmm.remaining vma members).Perm
          (vma :: (vmm.passed vma members ++ vmm.remaining vma members)) := List.perm_middle
      _ = vma :: members := by rw [passed_append]
      List.Perm _ (vma :: inserted) := hperm.cons vma
  | find _ hcall ih =>
    obtain ⟨hmm, members, hlisted, hperm⟩ := ih
    obtain ⟨-, rfl⟩ := hlisted.findVma_result hmm hcall
    exact ⟨hmm, members, hlisted.remember, hperm⟩

/-- Mapped memory has no room for 2³¹ structs. -/
theorem mapped_length_le {members : List ℕ} (hnodup : members.Nodup)
    (hmapped : ∀ vma ∈ members, BootMapped vma vmaStructSize) : members.length ≤ 2 ^ 30 := by
  have hinside : members.toFinset ⊆ Finset.Ico (DRAM_BASE + va_pa_offset) (2 ^ 64) := by
    intro vma hvma
    obtain ⟨hlower, hupper⟩ := hmapped vma (List.mem_toFinset.mp hvma)
    have hsize : 0 < vmaStructSize := by decide
    exact Finset.mem_Ico.mpr ⟨hlower, Nat.lt_of_lt_of_le (Nat.lt_add_of_pos_right hsize) hupper⟩
  calc
    members.length = members.toFinset.card := (List.toFinset_card_of_nodup hnodup).symm
    _ ≤ (Finset.Ico (DRAM_BASE + va_pa_offset) (2 ^ 64)).card := Finset.card_le_card hinside
    _ = 2 ^ 30 := Nat.card_Ico _ _

theorem Listed.nodup {members : List ℕ} (h : Listed vmm mm members) : members.Nodup :=
  h.ascending.starts.imp fun hlt heq ↦ absurd (heq ▸ hlt) (lt_irrefl _)

/-- The `int` that counts the vmas does not overflow while the structs lie in mapped memory. -/
theorem Listed.mapCount_toInt {members : List ℕ} (h : Listed vmm mm members)
    (hmapped : ∀ vma ∈ members, BootMapped vma vmaStructSize) :
    (vmm.mms mm).mapCount.toInt = members.length := by
  have hlength := mapped_length_le h.nodup hmapped
  have hexact : (0#32 + BitVec.ofNat 32 members.length).toInt = (0#32).toInt + members.length :=
    toInt_add_ofNat_iff.mpr (by rw [BitVec.toInt_zero]; omega)
  rw [BitVec.zero_add, BitVec.toInt_zero, zero_add] at hexact
  rw [h.count, hexact]

/-- In every run the list is ascending, its areas are not empty and pairwise disjoint, and the counter
is its length, for the structs lie in mapped memory; an insertion panics unless the new area is not empty
and disjoint from all others. -/
theorem vma_list (h : Reachable image mm vmm inserted) :
    ∃ members, Ring vmm.links (.mmapList mm) (members.map .listLink) ∧ members.Perm inserted ∧
      members.Pairwise (fun left right ↦ vmm.start left < vmm.start right) ∧
      (∀ vma ∈ members, vmm.start vma < vmm.stop vma) ∧
      members.Pairwise (fun left right ↦
        Disjoint (Set.Ico (vmm.start left) (vmm.stop left))
          (Set.Ico (vmm.start right) (vmm.stop right))) ∧
      (vmm.mms mm).mapCount = BitVec.ofNat 32 members.length ∧
      ((∀ vma ∈ members, BootMapped vma vmaStructSize) →
        (vmm.mms mm).mapCount.toInt = members.length) ∧
      ∀ vma, ∃ least, ∀ fuel ≥ least,
        (insertVmaStruct fuel vmm mm vma = .error .panic ∨
          ∃ vmm', insertVmaStruct fuel vmm mm vma = .ok vmm') ∧
        ((∃ vmm', insertVmaStruct fuel vmm mm vma = .ok vmm') ↔
          Fits vmm.start vmm.stop members vma) := by
  obtain ⟨-, members, hlisted, hperm⟩ := h.listed
  exact ⟨members, hlisted.ring, hperm, hlisted.ascending.starts, hlisted.ascending.nonempty,
    hlisted.ascending.disjoint, hlisted.count, hlisted.mapCount_toInt, fun vma ↦
      ⟨members.length + 1, fun fuel hfuel ↦ insertVmaStruct_iff hlisted hfuel⟩⟩

/-- The mm with an empty cache. -/
def forget (vmm : Vmm allocator) (mm : ℕ) : Vmm allocator :=
  vmm.setMm mm { vmm.mms mm with mmapCache := 0 }

theorem Listed.forget {members : List ℕ} (h : Listed vmm mm members) :
    Listed (vmm.forget mm) mm members where
  ring := h.ring
  ascending := h.ascending
  count := by simpa [Vmm.forget, setMm] using h.count
  nonnull := h.nonnull
  cache := .inl (by simp [Vmm.forget, setMm])

/-- In every run `find_vma` gives the only vma of the list with the address, or `NULL`, and this is
what it gives without the cache. -/
theorem find_vma_uncached (h : Reachable image mm vmm inserted) :
    ∃ members : List ℕ, Ring vmm.links (.mmapList mm) (members.map .listLink) ∧
      members.Perm inserted ∧ ∀ addr, ∃ least, ∀ fuel ≥ least, ∃ result vmm',
        findVma fuel vmm mm addr = .ok (result, vmm') ∧
        (∃ vmm'', findVma fuel (vmm.forget mm) mm addr = .ok (result, vmm'')) ∧
        ((result = 0 ∧ ∀ vma ∈ members, addr ∉ Set.Ico (vmm.start vma) (vmm.stop vma)) ∨
          result ∈ members ∧ result ≠ 0 ∧ addr ∈ Set.Ico (vmm.start result) (vmm.stop result) ∧
            ∀ vma ∈ members, addr ∈ Set.Ico (vmm.start vma) (vmm.stop vma) → vma = result) := by
  obtain ⟨hmm, members, hlisted, hperm⟩ := h.listed
  refine ⟨members, hlisted.ring, hperm, fun addr ↦ ⟨members.length + 1, fun fuel hfuel ↦ ?_⟩⟩
  refine ⟨_, _, findVma_eq hlisted hmm hfuel, ⟨_, findVma_eq hlisted.forget hmm hfuel⟩, ?_⟩
  refine (vmm.search_cases members addr).imp id fun ⟨hmem, hpoint⟩ ↦
    ⟨hmem, hlisted.nonnull _ hmem, hpoint, fun vma hvma hother ↦ ?_⟩
  exact hlisted.ascending.eq_of_mem hvma hmem hother hpoint

/-! ## A run -/

/-- The state after boot. -/
def boot : Vmm (PageAllocator.firstFit 0x20A 16) where
  heap := HeapWorld.bootHeap
  mms _ := ⟨0, 0, 0, 0⟩
  vmas _ := ⟨0, 0, 0, 0⟩
  links := ⟨id, id⟩

/-- Where `mm_create` puts the first mm. -/
def bootMm : ℕ := 0xFFFFFFFFC020A010

theorem mmCreate_boot : ∃ vmm, mmCreate HeapWorld.sampleImage 8 boot = .ok (bootMm, vmm) := by
  have hcall : (mmCreate HeapWorld.sampleImage 8 boot).toOption.any
      (fun outcome ↦ outcome.1 = bootMm) = true := by decide +kernel
  obtain ⟨⟨mm, vmm⟩, hreturn, hmm⟩ := Option.any_eq_true _ _ |>.mp hcall
  obtain rfl := of_decide_eq_true hmm
  exact ⟨vmm, toOption_eq_some.mp hreturn⟩

/-- A place for a struct -/
def sampleVma (index : ℕ) : ℕ := 0xFFFFFFFFC0210000 + vmaStructSize * index

/-- Three areas, the one in the middle first, and a look-up in it. The fourth area is not on the list. -/
def sampleRun (vmm : Vmm (PageAllocator.firstFit 0x20A 16)) :
    Except Fault (Vmm (PageAllocator.firstFit 0x20A 16)) := do
  let vmm ← insertVmaStruct 8 (vmm.setVma (sampleVma 0) ⟨0, 5, 7, 0⟩) bootMm (sampleVma 0)
  let vmm ← insertVmaStruct 8 (vmm.setVma (sampleVma 1) ⟨0, 1, 3, 0⟩) bootMm (sampleVma 1)
  let vmm ← insertVmaStruct 8 (vmm.setVma (sampleVma 2) ⟨0, 7, 9, 0⟩) bootMm (sampleVma 2)
  let (_, vmm) ← findVma 8 vmm bootMm 6
  return vmm.setVma (sampleVma 3) ⟨0, 6, 8, 0⟩

/-- What is on the list after the run, in its order -/
def sampleMembers : List ℕ := [sampleVma 1, sampleVma 0, sampleVma 2]

/-- The fields of the four structs after the run -/
abbrev SampleAreas (vmm : Vmm (PageAllocator.firstFit 0x20A 16)) : Prop :=
  (vmm.start (sampleVma 0) = 5 ∧ vmm.stop (sampleVma 0) = 7) ∧
    (vmm.start (sampleVma 1) = 1 ∧ vmm.stop (sampleVma 1) = 3) ∧
    (vmm.start (sampleVma 2) = 7 ∧ vmm.stop (sampleVma 2) = 9) ∧
    vmm.start (sampleVma 3) = 6 ∧ vmm.stop (sampleVma 3) = 8

theorem reachable_sample : ∃ vmm : Vmm (PageAllocator.firstFit 0x20A 16),
    Reachable HeapWorld.sampleImage bootMm vmm [sampleVma 2, sampleVma 1, sampleVma 0] ∧
      (vmm.mms bootMm).mmapCache = sampleVma 0 ∧ SampleAreas vmm := by
  have hrun : (mmCreate HeapWorld.sampleImage 8 boot >>= fun (_, vmm) ↦ sampleRun vmm).toOption.any
      (fun vmm ↦ (vmm.mms bootMm).mmapCache = sampleVma 0 ∧ SampleAreas vmm) = true := by
    decide +kernel
  obtain ⟨vmm, hreturn, hfields⟩ := Option.any_eq_true _ _ |>.mp hrun
  refine ⟨vmm, ?_, of_decide_eq_true hfields⟩
  obtain ⟨created, hcreate⟩ := mmCreate_boot
  have hrun := toOption_eq_some.mp hreturn
  rw [hcreate, ok_bind] at hrun
  obtain ⟨first, hfirst, hrun⟩ := bind_eq_ok.mp hrun
  obtain ⟨second, hsecond, hrun⟩ := bind_eq_ok.mp hrun
  obtain ⟨third, hthird, hrun⟩ := bind_eq_ok.mp hrun
  obtain ⟨⟨found, last⟩, hfind, hrun⟩ := bind_eq_ok.mp hrun
  obtain rfl := Except.ok.inj hrun
  have hcreated : Reachable HeapWorld.sampleImage bootMm created [] := .create (by decide) hcreate
  have hreached := ((hcreated.prepare ⟨0, 5, 7, 0⟩ created.heap (by decide)).insert (by decide) hfirst)
  have hreached := ((hreached.prepare ⟨0, 1, 3, 0⟩ first.heap (by decide)).insert (by decide) hsecond)
  have hreached := ((hreached.prepare ⟨0, 7, 9, 0⟩ second.heap (by decide)).insert (by decide) hthird)
  exact (hreached.find hfind).prepare ⟨0, 6, 8, 0⟩ last.heap (by decide)

/-- Three areas in their order, one of which touches another; an area across two of them is refused. -/
theorem vma_list_boot : ∃ vmm : Vmm (PageAllocator.firstFit 0x20A 16),
    Ring vmm.links (.mmapList bootMm) (sampleMembers.map .listLink) ∧
      (vmm.mms bootMm).mapCount.toInt = 3 ∧
      ∃ least, ∀ fuel ≥ least, insertVmaStruct fuel vmm bootMm (sampleVma 3) = .error .panic := by
  obtain ⟨vmm, hreachable, -, ⟨hstart₀, hstop₀⟩, ⟨hstart₁, -⟩, ⟨hstart₂, -⟩, hstart₃, hstop₃⟩ :=
    reachable_sample
  obtain ⟨members, hring, hperm, hstarts, -, -, -, hcount, hinsert⟩ := vma_list hreachable
  have hsame : members = sampleMembers := by
    apply List.Perm.eq_of_pairwise _ hstarts _ (hperm.trans (by decide))
    · intro left right _ _ hlt hgt
      exact absurd hgt (Nat.lt_asymm hlt)
    · simp [sampleMembers, hstart₀, hstart₁, hstart₂]
  subst hsame
  obtain ⟨least, hrefused⟩ := hinsert (sampleVma 3)
  refine ⟨vmm, hring, hcount (by decide), least, fun fuel hfuel ↦ ?_⟩
  obtain ⟨hreturns, hiff⟩ := hrefused fuel hfuel
  apply hreturns.resolve_right
  intro haccepted
  have hdisjoint := (hiff.mp haccepted).2 (sampleVma 0) (by decide)
  rw [hstart₀, hstop₀, hstart₃, hstop₃] at hdisjoint
  have hnew : 6 ∈ Set.Ico 6 8 := by simp
  have hold : 6 ∈ Set.Ico 5 7 := by simp
  exact Set.disjoint_left.mp hdisjoint hnew hold

/-- The cached area answers for an address in it; for others the list is searched. -/
theorem find_vma_uncached_boot : ∃ vmm : Vmm (PageAllocator.firstFit 0x20A 16),
    (vmm.mms bootMm).mmapCache = sampleVma 0 ∧ ∃ least, ∀ fuel ≥ least,
      (∃ vmm', findVma fuel vmm bootMm 6 = .ok (sampleVma 0, vmm')) ∧
      (∃ vmm', findVma fuel vmm bootMm 2 = .ok (sampleVma 1, vmm')) ∧
      ∃ vmm', findVma fuel vmm bootMm 4 = .ok (0, vmm') := by
  obtain ⟨vmm, hreachable, hcache, ⟨hstart₀, hstop₀⟩, ⟨hstart₁, hstop₁⟩, ⟨hstart₂, hstop₂⟩, -⟩ :=
    reachable_sample
  obtain ⟨members, -, hperm, hfind⟩ := find_vma_uncached hreachable
  have hmem : ∀ vma, vma ∈ members ↔ vma = sampleVma 2 ∨ vma = sampleVma 1 ∨ vma = sampleVma 0 := by
    intro vma
    rw [hperm.mem_iff]
    simp
  obtain ⟨least₀, hhit⟩ := hfind 6
  obtain ⟨least₁, hother⟩ := hfind 2
  obtain ⟨least₂, hnone⟩ := hfind 4
  refine ⟨vmm, hcache, max least₀ (max least₁ least₂), fun fuel hfuel ↦ ⟨?_, ?_, ?_⟩⟩
  · obtain ⟨result, vmm', hcall, -, ⟨-, hmiss⟩ | ⟨-, -, -, hunique⟩⟩ := hhit fuel (by omega)
    · exact absurd (hmiss (sampleVma 0) ((hmem _).mpr (by simp))) (by simp [hstart₀, hstop₀])
    · obtain rfl := hunique (sampleVma 0) ((hmem _).mpr (by simp)) (by simp [hstart₀, hstop₀])
      exact ⟨vmm', hcall⟩
  · obtain ⟨result, vmm', hcall, -, ⟨-, hmiss⟩ | ⟨-, -, -, hunique⟩⟩ := hother fuel (by omega)
    · exact absurd (hmiss (sampleVma 1) ((hmem _).mpr (by simp))) (by simp [hstart₁, hstop₁])
    · obtain rfl := hunique (sampleVma 1) ((hmem _).mpr (by simp)) (by simp [hstart₁, hstop₁])
      exact ⟨vmm', hcall⟩
  · obtain ⟨result, vmm', hcall, -, ⟨rfl, -⟩ | ⟨hin, -, hpoint, -⟩⟩ := hnone fuel (by omega)
    · exact ⟨vmm', hcall⟩
    · rcases (hmem result).mp hin with rfl | rfl | rfl
      · simp [hstart₂, hstop₂] at hpoint
      · simp [hstart₁, hstop₁] at hpoint
      · simp [hstart₀, hstop₀] at hpoint

end Vmm

end Ucore
