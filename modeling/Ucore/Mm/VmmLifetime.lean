import Ucore.Mm.VmmRuns

/-!
# The lifetime of an mm

The mm and its vmas are small blocks of the heap. `mm_destroy` gives them back in the order of the
list, the mm last, and looks at none of them afterwards.
-/

namespace Ucore

open Foundation

/-- The object that is touched or freed. -/
def VmmEvent.object : VmmEvent → ℕ
  | .touch object => object
  | .free object => object

namespace Vmm

variable {allocator : PageAllocator} {image : KernelImage} {vmm vmm₀ vmm' : Vmm allocator}
  {mm vma fuel : ℕ} {members inserted : List ℕ} {blocks small rest : List Block}
  {entries : List BigBlock} {grown : List ℕ} {others : Set Block}

/-- The runs from the `mm_create` of an mm on: every vma that `vma_create` gives is inserted. -/
inductive Lifetime (image : KernelImage) (vmm₀ : Vmm allocator) (mm : ℕ) :
    Vmm allocator → List ℕ → Prop
  | create {vmm : Vmm allocator} {fuel : ℕ} (hmm : mm ≠ 0)
      (hcall : mmCreate image fuel vmm₀ = .ok (mm, vmm)) : Lifetime image vmm₀ mm vmm []
  | insert {vmm vmm₁ vmm₂ : Vmm allocator} {inserted : List ℕ}
      {fuel fuel' vma vmStart vmEnd : ℕ} {vmFlags : BitVec 32}
      (hrun : Lifetime image vmm₀ mm vmm inserted) (hvma : vma ≠ 0)
      (hcreate : vmaCreate image fuel vmm vmStart vmEnd vmFlags = .ok (vma, vmm₁))
      (hinsert : insertVmaStruct fuel' vmm₁ mm vma = .ok vmm₂) :
      Lifetime image vmm₀ mm vmm₂ (vma :: inserted)
  | noMemory {vmm vmm₁ : Vmm allocator} {inserted : List ℕ} {fuel vmStart vmEnd : ℕ}
      {vmFlags : BitVec 32} (hrun : Lifetime image vmm₀ mm vmm inserted)
      (hcreate : vmaCreate image fuel vmm vmStart vmEnd vmFlags = .ok (0, vmm₁)) :
      Lifetime image vmm₀ mm vmm₁ inserted
  | find {vmm vmm' : Vmm allocator} {inserted : List ℕ} {fuel addr vma : ℕ}
      (hrun : Lifetime image vmm₀ mm vmm inserted)
      (hcall : findVma fuel vmm mm addr = .ok (vma, vmm')) : Lifetime image vmm₀ mm vmm' inserted

/-- The heap units of the object at `p`. -/
def objectBlock (p : ℕ) : Block :=
  ⟨p - SLOB_UNIT, SLOB_UNIT * SLOB_UNITS (vmaStructSize + SLOB_UNIT)⟩

/-! ## The objects of an mm -/

/-- What a lifetime keeps: on top of the blocks from before, the mm and its vmas are live. -/
structure Alive (image : KernelImage) (vmm : Vmm allocator) (mm : ℕ) (members : List ℕ)
    (blocks small : List Block) (entries : List BigBlock) (grown : List ℕ) (others : Set Block) :
    Prop where
  nonnull : mm ≠ 0
  listed : Listed vmm mm members
  heap : HeapInv image vmm.heap blocks ((mm :: members).map objectBlock ++ small) entries grown
    others
  header : ∀ object ∈ mm :: members, SLOB_UNIT ≤ object

theorem kmalloc_object {heap heap' : Heap allocator} {p size : ℕ} (hsize : size = vmaStructSize)
    (h : HeapInv image heap blocks small entries grown others)
    (hcorrect : allocator.Correct image.Usable)
    (hcall : kmalloc image fuel heap size = .ok (p, heap')) :
    ∃ blocks' taken,
      (p = 0 ∧ HeapInv image heap' blocks' small entries (taken ++ grown) others) ∨
        (p ≠ 0 ∧ SLOB_UNIT ≤ p ∧
          HeapInv image heap' blocks' (objectBlock p :: small) entries (taken ++ grown) others) := by
  subst hsize
  obtain ⟨blocks', taken, -, -, hresult⟩ :=
    h.kmalloc_taken hcorrect (by decide) (by decide) hcall
  exact ⟨blocks', taken, hresult⟩

/-- Live objects lie at different addresses. -/
theorem objects_nodup {objects : List ℕ}
    (h : HeapInv image vmm.heap blocks (objects.map objectBlock ++ small) entries grown others) :
    objects.Nodup := by
  have hapart := (List.pairwise_append.mp (List.pairwise_append.mp h.slob.apart).1).1
  rw [List.pairwise_map] at hapart
  refine hapart.imp fun {left right} hdisjoint heq ↦ ?_
  have hself : (objectBlock left).start ∈ (objectBlock left).cells := by
    rw [Block.mem_cells, Block.stop_eq]
    have hpos : 0 < SLOB_UNIT * SLOB_UNITS (vmaStructSize + SLOB_UNIT) := by decide
    exact ⟨le_rfl, Nat.lt_add_of_pos_right hpos⟩
  exact Set.disjoint_left.mp hdisjoint hself (heq ▸ hself)

theorem Alive.of_mmCreate (hinv : HeapInv image vmm.heap blocks small entries grown others)
    (hcorrect : allocator.Correct image.Usable) (hmm : mm ≠ 0)
    (hcall : mmCreate image fuel vmm = .ok (mm, vmm')) :
    ∃ blocks' taken, Alive image vmm' mm [] blocks' small entries (taken ++ grown) others := by
  have hlisted := listed_of_mmCreate hmm hcall
  unfold mmCreate at hcall
  obtain ⟨⟨p, heap⟩, hkmalloc, hcall⟩ := bind_eq_ok.mp hcall
  dsimp only at hcall
  obtain ⟨blocks', taken, ⟨rfl, -⟩ | ⟨hp, hroom, hheap⟩⟩ := kmalloc_object rfl hinv hcorrect hkmalloc
  · rw [if_pos rfl] at hcall
    exact absurd (Prod.mk.inj (Except.ok.inj hcall)).1.symm hmm
  · rw [if_neg hp] at hcall
    obtain ⟨rfl, rfl⟩ := Prod.mk.inj (Except.ok.inj hcall)
    exact ⟨blocks', taken, hmm, hlisted, hheap, by simpa using hroom⟩

theorem Alive.noMemory {vmStart vmEnd : ℕ} {vmFlags : BitVec 32}
    (h : Alive image vmm mm members blocks small entries grown others)
    (hcorrect : allocator.Correct image.Usable)
    (hcall : vmaCreate image fuel vmm vmStart vmEnd vmFlags = .ok (0, vmm')) :
    ∃ blocks' taken, Alive image vmm' mm members blocks' small entries (taken ++ grown) others := by
  unfold vmaCreate at hcall
  obtain ⟨⟨p, heap⟩, hkmalloc, hcall⟩ := bind_eq_ok.mp hcall
  dsimp only at hcall
  obtain ⟨blocks', taken, ⟨rfl, hheap⟩ | ⟨hp, -⟩⟩ := kmalloc_object rfl h.heap hcorrect hkmalloc
  · rw [if_pos rfl] at hcall
    obtain ⟨-, rfl⟩ := Prod.mk.inj (Except.ok.inj hcall)
    have hlisted := h.listed
    exact ⟨blocks', taken, h.nonnull, ⟨hlisted.ring, hlisted.ascending, hlisted.count,
      hlisted.nonnull, hlisted.cache⟩, hheap, h.header⟩
  · rw [if_neg hp] at hcall
    exact absurd (Prod.mk.inj (Except.ok.inj hcall)).1 hp

/-- A new vma is live and not on the list yet. -/
theorem Alive.vmaCreate {vmStart vmEnd : ℕ} {vmFlags : BitVec 32}
    (h : Alive image vmm mm members blocks small entries grown others)
    (hcorrect : allocator.Correct image.Usable) (hvma : vma ≠ 0)
    (hcall : vmaCreate image fuel vmm vmStart vmEnd vmFlags = .ok (vma, vmm')) :
    SLOB_UNIT ≤ vma ∧ Listed vmm' mm members ∧ ∃ blocks' taken, HeapInv image vmm'.heap blocks'
      ((vma :: mm :: members).map objectBlock ++ small) entries (taken ++ grown) others := by
  unfold Ucore.vmaCreate at hcall
  obtain ⟨⟨p, heap⟩, hkmalloc, hcall⟩ := bind_eq_ok.mp hcall
  dsimp only at hcall
  obtain ⟨blocks', taken, ⟨rfl, -⟩ | ⟨hp, hroom, hheap⟩⟩ :=
    kmalloc_object rfl h.heap hcorrect hkmalloc
  · rw [if_pos rfl] at hcall
    exact absurd (Prod.mk.inj (Except.ok.inj hcall)).1.symm hvma
  · rw [if_neg hp] at hcall
    obtain ⟨rfl, rfl⟩ := Prod.mk.inj (Except.ok.inj hcall)
    have hheap : HeapInv image heap blocks' ((p :: mm :: members).map objectBlock ++ small) entries
        (taken ++ grown) others := hheap
    have hnodup := objects_nodup (show HeapInv image { vmm with heap }.heap _ _ _ _ _ from hheap)
    have hnew : p ∉ members := fun hmem ↦
      (List.nodup_cons.mp hnodup).1 (List.mem_cons_of_mem _ hmem)
    exact ⟨hroom, h.listed.prepare hnew _ heap, blocks', taken, hheap⟩

/-- An accepted vma joins the members. -/
theorem Alive.insert {vmm₁ : Vmm allocator}
    (h : Alive image vmm mm members blocks small entries grown others) (hvma : vma ≠ 0)
    (hroom : SLOB_UNIT ≤ vma) (hlisted : Listed vmm₁ mm members) {blocks' : List Block}
    {grown' : List ℕ}
    (hheap : HeapInv image vmm₁.heap blocks' ((vma :: mm :: members).map objectBlock ++ small)
      entries grown' others)
    (hcall : insertVmaStruct fuel vmm₁ mm vma = .ok vmm') :
    ∃ members', Alive image vmm' mm members' blocks' small entries grown' others ∧
      members'.Perm (vma :: members) := by
  have hmore := insertVmaStruct_mono hcall (Nat.le_add_right fuel (members.length + 1))
  have hfuel : members.length < fuel + (members.length + 1) := by omega
  have hfits := (insertVmaStruct_iff hlisted hfuel).2.mp ⟨_, hmore⟩
  have hresult := (insertVmaStruct_eq hlisted hfuel hfits.1).1 ((hlisted.fits_iff hfits.1).mp hfits)
  have hsame : vmm'.heap = vmm₁.heap := by
    rw [← Except.ok.inj (hresult.symm.trans hmore)]
    rfl
  have hperm : (vmm₁.passed vma members ++ vma :: vmm₁.remaining vma members).Perm
      (vma :: members) := by
    calc
      (vmm₁.passed vma members ++ vma :: vmm₁.remaining vma members).Perm
          (vma :: (vmm₁.passed vma members ++ vmm₁.remaining vma members)) := List.perm_middle
      _ = vma :: members := by rw [passed_append]
  have hobjects : (vma :: mm :: members).Perm
      (mm :: (vmm₁.passed vma members ++ vma :: vmm₁.remaining vma members)) :=
    (List.Perm.swap mm vma members).trans (hperm.symm.cons mm)
  refine ⟨_, ⟨h.nonnull, hlisted.insert hvma hmore hfuel, ?_, fun object hobject ↦ ?_⟩, hperm⟩
  · rw [hsame]
    exact hheap.perm ((hobjects.map _).append_right _)
  · rcases List.mem_cons.mp (hobjects.mem_iff.mpr hobject) with rfl | hold
    · exact hroom
    · exact h.header object hold

theorem Lifetime.alive (h : Lifetime image vmm₀ mm vmm inserted)
    (hcorrect : allocator.Correct image.Usable)
    (hinv : HeapInv image vmm₀.heap blocks small entries grown others) :
    ∃ members blocks' taken,
      Alive image vmm mm members blocks' small entries (taken ++ grown) others ∧
        members.Perm inserted := by
  induction h with
  | create hmm hcall =>
    obtain ⟨blocks', taken, halive⟩ := Alive.of_mmCreate hinv hcorrect hmm hcall
    exact ⟨[], blocks', taken, halive, List.Perm.nil⟩
  | insert _ hvma hcreate hinsert ih =>
    obtain ⟨members, blocks₁, taken, halive, hperm⟩ := ih
    obtain ⟨hroom, hlisted, blocks₂, more, hheap⟩ := halive.vmaCreate hcorrect hvma hcreate
    obtain ⟨members', halive', hperm'⟩ := halive.insert hvma hroom hlisted hheap hinsert
    rw [← List.append_assoc] at halive'
    exact ⟨members', blocks₂, more ++ taken, halive', hperm'.trans (hperm.cons _)⟩
  | noMemory _ hcreate ih =>
    obtain ⟨members, blocks₁, taken, halive, hperm⟩ := ih
    obtain ⟨blocks₂, more, halive'⟩ := halive.noMemory hcorrect hcreate
    rw [← List.append_assoc] at halive'
    exact ⟨members, blocks₂, more ++ taken, halive', hperm⟩
  | find _ hcall ih =>
    obtain ⟨members, blocks₁, taken, halive, hperm⟩ := ih
    obtain ⟨-, rfl⟩ := halive.listed.findVma_result halive.nonnull hcall
    refine ⟨members, blocks₁, taken, ⟨halive.nonnull, halive.listed.remember, ?_, halive.header⟩,
      hperm⟩
    unfold Vmm.remember
    split
    · exact halive.heap
    · exact halive.heap

/-! ## `mm_destroy` -/

/-- What the loop of `mm_destroy` does to the objects. -/
def destroyEvents (mm : ℕ) : List ℕ → List VmmEvent
  | [] => [.touch mm]
  | vma :: rest =>
    [.touch mm, .touch vma, .touch mm, .touch (rest.head?.getD mm), .free vma] ++
      destroyEvents mm rest

/-- The loop comes to an end, whatever the length of the list. -/
theorem mmDestroyLoop_eq (events : List VmmEvent)
    (hheap : HeapInv image vmm.heap blocks (members.map objectBlock ++ small) entries grown others)
    (hring : Ring vmm.links (.mmapList mm) (members.map .listLink))
    (hheader : ∀ vma ∈ members, SLOB_UNIT ≤ vma)
    (hfuel : members.length + (ringFuel + entries.length) < fuel) :
    ∃ vmm' blocks', mmDestroyLoop image mm fuel vmm events =
        .ok (vmm', events ++ destroyEvents mm members) ∧
      HeapInv image vmm'.heap blocks' small entries grown others := by
  induction members generalizing vmm blocks fuel events with
  | nil =>
    obtain ⟨fuel, rfl⟩ := Nat.exists_eq_add_one_of_ne_zero (Nat.ne_zero_of_lt hfuel)
    have hnext : vmm.links.next (.mmapList mm) = .mmapList mm := hring.next_head
    refine ⟨vmm, blocks, ?_, hheap⟩
    rw [mmDestroyLoop]
    dsimp only
    rw [if_pos hnext]
    rfl
  | cons vma rest ih =>
    obtain ⟨fuel, rfl⟩ := Nat.exists_eq_add_one_of_ne_zero (Nat.ne_zero_of_lt hfuel)
    have hring' : Ring vmm.links (.mmapList mm) ([] ++ .listLink vma :: rest.map .listLink) := hring
    have hnext : vmm.links.next (.mmapList mm) = .listLink vma := hring.next_head
    have hevents : listDelEvents vmm.links (.listLink vma) =
        [.touch vma, .touch mm, .touch (rest.head?.getD mm)] := by
      rw [listDelEvents, hring'.prev_member, hring'.next_member]
      cases rest <;> rfl
    have hblock : (objectBlock vma).start + SLOB_UNIT = vma :=
      Nat.sub_add_cancel (hheader vma List.mem_cons_self)
    rw [List.length_cons] at hfuel
    obtain ⟨heap', hfree⟩ := hheap.kfreeSmall_returns List.mem_cons_self
      (show ringFuel ≤ fuel by omega) (by omega)
    obtain ⟨blocks', hheap', -⟩ := hheap.kfreeSmall List.mem_cons_self hfree
    rw [List.map_cons, List.cons_append, List.erase_cons_head] at hheap'
    rw [hblock] at hfree
    let events' := events ++ [.touch mm] ++ listDelEvents vmm.links (.listLink vma) ++ [.free vma]
    obtain ⟨vmm', blocks'', hloop, hfinal⟩ : ∃ vmm' blocks'', mmDestroyLoop image mm fuel
        { vmm with links := listDel vmm.links (.listLink vma), heap := heap' } events' =
          .ok (vmm', events' ++ destroyEvents mm rest) ∧
        HeapInv image vmm'.heap blocks'' small entries grown others :=
      ih events' hheap' hring.listDel_first
        (fun other hother ↦ hheader other (List.mem_cons_of_mem _ hother)) (by omega)
    refine ⟨vmm', blocks'', ?_, hfinal⟩
    rw [mmDestroyLoop]
    dsimp only
    rw [hnext, if_neg (by simp), le2vma, hfree, ok_bind, hloop]
    simp [events', hevents, destroyEvents]

/-- The objects that are passed to `kfree`, in this order. -/
def frees (events : List VmmEvent) : List ℕ :=
  events.filterMap fun
    | .touch _ => none
    | .free object => some object

/-- An object that was freed is neither touched nor freed again. -/
def NoUseAfterFree (events : List VmmEvent) : Prop :=
  events.Pairwise fun earlier later ↦ ∀ object, earlier = .free object → later.object ≠ object

theorem frees_destroyEvents (mm : ℕ) (members : List ℕ) :
    frees (destroyEvents mm members) = members := by
  induction members with
  | nil => rfl
  | cons vma rest ih =>
    change vma :: frees (destroyEvents mm rest) = _
    rw [ih]

theorem object_destroyEvents {event : VmmEvent} (hevent : event ∈ destroyEvents mm members) :
    event.object ∈ mm :: members := by
  induction members with
  | nil =>
    rw [List.mem_singleton.mp hevent]
    exact List.mem_cons_self
  | cons vma rest ih =>
    rcases List.mem_append.mp hevent with hhead | htail
    · simp only [List.mem_cons, List.not_mem_nil, or_false] at hhead
      rcases hhead with rfl | rfl | rfl | rfl | rfl
      · exact List.mem_cons_self
      · exact List.mem_cons_of_mem _ List.mem_cons_self
      · exact List.mem_cons_self
      · cases rest <;> simp [VmmEvent.object]
      · exact List.mem_cons_of_mem _ List.mem_cons_self
    · have hmem := ih htail
      simp only [List.mem_cons] at hmem ⊢
      tauto

theorem noUseAfterFree_destroyEvents (hnodup : (mm :: members).Nodup) :
    NoUseAfterFree (destroyEvents mm members ++ [.free mm]) := by
  have hskip : ∀ {object : ℕ} {events : List VmmEvent}, NoUseAfterFree events →
      NoUseAfterFree (.touch object :: events) := fun hevents ↦
    List.pairwise_cons.mpr ⟨fun _ _ _ heq ↦ (nomatch heq), hevents⟩
  induction members with
  | nil => exact hskip (List.pairwise_singleton _ _)
  | cons vma rest ih =>
    have hperm : (mm :: vma :: rest).Perm (vma :: mm :: rest) := List.Perm.swap vma mm rest
    obtain ⟨hnew, hnodup'⟩ := List.nodup_cons.mp (hperm.nodup_iff.mp hnodup)
    refine hskip (hskip (hskip (hskip (List.pairwise_cons.mpr ⟨fun later hlater ↦ ?_, ih hnodup'⟩))))
    rintro object ⟨rfl⟩ heq
    refine hnew (heq ▸ ?_)
    rcases List.mem_append.mp hlater with hloop | hlast
    · exact object_destroyEvents hloop
    · rw [List.mem_singleton.mp hlast]
      exact List.mem_cons_self

/-- Whatever was inserted, `mm_destroy` comes back and gives each vma and then the mm to `kfree` once,
touches nothing that it has freed, and leaves the free units from before `mm_create` together with
the pages that the heap has taken since. -/
theorem mm_lifetime {world : HeapWorld allocator} (hcorrect : allocator.Correct image.Usable)
    (hworld : HeapWorld.Reachable image world) (hheap : vmm₀.heap = world.heap)
    (h : Lifetime image vmm₀ mm vmm inserted) :
    ∃ least, ∀ fuel ≥ least, ∃ vmm' events taken,
      mmDestroy image fuel vmm mm = .ok (vmm', events) ∧
      (∃ members, members.Perm inserted ∧ frees events = members ++ [mm]) ∧
      (mm :: inserted).Nodup ∧ NoUseAfterFree events ∧
      freeBytes image vmm'.heap = freeBytes image vmm₀.heap ∪ heapBytes taken ∧
      Disjoint (freeBytes image vmm₀.heap) (heapBytes taken) ∧
      allocator.outstanding vmm'.heap.pages =
        allocator.outstanding vmm₀.heap.pages ∪ {loan | loan ∈ taken.map singlePage} := by
  obtain ⟨blocks, entries, grown, hinv, -⟩ := hworld.sound hcorrect
  rw [← hheap] at hinv
  obtain ⟨members, blocks₁, taken, halive, hperm⟩ := h.alive hcorrect hinv
  refine ⟨members.length + (ringFuel + entries.length) + 1, fun fuel hfuel ↦ ?_⟩
  have hnodup := objects_nodup halive.heap
  have hobjects := halive.heap.perm (show (_ : List Block).Perm
    (members.map objectBlock ++ objectBlock mm :: world.small) from List.perm_middle.symm)
  obtain ⟨vmm', blocks₂, hloop, hheap'⟩ := mmDestroyLoop_eq [] hobjects halive.listed.ring
    (fun vma hvma ↦ halive.header vma (List.mem_cons_of_mem _ hvma)) hfuel
  have hblock : (objectBlock mm).start + SLOB_UNIT = mm :=
    Nat.sub_add_cancel (halive.header mm List.mem_cons_self)
  obtain ⟨heap', hfree⟩ := hheap'.kfreeSmall_returns List.mem_cons_self
    (show ringFuel ≤ fuel by omega) (by omega)
  obtain ⟨blocks₃, hfinal, -⟩ := hheap'.kfreeSmall List.mem_cons_self hfree
  rw [List.erase_cons_head] at hfinal
  rw [hblock] at hfree
  refine ⟨{ vmm' with heap := heap' }, destroyEvents mm members ++ [.free mm], taken, ?_,
    ⟨members, hperm, ?_⟩, (hperm.cons mm).nodup_iff.mp hnodup, noUseAfterFree_destroyEvents hnodup,
    hinv.balanced hfinal (List.Perm.refl _)⟩
  · unfold mmDestroy
    rw [hloop, ok_bind]
    dsimp only
    rw [hfree]
    rfl
  · rw [frees, List.filterMap_append]
    exact congrArg (· ++ [mm]) (frees_destroyEvents mm members)

/-- Two vmas right behind the mm, the upper area first, and a look-up between them. -/
theorem lifetime_boot : ∃ vmm,
    Lifetime HeapWorld.sampleImage boot bootMm vmm [bootMm + 128, bootMm + 64] := by
  have hrun : (do
      let created ← mmCreate HeapWorld.sampleImage 8 boot
      let first ← vmaCreate HeapWorld.sampleImage 8 created.2 5 7 0
      let vmm ← insertVmaStruct 8 first.2 created.1 first.1
      let found ← findVma 8 vmm created.1 6
      let second ← vmaCreate HeapWorld.sampleImage 8 found.2 1 3 0
      let _ ← insertVmaStruct 8 second.2 created.1 second.1
      return (created.1, first.1, second.1)).toOption = some (bootMm, bootMm + 64, bootMm + 128) := by
    decide +kernel
  obtain ⟨⟨mm, vmm₁⟩, hcreate, hrun⟩ := bind_eq_ok.mp (toOption_eq_some.mp hrun)
  obtain ⟨⟨first, vmm₂⟩, hfirst, hrun⟩ := bind_eq_ok.mp hrun
  obtain ⟨vmm₃, hinsert, hrun⟩ := bind_eq_ok.mp hrun
  obtain ⟨⟨found, vmm₄⟩, hfind, hrun⟩ := bind_eq_ok.mp hrun
  obtain ⟨⟨second, vmm₅⟩, hsecond, hrun⟩ := bind_eq_ok.mp hrun
  obtain ⟨vmm₆, hinsert', hrun⟩ := bind_eq_ok.mp hrun
  obtain ⟨rfl, hvmas⟩ := Prod.mk.inj (Except.ok.inj hrun)
  obtain ⟨rfl, rfl⟩ := Prod.mk.inj hvmas
  have hone : Lifetime HeapWorld.sampleImage boot bootMm vmm₄ [bootMm + 64] :=
    ((Lifetime.create (by decide) hcreate).insert (by decide) hfirst hinsert).find hfind
  exact ⟨vmm₆, hone.insert (by decide) hsecond hinsert'⟩

theorem mm_lifetime_boot : ∃ (vmm : Vmm (PageAllocator.firstFit 0x20A 16)) (least : ℕ),
    ∀ fuel ≥ least, ∃ vmm' events, mmDestroy HeapWorld.sampleImage fuel vmm bootMm =
      .ok (vmm', events) ∧
      (∃ members, members.Perm [bootMm + 128, bootMm + 64] ∧ frees events = members ++ [bootMm]) ∧
      NoUseAfterFree events := by
  obtain ⟨vmm, hlifetime⟩ := lifetime_boot
  obtain ⟨least, hdestroy⟩ :=
    mm_lifetime (PageAllocator.firstFit_correct fun _ ↦ HeapWorld.sampleImage_usable)
      (HeapWorld.Reachable.boot (fun _ ↦ 0) []) rfl hlifetime
  refine ⟨vmm, least, fun fuel hfuel ↦ ?_⟩
  obtain ⟨vmm', events, -, hcall, hfrees, -, hevents, -⟩ := hdestroy fuel hfuel
  exact ⟨vmm', events, hcall, hfrees, hevents⟩

end Vmm

end Ucore
