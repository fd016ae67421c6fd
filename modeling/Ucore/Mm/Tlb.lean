import Ucore.Mm.PageTableRuns
import Ucore.Mm.Sv39
import Ucore.Mm.TableOps

/-!
# TLB coherence (`page_insert`, `page_remove` and `get_pte` of `kern/mm/pmm.c`)

The TLB holds leaves that the hardware found in the active tables at some time, also in the middle of a
call. A store to a slot changes the leaf of one page, and each call flushes that page after its last store;
new tables change the leaf of no page.
-/

namespace Ucore

open Foundation Memory

/-! ## The TLB -/

/-- A page of virtual addresses, by the indices of its entry. -/
structure VirtualPage where
  path : List ℕ
  isSlot : IsSlot ∅ path

def pageOf (la : BitVec 64) : VirtualPage := ⟨slotOf la, isSlot_slotOf (Finset.notMem_empty _)⟩

/-- The leaf for the addresses of a page. -/
def pageLeaf (root : ℕ) (mem : Memory) (page : VirtualPage) : Option Leaf :=
  leafAt mem root page.path

/-- While a page is being cleared, anything can be seen in it. -/
def TableOp.Seen : TableOp → Memory → Memory → Prop
  | .memset kva, mem, mem' => ∀ address, ¬ (kva ≤ address ∧ address < kva + PGSIZE) →
      mem' address = mem address
  | .store _ _, _, _ => False
  | .sfenceVma _, _, _ => False

def TableOp.result : TableOp → Memory → Memory
  | .store pte value, mem => mem.write pte value
  | .memset kva, mem => mem.fill kva PGSIZE 0
  | .sfenceVma _, mem => mem

def TableOp.flushed : TableOp → Set VirtualPage
  | .sfenceVma la => {pageOf la}
  | _ => ∅

def tableOperations : Operations Memory VirtualPage TableOp where
  seen := TableOp.Seen
  result := TableOp.result
  flushed := TableOp.flushed
  seen_trans {op mem mem' mem''} hseen hseen' := by
    cases op with
    | memset kva => exact fun address hout ↦ (hseen' address hout).trans (hseen address hout)
    | store | sfenceVma => exact hseen
  result_seen {op mem mem'} hseen := by
    cases op with
    | memset kva => exact fill_congr hseen
    | store | sfenceVma => exact hseen.elim

theorem result_memset (mem : Memory) (kva : ℕ) :
    tableOperations.result (.memset kva) mem = mem.fill kva PGSIZE 0 := rfl

theorem result_store (mem : Memory) (pte : ℕ) (value : BitVec 64) :
    tableOperations.result (.store pte value) mem = mem.write pte value := rfl

theorem outcome_nil (mem : Memory) : tableOperations.outcome mem [] = mem := rfl

theorem outcome_cons (mem : Memory) (op : TableOp) (ops : List TableOp) :
    tableOperations.outcome mem (op :: ops) =
      tableOperations.outcome (tableOperations.result op mem) ops := rfl

/-- The operations lead from one memory to another, and all translations they change are flushed. -/
structure Traced (root : ℕ) (mem mem' : Memory) (ops : List TableOp) : Prop where
  flushes : Flushes tableOperations (pageLeaf root) ∅ mem ops
  outcome : tableOperations.outcome mem ops = mem'

section Traces

variable {npage root ppn index child : ℕ} {kernel : Finset ℕ} {mem mem' mem'' : Memory}
  {parent : List ℕ} {ops ops' : List TableOp} {pte : BitVec 64} {la : BitVec 64}

theorem Traced.refl (root : ℕ) (mem : Memory) : Traced root mem mem [] := ⟨.done, rfl⟩

theorem Traced.trans (h : Traced root mem mem' ops) (h' : Traced root mem' mem'' ops') :
    Traced root mem mem'' (ops ++ ops') where
  flushes := h.flushes.append (h.outcome.symm ▸ h'.flushes)
  outcome := by rw [Operations.outcome_append, h.outcome, h'.outcome]

theorem sameAnswers {keys : Set VirtualPage} (hsame : ∀ page ∉ keys,
      walkAt mem' root page.path = walkAt mem root page.path) :
    SameAnswers (pageLeaf root) keys mem mem' := fun page hpage ↦ leafAt_congr (hsame page hpage)

/-- A new table is cleared and then hung in. -/
theorem HardwareTables.traced_table (h : HardwareTables kernel mem root)
    (htree : TableTree npage kernel mem root) (hnpage : npage ≤ KERNTOP / PGSIZE)
    (hentry : IsTable kernel (index :: parent)) (hppn : ppnAt mem root parent = some ppn)
    (hnone : ppnAt mem root (index :: parent) = none) (hchild : child < npage)
    (hfresh : ∀ {path}, IsTable kernel path → ppnAt mem root path ≠ some child)
    (hpte : ∀ depth, walkEntry depth pte = .table child) :
    Traced root mem ((mem.fill (frameKva child) PGSIZE 0).write (entryOf ppn index) pte)
      [.memset (frameKva child), .store (entryOf ppn index) pte] where
  flushes := by
    have hclear : ∀ mem', (TableOp.memset (frameKva child)).Seen mem mem' →
        SameAnswers (pageLeaf root) ∅ mem mem' := fun mem' hseen ↦
      sameAnswers fun page _ ↦
        (h.offPage htree hnpage hchild hfresh hseen).2 page.path page.isSlot.1 page.isSlot.2.le
    refine .keep hclear ?_ (.keep (fun mem' hseen ↦ hseen.elim) ?_ .done)
    · rw [result_memset]
      exact hclear _ fun address hout ↦ fill_outside hout
    · rw [result_memset, result_store]
      refine sameAnswers fun page _ ↦ ?_
      have hne : page.path ≠ index :: parent := by
        intro heq
        have hlength := hentry.2
        rw [← heq, page.isSlot.2] at hlength
        exact absurd hlength (by decide)
      exact (h.addTable htree hnpage hentry hppn hnone hchild hfresh hpte).2 page.path
        page.isSlot.1 page.isSlot.2.le hne
  outcome := by rw [outcome_cons, outcome_cons, outcome_nil, result_memset, result_store]

end Traces

/-- Memory in which the slot of the address lies in the leaf table `leaf`. -/
structure AtLeaf (npage root : ℕ) (kernel : Finset ℕ) (la : BitVec 64) (leaf : ℕ) (mem : Memory) :
    Prop where
  tree : TableTree npage kernel mem root
  hardware : HardwareTables kernel mem root
  found : ppnAt mem root [PDX0 la, PDX1 la] = some leaf

/-- A store to the slot, flushed at once. -/
theorem AtLeaf.store {npage root leaf : ℕ} {kernel : Finset ℕ} {la : BitVec 64} {mem : Memory}
    (h : AtLeaf npage root kernel la leaf mem) (hnpage : npage ≤ KERNTOP / PGSIZE)
    (hla : PDX1 la ∉ kernel) (pte : BitVec 64) :
    AtLeaf npage root kernel la leaf (mem.write (entryOf leaf (PTX la)) pte) ∧
      Traced root mem (mem.write (entryOf leaf (PTX la)) pte)
        [.store (entryOf leaf (PTX la)) pte, tlbInvalidate la] := by
  have hslot := isSlot_slotOf hla
  have hparent : IsTable kernel [PDX0 la, PDX1 la] := IsTable.tail hslot.1 hslot.2.le
  obtain ⟨htree, hassign⟩ := h.tree.setSlot pte hnpage hslot h.found
  obtain ⟨hhardware, hsame⟩ := h.hardware.setSlot pte h.tree hnpage hslot h.found
  refine ⟨⟨htree, hhardware, ?_⟩, ?_, ?_⟩
  · rw [hassign _ hparent.1 hparent.2.le, Function.update_of_ne (by simp), h.found]
  · have hstore : SameAnswers (pageLeaf root) {pageOf la} mem
        (mem.write (entryOf leaf (PTX la)) pte) := by
      refine sameAnswers fun page hpage ↦ hsame page.path page.isSlot.1 page.isSlot.2.le ?_
      intro heq
      obtain ⟨path, hpath⟩ := page
      obtain rfl : path = slotOf la := heq
      exact hpage rfl
    have hflushed : ({pageOf la} \ tableOperations.flushed (.store (entryOf leaf (PTX la)) pte)) \
        tableOperations.flushed (tlbInvalidate la) = (∅ : Set VirtualPage) :=
      Set.sdiff_eq_empty.mpr Set.sdiff_subset
    refine .next (Set.empty_subset _) (fun mem' hseen ↦ hseen.elim) hstore
      (.next subset_rfl (fun mem' hseen ↦ hseen.elim) (fun page _ ↦ rfl) ?_)
    rw [hflushed]
    exact .done
  · rw [outcome_cons, outcome_cons, outcome_nil, result_store]
    rfl

/-! ## The calls -/

section Calls

variable {allocator : FrameAllocator} {npage root index leaf : ℕ} {kernel : Finset ℕ}
  {paging paging' : Paging allocator} {parent : List ℕ} {la : BitVec 64} {ops : List TableOp}

theorem erase_ok {α β γ : Type} {traced : Except Fault (α × β × γ)} {plain : Except Fault (α × β)}
    {a : α} {b : β} {ops : γ} (herase : withoutOps <$> traced = plain)
    (hcall : traced = .ok (a, b, ops)) : plain = .ok (a, b) := by
  rw [← herase, hcall]
  rfl

theorem fst_ok {α β : Type} {traced : Except Fault (α × β)} {plain : Except Fault α} {a : α} {ops : β}
    (herase : Prod.fst <$> traced = plain) (hcall : traced = .ok (a, ops)) : plain = .ok a := by
  rw [← herase, hcall]
  rfl

/-- One level of `get_pte` changes no translation. -/
theorem createTableOps_traced {ppn : ℕ} {present create : Bool}
    (h : Tables npage root kernel paging) (hhardware : HardwareTables kernel paging.mem root)
    (hcorrect : allocator.Correct (Frame npage root)) (hnpage : npage ≤ KERNTOP / PGSIZE)
    (hentry : IsTable kernel (index :: parent)) (hppn : ppnAt paging.mem root parent = some ppn)
    (hcall : createTableOps npage paging (entryOf ppn index) create = .ok (present, paging', ops)) :
    Tables npage root kernel paging' ∧ HardwareTables kernel paging'.mem root ∧
      Traced root paging.mem paging'.mem ops ∧ ppnAt paging'.mem root parent = some ppn ∧
      (present = true → ∃ child, ppnAt paging'.mem root (index :: parent) = some child) := by
  have hparent : IsTable kernel parent := IsTable.tail hentry.1 hentry.2.le
  have hcell : ppnAt paging.mem root (index :: parent) =
      pteTarget (paging.mem (entryOf ppn index)) := ppnAt_cons_of hppn
  unfold createTableOps at hcall
  by_cases hvalid : paging.mem (entryOf ppn index) &&& PTE_V = 0
  · rw [if_neg (not_not.mpr hvalid)] at hcall
    cases create with
    | false =>
      obtain ⟨rfl, hrest⟩ := Prod.mk.inj (Except.ok.inj hcall)
      obtain ⟨rfl, rfl⟩ := Prod.mk.inj hrest
      exact ⟨h, hhardware, .refl root _, hppn, by simp⟩
    | true =>
      rw [if_neg (by decide)] at hcall
      rcases halloc : allocator.allocPage paging.frames with ⟨child | child, frames⟩
      · rw [halloc] at hcall
        obtain ⟨rfl, hrest⟩ := Prod.mk.inj (Except.ok.inj hcall)
        obtain ⟨rfl, rfl⟩ := Prod.mk.inj hrest
        exact ⟨(h.of_allocNull hcorrect halloc).1, hhardware, .refl root _, hppn, by simp⟩
      · have hbound := (hcorrect.allocSome halloc).1.1
        have hnone : ppnAt paging.mem root (index :: parent) = none := by
          rw [hcell, pteTarget_eq_none.mpr hvalid]
        have hpte : ∀ depth, walkEntry depth (pteCreate (page2ppn child) (PTE_U ||| PTE_V)) =
            .table (page2ppn child) := fun depth ↦ walkEntry_pteCreate (ppn_lt hnpage hbound)
        have hfresh : ∀ {path}, IsTable kernel path →
            ppnAt paging.mem root path ≠ some (page2ppn child) :=
          h.ppnAt_ne_of_allocSome hcorrect halloc
        rw [halloc] at hcall
        dsimp only at hcall
        rw [KADDR_page2pa hnpage hbound, ok_bind] at hcall
        obtain ⟨rfl, hrest⟩ := Prod.mk.inj (Except.ok.inj hcall)
        obtain ⟨hpaging, rfl⟩ := Prod.mk.inj hrest
        obtain ⟨hmem, hframes, hfreed⟩ := Tables.hang_fields paging frames child
          (frameKva (page2ppn child)) (entryOf ppn index)
          (pteCreate (page2ppn child) (PTE_U ||| PTE_V))
        rw [hpaging] at hmem hframes hfreed
        obtain ⟨hnext, hgrown, hhangs⟩ := h.of_allocSome hcorrect hnpage hentry hppn hnone halloc
          (show (PTE_U ||| PTE_V : BitVec 32).toNat < 0x400 by decide) hmem hframes hfreed
        refine ⟨hnext, ?_, ?_, hgrown.kept hparent hppn, fun _ ↦ ⟨_, hhangs.after⟩⟩ <;> rw [hmem]
        · exact (hhardware.addTable h.tree hnpage hentry hppn hnone hbound hfresh hpte).1
        · exact hhardware.traced_table h.tree hnpage hentry hppn hnone hbound hfresh hpte
  · rw [if_pos hvalid] at hcall
    obtain ⟨rfl, hrest⟩ := Prod.mk.inj (Except.ok.inj hcall)
    obtain ⟨rfl, rfl⟩ := Prod.mk.inj hrest
    refine ⟨h, hhardware, .refl root _, hppn, fun _ ↦ ⟨PPN (PTE_ADDR (paging.mem (entryOf ppn index))),
      ?_⟩⟩
    rw [hcell, pteTarget, if_neg hvalid]

/-- `get_pte` changes no translation, and leads to the slot. -/
theorem getPteOps_traced {ptep : Option ℕ} {create : Bool} (h : Tables npage root kernel paging)
    (hhardware : HardwareTables kernel paging.mem root)
    (hcorrect : allocator.Correct (Frame npage root)) (hnpage : npage ≤ KERNTOP / PGSIZE)
    (hla : PDX1 la ∉ kernel)
    (hcall : getPteOps npage paging (frameKva root) la create = .ok (ptep, paging', ops)) :
    HardwareTables kernel paging'.mem root ∧ Traced root paging.mem paging'.mem ops ∧
      ∀ pte, ptep = some pte → ∃ leaf, pte = entryOf leaf (PTX la) ∧
        AtLeaf npage root kernel la leaf paging'.mem := by
  have hslot := isSlot_slotOf hla
  have hleaf : IsTable kernel [PDX0 la, PDX1 la] := IsTable.tail hslot.1 hslot.2.le
  have hmiddle : IsTable kernel [PDX1 la] := IsTable.tail hleaf.1 hleaf.2.le
  unfold getPteOps at hcall
  change (createTableOps npage paging (entryOf root (PDX1 la)) create >>= _) = _ at hcall
  obtain ⟨⟨present, paging₁, upper⟩, hupper, hcall⟩ := bind_eq_ok.mp hcall
  obtain ⟨htables₁, hhardware₁, htraced₁, -, hfound₁⟩ :=
    createTableOps_traced h hhardware hcorrect hnpage hmiddle ppnAt_nil hupper
  cases present with
  | false =>
    obtain ⟨rfl, hrest⟩ := Prod.mk.inj (Except.ok.inj hcall)
    obtain ⟨rfl, rfl⟩ := Prod.mk.inj hrest
    exact ⟨hhardware₁, htraced₁, by simp⟩
  | true =>
    obtain ⟨middle, hmiddle_eq⟩ := hfound₁ rfl
    dsimp only [Bool.not_true] at hcall
    rw [if_neg (by decide)] at hcall
    change (KADDR npage (PTE_ADDR (paging₁.mem (entryOf root (PDX1 la)))) >>= _) = _ at hcall
    rw [htables₁.tree.KADDR_entry hmiddle ppnAt_nil hmiddle_eq, ok_bind] at hcall
    change (createTableOps npage paging₁ (entryOf middle (PDX0 la)) create >>= _) = _ at hcall
    obtain ⟨⟨present, paging₂, lower⟩, hlower, hcall⟩ := bind_eq_ok.mp hcall
    obtain ⟨htables₂, hhardware₂, htraced₂, hmiddle_eq, hfound₂⟩ :=
      createTableOps_traced htables₁ hhardware₁ hcorrect hnpage hleaf hmiddle_eq hlower
    cases present with
    | false =>
      obtain ⟨rfl, hrest⟩ := Prod.mk.inj (Except.ok.inj hcall)
      obtain ⟨rfl, rfl⟩ := Prod.mk.inj hrest
      exact ⟨hhardware₂, htraced₁.trans htraced₂, by simp⟩
    | true =>
      obtain ⟨leaf, hleaf_eq⟩ := hfound₂ rfl
      dsimp only [Bool.not_true] at hcall
      rw [if_neg (by decide)] at hcall
      change (KADDR npage (PTE_ADDR (paging₂.mem (entryOf middle (PDX0 la)))) >>= _) = _ at hcall
      rw [htables₂.tree.KADDR_entry hleaf hmiddle_eq hleaf_eq, ok_bind] at hcall
      obtain ⟨rfl, hrest⟩ := Prod.mk.inj (Except.ok.inj hcall)
      obtain ⟨rfl, rfl⟩ := Prod.mk.inj hrest
      refine ⟨hhardware₂, htraced₁.trans htraced₂, fun pte hpte ↦ ⟨leaf, ?_, ?_⟩⟩
      · exact (Option.some.inj hpte).symm
      · exact ⟨htables₂.tree, hhardware₂, hleaf_eq⟩

variable {ptep page : ℕ}

/-- `page_remove_pte` flushes after its store. -/
theorem AtLeaf.pageRemovePteOps (h : AtLeaf npage root kernel la leaf paging.mem)
    (hnpage : npage ≤ KERNTOP / PGSIZE) (hla : PDX1 la ∉ kernel)
    (hcall : Ucore.pageRemovePteOps npage paging la (entryOf leaf (PTX la)) = .ok (paging', ops)) :
    AtLeaf npage root kernel la leaf paging'.mem ∧ Traced root paging.mem paging'.mem ops := by
  unfold Ucore.pageRemovePteOps at hcall
  split_ifs at hcall
  · obtain ⟨rfl, rfl⟩ := Prod.mk.inj (Except.ok.inj hcall)
    exact ⟨h, .refl root _⟩
  · obtain ⟨page, -, hcall⟩ := bind_eq_ok.mp hcall
    change Except.ok (setPte (dropRef paging page) (entryOf leaf (PTX la)) 0, _) = _ at hcall
    obtain ⟨hpaging, rfl⟩ := Prod.mk.inj (Except.ok.inj hcall)
    have hmem : paging'.mem = paging.mem.write (entryOf leaf (PTX la)) 0 := by
      rw [← hpaging, setPte, dropRef_mem]
    rw [hmem]
    exact h.store hnpage hla 0

theorem AtLeaf.pageReplaceOps (h : AtLeaf npage root kernel la leaf paging.mem)
    (hnpage : npage ≤ KERNTOP / PGSIZE) (hla : PDX1 la ∉ kernel)
    (hcall : Ucore.pageReplaceOps npage paging page la (entryOf leaf (PTX la)) =
      .ok (paging', ops)) :
    AtLeaf npage root kernel la leaf paging'.mem ∧ Traced root paging.mem paging'.mem ops := by
  unfold Ucore.pageReplaceOps at hcall
  split_ifs at hcall
  · obtain ⟨rfl, rfl⟩ := Prod.mk.inj (Except.ok.inj hcall)
    exact ⟨h, .refl root _⟩
  · obtain ⟨p, -, hcall⟩ := bind_eq_ok.mp hcall
    split_ifs at hcall
    · obtain ⟨rfl, rfl⟩ := Prod.mk.inj (Except.ok.inj hcall)
      exact ⟨h, .refl root _⟩
    · exact h.pageRemovePteOps hnpage hla hcall

theorem pageRemoveOps_traced (h : Tables npage root kernel paging)
    (hhardware : HardwareTables kernel paging.mem root)
    (hcorrect : allocator.Correct (Frame npage root)) (hnpage : npage ≤ KERNTOP / PGSIZE)
    (hla : PDX1 la ∉ kernel)
    (hcall : pageRemoveOps npage paging (frameKva root) la = .ok (paging', ops)) :
    HardwareTables kernel paging'.mem root ∧ Traced root paging.mem paging'.mem ops := by
  obtain ⟨⟨ptep, paging₁, walk⟩, hwalk, hcall⟩ := bind_eq_ok.mp hcall
  obtain ⟨hhardware₁, htraced₁, hfound⟩ :=
    getPteOps_traced h hhardware hcorrect hnpage hla hwalk
  cases ptep with
  | none =>
    obtain ⟨rfl, rfl⟩ := Prod.mk.inj (Except.ok.inj hcall)
    exact ⟨hhardware₁, htraced₁⟩
  | some ptep =>
    obtain ⟨leaf, rfl, hleaf⟩ := hfound ptep rfl
    obtain ⟨⟨paging₂, remove⟩, hremove, hcall⟩ := bind_eq_ok.mp hcall
    obtain ⟨rfl, rfl⟩ := Prod.mk.inj (Except.ok.inj hcall)
    obtain ⟨hleaf', htraced₂⟩ := hleaf.pageRemovePteOps hnpage hla hremove
    exact ⟨hleaf'.hardware, htraced₁.trans htraced₂⟩

theorem pageInsertOps_traced {perm : BitVec 32} {result : ℤ} (h : Tables npage root kernel paging)
    (hhardware : HardwareTables kernel paging.mem root)
    (hcorrect : allocator.Correct (Frame npage root)) (hnpage : npage ≤ KERNTOP / PGSIZE)
    (hla : PDX1 la ∉ kernel)
    (hcall : pageInsertOps npage paging (frameKva root) page la perm = .ok (result, paging', ops)) :
    HardwareTables kernel paging'.mem root ∧ Traced root paging.mem paging'.mem ops := by
  obtain ⟨⟨ptep, paging₁, walk⟩, hwalk, hcall⟩ := bind_eq_ok.mp hcall
  obtain ⟨hhardware₁, htraced₁, hfound⟩ :=
    getPteOps_traced h hhardware hcorrect hnpage hla hwalk
  cases ptep with
  | none =>
    obtain ⟨-, hrest⟩ := Prod.mk.inj (Except.ok.inj hcall)
    obtain ⟨rfl, rfl⟩ := Prod.mk.inj hrest
    exact ⟨hhardware₁, htraced₁⟩
  | some ptep =>
    obtain ⟨leaf, rfl, hleaf⟩ := hfound ptep rfl
    obtain ⟨⟨paging₂, replace⟩, hreplace, hcall⟩ := bind_eq_ok.mp hcall
    obtain ⟨-, hrest⟩ := Prod.mk.inj (Except.ok.inj hcall)
    obtain ⟨rfl, rfl⟩ := Prod.mk.inj hrest
    have hcounted : AtLeaf npage root kernel la leaf (pageRefInc paging₁ page).mem := hleaf
    obtain ⟨hleaf', htraced₂⟩ := hcounted.pageReplaceOps hnpage hla hreplace
    obtain ⟨hleaf'', htraced₃⟩ :=
      hleaf'.store hnpage hla (pteCreate (page2ppn page) (PTE_V ||| perm))
    exact ⟨hleaf''.hardware, (htraced₁.trans htraced₂).trans htraced₃⟩

/-- A leaf of the hardware is the valid entry that `get_pte` finds. -/
theorem HardwareTables.getPte_of_leaf {leaf : Leaf} (h : HardwareTables kernel paging.mem root)
    (htree : TableTree npage kernel paging.mem root) (hla : PDX1 la ∉ kernel)
    (hleaf : pageLeaf root paging.mem (pageOf la) = some leaf) :
    ∃ ptep, getPte npage paging (frameKva root) la false = .ok (some ptep, paging) ∧
      leaf = ⟨3, paging.mem ptep⟩ ∧ paging.mem ptep &&& PTE_V ≠ 0 := by
  have hslot := isSlot_slotOf hla
  have hparent : IsTable kernel [PDX0 la, PDX1 la] := IsTable.tail hslot.1 hslot.2.le
  have hwalk : walkAt paging.mem root (slotOf la) = .leaf leaf := leafAt_eq_some.mp hleaf
  cases hfound : ppnAt paging.mem root [PDX0 la, PDX1 la] with
  | none =>
    have hfault := h.fault_of_none hparent.1 hparent.2.le hfound
    rw [slotOf, walkAt_fault_of_suffix hfault (List.suffix_cons _ _)] at hwalk
    cases hwalk
  | some table =>
    rw [slotOf, walkAt_cons_table (h.pointers hparent hfound)] at hwalk
    obtain ⟨hvalid, hentry⟩ := walkEntry_leaf hwalk
    refine ⟨entryOf table (PTX la), ?_, hentry, hvalid⟩
    rw [htree.getPte_lookup hla, hfound]
    rfl

end Calls

end Ucore
