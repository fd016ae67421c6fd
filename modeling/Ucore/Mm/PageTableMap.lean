import Ucore.Mm.PageTableRuns

/-!
# Page tables as a map

What `get_page` finds at an address is the valid entry of its slot. `page_insert` and `page_remove`
update this map at one slot, whatever the reference counts are; a `page_insert` that fails leaves it
alone.
-/

namespace Ucore

open Foundation Memory

variable {allocator : FrameAllocator}

/-- The page that an address is mapped to and the flags of its entry, as `get_page` finds them. -/
def mapping (npage : ℕ) (paging : Paging allocator) (pgdir : ℕ) (la : BitVec 64) :
    Except Fault (Option (ℕ × BitVec 64)) := do
  let (page, ptep) ← getPage npage paging pgdir la
  return page.bind fun page ↦ ptep.map fun ptep ↦ (page, paging.mem ptep &&& 0x3FF#64)

/-- A tree of tables whose slots lead to pages that the kernel knows. -/
structure WellFormed (npage root : ℕ) (kernel : Finset ℕ) (mem : Memory) : Prop where
  tree : TableTree npage kernel mem root
  known : ∀ {slot ppn}, IsSlot kernel slot → ppnAt mem root slot = some ppn →
    nbase ≤ ppn ∧ ppn < npage

/-- The page and the flags of an entry. -/
def pageAndFlags (pte : BitVec 64) : ℕ × BitVec 64 := (PPN (PTE_ADDR pte) - nbase, pte &&& 0x3FF#64)

/-- The flags of an entry are those that went into it. -/
theorem pteCreate_flags {ppn : ℕ} {perm : BitVec 32} (hperm : perm.toNat < 0x400) :
    pteCreate ppn (PTE_V ||| perm) &&& 0x3FF#64 = (PTE_V ||| perm).setWidth 64 := by
  have htype := PTE_V_or_lt hperm
  have hmsb : (PTE_V ||| perm).msb = false := by
    rw [BitVec.msb_eq_decide, decide_eq_false_iff_not]
    omega
  have hvalid : (PTE_V : BitVec 64) ||| (PTE_V ||| perm).setWidth 64 =
      (PTE_V ||| perm).setWidth 64 := by
    rw [BitVec.setWidth_or, ← BitVec.or_assoc]
    congr 1
  have hhigh : BitVec.ofNat 64 ppn <<< 10 &&& 0x3FF#64 = 0#64 := ppn_and_flags (by decide)
  have hlow : (PTE_V ||| perm).setWidth 64 &&& 0x3FF#64 = (PTE_V ||| perm).setWidth 64 := by
    apply BitVec.eq_of_toNat_eq
    rw [BitVec.toNat_and]
    change ((PTE_V ||| perm).setWidth 64).toNat &&& 2 ^ 10 - 1 = _
    rw [Nat.and_two_pow_sub_one_eq_mod, BitVec.toNat_setWidth]
    omega
  rw [pteCreate, BitVec.signExtend_eq_setWidth_of_msb_false hmsb, BitVec.or_assoc, hvalid,
    BitVec.and_or_distrib_right, hhigh, BitVec.zero_or, hlow]

namespace WellFormed

variable {npage root page : ℕ} {kernel : Finset ℕ} {mem : Memory}
  {paging paging' : Paging allocator} {la la' : BitVec 64} {perm : BitVec 32}

/-- `get_page` reads the valid entry of the slot. -/
theorem mapping_eq (h : WellFormed npage root kernel paging.mem) (hla : PDX1 la ∉ kernel) :
    mapping npage paging (frameKva root) la =
      .ok ((pteAt paging.mem root (slotOf la)).map pageAndFlags) := by
  have hslot := isSlot_slotOf hla
  rw [mapping, getPage, h.tree.getPte_lookup hla, ok_bind, slotOf, pteAt_cons]
  cases hleaf : ppnAt paging.mem root [PDX0 la, PDX1 la] with
  | none => rfl
  | some leaf =>
    rw [Option.bind_some, Option.map_some, validPte]
    dsimp only
    by_cases hvalid : paging.mem (entryOf leaf (PTX la)) &&& PTE_V = 0
    · rw [if_pos hvalid, if_pos hvalid]
      rfl
    · have hppn : ppnAt paging.mem root (slotOf la) =
          some (PPN (PTE_ADDR (paging.mem (entryOf leaf (PTX la))))) := by
        rw [slotOf, ppnAt_cons_of hleaf, pteTarget, if_neg hvalid]
      have hbound := h.known hslot hppn
      rw [if_neg hvalid, if_neg hvalid, pte2page_eq hvalid hbound.1 hbound.2]
      rfl

/-- Equal entries give equal mappings. -/
theorem mapping_congr (h : WellFormed npage root kernel paging.mem)
    (h' : WellFormed npage root kernel paging'.mem) (hla : PDX1 la ∉ kernel)
    (hpte : pteAt paging'.mem root (slotOf la) = pteAt paging.mem root (slotOf la)) :
    mapping npage paging' (frameKva root) la = mapping npage paging (frameKva root) la := by
  rw [h.mapping_eq hla, h'.mapping_eq hla, hpte]

/-- New empty tables keep the map. -/
theorem of_grown (h : WellFormed npage root kernel paging.mem)
    (htables : Tables npage root kernel paging') (hgrown : Grown root kernel paging paging') :
    WellFormed npage root kernel paging'.mem where
  tree := htables.tree
  known hslot hfound := h.known hslot ((hgrown.slots hslot).symm.trans hfound)

/-- Assigning a slot updates the map there, and nowhere else. -/
theorem assign {leaf : ℕ} {pte : BitVec 64} (h : WellFormed npage root kernel paging.mem)
    (hnpage : npage ≤ KERNTOP / PGSIZE) (hla : PDX1 la ∉ kernel)
    (hleaf : ppnAt paging.mem root [PDX0 la, PDX1 la] = some leaf)
    (hpte : ∀ ppn, pteTarget pte = some ppn → nbase ≤ ppn ∧ ppn < npage)
    (hmem : paging'.mem = paging.mem.write (entryOf leaf (PTX la)) pte) :
    WellFormed npage root kernel paging'.mem ∧ ∀ la', PDX1 la' ∉ kernel →
      mapping npage paging' (frameKva root) la' =
        if slotOf la' = slotOf la then .ok ((validPte pte).map pageAndFlags)
        else mapping npage paging (frameKva root) la' := by
  have hslot : IsSlot kernel (PTX la :: [PDX0 la, PDX1 la]) := isSlot_slotOf hla
  obtain ⟨htree, hassign⟩ := h.tree.setSlot pte hnpage hslot hleaf
  have hptes : ∀ {path}, IsSlot kernel path →
      pteAt (paging.mem.write (entryOf leaf (PTX la)) pte) root path = _ :=
    h.tree.setSlot_pteAt hnpage hslot hleaf
  rw [← hmem] at htree hassign hptes
  have hformed : WellFormed npage root kernel paging'.mem := by
    refine ⟨htree, fun {slot ppn} hother hfound ↦ ?_⟩
    rw [hassign slot hother.1 hother.2.le, Function.update_apply] at hfound
    split at hfound
    · exact hpte ppn hfound
    · exact h.known hother hfound
  refine ⟨hformed, fun la' hla' ↦ ?_⟩
  rw [hformed.mapping_eq hla', hptes (isSlot_slotOf hla'), Function.update_apply, ← slotOf]
  by_cases hsame : slotOf la' = slotOf la
  · rw [if_pos hsame, if_pos hsame]
  · rw [if_neg hsame, if_neg hsame, h.mapping_eq hla']

end WellFormed

section Effects

variable {npage page pgdir ptep : ℕ} {paging paging' paging₁ : Paging allocator} {la : BitVec 64}
  {perm : BitVec 32}

theorem pageRemovePte_mem (hcall : pageRemovePte npage paging ptep = .ok paging') :
    paging'.mem = if paging.mem ptep &&& PTE_V = 0 then paging.mem
      else paging.mem.write ptep 0 := by
  by_cases hvalid : paging.mem ptep &&& PTE_V = 0
  · rw [pageRemovePte, if_pos hvalid] at hcall
    rw [if_pos hvalid, ← Except.ok.inj hcall]
  · rw [if_neg hvalid]
    have hremove := hcall
    rw [pageRemovePte, if_neg hvalid] at hremove
    obtain ⟨old, hold, -⟩ := bind_eq_ok.mp hremove
    rw [pageRemovePte_eq hvalid hold] at hcall
    rw [← Except.ok.inj hcall]
    exact congrArg (Memory.write · ptep 0) dropRef_mem

/-- What `page_insert` writes once it has the entry. -/
theorem pageInsert_mem {result : ℤ}
    (hget : getPte npage paging pgdir la true = .ok (some ptep, paging₁))
    (hcall : pageInsert npage paging pgdir page la perm = .ok (result, paging')) :
    paging'.mem = paging₁.mem.write ptep (pteCreate (page2ppn page) (PTE_V ||| perm)) := by
  unfold pageInsert at hcall
  rw [hget, ok_bind] at hcall
  obtain ⟨replaced, hreplace, hcall⟩ := bind_eq_ok.mp hcall
  obtain ⟨-, rfl⟩ := Prod.mk.inj (Except.ok.inj hcall)
  have hmem : replaced.mem = paging₁.mem ∨ replaced.mem = paging₁.mem.write ptep 0 := by
    unfold pageReplace at hreplace
    split at hreplace
    · rw [← Except.ok.inj hreplace]
      exact .inl rfl
    · obtain ⟨old, -, hreplace⟩ := bind_eq_ok.mp hreplace
      split at hreplace
      · rw [← Except.ok.inj hreplace]
        exact .inl rfl
      · have hremoved := pageRemovePte_mem hreplace
        split at hremoved
        · exact .inl hremoved
        · exact .inr hremoved
  change replaced.mem.write ptep _ = _
  rcases hmem with hmem | hmem
  · rw [hmem]
  · rw [hmem, write_write]

end Effects

section Maps

variable {npage root page : ℕ} {kernel : Finset ℕ} {paging paging' : Paging allocator}
  {la : BitVec 64} {perm : BitVec 32}

/-- A `page_insert` that returns `0` maps the page at its slot and keeps all other mappings. -/
theorem pageInsert_mapping (h : WellFormed npage root kernel paging.mem)
    (htables : Tables npage root kernel paging)
    (hcorrect : allocator.Correct (Frame npage root)) (hnpage : npage ≤ KERNTOP / PGSIZE)
    (hla : PDX1 la ∉ kernel) (hpage : page2ppn page < npage) (hperm : perm.toNat < 0x400)
    (hcall : pageInsert npage paging (frameKva root) page la perm = .ok (0, paging')) :
    WellFormed npage root kernel paging'.mem ∧ ∀ la', PDX1 la' ∉ kernel →
      mapping npage paging' (frameKva root) la' =
        if slotOf la' = slotOf la then .ok (some (page, (PTE_V ||| perm).setWidth 64))
        else mapping npage paging (frameKva root) la' := by
  obtain ⟨ptep, paging₁, hget, htables₁, hgrown, hptep⟩ := htables.getPte hcorrect hnpage hla
  rcases hptep with ⟨rfl, -⟩ | ⟨leaf, rfl, hleaf⟩
  · -- without an entry the result is not `0`
    rw [pageInsert, hget, ok_bind] at hcall
    exact absurd (Prod.mk.inj (Except.ok.inj hcall)).1 (by decide)
  · have hformed := h.of_grown htables₁ hgrown
    have hlimit := ppn_lt hnpage hpage
    have htype := PTE_V_or_lt hperm
    have htarget := pteTarget_pteCreate hlimit htype
    obtain ⟨hformed', hmap⟩ := hformed.assign hnpage hla hleaf
      (fun ppn hppn ↦ by
        rw [htarget] at hppn
        rw [← Option.some.inj hppn]
        exact ⟨Nat.le_add_left _ _, hpage⟩)
      (pageInsert_mem hget hcall)
    refine ⟨hformed', fun la' hla' ↦ ?_⟩
    rw [hmap la' hla']
    by_cases hsame : slotOf la' = slotOf la
    · rw [if_pos hsame, if_pos hsame, validPte, if_neg pteCreate_valid, Option.map_some,
        pageAndFlags, PPN_pteCreate hlimit htype, page2ppn_sub, pteCreate_flags hperm]
    · rw [if_neg hsame, if_neg hsame]
      exact h.mapping_congr hformed hla' (hgrown.ptes (isSlot_slotOf hla'))

/-- `page_remove` clears its slot and keeps all other mappings. -/
theorem pageRemove_mapping (h : WellFormed npage root kernel paging.mem)
    (hnpage : npage ≤ KERNTOP / PGSIZE) (hla : PDX1 la ∉ kernel) :
    ∃ paging', pageRemove npage paging (frameKva root) la = .ok paging' ∧
      WellFormed npage root kernel paging'.mem ∧ ∀ la', PDX1 la' ∉ kernel →
        mapping npage paging' (frameKva root) la' =
          if slotOf la' = slotOf la then .ok none
          else mapping npage paging (frameKva root) la' := by
  have hslot := isSlot_slotOf hla
  have hkeep : pteAt paging.mem root (slotOf la) = none → ∀ la', PDX1 la' ∉ kernel →
      mapping npage paging (frameKva root) la' = if slotOf la' = slotOf la then .ok none
        else mapping npage paging (frameKva root) la' := by
    intro hnone la' hla'
    by_cases hsame : slotOf la' = slotOf la
    · rw [if_pos hsame, h.mapping_eq hla', hsame, hnone]
      rfl
    · rw [if_neg hsame]
  unfold pageRemove
  rw [h.tree.getPte_lookup hla, ok_bind]
  cases hleaf : ppnAt paging.mem root [PDX0 la, PDX1 la] with
  | none => exact ⟨paging, rfl, h, hkeep (by rw [slotOf, pteAt_cons, hleaf, Option.bind_none])⟩
  | some leaf =>
    by_cases hvalid : paging.mem (entryOf leaf (PTX la)) &&& PTE_V = 0
    · refine ⟨paging, ?_, h, hkeep ?_⟩
      · change pageRemovePte npage paging (entryOf leaf (PTX la)) = _
        rw [pageRemovePte, if_pos hvalid]
        rfl
      · rw [slotOf, pteAt_cons, hleaf, Option.bind_some, validPte, if_pos hvalid]
    · have hppn : ppnAt paging.mem root (slotOf la) =
          some (PPN (PTE_ADDR (paging.mem (entryOf leaf (PTX la))))) := by
        rw [slotOf, ppnAt_cons_of hleaf, pteTarget, if_neg hvalid]
      have hbound := h.known hslot hppn
      have hold : pte2page npage (paging.mem (entryOf leaf (PTX la))) =
          .ok (PPN (PTE_ADDR (paging.mem (entryOf leaf (PTX la)))) - nbase) :=
        pte2page_eq hvalid hbound.1 hbound.2
      obtain ⟨hformed, hmap⟩ := h.assign hnpage hla hleaf
        (fun ppn hppn ↦ absurd (pteTarget_zero.symm.trans hppn) (by simp))
        ((pageRemovePte_mem (pageRemovePte_eq hvalid hold)).trans (if_neg hvalid))
      exact ⟨_, pageRemovePte_eq hvalid hold, hformed, hmap⟩

/-- `page_insert` and `page_remove` update the map at the slot of the address. -/
theorem page_map_update (h : WellFormed npage root kernel paging.mem)
    (htables : Tables npage root kernel paging)
    (hcorrect : allocator.Correct (Frame npage root)) (hnpage : npage ≤ KERNTOP / PGSIZE)
    (hla : PDX1 la ∉ kernel) :
    (∀ page perm paging', page2ppn page < npage → perm.toNat < 0x400 →
      pageInsert npage paging (frameKva root) page la perm = .ok (0, paging') →
        WellFormed npage root kernel paging'.mem ∧ ∀ la', PDX1 la' ∉ kernel →
          mapping npage paging' (frameKva root) la' =
            if slotOf la' = slotOf la then .ok (some (page, (PTE_V ||| perm).setWidth 64))
            else mapping npage paging (frameKva root) la') ∧
    ∃ paging', pageRemove npage paging (frameKva root) la = .ok paging' ∧
      WellFormed npage root kernel paging'.mem ∧ ∀ la', PDX1 la' ∉ kernel →
        mapping npage paging' (frameKva root) la' =
          if slotOf la' = slotOf la then .ok none
          else mapping npage paging (frameKva root) la' :=
  ⟨fun _ _ _ hpage hperm hcall ↦
    pageInsert_mapping h htables hcorrect hnpage hla hpage hperm hcall,
    pageRemove_mapping h hnpage hla⟩

/-- A tree under an empty root table. -/
theorem emptyPaging_wellFormed (count : ℕ) :
    WellFormed 0x88000 0x80206 {511} (PageWorld.emptyPaging count).mem ∧
      Tables 0x88000 0x80206 {511} (PageWorld.emptyPaging count) := by
  let world : PageWorld (FrameAllocator.firstFit 0x20A count) :=
    ⟨PageWorld.emptyPaging count, ∅⟩
  have hempty : ∀ index < 512, index ∉ ({511} : Finset ℕ) →
      world.paging.mem (entryOf 0x80206 index) &&& PTE_V = 0 :=
    fun index _ _ ↦ PageWorld.emptyPaging_invalid count index
  have howned : Ownership 0x88000 0x80206 {511} world.paging world.data :=
    PageWorld.ownership_boot (by decide) hempty fun page hpage ↦ absurd hpage (Set.notMem_empty page)
  refine ⟨⟨howned.tree, fun {slot ppn} hslot hfound ↦ ?_⟩, howned.toTables⟩
  have hne : slot ≠ [] := by
    intro heq
    rw [heq] at hslot
    exact absurd hslot.2 (by decide)
  rw [PageWorld.ppnAt_boot hempty hslot.1 hne] at hfound
  exact absurd hfound (by simp)

theorem page_map_update_insert : ∃ paging',
    pageInsert 0x88000 (PageWorld.emptyPaging 16) (frameKva 0x80206) 0x20A 0x1000#64 0x6#32 =
        .ok (0, paging') ∧
      mapping 0x88000 paging' (frameKva 0x80206) 0x1234#64 = .ok (some (0x20A, 0x7#64)) := by
  have hcall : (pageInsert 0x88000 (PageWorld.emptyPaging 16) (frameKva 0x80206) 0x20A 0x1000#64
      0x6#32).toOption.any (fun outcome ↦ outcome.1 = 0) = true := by decide +kernel
  obtain ⟨⟨result, paging'⟩, hreturn, hzero⟩ := Option.any_eq_true _ _ |>.mp hcall
  obtain rfl : result = 0 := of_decide_eq_true hzero
  have hreturn := toOption_eq_some.mp hreturn
  obtain ⟨hformed, htables⟩ := emptyPaging_wellFormed 16
  have hmap := (page_map_update hformed htables (PageWorld.firstFit_frames (le_refl 16)) (by decide)
    (show PDX1 0x1000#64 ∉ ({511} : Finset ℕ) by decide)).1 0x20A 0x6#32 paging' (by decide)
    (by decide) hreturn
  exact ⟨paging', hreturn, (hmap.2 0x1234#64 (by decide)).trans (if_pos (by decide))⟩

/-! ## When a table cannot be allocated -/

/-- A `page_insert` that fails changes no mapping and no count; at most one page became an empty
table, which later walks find again. -/
theorem pageInsert_failure (h : WellFormed npage root kernel paging.mem)
    (htables : Tables npage root kernel paging)
    (hcorrect : allocator.Correct (Frame npage root)) (hnpage : npage ≤ KERNTOP / PGSIZE)
    (hla : PDX1 la ∉ kernel)
    (hcall : pageInsert npage paging (frameKva root) page la perm = .ok (-E_NO_MEM, paging')) :
    (∀ la', PDX1 la' ∉ kernel →
      mapping npage paging' (frameKva root) la' = mapping npage paging (frameKva root) la') ∧
    (∀ other ∈ allocator.allocated paging.frames,
      pageRef paging' other = pageRef paging other) ∧
    paging'.freed = paging.freed ∧
    (allocator.allocated paging'.frames = allocator.allocated paging.frames ∨
      ∃ child, Hangs root [PDX1 la] paging paging' child ∧
        ∀ la' ptep paging'', PDX1 la' = PDX1 la →
          getPte npage paging' (frameKva root) la' true = .ok (ptep, paging'') →
            ppnAt paging''.mem root [PDX1 la'] = some (page2ppn child)) := by
  obtain ⟨ptep, paging₁, hget, htables₁, hgrown, hptep⟩ := htables.getPte hcorrect hnpage hla
  rw [pageInsert, hget, ok_bind] at hcall
  rcases hptep with ⟨rfl, -, hleft⟩ | ⟨leaf, rfl, -⟩
  · obtain ⟨-, rfl⟩ := Prod.mk.inj (Except.ok.inj hcall)
    have hformed := h.of_grown htables₁ hgrown
    refine ⟨fun la' hla' ↦ h.mapping_congr hformed hla' (hgrown.ptes (isSlot_slotOf hla')),
      fun other hother ↦ (hgrown.refs hother).2, hgrown.freed, ?_⟩
    refine hleft.imp id fun hhangs ↦ ?_
    obtain ⟨child, hhangs⟩ := hhangs
    refine ⟨child, hhangs, fun la' ptep paging'' hsame hreuse ↦ ?_⟩
    obtain ⟨ptep', paging₂, hreturns, -, hgrown₂, -⟩ :=
      htables₁.getPte hcorrect hnpage (show PDX1 la' ∉ kernel from hsame ▸ hla)
    obtain ⟨-, rfl⟩ := Prod.mk.inj (Except.ok.inj (hreturns.symm.trans hreuse))
    have hslot := isSlot_slotOf hla
    have hleaf : IsTable kernel [PDX0 la, PDX1 la] := IsTable.tail hslot.1 hslot.2.le
    rw [hsame]
    exact hgrown₂.kept (IsTable.tail hleaf.1 hleaf.2.le) hhangs.after
  · obtain ⟨replaced, -, hcall⟩ := bind_eq_ok.mp hcall
    exact absurd (Prod.mk.inj (Except.ok.inj hcall)).1 (by decide)

/-- With one free page left, the second level cannot be allocated. -/
theorem pageInsert_failure_second : ∃ paging',
    pageInsert 0x88000 (PageWorld.emptyPaging 2) (frameKva 0x80206) 0x20A 0x1000#64 0x6#32 =
        .ok (-E_NO_MEM, paging') ∧
      mapping 0x88000 paging' (frameKva 0x80206) 0x1234#64 =
        mapping 0x88000 (PageWorld.emptyPaging 2) (frameKva 0x80206) 0x1234#64 := by
  have hcall : (pageInsert 0x88000 (PageWorld.emptyPaging 2) (frameKva 0x80206) 0x20A 0x1000#64
      0x6#32).toOption.any (fun outcome ↦ outcome.1 = -E_NO_MEM) = true := by decide +kernel
  obtain ⟨⟨result, paging'⟩, hreturn, hfailed⟩ := Option.any_eq_true _ _ |>.mp hcall
  obtain rfl : result = -E_NO_MEM := of_decide_eq_true hfailed
  have hreturn := toOption_eq_some.mp hreturn
  obtain ⟨hformed, htables⟩ := emptyPaging_wellFormed 2
  have hkept := (pageInsert_failure hformed htables (PageWorld.firstFit_frames (by decide))
    (by decide) (show PDX1 0x1000#64 ∉ ({511} : Finset ℕ) by decide) hreturn).1
  exact ⟨paging', hreturn, hkept 0x1234#64 (by decide)⟩

end Maps

/-! ## Entries and addresses as encodings of a page -/

theorem pteCreate_or_valid (ppn : ℕ) (perm : BitVec 32) :
    pteCreate ppn (PTE_V ||| perm) = pteCreate ppn perm := by
  have hvalid : (PTE_V : BitVec 32).signExtend 64 = PTE_V := by decide
  rw [pteCreate, pteCreate, BitVec.signExtend_or, hvalid, BitVec.or_assoc, BitVec.or_assoc,
    ← BitVec.or_assoc PTE_V, BitVec.or_self]

/-- The mask of `PTE_ADDR` is an `int` that is sign-extended. -/
example : (~~~0x3FF#32).signExtend 64 = ~~~0x3FF#64 := by decide

/-- Every encoding of a managed page decodes to the page: the shifts of an entry and of an address,
the bias of the page numbers and the offset of the kernel addresses cancel. -/
theorem encodings_round_trip {npage page : ℕ} {perm : BitVec 32} (hnpage : npage ≤ 2 ^ 44)
    (hpage : page < npage - nbase) (hperm : perm.toNat < 0x400) :
    pte2page npage (pteCreate (page2ppn page) perm) = .ok page ∧
      pteCreate (page2ppn page) perm &&& 0x3FF#64 = (perm ||| PTE_V).setWidth 64 ∧
      pde2page npage (pteCreate (page2ppn page) perm) = .ok page ∧
      pa2page npage (page2pa page) = .ok page ∧
      page2kva npage page = .ok (kvaOf page) ∧
      (KERNBASE ≤ kvaOf page → kva2page npage (kvaOf page) = .ok page) := by
  have htop : npage ≤ KERNTOP / PGSIZE := hnpage.trans (by decide)
  have hlower : nbase ≤ page2ppn page := Nat.le_add_left _ _
  have hupper : page2ppn page < npage := by
    rw [page2ppn]
    omega
  have hppn : PPN (PTE_ADDR (pteCreate (page2ppn page) perm)) = page2ppn page :=
    PPN_pteCreate (ppn_lt htop hupper) hperm
  have hflags : pteCreate (page2ppn page) perm &&& 0x3FF#64 = (perm ||| PTE_V).setWidth 64 := by
    rw [← pteCreate_or_valid, pteCreate_flags hperm, BitVec.or_comm]
  have hdecoded : pa2page npage (PTE_ADDR (pteCreate (page2ppn page) perm)) = .ok page := by
    rw [pa2page_eq (hppn.symm ▸ hlower) (hppn.symm ▸ hupper)
      (hppn.symm ▸ (ppn_lt htop hupper).trans (by decide)), hppn, page2ppn_sub]
  have hpte : pte2page npage (pteCreate (page2ppn page) perm) = .ok page := by
    rw [pte2page, if_neg pteCreate_valid, hdecoded]
  exact ⟨hpte, hflags, hdecoded, pa2page_page2pa htop hupper, page2kva_eq htop hupper,
    kva2page_kvaOf htop hupper⟩

theorem encodings_round_trip_sample :
    pte2page 0x88000 (pteCreate (page2ppn 0x206) 0x7) = .ok 0x206 ∧
      kva2page 0x88000 (kvaOf 0x206) = .ok 0x206 :=
  have h := @encodings_round_trip 0x88000 0x206 0x7 (by decide) (by decide) (by decide)
  ⟨h.1, h.2.2.2.2.2 (by decide)⟩

end Ucore
