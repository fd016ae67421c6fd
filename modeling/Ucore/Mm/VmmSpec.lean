import Mathlib.Data.List.TakeWhile
import Ucore.Foundation.Intervals
import Ucore.Mm.Vmm

/-!
# The vma list

`Listed` is what the list of an mm keeps between the calls: its nodes form a ring, their areas are
ascending and disjoint, the counter is the length of the list and the cache names a member.
-/

namespace Ucore

open Foundation

namespace Vmm

variable {allocator : PageAllocator} {vmm vmm' : Vmm allocator} {mm vma fuel addr : ℕ}
  {members pre post front back : List ℕ}

def start (vmm : Vmm allocator) (vma : ℕ) : ℕ := (vmm.vmas vma).vmStart

def stop (vmm : Vmm allocator) (vma : ℕ) : ℕ := (vmm.vmas vma).vmEnd

structure Listed (vmm : Vmm allocator) (mm : ℕ) (members : List ℕ) : Prop where
  ring : Ring vmm.links (.mmapList mm) (members.map .listLink)
  ascending : Ascending vmm.start vmm.stop members
  count : (vmm.mms mm).mapCount = BitVec.ofNat 32 members.length
  nonnull : ∀ vma ∈ members, vma ≠ 0
  cache : (vmm.mms mm).mmapCache = 0 ∨ (vmm.mms mm).mmapCache ∈ members

/-- The node that `list_add_after` gets to insert behind the vmas `front`. -/
def nodeBehind (mm : ℕ) (front : List ℕ) : VmaNode :=
  (front.map VmaNode.listLink).getLast?.getD (.mmapList mm)

/-! ## `insert_vma_struct` -/

/-- The vmas that the scan passes over. -/
def passed (vmm : Vmm allocator) (vma : ℕ) (members : List ℕ) : List ℕ :=
  members.takeWhile fun other ↦ vmm.start other ≤ vmm.start vma

def remaining (vmm : Vmm allocator) (vma : ℕ) (members : List ℕ) : List ℕ :=
  members.dropWhile fun other ↦ vmm.start other ≤ vmm.start vma

theorem passed_append (vmm : Vmm allocator) (vma : ℕ) (members : List ℕ) :
    vmm.passed vma members ++ vmm.remaining vma members = members := List.takeWhile_append_dropWhile

theorem passed_le {other : ℕ} (hother : other ∈ vmm.passed vma members) :
    vmm.start other ≤ vmm.start vma := by
  simpa using List.mem_takeWhile_imp hother

theorem lt_remaining (h : Ascending vmm.start vmm.stop members) {other : ℕ}
    (hother : other ∈ vmm.remaining vma members) : vmm.start vma < vmm.start other := by
  have hascending : Ascending vmm.start vmm.stop (vmm.remaining vma members) :=
    h.of_sublist (List.dropWhile_sublist _)
  cases hsplit : vmm.remaining vma members with
  | nil => simp [hsplit] at hother
  | cons first rest =>
    have hfirst : vmm.start vma < vmm.start first := by
      have hnot := List.head?_dropWhile_not (fun other ↦ vmm.start other ≤ vmm.start vma) members
      rw [← remaining, hsplit] at hnot
      simpa using hnot
    have hstarts := hascending.starts
    rw [hsplit] at hstarts
    rw [hsplit] at hother
    rcases List.mem_cons.mp hother with rfl | hmem
    · exact hfirst
    · exact hfirst.trans ((List.pairwise_cons.mp hstarts).1 other hmem)

/-- The scan stops behind the vmas that do not start above the new one. -/
theorem insertVmaScan_eq
    (hring : Ring vmm.links (.mmapList mm) ((pre ++ post).map .listLink))
    (hfuel : post.length < fuel) :
    insertVmaScan vmm (.mmapList mm) (vmm.start vma) fuel (nodeBehind mm pre) =
      .ok (nodeBehind mm (pre ++ vmm.passed vma post)) := by
  induction post generalizing pre fuel with
  | nil =>
    obtain ⟨fuel, rfl⟩ := Nat.exists_eq_add_one_of_ne_zero (Nat.ne_zero_of_lt hfuel)
    rw [List.map_append] at hring
    rw [insertVmaScan, nodeBehind, hring.next_before]
    simp [passed, nodeBehind]
  | cons next post ih =>
    obtain ⟨fuel, rfl⟩ := Nat.exists_eq_add_one_of_ne_zero (Nat.ne_zero_of_lt hfuel)
    have hnext : vmm.links.next (nodeBehind mm pre) = .listLink next := by
      rw [List.map_append] at hring
      exact hring.next_before
    rw [insertVmaScan, hnext]
    change (if VmaNode.listLink next = .mmapList mm then _ else
      if vmm.start next > vmm.start vma then _ else _) = _
    rw [if_neg (by simp)]
    by_cases habove : vmm.start next > vmm.start vma
    · rw [if_pos habove]
      simp [passed, not_le.mpr habove]
    · rw [if_neg habove]
      have hsplit : (pre ++ [next]) ++ post = pre ++ next :: post := by simp
      have hrest := ih (hsplit ▸ hring) (by simpa using hfuel)
      have hnode : nodeBehind mm (pre ++ [next]) = .listLink next := by simp [nodeBehind]
      rw [hnode] at hrest
      rw [hrest]
      simp [passed, not_lt.mp habove]

/-- What the checks of a successful insertion leave. -/
def inserted (vmm : Vmm allocator) (mm vma : ℕ) (front : List ℕ) : Vmm allocator where
  heap := vmm.heap
  mms := Function.update vmm.mms mm
    { vmm.mms mm with mapCount := (vmm.mms mm).mapCount + 1 }
  vmas := Function.update vmm.vmas vma { vmm.vmas vma with vmMm := mm }
  links := listAdd vmm.links (nodeBehind mm front) (.listLink vma)

theorem checkVmaOverlap_eq {prev next : ℕ} (hprev : vmm.start prev < vmm.stop prev)
    (hnext : vmm.start next < vmm.stop next) :
    checkVmaOverlap (vmm.vmas prev) (vmm.vmas next) =
      assert (vmm.stop prev ≤ vmm.start next) := by
  change (assert (vmm.start prev < vmm.stop prev) >>= fun _ ↦
    assert (vmm.stop prev ≤ vmm.start next) >>= fun _ ↦
      assert (vmm.start next < vmm.stop next)) = _
  rw [assert_of_true hprev, assert_of_true hnext, ok_bind]
  by_cases hle : vmm.stop prev ≤ vmm.start next <;> simp [assert, hle]

/-- The insertion passes its assertions when the new area is not empty and fits between its
neighbours. -/
theorem insertVmaStruct_eq (h : Listed vmm mm members) (hfuel : members.length < fuel)
    (hvma : vmm.start vma < vmm.stop vma) :
    (FitsBetween vmm.start vmm.stop (vmm.passed vma members) (vmm.remaining vma members) vma →
        insertVmaStruct fuel vmm mm vma = .ok (vmm.inserted mm vma (vmm.passed vma members))) ∧
      (¬ FitsBetween vmm.start vmm.stop (vmm.passed vma members) (vmm.remaining vma members) vma →
        insertVmaStruct fuel vmm mm vma = .error .panic) := by
  have hscan : insertVmaScan vmm (.mmapList mm) (vmm.start vma) fuel (.mmapList mm) =
      .ok (nodeBehind mm (vmm.passed vma members)) :=
    insertVmaScan_eq (show Ring vmm.links (.mmapList mm) (([] ++ members).map .listLink) from h.ring)
      hfuel
  have hsplit := passed_append vmm vma members
  have hring := h.ring
  have hnonempty := h.ascending.nonempty
  rw [← hsplit] at hring hnonempty
  generalize vmm.passed vma members = front at *
  generalize vmm.remaining vma members = back at *
  rw [List.map_append] at hring
  have hnext : vmm.links.next (nodeBehind mm front) =
      (back.map VmaNode.listLink).head?.getD (.mmapList mm) := hring.next_before
  have hcheck_prev : (if nodeBehind mm front ≠ .mmapList mm then
      checkVmaOverlap (vmm.vmas (le2vma (nodeBehind mm front))) (vmm.vmas vma) else .ok ()) =
      assert (∀ left ∈ front.getLast?, vmm.stop left ≤ vmm.start vma) := by
    rcases List.eq_nil_or_concat front with rfl | ⟨pre, last, rfl⟩
    · simp [nodeBehind, assert]
    · have hnode : nodeBehind mm (pre.concat last) = .listLink last := by simp [nodeBehind]
      rw [hnode, if_pos (by simp), le2vma, checkVmaOverlap_eq (hnonempty last (by simp)) hvma]
      simp
  have hcheck_next : (if vmm.links.next (nodeBehind mm front) ≠ .mmapList mm then
      checkVmaOverlap (vmm.vmas vma) (vmm.vmas (le2vma (vmm.links.next (nodeBehind mm front))))
      else .ok ()) = assert (∀ right ∈ back.head?, vmm.stop vma ≤ vmm.start right) := by
    rw [hnext]
    cases back with
    | nil => simp [assert]
    | cons first rest =>
      have hnode : ((first :: rest).map VmaNode.listLink).head?.getD (.mmapList mm) =
          .listLink first := rfl
      rw [hnode, if_pos (by simp), le2vma, checkVmaOverlap_eq hvma (hnonempty first (by simp))]
      simp
  have hcall : insertVmaStruct fuel vmm mm vma =
      (assert (∀ left ∈ front.getLast?, vmm.stop left ≤ vmm.start vma) >>= fun _ ↦
        assert (∀ right ∈ back.head?, vmm.stop vma ≤ vmm.start right) >>= fun _ ↦
          .ok (vmm.inserted mm vma front)) := by
    rw [← hcheck_prev, ← hcheck_next]
    change (assert (vmm.start vma < vmm.stop vma) >>= fun _ ↦
      insertVmaScan vmm (.mmapList mm) (vmm.start vma) fuel (.mmapList mm) >>= _) = _
    rw [assert_of_true hvma, ok_bind, hscan]
    rfl
  rw [hcall]
  constructor
  · rintro ⟨hlast, hfirst⟩
    rw [assert_of_true hlast, assert_of_true hfirst]
    rfl
  · intro hnot
    by_cases hlast : ∀ left ∈ front.getLast?, vmm.stop left ≤ vmm.start vma
    · have hfirst : ¬ ∀ right ∈ back.head?, vmm.stop vma ≤ vmm.start right :=
        fun hfirst ↦ hnot ⟨hlast, hfirst⟩
      rw [assert_of_true hlast, ok_bind, assert, if_neg hfirst]
      rfl
    · rw [assert, if_neg hlast]
      rfl

/-- The conditions that the assertions check are those for all members. -/
theorem Listed.fits_iff (h : Listed vmm mm members) (hvma : vmm.start vma < vmm.stop vma) :
    Fits vmm.start vmm.stop members vma ↔
      FitsBetween vmm.start vmm.stop (vmm.passed vma members) (vmm.remaining vma members) vma := by
  have hascending := h.ascending
  have hsplit := passed_append vmm vma members
  have hfits := Ascending.fits_iff (hsplit.symm ▸ hascending) (fun left ↦ passed_le)
    (fun right ↦ lt_remaining hascending) hvma
  rwa [hsplit] at hfits

theorem insertVmaStruct_iff (h : Listed vmm mm members) (hfuel : members.length < fuel) :
    (insertVmaStruct fuel vmm mm vma = .error .panic ∨
        ∃ vmm', insertVmaStruct fuel vmm mm vma = .ok vmm') ∧
      ((∃ vmm', insertVmaStruct fuel vmm mm vma = .ok vmm') ↔
        Fits vmm.start vmm.stop members vma) := by
  by_cases hvma : vmm.start vma < vmm.stop vma
  · obtain ⟨hpass, hfail⟩ := insertVmaStruct_eq h hfuel hvma
    rw [h.fits_iff hvma]
    by_cases hfits : FitsBetween vmm.start vmm.stop (vmm.passed vma members)
        (vmm.remaining vma members) vma
    · exact ⟨.inr ⟨_, hpass hfits⟩, iff_of_true ⟨_, hpass hfits⟩ hfits⟩
    · have hpanic := hfail hfits
      refine ⟨.inl hpanic, iff_of_false ?_ hfits⟩
      rintro ⟨vmm', hcall⟩
      rw [hpanic] at hcall
      cases hcall
  · have hpanic : insertVmaStruct fuel vmm mm vma = .error .panic := by
      have hassert : assert (vmm.start vma < vmm.stop vma) = .error .panic := if_neg hvma
      change (assert (vmm.start vma < vmm.stop vma) >>= _) = _
      rw [hassert]
      rfl
    refine ⟨.inl hpanic, iff_of_false ?_ fun hfits ↦ hvma hfits.1⟩
    rintro ⟨vmm', hcall⟩
    rw [hpanic] at hcall
    cases hcall

/-- An area that fits is not in the list yet: no area with points is disjoint from itself. -/
theorem not_mem_of_fits (hfits : Fits vmm.start vmm.stop members vma) : vma ∉ members := by
  intro hmem
  have hself := hfits.2 vma hmem
  rw [disjoint_self, Set.bot_eq_empty, Set.Ico_eq_empty_iff] at hself
  exact hself hfits.1

theorem inserted_start {front : List ℕ} : (vmm.inserted mm vma front).start = vmm.start := by
  funext other
  by_cases heq : other = vma
  · rw [heq]
    simp [start, inserted]
  · simp [start, inserted, heq]

theorem inserted_stop {front : List ℕ} : (vmm.inserted mm vma front).stop = vmm.stop := by
  funext other
  by_cases heq : other = vma
  · rw [heq]
    simp [stop, inserted]
  · simp [stop, inserted, heq]

/-- A successful insertion puts the vma where its area belongs. -/
theorem Listed.insert (h : Listed vmm mm members) (hnonnull : vma ≠ 0)
    (hcall : insertVmaStruct fuel vmm mm vma = .ok vmm') (hfuel : members.length < fuel) :
    Listed vmm' mm (vmm.passed vma members ++ vma :: vmm.remaining vma members) := by
  have hfits := (insertVmaStruct_iff h hfuel).2.mp ⟨_, hcall⟩
  have hbetween := (h.fits_iff hfits.1).mp hfits
  have hnew := not_mem_of_fits hfits
  rw [(insertVmaStruct_eq h hfuel hfits.1).1 hbetween] at hcall
  obtain rfl := Except.ok.inj hcall
  have hsplit := passed_append vmm vma members
  have hascending := h.ascending
  have hring := h.ring
  have hcount := h.count
  have hnonnull' := h.nonnull
  have hcache := h.cache
  generalize vmm.passed vma members = front at *
  generalize vmm.remaining vma members = back at *
  subst hsplit
  refine ⟨?_, ?_, ?_, ?_, ?_⟩
  · rw [List.map_append] at hring ⊢
    exact hring.listAdd_between (by simpa using hnew)
  · rw [inserted_start, inserted_stop]
    exact hascending.insert hfits.1 hbetween
  · have hlength : (front ++ vma :: back).length = (front ++ back).length + 1 := by
      simp only [List.length_append, List.length_cons]
      omega
    calc
      ((vmm.inserted mm vma front).mms mm).mapCount = (vmm.mms mm).mapCount + 1 := by
        simp [inserted]
      _ = BitVec.ofNat 32 ((front ++ back).length + 1) := by
        rw [hcount, BitVec.ofNat_add]
        rfl
      _ = BitVec.ofNat 32 (front ++ vma :: back).length := by
        rw [hlength]
  · intro other hother
    rcases List.mem_append.mp hother with hmem | hmem
    · exact hnonnull' other (List.mem_append_left _ hmem)
    · rcases List.mem_cons.mp hmem with rfl | hmem
      · exact hnonnull
      · exact hnonnull' other (List.mem_append_right _ hmem)
  · have hkept : ((vmm.inserted mm vma front).mms mm).mmapCache = (vmm.mms mm).mmapCache := by
      simp [inserted]
    rw [hkept]
    refine hcache.imp_right fun hmem ↦ ?_
    simp only [List.mem_append, List.mem_cons] at hmem ⊢
    tauto

/-! ## `find_vma` -/

/-- The first area with the address, a null pointer when there is none. -/
def search (vmm : Vmm allocator) (members : List ℕ) (addr : ℕ) : ℕ :=
  (members.find? fun vma ↦ vmm.start vma ≤ addr ∧ addr < vmm.stop vma).getD 0

/-- What `find_vma` remembers. -/
def remember (vmm : Vmm allocator) (mm vma : ℕ) : Vmm allocator :=
  if vma = 0 then vmm else vmm.setMm mm { vmm.mms mm with mmapCache := vma }

/-- The search finds the only area with the address. -/
theorem Listed.search_eq (h : Listed vmm mm members) (hmem : vma ∈ members)
    (hpoint : addr ∈ Set.Ico (vmm.start vma) (vmm.stop vma)) : vmm.search members addr = vma := by
  have hsome : (members.find? fun other ↦
      vmm.start other ≤ addr ∧ addr < vmm.stop other).isSome := by
    rw [List.find?_isSome]
    exact ⟨vma, hmem, by simpa using hpoint⟩
  obtain ⟨found, hfound⟩ := Option.isSome_iff_exists.mp hsome
  have hcontains := List.find?_some hfound
  have hpoint' : addr ∈ Set.Ico (vmm.start found) (vmm.stop found) := by simpa using hcontains
  rw [search, hfound, Option.getD_some]
  exact h.ascending.eq_of_mem (List.mem_of_find?_eq_some hfound) hmem hpoint' hpoint

theorem search_cases (vmm : Vmm allocator) (members : List ℕ) (addr : ℕ) :
    (vmm.search members addr = 0 ∧
        ∀ vma ∈ members, addr ∉ Set.Ico (vmm.start vma) (vmm.stop vma)) ∨
      vmm.search members addr ∈ members ∧
        addr ∈ Set.Ico (vmm.start (vmm.search members addr)) (vmm.stop (vmm.search members addr)) := by
  unfold search
  cases hfind : members.find? fun vma ↦ vmm.start vma ≤ addr ∧ addr < vmm.stop vma with
  | none =>
    refine .inl ⟨rfl, fun vma hmem hpoint ↦ ?_⟩
    exact List.find?_eq_none.mp hfind vma hmem (by simpa using hpoint)
  | some found =>
    have hcontains := List.find?_some hfind
    exact .inr ⟨List.mem_of_find?_eq_some hfind, by simpa using hcontains⟩

/-- Whatever the cache holds, `find_vma` gives what a search of the list gives. -/
theorem findVma_eq (h : Listed vmm mm members) (hmm : mm ≠ 0) (hfuel : members.length < fuel) :
    findVma fuel vmm mm addr =
      .ok (vmm.search members addr, vmm.remember mm (vmm.search members addr)) := by
  have hfound : vmm.links.findFrom (.mmapList mm)
      (fun le ↦ (vmm.vmas (le2vma le)).vmStart ≤ addr ∧ addr < (vmm.vmas (le2vma le)).vmEnd)
      fuel (.mmapList mm) =
        some ((members.find? fun vma ↦
          vmm.start vma ≤ addr ∧ addr < vmm.stop vma).map VmaNode.listLink) := by
    rw [h.ring.findFrom_head _ (by simpa using hfuel), List.find?_map]
    rfl
  have hend : ∀ vma, (if vma = 0 then pure (0, vmm) else
      pure (vma, vmm.setMm mm { vmm.mms mm with mmapCache := vma }) :
        Except Fault (ℕ × Vmm allocator)) = .ok (vma, vmm.remember mm vma) := by
    intro vma
    unfold remember
    split
    · rename_i hnull
      rw [hnull]
      rfl
    · rfl
  unfold findVma
  rw [if_neg hmm]
  dsimp only
  by_cases hhit : (vmm.mms mm).mmapCache ≠ 0 ∧
      (vmm.vmas (vmm.mms mm).mmapCache).vmStart ≤ addr ∧
      (vmm.vmas (vmm.mms mm).mmapCache).vmEnd > addr
  · have hmem := h.cache.resolve_left hhit.1
    have hsearch : vmm.search members addr = (vmm.mms mm).mmapCache := h.search_eq hmem hhit.2
    rw [if_pos hhit, hsearch]
    exact hend _
  · rw [if_neg hhit, hfound]
    unfold search
    cases members.find? fun vma ↦ vmm.start vma ≤ addr ∧ addr < vmm.stop vma with
    | none => exact hend 0
    | some found => exact hend found

theorem Listed.remember (h : Listed vmm mm members) :
    Listed (vmm.remember mm (vmm.search members addr)) mm members := by
  unfold Vmm.remember
  split
  · exact h
  · rename_i hnonnull
    refine ⟨h.ring, h.ascending, by simpa [setMm] using h.count, h.nonnull, .inr ?_⟩
    have hmem := (vmm.search_cases members addr).resolve_left fun hnone ↦ hnonnull hnone.1
    simpa [setMm] using hmem.1

end Vmm

end Ucore
