import Ucore.Foundation.Chain
import Ucore.Mm.Kmalloc

/-!
# The free ring of the SLOB allocator

`FreeRing arena mem blocks` says that the ring through `arena` threads the ascending blocks
`blocks`. Taking units off the front of a block carves it, and linking a block in behind the right
node releases it with a merge on both sides; the cells of all other blocks keep their contents.
-/

namespace Ucore

open Foundation Memory

/-! ## Pointer arithmetic -/

theorem slobAdd_eq {b n : ℕ} {units : ℤ} (hn : SLOB_UNIT * units = n) (hfit : b + n < 2 ^ 64) :
    slobAdd b units = b + n := by
  unfold slobAdd
  rw [hn]
  omega

/-- At the very top of the address space the sum wraps to the null pointer. -/
theorem slobAdd_eq_iff {b n target : ℕ} {units : ℤ} (hn : SLOB_UNIT * units = n)
    (hfit : b + n ≤ 2 ^ 64) (hpos : 0 < target) (htarget : target < 2 ^ 64) :
    slobAdd b units = target ↔ b + n = target := by
  unfold slobAdd
  rw [hn]
  omega

/-! ## Reading back what was written -/

section Fields

variable {mem : Memory} {b other next : ℕ} {units : ℤ}

theorem slobUnits_congr {mem' : Memory} (h : mem' b = mem b) : slobUnits mem' b = slobUnits mem b :=
  readInt_congr h

theorem slobNext_congr {mem' : Memory} (h : mem' (b + 8) = mem (b + 8)) :
    slobNext mem' b = slobNext mem b := readPointer_congr h

theorem slobNext_setSlobNext (h : next < 2 ^ 64) : slobNext (setSlobNext mem b next) b = next :=
  readPointer_writePointer h

theorem slobUnits_setSlobUnits (hlower : -2 ^ 31 ≤ units) (hupper : units < 2 ^ 31) :
    slobUnits (setSlobUnits mem b units) b = units := readInt_writeInt hlower hupper

theorem setSlobNext_of_ne (h : other ≠ b + 8) : setSlobNext mem b next other = mem other :=
  writePointer_of_ne h

theorem setSlobUnits_of_ne (h : other ≠ b) : setSlobUnits mem b units other = mem other :=
  writeInt_of_ne h

theorem slobNext_lt : slobNext mem b < 2 ^ 64 := readPointer_lt

end Fields

/-! ## The ring -/

structure FreeRing (arena : ℕ) (mem : Memory) (blocks : List Block) : Prop where
  chain : Chain (slobNext mem) id arena (blocks.map Block.start) arena
  arenaUnits : slobUnits mem arena = 1
  units : ∀ block ∈ blocks, SLOB_UNIT * slobUnits mem block.start = block.size
  aligned : ∀ block ∈ blocks, SLOB_UNIT ∣ block.start
  separated : Separated blocks
  above : ∀ block ∈ blocks, arena + SLOB_UNIT < block.start ∧ block.stop ≤ 2 ^ 64

/-- The node behind which a part of the ring goes on. -/
abbrev ringNode (arena : ℕ) (pre : List Block) : ℕ := lastCell Block.start arena pre

theorem ringNode_cases (arena : ℕ) (pre : List Block) :
    (pre = [] ∧ ringNode arena pre = arena) ∨
      ∃ front left, pre = front ++ [left] ∧ ringNode arena pre = left.start := by
  rcases List.eq_nil_or_concat pre with rfl | ⟨front, left, rfl⟩
  · exact .inl ⟨rfl, rfl⟩
  · exact .inr ⟨front, left, by simp, by simp [ringNode]⟩

/-- The first node of a part of the ring, `arena` when it is empty. -/
def headNode (arena : ℕ) (post : List Block) : ℕ := (post.head?.map Block.start).getD arena

namespace FreeRing

variable {arena : ℕ} {mem mem' : Memory} {blocks pre post : List Block} {block : Block}

theorem size_ge (h : FreeRing arena mem blocks) (hblock : block ∈ blocks) :
    SLOB_UNIT ≤ block.size := by
  have hunits := h.units block hblock
  have hsize := h.separated.nonempty block hblock
  unfold SLOB_UNIT at *
  omega

/-- Any two nodes of the ring are at least one unit apart. -/
theorem apart (h : FreeRing arena mem blocks) {left right : ℕ}
    (hleft : left ∈ arena :: blocks.map Block.start)
    (hright : right ∈ arena :: blocks.map Block.start) (hne : left ≠ right) :
    left + SLOB_UNIT ≤ right ∨ right + SLOB_UNIT ≤ left := by
  have hbase : ∀ node ∈ blocks.map Block.start, arena + SLOB_UNIT ≤ node := by
    intro node hnode
    obtain ⟨member, hmember, rfl⟩ := List.mem_map.mp hnode
    exact (h.above member hmember).1.le
  rcases List.mem_cons.mp hleft with heq | hleft <;>
    rcases List.mem_cons.mp hright with heq' | hright
  · exact absurd (heq.trans heq'.symm) hne
  · exact .inl (heq ▸ hbase right hright)
  · exact .inr (heq' ▸ hbase left hleft)
  · obtain ⟨first, hfirst, rfl⟩ := List.mem_map.mp hleft
    obtain ⟨second, hsecond, rfl⟩ := List.mem_map.mp hright
    have hsize := h.size_ge hfirst
    have hsize' := h.size_ge hsecond
    by_contra hnot
    refine hne (congrArg Block.start (h.separated.eq_of_touching hfirst hsecond ?_ ?_)) <;>
      rw [Block.stop_eq] <;> omega

theorem nodup (h : FreeRing arena mem blocks) : (arena :: blocks.map Block.start).Nodup := by
  refine List.nodup_cons.mpr ⟨fun hmem ↦ ?_, h.separated.nodup_starts⟩
  obtain ⟨block, hblock, heq⟩ := List.mem_map.mp hmem
  have := (h.above block hblock).1
  omega

/-- The ring only depends on the headers of its nodes. -/
theorem congr (h : FreeRing arena mem blocks)
    (hmem : ∀ node ∈ arena :: blocks.map Block.start, mem' node = mem node ∧
      mem' (node + 8) = mem (node + 8)) :
    FreeRing arena mem' blocks where
  chain := h.chain.congr fun node hnode ↦ slobNext_congr (hmem node (by simpa using hnode)).2
  arenaUnits := (slobUnits_congr (hmem arena (by simp)).1).trans h.arenaUnits
  units block hblock := by
    have hkept := (hmem block.start (List.mem_cons_of_mem _ (List.mem_map_of_mem hblock))).1
    rw [slobUnits_congr hkept]
    exact h.units block hblock
  aligned := h.aligned
  separated := h.separated
  above := h.above

theorem next_ringNode (h : FreeRing arena mem (pre ++ post)) :
    slobNext mem (ringNode arena pre) = headNode arena post := by
  have hchain := h.chain
  rw [List.map_append] at hchain
  have hlink := hchain.link_lastCell
  rw [lastCell_map] at hlink
  cases post <;> simpa [headNode] using hlink

theorem ringNode_mem (pre post : List Block) :
    ringNode arena pre ∈ arena :: (pre ++ post).map Block.start := by
  have hmem : ringNode arena pre ∈ arena :: pre.map Block.start := lastCell_mem
  simp only [List.mem_cons, List.map_append, List.mem_append] at hmem ⊢
  tauto

/-- Every node of the ring is the end of a front part of it. -/
theorem exists_ringNode {node : ℕ} (hnode : node ∈ arena :: blocks.map Block.start) :
    ∃ pre post, blocks = pre ++ post ∧ node = ringNode arena pre := exists_split_of_mem hnode

/-- The nodes in front of a block end below it. -/
theorem node_le (h : FreeRing arena mem (pre ++ block :: post)) {node : ℕ}
    (hnode : node ∈ arena :: pre.map Block.start) : node + SLOB_UNIT ≤ block.start := by
  rcases List.mem_cons.mp hnode with rfl | hmem
  · exact (h.above block (by simp)).1.le
  · obtain ⟨left, hleft, rfl⟩ := List.mem_map.mp hmem
    have hsize : SLOB_UNIT ≤ left.size := h.size_ge (List.mem_append_left _ hleft)
    have hgap : left.stop < block.start :=
      (Separated.append_iff.mp h.separated).2.2 left hleft block (by simp)
    rw [Block.stop_eq] at hgap
    omega

theorem ringNode_le (h : FreeRing arena mem (pre ++ block :: post)) :
    ringNode arena pre + SLOB_UNIT ≤ block.start := h.node_le lastCell_mem

/-- The blocks behind a block start above it. -/
theorem lt_start (h : FreeRing arena mem (pre ++ block :: post)) {other : Block}
    (hother : other ∈ post) : block.start + block.size < other.start := by
  have hgap := (Separated.cons_iff.mp (Separated.append_iff.mp h.separated).2.1).2.2 other hother
  rwa [Block.stop_eq] at hgap

theorem chain_after (h : FreeRing arena mem (pre ++ block :: post)) :
    Chain (slobNext mem) id block.start (post.map Block.start) arena := by
  have hchain := h.chain
  rw [List.map_append, List.map_cons] at hchain
  exact (Chain.append_iff.mp hchain).2

/-- Memory holds one free ring only. -/
theorem unique {others : List Block} (h : FreeRing arena mem blocks)
    (h' : FreeRing arena mem others) : blocks = others := by
  have hnot : arena ∉ blocks.map Block.start := (List.nodup_cons.mp h.nodup).1
  have hnot' : arena ∉ others.map Block.start := (List.nodup_cons.mp h'.nodup).1
  have hstarts := h.chain.unique h'.chain hnot hnot'
  have hinj : ∀ left ∈ blocks, ∀ right ∈ others, left.start = right.start → left = right := by
    intro left hleft right hright heq
    have hsize := h.units left hleft
    rw [heq, h'.units right hright] at hsize
    cases left
    cases right
    simp only [Block.mk.injEq] at *
    omega
  refine List.ext_getElem (by simpa using congrArg List.length hstarts) fun i hi hi' ↦ ?_
  refine hinj _ (List.getElem_mem hi) _ (List.getElem_mem hi') ?_
  have hat : (blocks.map Block.start)[i]? = (others.map Block.start)[i]? := by rw [hstarts]
  simpa [hi, hi'] using hat

/-- The address space bounds the number of free blocks. -/
theorem length_le (h : FreeRing arena mem blocks) : blocks.length ≤ 2 ^ 64 := by
  have hsum := h.separated.sum_size_le (Nat.zero_le (2 ^ 64)) fun block hblock ↦
    ⟨Nat.zero_le _, (h.above block hblock).2⟩
  have hlength : (blocks.map Block.size).length ≤ (blocks.map Block.size).sum := by
    refine List.length_le_sum_of_one_le _ fun size hsize ↦ ?_
    obtain ⟨block, hblock, rfl⟩ := List.mem_map.mp hsize
    exact h.separated.nonempty block hblock
  rw [List.length_map] at hlength
  omega

/-- The nodes in the order of the ring, from the one behind `slobfree` on. -/
def walk (arena : ℕ) (pre post : List Block) : List ℕ :=
  post.map Block.start ++
    if pre = [] then [] else arena :: (pre.map Block.start).dropLast

theorem chain_walk (h : FreeRing arena mem (pre ++ post)) :
    Chain (slobNext mem) id (ringNode arena pre) (walk arena pre post) (ringNode arena pre) := by
  rcases List.eq_nil_or_concat pre with rfl | ⟨front, left, rfl⟩
  · simpa [walk] using h.chain
  · have hchain := h.chain
    have hnode : ringNode arena (front.concat left) = left.start := by simp [ringNode]
    rw [hnode]
    simp only [List.concat_eq_append, List.append_assoc, List.map_append, List.singleton_append,
      List.map_cons] at hchain
    obtain ⟨hfront, hback⟩ := Chain.append_iff.mp hchain
    simp only [walk, List.concat_eq_append, List.map_append, List.map_cons, List.map_nil,
      List.append_eq_nil_iff, List.cons_ne_self, and_false, if_false, List.dropLast_concat]
    exact Chain.append_iff.mpr ⟨hback, hfront⟩

/-- The walk and the node it starts from are all nodes of the ring. -/
theorem walk_perm (arena : ℕ) (pre post : List Block) :
    (ringNode arena pre :: walk arena pre post).Perm
      (arena :: (pre ++ post).map Block.start) := by
  rcases List.eq_nil_or_concat pre with rfl | ⟨front, left, rfl⟩
  · simp [walk, ringNode]
  · have hnode : ringNode arena (front.concat left) = left.start := by simp [ringNode]
    rw [hnode]
    simp only [walk, List.concat_eq_append, List.map_append, List.map_cons, List.map_nil,
      List.append_eq_nil_iff, List.cons_ne_self, and_false, if_false, List.dropLast_concat,
      List.append_assoc, List.singleton_append]
    have hswap : ((left.start :: post.map Block.start) ++ (arena :: front.map Block.start)).Perm
        ((arena :: front.map Block.start) ++ (left.start :: post.map Block.start)) :=
      List.perm_append_comm
    simpa using hswap

/-- Replace what comes after a front part of the ring. -/
theorem splice {old new : List Block} (h : FreeRing arena mem (pre ++ old))
    (hunits : ∀ node ∈ arena :: pre.map Block.start, mem' node = mem node)
    (hnext : ∀ node ∈ arena :: pre.map Block.start, node ≠ ringNode arena pre →
      mem' (node + 8) = mem (node + 8))
    (hchain : Chain (slobNext mem') id (ringNode arena pre) (new.map Block.start) arena)
    (hnew : ∀ block ∈ new, SLOB_UNIT * slobUnits mem' block.start = block.size ∧
      SLOB_UNIT ∣ block.start ∧ arena + SLOB_UNIT < block.start ∧ block.stop ≤ 2 ^ 64)
    (hseparated : Separated (pre ++ new)) : FreeRing arena mem' (pre ++ new) where
  chain := by
    have hold := h.chain
    have hnodup := h.nodup
    rw [List.map_append] at hold hnodup ⊢
    have hfront : (arena :: (pre.map Block.start).map id).Nodup := by
      rw [List.map_id]
      exact hnodup.sublist (List.cons_sublist_cons.mpr (List.sublist_append_left _ _))
    refine hold.splice hfront (fun node hnode hne ↦ ?_) ?_
    · rw [lastCell_map] at hne
      exact slobNext_congr (hnext node (by simpa using hnode) hne)
    · rw [lastCell_map]
      exact hchain
  arenaUnits := (slobUnits_congr (hunits arena (by simp))).trans h.arenaUnits
  units block hblock := by
    rcases List.mem_append.mp hblock with hpre | hmem
    · rw [slobUnits_congr (hunits _ (List.mem_cons_of_mem _ (List.mem_map_of_mem hpre)))]
      exact h.units block (List.mem_append_left _ hpre)
    · exact (hnew block hmem).1
  aligned block hblock := by
    rcases List.mem_append.mp hblock with hpre | hmem
    · exact h.aligned block (List.mem_append_left _ hpre)
    · exact (hnew block hmem).2.1
  separated := hseparated
  above block hblock := by
    rcases List.mem_append.mp hblock with hpre | hmem
    · exact h.above block (List.mem_append_left _ hpre)
    · exact (hnew block hmem).2.2

/-! ## Taking units -/

/-- The writes of `slob_alloc` when a rest of the block stays free. -/
theorem slobTake_split {prev b n : ℕ} {units : ℤ} (hne : slobUnits mem b ≠ units)
    (hprev : prev + SLOB_UNIT ≤ b) (hn : SLOB_UNIT ≤ n) (hrest : slobAdd b units = b + n)
    (hfit : b + n < 2 ^ 64) :
    slobTake mem prev b units =
      setSlobUnits (setSlobNext (setSlobUnits (setSlobNext mem prev (b + n)) (b + n)
        (slobUnits mem b - units)) (b + n) (slobNext mem b)) b units := by
  unfold SLOB_UNIT at hprev hn
  have hlinked : slobNext (setSlobNext mem prev (b + n)) prev = b + n := slobNext_setSlobNext hfit
  have hunits : slobUnits (setSlobNext mem prev (b + n)) b = slobUnits mem b :=
    slobUnits_congr (setSlobNext_of_ne (by omega))
  have hstays : ∀ value, slobNext (setSlobUnits (setSlobNext mem prev (b + n)) (b + n) value) prev =
      b + n := by
    intro value
    rw [slobNext_congr (setSlobUnits_of_ne (by omega)), hlinked]
  have hnext : ∀ value, slobNext (setSlobUnits (setSlobNext mem prev (b + n)) (b + n) value) b =
      slobNext mem b := by
    intro value
    rw [slobNext_congr (setSlobUnits_of_ne (by omega)),
      slobNext_congr (setSlobNext_of_ne (by omega))]
  simp only [slobTake, if_neg hne, hrest, hlinked, hunits, hstays, hnext]

section Take

variable {units : ℤ} {n : ℕ} (h : FreeRing arena mem (pre ++ block :: post))
  (hn : SLOB_UNIT * units = n)

include h hn

theorem slobTake_eq_exact (heq : block.size = n) :
    Ucore.slobTake mem (ringNode arena pre) block.start units =
      setSlobNext mem (ringNode arena pre) (slobNext mem block.start) := by
  have hsize := h.units block (by simp)
  refine if_pos ?_
  unfold SLOB_UNIT at *
  omega

variable (hpos : 0 < n)

include hpos

theorem slobTake_eq_split (hlt : n < block.size) :
    Ucore.slobTake mem (ringNode arena pre) block.start units =
      setSlobUnits (setSlobNext (setSlobUnits (setSlobNext mem (ringNode arena pre)
        (block.start + n)) (block.start + n) (slobUnits mem block.start - units))
        (block.start + n) (slobNext mem block.start)) block.start units := by
  have hsize := h.units block (by simp)
  have hstop := (h.above block (by simp)).2
  rw [Block.stop_eq] at hstop
  refine slobTake_split ?_ h.ringNode_le ?_ (slobAdd_eq hn (by omega)) (by omega)
  · unfold SLOB_UNIT at *
    omega
  · unfold SLOB_UNIT at *
    omega

/-- The cells that `slob_alloc` writes when it takes units of `block`. -/
theorem slobTake_kept {address : ℕ} (hle : n ≤ block.size)
    (hprev : address ≠ ringNode arena pre + 8) (hblock : address ≠ block.start)
    (hrest : n < block.size → address ≠ block.start + n ∧ address ≠ block.start + n + 8) :
    Ucore.slobTake mem (ringNode arena pre) block.start units address = mem address := by
  rcases Nat.lt_or_eq_of_le hle with hlt | heq
  · rw [h.slobTake_eq_split hn hpos hlt, setSlobUnits_of_ne hblock,
      setSlobNext_of_ne (hrest hlt).2, setSlobUnits_of_ne (hrest hlt).1, setSlobNext_of_ne hprev]
  · rw [h.slobTake_eq_exact hn heq.symm, setSlobNext_of_ne hprev]

/-- The links and the header of the rest of the block. -/
theorem slobTake_rest (hbase : KERNBASE ≤ arena) (hlt : n < block.size) :
    slobNext (Ucore.slobTake mem (ringNode arena pre) block.start units) (ringNode arena pre) =
        block.start + n ∧
      slobNext (Ucore.slobTake mem (ringNode arena pre) block.start units) (block.start + n) =
        slobNext mem block.start ∧
      slobUnits (Ucore.slobTake mem (ringNode arena pre) block.start units) (block.start + n) =
        slobUnits mem block.start - units := by
  have hnode := h.ringNode_le
  have hsize := h.units block (by simp)
  have habove := h.above block (by simp)
  rw [Block.stop_eq] at habove
  rw [h.slobTake_eq_split hn hpos hlt]
  unfold SLOB_UNIT KERNBASE at *
  refine ⟨?_, ?_, ?_⟩
  · rw [slobNext_congr (setSlobUnits_of_ne (by omega)),
      slobNext_congr (setSlobNext_of_ne (by omega)),
      slobNext_congr (setSlobUnits_of_ne (by omega))]
    exact slobNext_setSlobNext (by omega)
  · rw [slobNext_congr (setSlobUnits_of_ne (by omega))]
    exact slobNext_setSlobNext slobNext_lt
  · rw [slobUnits_congr (setSlobUnits_of_ne (by omega)),
      slobUnits_congr (setSlobNext_of_ne (by omega))]
    exact slobUnits_setSlobUnits (by omega) (by omega)

variable (hbase : KERNBASE ≤ arena) (hle : n ≤ block.size)

include hbase hle

theorem slobTake_units :
    slobUnits (Ucore.slobTake mem (ringNode arena pre) block.start units) block.start = units := by
  have habove := h.above block (by simp)
  have hsize := h.units block (by simp)
  rw [Block.stop_eq] at habove
  rcases Nat.lt_or_eq_of_le hle with hlt | heq
  · rw [h.slobTake_eq_split hn hpos hlt]
    unfold KERNBASE SLOB_UNIT at *
    exact slobUnits_setSlobUnits (by omega) (by omega)
  · have hnode := h.ringNode_le
    unfold SLOB_UNIT at *
    rw [h.slobTake_eq_exact hn heq.symm, slobUnits_congr (setSlobNext_of_ne (by omega))]
    omega

theorem slobTake_chain :
    Chain (slobNext (Ucore.slobTake mem (ringNode arena pre) block.start units)) id
      (ringNode arena pre) ((remainder block n ++ post).map Block.start) arena := by
  have hnode := h.ringNode_le
  have habove := h.above block (by simp)
  rw [Block.stop_eq] at habove
  have hkept : ∀ node ∈ post.map Block.start,
      slobNext (Ucore.slobTake mem (ringNode arena pre) block.start units) node =
        slobNext mem node := by
    intro node hmem
    obtain ⟨other, hother, rfl⟩ := List.mem_map.mp hmem
    have hgap := h.lt_start hother
    unfold SLOB_UNIT at hnode
    exact slobNext_congr (h.slobTake_kept hn hpos hle (by omega) (by omega) (by omega))
  rcases Nat.lt_or_eq_of_le hle with hlt | heq
  · obtain ⟨hprev, hnext, -⟩ := h.slobTake_rest hn hpos hbase hlt
    have hsplit : remainder block n = [⟨block.start + n, block.size - n⟩] :=
      if_neg (by omega)
    rw [hsplit]
    exact ⟨hprev, h.chain_after.move hnext hkept⟩
  · have hnext : slobNext (Ucore.slobTake mem (ringNode arena pre) block.start units)
        (ringNode arena pre) = slobNext mem block.start := by
      rw [h.slobTake_eq_exact hn heq.symm]
      exact slobNext_setSlobNext slobNext_lt
    have hnone : remainder block n = [] := if_pos heq.symm
    rw [hnone]
    exact h.chain_after.move hnext hkept

/-- Taking units off the front of a block carves it. -/
theorem slobTake : FreeRing arena (Ucore.slobTake mem (ringNode arena pre) block.start units)
    (pre ++ (remainder block n ++ post)) := by
  have habove := h.above block (by simp)
  have hsize := h.units block (by simp)
  have hdvd := h.aligned block (by simp)
  have hnode := h.ringNode_le
  rw [Block.stop_eq] at habove
  refine h.splice (fun node hmem ↦ ?_) (fun node hmem hne ↦ ?_)
    (h.slobTake_chain hn hpos hbase hle) (fun other hother ↦ ?_) (h.separated.carve hle)
  · have hbelow := h.node_le hmem
    have hapart : node ≠ ringNode arena pre + 8 := by
      by_cases hne : node = ringNode arena pre
      · omega
      · have hmem' : node ∈ arena :: (pre ++ block :: post).map Block.start := by
          simp only [List.mem_cons, List.map_append, List.mem_append] at hmem ⊢
          tauto
        have := h.apart hmem' (ringNode_mem pre (block :: post)) hne
        unfold SLOB_UNIT at this
        omega
    unfold SLOB_UNIT at hbelow
    exact h.slobTake_kept hn hpos hle hapart (by omega) (by omega)
  · have hbelow := h.node_le hmem
    unfold SLOB_UNIT at hbelow
    exact h.slobTake_kept hn hpos hle (by omega) (by omega) (by omega)
  · rcases List.mem_append.mp hother with hrest | hpost
    · have hlt : n < block.size := by
        by_contra hnot
        rw [remainder, if_pos (by omega)] at hrest
        simp at hrest
      rw [remainder, if_neg (by omega)] at hrest
      obtain rfl := List.mem_singleton.mp hrest
      rw [(h.slobTake_rest hn hpos hbase hlt).2.2, Block.stop_mk]
      refine ⟨?_, ?_, ?_⟩
      · rw [mul_sub, hsize, hn, Nat.cast_sub hle]
      · exact (Nat.dvd_add_right hdvd).mpr (Int.natCast_dvd_natCast.mp ⟨units, hn.symm⟩)
      · dsimp only
        omega
    · have hgap := h.lt_start hpost
      have hroom : n < block.size → n + 16 ≤ block.size := by
        unfold SLOB_UNIT at hn hsize
        omega
      unfold SLOB_UNIT at hnode
      have hkept : Ucore.slobTake mem (ringNode arena pre) block.start units other.start =
          mem other.start := h.slobTake_kept hn hpos hle (by omega) (by omega) (by omega)
      have hmem : other ∈ pre ++ block :: post := by simp [hpost]
      rw [slobUnits_congr hkept]
      exact ⟨h.units other hmem, h.aligned other hmem, h.above other hmem⟩

end Take

/-! ## Linking a block in -/

/-- The new block has taken over what follows it, and no node points at it yet. -/
structure Hanging (arena : ℕ) (mem : Memory) (pre post : List Block) (block : Block)
    (rest : List Block) : Prop where
  ring : FreeRing arena mem (pre ++ post)
  units : SLOB_UNIT * slobUnits mem block.start = block.size
  nonempty : 0 < block.size
  aligned : SLOB_UNIT ∣ block.start
  above : arena + SLOB_UNIT < block.start
  stop : block.stop ≤ 2 ^ 64
  front : ∀ node ∈ arena :: pre.map Block.start, node + SLOB_UNIT ≤ block.start
  chain : Chain (slobNext mem) id block.start (rest.map Block.start) arena
  behind : ∀ right ∈ rest, right ∈ post ∧ block.start < right.start

namespace Hanging

variable {arena : ℕ} {mem mem' : Memory} {pre post rest : List Block} {block left : Block}

/-- What follows the new block keeps its headers when all writes are in front of it. -/
theorem rest_units (h : Hanging arena mem pre post block rest)
    (hkept : ∀ address, block.start ≤ address → mem' address = mem address) :
    ∀ right ∈ rest, SLOB_UNIT * slobUnits mem' right.start = right.size ∧
      SLOB_UNIT ∣ right.start ∧ arena + SLOB_UNIT < right.start ∧ right.stop ≤ 2 ^ 64 := by
  intro right hmem
  obtain ⟨hpost, hlt⟩ := h.behind right hmem
  have hring : right ∈ pre ++ post := List.mem_append_right _ hpost
  rw [slobUnits_congr (hkept right.start hlt.le)]
  exact ⟨h.ring.units right hring, h.ring.aligned right hring, h.ring.above right hring⟩

/-- Whoever takes the new block's link over goes on with what follows it. -/
theorem rest_chain (h : Hanging arena mem pre post block rest) {node : ℕ}
    (hkept : ∀ address, block.start ≤ address → mem' address = mem address)
    (hlink : slobNext mem' node = slobNext mem block.start) :
    Chain (slobNext mem') id node (rest.map Block.start) arena := by
  apply h.chain.move hlink
  intro member hmember
  obtain ⟨right, hmem, rfl⟩ := List.mem_map.mp hmember
  have hlt : block.start < right.start := (h.behind right hmem).2
  exact slobNext_congr (hkept (right.start + 8) (by omega))

/-- The node in front is pointed at the new block. -/
theorem link (h : Hanging arena mem pre post block rest)
    (hseparated : Separated (pre ++ block :: rest)) :
    FreeRing arena (setSlobNext mem (ringNode arena pre) block.start) (pre ++ block :: rest) := by
  have hnode : ringNode arena pre + SLOB_UNIT ≤ block.start := h.front _ lastCell_mem
  have hstop := h.stop
  have hsize := h.nonempty
  rw [Block.stop_eq] at hstop
  unfold SLOB_UNIT at hnode
  have hkept : ∀ address, address ≠ ringNode arena pre + 8 →
      setSlobNext mem (ringNode arena pre) block.start address = mem address :=
    fun address hne ↦ setSlobNext_of_ne hne
  have hafter : ∀ address, block.start ≤ address → _ :=
    fun address hge ↦ hkept address (by omega)
  refine h.ring.splice (fun node hmem ↦ hkept node ?_)
    (fun node hmem hne ↦ hkept (node + 8) (by omega)) ⟨?_, ?_⟩ (fun other hother ↦ ?_) hseparated
  · by_cases hne : node = ringNode arena pre
    · omega
    · have hmem' : node ∈ arena :: (pre ++ post).map Block.start := by
        rw [List.map_append, ← List.cons_append]
        exact List.mem_append_left _ hmem
      have := h.ring.apart hmem' (ringNode_mem pre post) hne
      unfold SLOB_UNIT at this
      omega
  · exact slobNext_setSlobNext (by omega)
  · exact h.rest_chain hafter (slobNext_congr (hkept (block.start + 8) (by omega)))
  · rcases List.mem_cons.mp hother with rfl | hmem
    · rw [slobUnits_congr (hkept other.start (by omega))]
      exact ⟨h.units, h.aligned, h.above, h.stop⟩
    · exact h.rest_units hafter other hmem

/-- The block in front takes the new one over. -/
theorem absorb (h : Hanging arena mem (pre ++ [left]) post block rest) (hbase : KERNBASE ≤ arena)
    (htouch : left.stop = block.start)
    (hseparated : Separated (pre ++ ⟨left.start, left.size + block.size⟩ :: rest)) :
    FreeRing arena
      (setSlobNext
        (setSlobUnits mem left.start (slobUnits mem left.start + slobUnits mem block.start))
        left.start
        (slobNext
          (setSlobUnits mem left.start (slobUnits mem left.start + slobUnits mem block.start))
          block.start))
      (pre ++ ⟨left.start, left.size + block.size⟩ :: rest) := by
  have hring : FreeRing arena mem (pre ++ left :: post) := by simpa using h.ring
  have hmem_left : left ∈ pre ++ left :: post := by simp
  have hunits := hring.units left hmem_left
  have hgap : left.start + SLOB_UNIT ≤ block.start := by
    apply h.front
    simp
  have hbelow : ∀ node ∈ arena :: pre.map Block.start, node + SLOB_UNIT ≤ left.start :=
    fun node hnode ↦ hring.node_le hnode
  have hsum : left.start + (left.size + block.size) = block.stop := by
    rw [Block.stop_eq] at htouch ⊢
    omega
  have hstop := h.stop
  have habove := hring.above left hmem_left
  unfold SLOB_UNIT at hgap hbelow
  generalize hsummed : slobUnits mem left.start + slobUnits mem block.start = units
  have hkept : ∀ address, address ≠ left.start → address ≠ left.start + 8 →
      setSlobNext (setSlobUnits mem left.start units) left.start
        (slobNext (setSlobUnits mem left.start units) block.start) address = mem address := by
    intro address hne hne'
    rw [setSlobNext_of_ne hne', setSlobUnits_of_ne hne]
  have hafter : ∀ address, block.start ≤ address → _ := fun address hge ↦
    hkept address (by omega) (by omega)
  have hlast : ringNode arena pre + 16 ≤ left.start := hbelow _ lastCell_mem
  refine hring.splice (fun node hmem ↦ ?_) (fun node hmem _ ↦ ?_) ⟨?_, h.rest_chain hafter ?_⟩
    (fun other hother ↦ ?_) hseparated
  · have := hbelow node hmem
    exact hkept node (by omega) (by omega)
  · have := hbelow node hmem
    exact hkept (node + 8) (by omega) (by omega)
  · rw [slobNext_congr (hkept _ (by omega) (by omega))]
    exact hring.next_ringNode
  · rw [id, slobNext_setSlobNext slobNext_lt]
    exact slobNext_congr (setSlobUnits_of_ne (by omega))
  · rcases List.mem_cons.mp hother with rfl | hmem
    · have htotal : SLOB_UNIT * units = ((left.size + block.size : ℕ) : ℤ) := by
        rw [← hsummed, mul_add, hunits, h.units]
        push_cast
        rfl
      dsimp only
      refine ⟨?_, hring.aligned left hmem_left, habove.1, by rw [Block.stop_mk, hsum]; exact hstop⟩
      rw [slobUnits_congr (setSlobNext_of_ne (by omega)), slobUnits_setSlobUnits]
      · exact htotal
      · unfold SLOB_UNIT at *
        omega
      · unfold SLOB_UNIT KERNBASE at *
        omega
    · exact h.rest_units hafter other hmem

/-- The second half of the insertion links the new block in, or lets the block in front take it
over when the two touch. -/
theorem slobMergePrev (h : Hanging arena mem pre post block rest) (hbase : KERNBASE ≤ arena)
    (hleft : ∀ left ∈ pre, left.stop ≤ block.start)
    (hseparated : Separated ((joinLeft pre block).1 ++ (joinLeft pre block).2 :: rest)) :
    FreeRing arena (slobMergePrev mem (ringNode arena pre) block.start)
      ((joinLeft pre block).1 ++ (joinLeft pre block).2 :: rest) := by
  have habove := h.above
  have hsize := h.nonempty
  have hstop := h.stop
  rw [Block.stop_eq] at hstop
  unfold Ucore.slobMergePrev
  rcases ringNode_cases arena pre with ⟨rfl, hnode⟩ | ⟨front, left, rfl, hnode⟩
  · -- the arena is one unit long and the new block starts above it
    have hapart : slobAdd (ringNode arena []) (slobUnits mem (ringNode arena [])) ≠ block.start := by
      have hend : slobAdd arena 1 = arena + SLOB_UNIT :=
        slobAdd_eq (by simp) (by unfold SLOB_UNIT at *; omega)
      rw [hnode, h.ring.arenaUnits, hend]
      exact habove.ne
    rw [if_neg hapart]
    exact h.link hseparated
  · have hunits := h.ring.units left (by simp)
    have hle : left.stop ≤ block.start := hleft left (by simp)
    have htouch : slobAdd left.start (slobUnits mem left.start) = block.start ↔
        left.stop = block.start := by
      rw [Block.stop_eq] at hle ⊢
      exact slobAdd_eq_iff hunits (by omega) (by omega) (by omega)
    rw [hnode]
    by_cases hmeet : left.stop = block.start
    · have hjoin : joinLeft (front ++ [left]) block =
          (front, ⟨left.start, left.size + block.size⟩) := by
        simp [joinLeft, hmeet]
      rw [hjoin] at hseparated ⊢
      rw [if_pos (htouch.mpr hmeet)]
      exact h.absorb hbase hmeet hseparated
    · have hjoin : joinLeft (front ++ [left]) block = (front ++ [left], block) := by
        simp [joinLeft, hmeet]
      rw [hjoin] at hseparated ⊢
      rw [if_neg (fun heq ↦ hmeet (htouch.mp heq)), ← hnode]
      exact h.link hseparated

end Hanging

section Insert

variable {b n : ℕ} (h : FreeRing arena mem (pre ++ post)) (hbase : KERNBASE ≤ arena)
  (hunits : SLOB_UNIT * slobUnits mem b = n) (hpos : 0 < n) (habove : arena + SLOB_UNIT < b)
  (hstop : b + n ≤ 2 ^ 64) (hleft : ∀ left ∈ pre, left.stop ≤ b)
  (hright : ∀ right ∈ post, b + n ≤ right.start)

include h habove hleft in
/-- The nodes in front of the new block end at it or below. -/
theorem node_le_new {node : ℕ} (hnode : node ∈ arena :: pre.map Block.start) :
    node + SLOB_UNIT ≤ b := by
  rcases List.mem_cons.mp hnode with rfl | hmem
  · exact habove.le
  · obtain ⟨left, hpre, rfl⟩ := List.mem_map.mp hmem
    have hsize : SLOB_UNIT ≤ left.size := h.size_ge (List.mem_append_left _ hpre)
    have hle := hleft left hpre
    rw [Block.stop_eq] at hle
    omega

theorem slobMergeNext_kept {cur address : ℕ} (haddress : address ≠ b) (hnext : address ≠ b + 8) :
    slobMergeNext mem cur b address = mem address := by
  unfold slobMergeNext
  split
  · rw [setSlobNext_of_ne hnext, setSlobUnits_of_ne haddress]
  · rw [setSlobNext_of_ne hnext]

theorem slobMergePrev_kept {cur address : ℕ} (haddress : address ≠ cur)
    (hnext : address ≠ cur + 8) : slobMergePrev mem cur b address = mem address := by
  unfold slobMergePrev
  split
  · rw [setSlobNext_of_ne hnext, setSlobUnits_of_ne haddress]
  · rw [setSlobNext_of_ne hnext]

include h hbase hunits hpos habove hstop hleft hright

/-- The first half of the insertion: the new block takes over what follows it. -/
theorem slobMergeNext_spec :
    SLOB_UNIT * slobUnits (slobMergeNext mem (ringNode arena pre) b) b =
        (joinRight ⟨b, n⟩ post).1.size ∧
      Chain (slobNext (slobMergeNext mem (ringNode arena pre) b)) id b
        ((joinRight ⟨b, n⟩ post).2.map Block.start) arena := by
  have hnext := h.next_ringNode
  have hnode : ringNode arena pre + SLOB_UNIT ≤ b := h.node_le_new habove hleft lastCell_mem
  have hsize : SLOB_UNIT ≤ n := by
    unfold SLOB_UNIT at *
    omega
  have hrest : Chain (slobNext mem) id (ringNode arena pre) (post.map Block.start) arena := by
    have hchain := h.chain
    rw [List.map_append] at hchain
    have hdrop := hchain.drop
    rwa [lastCell_map] at hdrop
  have hkept : ∀ value units, ∀ right ∈ post,
      slobNext (setSlobNext (setSlobUnits mem b units) b value) right.start =
        slobNext mem right.start := by
    intro value units right hmem
    have := hright right hmem
    unfold SLOB_UNIT at hsize
    rw [slobNext_congr (setSlobNext_of_ne (by omega)),
      slobNext_congr (setSlobUnits_of_ne (by omega))]
  cases post with
  | nil =>
    have hne : slobAdd b (slobUnits mem b) ≠ slobNext mem (ringNode arena pre) := by
      rw [hnext, headNode, List.head?_nil]
      unfold KERNBASE at hbase
      rw [ne_eq, Option.map_none, Option.getD_none,
        slobAdd_eq_iff hunits hstop (by omega) (by omega)]
      omega
    rw [slobMergeNext, if_neg hne]
    refine ⟨?_, ?_⟩
    · rw [slobUnits_congr (setSlobNext_of_ne (by omega))]
      exact hunits
    · change slobNext (setSlobNext mem b _) b = arena
      rw [slobNext_setSlobNext slobNext_lt]
      exact hnext
  | cons first rest =>
    have hfirst : slobNext mem (ringNode arena pre) = first.start := hnext
    have hmem : first ∈ pre ++ first :: rest := by simp
    have habove' := h.above first hmem
    have hsize' := h.units first hmem
    have hge := h.size_ge hmem
    have hle := hright first (by simp)
    rw [Block.stop_eq] at habove'
    have hiff := slobAdd_eq_iff hunits hstop (show 0 < first.start by omega)
      (show first.start < 2 ^ 64 by unfold SLOB_UNIT at hge; omega)
    unfold slobMergeNext
    rw [hfirst]
    by_cases htouch : b + n = first.start
    · have hjoin : joinRight ⟨b, n⟩ (first :: rest) = (⟨b, n + first.size⟩, rest) := by
        simp [joinRight, htouch]
      rw [if_pos (hiff.mpr htouch), hjoin]
      dsimp only
      refine ⟨?_, ?_⟩
      · rw [slobUnits_congr (setSlobNext_of_ne (by omega)), slobUnits_setSlobUnits]
        · push_cast
          rw [mul_add, hunits, hsize']
        · unfold SLOB_UNIT at *
          omega
        · unfold SLOB_UNIT KERNBASE at *
          omega
      · have hafter : Chain (slobNext mem) id first.start (rest.map Block.start) arena := hrest.2
        refine hafter.move ?_ fun node hnode ↦ ?_
        · have hne : first.start + 8 ≠ b := by omega
          have hlink : ∀ units, slobNext (setSlobUnits mem b units) (ringNode arena pre) =
              first.start := by
            intro units
            unfold SLOB_UNIT at hnode
            rw [slobNext_congr (setSlobUnits_of_ne (by omega)), hfirst]
          rw [slobNext_setSlobNext slobNext_lt, hlink]
          exact slobNext_congr (setSlobUnits_of_ne hne)
        · obtain ⟨right, hmem', rfl⟩ := List.mem_map.mp hnode
          exact hkept _ _ right (List.mem_cons_of_mem _ hmem')
    · have hjoin : joinRight ⟨b, n⟩ (first :: rest) = (⟨b, n⟩, first :: rest) := by
        simp [joinRight, htouch]
      rw [if_neg (fun heq ↦ htouch (hiff.mp heq)), hjoin]
      refine ⟨?_, ?_⟩
      · rw [slobUnits_congr (setSlobNext_of_ne (by omega))]
        exact hunits
      · refine hrest.move ?_ fun node hnode ↦ ?_
        · rw [slobNext_setSlobNext (by unfold SLOB_UNIT at hge; omega), hfirst]
        · obtain ⟨right, hmem', rfl⟩ := List.mem_map.mp hnode
          have := hright right hmem'
          have hne : right.start + 8 ≠ b + 8 := by
            unfold SLOB_UNIT at hsize
            omega
          exact slobNext_congr (setSlobNext_of_ne hne)

/-- After the first half the ring is as before and the new block hangs off it. -/
theorem slobMergeNext_hanging (haligned : SLOB_UNIT ∣ b) :
    Hanging arena (slobMergeNext mem (ringNode arena pre) b) pre post (joinRight ⟨b, n⟩ post).1
      (joinRight ⟨b, n⟩ post).2 := by
  obtain ⟨hsize, hchain⟩ := h.slobMergeNext_spec hbase hunits hpos habove hstop hleft hright
  have hstart : (joinRight ⟨b, n⟩ post).1.start = b := joinRight_start
  have hunit : SLOB_UNIT ≤ n := by
    unfold SLOB_UNIT at *
    omega
  have hnodes : ∀ node ∈ arena :: (pre ++ post).map Block.start,
      node + SLOB_UNIT ≤ b ∨ b + SLOB_UNIT ≤ node := by
    intro node hnode
    rw [List.map_append, ← List.cons_append] at hnode
    rcases List.mem_append.mp hnode with hmem | hmem
    · exact .inl (h.node_le_new habove hleft hmem)
    · obtain ⟨right, hmem', rfl⟩ := List.mem_map.mp hmem
      have := hright right hmem'
      exact .inr (by omega)
  have hnonempty := (joinRight_spec (Separated.append_iff.mp h.separated).2.1
    (show 0 < (Block.mk b n).size from hpos) hright).2.1
  refine ⟨h.congr fun node hnode ↦ ?_, ?_, hnonempty, ?_, ?_, ?_, fun node hnode ↦ ?_, ?_,
    fun right hmem ↦ ?_⟩
  · have := hnodes node hnode
    unfold SLOB_UNIT at this
    exact ⟨slobMergeNext_kept (by omega) (by omega), slobMergeNext_kept (by omega) (by omega)⟩
  · rw [hstart]
    exact hsize
  · rw [hstart]
    exact haligned
  · rw [hstart]
    exact habove
  · have hchoice : (joinRight ⟨b, n⟩ post).1.stop = b + n ∨
        ∃ right ∈ post, (joinRight ⟨b, n⟩ post).1.stop = right.stop := joinRight_stop
    rcases hchoice with heq | ⟨right, hmem, heq⟩
    · exact heq ▸ hstop
    · exact heq ▸ (h.above right (List.mem_append_right _ hmem)).2
  · rw [hstart]
    exact h.node_le_new habove hleft hnode
  · rw [hstart]
    exact hchain
  · have hpost : right ∈ post := mem_of_mem_joinRight hmem
    have := hright right hpost
    exact ⟨hpost, by omega⟩

/-- Linking a block in behind the right node releases it. -/
theorem slobInsert (haligned : SLOB_UNIT ∣ b) :
    FreeRing arena (slobInsert mem (ringNode arena pre) b) (release pre ⟨b, n⟩ post) := by
  have hhanging :=
    h.slobMergeNext_hanging hbase hunits hpos habove hstop hleft hright haligned
  have hseparated : Separated (release pre ⟨b, n⟩ post) := h.separated.release hpos hleft hright
  have hstart : (joinRight ⟨b, n⟩ post).1.start = b := joinRight_start
  have hfront : ∀ left ∈ pre, left.stop ≤ (joinRight ⟨b, n⟩ post).1.start := by
    rw [hstart]
    exact hleft
  rw [release_eq] at hseparated ⊢
  have hlinked := hhanging.slobMergePrev hbase hfront hseparated
  rw [hstart] at hlinked
  exact hlinked

end Insert

/-! ## The reinsertion point -/

/-- The scan of `slob_free` stops at the node behind which `b` belongs. -/
theorem slobFreeScan_spec (h : FreeRing arena mem blocks) {b fuel node cur : ℕ} (habove : arena < b)
    (hnode : node ∈ arena :: blocks.map Block.start)
    (hscan : slobFreeScan mem b fuel node = .ok cur) :
    ∃ pre post, blocks = pre ++ post ∧ cur = ringNode arena pre ∧
      (∀ left ∈ pre, left.start < b) ∧ ∀ right ∈ post, b < right.start := by
  induction fuel generalizing node with
  | zero => simp [slobFreeScan] at hscan
  | succ fuel ih =>
    obtain ⟨pre, post, rfl, rfl⟩ := exists_ringNode hnode
    have hnext := h.next_ringNode
    have hfront : ∀ left ∈ pre, left.start ≤ ringNode arena pre := by
      intro left hleft
      rcases ringNode_cases arena pre with ⟨rfl, -⟩ | ⟨front, last, rfl, hlast⟩
      · simp at hleft
      · rw [hlast]
        have hring : FreeRing arena mem (front ++ last :: post) := by simpa using h
        rcases List.mem_append.mp hleft with hmem | hmem
        · have := hring.node_le (List.mem_cons_of_mem _ (List.mem_map_of_mem hmem))
          omega
        · rw [List.mem_singleton.mp hmem]
    rw [slobFreeScan, hnext] at hscan
    cases post with
    | nil =>
      have hback : headNode arena [] = arena := rfl
      rw [hback, if_neg (by omega)] at hscan
      split at hscan
      · rename_i hstop
        obtain rfl : ringNode arena pre = cur := by simpa using hscan
        refine ⟨pre, [], rfl, rfl, fun left hleft ↦ ?_, by simp⟩
        have := hfront left hleft
        omega
      · exact ih (by simp) hscan
    | cons first rest =>
      have hhead : headNode arena (first :: rest) = first.start := rfl
      have hlt := h.ringNode_le
      rw [hhead] at hscan
      split at hscan
      · rename_i hbetween
        obtain rfl : ringNode arena pre = cur := by simpa using hscan
        refine ⟨pre, first :: rest, rfl, rfl, fun left hleft ↦ ?_, fun right hright ↦ ?_⟩
        · have := hfront left hleft
          omega
        · rcases List.mem_cons.mp hright with rfl | hmem
          · exact hbetween.2
          · have := h.lt_start hmem
            omega
      · unfold SLOB_UNIT at hlt
        rw [if_neg (by omega)] at hscan
        exact ih (by simp) hscan

end FreeRing

theorem slobInsert_kept {mem : Memory} {cur b address : ℕ} (hb : address ≠ b)
    (hb' : address ≠ b + 8) (hcur : address ≠ cur) (hcur' : address ≠ cur + 8) :
    slobInsert mem cur b address = mem address := by
  rw [slobInsert, FreeRing.slobMergePrev_kept hcur hcur', FreeRing.slobMergeNext_kept hb hb']

/-! ## `slob_free` -/

section Free

variable {allocator : PageAllocator} {arena : ℕ} {heap heap' : Heap allocator} {blocks : List Block}
  {b n size fuel : ℕ}

/-- Setting `units` of a block that lies apart from the ring. -/
theorem FreeRing.header (h : FreeRing arena heap.mem blocks) (hbase : KERNBASE ≤ arena)
    (hpos : 0 < n) (habove : arena + SLOB_UNIT < b) (hstop : b + n ≤ 2 ^ 64)
    (hapart : ∀ block ∈ blocks, block.stop ≤ b ∨ b + n ≤ block.start)
    (hunits : if size = 0 then SLOB_UNIT * slobUnits heap.mem b = n
      else (SLOB_UNIT : ℤ) * SLOB_UNITS size = n) :
    FreeRing arena (if size ≠ 0 then setSlobUnits heap.mem b (SLOB_UNITS size) else heap.mem)
        blocks ∧
      SLOB_UNIT * slobUnits
        (if size ≠ 0 then setSlobUnits heap.mem b (SLOB_UNITS size) else heap.mem) b = n := by
  by_cases hsize : size = 0
  · simp only [hsize, ne_eq, not_true_eq_false, if_false, if_true] at hunits ⊢
    exact ⟨h, hunits⟩
  · simp only [hsize, ne_eq, not_false_eq_true, if_true, if_false] at hunits ⊢
    refine ⟨h.congr fun node hnode ↦ ?_, ?_⟩
    · have hne : node ≠ b ∧ node + 8 ≠ b := by
        unfold SLOB_UNIT at *
        rcases List.mem_cons.mp hnode with rfl | hmem
        · omega
        · obtain ⟨block, hblock, rfl⟩ := List.mem_map.mp hmem
          have := hapart block hblock
          have := h.size_ge hblock
          unfold SLOB_UNIT at this
          rw [Block.stop_eq] at *
          omega
      exact ⟨setSlobUnits_of_ne hne.1, setSlobUnits_of_ne hne.2⟩
    · rw [slobUnits_setSlobUnits]
      · exact hunits
      · omega
      · unfold SLOB_UNIT KERNBASE at *
        omega

/-- Releasing a block that lies apart from the free blocks. -/
theorem FreeRing.slobFree (h : FreeRing arena heap.mem blocks) (hbase : KERNBASE ≤ arena)
    (hposition : heap.slobfree ∈ arena :: blocks.map Block.start)
    (hpos : 0 < n) (haligned : SLOB_UNIT ∣ b) (habove : arena + SLOB_UNIT < b)
    (hstop : b + n ≤ 2 ^ 64) (hapart : ∀ block ∈ blocks, block.stop ≤ b ∨ b + n ≤ block.start)
    (hunits : if size = 0 then SLOB_UNIT * slobUnits heap.mem b = n
      else (SLOB_UNIT : ℤ) * SLOB_UNITS size = n)
    (hfree : Ucore.slobFree fuel heap b size = .ok heap') :
    ∃ blocks', FreeRing arena heap'.mem blocks' ∧
      heap'.slobfree ∈ arena :: blocks'.map Block.start ∧
      heap'.bigblocks = heap.bigblocks ∧ heap'.pages = heap.pages ∧
      cover blocks' = cover blocks ∪ Block.cells ⟨b, n⟩ ∧
      ∀ address, address ∉ cover blocks → address ∉ Block.cells ⟨b, n⟩ →
        address ∉ Block.cells ⟨arena, SLOB_UNIT⟩ → heap'.mem address = heap.mem address := by
  obtain ⟨hring, hsize⟩ := h.header hbase hpos habove hstop hapart hunits
  have hkept : ∀ address, address ≠ b →
      (if size ≠ 0 then setSlobUnits heap.mem b (SLOB_UNITS size) else heap.mem) address =
        heap.mem address := by
    intro address hne
    split
    · exact setSlobUnits_of_ne hne
    · rfl
  unfold Ucore.slobFree at hfree
  rw [if_neg (by omega)] at hfree
  obtain ⟨cur, hscan, hfree⟩ := bind_eq_ok.mp hfree
  generalize (if size ≠ 0 then setSlobUnits heap.mem b (SLOB_UNITS size) else heap.mem) = mem at *
  obtain ⟨pre, post, rfl, rfl, hpre, hpost⟩ :=
    hring.slobFreeScan_spec (by omega) hposition hscan
  obtain rfl := Except.ok.inj hfree
  have hleft : ∀ left ∈ pre, left.stop ≤ b := by
    intro left hmem
    have := hapart left (List.mem_append_left _ hmem)
    have := hpre left hmem
    omega
  have hright : ∀ right ∈ post, b + n ≤ right.start := by
    intro right hmem
    have hsplit := hapart right (List.mem_append_right _ hmem)
    have := hpost right hmem
    rw [Block.stop_eq] at hsplit
    omega
  refine ⟨release pre ⟨b, n⟩ post,
    hring.slobInsert hbase hsize hpos habove hstop hleft hright haligned, ?_, rfl, rfl,
    cover_release h.separated hpos hleft hright, fun address hcover hcells harena ↦ ?_⟩
  · rcases ringNode_cases arena pre with ⟨-, hcur⟩ | ⟨front, left, hsplit, hcur⟩
    · rw [hcur]
      simp
    · have hmem : left ∈ pre := by simp [hsplit]
      obtain ⟨kept, hkept_mem, hstart⟩ := start_mem_release ⟨b, n⟩ post hmem
      rw [hcur, ← hstart]
      exact List.mem_cons_of_mem _ (List.mem_map_of_mem hkept_mem)
  · rw [Block.mem_cells_mk] at hcells harena
    have hroom : SLOB_UNIT ≤ n := by
      unfold SLOB_UNIT at *
      omega
    have hcur : address ≠ ringNode arena pre ∧ address ≠ ringNode arena pre + 8 := by
      unfold SLOB_UNIT at *
      rcases ringNode_cases arena pre with ⟨-, hcur⟩ | ⟨front, left, hsplit, hcur⟩
      · omega
      · have hmem : left ∈ pre ++ post := by simp [hsplit]
        have hge := h.size_ge hmem
        have hnot : address ∉ left.cells := fun hcell ↦ hcover ⟨left, hmem, hcell⟩
        rw [Block.mem_cells, Block.stop_eq] at hnot
        unfold SLOB_UNIT at hge
        omega
    unfold SLOB_UNIT at hroom
    exact (slobInsert_kept (by omega) (by omega) hcur.1 hcur.2).trans (hkept address (by omega))

end Free

end Ucore
