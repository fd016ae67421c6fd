import Ucore.Driver.DtbWalk

/-!
# The memory node

The loop keeps one bit instead of a stack of nodes, and compares a prefix of a name. What it finds is
the first `reg` of the nodes whose name begins with `memory` and of their first children.
-/

namespace Ucore

open Foundation ByteMemory

/-- The data of the `reg` properties that are long enough -/
def regs (properties : List FdtProperty) : List (List Byte) :=
  (properties.filter fun prop ↦ prop.name = regName ∧ 16 ≤ prop.data.length).map (·.data)

/-- `memory` or `memory@<unit-address>` -/
def isMemoryNode (name : List Byte) : Bool :=
  name = memoryName || (memoryName ++ [64]).isPrefixOf name

namespace FdtForest

/-- The regions of the memory nodes, in the order of the tree -/
def memoryRegs : FdtForest → List (List Byte)
  | .nil => []
  | .node name properties children siblings =>
    (if isMemoryNode name then regs properties else []) ++
      (children.memoryRegs ++ siblings.memoryRegs)

/-- The `reg` properties that the bit lets through, those of the nodes whose name begins with `memory`
and of the nodes that are reached from one by first children only, each with whether its own node is a
memory node; `inherited` tells whether the first node is such a child. -/
def letThrough (inherited : Bool) : FdtForest → List (Bool × List Byte)
  | .nil => []
  | .node name properties children siblings =>
    let inside := memoryName.isPrefixOf name || inherited
    (if inside then regs properties else []).map (isMemoryNode name, ·) ++
      (children.letThrough inside ++ siblings.letThrough false)

/-- The first `reg` that the bit lets through, if there is one, belongs to a memory node itself. -/
def MemoryFirst (tree : FdtForest) : Prop :=
  ∀ reg ∈ (tree.letThrough false).head?, reg.1 = true

instance (tree : FdtForest) : Decidable tree.MemoryFirst :=
  inferInstanceAs (Decidable (∀ reg ∈ (tree.letThrough false).head?, reg.1 = true))

/-- The bit after a forest: an `END_NODE` clears it. -/
def flagAfter (flag : Bool) : FdtForest → Bool
  | .nil => flag
  | .node _ _ _ _ => false

theorem isPrefixOf_of_isMemoryNode {name : List Byte} (h : isMemoryNode name = true) :
    memoryName.isPrefixOf name = true := by
  rw [List.isPrefixOf_iff_prefix]
  rcases Bool.or_eq_true _ _ ▸ h with hname | hname
  · rw [of_decide_eq_true hname]
  · exact (List.prefix_append memoryName [64]).trans (List.isPrefixOf_iff_prefix.mp hname)

/-- The bit lets the regions of all memory nodes through. -/
theorem letThrough_filter (inherited : Bool) (forest : FdtForest) :
    ((forest.letThrough inherited).filter (·.1)).map (·.2) = forest.memoryRegs := by
  induction forest generalizing inherited with
  | nil => rfl
  | node name properties children siblings hchildren hsiblings =>
    rw [letThrough, memoryRegs, List.filter_append, List.filter_append, List.map_append,
      List.map_append, hchildren, hsiblings]
    congr 1
    cases hmemory : isMemoryNode name with
    | false => simp
    | true => simp [isPrefixOf_of_isMemoryNode hmemory, List.filter_map, Function.comp_def]

/-- The first `reg` let through is the first region when it belongs to a memory node. -/
theorem MemoryFirst.head?_eq {tree : FdtForest} (h : tree.MemoryFirst) :
    (tree.letThrough false).head?.map (·.2) = tree.memoryRegs.head? := by
  rw [← letThrough_filter false tree]
  cases hregs : tree.letThrough false with
  | nil => rfl
  | cons reg rest =>
    have hfirst : reg.1 = true := h reg (by rw [hregs]; rfl)
    rw [List.filter_cons_of_pos hfirst]
    rfl

end FdtForest

namespace FdtToken

variable {flag : Bool} {rest : List FdtToken}

theorem found_filter (flag : Bool) (tokens : List FdtToken) :
    found flag (tokens.filter (· ≠ .nop)) = found flag tokens := by
  induction tokens generalizing flag with
  | nil => rfl
  | cons token tokens ih =>
    by_cases hnop : token = .nop
    · subst hnop
      exact ih flag
    · rw [List.filter_cons_of_pos (by simpa using hnop)]
      unfold found
      rw [ih]

theorem found_properties (properties : List FdtProperty) :
    found flag (properties.map .property ++ rest) =
      (if flag then regs properties else []).head?.or (found flag rest) := by
  induction properties with
  | nil => cases flag <;> rfl
  | cons prop properties ih =>
    have hflag : flagAfter flag (.property prop) = flag := rfl
    rw [List.map_cons, List.cons_append, found, hflag, ih]
    by_cases hfound : flag = true ∧ prop.name = regName ∧ 16 ≤ prop.data.length
    · obtain ⟨rfl, hreg⟩ := hfound
      simp [stopsAt, foundAt, regs, hreg]
    · have hnone : (FdtToken.property prop).foundAt flag = none := if_neg hfound
      have hregs : (if flag then regs (prop :: properties) else []) =
          if flag then regs properties else [] := by
        cases flag with
        | false => rfl
        | true =>
          have hreg : ¬ (prop.name = regName ∧ 16 ≤ prop.data.length) := fun h ↦ hfound ⟨rfl, h⟩
          simp only [regs, List.filter_cons, decide_eq_false hreg, Bool.false_eq_true, if_false]
      rw [hregs, stopsAt, hnone]
      rfl

/-- What is found in a forest, and after it -/
theorem found_tokens (forest : FdtForest) :
    found flag (forest.tokens ++ rest) =
      ((forest.letThrough flag).head?.map (·.2)).or (found (forest.flagAfter flag) rest) := by
  induction forest generalizing flag rest with
  | nil => rfl
  | node name properties children siblings hchildren hsiblings =>
    let inside := memoryName.isPrefixOf name || flag
    calc
      found flag ((FdtForest.node name properties children siblings).tokens ++ rest) =
          found inside (properties.map .property ++
            (children.tokens ++ (.endNode :: (siblings.tokens ++ rest)))) := by
        rw [FdtForest.tokens]
        simp only [List.cons_append, List.append_assoc]
        rfl
      _ = (if inside then regs properties else []).head?.or
            (((children.letThrough inside).head?.map (·.2)).or
              (found (children.flagAfter inside) (.endNode :: (siblings.tokens ++ rest)))) := by
        rw [found_properties, hchildren]
      _ = (if inside then regs properties else []).head?.or
            (((children.letThrough inside).head?.map (·.2)).or
              (((siblings.letThrough false).head?.map (·.2)).or
                (found (siblings.flagAfter false) rest))) := by
        have hend : found (children.flagAfter inside) (.endNode :: (siblings.tokens ++ rest)) =
            found false (siblings.tokens ++ rest) := rfl
        rw [hend, hsiblings]
      _ = _ := by
        have hafter : siblings.flagAfter false = false := by cases siblings <;> rfl
        have hown : ((if inside then regs properties else []).map (isMemoryNode name, ·)).head?.map
            (·.2) = (if inside then regs properties else []).head? := by
          rw [List.head?_map, Option.map_map]
          exact Option.map_id'
        rw [hafter, FdtForest.letThrough, List.head?_append, List.head?_append, Option.map_or,
          Option.map_or, hown, Option.or_assoc, Option.or_assoc]
        rfl

end FdtToken

namespace FdtBlob

variable {blob : FdtBlob} {v : BitVec 64}

theorem found_eq (blob : FdtBlob) :
    FdtToken.found false blob.tokens = (blob.tree.letThrough false).head?.map (·.2) := by
  rw [← FdtToken.found_filter, blob.layout, FdtToken.found_tokens]
  exact Option.or_none

/-- Whatever is around the blob, `extract_memory_info` returns the first region of a memory node. -/
def LooksUp (blob : FdtBlob) (v : BitVec 64) : Prop :=
  ∀ memory : ByteMemory, memory.Holds v blob.bytes →
    ∃ fuel read, extractMemoryInfo memory fuel v =
      some (read, blob.tree.memoryRegs.head?.map memoryInfo)

theorem extractMemoryInfo_result {memory : ByteMemory} (haligned : v.toNat % 4 = 0)
    (hmapped : BootMapped v.toNat blob.bytes.length) (h : memory.Holds v blob.bytes) :
    ∃ fuel read, extractMemoryInfo memory fuel v =
      some (read, ((blob.tree.letThrough false).head?.map (·.2)).map memoryInfo) := by
  obtain ⟨fuel, hread⟩ := extractMemoryInfo_mapped haligned hmapped h
  exact ⟨fuel, _, blob.found_eq ▸ hread⟩

/-- In a mapped blob the look-up is right if the first `reg` that the bit lets through belongs to a
memory node. Otherwise the values of another node are returned. -/
theorem lookup_memory_first (blob : FdtBlob) (haligned : v.toNat % 4 = 0)
    (hmapped : BootMapped v.toNat blob.bytes.length) :
    (blob.tree.MemoryFirst → blob.LooksUp v) ∧
      (¬ blob.tree.MemoryFirst → ∃ data, (blob.tree.letThrough false).head? = some (false, data) ∧
        ∀ memory : ByteMemory, memory.Holds v blob.bytes →
          ∃ fuel read, extractMemoryInfo memory fuel v = some (read, some (memoryInfo data))) := by
  constructor
  · intro hfirst memory hholds
    obtain ⟨fuel, read, hread⟩ := extractMemoryInfo_result haligned hmapped hholds
    rw [hfirst.head?_eq] at hread
    exact ⟨fuel, read, hread⟩
  · intro hother
    obtain ⟨⟨own, data⟩, hreg, hown⟩ : ∃ reg, reg ∈ (blob.tree.letThrough false).head? ∧
        ¬ reg.1 = true := by simpa [FdtForest.MemoryFirst] using hother
    obtain rfl := Bool.eq_false_of_not_eq_true hown
    refine ⟨data, hreg, fun memory hholds ↦ ?_⟩
    obtain ⟨fuel, read, hread⟩ := extractMemoryInfo_result haligned hmapped hholds
    rw [show (blob.tree.letThrough false).head? = _ from hreg] at hread
    exact ⟨fuel, read, hread⟩

theorem lookup_memory_first_sample : oneRegion.LooksUp 0xFFFFFFFFC2200000 :=
  (lookup_memory_first oneRegion (by decide) (by decide)).1 (by decide)

/-- `"memory-controller"` -/
def controllerNode : List Byte :=
  [109, 101, 109, 111, 114, 121, 45, 99, 111, 110, 116, 114, 111, 108, 108, 101, 114]

/-- The registers of a memory controller, 4 KiB from 0x10000000 on -/
def controllerRegisters : FdtProperty where
  name := regName
  nameoff := 0
  data := [0, 0, 0, 0, 0x10, 0, 0, 0, 0, 0, 0, 0, 0, 0, 0x10, 0]

/-- A memory controller before the memory -/
def controllerFirst : FdtBlob :=
  build [.beginNode [], .beginNode controllerNode, .property controllerRegisters, .endNode,
      .beginNode memoryNode, .property memoryRegion, .endNode, .endNode, .fin]
    (.node [] [] (.node controllerNode [controllerRegisters] .nil
      (.node memoryNode [memoryRegion] .nil .nil)) .nil)
    (regName ++ [0]) (by decide +kernel) (by decide)
    (by
      intro prop hprop
      have heq : prop = controllerRegisters ∨ prop = memoryRegion := by simpa using hprop
      rcases heq with rfl | rfl <;> exact List.prefix_rfl)
    (by decide)

/-- The registers of the controller are taken for the memory. -/
theorem lookup_finds_controller : ¬ ∀ (blob : FdtBlob) (v : BitVec 64), v.toNat % 4 = 0 →
    BootMapped v.toNat blob.bytes.length → blob.LooksUp v := by
  intro hright
  have hholds : (only 0xFFFFFFFFC2200000 controllerFirst.bytes).Holds 0xFFFFFFFFC2200000
      controllerFirst.bytes := holds_only (by decide +kernel)
  have hmapped : BootMapped (0xFFFFFFFFC2200000 : BitVec 64).toNat controllerFirst.bytes.length := by
    decide +kernel
  obtain ⟨fuel, read, hread⟩ := hright controllerFirst 0xFFFFFFFFC2200000 rfl hmapped _ hholds
  obtain ⟨fuel', read', hread'⟩ := extractMemoryInfo_result rfl hmapped hholds
  rw [extractMemoryInfo_eq hholds] at hread hread'
  have hsame := (extractLoop_mono fuel hread').symm.trans
    (Nat.add_comm fuel fuel' ▸ extractLoop_mono fuel' hread)
  have hinfo : ((controllerFirst.tree.letThrough false).head?.map (·.2)).map memoryInfo =
      controllerFirst.tree.memoryRegs.head?.map memoryInfo :=
    congrArg Prod.snd (Option.some.inj hsame)
  exact absurd hinfo (by decide +kernel)

end FdtBlob

end Ucore
