import Ucore.Libs.String

/-!
# The device tree (`kern/driver/dtb.c`)

A function has no result if it reads outside the readable memory or if a loop outlives its fuel.
-/

namespace Ucore

open Foundation ByteMemory

def PHYSICAL_MEMORY_OFFSET : BitVec 64 := 0xFFFFFFFF40000000

def FDT_BEGIN_NODE : BitVec 32 := 0x00000001
def FDT_END_NODE : BitVec 32 := 0x00000002
def FDT_PROP : BitVec 32 := 0x00000003
def FDT_NOP : BitVec 32 := 0x00000004
def FDT_END : BitVec 32 := 0x00000009

def FDT_MAGIC : BitVec 32 := 0xd00dfeed

def fdt32ToCpu (x : BitVec 32) : BitVec 32 :=
  ((x &&& 0xff) <<< 24) ||| (((x >>> 8) &&& 0xff) <<< 16) |||
    (((x >>> 16) &&& 0xff) <<< 8) ||| ((x >>> 24) &&& 0xff)

def fdt64ToCpu (x : BitVec 64) : BitVec 64 :=
  ((fdt32ToCpu ((x &&& 0xffffffff).setWidth 32)).setWidth 64 <<< 32) |||
    (fdt32ToCpu ((x >>> 32).setWidth 32)).setWidth 64

/-- `"memory"` -/
def memoryName : List Byte := [109, 101, 109, 111, 114, 121]

/-- `"reg"` -/
def regName : List Byte := [114, 101, 103]

/-- The variables of the loop of `extract_memory_info` -/
structure FdtWalk where
  structPtr : BitVec 64
  inMemoryNode : Bool
deriving DecidableEq

/-- What one round of the loop ends with: the next round, `return 0` or `return -1`. -/
inductive FdtRound where
  | next (walk : FdtWalk)
  | success (memBase memSize : BitVec 64)
  | failure
deriving DecidableEq

section Extract

variable (memory : ByteMemory) (stringsBase : BitVec 64)

/-- `(p + len) & ~3` -/
def alignedAfter (p len : BitVec 64) : BitVec 64 := (p + len) &&& ~~~3#64

/-- `*struct_ptr` -/
def fetchToken (structPtr : BitVec 64) : Option (BitVec 32) := do
  return fdt32ToCpu (← memory.load32 structPtr)

/-- `case FDT_BEGIN_NODE`; the length of the name is an `int`. -/
def fdtBeginNode (fuel : ℕ) (structPtr : BitVec 64) (inMemoryNode : Bool) : Option FdtRound := do
  let nameLen := (← strlen memory fuel structPtr).setWidth 32
  let found := (← strncmp memory structPtr memoryName 6) = 0
  return .next ⟨alignedAfter structPtr (nameLen.signExtend 64 + 4), found || inMemoryNode⟩

/-- `in_memory_node && strcmp(prop_name, "reg") == 0 && prop_len >= 16` -/
def isMemoryReg (inMemoryNode : Bool) (propName : BitVec 64) (propLen : BitVec 32) :
    Option Bool := do
  if inMemoryNode then return (← strcmp memory propName regName) = 0 ∧ propLen ≥ 16
  else return false

/-- `case FDT_PROP` -/
def fdtProp (structPtr : BitVec 64) (inMemoryNode : Bool) : Option FdtRound := do
  let propLen := fdt32ToCpu (← memory.load32 structPtr)
  let propNameoff := fdt32ToCpu (← memory.load32 (structPtr + 4))
  let propData := structPtr + 8
  if ← isMemoryReg memory inMemoryNode (stringsBase + propNameoff.setWidth 64) propLen then
    return .success (fdt64ToCpu (← memory.load64 propData))
      (fdt64ToCpu (← memory.load64 (propData + 8)))
  return .next ⟨alignedAfter propData (propLen.setWidth 64 + 3), inMemoryNode⟩

/-- One round of the loop after its token is read -/
def extractRound (fuel : ℕ) (token : BitVec 32) (walk : FdtWalk) : Option FdtRound :=
  let structPtr := walk.structPtr + 4
  if token = FDT_BEGIN_NODE then fdtBeginNode memory fuel structPtr walk.inMemoryNode
  else if token = FDT_END_NODE then some (.next ⟨structPtr, false⟩)
  else if token = FDT_PROP then fdtProp memory stringsBase structPtr walk.inMemoryNode
  else if token = FDT_NOP then some (.next ⟨structPtr, walk.inMemoryNode⟩)
  -- `case FDT_END` and `default`
  else some .failure

/-- The loop of `extract_memory_info`: the position and the value of each token it reads, and the two
values it returns with 0 or, when it returns -1, none. -/
def extractLoop : ℕ → FdtWalk → Option (List (BitVec 64 × BitVec 32) × Option (BitVec 64 × BitVec 64))
  | 0, _ => none
  | fuel + 1, walk => do
    let token ← fetchToken memory walk.structPtr
    match ← extractRound memory stringsBase fuel token walk with
    | .success memBase memSize => return ([(walk.structPtr, token)], some (memBase, memSize))
    | .failure => return ([(walk.structPtr, token)], none)
    | .next walk' =>
      let (tokens, info) ← extractLoop fuel walk'
      return ((walk.structPtr, token) :: tokens, info)

end Extract

/-- `extract_memory_info(dtb_vaddr, header, ..)` with the tokens it reads -/
def extractMemoryInfo (memory : ByteMemory) (fuel : ℕ) (dtbVaddr : BitVec 64) :
    Option (List (BitVec 64 × BitVec 32) × Option (BitVec 64 × BitVec 64)) := do
  let structOffset := fdt32ToCpu (← memory.load32 (dtbVaddr + 8))
  let stringsOffset := fdt32ToCpu (← memory.load32 (dtbVaddr + 12))
  extractLoop memory (dtbVaddr + stringsOffset.setWidth 64) fuel
    ⟨dtbVaddr + structOffset.setWidth 64, false⟩

/-- The variables `memory_base` and `memory_size`, and what was printed. -/
structure DtbInfo where
  memoryBase : BitVec 64
  memorySize : BitVec 64
  output : List (String × List (BitVec 64))

def DtbInfo.print (info : DtbInfo) (format : String) (arguments : List (BitVec 64)) : DtbInfo :=
  { info with output := info.output ++ [(format, arguments)] }

def dtbInit (memory : ByteMemory) (fuel : ℕ) (bootHartid bootDtb : BitVec 64) (info : DtbInfo) :
    Option DtbInfo := do
  let info := info.print "DTB Init\n" []
  let info := info.print "HartID: %ld\n" [bootHartid]
  let info := info.print "DTB Address: 0x%lx\n" [bootDtb]
  if bootDtb = 0 then return info.print "Error: DTB address is null\n" []
  let dtbVaddr := bootDtb + PHYSICAL_MEMORY_OFFSET
  let magic := fdt32ToCpu (← memory.load32 dtbVaddr)
  if magic ≠ FDT_MAGIC then
    return info.print "Error: Invalid DTB magic number: 0x%x\n" [magic.setWidth 64]
  let info ← match (← extractMemoryInfo memory fuel dtbVaddr).2 with
    | some (memBase, memSize) =>
      let info := info.print "Physical Memory from DTB:\n" []
      let info := info.print "  Base: 0x%016lx\n" [memBase]
      let info := info.print "  Size: 0x%016lx (%ld MB)\n" [memSize, memSize / (1024 * 1024)]
      let info := info.print "  End:  0x%016lx\n" [memBase + memSize - 1]
      pure { info with memoryBase := memBase, memorySize := memSize }
    | none => pure (info.print "Warning: Could not extract memory info from DTB\n" [])
  return info.print "DTB init completed\n" []

end Ucore
