import Mathlib.Data.Nat.Digits.Defs
import Ucore.Driver.Dtb

/-!
# Flattened device trees

The standard serialisation of a device tree: big-endian tokens, names that end in a NUL, and padding
to four bytes. A `FdtBlob` is a blob of bytes that holds a tree.
-/

namespace Ucore

open Foundation ByteMemory

structure FdtProperty where
  name : List Byte
  /-- Where the strings block holds the name. -/
  nameoff : BitVec 32
  data : List Byte
deriving DecidableEq

/-- Nodes in the order of the structure block. A tree is a forest of one node. -/
inductive FdtForest where
  | nil
  | node (name : List Byte) (properties : List FdtProperty) (children siblings : FdtForest)

inductive FdtToken where
  | beginNode (name : List Byte)
  | endNode
  | property (prop : FdtProperty)
  | nop
  | fin
deriving DecidableEq

def FdtForest.tokens : FdtForest → List FdtToken
  | .nil => []
  | .node name properties children siblings =>
    .beginNode name :: properties.map .property ++ children.tokens ++ .endNode :: siblings.tokens

namespace FdtToken

def word : FdtToken → BitVec 32
  | .beginNode _ => FDT_BEGIN_NODE
  | .endNode => FDT_END_NODE
  | .property _ => FDT_PROP
  | .nop => FDT_NOP
  | .fin => FDT_END

def bytes : FdtToken → List Byte
  | .beginNode name =>
    bigEndian32 FDT_BEGIN_NODE ++ (name ++ [0] ++ List.replicate (3 - name.length % 4) 0)
  | .property prop =>
    bigEndian32 FDT_PROP ++ (bigEndian32 (BitVec.ofNat 32 prop.data.length) ++
      (bigEndian32 prop.nameoff ++
        (prop.data ++ List.replicate ((4 - prop.data.length % 4) % 4) 0)))
  | token => bigEndian32 token.word

/-- Names have no NUL, and lengths fit their fields. -/
def WellFormed : FdtToken → Prop
  | .beginNode name => 0 ∉ name
  | .property prop => 0 ∉ prop.name ∧ prop.data.length < 2 ^ 32
  | _ => True

instance (token : FdtToken) : Decidable token.WellFormed :=
  match token with
  | .beginNode name => inferInstanceAs (Decidable (0 ∉ name))
  | .property prop => inferInstanceAs (Decidable (0 ∉ prop.name ∧ prop.data.length < 2 ^ 32))
  | .endNode | .nop | .fin => .isTrue trivial

/-- Where each token starts and what it is, if the first starts at `start`. -/
def positions : BitVec 64 → List FdtToken → List (BitVec 64 × BitVec 32)
  | _, [] => []
  | start, token :: tokens =>
    (start, token.word) :: positions (start + BitVec.ofNat 64 token.bytes.length) tokens

@[simp]
theorem positions_nil {start : BitVec 64} : positions start [] = [] := rfl

theorem positions_initial {tokens tokens' : List FdtToken} (h : tokens <+: tokens')
    (start : BitVec 64) : positions start tokens <+: positions start tokens' := by
  induction tokens generalizing tokens' start with
  | nil => exact List.nil_prefix
  | cons token tokens ih =>
    obtain ⟨others, rfl⟩ := h
    exact List.cons_prefix_cons.mpr ⟨rfl, ih (List.prefix_append _ _) _⟩

end FdtToken

/-- The bytes of a flattened device tree -/
structure FdtBlob where
  bytes : List Byte
  structOffset : BitVec 32
  stringsOffset : BitVec 32
  tokens : List FdtToken
  tree : FdtForest
  size : bytes.length < 2 ^ 32
  magic : bigEndian32 FDT_MAGIC <+: bytes
  totalsize : bigEndian32 (BitVec.ofNat 32 bytes.length) <+: bytes.drop 4
  offDtStruct : bigEndian32 structOffset <+: bytes.drop 8
  offDtStrings : bigEndian32 stringsOffset <+: bytes.drop 12
  aligned : structOffset.toNat % 4 = 0
  structBlock : tokens.flatMap FdtToken.bytes <+: bytes.drop structOffset.toNat
  wellFormed : ∀ token ∈ tokens, token.WellFormed
  names : ∀ prop, FdtToken.property prop ∈ tokens →
    prop.name ++ [0] <+: bytes.drop (stringsOffset.toNat + prop.nameoff.toNat)
  /-- There may be NOPs anywhere. -/
  layout : tokens.filter (· ≠ .nop) = tree.tokens ++ [.fin]

namespace FdtBlob

/-- The part of the header that is read -/
def header (size structOffset stringsOffset : BitVec 32) : List Byte :=
  bigEndian32 FDT_MAGIC ++ (bigEndian32 size ++ (bigEndian32 structOffset ++
    bigEndian32 stringsOffset))

/-- Tokens and the names of their properties make a blob if they are not too long. -/
def build (tokens : List FdtToken) (tree : FdtForest) (strings : List Byte)
    (size : 16 + ((tokens.flatMap FdtToken.bytes).length + strings.length) < 2 ^ 32)
    (wellFormed : ∀ token ∈ tokens, token.WellFormed)
    (names : ∀ prop, FdtToken.property prop ∈ tokens →
      prop.name ++ [0] <+: strings.drop prop.nameoff.toNat)
    (layout : tokens.filter (· ≠ .nop) = tree.tokens ++ [.fin]) : FdtBlob :=
  let block := tokens.flatMap FdtToken.bytes
  let total := 16 + (block.length + strings.length)
  let bytes := header (BitVec.ofNat 32 total) 16 (BitVec.ofNat 32 (16 + block.length)) ++
    (block ++ strings)
  have hlength : bytes.length = total := by
    simp only [bytes, total, header, List.length_append]
    rfl
  have hblock : bytes.drop 16 = block ++ strings := rfl
  have hoffset : (BitVec.ofNat 32 (16 + block.length)).toNat = 16 + block.length := by
    rw [BitVec.toNat_ofNat]
    exact Nat.mod_eq_of_lt (show 16 + (tokens.flatMap FdtToken.bytes).length < 2 ^ 32 by omega)
  { bytes
    structOffset := 16
    stringsOffset := BitVec.ofNat 32 (16 + block.length)
    tokens
    tree
    size := hlength ▸ size
    magic := ⟨_, rfl⟩
    totalsize := hlength ▸ ⟨_, rfl⟩
    offDtStruct := ⟨_, rfl⟩
    offDtStrings := ⟨_, rfl⟩
    aligned := rfl
    structBlock := ⟨strings, rfl⟩
    wellFormed
    names := by
      intro prop hprop
      rw [hoffset, Nat.add_assoc, ← List.drop_drop, hblock, ← List.drop_drop, List.drop_left]
      exact names prop hprop
    layout }

end FdtBlob

/-- The number that the first eight bytes are, the most significant one first. -/
def bigEndian64 (bytes : List Byte) : BitVec 64 :=
  BitVec.ofNat 64 (Nat.ofDigits 256 ((bytes.take 8).reverse.map BitVec.toNat))

/-! ## What the loop does, token by token -/

namespace FdtToken

/-- The bit after a token -/
def flagAfter (flag : Bool) : FdtToken → Bool
  | .beginNode name => memoryName.isPrefixOf name || flag
  | .endNode => false
  | _ => flag

/-- The data that is returned at a token -/
def foundAt (flag : Bool) : FdtToken → Option (List Byte)
  | .property prop =>
    if flag ∧ prop.name = regName ∧ 16 ≤ prop.data.length then some prop.data else none
  | _ => none

def stopsAt (flag : Bool) (token : FdtToken) : Bool :=
  token = .fin || (token.foundAt flag).isSome

/-- The tokens up to the one at which the loop returns -/
def visited : Bool → List FdtToken → List FdtToken
  | _, [] => []
  | flag, token :: tokens =>
    if token.stopsAt flag then [token] else token :: visited (token.flagAfter flag) tokens

/-- The data of the property at which the loop returns -/
def found : Bool → List FdtToken → Option (List Byte)
  | _, [] => none
  | flag, token :: tokens =>
    if token.stopsAt flag then token.foundAt flag else found (token.flagAfter flag) tokens

theorem visited_initial (flag : Bool) (tokens : List FdtToken) : visited flag tokens <+: tokens := by
  induction tokens generalizing flag with
  | nil => exact List.prefix_rfl
  | cons token tokens ih =>
    unfold visited
    split_ifs
    · exact List.cons_prefix_cons.mpr ⟨rfl, List.nil_prefix⟩
    · exact List.cons_prefix_cons.mpr ⟨rfl, ih _⟩

end FdtToken

end Ucore
