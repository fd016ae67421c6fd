import Mathlib.Algebra.Group.Nat.Defs
import Mathlib.Data.List.Basic

/-!
# Memory as bytes

A byte memory says which addresses may be read and what they hold. Code that reads elsewhere has no
result, so that a result tells where all reads were.
-/

namespace Ucore.Foundation

abbrev Byte := BitVec 8

abbrev ByteMemory := BitVec 64 → Option Byte

namespace ByteMemory

variable {memory : ByteMemory} {start address : BitVec 64} {bytes rest : List Byte} {byte : Byte}

/-- The bytes from an address on. -/
def Holds (memory : ByteMemory) (start : BitVec 64) : List Byte → Prop
  | [] => True
  | byte :: bytes => memory start = some byte ∧ Holds memory (start + 1) bytes

/-- The memory that may be read from `start` on for `size` bytes only. -/
def restrict (contents : BitVec 64 → Byte) (start : BitVec 64) (size : ℕ) : ByteMemory :=
  fun address ↦ if (address - start).toNat < size then some (contents address) else none

/-- Nothing but the bytes from `start` on. -/
def only (start : BitVec 64) (bytes : List Byte) : ByteMemory :=
  fun address ↦ bytes[(address - start).toNat]?

@[simp]
theorem holds_nil : Holds memory start [] := trivial

@[simp]
theorem holds_cons : Holds memory start (byte :: bytes) ↔
    memory start = some byte ∧ Holds memory (start + 1) bytes := Iff.rfl

theorem add_succ (start : BitVec 64) (length : ℕ) :
    start + 1 + BitVec.ofNat 64 length = start + BitVec.ofNat 64 (length + 1) := by
  have hswap : BitVec.ofNat 64 (length + 1) = 1 + BitVec.ofNat 64 length := by
    rw [Nat.add_comm, BitVec.ofNat_add]
    rfl
  rw [hswap, BitVec.add_assoc]

theorem holds_append : Holds memory start (bytes ++ rest) ↔
    Holds memory start bytes ∧ Holds memory (start + BitVec.ofNat 64 bytes.length) rest := by
  induction bytes generalizing start with
  | nil => simp
  | cons byte bytes ih =>
    rw [List.cons_append, holds_cons, holds_cons, ih, add_succ, List.length_cons, and_assoc]

/-- What is at an offset of the bytes is at that offset from their start. -/
theorem Holds.drop (h : Holds memory start bytes) (offset : ℕ) :
    Holds memory (start + BitVec.ofNat 64 offset) (bytes.drop offset) := by
  by_cases hinside : offset ≤ bytes.length
  · have hsplit : bytes.take offset ++ bytes.drop offset = bytes := List.take_append_drop _ _
    have hlength : (bytes.take offset).length = offset := by
      rw [List.length_take, Nat.min_eq_left hinside]
    rw [← hsplit, holds_append, hlength] at h
    exact h.2
  · rw [List.drop_eq_nil_of_le (by omega)]
    exact holds_nil

theorem Holds.of_initial (h : Holds memory start bytes) (hinitial : rest <+: bytes) :
    Holds memory start rest := by
  obtain ⟨others, hbytes⟩ := hinitial
  rw [← hbytes, holds_append] at h
  exact h.1

theorem holds_iff : Holds memory start bytes ↔
    ∀ (offset : ℕ) (hoffset : offset < bytes.length),
      memory (start + BitVec.ofNat 64 offset) = some bytes[offset] := by
  constructor
  · intro h offset hoffset
    have hdrop := h.drop offset
    rw [List.drop_eq_getElem_cons hoffset, holds_cons] at hdrop
    exact hdrop.1
  · intro h
    induction bytes generalizing start with
    | nil => exact holds_nil
    | cons first bytes ih =>
      rw [holds_cons]
      constructor
      · calc
          memory start = memory (start + BitVec.ofNat 64 0) := by simp
          _ = some first := h 0 (Nat.succ_pos _)
      · apply ih
        intro offset hoffset
        rw [add_succ]
        exact h (offset + 1) (by simpa using hoffset)

theorem holds_only (hlength : bytes.length ≤ 2 ^ 64) : Holds (only start bytes) start bytes := by
  rw [holds_iff]
  intro offset hoffset
  have hindex : (start + BitVec.ofNat 64 offset - start).toNat = offset := by
    rw [BitVec.add_comm, BitVec.add_sub_cancel, BitVec.toNat_ofNat]
    exact Nat.mod_eq_of_lt (by omega)
  rw [only, hindex, List.getElem?_eq_getElem hoffset]

/-- Bytes that may be read lie in the readable range. -/
theorem holds_restrict {contents : BitVec 64 → Byte} {size : ℕ} (hsize : size < 2 ^ 64)
    (h : (restrict contents start size).Holds address bytes) (hbytes : bytes ≠ []) :
    (address - start).toNat + bytes.length ≤ size := by
  rw [holds_iff] at h
  have hinside : ∀ offset < bytes.length,
      (address + BitVec.ofNat 64 offset - start).toNat < size := by
    intro offset hoffset
    have hread := h offset hoffset
    unfold restrict at hread
    by_contra houtside
    rw [if_neg houtside] at hread
    cases hread
  have hsum : ∀ offset, (address + BitVec.ofNat 64 offset - start).toNat =
      ((address - start).toNat + offset) % 2 ^ 64 := by
    intro offset
    have hswap : address + BitVec.ofNat 64 offset - start =
        address - start + BitVec.ofNat 64 offset := by
      rw [BitVec.sub_eq_add_neg, BitVec.sub_eq_add_neg, BitVec.add_assoc, BitVec.add_assoc,
        BitVec.add_comm (-start)]
    rw [hswap, BitVec.toNat_add, BitVec.toNat_ofNat, Nat.add_mod_mod]
  have hpos := List.length_pos_iff.mpr hbytes
  have hfirst := hinside 0 hpos
  rw [hsum, Nat.add_zero, Nat.mod_eq_of_lt (address - start).isLt] at hfirst
  -- Otherwise the first byte past the range would be among those read.
  by_contra hlong
  have hpast := hinside (size - (address - start).toNat) (by omega)
  rw [hsum, Nat.add_sub_of_le (Nat.le_of_lt hfirst), Nat.mod_eq_of_lt hsize] at hpast
  exact Nat.lt_irrefl _ hpast

/-! ## Words -/

/-- A 32-bit load -/
def load32 (memory : ByteMemory) (address : BitVec 64) : Option (BitVec 32) := do
  let byte₀ ← memory address
  let byte₁ ← memory (address + 1)
  let byte₂ ← memory (address + 2)
  let byte₃ ← memory (address + 3)
  return byte₃ ++ byte₂ ++ byte₁ ++ byte₀

/-- A 64-bit load -/
def load64 (memory : ByteMemory) (address : BitVec 64) : Option (BitVec 64) := do
  let low ← memory.load32 address
  let high ← memory.load32 (address + 4)
  return high ++ low

/-- The bytes of a word, the most significant one first. -/
def bigEndian32 (word : BitVec 32) : List Byte :=
  [word.extractLsb' 24 8, word.extractLsb' 16 8, word.extractLsb' 8 8, word.extractLsb' 0 8]

theorem load32_eq {byte₀ byte₁ byte₂ byte₃ : Byte}
    (h : Holds memory address [byte₀, byte₁, byte₂, byte₃]) :
    memory.load32 address = some (byte₃ ++ byte₂ ++ byte₁ ++ byte₀) := by
  obtain ⟨h₀, h₁, h₂, h₃, -⟩ := h
  have htwo : address + 1 + 1 = address + 2 := BitVec.add_assoc _ _ _
  have hthree : address + 2 + 1 = address + 3 := BitVec.add_assoc _ _ _
  rw [htwo] at h₂ h₃
  rw [hthree] at h₃
  simp only [load32, h₀, h₁, h₂, h₃, Option.bind_eq_bind, Option.bind_some, Option.pure_def]

/-! ## Writes -/

/-- A write to an address that may be read -/
def store (memory : ByteMemory) (address : BitVec 64) (byte : Byte) : Option ByteMemory :=
  if (memory address).isSome then some (Function.update memory address (some byte)) else none

/-- The `n` bytes from an address on may be read. -/
def Mapped (memory : ByteMemory) (start : BitVec 64) (n : ℕ) : Prop :=
  ∀ offset < n, (memory (start + BitVec.ofNat 64 offset)).isSome

/-- The bytes that were at `src` are at `dst`. -/
def copied (memory : ByteMemory) (dst src : BitVec 64) (n : ℕ) : ByteMemory :=
  fun address ↦ if (address - dst).toNat < n then memory (src + (address - dst)) else memory address

def filled (memory : ByteMemory) (start : BitVec 64) (byte : Byte) (n : ℕ) : ByteMemory :=
  fun address ↦ if (address - start).toNat < n then some byte else memory address

/-- `bytes` are in the place of what was there from `start` on. -/
def written (memory : ByteMemory) (start : BitVec 64) (bytes : List Byte) : ByteMemory :=
  fun address ↦ (bytes[(address - start).toNat]?).or (memory address)

/-- All but `n` bytes may be read. -/
def without (memory : ByteMemory) (start : BitVec 64) (n : ℕ) : ByteMemory :=
  fun address ↦ if (address - start).toNat < n then none else memory address

section Writes

variable {dst src : BitVec 64} {n offset : ℕ}

theorem store_eq (h : (memory address).isSome) :
    memory.store address byte = some (Function.update memory address (some byte)) := if_pos h

theorem Mapped.first (h : memory.Mapped start (n + 1)) : (memory start).isSome := by
  have hzero := h 0 (Nat.succ_pos n)
  rw [BitVec.add_zero] at hzero
  exact hzero

theorem Mapped.tail (h : memory.Mapped start (n + 1)) : memory.Mapped (start + 1) n := by
  intro offset hoffset
  rw [add_succ]
  exact h (offset + 1) (Nat.succ_lt_succ hoffset)

theorem Mapped.update (h : memory.Mapped start n) (address : BitVec 64) (byte : Byte) :
    Mapped (Function.update memory address (some byte)) start n := by
  intro offset hoffset
  by_cases heq : start + BitVec.ofNat 64 offset = address
  · rw [heq, Function.update_self]
    rfl
  · rw [Function.update_of_ne heq]
    exact h offset hoffset

theorem Mapped.initial {fewer : ℕ} (h : memory.Mapped start n) (hle : fewer ≤ n) :
    memory.Mapped start fewer := fun offset hoffset ↦ h offset (Nat.lt_of_lt_of_le hoffset hle)

theorem Holds.mapped (h : memory.Holds start bytes) : memory.Mapped start bytes.length := by
  intro offset hoffset
  rw [holds_iff.mp h offset hoffset]
  rfl

theorem Holds.congr {memory' : ByteMemory} (h : memory.Holds start bytes)
    (hsame : ∀ offset < bytes.length,
      memory' (start + BitVec.ofNat 64 offset) = memory (start + BitVec.ofNat 64 offset)) :
    memory'.Holds start bytes := by
  rw [holds_iff] at h ⊢
  intro offset hoffset
  rw [hsame offset hoffset, h offset hoffset]

theorem offset_sub (start : BitVec 64) (h : offset < 2 ^ 64) :
    (start + BitVec.ofNat 64 offset - start).toNat = offset := by
  rw [BitVec.add_comm, BitVec.add_sub_cancel, BitVec.toNat_ofNat]
  exact Nat.mod_eq_of_lt h

theorem add_offset_sub (start address : BitVec 64) : start + (address - start) = address := by
  rw [BitVec.add_comm, BitVec.sub_add_cancel]

theorem copied_of_lt (hn : n ≤ 2 ^ 64) (h : offset < n) :
    memory.copied dst src n (dst + BitVec.ofNat 64 offset) =
      memory (src + BitVec.ofNat 64 offset) := by
  have hoffset := offset_sub dst (Nat.lt_of_lt_of_le h hn)
  have hback : dst + BitVec.ofNat 64 offset - dst = BitVec.ofNat 64 offset := by
    rw [BitVec.add_comm, BitVec.add_sub_cancel]
  rw [copied, hoffset, if_pos h, hback]

theorem copied_of_le (h : n ≤ (address - dst).toNat) :
    memory.copied dst src n address = memory address := if_neg (Nat.not_lt.mpr h)

theorem filled_of_lt (hn : n ≤ 2 ^ 64) (h : offset < n) :
    memory.filled start byte n (start + BitVec.ofNat 64 offset) = some byte := by
  rw [filled, offset_sub start (Nat.lt_of_lt_of_le h hn), if_pos h]

theorem filled_of_le (h : n ≤ (address - start).toNat) :
    memory.filled start byte n address = memory address := if_neg (Nat.not_lt.mpr h)

theorem copied_zero : memory.copied dst src 0 = memory :=
  funext fun _ ↦ if_neg (Nat.not_lt_zero _)

theorem filled_zero : memory.filled start byte 0 = memory :=
  funext fun _ ↦ if_neg (Nat.not_lt_zero _)

/-- Where an address lies behind the first byte of a range -/
theorem sub_succ {address : BitVec 64} (h : address ≠ start) :
    address - (start + 1) = address - start - 1 ∧
      (address - (start + 1)).toNat + 1 = (address - start).toNat := by
  have hne : address - start ≠ 0#64 := fun hzero ↦ h (by
    have heq := add_offset_sub start address
    rw [hzero, BitVec.add_zero] at heq
    exact heq.symm)
  have hpos : (address - start).toNat ≠ 0 := fun hzero ↦ hne (BitVec.eq_of_toNat_eq hzero)
  have hsub : address - (start + 1) = address - start - 1 := by
    rw [BitVec.sub_eq_add_neg, BitVec.neg_add, BitVec.sub_eq_add_neg, BitVec.sub_eq_add_neg,
      BitVec.sub_eq_add_neg, BitVec.add_assoc]
  refine ⟨hsub, ?_⟩
  rw [hsub]
  generalize address - start = distance at hpos
  bv_omega

theorem self_sub_succ (start : BitVec 64) : (start - (start + 1)).toNat = 2 ^ 64 - 1 := by
  bv_omega

/-- A string ends before its addresses come again. -/
theorem Holds.length_lt (h : memory.Holds start (bytes ++ [0])) (hfree : 0 ∉ bytes) :
    bytes.length < 2 ^ 64 := by
  by_contra hlong
  rw [holds_iff] at h
  have hlength : (bytes ++ [0]).length = bytes.length + 1 := List.length_append
  have hinside : bytes.length % 2 ^ 64 < bytes.length := by omega
  have hplace : BitVec.ofNat 64 (bytes.length % 2 ^ 64) = BitVec.ofNat 64 bytes.length := by
    apply BitVec.eq_of_toNat_eq
    rw [BitVec.toNat_ofNat, BitVec.toNat_ofNat, Nat.mod_mod]
  have hend := h bytes.length (by omega)
  have hagain := h (bytes.length % 2 ^ 64) (by omega)
  rw [hplace, hend, List.getElem_append_left hinside, List.getElem_append_right (Nat.le_refl _)]
    at hagain
  apply hfree
  have hmem := List.getElem_mem hinside
  rw [← Option.some.inj hagain] at hmem
  simpa using hmem

/-- A write outside of the bytes -/
theorem Holds.update (h : memory.Holds start bytes)
    (hout : bytes.length ≤ (address - start).toNat) (byte : Byte) :
    Holds (Function.update memory address (some byte)) start bytes := by
  apply h.congr
  intro offset hoffset
  apply Function.update_of_ne
  intro heq
  rw [← heq, offset_sub start (by omega)] at hout
  omega

/-- A copy whose first byte is not read again -/
theorem copied_first (hn : n < 2 ^ 64) (hread : memory src = some byte)
    (hclear : ∀ j < n, dst ≠ src + BitVec.ofNat 64 (j + 1)) :
    copied (Function.update memory dst (some byte)) (dst + 1) (src + 1) n =
      memory.copied dst src (n + 1) := by
  funext address
  by_cases haddress : address = dst
  · subst haddress
    have hzero : (0#64).toNat < n + 1 := Nat.succ_pos n
    rw [copied, self_sub_succ, if_neg (by omega), Function.update_self, copied, BitVec.sub_self,
      if_pos hzero, BitVec.add_zero, hread]
  · obtain ⟨hsub, hdistance⟩ := sub_succ haddress
    have hplace : src + 1 + (address - (dst + 1)) = src + (address - dst) := by
      rw [hsub, BitVec.add_assoc, BitVec.add_comm 1, BitVec.sub_add_cancel]
    rw [copied, hplace, copied]
    by_cases hinside : (address - dst).toNat < n + 1
    · have hne : src + (address - dst) ≠ dst := by
        intro heq
        apply hclear ((address - dst).toNat - 1) (by omega)
        rw [Nat.sub_add_cancel (by omega), BitVec.ofNat_toNat, BitVec.setWidth_eq, heq]
      rw [if_pos (by omega), if_pos hinside, Function.update_of_ne hne]
    · rw [if_neg (by omega), if_neg hinside, Function.update_of_ne haddress]

/-- A copy whose last byte is not read again -/
theorem copied_last (hn : n < 2 ^ 64) (hread : memory (src + BitVec.ofNat 64 n) = some byte)
    (hclear : ∀ j < n, dst + BitVec.ofNat 64 n ≠ src + BitVec.ofNat 64 j) :
    copied (Function.update memory (dst + BitVec.ofNat 64 n) (some byte)) dst src n =
      memory.copied dst src (n + 1) := by
  funext address
  by_cases haddress : address = dst + BitVec.ofNat 64 n
  · subst haddress
    rw [copied_of_le (Nat.le_of_eq (offset_sub dst hn).symm), Function.update_self,
      copied_of_lt (by omega) (Nat.lt_succ_self n), hread]
  · have hdistance : (address - dst).toNat ≠ n := by
      intro heq
      apply haddress
      rw [← heq, BitVec.ofNat_toNat, BitVec.setWidth_eq, add_offset_sub]
    unfold copied
    by_cases hinside : (address - dst).toNat < n
    · have hne : src + (address - dst) ≠ dst + BitVec.ofNat 64 n := by
        intro heq
        apply hclear _ hinside
        rw [BitVec.ofNat_toNat, BitVec.setWidth_eq, heq]
      rw [if_pos hinside, if_pos (by omega), Function.update_of_ne hne]
    · rw [if_neg hinside, if_neg (by omega), Function.update_of_ne haddress]

theorem filled_first (hn : n < 2 ^ 64) :
    filled (Function.update memory start (some byte)) (start + 1) byte n =
      memory.filled start byte (n + 1) := by
  funext address
  by_cases haddress : address = start
  · subst haddress
    have hzero : (0#64).toNat < n + 1 := Nat.succ_pos n
    rw [filled, self_sub_succ, if_neg (by omega), Function.update_self, filled, BitVec.sub_self,
      if_pos hzero]
  · obtain ⟨-, hdistance⟩ := sub_succ haddress
    rw [filled, filled]
    by_cases hinside : (address - start).toNat < n + 1
    · rw [if_pos (by omega), if_pos hinside]
    · rw [if_neg (by omega), if_neg hinside, Function.update_of_ne haddress]

theorem written_nil : memory.written start [] = memory :=
  funext fun _ ↦ by rw [written, List.getElem?_nil, Option.none_or]

theorem written_of_le (h : bytes.length ≤ (address - start).toNat) :
    memory.written start bytes address = memory address := by
  rw [written, List.getElem?_eq_none h, Option.none_or]

theorem written_holds (hlength : bytes.length ≤ 2 ^ 64) :
    (memory.written start bytes).Holds start bytes := by
  rw [holds_iff]
  intro offset hoffset
  rw [written, offset_sub start (by omega), List.getElem?_eq_getElem hoffset, Option.some_or]

theorem written_append (hlength : bytes.length < 2 ^ 64) (byte : Byte) :
    Function.update (memory.written start bytes) (start + BitVec.ofNat 64 bytes.length) (some byte) =
      memory.written start (bytes ++ [byte]) := by
  funext address
  by_cases haddress : address = start + BitVec.ofNat 64 bytes.length
  · subst haddress
    rw [Function.update_self, written, offset_sub start hlength, List.getElem?_concat_length,
      Option.some_or]
  · have hdistance : (address - start).toNat ≠ bytes.length := by
      intro heq
      apply haddress
      rw [← heq, BitVec.ofNat_toNat, BitVec.setWidth_eq, add_offset_sub]
    rw [Function.update_of_ne haddress]
    unfold written
    by_cases hinside : (address - start).toNat < bytes.length
    · rw [List.getElem?_append_left hinside]
    · have houtside := Nat.lt_of_le_of_ne (Nat.le_of_not_lt hinside) (Ne.symm hdistance)
      have hpast : (bytes ++ [byte]).length ≤ (address - start).toNat := by
        rw [List.length_append, List.length_singleton]
        exact houtside
      rw [List.getElem?_eq_none (Nat.le_of_lt houtside), List.getElem?_eq_none hpast]

/-- What could be read can still be read. -/
theorem isSome_written (h : (memory address).isSome) :
    (memory.written start bytes address).isSome := by
  rw [written, Option.isSome_or, h, Bool.or_true]

theorem without_eq_some (h : memory.without start n address = some byte) :
    n ≤ (address - start).toNat ∧ memory address = some byte := by
  unfold without at h
  split_ifs at h with hinside
  exact ⟨Nat.le_of_not_lt hinside, h⟩

end Writes

end ByteMemory

end Ucore.Foundation
