import Mathlib.Algebra.Order.Ring.Int
import Ucore.Foundation.Bytes

/-!
# Copying and filling memory (`libs/string.c`)

A loop over `n` bytes counts `n` down; it writes where memory may be read, and stops with a fault at
any other address.
-/

namespace Ucore

open Foundation ByteMemory

/-- `while (n -- > 0) *p ++ = c;` -/
def fillLoop (c : Byte) (memory : ByteMemory) : ℕ → BitVec 64 → Option ByteMemory
  | 0, _ => some memory
  | n + 1, p => do
    let memory ← memory.store p c
    fillLoop c memory n (p + 1)

def memset (memory : ByteMemory) (s : BitVec 64) (c : Byte) (n : BitVec 64) :
    Option (BitVec 64 × ByteMemory) := do
  let memory ← fillLoop c memory n.toNat s
  return (s, memory)

/-- `while (n -- > 0) *d ++ = *s ++;` -/
def copyForward (memory : ByteMemory) : ℕ → BitVec 64 → BitVec 64 → Option ByteMemory
  | 0, _, _ => some memory
  | n + 1, d, s => do
    let byte ← memory s
    let memory ← memory.store d byte
    copyForward memory n (d + 1) (s + 1)

/-- `while (n -- > 0) *-- d = *-- s;` -/
def copyBackward (memory : ByteMemory) : ℕ → BitVec 64 → BitVec 64 → Option ByteMemory
  | 0, _, _ => some memory
  | n + 1, d, s => do
    let byte ← memory (s - 1)
    let memory ← memory.store (d - 1) byte
    copyBackward memory n (d - 1) (s - 1)

def memmove (memory : ByteMemory) (dst src n : BitVec 64) : Option (BitVec 64 × ByteMemory) :=
  if src < dst ∧ src + n > dst then do
    let memory ← copyBackward memory n.toNat (dst + n) (src + n)
    return (dst, memory)
  else do
    let memory ← copyForward memory n.toNat dst src
    return (dst, memory)

def memcpy (memory : ByteMemory) (dst src n : BitVec 64) : Option (BitVec 64 × ByteMemory) := do
  let memory ← copyForward memory n.toNat dst src
  return (dst, memory)

variable {memory : ByteMemory} {dst src s : BitVec 64} {c byte : Byte} {n : ℕ}

/-! ## The loops -/

theorem fillLoop_eq (hn : n < 2 ^ 64) (h : memory.Mapped s n) :
    fillLoop c memory n s = some (memory.filled s c n) := by
  induction n generalizing memory s with
  | zero => rw [fillLoop, filled_zero]
  | succ n ih =>
    rw [fillLoop, store_eq h.first, ← filled_first (by omega)]
    exact ih (by omega) (h.tail.update s c)

/-- What a forward copy writes it does not read later. -/
theorem copyForward_eq (hn : n < 2 ^ 64) (hsrc : memory.Mapped src n) (hdst : memory.Mapped dst n)
    (hclear : ∀ i j, i < j → j < n → dst + BitVec.ofNat 64 i ≠ src + BitVec.ofNat 64 j) :
    copyForward memory n dst src = some (memory.copied dst src n) := by
  induction n generalizing memory dst src with
  | zero => rw [copyForward, copied_zero]
  | succ n ih =>
    obtain ⟨byte, hread⟩ := Option.isSome_iff_exists.mp hsrc.first
    have hfirst : ∀ j < n, dst ≠ src + BitVec.ofNat 64 (j + 1) := by
      intro j hj
      have hne := hclear 0 (j + 1) (Nat.succ_pos j) (Nat.succ_lt_succ hj)
      rw [BitVec.add_zero] at hne
      exact hne
    have hrest : ∀ i j, i < j → j < n →
        dst + 1 + BitVec.ofNat 64 i ≠ src + 1 + BitVec.ofNat 64 j := by
      intro i j hij hj
      rw [add_succ, add_succ]
      exact hclear (i + 1) (j + 1) (Nat.succ_lt_succ hij) (Nat.succ_lt_succ hj)
    have hcopied := ih (by omega) (hsrc.tail.update dst byte) (hdst.tail.update dst byte) hrest
    rw [copied_first (by omega) hread hfirst] at hcopied
    rw [copyForward, hread, Option.bind_eq_bind, Option.bind_some, store_eq hdst.first]
    exact hcopied

theorem copyBackward_eq (hn : n < 2 ^ 64) (hsrc : memory.Mapped src n) (hdst : memory.Mapped dst n)
    (hclear : ∀ i j, j < i → i < n → dst + BitVec.ofNat 64 i ≠ src + BitVec.ofNat 64 j) :
    copyBackward memory n (dst + BitVec.ofNat 64 n) (src + BitVec.ofNat 64 n) =
      some (memory.copied dst src n) := by
  induction n generalizing memory with
  | zero => rw [copyBackward, copied_zero]
  | succ n ih =>
    have hback : ∀ start : BitVec 64,
        start + BitVec.ofNat 64 (n + 1) - 1 = start + BitVec.ofNat 64 n := by
      intro start
      rw [BitVec.ofNat_add, ← BitVec.add_assoc]
      exact BitVec.add_sub_cancel _ _
    obtain ⟨byte, hread⟩ := Option.isSome_iff_exists.mp (hsrc n (Nat.lt_succ_self n))
    have hlast : ∀ j < n, dst + BitVec.ofNat 64 n ≠ src + BitVec.ofNat 64 j :=
      fun j hj ↦ hclear n j hj (Nat.lt_succ_self n)
    let last := dst + BitVec.ofNat 64 n
    have hcopied := ih (by omega) ((hsrc.initial (Nat.le_succ n)).update last byte)
      ((hdst.initial (Nat.le_succ n)).update last byte)
      (fun i j hji hi ↦ hclear i j hji (Nat.lt_succ_of_lt hi))
    rw [copied_last (by omega) hread hlast] at hcopied
    rw [copyBackward, hback, hback, hread, Option.bind_eq_bind, Option.bind_some,
      store_eq (hdst n (Nat.lt_succ_self n))]
    exact hcopied

/-! ## The functions -/

theorem memset_eq {n : BitVec 64} (h : memory.Mapped s n.toNat) :
    memset memory s c n = some (s, memory.filled s c n.toNat) := by
  rw [memset, fillLoop_eq n.isLt h]
  rfl

theorem memcpy_eq {n : BitVec 64} (hsrc : memory.Mapped src n.toNat)
    (hdst : memory.Mapped dst n.toNat)
    (hclear : ∀ i j, i < j → j < n.toNat → dst + BitVec.ofNat 64 i ≠ src + BitVec.ofNat 64 j) :
    memcpy memory dst src n = some (dst, memory.copied dst src n.toNat) := by
  rw [memcpy, copyForward_eq n.isLt hsrc hdst hclear]
  rfl

/-- Places in two ranges that do not wrap -/
theorem offset_eq_iff {n : BitVec 64} {i j : ℕ} (hsrc : src.toNat + n.toNat ≤ 2 ^ 64)
    (hdst : dst.toNat + n.toNat ≤ 2 ^ 64) (hi : i < n.toNat) (hj : j < n.toNat) :
    dst + BitVec.ofNat 64 i = src + BitVec.ofNat 64 j ↔ dst.toNat + i = src.toNat + j := by
  rw [← BitVec.toNat_inj, BitVec.toNat_add, BitVec.toNat_add, BitVec.toNat_ofNat,
    BitVec.toNat_ofNat]
  omega

/-- `memmove` copies in the direction in which no byte is overwritten before it is read, whichever
way the ranges overlap. -/
theorem memmove_eq {n : BitVec 64} (hsrc : src.toNat + n.toNat ≤ 2 ^ 64)
    (hdst : dst.toNat + n.toNat ≤ 2 ^ 64) (hread : memory.Mapped src n.toNat)
    (hwrite : memory.Mapped dst n.toNat) :
    memmove memory dst src n = some (dst, memory.copied dst src n.toNat) := by
  have hend : ∀ start : BitVec 64, start + n = start + BitVec.ofNat 64 n.toNat := by
    intro start
    rw [BitVec.ofNat_toNat, BitVec.setWidth_eq]
  have hsum : (src + n).toNat = (src.toNat + n.toNat) % 2 ^ 64 := BitVec.toNat_add src n
  unfold memmove
  by_cases hoverlap : src < dst ∧ src + n > dst
  · have hlt : src.toNat < dst.toNat := hoverlap.1
    have hclear : ∀ i j, j < i → i < n.toNat →
        dst + BitVec.ofNat 64 i ≠ src + BitVec.ofNat 64 j := by
      intro i j hji hi
      rw [Ne, offset_eq_iff hsrc hdst hi (hji.trans hi)]
      omega
    rw [if_pos hoverlap, hend, hend, copyBackward_eq n.isLt hread hwrite hclear]
    rfl
  · have hclear : ∀ i j, i < j → j < n.toNat →
        dst + BitVec.ofNat 64 i ≠ src + BitVec.ofNat 64 j := by
      intro i j hij hj heq
      apply hoverlap
      rw [offset_eq_iff hsrc hdst (hij.trans hj) hj] at heq
      have hlt : src.toNat < dst.toNat := by omega
      have hinside : dst.toNat < (src + n).toNat := by omega
      exact ⟨hlt, hinside⟩
    rw [if_neg hoverlap, copyForward_eq n.isLt hread hwrite hclear]
    rfl

theorem memmove_simultaneous {n : BitVec 64} (hsrc : src.toNat + n.toNat ≤ 2 ^ 64)
    (hdst : dst.toNat + n.toNat ≤ 2 ^ 64) (hread : memory.Mapped src n.toNat)
    (hwrite : memory.Mapped dst n.toNat) :
    ∃ memory', memmove memory dst src n = some (dst, memory') ∧
      (∀ offset < n.toNat,
        memory' (dst + BitVec.ofNat 64 offset) = memory (src + BitVec.ofNat 64 offset)) ∧
      ∀ address, n.toNat ≤ (address - dst).toNat → memory' address = memory address := by
  refine ⟨_, memmove_eq hsrc hdst hread hwrite, fun offset hoffset ↦ ?_, fun address h ↦ ?_⟩
  · exact copied_of_lt n.isLt.le hoffset
  · exact copied_of_le h

/-- Four bytes are moved up by two. -/
theorem memmove_simultaneous_overlap :
    ∃ memory', memmove (ByteMemory.only 1 [10, 20, 30, 40, 50, 60]) 3 1 4 = some (3, memory') ∧
      memory' 5 = some 30 ∧ memory' 1 = some 10 := by
  have hholds : (ByteMemory.only 1 [10, 20, 30, 40, 50, 60]).Holds 1 [10, 20, 30, 40, 50, 60] :=
    holds_only (by decide)
  have hread := hholds.mapped.initial (show (4 : BitVec 64).toNat ≤ 6 by decide)
  have hwrite : (ByteMemory.only 1 [10, 20, 30, 40, 50, 60]).Mapped 3 4 := (hholds.drop 2).mapped
  obtain ⟨memory', hmove, hcopied, hkept⟩ := memmove_simultaneous (by decide) (by decide)
    hread hwrite
  exact ⟨memory', hmove, hcopied 2 (by decide), hkept 1 (by decide)⟩

end Ucore
