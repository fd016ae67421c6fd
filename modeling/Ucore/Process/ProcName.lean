import Ucore.Libs.StringCopy
import Ucore.Process.Proc

/-!
# Names of processes (`kern/process/proc.c`)

`proc->name` and the static buffer of `get_proc_name` are `PROC_NAME_LEN + 1` bytes each. Both functions
clear one of them and then copy `PROC_NAME_LEN` bytes, however long the name is.
-/

namespace Ucore

open Foundation ByteMemory

/-- `field` is the address of `proc->name`. -/
def setProcName (memory : ByteMemory) (field name : BitVec 64) :
    Option (BitVec 64 × ByteMemory) := do
  let (_, memory) ← memset memory field 0 (BitVec.ofNat 64 (PROC_NAME_LEN + 1))
  memcpy memory field name (BitVec.ofNat 64 PROC_NAME_LEN)

/-- `buffer` is the address of the static array. -/
def getProcName (memory : ByteMemory) (buffer field : BitVec 64) :
    Option (BitVec 64 × ByteMemory) := do
  let (_, memory) ← memset memory buffer 0 (BitVec.ofNat 64 (PROC_NAME_LEN + 1))
  memcpy memory buffer field (BitVec.ofNat 64 PROC_NAME_LEN)

/-- `size` bytes from `start` on are none of the `PROC_NAME_LEN + 1` bytes from `other` on. -/
def Apart (start other : BitVec 64) (size : ℕ) : Prop :=
  ∀ offset < size, PROC_NAME_LEN + 1 ≤ (start + BitVec.ofNat 64 offset - other).toNat

variable {memory : ByteMemory} {dst src field name buffer : BitVec 64} {text bytes : List Byte}
  {size : ℕ}

theorem Apart.ne (h : Apart src dst size) {i j : ℕ} (hi : i < size) (hj : j < PROC_NAME_LEN + 1) :
    dst + BitVec.ofNat 64 j ≠ src + BitVec.ofNat 64 i := by
  intro heq
  have hfar := h i hi
  unfold PROC_NAME_LEN at hfar hj
  rw [← heq, offset_sub dst (by omega)] at hfar
  omega

theorem Apart.initial {fewer : ℕ} (h : Apart src dst size) (hle : fewer ≤ size) :
    Apart src dst fewer := fun offset hoffset ↦ h offset (hoffset.trans_le hle)

theorem Apart.symm (h : Apart src dst (PROC_NAME_LEN + 1)) :
    Apart dst src (PROC_NAME_LEN + 1) := by
  intro offset hoffset
  by_contra hnear
  apply h.ne (Nat.lt_of_not_le hnear) hoffset
  rw [BitVec.ofNat_toNat, BitVec.setWidth_eq, add_offset_sub]

/-! ## A cleared name and then a copy -/

/-- The memory after a name at `dst` has been cleared and `PROC_NAME_LEN` bytes have been copied there -/
def named (memory : ByteMemory) (dst src : BitVec 64) : ByteMemory :=
  (memory.filled dst 0 (PROC_NAME_LEN + 1)).copied dst src PROC_NAME_LEN

theorem memset_name (hdst : memory.Mapped dst (PROC_NAME_LEN + 1)) :
    memset memory dst 0 (BitVec.ofNat 64 (PROC_NAME_LEN + 1)) =
      some (dst, memory.filled dst 0 (PROC_NAME_LEN + 1)) := memset_eq hdst

/-- The bytes that are copied are not among those that were cleared. -/
theorem filled_src (h : Apart src dst size) {offset : ℕ} (hoffset : offset < size) :
    memory.filled dst 0 (PROC_NAME_LEN + 1) (src + BitVec.ofNat 64 offset) =
      memory (src + BitVec.ofNat 64 offset) := filled_of_le (h offset hoffset)

theorem memcpy_name (hsrc : memory.Mapped src PROC_NAME_LEN) (hapart : Apart src dst PROC_NAME_LEN) :
    memcpy (memory.filled dst 0 (PROC_NAME_LEN + 1)) dst src (BitVec.ofNat 64 PROC_NAME_LEN) =
      some (dst, named memory dst src) := by
  have hread : Mapped (memory.filled dst 0 (PROC_NAME_LEN + 1)) src PROC_NAME_LEN := by
    intro offset hoffset
    rw [filled_src hapart hoffset]
    exact hsrc offset hoffset
  have hwrite : Mapped (memory.filled dst 0 (PROC_NAME_LEN + 1)) dst PROC_NAME_LEN := by
    intro offset hoffset
    rw [filled_of_lt (by decide) (Nat.lt_succ_of_lt hoffset)]
    rfl
  have hclear : ∀ i j, i < j → j < PROC_NAME_LEN →
      dst + BitVec.ofNat 64 i ≠ src + BitVec.ofNat 64 j :=
    fun i j hij hj ↦ hapart.ne hj (Nat.lt_succ_of_lt (hij.trans hj))
  exact memcpy_eq hread hwrite hclear

theorem named_of_le {address : BitVec 64} (h : PROC_NAME_LEN + 1 ≤ (address - dst).toNat) :
    named memory dst src address = memory address := by
  rw [named, copied_of_le (Nat.le_of_succ_le h), filled_of_le h]

theorem named_holds (hapart : Apart src dst PROC_NAME_LEN) (h : memory.Holds src bytes)
    (hlength : bytes.length = PROC_NAME_LEN) : (named memory dst src).Holds dst (bytes ++ [0]) := by
  rw [holds_append]
  constructor
  · rw [holds_iff]
    intro offset hoffset
    rw [hlength] at hoffset
    rw [named, copied_of_lt (by decide) hoffset, filled_src hapart hoffset]
    exact holds_iff.mp h offset _
  · have hbound : PROC_NAME_LEN < PROC_NAME_LEN + 1 := Nat.lt_succ_self _
    rw [holds_cons, hlength, named, copied_of_le (Nat.le_of_eq (offset_sub dst (by decide)).symm),
      filled_of_lt (by decide) hbound]
    exact ⟨rfl, trivial⟩

/-! ## Where the name is read beyond its end -/

theorem copyForward_fault {n k : ℕ} (hk : k < n) (h : memory (src + BitVec.ofNat 64 k) = none) :
    copyForward memory n dst src = none := by
  induction n generalizing memory dst src k with
  | zero => omega
  | succ n ih =>
    cases hread : memory src with
    | none => simp [copyForward, hread]
    | some byte =>
      cases k with
      | zero =>
        rw [BitVec.add_zero, hread] at h
        cases h
      | succ k =>
        by_cases hdst : (memory dst).isSome
        · rw [← add_succ] at h
          have hkept : Function.update memory dst (some byte) (src + 1 + BitVec.ofNat 64 k) = none := by
            rw [Function.update_of_ne, h]
            intro heq
            rw [← heq, h] at hdst
            cases hdst
          rw [copyForward, hread, Option.bind_eq_bind, Option.bind_some, store_eq hdst]
          exact ih (Nat.lt_of_succ_lt_succ hk) hkept
        · simp [copyForward, hread, store, hdst]

/-- For the characters `text`, `set_proc_name` reads nothing behind the NUL of the name and writes only
`proc->name`, which is terminated then, and `get_proc_name` returns as much of `text` as fits. -/
def KeepsName (text : List Byte) : Prop :=
  ∀ (memory : ByteMemory) (field name buffer : BitVec 64),
    memory.Mapped field (PROC_NAME_LEN + 1) → memory.Mapped buffer (PROC_NAME_LEN + 1) →
    memory.Holds name (text ++ [0]) → Apart buffer field (PROC_NAME_LEN + 1) →
    Apart name field (text.length + 1) →
    ∃ memory', setProcName memory field name = some (field, memory') ∧
      (∀ address, PROC_NAME_LEN + 1 ≤ (address - field).toNat →
        memory' address = memory address) ∧
      (∃ offset < PROC_NAME_LEN + 1, memory' (field + BitVec.ofNat 64 offset) = some 0) ∧
      ∃ memory'', getProcName memory' buffer field = some (buffer, memory'') ∧
        memory''.Holds buffer (text.take PROC_NAME_LEN ++ [0])

theorem keepsName (h : PROC_NAME_LEN ≤ text.length + 1) : KeepsName text := by
  intro memory field name buffer hfield hbuffer hname hapart hname_apart
  have hlength : ((text ++ [0]).take PROC_NAME_LEN).length = PROC_NAME_LEN := by
    rw [List.length_take, List.length_append, List.length_singleton, Nat.min_eq_left h]
  have hbytes : memory.Holds name ((text ++ [0]).take PROC_NAME_LEN) :=
    hname.of_initial (List.take_prefix _ _)
  have hmapped : memory.Mapped name PROC_NAME_LEN := hlength ▸ hbytes.mapped
  have hset : setProcName memory field name = some (field, named memory field name) := by
    rw [setProcName, memset_name hfield]
    exact memcpy_name hmapped (hname_apart.initial h)
  have hstored := named_holds (hname_apart.initial h) hbytes hlength
  have hkept : ∀ address, PROC_NAME_LEN + 1 ≤ (address - field).toNat →
      named memory field name address = memory address := fun address ↦ named_of_le
  generalize named memory field name = memory' at hset hstored hkept
  have hbuffer' : memory'.Mapped buffer (PROC_NAME_LEN + 1) := by
    intro offset hoffset
    rw [hkept _ (hapart offset hoffset)]
    exact hbuffer offset hoffset
  rw [holds_append, hlength] at hstored
  obtain ⟨hcopy, hterminated⟩ := hstored
  have hfield' : memory'.Mapped field PROC_NAME_LEN := hlength ▸ hcopy.mapped
  have hapart' : Apart field buffer PROC_NAME_LEN := hapart.symm.initial (Nat.le_succ _)
  have hget : getProcName memory' buffer field = some (buffer, named memory' buffer field) := by
    rw [getProcName, memset_name hbuffer']
    exact memcpy_name hfield' hapart'
  refine ⟨memory', hset, hkept, ⟨PROC_NAME_LEN, Nat.lt_succ_self _, hterminated.1⟩, _, hget, ?_⟩
  have hshown : text.take PROC_NAME_LEN ++ [0] <+: (text ++ [0]).take PROC_NAME_LEN ++ [0] := by
    by_cases hlong : PROC_NAME_LEN ≤ text.length
    · rw [List.take_append_of_le_length hlong]
    · rw [List.take_of_length_le (by omega), List.take_of_length_le (by simp; omega)]
      exact List.prefix_append _ _
  exact (named_holds hapart' hcopy hlength).of_initial hshown

/-- Memory with room for the two names and nothing behind the NUL of `text` -/
def tightMemory (text : List Byte) : ByteMemory := fun address ↦
  if (address - 0x100).toNat < PROC_NAME_LEN + 1 then some 0
  else if (address - 0x200).toNat < PROC_NAME_LEN + 1 then some 0
  else ByteMemory.only 0x300 (text ++ [0]) address

theorem not_keepsName (h : text.length + 1 < PROC_NAME_LEN) : ¬ KeepsName text := by
  intro hkeeps
  have hbound : PROC_NAME_LEN = 15 := rfl
  have hplace : ∀ offset < PROC_NAME_LEN, tightMemory text (0x300 + BitVec.ofNat 64 offset) =
      ByteMemory.only 0x300 (text ++ [0]) (0x300 + BitVec.ofNat 64 offset) := by
    intro offset hoffset
    rw [tightMemory, if_neg (by bv_omega), if_neg (by bv_omega)]
  have hname : (tightMemory text).Holds 0x300 (text ++ [0]) := by
    have honly : (ByteMemory.only 0x300 (text ++ [0])).Holds 0x300 (text ++ [0]) :=
      holds_only (by simp; omega)
    rw [holds_iff] at honly ⊢
    intro offset hoffset
    rw [List.length_append, List.length_singleton] at hoffset
    rw [hplace offset (by omega)]
    exact honly offset (by simpa using hoffset)
  have hpast : tightMemory text (0x300 + BitVec.ofNat 64 (text.length + 1)) = none := by
    rw [hplace _ h, ByteMemory.only, offset_sub _ (by omega), List.getElem?_eq_none (by simp)]
  have hfield : (tightMemory text).Mapped 0x100 (PROC_NAME_LEN + 1) := by
    intro offset hoffset
    rw [tightMemory, offset_sub _ (by omega), if_pos hoffset]
    rfl
  have hbuffer : (tightMemory text).Mapped 0x200 (PROC_NAME_LEN + 1) := by
    intro offset hoffset
    rw [tightMemory, if_neg (by bv_omega), offset_sub _ (by omega), if_pos hoffset]
    rfl
  have hapart : Apart 0x300 0x100 (text.length + 1) := by
    intro offset hoffset
    bv_omega
  obtain ⟨memory', hset, -⟩ := hkeeps (tightMemory text) 0x100 0x300 0x200 hfield hbuffer hname
    (by unfold Apart PROC_NAME_LEN; intro offset hoffset; bv_omega) hapart
  have hfilled : (tightMemory text).filled 0x100 0 (PROC_NAME_LEN + 1)
      (0x300 + BitVec.ofNat 64 (text.length + 1)) = none := by
    rw [filled_of_le (by bv_omega), hpast]
  have hcopy : memcpy ((tightMemory text).filled 0x100 0 (PROC_NAME_LEN + 1)) 0x100 0x300
      (BitVec.ofNat 64 PROC_NAME_LEN) = none := by
    rw [memcpy, show (BitVec.ofNat 64 PROC_NAME_LEN).toNat = PROC_NAME_LEN from rfl,
      copyForward_fault h hfilled]
    rfl
  rw [setProcName, memset_name hfield] at hset
  cases hcopy.symm.trans hset

/-- The name is kept exactly if its first `PROC_NAME_LEN` bytes do not reach beyond its NUL. -/
theorem proc_name_iff (text : List Byte) : KeepsName text ↔ PROC_NAME_LEN ≤ text.length + 1 := by
  constructor
  · intro h
    by_contra hshort
    exact not_keepsName (Nat.lt_of_not_le hshort) h
  · exact keepsName

/-- The name that `proc_init` gives to `idleproc` -/
theorem proc_name_idle : ¬ KeepsName ("idle".toList.map fun c ↦ BitVec.ofNat 8 c.toNat) :=
  not_keepsName (by decide)

end Ucore
