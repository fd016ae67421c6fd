import Mathlib.Algebra.Order.Ring.Int
import Ucore.Libs.Printfmt

/-!
# Formatted output into a buffer (`vsnprintf` in `libs/printfmt.c`)

The callback of `vsnprintf` writes the memory that the format and its arguments are read from. A write
where there is no memory leaves no state.
-/

namespace Ucore

open Foundation Printing ByteMemory

def E_INVAL : ℤ := 3

/-- `struct sprintbuf` and the memory -/
structure Sprintbuf where
  memory : ByteMemory
  buf : BitVec 64
  ebuf : BitVec 64
  cnt : ℤ

def sprintputch (ch : BitVec 32) (b : Sprintbuf) : Option Sprintbuf := do
  let b := { b with cnt := int32 (b.cnt + 1) }
  if b.buf < b.ebuf then
    let memory ← b.memory.store b.buf (ch.setWidth 8)
    return { b with memory := memory, buf := b.buf + 1 }
  else return b

/-- `sprintputch` as the callback of `vprintfmt` -/
def sprintSink : Sink (Option Sprintbuf) where
  memory state := (state.map Sprintbuf.memory).getD fun _ ↦ none
  putch ch state := state.bind (sprintputch ch)

/-- `b` as `vsnprintf` sets it up -/
def initialSprintbuf (memory : ByteMemory) (str size : BitVec 64) : Sprintbuf :=
  { memory := memory, buf := str, ebuf := str + size - 1, cnt := 0 }

def vsnprintf (memory : ByteMemory) (fuel : ℕ) (str size : BitVec 64) (fmt : CString)
    (ap : VaList) : Option (ℤ × ByteMemory) := do
  let b := initialSprintbuf memory str size
  if str = 0 ∨ b.buf > b.ebuf then return (-E_INVAL, memory)
  let (_, state) ← (vprintfmt fuel fmt ap 0 0).run sprintSink (some b)
  let b ← state
  let memory ← b.memory.store b.buf 0
  return (b.cnt, memory)

/-- The arguments after the format are those of `vsnprintf`. -/
def snprintf (memory : ByteMemory) (fuel : ℕ) (str size : BitVec 64) (fmt : CString)
    (args : VaList) : Option (ℤ × ByteMemory) := vsnprintf memory fuel str size fmt args

variable {memory : ByteMemory} {str size : BitVec 64} {shown : List Byte} {b : Sprintbuf}
  {state : Option Sprintbuf}

/-- How many of the characters fit -/
def fitting (size : BitVec 64) (shown : List Byte) : List Byte := shown.take (size.toNat - 1)

/-- The buffer after the characters `shown` have been put -/
def Filled (memory : ByteMemory) (str size : BitVec 64) (shown : List Byte) (b : Sprintbuf) : Prop :=
  b = { memory := memory.written str (fitting size shown)
        buf := str + BitVec.ofNat 64 (fitting size shown).length
        ebuf := str + size - 1
        cnt := int32 shown.length }

/-- A buffer that may be written and does not wrap -/
structure IsBuffer (memory : ByteMemory) (str size : BitVec 64) : Prop where
  notNull : str ≠ 0
  size_pos : 0 < size.toNat
  end_le : str.toNat + size.toNat ≤ 2 ^ 64
  mapped : memory.Mapped str size.toNat

theorem fitting_length (size : BitVec 64) (shown : List Byte) :
    (fitting size shown).length = min shown.length (size.toNat - 1) := by
  rw [fitting, List.length_take, Nat.min_comm]

/-- Where a place of the buffer lies -/
theorem IsBuffer.toNat_add (h : IsBuffer memory str size) {offset : ℕ} (hoffset : offset < size.toNat) :
    (str + BitVec.ofNat 64 offset).toNat = str.toNat + offset := by
  have hend := h.end_le
  rw [BitVec.toNat_add, BitVec.toNat_ofNat, Nat.mod_eq_of_lt (show offset < 2 ^ 64 by omega),
    Nat.mod_eq_of_lt (by omega)]

theorem IsBuffer.ebuf (h : IsBuffer memory str size) :
    str + size - 1 = str + BitVec.ofNat 64 (size.toNat - 1) := by
  have hpos := h.size_pos
  have hsize : size = BitVec.ofNat 64 (size.toNat - 1) + 1 := by bv_omega
  calc
    str + size - 1 = str + (BitVec.ofNat 64 (size.toNat - 1) + 1) - 1 := by rw [← hsize]
    _ = str + BitVec.ofNat 64 (size.toNat - 1) := by rw [← BitVec.add_assoc, BitVec.add_sub_cancel]

theorem filled_initial (memory : ByteMemory) (str size : BitVec 64) :
    Filled memory str size [] (initialSprintbuf memory str size) := by
  unfold Filled fitting initialSprintbuf
  rw [List.take_nil, written_nil, List.length_nil, BitVec.add_zero]
  rfl

theorem int32_succ (count : ℕ) : int32 (int32 count + 1) = int32 (count + 1 : ℕ) := by
  rw [int32, int32, Int.bmod_add_bmod, int32, Nat.cast_succ]

/-- A character is kept while there is room for it and the final NUL. -/
theorem sprintputch_filled (h : IsBuffer memory str size) (hb : Filled memory str size shown b)
    (ch : BitVec 32) :
    ∃ b', sprintputch ch b = some b' ∧ Filled memory str size (shown ++ [ch.setWidth 8]) b' := by
  subst hb
  have hlength := fitting_length size shown
  have hpos := h.size_pos
  have hcnt : int32 (int32 shown.length + 1) = int32 (shown ++ [ch.setWidth 8]).length := by
    rw [int32_succ, List.length_append, List.length_singleton]
  have hinside : (fitting size shown).length < size.toNat := by omega
  have hroom : str + BitVec.ofNat 64 (fitting size shown).length < str + size - 1 ↔
      shown.length < size.toNat - 1 := by
    rw [h.ebuf, BitVec.lt_def, h.toNat_add hinside, h.toNat_add (by omega)]
    omega
  by_cases hfits : shown.length < size.toNat - 1
  · have hall : fitting size shown = shown := List.take_of_length_le (Nat.le_of_lt hfits)
    have hnext : fitting size (shown ++ [ch.setWidth 8]) = shown ++ [ch.setWidth 8] :=
      List.take_of_length_le (by rw [List.length_append, List.length_singleton]; exact hfits)
    have hmapped : (memory.written str (fitting size shown)
        (str + BitVec.ofNat 64 (fitting size shown).length)).isSome :=
      isSome_written (h.mapped _ hinside)
    refine ⟨_, ?_, rfl⟩
    rw [sprintputch]
    simp only [if_pos (hroom.mpr hfits), store_eq hmapped, hcnt]
    rw [hall, hnext, written_append (by omega), BitVec.add_assoc, List.length_append,
      List.length_singleton, BitVec.ofNat_add]
    rfl
  · have hfull : fitting size (shown ++ [ch.setWidth 8]) = fitting size shown := by
      unfold fitting
      rw [List.take_append_of_le_length (by omega)]
    refine ⟨_, ?_, rfl⟩
    rw [sprintputch]
    simp only [if_neg (mt hroom.mp hfits), hcnt, hfull]
    rfl

/-! ## Whole runs -/

/-- The state of a run that has put `shown` -/
def Placed (memory : ByteMemory) (str size : BitVec 64) (shown : List Byte)
    (state : Option Sprintbuf) : Prop :=
  ∃ b, state = some b ∧ Filled memory str size shown b

theorem putch_placed (h : IsBuffer memory str size) (hstate : Placed memory str size shown state)
    (ch : BitVec 32) :
    Placed memory str size (shown ++ [ch.setWidth 8]) (sprintSink.putch ch state) := by
  obtain ⟨b, rfl, hb⟩ := hstate
  exact sprintputch_filled h hb ch

/-- What `vsnprintf` does with the characters `t` that are put: it returns their number and leaves as many
of them as fit, a NUL behind them and all other memory. -/
def Truncates (memory : ByteMemory) (fuel : ℕ) (str size : BitVec 64) (fmt : CString) (ap : VaList)
    (t : List Byte) : Prop :=
  ∃ memory', vsnprintf memory fuel str size fmt ap = some ((t.length : ℤ), memory') ∧
    memory'.Holds str (t.take (min t.length (size.toNat - 1)) ++ [0]) ∧
    ∀ address, min t.length (size.toNat - 1) < (address - str).toNat →
      memory' address = memory address

theorem truncates_of_run {fuel : ℕ} {fmt : CString} {ap : VaList} (h : IsBuffer memory str size)
    (hrun : (vprintfmt fuel fmt ap 0 0).run sprintSink (some (initialSprintbuf memory str size)) =
      some ((), state)) (hstate : Placed memory str size shown state) (hshown : shown.length < 2 ^ 31) :
    Truncates memory fuel str size fmt ap shown := by
  obtain ⟨b, rfl, rfl⟩ := hstate
  have hpos := h.size_pos
  have hlength := fitting_length size shown
  have hinside : (fitting size shown).length < size.toNat := by omega
  have hvalid : ¬ (str = 0 ∨ str > str + size - 1) := by
    rw [not_or, h.ebuf, gt_iff_lt, BitVec.lt_def, h.toNat_add (by omega)]
    exact ⟨h.notNull, by omega⟩
  have hmapped : (memory.written str (fitting size shown)
      (str + BitVec.ofNat 64 (fitting size shown).length)).isSome :=
    isSome_written (h.mapped _ hinside)
  have hcnt : int32 shown.length = shown.length := by
    unfold int32
    apply Int.bmod_eq_of_le
    · omega
    · omega
  have hresult : vsnprintf memory fuel str size fmt ap =
      some ((shown.length : ℤ), memory.written str (fitting size shown ++ [0])) := by
    rw [← written_append (by omega) 0, vsnprintf]
    have hbounds : ¬ (str = 0 ∨ (initialSprintbuf memory str size).buf >
        (initialSprintbuf memory str size).ebuf) := hvalid
    simp only [if_neg hbounds, hrun]
    simp only [Option.bind_eq_bind, Option.bind_some, store_eq hmapped, hcnt]
    rfl
  refine ⟨_, hresult, ?_, fun address haddress ↦ written_of_le ?_⟩
  · have hfitting : shown.take (min shown.length (size.toNat - 1)) = fitting size shown := by
      rw [← hlength, fitting, List.take_eq_take_iff, ← fitting, hlength]
      omega
    rw [hfitting]
    apply written_holds
    rw [List.length_append, List.length_singleton]
    omega
  · rw [List.length_append, List.length_singleton, hlength]
    exact haddress

/-- What is read outside of the buffer is what it was. -/
theorem placed_read (hstate : Placed memory str size shown state) {address : BitVec 64} {byte : Byte}
    (h : memory.without str size.toNat address = some byte) :
    sprintSink.memory state address = some byte := by
  obtain ⟨b, rfl, rfl⟩ := hstate
  obtain ⟨houtside, hbyte⟩ := without_eq_some h
  have hlength := fitting_length size shown
  change memory.written str (fitting size shown) address = some byte
  rw [written_of_le (by omega), hbyte]

/-- `vsnprintf` truncates the characters that are put in its run, which are those that a console would show
if no byte is read from the buffer. -/
theorem vsnprintf_truncates (h : IsBuffer memory str size) (fuel : ℕ) (fmt : CString) (ap : VaList)
    (t : List Byte) (ht : t.length < 2 ^ 31) :
    (∀ state, (vprintfmt fuel fmt ap 0 0).run (traced sprintSink)
        (some (initialSprintbuf memory str size), []) = some ((), state, t) →
      Truncates memory fuel str size fmt ap t) ∧
    ((vprintfmt fuel fmt ap 0 0).output (memory.without str size.toNat) = some ((), t) →
      Truncates memory fuel str size fmt ap t) := by
  have hinitial : Placed memory str size [] (some (initialSprintbuf memory str size)) :=
    ⟨_, rfl, filled_initial memory str size⟩
  constructor
  · intro state hrun
    let kept (pair : Option Sprintbuf × List Byte) : Prop := Placed memory str size pair.2 pair.1
    have hkept : ∀ ch pair, kept pair → kept ((traced sprintSink).putch ch pair) :=
      fun ch pair hpair ↦ putch_placed h hpair ch
    have hplaced : kept (state, t) := run_invariant hkept hinitial hrun
    exact truncates_of_run h (run_of_traced hrun) hplaced ht
  · intro houtput
    have hconsole : (vprintfmt fuel fmt ap 0 0).run (console (memory.without str size.toNat)) [] =
        some ((), t) := by
      rw [run_console, houtput]
      rfl
    have hputch : ∀ ch shown state, Placed memory str size shown state →
        Placed memory str size (shown ++ [ch.setWidth 8]) (sprintSink.putch ch state) :=
      fun ch _ _ hstate ↦ putch_placed h hstate ch
    have hread : ∀ shown state address byte, Placed memory str size shown state →
        memory.without str size.toNat address = some byte →
        sprintSink.memory state address = some byte :=
      fun _ _ _ _ hstate ↦ placed_read hstate
    obtain ⟨state, hrun, hplaced⟩ := run_related (by exact hputch) (by exact hread) hinitial hconsole
    exact truncates_of_run h hrun hplaced ht

/-- `snprintf(buf, 4, "%d", 12345)` -/
theorem vsnprintf_truncates_decimal :
    Truncates (ByteMemory.only 0x1000 [0x2a, 0x2a, 0x2a, 0x2a]) 10 0x1000 4
      (.literal ("%d".toList.map ascii)) (fun _ ↦ .word 12345) ("12345".toList.map ascii) := by
  have hbuffer : IsBuffer (ByteMemory.only 0x1000 [0x2a, 0x2a, 0x2a, 0x2a]) 0x1000 4 :=
    { notNull := by decide
      size_pos := by decide
      end_le := by decide
      mapped := (holds_only (by decide : [0x2a, 0x2a, 0x2a, (0x2a : Byte)].length ≤ 2 ^ 64)).mapped }
  apply (vsnprintf_truncates hbuffer 10 _ _ _ (by decide)).2
  decide +kernel

end Ucore
