import Ucore.Foundation.Sessions
import Ucore.Libs.Snprintf

/-!
# The console (`kern/libs/stdio.c`, `kern/driver/console.c`)

The firmware hands out characters one at a time, `0` where it has none, and shows those it is given. The
interrupts that `cons_putc` and `cons_getc` keep off meanwhile are left out. Where the input of a
`Terminal` ends, a loop that asks for more of it waits.
-/

namespace Ucore

open Foundation Printing

/-- The memory, what the firmware will hand out and what it has shown, `is_panic` of `panic.c`, and how
often the firmware was asked to switch the machine off -/
structure Terminal where
  memory : ByteMemory
  input : List (BitVec 32)
  shown : List Byte
  isPanic : Bool
  shutdowns : ℕ

/-- Why a session does not go on: it waits for input, or it reads or writes where there is no memory. -/
inductive Pause where
  | waiting
  | stuck

abbrev Session := EStateM Pause Terminal

def Terminal.show (terminal : Terminal) (bytes : List Byte) : Terminal :=
  { terminal with shown := terminal.shown ++ bytes }

def Terminal.stored (terminal : Terminal) (address : BitVec 64) (byte : Byte) : Terminal :=
  { terminal with memory := Function.update terminal.memory address (some byte) }

/-- `(unsigned char)c` is shown. -/
def consPutc (c : BitVec 32) (terminal : Terminal) : Terminal := terminal.show [c.setWidth 8]

def consGetc : Session (BitVec 32) := fun terminal ↦
  match terminal.input with
  | [] => .error .waiting terminal
  | c :: input => .ok c { terminal with input }

def cputchar (c : BitVec 32) : Session Unit := modify (consPutc c)

def getchar : ℕ → Session (BitVec 32)
  | 0 => throw .stuck
  | fuel + 1 => do
    let c ← consGetc
    if c = 0 then getchar fuel else return c

/-- `cputch` with the counter of `vcprintf` -/
def cputch : Sink (Terminal × ℤ) where
  memory state := state.1.memory
  putch c state := (consPutc c state.1, int32 (state.2 + 1))

def vcprintf (fuel : ℕ) (fmt : CString) (ap : VaList) : Session ℤ := fun terminal ↦
  match (vprintfmt fuel fmt ap 0 0).run cputch (terminal, 0) with
  | none => .error .stuck terminal
  | some (_, terminal, cnt) => .ok cnt terminal

/-- The arguments after the format are those of `vcprintf`. -/
def cprintf (fuel : ℕ) (fmt : CString) (args : VaList) : Session ℤ := vcprintf fuel fmt args

/-- `*address = byte` -/
def storeByte (address : BitVec 64) (byte : Byte) : Session Unit := fun terminal ↦
  match terminal.memory.store address byte with
  | none => .error .stuck terminal
  | some memory => .ok () { terminal with memory }

variable {terminal : Terminal} {fmt : CString} {ap : VaList} {bytes : List Byte} {c : BitVec 32}
  {address : BitVec 64} {byte : Byte}

/-! ## What is shown -/

@[simp]
theorem show_memory (terminal : Terminal) (bytes : List Byte) :
    (terminal.show bytes).memory = terminal.memory := rfl

@[simp]
theorem show_input (terminal : Terminal) (bytes : List Byte) :
    (terminal.show bytes).input = terminal.input := rfl

@[simp]
theorem show_isPanic (terminal : Terminal) (bytes : List Byte) :
    (terminal.show bytes).isPanic = terminal.isPanic := rfl

@[simp]
theorem show_shutdowns (terminal : Terminal) (bytes : List Byte) :
    (terminal.show bytes).shutdowns = terminal.shutdowns := rfl

@[simp]
theorem show_nil (terminal : Terminal) : terminal.show [] = terminal := by
  rw [Terminal.show, List.append_nil]

@[simp]
theorem show_show (terminal : Terminal) (bytes others : List Byte) :
    (terminal.show bytes).show others = terminal.show (bytes ++ others) := by
  simp only [Terminal.show, List.append_assoc]

theorem cputchar_eq (c : BitVec 32) (terminal : Terminal) :
    cputchar c terminal = .ok () (terminal.show [c.setWidth 8]) := rfl

theorem storeByte_eq (h : (terminal.memory address).isSome) :
    storeByte address byte terminal = .ok () (terminal.stored address byte) := by
  rw [storeByte, ByteMemory.store_eq h]
  rfl

/-- What a format comes to with its arguments. -/
def Formatted (memory : ByteMemory) (fmt : CString) (ap : VaList) (bytes : List Byte) : Prop :=
  Settles memory (fun fuel ↦ vprintfmt fuel fmt ap 0 0) (some ((), bytes))

/-- A format is shown and its characters are counted. -/
theorem vcprintf_ends (h : Formatted terminal.memory fmt ap bytes) :
    Ends (fun fuel ↦ vcprintf fuel fmt ap) terminal
      (.ok (int32 bytes.length) (terminal.show bytes)) := by
  obtain ⟨enough, h⟩ := h
  refine ⟨enough, fun fuel hfuel ↦ ?_⟩
  have hrun : (vprintfmt fuel fmt ap 0 0).run (console terminal.memory) [] =
      ((vprintfmt fuel fmt ap 0 0).output terminal.memory).map fun put ↦ (put.1, [] ++ put.2) :=
    run_console []
  rw [h fuel hfuel, Option.map_some, List.nil_append] at hrun
  let related (shown : List Byte) (state : Terminal × ℤ) : Prop :=
    state = (terminal.show shown, int32 shown.length)
  have hputch : ∀ ch shown state, related shown state →
      related ((console terminal.memory).putch ch shown) (cputch.putch ch state) := by
    rintro ch shown _ rfl
    have hcnt : int32 (int32 shown.length + 1) = int32 (shown ++ [ch.setWidth 8]).length := by
      rw [int32_succ, List.length_append, List.length_singleton]
    simp only [related, console, cputch, consPutc, show_show, hcnt]
  have hmemory : ∀ shown state address byte, related shown state →
      (console terminal.memory).memory shown address = some byte →
      cputch.memory state address = some byte := by
    rintro shown _ address byte rfl hread
    exact hread
  have hstart : related [] (terminal, 0) := by
    have hzero : int32 ([] : List Byte).length = 0 := rfl
    simp only [related, show_nil, hzero]
  obtain ⟨final, hfinal, rfl⟩ := run_related hputch hmemory hstart hrun
  simp only [vcprintf, hfinal]

/-! ## What is read -/

/-- The first character that is not `0` is returned. -/
theorem getchar_ends (terminal : Terminal) : Ends getchar terminal
    (match terminal.input.dropWhile (· == 0) with
      | [] => .error .waiting { terminal with input := [] }
      | c :: input => .ok c { terminal with input }) := by
  obtain ⟨memory, input, shown, isPanic, shutdowns⟩ := terminal
  induction input with
  | nil => exact Ends.of_step (fun _ ↦ rfl) (Ends.of_eq fun _ ↦ rfl)
  | cons c input ih =>
    by_cases hc : c = 0
    · subst hc
      exact Ends.of_step (fun _ ↦ rfl) ih
    · have hkept : (c :: input).dropWhile (· == 0) = c :: input := by
        rw [List.dropWhile_cons_of_neg (by simpa using hc)]
      simp only [hkept]
      have hkept : Ends (fun _ ↦ (pure c : Session (BitVec 32)))
          ⟨memory, input, shown, isPanic, shutdowns⟩
          (.ok c ⟨memory, input, shown, isPanic, shutdowns⟩) := Ends.of_eq fun _ ↦ rfl
      apply Ends.of_step _ hkept
      intro fuel
      change (if c = 0 then getchar fuel else pure c) _ = _
      rw [if_neg hc]

end Ucore
