import Ucore.Foundation.LineEditor
import Ucore.Libs.PrintfmtPieces
import Ucore.Libs.Stdio

/-!
# Reading a line (`kern/libs/readline.c`)

`readline` keeps the line in a static array and echoes what it keeps. It is a `LineEditor` whose line has
room for all but one of the bytes of the array.
-/

namespace Ucore

open Foundation ByteMemory

def BUFSIZE : ℕ := 1024

/-- What `readline` does with a character; `loop` goes on from a value of `i`. -/
def readChar (loop : ℕ → Session (Option (BitVec 64))) (buf : BitVec 64) (i : ℕ) (c : BitVec 32) :
    Session (Option (BitVec 64)) := do
  if c.toInt < 0 then return none
  else if 0x20 ≤ c.toInt ∧ i < BUFSIZE - 1 then
    cputchar c
    storeByte (buf + BitVec.ofNat 64 i) (c.setWidth 8)
    loop (i + 1)
  else if c = 0x08 ∧ 0 < i then
    cputchar c
    loop (i - 1)
  else if c = 0x0a ∨ c = 0x0d then
    cputchar c
    storeByte (buf + BitVec.ofNat 64 i) 0
    return some buf
  else loop i

/-- The `while` loop of `readline`, with `i` -/
def readLoop (buf : BitVec 64) : ℕ → ℕ → Session (Option (BitVec 64))
  | 0, _ => throw .stuck
  | fuel + 1, i => do
    let c ← getchar fuel
    readChar (readLoop buf fuel) buf i c

/-- `buf` is the address of the static array, and a prompt that is `NULL` is none. -/
def readline (buf : BitVec 64) (prompt : Option CString) (fuel : ℕ) :
    Session (Option (BitVec 64)) := do
  if let some prompt := prompt then
    let _ ← cprintf fuel (.literal ("%s".toList.map ascii)) (vaList [prompt.arg])
  readLoop buf fuel 0

/-! ## The keys -/

/-- What `readline` takes a character for -/
def keyOf (c : BitVec 32) : Option (Key Byte) :=
  if c.toInt < 0 then some .cancel
  else if 0x20 ≤ c.toInt then some (.glyph (c.setWidth 8))
  else if c = 0x08 then some .erase
  else if c = 0x0a ∨ c = 0x0d then some .enter
  else none

/-- The line that is read from some input, its echo and what it leaves of the input -/
def lineOf (text : List Byte) (input : List (BitVec 32)) : Reading Byte (BitVec 32) :=
  Reading.read (BUFSIZE - 1) keyOf text input

variable {base memory : ByteMemory} {buf : BitVec 64} {text : List Byte} {input : List (BitVec 32)}
  {terminal : Terminal} {c : BitVec 32} {byte : Byte}

theorem lineOf_dropWhile (text : List Byte) (input : List (BitVec 32)) :
    lineOf text (input.dropWhile (· == 0)) = lineOf text input := by
  induction input with
  | nil => rfl
  | cons c input ih =>
    by_cases hc : c = 0
    · subst hc
      exact ih
    · rw [List.dropWhile_cons_of_neg (by simpa using hc)]

section Keys

variable {a : Byte}

theorem lineOf_cancel (h : keyOf c = some .cancel) :
    lineOf text (c :: input) = ⟨.cancelled, [], input⟩ := by
  rw [lineOf, Reading.read, h]

theorem lineOf_enter (h : keyOf c = some .enter) :
    lineOf text (c :: input) = ⟨.entered text, [c], input⟩ := by
  rw [lineOf, Reading.read, h]

theorem lineOf_glyph (h : keyOf c = some (.glyph a)) (hroom : text.length < BUFSIZE - 1) :
    lineOf text (c :: input) = (lineOf (text ++ [a]) input).echo c := by
  rw [lineOf, Reading.read, h]
  exact if_pos hroom

theorem lineOf_full (h : keyOf c = some (.glyph a)) (hfull : ¬ text.length < BUFSIZE - 1) :
    lineOf text (c :: input) = lineOf text input := by
  rw [lineOf, Reading.read, h]
  exact if_neg hfull

theorem lineOf_erase (h : keyOf c = some .erase) (hne : text ≠ []) :
    lineOf text (c :: input) = (lineOf text.dropLast input).echo c := by
  rw [lineOf, Reading.read, h]
  exact if_neg hne

theorem lineOf_erase_nil (h : keyOf c = some .erase) :
    lineOf [] (c :: input) = lineOf [] input := by
  rw [lineOf, Reading.read, h]
  exact if_pos rfl

theorem lineOf_other (h : keyOf c = none) : lineOf text (c :: input) = lineOf text input := by
  rw [lineOf, Reading.read, h]
  rfl

end Keys

/-! ## The array -/

/-- The array begins with `text`, and nothing else has been written since `base`. -/
structure Typed (base : ByteMemory) (buf : BitVec 64) (text : List Byte) (memory : ByteMemory) :
    Prop where
  mapped : memory.Mapped buf BUFSIZE
  holds : memory.Holds buf text
  outside : ∀ address, BUFSIZE ≤ (address - buf).toNat → memory address = base address

namespace Typed

theorem initial (h : base.Mapped buf BUFSIZE) : Typed base buf [] base :=
  ⟨h, holds_nil, fun _ _ ↦ rfl⟩

/-- A byte behind the text -/
theorem append (h : Typed base buf text memory) (hroom : text.length < BUFSIZE) (byte : Byte) :
    Typed base buf (text ++ [byte])
      (Function.update memory (buf + BitVec.ofNat 64 text.length) (some byte)) where
  mapped := h.mapped.update _ byte
  holds := by
    have hplace := offset_sub buf (show text.length < 2 ^ 64 by unfold BUFSIZE at hroom; omega)
    rw [holds_append, holds_cons]
    exact ⟨h.holds.update (Nat.le_of_eq hplace.symm) byte, Function.update_self _ _ _, holds_nil⟩
  outside address haddress := by
    have hplace := offset_sub buf (show text.length < 2 ^ 64 by unfold BUFSIZE at hroom; omega)
    have hne : address ≠ buf + BitVec.ofNat 64 text.length := by
      rintro rfl
      omega
    rw [Function.update_of_ne hne]
    exact h.outside address haddress

theorem of_initial {fewer : List Byte} (h : Typed base buf text memory) (hinitial : fewer <+: text) :
    Typed base buf fewer memory := ⟨h.mapped, h.holds.of_initial hinitial, h.outside⟩

end Typed

/-! ## The loop -/

/-- How `readline` ends with a line -/
def lineResult (buf : BitVec 64) (terminal : Terminal) :
    Line Byte → EStateM.Result Pause Terminal (Option (BitVec 64))
  | .entered _ => .ok (some buf) terminal
  | .cancelled => .ok none terminal
  | .pending _ => .error .waiting terminal

/-- What a line leaves in the array -/
def lineBytes : Line Byte → List Byte
  | .entered text => text ++ [0]
  | .cancelled => []
  | .pending text => text

/-- The bytes that some characters are shown as -/
def shownAs (chars : List (BitVec 32)) : List Byte := chars.map (BitVec.setWidth 8)

/-- The loop reads the line that `lineOf` finds. -/
def ReadsLine (base : ByteMemory) (buf : BitVec 64) (terminal : Terminal)
    (reading : Reading Byte (BitVec 32)) (program : ℕ → Session (Option (BitVec 64))) : Prop :=
  ∃ memory, Typed base buf (lineBytes reading.line) memory ∧
    Ends program terminal (lineResult buf { terminal with
      memory := memory
      input := reading.rest
      shown := terminal.shown ++ shownAs reading.echoed } reading.line)

/-- Steps that show some characters and then read the rest of the line -/
theorem ReadsLine.after {program program' : ℕ → Session (Option (BitVec 64))}
    {reading : Reading Byte (BitVec 32)} {terminal' : Terminal} (chars : List (BitVec 32))
    (hsteps : ∀ result, Ends program' terminal' result → Ends program terminal result)
    (hpanic : terminal'.isPanic = terminal.isPanic)
    (hshutdowns : terminal'.shutdowns = terminal.shutdowns)
    (hshown : terminal'.shown = terminal.shown ++ shownAs chars)
    (h : ReadsLine base buf terminal' reading program') :
    ReadsLine base buf terminal { reading with echoed := chars ++ reading.echoed } program := by
  obtain ⟨memory, htyped, hends⟩ := h
  refine ⟨memory, htyped, hsteps _ ?_⟩
  rw [hpanic, hshutdowns, hshown] at hends
  simp only [shownAs, List.map_append, List.append_assoc] at hends ⊢
  exact hends

theorem readLoop_char {i : ℕ} {result : EStateM.Result Pause Terminal (Option (BitVec 64))}
    (hinput : terminal.input.dropWhile (· == 0) = c :: input)
    (h : Ends (fun fuel ↦ readChar (readLoop buf fuel) buf i c) { terminal with input } result) :
    Ends (fun fuel ↦ readLoop buf fuel i) terminal result := by
  have hget := getchar_ends terminal
  simp only [hinput] at hget
  let body (fuel : ℕ) (c : BitVec 32) := readChar (readLoop buf fuel) buf i c
  have hbody : Ends (fun fuel ↦ getchar fuel >>= body fuel) terminal result := hget.bind h
  exact Ends.of_step (fun _ ↦ rfl) hbody

section Characters

variable {loop : ℕ → Session (Option (BitVec 64))} {terminal' : Terminal} {i : ℕ}

theorem readChar_glyph (hneg : ¬ c.toInt < 0) (hglyph : 0x20 ≤ c.toInt) (hroom : i < BUFSIZE - 1)
    (hstore : storeByte (buf + BitVec.ofNat 64 i) (c.setWidth 8) (terminal.show [c.setWidth 8]) =
      .ok () terminal') : readChar loop buf i c terminal = loop (i + 1) terminal' := by
  rw [readChar, if_neg hneg, if_pos ⟨hglyph, hroom⟩, bind_of_ok (cputchar_eq c terminal),
    bind_of_ok hstore]

theorem readChar_erase (hpos : 0 < i) :
    readChar loop buf i 0x08 terminal = loop (i - 1) (terminal.show [0x08]) := by
  rw [readChar, if_neg (by decide), if_neg fun h ↦ absurd h.1 (by decide), if_pos ⟨rfl, hpos⟩]
  rfl

theorem readChar_enter (henter : c = 0x0a ∨ c = 0x0d)
    (hstore : storeByte (buf + BitVec.ofNat 64 i) 0 (terminal.show [c.setWidth 8]) =
      .ok () terminal') : readChar loop buf i c terminal = .ok (some buf) terminal' := by
  have hneg : ¬ c.toInt < 0 := by rcases henter with rfl | rfl <;> decide
  have hglyph : ¬ 0x20 ≤ c.toInt := by rcases henter with rfl | rfl <;> decide
  have herase : ¬ c = 0x08 := by rcases henter with rfl | rfl <;> decide
  rw [readChar, if_neg hneg, if_neg fun h ↦ hglyph h.1, if_neg fun h ↦ herase h.1, if_pos henter,
    bind_of_ok (cputchar_eq c terminal), bind_of_ok hstore]
  rfl

/-- Every character that is not a key of the editor is passed over. -/
theorem readChar_pass (hpos : ¬ c.toInt < 0)
    (hglyph : ¬ (0x20 ≤ c.toInt ∧ i < BUFSIZE - 1)) (herase : ¬ (c = 0x08 ∧ 0 < i))
    (henter : ¬ (c = 0x0a ∨ c = 0x0d)) : readChar loop buf i c = loop i := by
  rw [readChar, if_neg hpos, if_neg hglyph, if_neg herase, if_neg henter]

end Characters

/-- The loop reads every line whose input is shorter than `count`. -/
def ReadsBelow (base : ByteMemory) (buf : BitVec 64) (count : ℕ) : Prop :=
  ∀ (terminal : Terminal) (text : List Byte), terminal.input.length < count →
    Typed base buf text terminal.memory → text.length ≤ BUFSIZE - 1 →
    ReadsLine base buf terminal (lineOf text terminal.input) fun fuel ↦
      readLoop buf fuel text.length

section Rounds

variable (hbelow : ReadsBelow base buf terminal.input.length)
  (htyped : Typed base buf text terminal.memory) (hfits : text.length ≤ BUFSIZE - 1)
  (hinput : terminal.input.dropWhile (· == 0) = c :: input)

include hinput

theorem input_length_lt : input.length < terminal.input.length := by
  have hle := (List.dropWhile_suffix (l := terminal.input) (· == 0)).length_le
  rw [hinput, List.length_cons] at hle
  exact hle

include hbelow htyped hfits

theorem reads_pass (hread : lineOf text (c :: input) = lineOf text input)
    (hpass : ∀ loop, readChar loop buf text.length c = loop text.length) :
    ReadsLine base buf terminal (lineOf text (c :: input)) fun fuel ↦
      readLoop buf fuel text.length := by
  have hlater : ReadsLine base buf { terminal with input } (lineOf text input) fun fuel ↦
      readLoop buf fuel text.length := hbelow _ text (input_length_lt hinput) htyped hfits
  have hsteps : ∀ result, Ends (fun fuel ↦ readLoop buf fuel text.length) { terminal with input }
      result → Ends (fun fuel ↦ readLoop buf fuel text.length) terminal result := by
    intro result hends
    apply readLoop_char hinput
    simpa only [hpass] using hends
  rw [hread]
  exact hlater.after [] hsteps rfl rfl (List.append_nil _).symm

omit hfits in
theorem reads_glyph (hneg : ¬ c.toInt < 0) (hglyph : 0x20 ≤ c.toInt)
    (hroom : text.length < BUFSIZE - 1) :
    ReadsLine base buf terminal (lineOf text (c :: input)) fun fuel ↦
      readLoop buf fuel text.length := by
  have hkey : keyOf c = some (.glyph (c.setWidth 8)) := by
    rw [keyOf, if_neg hneg, if_pos hglyph]
  have hinside : text.length < BUFSIZE := Nat.lt_of_lt_of_le hroom (Nat.sub_le _ _)
  let next := (Terminal.show { terminal with input } [c.setWidth 8]).stored
    (buf + BitVec.ofNat 64 text.length) (c.setWidth 8)
  have hstore : storeByte (buf + BitVec.ofNat 64 text.length) (c.setWidth 8)
      (Terminal.show { terminal with input } [c.setWidth 8]) = .ok () next :=
    storeByte_eq (htyped.mapped _ hinside)
  have hfits' : (text ++ [c.setWidth 8]).length ≤ BUFSIZE - 1 := by
    rw [List.length_append]
    exact hroom
  have hlater : ReadsLine base buf next (lineOf (text ++ [c.setWidth 8]) input) fun fuel ↦
      readLoop buf fuel (text ++ [c.setWidth 8]).length :=
    hbelow next _ (input_length_lt hinput) (htyped.append hinside (c.setWidth 8)) hfits'
  have hsteps : ∀ result, Ends (fun fuel ↦ readLoop buf fuel (text ++ [c.setWidth 8]).length)
      next result → Ends (fun fuel ↦ readLoop buf fuel text.length) terminal result := by
    intro result hends
    rw [List.length_append, List.length_singleton] at hends
    apply readLoop_char hinput
    exact hends.congr fun _ ↦ readChar_glyph hneg hglyph hroom hstore
  rw [lineOf_glyph hkey hroom]
  exact hlater.after [c] hsteps rfl rfl rfl

theorem reads_erase (herase : c = 0x08) (hne : text ≠ []) :
    ReadsLine base buf terminal (lineOf text (c :: input)) fun fuel ↦
      readLoop buf fuel text.length := by
  subst herase
  have hfits' : text.dropLast.length ≤ BUFSIZE - 1 := by
    rw [List.length_dropLast]
    exact (Nat.sub_le _ _).trans hfits
  let next := Terminal.show { terminal with input } [0x08]
  have hlater : ReadsLine base buf next (lineOf text.dropLast input) fun fuel ↦
      readLoop buf fuel text.dropLast.length :=
    hbelow next _ (input_length_lt hinput) (htyped.of_initial (List.dropLast_prefix text)) hfits'
  have hsteps : ∀ result, Ends (fun fuel ↦ readLoop buf fuel text.dropLast.length) next result →
      Ends (fun fuel ↦ readLoop buf fuel text.length) terminal result := by
    intro result hends
    rw [List.length_dropLast] at hends
    apply readLoop_char hinput
    exact hends.congr fun _ ↦ readChar_erase (List.length_pos_iff.mpr hne)
  rw [lineOf_erase rfl hne]
  exact hlater.after [0x08] hsteps rfl rfl rfl

omit hbelow in
theorem reads_enter (henter : c = 0x0a ∨ c = 0x0d) :
    ReadsLine base buf terminal (lineOf text (c :: input)) fun fuel ↦
      readLoop buf fuel text.length := by
  have hkey : keyOf c = some .enter := by
    rcases henter with rfl | rfl
    · rfl
    · rfl
  have hinside : text.length < BUFSIZE := Nat.lt_of_le_of_lt hfits (by decide)
  rw [lineOf_enter hkey]
  refine ⟨_, htyped.append hinside 0, readLoop_char hinput (Ends.of_eq fun fuel ↦ ?_)⟩
  exact readChar_enter henter (storeByte_eq (htyped.mapped _ hinside))

omit hbelow hfits in
theorem reads_cancel (hneg : c.toInt < 0) :
    ReadsLine base buf terminal (lineOf text (c :: input)) fun fuel ↦
      readLoop buf fuel text.length := by
  rw [lineOf_cancel (if_pos hneg)]
  refine ⟨terminal.memory, htyped.of_initial List.nil_prefix, readLoop_char hinput
    (Ends.of_eq fun fuel ↦ ?_)⟩
  rw [readChar, if_pos hneg]
  simp [lineResult, shownAs, pure, EStateM.pure]

/-- One character -/
theorem reads_char : ReadsLine base buf terminal (lineOf text (c :: input)) fun fuel ↦
    readLoop buf fuel text.length := by
  by_cases hneg : c.toInt < 0
  · exact reads_cancel htyped hinput hneg
  by_cases hglyph : 0x20 ≤ c.toInt
  · by_cases hroom : text.length < BUFSIZE - 1
    · exact reads_glyph hbelow htyped hinput hneg hglyph hroom
    · have hkey : keyOf c = some (.glyph (c.setWidth 8)) := by
        rw [keyOf, if_neg hneg, if_pos hglyph]
      apply reads_pass hbelow htyped hfits hinput (lineOf_full hkey hroom)
      intro loop
      apply readChar_pass hneg fun h ↦ hroom h.2
      · rintro ⟨rfl, -⟩
        exact absurd hglyph (by decide)
      · rintro (rfl | rfl)
        · exact absurd hglyph (by decide)
        · exact absurd hglyph (by decide)
  by_cases herase : c = 0x08
  · by_cases hnil : text = []
    · subst hnil herase
      exact reads_pass hbelow htyped hfits hinput (lineOf_erase_nil rfl) fun loop ↦
        readChar_pass hneg (fun h ↦ hglyph h.1) (fun h ↦ absurd h.2 (lt_irrefl 0)) (by decide)
    · exact reads_erase hbelow htyped hfits hinput herase hnil
  by_cases henter : c = 0x0a ∨ c = 0x0d
  · exact reads_enter htyped hfits hinput henter
  · have hkey : keyOf c = none := by
      rw [keyOf, if_neg hneg, if_neg hglyph, if_neg herase, if_neg henter]
    exact reads_pass hbelow htyped hfits hinput (lineOf_other hkey) fun loop ↦
      readChar_pass hneg (fun h ↦ hglyph h.1) (fun h ↦ herase h.1) henter

end Rounds

/-- The input that is left bounds the rounds of the loop. -/
theorem readsBelow (count : ℕ) : ReadsBelow base buf count := by
  induction count with
  | zero => exact fun _ _ hless ↦ absurd hless (Nat.not_lt_zero _)
  | succ count ih =>
    intro terminal text hless htyped hfits
    rw [← lineOf_dropWhile]
    cases hinput : terminal.input.dropWhile (· == 0) with
    | nil =>
      have hget := getchar_ends terminal
      simp only [hinput] at hget
      let body (fuel : ℕ) (c : BitVec 32) := readChar (readLoop buf fuel) buf text.length c
      have hbody : Ends (fun fuel ↦ getchar fuel >>= body fuel) terminal
        (.error .waiting { terminal with input := [] }) := hget.bind_error
      refine ⟨terminal.memory, htyped, Ends.of_step (fun _ ↦ rfl) ?_⟩
      have hshown : terminal.shown ++ shownAs [] = terminal.shown := List.append_nil _
      rw [show (lineOf text []).echoed = [] from rfl, hshown]
      exact hbody
    | cons c input =>
      have hbelow : ReadsBelow base buf terminal.input.length := fun terminal' text' hless' ↦
        ih terminal' text' (Nat.lt_of_lt_of_le hless' (Nat.le_of_lt_succ hless))
      exact reads_char hbelow htyped hfits hinput

theorem readLoop_reads (htyped : Typed base buf text terminal.memory)
    (hfits : text.length ≤ BUFSIZE - 1) :
    ReadsLine base buf terminal (lineOf text terminal.input) fun fuel ↦
      readLoop buf fuel text.length :=
  readsBelow _ terminal text (Nat.lt_succ_self _) htyped hfits

/-! ## The prompt -/

/-- What is shown for a prompt -/
def IsPrompt (memory : ByteMemory) : Option CString → List Byte → Prop
  | none, text => text = []
  | some prompt, text => (FormatPiece.string prompt text).Valid memory

theorem readline_reads {prompt : Option CString} {promptText : List Byte}
    (hprompt : IsPrompt terminal.memory prompt promptText)
    (hmapped : terminal.memory.Mapped buf BUFSIZE) :
    ∃ memory, Typed terminal.memory buf (lineBytes (lineOf [] terminal.input).line) memory ∧
      Ends (readline buf prompt) terminal (lineResult buf { terminal with
        memory := memory
        input := (lineOf [] terminal.input).rest
        shown := terminal.shown ++ (promptText ++ shownAs (lineOf [] terminal.input).echoed) }
          (lineOf [] terminal.input).line) := by
  have hinitial : Typed terminal.memory buf [] (terminal.show promptText).memory :=
    Typed.initial hmapped
  obtain ⟨memory, htyped, hends⟩ := readLoop_reads hinitial (Nat.zero_le _)
  refine ⟨memory, htyped, ?_⟩
  rw [← List.append_assoc]
  cases prompt with
  | none =>
    obtain rfl := hprompt
    rw [show_nil] at hends
    rw [List.append_nil]
    exact hends.congr fun _ ↦ rfl
  | some prompt =>
    have hformatted : Formatted terminal.memory (.literal ("%s".toList.map ascii))
        (vaList [prompt.arg]) promptText := by
      have hpieces := literal_pieces [FormatPiece.string prompt promptText]
        (List.forall_mem_singleton.mpr hprompt)
      simp only [List.flatMap_cons, List.flatMap_nil, List.append_nil] at hpieces
      exact hpieces
    exact ((vcprintf_ends hformatted).bind hends)

/-- `readline` is a line editor: with every input it reads the line that `lineOf` finds, waits if there is
none yet, and returns `NULL` on an error. The line ends with a NUL in the array, nothing else is written,
and the screen shows the line as it is. -/
theorem readline_edits (terminal : Terminal) (buf : BitVec 64) (prompt : Option CString)
    (promptText : List Byte) (hprompt : IsPrompt terminal.memory prompt promptText)
    (hmapped : terminal.memory.Mapped buf BUFSIZE) :
    (∃ memory, Typed terminal.memory buf (lineBytes (lineOf [] terminal.input).line) memory ∧
      Ends (readline buf prompt) terminal (lineResult buf { terminal with
        memory := memory
        input := (lineOf [] terminal.input).rest
        shown := terminal.shown ++ (promptText ++ shownAs (lineOf [] terminal.input).echoed) }
          (lineOf [] terminal.input).line)) ∧
    ∀ text, (lineOf [] terminal.input).line.content = some text → text.length ≤ BUFSIZE - 1 ∧
      Reading.screen keyOf [] (lineOf [] terminal.input).echoed = text :=
  ⟨readline_reads hprompt hmapped, fun _ hline ↦
    ⟨Reading.length_le (Nat.zero_le _) hline, Reading.screen_echoed hline⟩⟩

/-- `h`, `e`, a backspace and `i` after a prompt; nothing is typed for a while. -/
theorem readline_edits_sample : ∃ memory : ByteMemory, memory.Holds 0x1000 [0x68, 0x69, 0] ∧
    Ends (readline 0x1000 (some (.literal [0x3e, 0x20])))
      ⟨fun _ ↦ some 0, [0x68, 0, 0, 0x65, 0x08, 0x69, 0x0d], [], false, 0⟩
      (.ok (some 0x1000) ⟨memory, [], [0x3e, 0x20, 0x68, 0x65, 0x08, 0x69, 0x0d], false, 0⟩) := by
  have hline : lineOf [] [0x68, 0, 0, 0x65, 0x08, 0x69, 0x0d] =
      ⟨.entered [0x68, 0x69], [0x68, 0x65, 0x08, 0x69, 0x0d], []⟩ := rfl
  obtain ⟨⟨memory, htyped, hends⟩, -⟩ := readline_edits
    ⟨fun _ ↦ some 0, [0x68, 0, 0, 0x65, 0x08, 0x69, 0x0d], [], false, 0⟩ 0x1000
    (some (.literal [0x3e, 0x20])) [0x3e, 0x20]
    ⟨by simp, by decide, by decide, reads_literal _ _⟩ fun _ _ ↦ rfl
  simp only [hline] at htyped hends
  exact ⟨memory, htyped.holds, hends⟩

end Ucore
