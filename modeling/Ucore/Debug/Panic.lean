import Ucore.Debug.Commands

/-!
# Panics and the monitor (`kern/debug/panic.c`, `kern/debug/kmonitor.c`)

A panic enters the monitor, and a command of the monitor panics. The monitor asks the firmware to switch
the machine off; what it does behind that is what a machine does whose firmware returns.
-/

namespace Ucore.Kmonitor

open Foundation ByteMemory

def sbiShutdown : Session Unit :=
  modify fun terminal ↦ { terminal with shutdowns := terminal.shutdowns + 1 }

/-- What `__panic` does before `panic_dead` -/
def panicMessage (fuel : ℕ) (file : List Byte) (line : BitVec 64) (fmt : List Byte)
    (args : List VaArg) : Session Unit := do
  if (← get).isPanic then return
  modify fun terminal ↦ { terminal with isPanic := true }
  let _ ← cprintf fuel (.literal (literal "kernel panic at %s:%d:\n    "))
    (vaList [.text file, .word line])
  let _ ← vcprintf fuel (.literal fmt) (vaList args)
  let _ ← cprintf fuel (.literal [ascii '\n']) (vaList [])

def welcomeLine : List Byte := literal "Welcome to the kernel debug monitor!!\n"
def hintLine : List Byte := literal "Type 'help' for a list of commands.\n"

def stackframeFile : List Byte := literal "kern/debug/kdebug.c"
def notImplemented : List Byte := literal "Not Implemented!"

mutual

/-- `kmonitor(NULL)` -/
def kmonitor (symbols : KernelSymbols) (argv : List (BitVec 64)) (buf : BitVec 64) : ℕ → Session Unit
  | 0 => throw .stuck
  | fuel + 1 => do
    let _ ← cprintf fuel (.literal welcomeLine) (vaList [])
    let _ ← cprintf fuel (.literal hintLine) (vaList [])
    sbiShutdown
    commandLoop symbols argv buf fuel

def commandLoop (symbols : KernelSymbols) (argv : List (BitVec 64)) (buf : BitVec 64) :
    ℕ → Session Unit
  | 0 => throw .stuck
  | fuel + 1 => do
    match ← readline buf (some (.literal (literal "K> "))) fuel with
    | none => commandLoop symbols argv buf fuel
    | some line =>
      let result ← runcmd symbols argv line (stackframePanic symbols argv buf fuel) fuel
      if result < 0 then return else commandLoop symbols argv buf fuel

/-- `panic("Not Implemented!")` in `print_stackframe` -/
def stackframePanic (symbols : KernelSymbols) (argv : List (BitVec 64)) (buf : BitVec 64) :
    ℕ → Session Unit
  | 0 => throw .stuck
  | fuel + 1 => do
    panicMessage fuel stackframeFile 73 notImplemented []
    panicDead symbols argv buf fuel

/-- `while (1) { kmonitor(NULL); }` -/
def panicDead (symbols : KernelSymbols) (argv : List (BitVec 64)) (buf : BitVec 64) : ℕ → Session Unit
  | 0 => throw .stuck
  | fuel + 1 => do
    kmonitor symbols argv buf fuel
    panicDead symbols argv buf fuel

end

variable {symbols : KernelSymbols} {argv : List (BitVec 64)} {buf : BitVec 64} {terminal : Terminal}
  {memory : ByteMemory} {text : List Byte} {input : List (BitVec 32)} {address : BitVec 64}

/-! ## What a monitor shows -/

/-- `"kernel panic at %s:%d:\n    "` -/
def panicPlace (file : List Byte) (line : BitVec 64) : List FormatPiece :=
  [.text (literal "kernel panic at "), .string (.literal file) file, .text (literal ":"),
    .number .blank 0 .int .d line, .text (literal ":\n    ")]

/-- What a panic of `print_stackframe` shows: its message if it is the first one, and the welcome -/
def panicText (isPanic : Bool) : List Byte :=
  (if isPanic then [] else shownBy (panicPlace stackframeFile 73) ++ (notImplemented ++ [ascii '\n'])) ++
    (welcomeLine ++ hintLine)

/-- The string in the array after a line has been entered -/
def cString (text : List Byte) : List Byte := text.takeWhile (· != 0)

/-- How a monitor pauses, and what it has shown and done until then -/
structure Transcript where
  shown : List Byte
  isPanic : Bool
  shutdowns : ℕ
  pause : Pause
  rest : List (BitVec 32)

def Transcript.after (bytes : List Byte) (last : Transcript) : Transcript :=
  { last with shown := bytes ++ last.shown }

def Transcript.afterShutdown (last : Transcript) : Transcript :=
  { last with shutdowns := last.shutdowns + 1 }

/-- A prompt and the echo of a line -/
def echoOf (input : List (BitVec 32)) : List Byte :=
  literal "K> " ++ shownAs (lineOf [] input).echoed

/-- The loop of the monitor on some input, line by line -/
inductive Monitored (symbols : KernelSymbols) : Bool → List (BitVec 32) → Transcript → Prop
  | waits {isPanic : Bool} {input : List (BitVec 32)} {text : List Byte}
      (hline : (lineOf [] input).line = .pending text) :
      Monitored symbols isPanic input
        ⟨echoOf input, isPanic, 0, .waiting, (lineOf [] input).rest⟩
  | cancelled {isPanic : Bool} {input : List (BitVec 32)} {last : Transcript}
      (hline : (lineOf [] input).line = .cancelled)
      (hlast : Monitored symbols isPanic (lineOf [] input).rest last) :
      Monitored symbols isPanic input (last.after (echoOf input))
  | replies {isPanic : Bool} {input : List (BitVec 32)} {text : List Byte} {last : Transcript}
      (hline : (lineOf [] input).line = .entered text)
      (hwords : (words (cString text)).length ≤ MAXARGS)
      (hreply : (lineReply symbols (cString text)).panics = false)
      (hlast : Monitored symbols isPanic (lineOf [] input).rest last) :
      Monitored symbols isPanic input
        (last.after (echoOf input ++ (lineReply symbols (cString text)).bytes))
  | panics {isPanic : Bool} {input : List (BitVec 32)} {text : List Byte} {last : Transcript}
      (hline : (lineOf [] input).line = .entered text)
      (hwords : (words (cString text)).length ≤ MAXARGS)
      (hreply : (lineReply symbols (cString text)).panics = true)
      (hlast : Monitored symbols true (lineOf [] input).rest last) :
      Monitored symbols isPanic input (last.afterShutdown.after
        (echoOf input ++ (lineReply symbols (cString text)).bytes ++ panicText isPanic))
  /-- The words of the line overrun the array that they are stored in. -/
  | overruns {isPanic : Bool} {input : List (BitVec 32)} {text : List Byte}
      (hline : (lineOf [] input).line = .entered text)
      (hwords : MAXARGS < (words (cString text)).length) :
      Monitored symbols isPanic input
        ⟨echoOf input, isPanic, 0, .stuck, (lineOf [] input).rest⟩

/-- A program runs as a transcript says and writes to no memory but the array of the line. -/
def Runs (buf : BitVec 64) (terminal : Terminal)
    (transcripts : Transcript → Prop) (program : ℕ → Session Unit) : Prop :=
  ∃ last memory, transcripts last ∧
    (∀ address, BUFSIZE ≤ (address - buf).toNat → memory address = terminal.memory address) ∧
    Ends program terminal (.error last.pause
      { memory := memory
        input := last.rest
        shown := terminal.shown ++ last.shown
        isPanic := last.isPanic
        shutdowns := terminal.shutdowns + last.shutdowns })

/-- Steps that show something and then run as a transcript says -/
theorem Runs.after {terminal' : Terminal} {transcripts transcripts' : Transcript → Prop}
    {program program' : ℕ → Session Unit} (bytes : List Byte) (asked : ℕ)
    (h : Runs buf terminal' transcripts' program')
    (hsteps : ∀ fault final, Ends program' terminal' (.error fault final) →
      Ends program terminal (.error fault final))
    (hmemory : ∀ address, BUFSIZE ≤ (address - buf).toNat →
      terminal'.memory address = terminal.memory address)
    (hshown : terminal'.shown = terminal.shown ++ bytes)
    (hshutdowns : terminal'.shutdowns = terminal.shutdowns + asked)
    (htranscripts : ∀ last, transcripts' last → transcripts
      { last with shown := bytes ++ last.shown, shutdowns := asked + last.shutdowns }) :
    Runs buf terminal transcripts program := by
  obtain ⟨last, memory, hlast, houtside, hends⟩ := h
  refine ⟨_, memory, htranscripts last hlast, ?_, hsteps _ _ ?_⟩
  · intro address haddress
    rw [houtside address haddress, hmemory address haddress]
  · rw [← List.append_assoc, ← Nat.add_assoc, ← hshown, ← hshutdowns]
    exact hends

/-! ## The array of the line -/

theorem cString_free (text : List Byte) : 0 ∉ cString text := by
  unfold cString
  induction text with
  | nil => exact List.not_mem_nil
  | cons byte text ih =>
    by_cases hzero : byte = 0
    · rw [List.takeWhile_cons_of_neg (by simpa using hzero)]
      exact List.not_mem_nil
    · rw [List.takeWhile_cons_of_pos (by simpa using hzero), List.mem_cons, not_or]
      exact ⟨Ne.symm hzero, ih⟩

theorem cString_initial (text : List Byte) : cString text ++ [0] <+: text ++ [0] := by
  unfold cString
  induction text with
  | nil => exact List.prefix_rfl
  | cons byte text ih =>
    by_cases hzero : byte = 0
    · rw [List.takeWhile_cons_of_neg (by simpa using hzero), hzero]
      exact ⟨text ++ [0], rfl⟩
    · rw [List.takeWhile_cons_of_pos (by simpa using hzero)]
      exact List.cons_prefix_cons.mpr ⟨rfl, ih⟩

theorem cString_length_le (text : List Byte) : (cString text).length ≤ text.length :=
  (List.takeWhile_sublist _).length_le

/-- An array that is not at `NULL` and does not wrap -/
structure LineArray (memory : ByteMemory) (buf : BitVec 64) : Prop where
  notNull : buf ≠ 0
  end_le : buf.toNat + BUFSIZE ≤ 2 ^ 64
  mapped : memory.Mapped buf BUFSIZE

theorem isSome_cleared (h : (memory address).isSome) :
    (cleared memory buf text address).isSome := by
  induction text generalizing memory buf with
  | nil => exact h
  | cons byte text ih =>
    rw [cleared]
    apply ih
    split
    · by_cases heq : address = buf
      · rw [heq, Function.update_self]
        rfl
      · rw [Function.update_of_ne heq]
        exact h
    · exact h

/-! ## Messages -/

theorem cprintf_text {text : List Byte} (htext : ∀ ch ∈ text, ch ≠ ascii '%' ∧ ch ≠ 0) :
    Ends (fun fuel ↦ cprintf fuel (.literal text) (vaList [])) terminal
      (.ok (int32 text.length) (terminal.show text)) := by
  have hends := cprintf_ends (List.forall_mem_singleton.mpr (valid_text terminal.memory htext))
  simp only [callOf, shownBy, FormatPiece.format, FormatPiece.slots, FormatPiece.shown,
    List.flatMap_cons, List.flatMap_nil, List.append_nil] at hends
  exact hends

/-- The monitor greets and enters its loop. -/
theorem kmonitor_steps {fault : Pause} {final : Terminal}
    (h : Ends (commandLoop symbols argv buf)
      { terminal.show (welcomeLine ++ hintLine) with shutdowns := terminal.shutdowns + 1 }
      (.error fault final)) :
    Ends (kmonitor symbols argv buf) terminal (.error fault final) := by
  have hwelcome : ∀ ch ∈ welcomeLine, ch ≠ ascii '%' ∧ ch ≠ 0 := by decide +kernel
  have hhint : ∀ ch ∈ hintLine, ch ≠ ascii '%' ∧ ch ≠ 0 := by decide +kernel
  let last (fuel : ℕ) (_ : ℤ) : Session Unit := do
    sbiShutdown
    commandLoop symbols argv buf fuel
  let following (fuel : ℕ) (_ : ℤ) : Session Unit := do
    let asked ← cprintf fuel (.literal hintLine) (vaList [])
    last fuel asked
  have hlast : Ends (fun fuel ↦ last fuel (int32 hintLine.length))
      ((terminal.show welcomeLine).show hintLine) (.error fault final) := by
    rw [show_show]
    exact h.congr fun _ ↦ rfl
  have hsecond : Ends (fun fuel ↦ following fuel (int32 welcomeLine.length))
      (terminal.show welcomeLine) (.error fault final) := (cprintf_text hhint).bind hlast
  have hfirst : Ends (fun fuel ↦ cprintf fuel (.literal welcomeLine) (vaList []) >>= following fuel)
      terminal (.error fault final) := (cprintf_text hwelcome).bind hsecond
  apply Ends.of_step _ hfirst
  intro fuel
  rw [kmonitor]

theorem panicMessage_first {file message : List Byte} {line : BitVec 64}
    (hfile : 0 ∉ file) (hlength : file.length < 2 ^ 31 - 1)
    (hmessage : ∀ ch ∈ message, ch ≠ ascii '%' ∧ ch ≠ 0) (hpanic : terminal.isPanic = false) :
    Ends (fun fuel ↦ panicMessage fuel file line message []) terminal
      (.ok () (Terminal.show { terminal with isPanic := true }
        (shownBy (panicPlace file line) ++ (message ++ [ascii '\n'])))) := by
  have hplace : ∀ piece ∈ panicPlace file line,
      piece.Valid ({ terminal with isPanic := true } : Terminal).memory := by
    simp only [panicPlace, List.forall_mem_cons]
    exact ⟨valid_text _ (by decide +kernel), valid_literal _ hfile hlength,
      valid_text _ (by decide +kernel), trivial, valid_text _ (by decide +kernel), List.forall_mem_nil _⟩
  have hnewline : ∀ ch ∈ [ascii '\n'], ch ≠ ascii '%' ∧ ch ≠ 0 := by decide
  let last (_ : ℕ) (_ : ℤ) : Session Unit := pure ()
  let third (fuel : ℕ) (_ : ℤ) : Session Unit := do
    let shown ← cprintf fuel (.literal [ascii '\n']) (vaList [])
    last fuel shown
  let second (fuel : ℕ) (_ : ℤ) : Session Unit := do
    let shown ← vcprintf fuel (.literal message) (vaList [])
    third fuel shown
  let marked : Terminal := { terminal with isPanic := true }
  let placed := marked.show (shownBy (panicPlace file line))
  have hlast : Ends (fun fuel ↦ last fuel (int32 [ascii '\n'].length))
      ((placed.show message).show [ascii '\n']) (.ok () ((placed.show message).show [ascii '\n'])) :=
    Ends.of_eq fun _ ↦ rfl
  have hthird : Ends (fun fuel ↦ third fuel (int32 message.length)) (placed.show message)
      (.ok () ((placed.show message).show [ascii '\n'])) := (cprintf_text hnewline).bind hlast
  have hsecond : Ends (fun fuel ↦ second fuel (int32 (shownBy (panicPlace file line)).length)) placed
      (.ok () ((placed.show message).show [ascii '\n'])) := (cprintf_text hmessage).bind hthird
  have hfirst : Ends (fun fuel ↦ cprintf fuel (.literal (callOf (panicPlace file line)).1)
      (vaList (callOf (panicPlace file line)).2) >>= second fuel) marked
      (.ok () ((placed.show message).show [ascii '\n'])) := (cprintf_ends hplace).bind hsecond
  simp only [placed, show_show, List.append_assoc] at hfirst
  apply hfirst.congr
  intro fuel
  rw [panicMessage, bind_get, if_neg (by simp [hpanic])]
  rfl

/-- The terminal that a panic of `print_stackframe` leaves to the loop of the monitor -/
def afterPanic (terminal : Terminal) : Terminal :=
  { terminal.show (panicText terminal.isPanic) with
    isPanic := true
    shutdowns := terminal.shutdowns + 1 }

/-- A panic shows its message once and enters the loop of the monitor for good. -/
theorem stackframePanic_steps {fault : Pause} {final : Terminal}
    (h : Ends (commandLoop symbols argv buf) (afterPanic terminal) (.error fault final)) :
    Ends (stackframePanic symbols argv buf) terminal (.error fault final) := by
  let again (fuel : ℕ) (_ : Unit) := panicDead symbols argv buf fuel
  have hdead : ∀ before : Terminal, Ends (kmonitor symbols argv buf) before (.error fault final) →
      Ends (panicDead symbols argv buf) before (.error fault final) := by
    intro before hmonitor
    have hboth : Ends (fun fuel ↦ kmonitor symbols argv buf fuel >>= again fuel) before
        (.error fault final) := hmonitor.bind_error
    apply Ends.of_step _ hboth
    intro fuel
    rw [panicDead]
  have hsteps : ∀ before : Terminal,
      Ends (fun fuel ↦ panicMessage fuel stackframeFile 73 notImplemented []) terminal
        (.ok () before) →
      Ends (panicDead symbols argv buf) before (.error fault final) →
      Ends (stackframePanic symbols argv buf) terminal (.error fault final) := by
    intro before hmessage hrest
    have hboth : Ends (fun fuel ↦ panicMessage fuel stackframeFile 73 notImplemented [] >>= again fuel)
        terminal (.error fault final) := hmessage.bind hrest
    apply Ends.of_step _ hboth
    intro fuel
    rw [stackframePanic]
  cases hpanic : terminal.isPanic with
  | true =>
    apply hsteps terminal
    · apply Ends.of_eq
      intro fuel
      rw [panicMessage, bind_get, if_pos hpanic]
      rfl
    · apply hdead
      apply kmonitor_steps
      obtain ⟨memory, input, shown, isPanic, shutdowns⟩ := terminal
      obtain rfl := hpanic
      exact h
  | false =>
    apply hsteps _ (panicMessage_first (by decide +kernel) (by decide +kernel) (by decide +kernel) hpanic)
    apply hdead
    apply kmonitor_steps
    rw [show_show]
    obtain ⟨memory, input, shown, isPanic, shutdowns⟩ := terminal
    obtain rfl := hpanic
    exact h

/-! ## The loop -/

/-- The loop runs as a transcript says on every input shorter than `count`. -/
def MonitorsBelow (symbols : KernelSymbols) (argv : List (BitVec 64)) (buf : BitVec 64) (count : ℕ) :
    Prop :=
  ∀ terminal : Terminal, terminal.input.length < count → LineArray terminal.memory buf →
    Runs buf terminal (Monitored symbols terminal.isPanic terminal.input)
      (commandLoop symbols argv buf)

theorem commandLoop_line {result : EStateM.Result Pause Terminal Unit} {found : Option (BitVec 64)}
    {terminal' : Terminal}
    (hline : Ends (readline buf (some (.literal (literal "K> ")))) terminal (.ok found terminal'))
    (hrest : Ends (fun fuel ↦ match found with
      | none => commandLoop symbols argv buf fuel
      | some line => do
        let result ← runcmd symbols argv line (stackframePanic symbols argv buf fuel) fuel
        if result < 0 then return else commandLoop symbols argv buf fuel) terminal' result) :
    Ends (commandLoop symbols argv buf) terminal result := by
  let following (fuel : ℕ) (found : Option (BitVec 64)) : Session Unit :=
    match found with
    | none => commandLoop symbols argv buf fuel
    | some line => do
      let result ← runcmd symbols argv line (stackframePanic symbols argv buf fuel) fuel
      if result < 0 then return else commandLoop symbols argv buf fuel
  have hboth : Ends (fun fuel ↦ readline buf (some (.literal (literal "K> "))) fuel >>= following fuel)
      terminal result := hline.bind hrest
  apply Ends.of_step _ hboth
  intro fuel
  rw [commandLoop]

theorem commandLoop_pause {fault : Pause} {terminal' : Terminal}
    (hline : Ends (readline buf (some (.literal (literal "K> ")))) terminal (.error fault terminal')) :
    Ends (commandLoop symbols argv buf) terminal (.error fault terminal') := by
  let following (fuel : ℕ) (found : Option (BitVec 64)) : Session Unit :=
    match found with
    | none => commandLoop symbols argv buf fuel
    | some line => do
      let result ← runcmd symbols argv line (stackframePanic symbols argv buf fuel) fuel
      if result < 0 then return else commandLoop symbols argv buf fuel
  have hboth : Ends (fun fuel ↦ readline buf (some (.literal (literal "K> "))) fuel >>= following fuel)
      terminal (.error fault terminal') := hline.bind_error
  apply Ends.of_step _ hboth
  intro fuel
  rw [commandLoop]

/-- The terminal after a line has been read -/
def afterLine (terminal : Terminal) (memory : ByteMemory) : Terminal :=
  { terminal with
    memory := memory
    input := (lineOf [] terminal.input).rest
    shown := terminal.shown ++ echoOf terminal.input }

theorem rest_lt {line : Line Byte} (hline : (lineOf [] input).line = line)
    (hended : ∀ text, line ≠ .pending text) : (lineOf [] input).rest.length < input.length := by
  subst hline
  exact Reading.rest_length_lt hended

section Line

variable (hargv : argv.length = MAXARGS)
  (hbelow : MonitorsBelow symbols argv buf terminal.input.length)
  (harray : LineArray terminal.memory buf)
  (htyped : Typed terminal.memory buf (lineBytes (lineOf [] terminal.input).line) memory)
  (hread : Ends (readline buf (some (.literal (literal "K> ")))) terminal
    (lineResult buf (afterLine terminal memory) (lineOf [] terminal.input).line))

include harray htyped in
theorem lineArray_typed : LineArray memory buf := ⟨harray.notNull, harray.end_le, htyped.mapped⟩

include hread htyped in
theorem monitors_pending (hline : (lineOf [] terminal.input).line = .pending text) :
    Runs buf terminal (Monitored symbols terminal.isPanic terminal.input)
      (commandLoop symbols argv buf) := by
  rw [hline] at hread
  exact ⟨_, memory, .waits hline, htyped.outside, commandLoop_pause hread⟩

include hbelow harray hread htyped in
theorem monitors_cancelled (hline : (lineOf [] terminal.input).line = .cancelled) :
    Runs buf terminal (Monitored symbols terminal.isPanic terminal.input)
      (commandLoop symbols argv buf) := by
  have hless := rest_lt hline (by simp)
  have hlater := hbelow (afterLine terminal memory) hless (lineArray_typed harray htyped)
  rw [hline] at hread
  apply hlater.after (echoOf terminal.input) 0 (fun fault final hends ↦ commandLoop_line hread hends)
    htyped.outside rfl rfl
  intro last hlast
  rw [Nat.zero_add]
  exact .cancelled hline hlast

/-- The string of an entered line, in front of `runcmd` -/
structure Entered (memory : ByteMemory) (buf : BitVec 64) (text : List Byte) : Prop where
  holds : memory.Holds buf (cString text ++ [0])
  length_lt : (cString text).length < BUFSIZE

include htyped in
theorem entered_line (hline : (lineOf [] terminal.input).line = .entered text) :
    Entered memory buf text := by
  have hholds := htyped.holds
  rw [hline] at hholds
  have hlength : text.length ≤ BUFSIZE - 1 :=
    Reading.length_le (Nat.zero_le _) (congrArg Line.content hline)
  exact ⟨hholds.of_initial (cString_initial text),
    Nat.lt_of_le_of_lt ((cString_length_le text).trans hlength) (by decide)⟩

include harray in
theorem entered_end (hentered : Entered memory buf text) :
    buf.toNat + (cString text).length < 2 ^ 64 :=
  Nat.lt_of_lt_of_le (Nat.add_lt_add_left hentered.length_lt _) harray.end_le

include harray htyped in
theorem lineArray_split (bytes : List Byte) : LineArray
    ((afterSplit (afterLine terminal memory) buf (cString text)).show bytes).memory buf where
  notNull := harray.notNull
  end_le := harray.end_le
  mapped := fun offset hoffset ↦ isSome_cleared (htyped.mapped offset hoffset)

include htyped in
theorem split_outside (hentered : Entered memory buf text) :
    ∀ address, BUFSIZE ≤ (address - buf).toNat →
      cleared memory buf (cString text) address = terminal.memory address := by
  intro address haddress
  rw [cleared_of_le (hentered.length_lt.le.trans haddress)]
  exact htyped.outside address haddress

include hread in
theorem commandLoop_reply {fault : Pause} {final : Terminal}
    (hline : (lineOf [] terminal.input).line = .entered text)
    (hreply : Ends (fun fuel ↦ do
      let result ← runcmd symbols argv buf (stackframePanic symbols argv buf fuel) fuel
      if result < 0 then return else commandLoop symbols argv buf fuel)
      (afterLine terminal memory) (.error fault final)) :
    Ends (commandLoop symbols argv buf) terminal (.error fault final) := by
  rw [hline] at hread
  exact commandLoop_line hread hreply

include hargv hread htyped in
theorem monitors_overruns (hline : (lineOf [] terminal.input).line = .entered text)
    (hwords : MAXARGS < (words (cString text)).length) :
    Runs buf terminal (Monitored symbols terminal.isPanic terminal.input)
      (commandLoop symbols argv buf) := by
  have hentered := entered_line htyped hline
  refine ⟨_, memory, .overruns hline hwords, htyped.outside, commandLoop_reply hread hline ?_⟩
  have hstuck : Ends (fun fuel ↦ parseLine fuel buf argv) (afterLine terminal memory) _ :=
    parseLine_stuck hentered.holds (cString_free text) (by rw [hargv]; exact hwords)
  have hrun : Ends (fun fuel ↦ runcmd symbols argv buf (stackframePanic symbols argv buf fuel) fuel)
      (afterLine terminal memory) _ := hstuck.bind_error
  exact hrun.bind_error

section Reply

variable (hline : (lineOf [] terminal.input).line = .entered text)
  (hwords : (words (cString text)).length ≤ MAXARGS)

include hargv harray htyped hline hwords

theorem entered_replies (symbols : KernelSymbols) : Replies
    (fun fuel ↦ runcmd symbols argv buf (stackframePanic symbols argv buf fuel) fuel)
    (stackframePanic symbols argv buf) (afterLine terminal memory)
    (afterSplit (afterLine terminal memory) buf (cString text)) (lineReply symbols (cString text)) := by
  have hentered := entered_line htyped hline
  have hlength : (cString text).length < 2 ^ 31 - 1 := hentered.length_lt.trans (by decide)
  exact runcmd_replies harray.notNull (entered_end harray hentered) hlength hentered.holds
    (cString_free text) (by rw [hargv]; exact hwords)

include hbelow hread

theorem monitors_replies (hreply : (lineReply symbols (cString text)).panics = false) :
    Runs buf terminal (Monitored symbols terminal.isPanic terminal.input)
      (commandLoop symbols argv buf) := by
  let bytes := (lineReply symbols (cString text)).bytes
  let next := (afterSplit (afterLine terminal memory) buf (cString text)).show bytes
  have hless := rest_lt hline (by simp)
  have hlater : Runs buf next (Monitored symbols terminal.isPanic (lineOf [] terminal.input).rest)
      (commandLoop symbols argv buf) := hbelow next hless (lineArray_split harray htyped bytes)
  have hreplies := entered_replies hargv harray htyped hline hwords symbols
  rw [Replies, hreply, if_neg Bool.false_ne_true] at hreplies
  apply hlater.after (echoOf terminal.input ++ bytes) 0
  · intro fault final hends
    exact commandLoop_reply hread hline (hreplies.bind hends)
  · exact split_outside htyped (entered_line htyped hline)
  · exact List.append_assoc _ _ _
  · rfl
  · intro last hlast
    rw [Nat.zero_add]
    exact .replies hline hwords hreply hlast

theorem monitors_panics (hreply : (lineReply symbols (cString text)).panics = true) :
    Runs buf terminal (Monitored symbols terminal.isPanic terminal.input)
      (commandLoop symbols argv buf) := by
  let bytes := (lineReply symbols (cString text)).bytes
  let next := (afterSplit (afterLine terminal memory) buf (cString text)).show bytes
  have hless := rest_lt hline (by simp)
  have hlater : Runs buf (afterPanic next) (Monitored symbols true (lineOf [] terminal.input).rest)
      (commandLoop symbols argv buf) :=
    hbelow (afterPanic next) hless (lineArray_split harray htyped bytes)
  have hreplies := entered_replies hargv harray htyped hline hwords symbols
  rw [Replies, hreply, if_pos rfl] at hreplies
  apply hlater.after (echoOf terminal.input ++ bytes ++ panicText terminal.isPanic) 1
  · intro fault final hends
    apply commandLoop_reply hread hline
    exact (hreplies fault final (stackframePanic_steps hends)).bind_error
  · exact split_outside htyped (entered_line htyped hline)
  · change terminal.shown ++ echoOf terminal.input ++ bytes ++ panicText terminal.isPanic = _
    simp only [List.append_assoc]
  · rfl
  · intro last hlast
    rw [Nat.add_comm]
    exact .panics hline hwords hreply hlast

end Reply

end Line

/-- The input that is left bounds the lines of the loop. -/
theorem monitorsBelow (hargv : argv.length = MAXARGS) (count : ℕ) :
    MonitorsBelow symbols argv buf count := by
  induction count with
  | zero => exact fun _ hless ↦ absurd hless (Nat.not_lt_zero _)
  | succ count ih =>
    intro terminal hless harray
    have hbelow : MonitorsBelow symbols argv buf terminal.input.length :=
      fun terminal' hless' ↦ ih terminal' (Nat.lt_of_lt_of_le hless' (Nat.le_of_lt_succ hless))
    have hprompt : IsPrompt terminal.memory (some (.literal (literal "K> "))) (literal "K> ") :=
      valid_literal terminal.memory (by decide +kernel) (by decide +kernel)
    obtain ⟨memory, htyped, hread⟩ := readline_reads hprompt harray.mapped
    cases hline : (lineOf [] terminal.input).line with
    | pending text => exact monitors_pending htyped hread hline
    | cancelled => exact monitors_cancelled hbelow harray htyped hread hline
    | entered text =>
      by_cases hwords : (words (cString text)).length ≤ MAXARGS
      · cases hreply : (lineReply symbols (cString text)).panics with
        | false => exact monitors_replies hargv hbelow harray htyped hread hline hwords hreply
        | true => exact monitors_panics hargv hbelow harray htyped hread hline hwords hreply
      · exact monitors_overruns hargv htyped hread hline (Nat.lt_of_not_le hwords)

end Ucore.Kmonitor
