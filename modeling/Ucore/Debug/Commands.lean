import Ucore.Debug.Kmonitor
import Ucore.Libs.Readline

/-!
# Commands of the monitor (`kern/debug/kmonitor.c`, `kern/debug/kdebug.c`)

`runcmd` splits a line into words and runs the command that the first word names. `print_stackframe`
panics; what a panic does is a parameter here, for it enters the monitor again.
-/

namespace Ucore.Kmonitor

open Foundation ByteMemory

/-- A string literal of the source -/
abbrev literal (text : String) : List Byte := text.toList.map ascii

inductive CommandFunc where
  | monHelp
  | monKerninfo
  | monBacktrace
deriving DecidableEq

/-- `struct command` -/
structure Command where
  name : List Byte
  desc : List Byte
  func : CommandFunc

def commands : List Command :=
  [⟨literal "help", literal "Display this list of commands.", .monHelp⟩,
    ⟨literal "kerninfo", literal "Display information about the kernel.", .monKerninfo⟩,
    ⟨literal "backtrace", literal "Print backtrace of stack frame.", .monBacktrace⟩]

/-- The symbols that `print_kerninfo` shows -/
structure KernelSymbols where
  kernInit : BitVec 64
  etext : BitVec 64
  edata : BitVec 64
  kernelEnd : BitVec 64

/-- `(end - kern_init + 1023) / 1024` -/
def KernelSymbols.footprint (symbols : KernelSymbols) : BitVec 64 :=
  (symbols.kernelEnd - symbols.kernInit + 1023).sdiv 1024

/-- Calls of `cprintf` in sequence, each with a format and its arguments -/
def cprintfAll (fuel : ℕ) : List (List Byte × List VaArg) → Session Unit
  | [] => return
  | call :: calls => do
    let _ ← cprintf fuel (.literal call.1) (vaList call.2)
    cprintfAll fuel calls

/-- The calls of `mon_help` -/
def helpCalls : List (List Byte × List VaArg) :=
  commands.map fun command ↦ (literal "%s - %s\n", [.text command.name, .text command.desc])

/-- The calls of `print_kerninfo` -/
def kerninfoCalls (symbols : KernelSymbols) : List (List Byte × List VaArg) :=
  [(literal "Special kernel symbols:\n", []),
    (literal "  entry  0x%08x (virtual)\n", [.word symbols.kernInit]),
    (literal "  etext  0x%08x (virtual)\n", [.word symbols.etext]),
    (literal "  edata  0x%08x (virtual)\n", [.word symbols.edata]),
    (literal "  end    0x%08x (virtual)\n", [.word symbols.kernelEnd]),
    (literal "Kernel executable memory footprint: %dKB\n", [.word symbols.footprint])]

/-- `panic` is what `panic("Not Implemented!")` does in `print_stackframe`. -/
def CommandFunc.run (symbols : KernelSymbols) (panic : Session Unit) (fuel : ℕ) :
    CommandFunc → Session ℤ
  | monHelp => do
    cprintfAll fuel helpCalls
    return 0
  | monKerninfo => do
    cprintfAll fuel (kerninfoCalls symbols)
    return 0
  | monBacktrace => do
    panic
    return 0

/-- `strcmp` of a string literal and a string in memory -/
def strcmpLiteral (memory : ByteMemory) : List Byte → BitVec 64 → Option ℤ
  | [], s2 => do return difference 0 (← memory s2)
  | c :: s1, s2 => do
    let byte ← memory s2
    if c ≠ 0 ∧ c = byte then strcmpLiteral memory s1 (s2 + 1) else return difference c byte

/-- `parse`, with what it prints -/
def parseLine (fuel : ℕ) (buf : BitVec 64) (argv : List (BitVec 64)) : Session CommandLine := do
  let terminal ← get
  match parse fuel terminal.memory buf argv with
  | none => throw .stuck
  | some line =>
    set { terminal with memory := line.memory }
    cprintfAll fuel (line.printed.map fun warning ↦
      (literal warning.1, [.word (BitVec.ofNat 64 warning.2)]))
    return line

/-- The loop of `runcmd` -/
def runFirst (symbols : KernelSymbols) (panic : Session Unit) (fuel : ℕ) (word : BitVec 64) :
    List Command → Session ℤ
  | [] => do
    let _ ← cprintf fuel (.literal (literal "Unknown command '%s'\n")) (vaList [.word word])
    return 0
  | command :: rest => do
    match strcmpLiteral (← get).memory command.name word with
    | none => throw .stuck
    | some compared =>
      if compared = 0 then command.func.run symbols panic fuel
      else runFirst symbols panic fuel word rest

/-- `argv` is the array on the stack before it is filled. -/
def runcmd (symbols : KernelSymbols) (argv : List (BitVec 64)) (buf : BitVec 64)
    (panic : Session Unit) (fuel : ℕ) : Session ℤ := do
  let line ← parseLine fuel buf argv
  if line.argc = 0 then return 0
  else runFirst symbols panic fuel (line.argv.getD 0 0) commands

variable {symbols : KernelSymbols} {terminal : Terminal} {memory : ByteMemory} {panic : ℕ → Session Unit}
  {argv : List (BitVec 64)} {buf start : BitVec 64} {text word : List Byte}

/-! ## What is printed -/

/-- The format and the arguments that some pieces stand for -/
def callOf (pieces : List FormatPiece) : List Byte × List VaArg :=
  (pieces.flatMap FormatPiece.format, pieces.flatMap FormatPiece.slots)

def shownBy (pieces : List FormatPiece) : List Byte := pieces.flatMap FormatPiece.shown

def Command.helpLine (command : Command) : List FormatPiece :=
  [.string (.literal command.name) command.name, .text (literal " - "),
    .string (.literal command.desc) command.desc, .text (literal "\n")]

def symbolLine (name : String) (address : BitVec 64) : List FormatPiece :=
  [.text (literal name), .number .zero 8 .int .x address, .text (literal " (virtual)\n")]

def kerninfoLines (symbols : KernelSymbols) : List (List FormatPiece) :=
  [[.text (literal "Special kernel symbols:\n")],
    symbolLine "  entry  0x" symbols.kernInit, symbolLine "  etext  0x" symbols.etext,
    symbolLine "  edata  0x" symbols.edata, symbolLine "  end    0x" symbols.kernelEnd,
    [.text (literal "Kernel executable memory footprint: "),
      .number .blank 0 .int .d symbols.footprint, .text (literal "KB\n")]]

def unknownLine (s : CString) (word : List Byte) : List FormatPiece :=
  [.text (literal "Unknown command '"), .string s word, .text (literal "'\n")]

def warningLine (limit : ℕ) : List FormatPiece :=
  [.text (literal "Too many arguments (max "),
    .number .blank 0 .int .d (BitVec.ofNat 64 limit), .text (literal ").\n")]

theorem helpCalls_eq : helpCalls = (commands.map Command.helpLine).map callOf := rfl

theorem kerninfoCalls_eq (symbols : KernelSymbols) :
    kerninfoCalls symbols = (kerninfoLines symbols).map callOf := rfl

theorem unknown_eq (start : BitVec 64) (word : List Byte) :
    (literal "Unknown command '%s'\n", [.word start]) =
      callOf (unknownLine (.memory start) word) := rfl

theorem warning_eq (limit : ℕ) :
    (literal "Too many arguments (max %d).\n", [.word (BitVec.ofNat 64 limit)]) =
      callOf (warningLine limit) := rfl

theorem valid_text (memory : ByteMemory) {text : List Byte}
    (h : ∀ ch ∈ text, ch ≠ ascii '%' ∧ ch ≠ 0) : (FormatPiece.text text).Valid memory := h

theorem valid_literal (memory : ByteMemory) {text : List Byte} (hnul : 0 ∉ text)
    (hlength : text.length < 2 ^ 31 - 1) : (FormatPiece.string (.literal text) text).Valid memory :=
  ⟨by simp, hnul, hlength, reads_literal memory text⟩

theorem helpLine_valid (memory : ByteMemory) :
    ∀ command ∈ commands, ∀ piece ∈ command.helpLine, piece.Valid memory := by
  have hvalid : ∀ command : Command, 0 ∉ command.name → 0 ∉ command.desc →
      command.name.length < 2 ^ 31 - 1 → command.desc.length < 2 ^ 31 - 1 →
      ∀ piece ∈ command.helpLine, piece.Valid memory := by
    intro command hname hdesc hnameLength hdescLength
    simp only [Command.helpLine, List.forall_mem_cons]
    exact ⟨valid_literal memory hname hnameLength, valid_text memory (by decide +kernel),
      valid_literal memory hdesc hdescLength, valid_text memory (by decide +kernel),
      List.forall_mem_nil _⟩
  simp only [commands, List.forall_mem_cons]
  exact ⟨hvalid _ (by decide +kernel) (by decide +kernel) (by decide +kernel) (by decide +kernel),
    hvalid _ (by decide +kernel) (by decide +kernel) (by decide +kernel) (by decide +kernel),
    hvalid _ (by decide +kernel) (by decide +kernel) (by decide +kernel) (by decide +kernel),
    List.forall_mem_nil _⟩

theorem kerninfoLines_valid (memory : ByteMemory) (symbols : KernelSymbols) :
    ∀ line ∈ kerninfoLines symbols, ∀ piece ∈ line, piece.Valid memory := by
  simp only [kerninfoLines, symbolLine, List.forall_mem_cons]
  have hnil : ∀ piece ∈ ([] : List FormatPiece), piece.Valid memory := List.forall_mem_nil _
  refine ⟨⟨valid_text memory ?_, hnil⟩, ⟨valid_text memory ?_, trivial, valid_text memory ?_, hnil⟩,
    ⟨valid_text memory ?_, trivial, valid_text memory ?_, hnil⟩,
    ⟨valid_text memory ?_, trivial, valid_text memory ?_, hnil⟩,
    ⟨valid_text memory ?_, trivial, valid_text memory ?_, hnil⟩,
    ⟨valid_text memory ?_, trivial, valid_text memory ?_, hnil⟩, List.forall_mem_nil _⟩
  all_goals decide +kernel

theorem warningLine_valid (memory : ByteMemory) (limit : ℕ) :
    ∀ piece ∈ warningLine limit, piece.Valid memory := by
  simp only [warningLine, List.forall_mem_cons]
  exact ⟨valid_text memory (by decide +kernel), trivial, valid_text memory (by decide +kernel),
    List.forall_mem_nil _⟩

theorem unknownLine_valid (hstart : start ≠ 0) (hword : 0 ∉ word) (hlength : word.length < 2 ^ 31 - 1)
    (h : memory.Holds start (word ++ [0])) :
    ∀ piece ∈ unknownLine (.memory start) word, piece.Valid memory := by
  simp only [unknownLine, List.forall_mem_cons]
  refine ⟨valid_text memory (by decide +kernel), ⟨?_, hword, hlength, reads_memory h⟩,
    valid_text memory (by decide +kernel), List.forall_mem_nil _⟩
  intro heq
  exact hstart (CString.memory.inj heq)

/-- A call of `cprintf` with a format in pieces -/
theorem cprintf_ends {pieces : List FormatPiece}
    (hvalid : ∀ piece ∈ pieces, piece.Valid terminal.memory) :
    Ends (fun fuel ↦ cprintf fuel (.literal (callOf pieces).1) (vaList (callOf pieces).2)) terminal
      (.ok (int32 (shownBy pieces).length) (terminal.show (shownBy pieces))) :=
  vcprintf_ends (literal_pieces pieces hvalid)

theorem cprintfAll_ends {lines : List (List FormatPiece)}
    (hvalid : ∀ line ∈ lines, ∀ piece ∈ line, piece.Valid terminal.memory) :
    Ends (fun fuel ↦ cprintfAll fuel (lines.map callOf)) terminal
      (.ok () (terminal.show (lines.flatMap shownBy))) := by
  induction lines generalizing terminal with
  | nil =>
    apply Ends.of_eq
    intro fuel
    rw [List.flatMap_nil, show_nil]
    rfl
  | cons line lines ih =>
    obtain ⟨hline, hlines⟩ := List.forall_mem_cons.mp hvalid
    let following (fuel : ℕ) (_ : ℤ) := cprintfAll fuel (lines.map callOf)
    have hrest : Ends (fun fuel ↦ following fuel (int32 (shownBy line).length))
        (terminal.show (shownBy line)) _ := ih hlines
    rw [show_show, ← List.flatMap_cons] at hrest
    exact (cprintf_ends hline).bind hrest

/-! ## The commands -/

/-- What a command shows -/
def CommandFunc.shows (symbols : KernelSymbols) : CommandFunc → List Byte
  | monHelp => (commands.map Command.helpLine).flatMap shownBy
  | monKerninfo => (kerninfoLines symbols).flatMap shownBy
  | monBacktrace => []

/-- A command that does not panic shows its text and returns. -/
theorem run_ends {func : CommandFunc} (hfunc : func ≠ .monBacktrace) :
    Ends (fun fuel ↦ func.run symbols (panic fuel) fuel) terminal
      (.ok 0 (terminal.show (func.shows symbols))) := by
  let following (_ : ℕ) (_ : Unit) : Session ℤ := pure 0
  cases func with
  | monHelp =>
    have hlines : ∀ line ∈ commands.map Command.helpLine, ∀ piece ∈ line,
        piece.Valid terminal.memory := by
      intro line hline
      obtain ⟨command, hcommand, rfl⟩ := List.mem_map.mp hline
      exact helpLine_valid terminal.memory command hcommand
    have hrest : Ends (fun fuel ↦ following fuel ())
        (terminal.show (CommandFunc.monHelp.shows symbols)) _ := Ends.of_eq fun _ ↦ rfl
    have hboth := (cprintfAll_ends hlines).bind hrest
    rw [← helpCalls_eq] at hboth
    exact hboth
  | monKerninfo =>
    have hrest : Ends (fun fuel ↦ following fuel ())
        (terminal.show (CommandFunc.monKerninfo.shows symbols)) _ := Ends.of_eq fun _ ↦ rfl
    have hboth := (cprintfAll_ends (kerninfoLines_valid terminal.memory symbols)).bind hrest
    rw [← kerninfoCalls_eq] at hboth
    exact hboth
  | monBacktrace => exact absurd rfl hfunc

theorem strcmpLiteral_eq {s1 : List Byte} {s2 : BitVec 64} (hs1 : 0 ∉ s1) :
    strcmpLiteral memory s1 s2 = (strcmp memory s2 s1).map fun compared ↦ -compared := by
  have hneg : ∀ byte c : Byte, difference c byte = -difference byte c :=
    fun byte c ↦ (neg_sub (byte.toNat : ℤ) c.toNat).symm
  induction s1 generalizing s2 with
  | nil =>
    rw [strcmpLiteral, strcmp]
    cases memory s2 with
    | none => rfl
    | some byte => exact congrArg some (hneg byte 0)
  | cons c s1 ih =>
    rw [List.mem_cons, not_or] at hs1
    rw [strcmpLiteral, strcmp]
    cases memory s2 with
    | none => rfl
    | some byte =>
      simp only [Option.bind_eq_bind, Option.bind_some]
      by_cases hsame : c = byte
      · subst hsame
        rw [if_pos ⟨Ne.symm hs1.1, rfl⟩, if_pos ⟨Ne.symm hs1.1, rfl⟩]
        exact ih hs1.2
      · rw [if_neg fun h ↦ hsame h.2, if_neg fun h ↦ hsame h.2.symm]
        exact congrArg some (hneg byte c)

/-- A literal is compared with the word to the end of either. -/
theorem strcmpLiteral_word {name : List Byte} (hname : 0 ∉ name) (hword : 0 ∉ word)
    (h : memory.Holds start (word ++ [0])) :
    ∃ compared, strcmpLiteral memory name start = some compared ∧ (compared = 0 ↔ name = word) := by
  obtain ⟨compared, hcompared, hiff⟩ := strcmp_eq h hword hname
  refine ⟨-compared, ?_, ?_⟩
  · rw [strcmpLiteral_eq hname, hcompared]
    rfl
  · rw [neg_eq_zero, hiff, eq_comm]

/-- What `runcmd` shows for a command line and whether it panics then -/
structure Reply where
  bytes : List Byte
  panics : Bool

/-- The reply to the first word of a line -/
def wordReply (symbols : KernelSymbols) (word : List Byte) (list : List Command) : Reply :=
  match list.find? (·.name = word) with
  | none => ⟨shownBy (unknownLine (.literal word) word), false⟩
  | some command => ⟨command.func.shows symbols, command.func = .monBacktrace⟩

/-- A program shows a reply and returns `0`, or it panics after that. -/
def Replies (program : ℕ → Session ℤ) (panic : ℕ → Session Unit) (terminal after : Terminal)
    (reply : Reply) : Prop :=
  if reply.panics then ∀ fault final, Ends panic (after.show reply.bytes) (.error fault final) →
    Ends program terminal (.error fault final)
  else Ends program terminal (.ok 0 (after.show reply.bytes))

theorem Replies.congr {program program' : ℕ → Session ℤ} {after terminal' : Terminal} {reply : Reply}
    (heq : ∀ fuel, program fuel terminal = program' fuel terminal')
    (h : Replies program' panic terminal' after reply) : Replies program panic terminal after reply := by
  rw [Replies] at h ⊢
  split_ifs at h ⊢
  · exact fun fault final hpanic ↦ (h fault final hpanic).congr heq
  · exact h.congr heq

theorem Replies.bind {α : Type} {first : ℕ → Session α} {next : ℕ → α → Session ℤ} {value : α}
    {terminal' after : Terminal} {reply : Reply} (hfirst : Ends first terminal (.ok value terminal'))
    (h : Replies (fun fuel ↦ next fuel value) panic terminal' after reply) :
    Replies (fun fuel ↦ first fuel >>= next fuel) panic terminal after reply := by
  rw [Replies] at h ⊢
  split_ifs at h ⊢
  · exact fun fault final hpanic ↦ hfirst.bind (h fault final hpanic)
  · exact hfirst.bind h

/-- What is shown before a reply is a part of it. -/
theorem Replies.shown {program : ℕ → Session ℤ} {after : Terminal} {reply : Reply} {bytes : List Byte}
    (h : Replies program panic terminal (after.show bytes) reply) :
    Replies program panic terminal after { reply with bytes := bytes ++ reply.bytes } := by
  rw [Replies, show_show] at h
  exact h

/-- A command that the line names -/
theorem run_replies (func : CommandFunc) :
    Replies (fun fuel ↦ func.run symbols (panic fuel) fuel) panic terminal terminal
      ⟨func.shows symbols, func = .monBacktrace⟩ := by
  rw [Replies]
  split
  · rename_i hpanics
    obtain rfl := of_decide_eq_true hpanics
    intro fault final hpanic
    let following (_ : ℕ) (_ : Unit) : Session ℤ := pure 0
    have hboth : Ends (fun fuel ↦ panic fuel >>= following fuel)
        (terminal.show (CommandFunc.monBacktrace.shows symbols)) (.error fault final) :=
      hpanic.bind_error
    rw [show CommandFunc.monBacktrace.shows symbols = [] from rfl, show_nil] at hboth
    exact hboth
  · rename_i hreturns
    exact run_ends fun hfunc ↦ hreturns (decide_eq_true hfunc)

theorem runFirst_replies {list : List Command} (hlist : ∀ command ∈ list, 0 ∉ command.name)
    (hstart : start ≠ 0) (hword : 0 ∉ word) (hlength : word.length < 2 ^ 31 - 1)
    (h : terminal.memory.Holds start (word ++ [0])) :
    Replies (fun fuel ↦ runFirst symbols (panic fuel) fuel start list) panic terminal terminal
      (wordReply symbols word list) := by
  induction list with
  | nil =>
    let following (_ : ℕ) (_ : ℤ) : Session ℤ := pure 0
    have hrest : Ends (fun fuel ↦ following fuel (int32 (shownBy (unknownLine (.memory start)
        word)).length)) (terminal.show (shownBy (unknownLine (.memory start) word))) _ :=
      Ends.of_eq fun _ ↦ rfl
    have hboth := (cprintf_ends (unknownLine_valid hstart hword hlength h)).bind hrest
    rw [← unknown_eq] at hboth
    exact hboth
  | cons command list ih =>
    obtain ⟨hname, hlist⟩ := List.forall_mem_cons.mp hlist
    obtain ⟨compared, hcompared, hiff⟩ := strcmpLiteral_word hname hword h
    have hround : ∀ fuel, runFirst symbols (panic fuel) fuel start (command :: list) terminal =
        if compared = 0 then command.func.run symbols (panic fuel) fuel terminal
        else runFirst symbols (panic fuel) fuel start list terminal := by
      intro fuel
      rw [runFirst, bind_get, hcompared]
      dsimp only
      split
      · rfl
      · rfl
    by_cases hsame : command.name = word
    · have hfound : wordReply symbols word (command :: list) =
          ⟨command.func.shows symbols, command.func = .monBacktrace⟩ := by
        rw [wordReply, List.find?_cons_of_pos (by simpa using hsame)]
      rw [hfound]
      apply (run_replies command.func).congr
      intro fuel
      rw [hround, if_pos (hiff.mpr hsame)]
    · have hskipped : wordReply symbols word (command :: list) = wordReply symbols word list := by
        rw [wordReply, List.find?_cons_of_neg (by simpa using hsame), wordReply]
      rw [hskipped]
      apply (ih hlist).congr
      intro fuel
      rw [hround, if_neg (mt hiff.mp hsame)]

/-! ## Whole command lines -/

/-- What `parse` prints for a number of words -/
def warningLines (count : ℕ) : List (List FormatPiece) :=
  if MAXARGS ≤ count then [warningLine MAXARGS] else []

theorem warnings_eq (count : ℕ) : (warnings 0 count).map (fun warning ↦
      (literal warning.1, [VaArg.word (BitVec.ofNat 64 warning.2)])) =
    (warningLines count).map callOf := by
  unfold warnings warningLines
  by_cases h : MAXARGS ≤ count
  · rw [if_pos ⟨by decide, by omega⟩, if_pos h]
    exact congrArg (fun call ↦ [call]) (warning_eq MAXARGS)
  · rw [if_neg (by omega), if_neg h]
    rfl

/-- The reply to a line that does not have too many words -/
def lineReply (symbols : KernelSymbols) (text : List Byte) : Reply :=
  match words text with
  | [] => ⟨[], false⟩
  | (_, word) :: rest =>
    let reply := wordReply symbols word commands
    { reply with bytes := (warningLines (rest.length + 1)).flatMap shownBy ++ reply.bytes }

/-- The terminal after a line has been split -/
def afterSplit (terminal : Terminal) (buf : BitVec 64) (text : List Byte) : Terminal :=
  { terminal with memory := cleared terminal.memory buf text }

theorem parseLine_eq (fuel : ℕ) (buf : BitVec 64) (argv : List (BitVec 64)) (terminal : Terminal) :
    parseLine fuel buf argv terminal =
      match parse fuel terminal.memory buf argv with
      | none => .error .stuck terminal
      | some line =>
        (do
          cprintfAll fuel (line.printed.map fun warning ↦
            (literal warning.1, [.word (BitVec.ofNat 64 warning.2)]))
          return line : Session CommandLine) { terminal with memory := line.memory } := by
  unfold parseLine
  rw [bind_get]
  cases parse fuel terminal.memory buf argv with
  | none => rfl
  | some line => rfl

theorem parseLine_ends (hline : terminal.memory.Holds buf (text ++ [0])) (hfree : 0 ∉ text)
    (hwords : (words text).length ≤ argv.length) :
    Ends (fun fuel ↦ parseLine fuel buf argv) terminal
      (.ok
        { memory := cleared terminal.memory buf text
          argv := pointers buf (words text) ++ argv.drop (words text).length
          argc := (words text).length
          printed := warnings 0 (words text).length }
        ((afterSplit terminal buf text).show ((warningLines (words text).length).flatMap shownBy))) := by
  let line : CommandLine :=
    { memory := cleared terminal.memory buf text
      argv := pointers buf (words text) ++ argv.drop (words text).length
      argc := (words text).length
      printed := warnings 0 (words text).length }
  have hvalid : ∀ line ∈ warningLines (words text).length, ∀ piece ∈ line,
      piece.Valid (afterSplit terminal buf text).memory := by
    intro line hmem
    unfold warningLines at hmem
    split_ifs at hmem
    · rw [List.mem_singleton.mp hmem]
      exact warningLine_valid _ MAXARGS
    · cases hmem
  let following (_ : ℕ) (_ : Unit) : Session CommandLine := pure line
  have hrest : Ends (fun fuel ↦ following fuel ())
      ((afterSplit terminal buf text).show ((warningLines (words text).length).flatMap shownBy)) _ :=
    Ends.of_eq fun _ ↦ rfl
  have hprint : Ends (fun fuel ↦ cprintfAll fuel ((warningLines (words text).length).map callOf) >>=
      following fuel) (afterSplit terminal buf text) _ := (cprintfAll_ends hvalid).bind hrest
  rw [← warnings_eq] at hprint
  obtain ⟨enough, hprint⟩ := hprint
  refine ⟨max enough (text.length + 1), fun fuel hfuel ↦ ?_⟩
  have hparse := parse_eq argv hline hfree (show text.length < fuel by omega)
  rw [if_pos hwords] at hparse
  change parseLine fuel buf argv terminal = _
  rw [parseLine_eq, hparse]
  exact hprint fuel (by omega)

/-- A line of more words than the array has entries overruns it. -/
theorem parseLine_stuck (hline : terminal.memory.Holds buf (text ++ [0])) (hfree : 0 ∉ text)
    (hwords : argv.length < (words text).length) :
    Ends (fun fuel ↦ parseLine fuel buf argv) terminal (.error .stuck terminal) := by
  refine ⟨text.length + 1, fun fuel hfuel ↦ ?_⟩
  have hparse := parse_eq argv hline hfree hfuel
  rw [if_neg (by omega)] at hparse
  change parseLine fuel buf argv terminal = _
  rw [parseLine_eq, hparse]

theorem commands_free : ∀ command ∈ commands, 0 ∉ command.name := by
  simp only [commands, List.forall_mem_cons]
  exact ⟨by decide, by decide, by decide, List.forall_mem_nil _⟩

/-- `runcmd` replies to the first word of the line. -/
theorem runcmd_replies (hbuf : buf ≠ 0) (hend : buf.toNat + text.length < 2 ^ 64)
    (hlength : text.length < 2 ^ 31 - 1) (hline : terminal.memory.Holds buf (text ++ [0]))
    (hfree : 0 ∉ text) (hwords : (words text).length ≤ argv.length) :
    Replies (fun fuel ↦ runcmd symbols argv buf (panic fuel) fuel) panic terminal
      (afterSplit terminal buf text) (lineReply symbols text) := by
  have hsplit := parseLine_ends hline hfree hwords
  let next (fuel : ℕ) (line : CommandLine) : Session ℤ :=
    if line.argc = 0 then return 0
    else runFirst symbols (panic fuel) fuel (line.argv.getD 0 0) commands
  cases hfound : words text with
  | nil =>
    rw [lineReply, hfound]
    rw [hfound] at hsplit
    change Replies (fun fuel ↦ parseLine fuel buf argv >>= next fuel) panic terminal _ _
    apply Replies.bind hsplit
    apply Ends.of_eq
    intro fuel
    simp [next, warningLines, MAXARGS, pure, EStateM.pure]
  | cons found rest =>
    obtain ⟨offset, word⟩ := found
    have hpiece : IsPiece isBlank text (offset, word) := by
      rw [← mem_pieces]
      change (offset, word) ∈ words text
      rw [hfound]
      exact List.mem_cons_self
    have hholds := cleared_isPiece hline (by omega) hpiece
    obtain ⟨before, behind, htext, hbefore, -⟩ := hpiece
    have hinside : before.length + word.length ≤ text.length := by
      rw [htext]
      simp only [List.length_append]
      omega
    have hword : 0 ∉ word := by
      intro hmem
      apply hfree
      rw [htext]
      exact List.mem_append_right _ (List.mem_append_left _ hmem)
    have hstart : buf + BitVec.ofNat 64 offset ≠ 0 := by
      have hpos : buf.toNat ≠ 0 := fun hzero ↦ hbuf (BitVec.eq_of_toNat_eq hzero)
      intro hzero
      have hvalue : (buf + BitVec.ofNat 64 offset).toNat = 0 := congrArg BitVec.toNat hzero
      rw [BitVec.toNat_add, BitVec.toNat_ofNat] at hvalue
      omega
    have hsmall : word.length < 2 ^ 31 - 1 := by omega
    rw [lineReply, hfound]
    rw [hfound] at hsplit
    change Replies (fun fuel ↦ parseLine fuel buf argv >>= next fuel) panic terminal _ _
    apply Replies.bind hsplit
    apply Replies.shown
    exact runFirst_replies commands_free hstart hword hsmall hholds

end Ucore.Kmonitor
