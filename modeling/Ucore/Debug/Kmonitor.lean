import Ucore.Foundation.Pieces
import Ucore.Libs.String

/-!
# Splitting a command line (`kern/debug/kmonitor.c`)

`parse` overwrites the blanks of the line that it reads and stores a pointer to each word in an array of
the caller. The array is a list here, and a store outside of it has no result.
-/

namespace Ucore.Kmonitor

open Foundation ByteMemory

def MAXARGS : ℕ := 16

/-- `" \t\n\r"` -/
def WHITESPACE : List Byte := [0x20, 0x09, 0x0a, 0x0d]

/-- The memory, the array of the caller and what `cprintf` is called with -/
structure CommandLine where
  memory : ByteMemory
  argv : List (BitVec 64)
  argc : ℕ
  printed : List (String × ℕ)

/-- The first inner loop of `parse` -/
def skipBlanks : ℕ → ByteMemory → BitVec 64 → Option (ByteMemory × BitVec 64)
  | 0, _, _ => none
  | fuel + 1, memory, buf => do
    let byte ← memory buf
    if byte ≠ 0 ∧ strchr WHITESPACE byte ≠ none then
      let memory ← memory.store buf 0
      skipBlanks fuel memory (buf + 1)
    else return (memory, buf)

/-- The second one -/
def scanWord : ℕ → ByteMemory → BitVec 64 → Option (BitVec 64)
  | 0, _, _ => none
  | fuel + 1, memory, buf => do
    let byte ← memory buf
    if byte ≠ 0 ∧ strchr WHITESPACE byte = none then scanWord fuel memory (buf + 1) else return buf

/-- `argv[argc ++] = buf` -/
def CommandLine.store (line : CommandLine) (buf : BitVec 64) : Option CommandLine :=
  if line.argc < line.argv.length then
    some { line with argv := line.argv.set line.argc buf, argc := line.argc + 1 }
  else none

/-- The capacity is looked at, but the word is stored all the same. -/
def CommandLine.warn (line : CommandLine) : CommandLine :=
  if line.argc = MAXARGS - 1 then
    { line with printed := line.printed ++ [("Too many arguments (max %d).\n", MAXARGS)] }
  else line

def parseFrom : ℕ → CommandLine → BitVec 64 → Option CommandLine
  | 0, _, _ => none
  | fuel + 1, line, buf => do
    let (memory, buf) ← skipBlanks (fuel + 1) line.memory buf
    let line := { line with memory := memory }
    if (← memory buf) = 0 then return line
    let line ← line.warn.store buf
    let buf ← scanWord (fuel + 1) memory buf
    parseFrom fuel line buf

def parse (fuel : ℕ) (memory : ByteMemory) (buf : BitVec 64) (argv : List (BitVec 64)) :
    Option CommandLine :=
  parseFrom fuel { memory := memory, argv := argv, argc := 0, printed := [] } buf

def isBlank (byte : Byte) : Bool := WHITESPACE.contains byte

/-! ## Blanks that are overwritten -/

/-- The memory whose blanks among the bytes `text` from `buf` on are NUL -/
def cleared (memory : ByteMemory) (buf : BitVec 64) : List Byte → ByteMemory
  | [] => memory
  | byte :: text =>
    cleared (if isBlank byte then Function.update memory buf (some 0) else memory) (buf + 1) text

variable {memory : ByteMemory} {buf address : BitVec 64} {text gap word rest : List Byte}
  {byte : Byte} {fuel offset : ℕ} {line : CommandLine}

theorem cleared_append (memory : ByteMemory) (buf : BitVec 64) (text rest : List Byte) :
    cleared memory buf (text ++ rest) =
      cleared (cleared memory buf text) (buf + BitVec.ofNat 64 text.length) rest := by
  induction text generalizing memory buf with
  | nil => rw [List.nil_append, cleared, List.length_nil, BitVec.add_zero]
  | cons byte text ih => rw [List.cons_append, cleared, ih, add_succ, cleared, List.length_cons]

theorem cleared_word (hword : ∀ byte ∈ word, ¬ isBlank byte) : cleared memory buf word = memory := by
  induction word generalizing buf with
  | nil => rfl
  | cons byte word ih =>
    rw [cleared, if_neg (hword byte List.mem_cons_self)]
    exact ih fun later hlater ↦ hword later (List.mem_cons_of_mem byte hlater)

theorem cleared_of_le (h : text.length ≤ (address - buf).toNat) :
    cleared memory buf text address = memory address := by
  induction text generalizing memory buf with
  | nil => rfl
  | cons byte text ih =>
    rw [List.length_cons] at h
    have hne : address ≠ buf := by
      rintro rfl
      rw [BitVec.sub_self] at h
      exact Nat.not_succ_le_zero _ h
    obtain ⟨-, hdistance⟩ := sub_succ hne
    rw [cleared, ih (by omega)]
    split
    · exact Function.update_of_ne hne _ _
    · rfl

theorem cleared_of_lt (hlength : text.length ≤ 2 ^ 64) (h : offset < text.length) :
    cleared memory buf text (buf + BitVec.ofNat 64 offset) =
      if isBlank text[offset] then some 0 else memory (buf + BitVec.ofNat 64 offset) := by
  induction text generalizing memory buf offset with
  | nil => cases h
  | cons byte text ih =>
    rw [List.length_cons] at h hlength
    cases offset with
    | zero =>
      rw [BitVec.add_zero, cleared, cleared_of_le (by rw [self_sub_succ]; omega)]
      by_cases hblank : isBlank byte
      · simp [hblank]
      · simp [hblank]
    | succ offset =>
      have hne : buf + BitVec.ofNat 64 (offset + 1) ≠ buf := by
        intro heq
        have hdistance := offset_sub buf (show offset + 1 < 2 ^ 64 by omega)
        rw [heq, BitVec.sub_self] at hdistance
        cases hdistance
      rw [cleared, ← add_succ, ih (by omega) (by omega), List.getElem_cons_succ, add_succ]
      by_cases hblank : isBlank byte
      · rw [if_pos hblank, Function.update_of_ne hne]
      · rw [if_neg hblank]

/-- The bytes behind those that were looked at -/
theorem cleared_holds (h : memory.Holds buf (gap ++ rest))
    (hlength : gap.length + rest.length ≤ 2 ^ 64) :
    (cleared memory buf gap).Holds (buf + BitVec.ofNat 64 gap.length) rest := by
  apply (holds_append.mp h).2.congr
  intro offset hoffset
  apply cleared_of_le
  rw [BitVec.add_assoc, ← BitVec.ofNat_add, offset_sub buf (by omega)]
  exact Nat.le_add_right _ _

/-! ## The inner loops -/

theorem isBlank_iff : isBlank byte ↔ byte ≠ 0 ∧ strchr WHITESPACE byte ≠ none := by
  rw [strchr_ne_none, isBlank, List.contains_iff_mem]
  refine ⟨fun h ↦ ⟨?_, h⟩, And.right⟩
  rintro rfl
  revert h
  decide

/-- A character of a word is neither blank nor NUL. -/
def InWord (byte : Byte) : Prop := byte ≠ 0 ∧ ¬ isBlank byte

theorem inWord_iff : InWord byte ↔ byte ≠ 0 ∧ strchr WHITESPACE byte = none := by
  unfold InWord
  rw [isBlank_iff]
  tauto

theorem skipBlanks_eq (fuel : ℕ) (hgap : memory.Holds buf (gap ++ [byte])) (hlength : gap.length < 2 ^ 64)
    (hblank : ∀ blank ∈ gap, isBlank blank) (hbyte : ¬ isBlank byte) :
    skipBlanks fuel memory buf = if gap.length < fuel then
      some (cleared memory buf gap, buf + BitVec.ofNat 64 gap.length) else none := by
  induction gap generalizing fuel memory buf with
  | nil =>
    cases fuel with
    | zero => rfl
    | succ fuel =>
      obtain ⟨hread, -⟩ := hgap
      rw [isBlank_iff] at hbyte
      rw [skipBlanks, hread, Option.bind_eq_bind, Option.bind_some, if_neg hbyte, List.length_nil,
        if_pos (Nat.succ_pos fuel), cleared, BitVec.add_zero]
      rfl
  | cons blank gap ih =>
    cases fuel with
    | zero => rfl
    | succ fuel =>
      rw [List.cons_append, holds_cons] at hgap
      obtain ⟨hread, hrest⟩ := hgap
      obtain ⟨hfirst, hblank⟩ := List.forall_mem_cons.mp hblank
      rw [List.length_cons] at hlength
      have hkept : Holds (Function.update memory buf (some 0)) (buf + 1) (gap ++ [byte]) := by
        apply hrest.update
        rw [self_sub_succ, List.length_append, List.length_singleton]
        omega
      have hnext := ih fuel hkept (by omega) hblank
      rw [skipBlanks, hread, Option.bind_eq_bind, Option.bind_some,
        if_pos (isBlank_iff.mp hfirst), store_eq (by rw [hread]; rfl), Option.bind_eq_bind,
        Option.bind_some, hnext, cleared, if_pos hfirst, List.length_cons, add_succ]
      simp only [Nat.add_lt_add_iff_right]

theorem scanWord_eq (fuel : ℕ) (hword : memory.Holds buf (word ++ [byte]))
    (hinside : ∀ char ∈ word, InWord char) (hbyte : ¬ InWord byte) :
    scanWord fuel memory buf =
      if word.length < fuel then some (buf + BitVec.ofNat 64 word.length) else none := by
  induction word generalizing fuel buf with
  | nil =>
    cases fuel with
    | zero => rfl
    | succ fuel =>
      obtain ⟨hread, -⟩ := hword
      rw [inWord_iff] at hbyte
      rw [scanWord, hread, Option.bind_eq_bind, Option.bind_some, if_neg hbyte, List.length_nil,
        if_pos (Nat.succ_pos fuel), BitVec.add_zero]
      rfl
  | cons char word ih =>
    cases fuel with
    | zero => rfl
    | succ fuel =>
      obtain ⟨hread, hrest⟩ := hword
      obtain ⟨hfirst, hinside⟩ := List.forall_mem_cons.mp hinside
      rw [scanWord, hread, Option.bind_eq_bind, Option.bind_some, if_pos (inWord_iff.mp hfirst),
        ih fuel hrest hinside, List.length_cons, add_succ]
      simp only [Nat.add_lt_add_iff_right]

/-! ## One round of the outer loop -/

/-- The round that finds the end of the line -/
theorem parseFrom_end (h : line.memory.Holds buf (gap ++ [0])) (hlength : gap.length < 2 ^ 64)
    (hgap : ∀ blank ∈ gap, isBlank blank) : parseFrom (fuel + 1) line buf =
      if gap.length < fuel + 1 then some { line with memory := cleared line.memory buf gap }
      else none := by
  have hzero : ¬ isBlank 0 := by decide
  rw [parseFrom, skipBlanks_eq _ h hlength hgap hzero]
  by_cases hfuel : gap.length < fuel + 1
  · have hread : cleared line.memory buf gap (buf + BitVec.ofNat 64 gap.length) = some 0 := by
      rw [cleared_of_le (Nat.le_of_eq (offset_sub buf hlength).symm)]
      exact (holds_append.mp h).2.1
    rw [if_pos hfuel, if_pos hfuel]
    simp only [Option.bind_eq_bind, Option.bind_some, hread]
    rfl
  · rw [if_neg hfuel, if_neg hfuel]
    rfl

/-- A round that stores a word -/
theorem parseFrom_word (h : line.memory.Holds buf (gap ++ (word ++ [byte])))
    (hlength : gap.length + word.length < 2 ^ 64) (hgap : ∀ blank ∈ gap, isBlank blank)
    (hne : word ≠ []) (hword : ∀ char ∈ word, InWord char) (hbyte : ¬ InWord byte) :
    parseFrom (fuel + 1) line buf = if gap.length < fuel + 1 ∧ word.length < fuel + 1 then
      (CommandLine.store (CommandLine.warn { line with memory := cleared line.memory buf gap })
          (buf + BitVec.ofNat 64 gap.length)).bind fun line ↦
        parseFrom fuel line (buf + BitVec.ofNat 64 (gap ++ word).length)
      else none := by
  have hlong : gap.length + (word ++ [byte]).length ≤ 2 ^ 64 := by
    rw [List.length_append, List.length_singleton]
    omega
  have hbehind := cleared_holds h hlong
  obtain ⟨char, others, rfl⟩ := List.exists_cons_of_ne_nil hne
  have hchar := hword char List.mem_cons_self
  have hfirst : line.memory.Holds buf (gap ++ [char]) := by
    apply h.of_initial
    rw [List.prefix_append_right_inj]
    exact List.cons_prefix_cons.mpr ⟨rfl, List.nil_prefix⟩
  have hread := hbehind.1
  have hscan := scanWord_eq (fuel + 1) hbehind hword hbyte
  rw [parseFrom, skipBlanks_eq _ hfirst (by omega) hgap hchar.2]
  by_cases hfuel : gap.length < fuel + 1
  · rw [if_pos hfuel]
    simp only [Option.bind_eq_bind, Option.bind_some, hread, hscan]
    rw [if_neg hchar.1]
    by_cases hscanned : (char :: others).length < fuel + 1
    · rw [if_pos hscanned, if_pos ⟨hfuel, hscanned⟩]
      simp only [Option.bind_some, BitVec.add_assoc, ← BitVec.ofNat_add, List.length_append]
    · rw [if_neg hscanned, if_neg (hscanned ∘ And.right)]
      simp
  · rw [if_neg hfuel, if_neg (hfuel ∘ And.left)]
    rfl

/-- What a round leaves of the line -/
theorem parseFrom_round (fuel : ℕ) (h : line.memory.Holds buf (gap ++ (word ++ rest) ++ [0]))
    (hlength : (gap ++ (word ++ rest)).length < 2 ^ 64) (hgap : ∀ blank ∈ gap, isBlank blank)
    (hne : word ≠ []) (hword : ∀ char ∈ word, InWord char) (hrest : ∀ b ∈ rest.head?, isBlank b) :
    (parseFrom (fuel + 1) line buf = if gap.length < fuel + 1 ∧ word.length < fuel + 1 then
      (CommandLine.store (CommandLine.warn { line with memory := cleared line.memory buf gap })
          (buf + BitVec.ofNat 64 gap.length)).bind fun line ↦
        parseFrom fuel line (buf + BitVec.ofNat 64 (gap ++ word).length)
      else none) ∧
    (cleared line.memory buf gap).Holds (buf + BitVec.ofNat 64 (gap ++ word).length)
      (rest ++ [0]) := by
  have hsplit : gap ++ (word ++ rest) ++ [0] = gap ++ word ++ (rest ++ [0]) := by simp
  have hcleared : cleared line.memory buf (gap ++ word) = cleared line.memory buf gap := by
    rw [cleared_append, cleared_word fun char hchar ↦ (hword char hchar).2]
  simp only [List.length_append] at hlength
  constructor
  · obtain ⟨byte, others, hothers, hbyte⟩ :
        ∃ byte others, rest ++ [0] = byte :: others ∧ ¬ InWord byte := by
      cases rest with
      | nil => exact ⟨0, [], rfl, fun hin ↦ hin.1 rfl⟩
      | cons byte rest => exact ⟨byte, rest ++ [0], rfl, fun hin ↦ hin.2 (hrest byte rfl)⟩
    apply parseFrom_word _ (by omega) hgap hne hword hbyte
    apply h.of_initial
    refine ⟨others, ?_⟩
    rw [hsplit, hothers]
    simp
  · rw [hsplit] at h
    rw [← hcleared]
    apply cleared_holds h
    simp only [List.length_append, List.length_singleton]
    omega

/-! ## The array of the caller -/

/-- The entries stored so far and those that are left -/
def CommandLine.Stored (line : CommandLine) (stored room : List (BitVec 64)) : Prop :=
  line.argv = stored ++ room ∧ line.argc = stored.length

/-- What is printed while `count` words more are stored -/
def warnings (argc count : ℕ) : List (String × ℕ) :=
  if argc < MAXARGS ∧ MAXARGS ≤ argc + count then
    [("Too many arguments (max %d).\n", MAXARGS)] else []

variable {stored room : List (BitVec 64)} {entry : BitVec 64}

theorem warn_eq (line : CommandLine) :
    line.warn = { line with printed := line.printed ++ warnings line.argc 1 } := by
  unfold CommandLine.warn warnings
  by_cases h : line.argc = MAXARGS - 1
  · rw [if_pos h, h]
    rfl
  · have hother : ¬ (line.argc < MAXARGS ∧ MAXARGS ≤ line.argc + 1) := by
      unfold MAXARGS at h ⊢
      omega
    rw [if_neg h, if_neg hother, List.append_nil]

theorem warnings_append (argc count : ℕ) :
    warnings argc 1 ++ warnings (argc + 1) count = warnings argc (count + 1) := by
  unfold warnings MAXARGS
  split_ifs <;> first | rfl | omega

theorem store_eq_some (h : line.Stored stored (entry :: room)) (buf : BitVec 64) :
    line.warn.store buf = some { line with
      argv := stored ++ buf :: room, argc := stored.length + 1,
      printed := line.printed ++ warnings stored.length 1 } := by
  obtain ⟨hargv, hargc⟩ := h
  have hinside : stored.length < (stored ++ entry :: room).length := by simp
  rw [warn_eq, CommandLine.store, hargv, hargc, if_pos hinside]
  simp

theorem store_eq_none (h : line.Stored stored []) (buf : BitVec 64) :
    line.warn.store buf = none := by
  obtain ⟨hargv, hargc⟩ := h
  have houtside : ¬ stored.length < (stored ++ []).length := by simp
  rw [warn_eq, CommandLine.store, hargv, hargc, if_neg houtside]

/-! ## Whole lines -/

/-- The words of a line and where they begin -/
abbrev words (text : List Byte) : List (ℕ × List Byte) := pieces isBlank text

def pointers (buf : BitVec 64) (list : List (ℕ × List Byte)) : List (BitVec 64) :=
  list.map fun found ↦ buf + BitVec.ofNat 64 found.1

theorem pointers_shift (distance : ℕ) (list : List (ℕ × List Byte)) :
    pointers buf (list.map (shiftPiece distance)) =
      pointers (buf + BitVec.ofNat 64 distance) list := by
  unfold pointers
  rw [List.map_map]
  apply List.map_congr_left
  intro found _
  rw [Function.comp, shiftPiece, BitVec.add_assoc, ← BitVec.ofNat_add, Nat.add_comm]

/-- Every word is stored while there is room for it. -/
theorem parseFrom_eq (h : line.memory.Holds buf (text ++ [0])) (hfree : 0 ∉ text)
    (hlength : text.length < 2 ^ 64) (hfuel : text.length < fuel) (hstored : line.Stored stored room) :
    parseFrom fuel line buf = if (words text).length ≤ room.length then
      some
        { memory := cleared line.memory buf text
          argv := stored ++ (pointers buf (words text) ++ room.drop (words text).length)
          argc := stored.length + (words text).length
          printed := line.printed ++ warnings stored.length (words text).length }
      else none := by
  induction fuel generalizing line buf text stored room with
  | zero => cases hfuel
  | succ fuel ih =>
    rcases exists_piece isBlank text with hall | ⟨gap, word, rest, rfl, hgap, hne, hword, hrest⟩
    · have hnone : words text = [] := by
        have hpieces := pieces_gap hall []
        rw [List.append_nil] at hpieces
        exact hpieces
      rw [parseFrom_end h hlength hall, if_pos hfuel, hnone, List.length_nil,
        if_pos (Nat.zero_le _), hstored.1, hstored.2, Nat.add_zero, List.drop_zero]
      have hsilent : warnings stored.length 0 = [] := by
        unfold warnings
        apply if_neg
        omega
      rw [hsilent, List.append_nil]
      rfl
    · have hinside : ∀ char ∈ word, InWord char := by
        intro char hchar
        refine ⟨?_, hword char hchar⟩
        rintro rfl
        exact hfree (List.mem_append_right gap (List.mem_append_left rest hchar))
      have hwords : words (gap ++ (word ++ rest)) =
          (gap.length, word) :: (words rest).map (shiftPiece (gap ++ word).length) := by
        rw [words, pieces_gap hgap, pieces_piece hne hword hrest, List.map_cons,
          shiftPiece_shiftPiece, List.length_append, Nat.add_comm gap.length, shiftPiece,
          Nat.zero_add]
      obtain ⟨hround, hbehind⟩ := parseFrom_round fuel h hlength hgap hne hinside hrest
      have hpos := List.length_pos_iff.mpr hne
      have hrestfree : 0 ∉ rest := fun hmem ↦
        hfree (List.mem_append_right gap (List.mem_append_right word hmem))
      simp only [List.length_append] at hlength hfuel
      have hscanned : gap.length < fuel + 1 ∧ word.length < fuel + 1 := by omega
      have hcleared : cleared line.memory buf (gap ++ (word ++ rest)) =
          cleared (cleared line.memory buf gap) (buf + BitVec.ofNat 64 (gap ++ word).length) rest := by
        rw [← List.append_assoc, cleared_append, cleared_append line.memory,
          cleared_word fun char hchar ↦ (hinside char hchar).2]
      rw [hround, if_pos hscanned, hwords, List.length_cons, List.length_map, pointers, List.map_cons,
        ← pointers, pointers_shift, hcleared]
      have hcurrent : CommandLine.Stored { line with memory := cleared line.memory buf gap }
          stored room := hstored
      cases room with
      | nil =>
        rw [store_eq_none hcurrent]
        rfl
      | cons entry room =>
        rw [store_eq_some hcurrent, Option.bind_some]
        have hnext : CommandLine.Stored
            { memory := cleared line.memory buf gap
              argv := stored ++ (buf + BitVec.ofNat 64 gap.length) :: room
              argc := stored.length + 1
              printed := line.printed ++ warnings stored.length 1 }
            (stored ++ [buf + BitVec.ofNat 64 gap.length]) room :=
          ⟨List.append_cons _ _ _, by simp⟩
        rw [ih (by exact hbehind) hrestfree (by omega) (by omega) hnext]
        simp only [List.length_append, List.length_cons, List.length_nil, Nat.zero_add,
          Nat.add_le_add_iff_right, List.append_assoc, List.cons_append, List.nil_append,
          List.drop_succ_cons, Nat.add_assoc, Nat.add_comm 1, warnings_append]

/-- A word is a string in the line that was cleared. -/
theorem cleared_isPiece {found : ℕ × List Byte} (h : memory.Holds buf (text ++ [0]))
    (hlength : text.length < 2 ^ 64) (hfound : IsPiece isBlank text found) :
    (cleared memory buf text).Holds (buf + BitVec.ofNat 64 found.1) (found.2 ++ [0]) := by
  obtain ⟨before, after, rfl, hstart, -, hword, -, hafter⟩ := hfound
  have hplace : ∀ offset, buf + BitVec.ofNat 64 found.1 + BitVec.ofNat 64 offset =
      buf + BitVec.ofNat 64 (found.1 + offset) := by
    intro offset
    rw [BitVec.add_assoc, ← BitVec.ofNat_add]
  have hread := holds_iff.mp h
  have hwhole := Nat.le_of_lt hlength
  simp only [List.length_append, List.length_singleton] at hlength hread
  rw [holds_append]
  constructor
  · rw [holds_iff]
    intro offset hoffset
    have hchar : (before ++ (found.2 ++ after))[found.1 + offset]? = some found.2[offset] := by
      rw [List.getElem?_append_right (by omega), hstart, Nat.add_sub_cancel_left,
        List.getElem?_append_left hoffset, List.getElem?_eq_getElem hoffset]
    obtain ⟨hinside, hchar⟩ := List.getElem?_eq_some_iff.mp hchar
    have hbyte := hread (found.1 + offset) (by omega)
    rw [List.getElem_append_left hinside, hchar] at hbyte
    rw [hplace, cleared_of_lt hwhole hinside, hchar,
      if_neg (hword _ (List.getElem_mem hoffset)), hbyte]
  · rw [hplace, holds_cons]
    refine ⟨?_, holds_nil⟩
    cases after with
    | nil =>
      have hend : (before ++ (found.2 ++ [])).length = found.1 + found.2.length := by simp [hstart]
      have hnul := (holds_append.mp h).2
      rw [hend, holds_cons] at hnul
      rw [cleared_of_le (by rw [hend, offset_sub buf (by simp at hlength; omega)]), hnul.1]
    | cons blank after =>
      have hinside : found.1 + found.2.length < (before ++ (found.2 ++ blank :: after)).length := by
        simp [hstart]
      have hchar : (before ++ (found.2 ++ blank :: after))[found.1 + found.2.length] = blank := by
        simp [← hstart]
      rw [cleared_of_lt hwhole hinside, hchar, if_pos (hafter blank rfl)]

/-- `parse` stores pointers to the words of the line in their order, as many as the array has room for,
and each of them is a string then. It writes nothing else. -/
def SplitsLine (memory : ByteMemory) (buf : BitVec 64) (argv : List (BitVec 64))
    (text : List Byte) : Prop :=
  ∃ words : List (ℕ × List Byte), (words.Pairwise fun first second ↦ first.1 < second.1) ∧
    (∀ found, found ∈ words ↔ IsPiece isBlank text found) ∧
    ∃ enough, ∀ fuel ≥ enough, ∃ line, parse fuel memory buf argv = some line ∧
      line.argc = min words.length MAXARGS ∧
      line.argv.take line.argc = pointers buf (words.take MAXARGS) ∧
      (∀ found ∈ words.take MAXARGS,
        line.memory.Holds (buf + BitVec.ofNat 64 found.1) (found.2 ++ [0])) ∧
      ∀ address, text.length ≤ (address - buf).toNat → line.memory address = memory address

theorem parse_eq (argv : List (BitVec 64)) (h : memory.Holds buf (text ++ [0])) (hfree : 0 ∉ text)
    (hfuel : text.length < fuel) :
    parse fuel memory buf argv = if (words text).length ≤ argv.length then
      some
        { memory := cleared memory buf text
          argv := pointers buf (words text) ++ argv.drop (words text).length
          argc := (words text).length
          printed := warnings 0 (words text).length }
      else none := by
  have hstart : CommandLine.Stored { memory := memory, argv := argv, argc := 0, printed := [] }
      [] argv := ⟨rfl, rfl⟩
  rw [parse, parseFrom_eq (by exact h) hfree (h.length_lt hfree) hfuel hstart]
  simp only [List.nil_append, List.length_nil, Nat.zero_add]

/-- The word behind the last entry is stored as well. -/
theorem not_splitsLine {argv : List (BitVec 64)} (hline : memory.Holds buf (text ++ [0]))
    (hfree : 0 ∉ text) (hmany : argv.length < (words text).length) :
    ¬ SplitsLine memory buf argv text := by
  rintro ⟨_, _, _, enough, hparse⟩
  obtain ⟨line, hsome, -⟩ := hparse (max enough (text.length + 1)) (Nat.le_max_left _ _)
  have hfuel : text.length < max enough (text.length + 1) := Nat.le_max_right _ _
  rw [parse_eq argv hline hfree hfuel, if_neg (Nat.not_le.mpr hmany)] at hsome
  cases hsome

/-- A line is split exactly if it has no more words than the array has entries. -/
theorem parse_line_iff (argv : List (BitVec 64)) (hline : memory.Holds buf (text ++ [0]))
    (hfree : 0 ∉ text) (hargv : argv.length = MAXARGS) :
    SplitsLine memory buf argv text ↔ (words text).length ≤ MAXARGS := by
  constructor
  · intro hsplits
    by_contra hmany
    exact not_splitsLine hline hfree (hargv ▸ Nat.lt_of_not_le hmany) hsplits
  · intro h
    refine ⟨words text, pieces_sorted _ _, fun _ ↦ mem_pieces, text.length + 1, ?_⟩
    intro fuel hfuel
    have hparse := parse_eq argv hline hfree hfuel
    rw [hargv, if_pos h] at hparse
    refine ⟨_, hparse, (Nat.min_eq_left h).symm, ?_, ?_, fun address ↦ cleared_of_le⟩
    · have hcount : (pointers buf (words text)).length = (words text).length := List.length_map _
      rw [List.take_of_length_le h, ← hcount, List.take_left]
    · intro found hfound
      rw [List.take_of_length_le h] at hfound
      exact cleared_isPiece hline (hline.length_lt hfree) (mem_pieces.mp hfound)

/-- `help`, `me` and `x` with a space, a tab, two spaces and a carriage return around them -/
def blankLine : List Byte := [0x20, 0x68, 0x65, 0x6c, 0x70, 0x09, 0x6d, 0x65, 0x20, 0x20, 0x78, 0x0d]

/-- The three words are strings in the buffer. -/
theorem parse_line_blanks : ∃ enough, ∀ fuel ≥ enough, ∃ line,
    parse fuel (ByteMemory.only 0x1000 (blankLine ++ [0])) 0x1000 (List.replicate MAXARGS 0) =
      some line ∧ line.argc = 3 ∧ line.argv.take 3 = [0x1001, 0x1006, 0x100a] ∧
      line.memory.Holds 0x1001 [0x68, 0x65, 0x6c, 0x70, 0] ∧
      line.memory.Holds 0x1006 [0x6d, 0x65, 0] ∧ line.memory.Holds 0x100a [0x78, 0] := by
  have hsplits : SplitsLine (ByteMemory.only 0x1000 (blankLine ++ [0])) 0x1000
      (List.replicate MAXARGS 0) blankLine :=
    (parse_line_iff (List.replicate MAXARGS 0) (holds_only (by decide)) (by decide) rfl).mpr
      (by decide)
  obtain ⟨found, hsorted, hmem, enough, hparse⟩ := hsplits
  have hwords : found = words blankLine := by
    have hnodup : found.Nodup := hsorted.imp fun hlt heq ↦ absurd (heq ▸ hlt) (lt_irrefl _)
    have hsame : found.Perm (words blankLine) := by
      apply (List.perm_ext_iff_of_nodup hnodup (by decide)).mpr
      intro piece
      rw [hmem]
      exact mem_pieces.symm
    apply hsame.eq_of_pairwise _ hsorted (pieces_sorted _ _)
    intro left right _ _ hlt hgt
    exact absurd hgt (Nat.lt_asymm hlt)
  subst hwords
  refine ⟨enough, fun fuel hfuel ↦ ?_⟩
  obtain ⟨line, hline, hargc, hargv, hstrings, -⟩ := hparse fuel hfuel
  have hthree : line.argc = 3 := hargc
  rw [hthree] at hargv
  exact ⟨line, hline, hthree, hargv, hstrings (1, [0x68, 0x65, 0x6c, 0x70]) (by decide),
    hstrings (6, [0x6d, 0x65]) (by decide), hstrings (10, [0x78]) (by decide)⟩

/-- `MAXARGS + 1` words of one letter -/
def longLine : List Byte := (List.replicate (MAXARGS + 1) [0x61, 0x20]).flatten

theorem parse_line_long : ∃ memory buf argv, memory.Holds buf (longLine ++ [0]) ∧
    argv.length = MAXARGS ∧ ¬ SplitsLine memory buf argv longLine := by
  have hline : (ByteMemory.only 0x1000 (longLine ++ [0])).Holds 0x1000 (longLine ++ [0]) :=
    holds_only (by decide)
  exact ⟨_, _, List.replicate MAXARGS 0, hline, rfl,
    not_splitsLine hline (by decide) (by decide)⟩

end Ucore.Kmonitor
