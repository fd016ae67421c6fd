import Ucore.Libs.PrintfmtString

/-!
# The sequences of a format

A format is a list of characters and of `%` sequences, which end with the first character that is neither
a flag nor part of a number. A sequence whose last character converts nothing is put as it is written.
-/

namespace Ucore

open Foundation Printing ByteMemory

inductive FormatToken where
  | char (ch : Byte)
  | sequence (mods : List Byte) (last : Byte)
  /-- A sequence that the end of the format cuts off -/
  | incomplete (mods : List Byte)

/-- The tokens of a format, within a sequence after its flags and numbers -/
def tokensFrom : Option (List Byte) → List Byte → List FormatToken
  | none, [] => []
  | some mods, [] => [.incomplete mods]
  | none, ch :: text =>
    if ch = ascii '%' then tokensFrom (some []) text else .char ch :: tokensFrom none text
  | some mods, ch :: text =>
    if IsModifier ch then tokensFrom (some (mods ++ [ch])) text
    else .sequence mods ch :: tokensFrom none text

def formatTokens (text : List Byte) : List FormatToken := tokensFrom none text

def FormatToken.bytes : FormatToken → List Byte
  | char ch => [ch]
  | sequence mods last => ascii '%' :: (mods ++ [last])
  | incomplete mods => ascii '%' :: mods

/-- The characters that convert an argument -/
def slotChars : List Byte :=
  [ascii 'c', ascii 'e', ascii 's', ascii 'd', ascii 'u', ascii 'o', ascii 'p', ascii 'x']

def Converts (last : Byte) : Prop := last ∈ slotChars ∨ last = ascii '%'

instance : DecidablePred Converts := fun _ ↦ inferInstanceAs (Decidable (_ ∨ _))

/-- The slots that a character takes -/
def takes (last : Byte) : ℕ := if last ∈ slotChars then 1 else 0

/-- The slots that a token takes -/
def FormatToken.slots : FormatToken → ℕ
  | char _ => 0
  | sequence mods last => mods.count (ascii '*') + takes last
  | incomplete mods => mods.count (ascii '*')

/-- The slots that a token takes, each with the character that asks for it -/
def FormatToken.asked (slot : ℕ) : FormatToken → List (ℕ × Byte)
  | char _ => []
  | sequence mods last =>
    (List.range (mods.count (ascii '*'))).map (fun i ↦ (slot + i, ascii '*')) ++
      if last ∈ slotChars then [(slot + mods.count (ascii '*'), last)] else []
  | incomplete mods => (List.range (mods.count (ascii '*'))).map fun i ↦ (slot + i, ascii '*')

def asked : ℕ → List FormatToken → List (ℕ × Byte)
  | _, [] => []
  | slot, token :: tokens => token.asked slot ++ asked (slot + token.slots) tokens

variable {memory : ByteMemory} {s format : CString} {args : VaList} {conv found : Conversion}
  {index slot : ℕ} {text mods rest name : List Byte} {last : Byte}

theorem tokensFrom_mods (hmods : ∀ ch ∈ mods, IsModifier ch) (before rest : List Byte) :
    tokensFrom (some before) (mods ++ rest) = tokensFrom (some (before ++ mods)) rest := by
  induction mods generalizing before with
  | nil => rw [List.nil_append, List.append_nil]
  | cons ch mods ih =>
    obtain ⟨hch, hmods⟩ := List.forall_mem_cons.mp hmods
    rw [List.cons_append, tokensFrom, if_pos hch, ih hmods, List.append_assoc,
      List.singleton_append]

theorem formatTokens_char {ch : Byte} (hch : ch ≠ ascii '%') (rest : List Byte) :
    formatTokens (ch :: rest) = .char ch :: formatTokens rest := by
  rw [formatTokens, tokensFrom, if_neg hch, formatTokens]

theorem formatTokens_sequence (hmods : ∀ ch ∈ mods, IsModifier ch) (hlast : ¬ IsModifier last)
    (rest : List Byte) : formatTokens (ascii '%' :: (mods ++ last :: rest)) =
      .sequence mods last :: formatTokens rest := by
  rw [formatTokens, tokensFrom, if_pos rfl, tokensFrom_mods hmods, tokensFrom, if_neg hlast,
    List.nil_append, formatTokens]

theorem formatTokens_incomplete (hmods : ∀ ch ∈ mods, IsModifier ch) :
    formatTokens (ascii '%' :: mods) = [.incomplete mods] := by
  have hall := tokensFrom_mods hmods [] []
  rw [List.append_nil, List.nil_append] at hall
  rw [formatTokens, tokensFrom, if_pos rfl, hall, tokensFrom]

/-- The flags and numbers at the beginning of a text -/
theorem exists_modifiers (text : List Byte) :
    ∃ mods rest, text = mods ++ rest ∧ (∀ ch ∈ mods, IsModifier ch) ∧
      ∀ ch ∈ rest.head?, ¬ IsModifier ch := by
  induction text with
  | nil => exact ⟨[], [], rfl, nofun, nofun⟩
  | cons ch text ih =>
    by_cases hch : IsModifier ch
    · obtain ⟨mods, rest, rfl, hmods, hrest⟩ := ih
      exact ⟨ch :: mods, rest, rfl, List.forall_mem_cons.mpr ⟨hch, hmods⟩, hrest⟩
    · exact ⟨[], ch :: text, rfl, nofun, by simpa using hch⟩

theorem tokensFrom_bytes (text : List Byte) :
    (∀ mods, (tokensFrom (some mods) text).flatMap FormatToken.bytes =
      ascii '%' :: (mods ++ text)) ∧
    (tokensFrom none text).flatMap FormatToken.bytes = text := by
  induction text with
  | nil => exact ⟨fun mods ↦ by simp [tokensFrom, FormatToken.bytes], rfl⟩
  | cons ch text ih =>
    obtain ⟨hwithin, houtside⟩ := ih
    constructor
    · intro mods
      rw [tokensFrom]
      split_ifs
      · rw [hwithin, List.append_assoc, List.singleton_append]
      · rw [List.flatMap_cons, houtside, FormatToken.bytes, List.cons_append, List.append_assoc,
          List.singleton_append]
    · rw [tokensFrom]
      split_ifs with hch
      · rw [hwithin, hch, List.nil_append]
      · rw [List.flatMap_cons, houtside, FormatToken.bytes, List.singleton_append]

/-- The tokens are the format. -/
theorem formatTokens_bytes (text : List Byte) :
    (formatTokens text).flatMap FormatToken.bytes = text := (tokensFrom_bytes text).2

/-! ## What a conversion puts -/

theorem int32_widthAfter (hwidth : int32 conv.width = conv.width) (count : ℕ) :
    int32 (conv.widthAfter count) = conv.widthAfter count := by
  unfold Conversion.widthAfter
  split_ifs
  · obtain ⟨hlower, -, -⟩ := int32_spec (conv.width - count)
    exact int32_eq (by omega) (by omega)
  · exact hwidth

/-- A string of any length is put to its end or to its precision. -/
theorem convertString_settles (hints : conv.Ints) (hnul : 0 ∉ name)
    (h : s.Reads memory 0 (name ++ [0])) :
    ∃ bytes, Settles memory (fun fuel ↦ convertString fuel s conv) (some ((), bytes)) := by
  have htake : ∀ count, s.Reads memory 0 ((name ++ [0]).take count) := by
    intro count
    rw [← List.take_append_drop count (name ++ [0])] at h
    exact (reads_append.mp h).1
  have hleft : Settles memory (fun fuel ↦ leftPadding fuel s conv) _ :=
    leftPadding_eq hnul fun _ ↦ htake _
  have hchars : Settles memory (fun fuel ↦ putString s conv.altflag fuel 0 conv.precision
      (conv.widthAfter (min name.length conv.sizeT))) _ :=
    putString_eq hnul (int32_widthAfter hints.1 _) (htake _)
  let last (_ : ℕ) (width : ℤ) := padding ((ascii ' ').setWidth 32) width.toNat
  let following (fuel : ℕ) (width : ℤ) :=
    putString s conv.altflag fuel 0 conv.precision width >>= last fuel
  have hrest : Settles memory
      (fun fuel ↦ following fuel (conv.widthAfter (min name.length conv.sizeT))) _ :=
    hchars.bind (Settles.of_eq fun _ ↦ output_padding _ _)
  have hboth : Settles memory (fun fuel ↦ leftPadding fuel s conv >>= following fuel) _ :=
    hleft.bind hrest
  simp only [convertString_eq_bind]
  exact ⟨_, hboth⟩

theorem vprintfmt_chars {chars : List Byte} {printed : Option (Unit × List Byte)}
    (hchars : ∀ ch ∈ chars, ch ≠ ascii '%' ∧ ch ≠ 0) (h : format.Reads memory index chars)
    (hrest : Settles memory (fun fuel ↦ vprintfmt fuel format args (index + chars.length) slot)
      printed) :
    Settles memory (fun fuel ↦ vprintfmt fuel format args index slot)
      (printed.map fun last ↦ (last.1, chars ++ last.2)) := by
  induction chars generalizing index with
  | nil => simpa using hrest
  | cons ch chars ih =>
    obtain ⟨hch, hchars⟩ := List.forall_mem_cons.mp hchars
    rw [List.length_cons, Nat.add_comm chars.length, ← Nat.add_assoc] at hrest
    have hput := vprintfmt_char hch.1 hch.2 ⟨h.1, trivial⟩ (ih hchars h.2 hrest)
    rw [Option.map_map] at hput
    exact hput

/-- `printfmt("error %d", err)` -/
theorem printfmt_error (memory : ByteMemory) (word : BitVec 64) : ∃ bytes,
    Settles memory (fun fuel ↦ printfmt fuel ("error %d".toList.map ascii) (.word word))
      (some ((), bytes)) := by
  have hread := reads_literal memory ("error %d".toList.map ascii)
  have hsplit : "error %d".toList.map ascii ++ [0] =
      "error ".toList.map ascii ++ [ascii '%', ascii 'd', 0] := by decide
  rw [hsplit, reads_append] at hread
  obtain ⟨hchars, hpercent, hlast, hend, -⟩ := hread
  let conv : Conversion := { fmt := 0 + ("error ".toList.map ascii).length + 1, ap := 0 }
  have hswitch : Settles memory (fun fuel ↦ reswitch (.literal ("error %d".toList.map ascii))
      (fun _ ↦ .word word) fuel conv) (some ((NumberKind.d.char, conv.advance 1), [])) :=
    reswitch_last (not_isModifier_char .d) ⟨hlast, trivial⟩
  have hconvert : Settles memory (fun fuel ↦ convert (printfmt fuel) fuel
      (.literal ("error %d".toList.map ascii)) (fun _ ↦ .word word) NumberKind.d.char
      (conv.advance 1)) _ := convert_number rfl (show (0 : ℤ) = NumberLength.int.lflag from rfl)
  have hnumber := vprintfmt_conversion ⟨hpercent, trivial⟩ hswitch hconvert
    (vprintfmt_end ⟨hend, trivial⟩)
  exact ⟨_, vprintfmt_chars (by decide) hchars hnumber⟩

/-- `printfmt("%s", p)` -/
theorem printfmt_string (memory : ByteMemory) {literal : List Byte} (hnul : 0 ∉ literal) : ∃ bytes,
    Settles memory (fun fuel ↦ printfmt fuel ("%s".toList.map ascii) (.text literal))
      (some ((), bytes)) := by
  obtain ⟨hpercent, hlast, hend, -⟩ := reads_literal memory ("%s".toList.map ascii)
  let conv : Conversion := { fmt := 0 + 1, ap := 0 }
  have hswitch : Settles memory (fun fuel ↦ reswitch (.literal ("%s".toList.map ascii))
      (fun _ ↦ .text literal) fuel conv) (some ((ascii 's', conv.advance 1), [])) :=
    reswitch_last (by decide) ⟨hlast, trivial⟩
  have hints : (conv.advance 1).Ints := ⟨by decide, by decide⟩
  obtain ⟨bytes, hstring⟩ := convertString_settles hints hnul (reads_literal memory literal)
  have hconvert : Settles memory (fun fuel ↦ convert (printfmt fuel) fuel
      (.literal ("%s".toList.map ascii)) (fun _ ↦ .text literal) (ascii 's') (conv.advance 1))
      (some ((0 + 1 + 1, 0 + 1), bytes)) := hstring.then_pure _
  exact ⟨_, vprintfmt_conversion ⟨hpercent, trivial⟩ hswitch hconvert
    (vprintfmt_end ⟨hend, trivial⟩)⟩

/-- The error number whose negation is itself -/
def IsMinError (slot : VaArg) : Prop := ∃ word, slot = .word word ∧ word.setWidth 32 = BitVec.intMin 32

/-- `err` after `if (err < 0) err = -err` -/
def absoluteError (word : BitVec 64) : ℤ :=
  if (word.setWidth 32).toInt < 0 then int32 (-(word.setWidth 32).toInt)
  else (word.setWidth 32).toInt

theorem absoluteError_neg {word : BitVec 64} :
    absoluteError word < 0 ↔ word.setWidth 32 = BitVec.intMin 32 := by
  have hlower := (word.setWidth 32).le_toInt
  have hupper := (word.setWidth 32).toInt_lt
  have hmin : (word.setWidth 32).toInt = -2 ^ 31 ↔ word.setWidth 32 = BitVec.intMin 32 := by
    rw [← BitVec.toInt_inj, show (BitVec.intMin 32).toInt = -2 ^ 31 from by decide]
  rw [← hmin]
  unfold absoluteError
  split_ifs with hneg
  · obtain ⟨-, -, turns, hturns⟩ := int32_spec (-(word.setWidth 32).toInt)
    constructor
    · intro h
      by_contra hne
      rw [int32_eq (by omega) (by omega)] at h
      omega
    · intro heq
      rw [heq]
      decide
  · omega

/-- The end of `case 'e'` -/
def putError (fuel : ℕ) (err : ℤ) : Option (List Byte) → Printing Unit
  | none => printfmt fuel ("error %d".toList.map ascii) (.word (BitVec.ofInt 64 err))
  | some p => printfmt fuel ("%s".toList.map ascii) (.text p)

theorem convertError_eq (fuel : ℕ) (word : BitVec 64) :
    convertError (printfmt fuel) (.word word) =
      if absoluteError word > MAXERROR then putError fuel (absoluteError word) none
      else getErrorString (absoluteError word) >>= putError fuel (absoluteError word) := by
  unfold convertError putError
  rfl

theorem getErrorString_eq {err : ℤ} (hpos : 0 ≤ err) (hmax : err ≤ MAXERROR) :
    ∃ entry, getErrorString err = pure entry ∧ ∀ p ∈ entry, 0 ∉ p := by
  unfold MAXERROR at hmax
  interval_cases err
  · exact ⟨none, rfl, nofun⟩
  all_goals exact ⟨_, rfl, by decide⟩

theorem putError_settles (memory : ByteMemory) (err : ℤ) {entry : Option (List Byte)}
    (hnul : ∀ p ∈ entry, 0 ∉ p) :
    ∃ bytes, Settles memory (fun fuel ↦ putError fuel err entry) (some ((), bytes)) := by
  cases entry with
  | none => exact printfmt_error memory _
  | some p => exact printfmt_string memory (hnul p rfl)

theorem convertError_settles (memory : ByteMemory) {word : BitVec 64}
    (hmin : word.setWidth 32 ≠ BitVec.intMin 32) : ∃ bytes,
    Settles memory (fun fuel ↦ convertError (printfmt fuel) (.word word)) (some ((), bytes)) := by
  have hpos : 0 ≤ absoluteError word := by
    by_contra hneg
    exact hmin (absoluteError_neg.mp (by omega))
  simp only [convertError_eq]
  by_cases hmax : absoluteError word > MAXERROR
  · simp only [if_pos hmax]
    exact putError_settles memory _ nofun
  · obtain ⟨entry, hentry, hnul⟩ := getErrorString_eq hpos (Int.not_lt.mp hmax)
    simp only [if_neg hmax, hentry, pure_bind]
    exact putError_settles memory _ hnul

/-- There is no message with a negative number. -/
theorem convertError_fault (memory : ByteMemory) {word : BitVec 64}
    (hmin : word.setWidth 32 = BitVec.intMin 32) (fuel : ℕ) :
    (convertError (printfmt fuel) (.word word)).output memory = none := by
  have hneg := absoluteError_neg.mpr hmin
  have hsmall : ¬ absoluteError word > MAXERROR := by
    unfold MAXERROR
    omega
  rw [convertError_eq, if_neg hsmall, getErrorString, if_pos hneg]
  rfl

theorem getuint_word (word : BitVec 64) (lflag : ℤ) :
    ∃ num, getuint (.word word) lflag = pure num := by
  unfold getuint
  split_ifs
  · exact ⟨_, rfl⟩
  · exact ⟨_, rfl⟩
  · exact ⟨_, rfl⟩

theorem getint_word (word : BitVec 64) (lflag : ℤ) : ∃ num, getint (.word word) lflag = pure num := by
  unfold getint
  split_ifs
  · exact ⟨_, rfl⟩
  · exact ⟨_, rfl⟩
  · exact ⟨_, rfl⟩

/-- Every conversion of an unsigned number -/
theorem convertUnsigned_settles (memory : ByteMemory) {base : BitVec 32} (hbase : 2 ≤ base.toNat)
    (hhex : base.toNat ≤ 16) (word : BitVec 64) (conv : Conversion) : ∃ bytes, ∀ place : ℕ × ℕ,
    Settles memory (fun fuel ↦ do
      convertNumber fuel (← getuint (.word word) conv.lflag) base conv
      return place) (some (place, bytes)) := by
  obtain ⟨num, hnum⟩ := getuint_word word conv.lflag
  simp only [hnum, pure_bind]
  exact ⟨_, (settles_convertNumber hbase hhex num).then_pure⟩

theorem convertDecimal_settles (word : BitVec 64) (conv : Conversion) : ∃ bytes,
    Settles memory (fun fuel ↦ convertDecimal fuel (.word word) conv) (some ((), bytes)) := by
  obtain ⟨num, hnum⟩ := getint_word word conv.lflag
  simp only [convertDecimal, hnum, pure_bind]
  by_cases hneg : num.toInt < 0
  · simp only [if_pos hneg]
    exact ⟨_, (settles_convertNumber (by decide) (by decide) (-num)).putch⟩
  · simp only [if_neg hneg]
    exact ⟨_, settles_convertNumber (by decide) (by decide) num⟩

theorem convertPointer_settles (memory : ByteMemory) (word : BitVec 64) (conv : Conversion) :
    ∃ bytes, ∀ place : ℕ × ℕ, Settles memory (fun fuel ↦ do
      putch ((ascii '0').setWidth 32)
      putch ((ascii 'x').setWidth 32)
      convertNumber fuel (← (VaArg.word word).long) 16 conv
      return place) (some (place, bytes)) := by
  have hnumber : ∀ place : ℕ × ℕ, Settles memory (fun fuel ↦ do
      convertNumber fuel word 16 conv
      return place) _ := (settles_convertNumber (by decide) (by decide) word).then_pure
  have hlong : (VaArg.word word).long = pure word := rfl
  simp only [hlong, pure_bind]
  exact ⟨_ :: _ :: paddedDigits conv (numeralBytes 16 word.toNat),
    fun place ↦ (hnumber place).putch.putch⟩

/-- A slot that is a string, if it is not `NULL` -/
def StringFits (memory : ByteMemory) (arg : VaArg) : Prop :=
  ∀ s ∈ arg.string, ∃ name, 0 ∉ name ∧ s.Reads memory 0 (name ++ [0])

/-- What a conversion puts depends on its flags, its numbers and its slot only. -/
theorem convert_settles (memory : ByteMemory) (hints : found.Ints) (hlast : Converts last) (arg : VaArg)
    (hword : last ∈ slotChars → last ≠ ascii 's' → ∃ word, arg = .word word)
    (hstring : last = ascii 's' → StringFits memory arg)
    (hmin : last = ascii 'e' → ¬ IsMinError arg) :
    ∃ bytes, ∀ (format : CString) (args : VaList) (fmt ap : ℕ), (last ∈ slotChars → args ap = arg) →
      Settles memory
        (fun fuel ↦ convert (printfmt fuel) fuel format args last (found.moved fmt ap))
        (some ((fmt, ap + takes last), bytes)) := by
  by_cases hslot : last ∈ slotChars
  · have htakes : takes last = 1 := if_pos hslot
    simp only [htakes]
    have hword := hword hslot
    have hsame : ∀ (args : VaList) (ap : ℕ), (last ∈ slotChars → args ap = arg) → args ap = arg :=
      fun _ _ harg ↦ harg hslot
    simp only [slotChars, List.mem_cons, List.not_mem_nil, or_false] at hslot
    rcases hslot with rfl | rfl | rfl | rfl | rfl | rfl | rfl | rfl
    · obtain ⟨word, rfl⟩ := hword (by decide)
      refine ⟨[(word.setWidth 32).setWidth 8], fun format args fmt ap harg ↦ ?_⟩
      have hput : Settles memory (fun _ ↦ do putch (← (args ap).int); return (fmt, ap + 1))
          (some ((fmt, ap + 1), [(word.setWidth 32).setWidth 8])) := by
        rw [hsame args ap harg]
        exact Settles.of_eq fun _ ↦ rfl
      exact hput
    · obtain ⟨word, rfl⟩ := hword (by decide)
      obtain ⟨bytes, herror⟩ := convertError_settles memory fun heq ↦ hmin rfl ⟨word, rfl, heq⟩
      refine ⟨bytes, fun format args fmt ap harg ↦ ?_⟩
      rw [← hsame args ap harg] at herror
      exact herror.then_pure _
    · obtain ⟨name, hnul, hname⟩ : ∃ name, 0 ∉ name ∧
          (arg.string.getD (.literal nullString)).Reads memory 0 (name ++ [0]) := by
        cases hs : arg.string with
        | none => exact ⟨nullString, by decide, reads_literal memory nullString⟩
        | some s => exact hstring rfl s hs
      obtain ⟨bytes, hput⟩ := convertString_settles hints hnul hname
      refine ⟨bytes, fun format args fmt ap harg ↦ ?_⟩
      rw [← hsame args ap harg] at hput
      exact hput.then_pure _
    · obtain ⟨word, rfl⟩ := hword (by decide)
      obtain ⟨bytes, hnumber⟩ := convertDecimal_settles word found
      refine ⟨bytes, fun format args fmt ap harg ↦ ?_⟩
      rw [← hsame args ap harg] at hnumber
      exact hnumber.then_pure _
    · obtain ⟨word, rfl⟩ := hword (by decide)
      obtain ⟨bytes, hnumber⟩ := convertUnsigned_settles memory (show 2 ≤ (10 : BitVec 32).toNat by decide)
        (by decide) word found
      refine ⟨bytes, fun format args fmt ap harg ↦ ?_⟩
      rw [← hsame args ap harg] at hnumber
      exact hnumber _
    · obtain ⟨word, rfl⟩ := hword (by decide)
      obtain ⟨bytes, hnumber⟩ := convertUnsigned_settles memory (show 2 ≤ (8 : BitVec 32).toNat by decide)
        (by decide) word found
      refine ⟨bytes, fun format args fmt ap harg ↦ ?_⟩
      rw [← hsame args ap harg] at hnumber
      exact hnumber _
    · obtain ⟨word, rfl⟩ := hword (by decide)
      obtain ⟨bytes, hnumber⟩ := convertPointer_settles memory word found
      refine ⟨bytes, fun format args fmt ap harg ↦ ?_⟩
      rw [← hsame args ap harg] at hnumber
      exact hnumber _
    · obtain ⟨word, rfl⟩ := hword (by decide)
      obtain ⟨bytes, hnumber⟩ := convertUnsigned_settles memory (show 2 ≤ (16 : BitVec 32).toNat by decide)
        (by decide) word found
      refine ⟨bytes, fun format args fmt ap harg ↦ ?_⟩
      rw [← hsame args ap harg] at hnumber
      exact hnumber _
  · have hpercent := hlast.resolve_left hslot
    subst hpercent
    exact ⟨[ascii '%'], fun format args fmt ap _ ↦ Settles.of_eq fun fuel ↦ rfl⟩

/-! ## Sequences that convert nothing -/

theorem not_percent_of_isModifier {ch : Byte} (h : IsModifier ch) : ch ≠ ascii '%' ∧ ch ≠ 0 := by
  constructor
  · rintro rfl
    exact absurd h (by decide)
  · rintro rfl
    exact absurd h (by decide)

/-- The loop goes back to the `%` of the sequence. -/
theorem rewind_eq (hmods : ascii '%' ∉ mods) (h : format.Reads memory index (ascii '%' :: mods)) :
    (rewind format (index + mods.length + 1)).output memory = some (index + 1, []) := by
  induction mods using List.reverseRecOn with
  | nil =>
    rw [List.length_nil, Nat.add_zero, rewind, output_bind_silent h.1,
      if_neg (not_not.mpr rfl), output_pure]
  | append_singleton mods ch ih =>
    rw [List.mem_append, List.mem_singleton, not_or] at hmods
    rw [← List.cons_append] at h
    obtain ⟨hfront, hch, -⟩ := reads_append.mp h
    have hplace : index + (ascii '%' :: mods).length = index + (mods ++ [ch]).length := by simp
    rw [hplace] at hch
    rw [rewind, output_bind_silent hch, if_pos (Ne.symm hmods.2), List.length_append,
      List.length_singleton, ← Nat.add_assoc]
    exact ih hmods.1 hfront

theorem convert_unknown (hlast : ¬ Converts last) (hmods : ascii '%' ∉ mods)
    (h : format.Reads memory index (ascii '%' :: mods)) (hfmt : conv.fmt = index + mods.length + 2) :
    Settles memory (fun fuel ↦ convert (printfmt fuel) fuel format args last conv)
      (some ((index + 1, conv.ap), [ascii '%'])) := by
  simp only [Converts, slotChars, List.mem_cons, List.not_mem_nil, or_false, not_or] at hlast
  obtain ⟨⟨hc, he, hs, hd, hu, ho, hp, hx⟩, hpercent⟩ := hlast
  apply Settles.of_eq
  intro fuel
  simp only [convert, if_neg hc, if_neg he, if_neg hs, if_neg hd, if_neg hu, if_neg ho, if_neg hp,
    if_neg hx, if_neg hpercent]
  have hback : conv.fmt - 1 = index + mods.length + 1 := by omega
  rw [hback, output_bind_of (output_putch _), output_bind_silent (rewind_eq hmods h)]
  rfl

/-! ## What tokens put -/

/-- What a token puts with the arguments from a slot on: a sequence that converts something puts what it
puts as a format of its own, and all else is put as it is written. -/
def FormatToken.Puts (memory : ByteMemory) (args : VaList) (slot : ℕ) (token : FormatToken)
    (piece : List Byte) : Prop :=
  match token with
  | char _ => piece = token.bytes
  | sequence _ last =>
    if Converts last then Settles memory
      (fun fuel ↦ vprintfmt fuel (.literal token.bytes) (fun i ↦ args (slot + i)) 0 0)
      (some ((), piece))
    else piece = token.bytes
  | incomplete _ => piece = token.bytes

def Rendered (memory : ByteMemory) (args : VaList) : ℕ → List FormatToken → List Byte → Prop
  | _, [], output => output = []
  | slot, token :: tokens, output => ∃ piece rest, output = piece ++ rest ∧
      token.Puts memory args slot piece ∧ Rendered memory args (slot + token.slots) tokens rest

/-- A slot holds what it is asked for. -/
def SlotFits (memory : ByteMemory) (args : VaList) (ask : ℕ × Byte) : Prop :=
  (ask.2 ≠ ascii 's' → ∃ word, args ask.1 = .word word) ∧
    (ask.2 = ascii 's' → StringFits memory (args ask.1))

/-- A slot is asked for an error number and holds the least one. -/
def AsksMinError (args : VaList) (ask : ℕ × Byte) : Prop :=
  ask.2 = ascii 'e' ∧ IsMinError (args ask.1)

/-- The conversion at a sequence, wherever it stands -/
theorem reswitch_sequence (hmods : ∀ ch ∈ mods, IsModifier ch) (hlast : ¬ IsModifier last)
    (hwords : ∀ i < mods.count (ascii '*'), ∃ word, args (slot + i) = .word word) :
    ∃ found : Conversion, found.Ints ∧ ∀ (memory : ByteMemory) (format : CString) (args' : VaList)
      (index slot' : ℕ), format.Reads memory index (mods ++ [last]) →
      (∀ i < mods.count (ascii '*'), args' (slot' + i) = args (slot + i)) →
      Settles memory (fun fuel ↦ reswitch format args' fuel { fmt := index, ap := slot' })
        (some ((last, found.moved (index + mods.length + 1) (slot' + mods.count (ascii '*'))), [])) := by
  choose! words hwords using hwords
  let conv : Conversion := { fmt := 0, ap := 0 }
  have hints : conv.Ints := ⟨by decide, by decide⟩
  obtain ⟨found, hfound, hsettles⟩ := reswitch_modifiers words hmods hlast hints
  refine ⟨found, hfound, fun memory format args' index slot' h hsame ↦ ?_⟩
  apply hsettles memory format args' index slot' h
  intro i hi
  rw [hsame i hi, hwords i hi]

theorem star_ne_string : ascii '*' ≠ ascii 's' := by decide

theorem star_asked (slot : ℕ) (mods : List Byte) (last : Byte) {i : ℕ}
    (hi : i < mods.count (ascii '*')) :
    (slot + i, ascii '*') ∈ (FormatToken.sequence mods last).asked slot := by
  apply List.mem_append_left
  exact List.mem_map.mpr ⟨i, List.mem_range.mpr hi, rfl⟩

theorem last_asked (slot : ℕ) (mods : List Byte) (hlast : last ∈ slotChars) :
    (slot + mods.count (ascii '*'), last) ∈ (FormatToken.sequence mods last).asked slot := by
  apply List.mem_append_right
  rw [if_pos hlast]
  exact List.mem_singleton.mpr rfl

/-- A sequence puts the same wherever it stands. -/
theorem vprintfmt_sequence (hmods : ∀ ch ∈ mods, IsModifier ch) (hlast : ¬ IsModifier last)
    (hconverts : Converts last)
    (hfits : ∀ ask ∈ (FormatToken.sequence mods last).asked slot, SlotFits memory args ask)
    (hmin : ∀ ask ∈ (FormatToken.sequence mods last).asked slot, ¬ AsksMinError args ask) :
    ∃ piece, ∀ (format : CString) (args' : VaList) (index slot' : ℕ)
      (printed : Option (Unit × List Byte)),
      format.Reads memory index (FormatToken.sequence mods last).bytes →
      (∀ i < (FormatToken.sequence mods last).slots, args' (slot' + i) = args (slot + i)) →
      Settles memory (fun fuel ↦ vprintfmt fuel format args'
        (index + (FormatToken.sequence mods last).bytes.length)
        (slot' + (FormatToken.sequence mods last).slots)) printed →
      Settles memory (fun fuel ↦ vprintfmt fuel format args' index slot')
        (printed.map fun last ↦ (last.1, piece ++ last.2)) := by
  have hstars : ∀ i < mods.count (ascii '*'), ∃ word, args (slot + i) = .word word :=
    fun i hi ↦ (hfits _ (star_asked slot mods last hi)).1 star_ne_string
  obtain ⟨found, hfound, hswitch⟩ := reswitch_sequence hmods hlast hstars
  obtain ⟨piece, hconvert⟩ := convert_settles memory hfound hconverts
    (args (slot + mods.count (ascii '*')))
    (fun hslot hstring ↦ (hfits _ (last_asked slot mods hslot)).1 hstring)
    (fun hstring ↦ (hfits _ (last_asked slot mods (by rw [hstring]; decide))).2 hstring)
    (fun herror hleast ↦ hmin _ (last_asked slot mods (by rw [herror]; decide)) ⟨herror, hleast⟩)
  refine ⟨piece, fun format args' index slot' printed h hsame hrest ↦ ?_⟩
  have hslots : (FormatToken.sequence mods last).slots = mods.count (ascii '*') + takes last := rfl
  have hlength : index + (FormatToken.sequence mods last).bytes.length =
      index + 1 + mods.length + 1 := by
    simp [FormatToken.bytes]
    omega
  rw [hslots] at hsame hrest
  rw [hlength, ← Nat.add_assoc] at hrest
  obtain ⟨hpercent, hmodsRead⟩ := h
  have hfound' := hswitch memory format args' (index + 1) slot' hmodsRead
    fun i hi ↦ hsame i (by omega)
  apply vprintfmt_conversion ⟨hpercent, trivial⟩ hfound' _ hrest
  apply hconvert format args'
  intro hslot
  have htakes : takes last = 1 := if_pos hslot
  exact hsame _ (by omega)

/-- A sequence that converts nothing is read again behind its `%`. -/
theorem vprintfmt_rewound (hmods : ∀ ch ∈ mods, IsModifier ch) (hlast : ¬ IsModifier last)
    (hconverts : ¬ Converts last) {printed : Option (Unit × List Byte)}
    (hwords : ∀ i < mods.count (ascii '*'), ∃ word, args (slot + i) = .word word)
    (h : format.Reads memory index (ascii '%' :: (mods ++ [last])))
    (hrest : Settles memory (fun fuel ↦ vprintfmt fuel format args (index + 1)
      (slot + mods.count (ascii '*'))) printed) :
    Settles memory (fun fuel ↦ vprintfmt fuel format args index slot)
      (printed.map fun put ↦ (put.1, [ascii '%'] ++ put.2)) := by
  obtain ⟨found, -, hswitch⟩ := reswitch_sequence hmods hlast hwords
  have hfound := hswitch memory format args (index + 1) slot h.2 fun _ _ ↦ rfl
  have hpercent : ascii '%' ∉ mods := fun hmem ↦ (not_percent_of_isModifier (hmods _ hmem)).1 rfl
  rw [← List.cons_append] at h
  have hfront := (reads_append.mp h).1
  have hplace : (found.moved (index + 1 + mods.length + 1) (slot + mods.count (ascii '*'))).fmt =
      index + mods.length + 2 := by
    change index + 1 + mods.length + 1 = _
    omega
  exact vprintfmt_conversion ⟨hfront.1, trivial⟩ hfound
    (convert_unknown hconverts hpercent hfront hplace) hrest

theorem vprintfmt_unknown (hmods : ∀ ch ∈ mods, IsModifier ch) (hlast : ¬ IsModifier last)
    (hconverts : ¬ Converts last) (hnul : last ≠ 0) {printed : Option (Unit × List Byte)}
    (hfits : ∀ ask ∈ (FormatToken.sequence mods last).asked slot, SlotFits memory args ask)
    (h : format.Reads memory index (FormatToken.sequence mods last).bytes)
    (hrest : Settles memory (fun fuel ↦ vprintfmt fuel format args
      (index + (FormatToken.sequence mods last).bytes.length)
      (slot + (FormatToken.sequence mods last).slots)) printed) :
    Settles memory (fun fuel ↦ vprintfmt fuel format args index slot)
      (printed.map fun put ↦ (put.1, (FormatToken.sequence mods last).bytes ++ put.2)) := by
  have hslots : (FormatToken.sequence mods last).slots = mods.count (ascii '*') := by
    rw [FormatToken.slots, takes, if_neg (hconverts ∘ .inl), Nat.add_zero]
  have hlength : index + (FormatToken.sequence mods last).bytes.length =
      index + 1 + (mods ++ [last]).length := by
    rw [FormatToken.bytes, List.length_cons, Nat.add_assoc, Nat.add_comm 1]
  rw [hslots, hlength] at hrest
  have hchars : ∀ ch ∈ mods ++ [last], ch ≠ ascii '%' ∧ ch ≠ 0 := by
    intro ch hch
    rcases List.mem_append.mp hch with hmod | hend
    · exact not_percent_of_isModifier (hmods ch hmod)
    · rw [List.mem_singleton.mp hend]
      exact ⟨hconverts ∘ .inr, hnul⟩
  have hput := vprintfmt_rewound hmods hlast hconverts
    (fun i hi ↦ (hfits _ (star_asked slot mods last hi)).1 star_ne_string) h
    (vprintfmt_chars hchars h.2 hrest)
  rw [Option.map_map] at hput
  exact hput

theorem vprintfmt_incomplete (hmods : ∀ ch ∈ mods, IsModifier ch)
    (hfits : ∀ ask ∈ (FormatToken.incomplete mods).asked slot, SlotFits memory args ask)
    (h : format.Reads memory index ((FormatToken.incomplete mods).bytes ++ [0])) :
    Settles memory (fun fuel ↦ vprintfmt fuel format args index slot)
      (some ((), (FormatToken.incomplete mods).bytes)) := by
  have hwords : ∀ i < mods.count (ascii '*'), ∃ word, args (slot + i) = .word word := by
    intro i hi
    have hask : (slot + i, ascii '*') ∈ (FormatToken.incomplete mods).asked slot :=
      List.mem_map.mpr ⟨i, List.mem_range.mpr hi, rfl⟩
    exact (hfits _ hask).1 star_ne_string
  obtain ⟨hchars, hend⟩ := reads_append.mp h.2
  have hput := vprintfmt_rewound hmods (by decide) (by decide) hwords h
    (vprintfmt_chars (fun ch hch ↦ not_percent_of_isModifier (hmods ch hch)) hchars
      (vprintfmt_end hend))
  simp only [Option.map_some, List.append_nil] at hput
  exact hput

/-- The conversion of the least error number reads beyond the messages. -/
theorem vprintfmt_fault (hmods : ∀ ch ∈ mods, IsModifier ch) (hlast : ¬ IsModifier last)
    (hfits : ∀ ask ∈ (FormatToken.sequence mods last).asked slot, SlotFits memory args ask)
    (hmin : ∃ ask ∈ (FormatToken.sequence mods last).asked slot, AsksMinError args ask)
    (h : format.Reads memory index (FormatToken.sequence mods last).bytes) :
    Settles memory (fun fuel ↦ vprintfmt fuel format args index slot) none := by
  obtain ⟨found, -, hswitch⟩ := reswitch_sequence hmods hlast
    fun i hi ↦ (hfits _ (star_asked slot mods last hi)).1 star_ne_string
  have hfound := hswitch memory format args (index + 1) slot h.2 fun _ _ ↦ rfl
  obtain ⟨⟨place, ch⟩, hask, rfl, word, hword, hmin⟩ := hmin
  rcases List.mem_append.mp hask with hstar | hend
  · obtain ⟨i, -, heq⟩ := List.mem_map.mp hstar
    have hchar : ascii '*' = ascii 'e' := congrArg Prod.snd heq
    exact absurd hchar (by decide)
  · obtain ⟨rfl, rfl⟩ : place = slot + mods.count (ascii '*') ∧ ascii 'e' = last := by
      split_ifs at hend
      · exact Prod.mk.inj (List.mem_singleton.mp hend)
      · cases hend
    have herror : Settles memory (fun fuel ↦ convertError (printfmt fuel)
        (args (slot + mods.count (ascii '*')))) none := by
      rw [hword]
      exact Settles.of_eq (convertError_fault memory hmin)
    exact vprintfmt_round ⟨h.1, trivial⟩ hfound herror.bind_none.bind_none

/-! ## Whole formats -/

/-- A format begins with a character or a sequence. -/
theorem format_cases (text : List Byte) : text = [] ∨
    (∃ ch rest, text = ch :: rest ∧ ch ≠ ascii '%') ∨
    (∃ mods, text = ascii '%' :: mods ∧ ∀ ch ∈ mods, IsModifier ch) ∨
    ∃ mods last rest, text = ascii '%' :: (mods ++ last :: rest) ∧ (∀ ch ∈ mods, IsModifier ch) ∧
      ¬ IsModifier last := by
  cases text with
  | nil => exact .inl rfl
  | cons ch rest =>
    by_cases hch : ch = ascii '%'
    · obtain ⟨mods, others, rfl, hmods, hothers⟩ := exists_modifiers rest
      cases others with
      | nil =>
        rw [List.append_nil]
        exact .inr (.inr (.inl ⟨mods, congrArg (· :: mods) hch, hmods⟩))
      | cons last others =>
        exact .inr (.inr (.inr ⟨mods, last, others, congrArg (· :: _) hch, hmods, hothers last rfl⟩))
    · exact .inr (.inl ⟨ch, rest, rfl, hch⟩)

theorem star_not_minError {ask : ℕ × Byte} (hask : ask ∈ (FormatToken.incomplete mods).asked slot) :
    ¬ AsksMinError args ask := by
  obtain ⟨i, -, rfl⟩ := List.mem_map.mp hask
  rintro ⟨hchar, -⟩
  have hne : ascii '*' ≠ ascii 'e' := by decide
  exact hne hchar

/-- What `vprintfmt` comes to at some tokens with the arguments from a slot on -/
def Outcome (memory : ByteMemory) (args : VaList) (slot : ℕ) (tokens : List FormatToken)
    (printed : Option (Unit × List Byte)) : Prop :=
  ((∃ ask ∈ asked slot tokens, AsksMinError args ask) → printed = none) ∧
    ((∀ ask ∈ asked slot tokens, ¬ AsksMinError args ask) →
      ∃ output, printed = some ((), output) ∧ Rendered memory args slot tokens output)

theorem Outcome.cons {token : FormatToken} {tokens : List FormatToken} {piece : List Byte}
    {printed : Option (Unit × List Byte)} (hpiece : token.Puts memory args slot piece)
    (hmin : ∀ ask ∈ token.asked slot, ¬ AsksMinError args ask)
    (h : Outcome memory args (slot + token.slots) tokens printed) :
    Outcome memory args slot (token :: tokens)
      (printed.map fun put ↦ (put.1, piece ++ put.2)) := by
  constructor
  · rintro ⟨ask, hask, herror⟩
    rcases List.mem_append.mp hask with hfirst | hrest
    · exact absurd herror (hmin ask hfirst)
    · rw [h.1 ⟨ask, hrest, herror⟩]
      rfl
  · intro hnone
    obtain ⟨output, rfl, hrendered⟩ := h.2 fun ask hask ↦ hnone ask (List.mem_append_right _ hask)
    exact ⟨piece ++ output, rfl, piece, output, rfl, hpiece, hrendered⟩

theorem vprintfmt_outcome (text : List Byte) (hfree : 0 ∉ text)
    (h : format.Reads memory index (text ++ [0]))
    (hfits : ∀ ask ∈ asked slot (formatTokens text), SlotFits memory args ask) :
    ∃ printed, Settles memory (fun fuel ↦ vprintfmt fuel format args index slot) printed ∧
      Outcome memory args slot (formatTokens text) printed := by
  induction hlength : text.length using Nat.strong_induction_on generalizing text index slot with
  | h length ih =>
    subst hlength
    rcases format_cases text with rfl | ⟨ch, rest, rfl, hch⟩ | ⟨mods, rfl, hmods⟩ |
      ⟨mods, last, rest, rfl, hmods, hlast⟩
    · exact ⟨_, vprintfmt_end h, fun ⟨_, hask, _⟩ ↦ absurd hask List.not_mem_nil,
        fun _ ↦ ⟨[], rfl, rfl⟩⟩
    · rw [formatTokens_char hch] at hfits ⊢
      rw [List.mem_cons, not_or] at hfree
      obtain ⟨printed, hrest, houtcome⟩ := ih rest.length (Nat.lt_succ_self _) rest hfree.2 h.2
        hfits rfl
      refine ⟨_, vprintfmt_char hch (Ne.symm hfree.1) ⟨h.1, trivial⟩ hrest, ?_⟩
      have hpiece : (FormatToken.char ch).Puts memory args slot [ch] := rfl
      exact houtcome.cons hpiece nofun
    · rw [formatTokens_incomplete hmods] at hfits ⊢
      have htoken : ∀ ask ∈ (FormatToken.incomplete mods).asked slot, SlotFits memory args ask :=
        fun ask hask ↦ hfits ask (List.mem_append_left _ hask)
      refine ⟨_, vprintfmt_incomplete hmods htoken h, ?_⟩
      have houtcome : Outcome memory args (slot + (FormatToken.incomplete mods).slots) []
          (some ((), [])) :=
        ⟨fun ⟨_, hask, _⟩ ↦ absurd hask List.not_mem_nil, fun _ ↦ ⟨[], rfl, rfl⟩⟩
      have hpiece : (FormatToken.incomplete mods).Puts memory args slot
          (FormatToken.incomplete mods).bytes := rfl
      have hboth := houtcome.cons hpiece fun ask hask ↦ star_not_minError hask
      rw [Option.map_some, List.append_nil] at hboth
      exact hboth
    · rw [formatTokens_sequence hmods hlast] at hfits ⊢
      have htoken : ∀ ask ∈ (FormatToken.sequence mods last).asked slot, SlotFits memory args ask :=
        fun ask hask ↦ hfits ask (List.mem_append_left _ hask)
      have hsplit : ascii '%' :: (mods ++ last :: rest) ++ [0] =
          (FormatToken.sequence mods last).bytes ++ (rest ++ [0]) := by
        simp [FormatToken.bytes]
      rw [hsplit] at h
      obtain ⟨hread, hrestRead⟩ := reads_append.mp h
      simp only [List.mem_cons, List.mem_append, not_or] at hfree
      obtain ⟨-, -, hnul, hrestFree⟩ := hfree
      obtain ⟨printed, hrest, houtcome⟩ := ih rest.length (by simp; omega) rest hrestFree hrestRead
        (fun ask hask ↦ hfits ask (List.mem_append_right _ hask)) rfl
      by_cases hmin : ∃ ask ∈ (FormatToken.sequence mods last).asked slot, AsksMinError args ask
      · obtain ⟨ask, hask, herror⟩ := hmin
        refine ⟨none, vprintfmt_fault hmods hlast htoken ⟨ask, hask, herror⟩ hread, fun _ ↦ rfl, ?_⟩
        exact fun hnone ↦ absurd herror (hnone ask (List.mem_append_left _ hask))
      · have hmin' : ∀ ask ∈ (FormatToken.sequence mods last).asked slot, ¬ AsksMinError args ask :=
          fun ask hask herror ↦ hmin ⟨ask, hask, herror⟩
        by_cases hconverts : Converts last
        · obtain ⟨piece, hsequence⟩ := vprintfmt_sequence hmods hlast hconverts htoken hmin'
          refine ⟨_, hsequence format args index slot printed hread (fun _ _ ↦ rfl) hrest, ?_⟩
          apply houtcome.cons _ hmin'
          obtain ⟨hliteral, hend⟩ := reads_append.mp
            (reads_literal memory (FormatToken.sequence mods last).bytes)
          have halone := hsequence (.literal (FormatToken.sequence mods last).bytes)
            (fun i ↦ args (slot + i)) 0 0 (some ((), [])) hliteral
            (fun i _ ↦ by rw [Nat.zero_add]) (vprintfmt_end hend)
          rw [Option.map_some, List.append_nil] at halone
          rw [FormatToken.Puts, if_pos hconverts]
          exact halone
        · refine ⟨_, vprintfmt_unknown hmods hlast hconverts (Ne.symm hnul) htoken hread hrest, ?_⟩
          apply houtcome.cons _ hmin'
          rw [FormatToken.Puts, if_neg hconverts]

/-- For every place of the format and every memory with the strings that are asked for, `vprintfmt` comes
to an end and has put its tokens. -/
def RendersFormat (args : VaList) (text : List Byte) : Prop :=
  ∀ (memory : ByteMemory) (format : CString), format.Reads memory 0 (text ++ [0]) →
    (∀ ask ∈ asked 0 (formatTokens text), ask.2 = ascii 's' → StringFits memory (args ask.1)) →
    ∃ output, Settles memory (fun fuel ↦ vprintfmt fuel format args 0 0) (some ((), output)) ∧
      Rendered memory args 0 (formatTokens text) output

/-- A literal is a string up to its first NUL. -/
theorem exists_literal_name (literal : List Byte) :
    ∃ name, 0 ∉ name ∧ name ++ [0] <+: literal ++ [0] := by
  induction literal with
  | nil => exact ⟨[], List.not_mem_nil, List.prefix_rfl⟩
  | cons ch literal ih =>
    by_cases hch : ch = 0
    · subst hch
      exact ⟨[], List.not_mem_nil, List.cons_prefix_cons.mpr ⟨rfl, List.nil_prefix⟩⟩
    · obtain ⟨name, hfree, hname⟩ := ih
      refine ⟨ch :: name, ?_, List.cons_prefix_cons.mpr ⟨rfl, hname⟩⟩
      rw [List.mem_cons, not_or]
      exact ⟨Ne.symm hch, hfree⟩

/-- Where every byte is 0, all arguments are strings. -/
theorem stringFits_zero (arg : VaArg) : StringFits (fun _ ↦ some 0) arg := by
  intro s hs
  cases arg with
  | word value =>
    rw [VaArg.string] at hs
    split_ifs at hs
    · cases hs
    · obtain rfl := Option.some.inj hs
      exact ⟨[], List.not_mem_nil, reads_memory ⟨rfl, trivial⟩⟩
  | text literal =>
    obtain rfl := Option.some.inj hs
    obtain ⟨name, hfree, rest, hname⟩ := exists_literal_name literal
    have hread := reads_literal (fun _ ↦ some 0) literal
    rw [← hname] at hread
    exact ⟨name, hfree, (reads_append.mp hread).1⟩

theorem not_rendersFormat {ask : ℕ × Byte} (hfree : 0 ∉ text)
    (hwords : ∀ ask ∈ asked 0 (formatTokens text), ask.2 ≠ ascii 's' →
      ∃ word, args ask.1 = .word word)
    (hask : ask ∈ asked 0 (formatTokens text)) (herror : AsksMinError args ask) :
    ¬ RendersFormat args text := by
  intro hrenders
  obtain ⟨output, hsettles, -⟩ := hrenders (fun _ ↦ some 0) (.literal text)
    (reads_literal _ text) fun ask _ _ ↦ stringFits_zero _
  have hfits : ∀ ask ∈ asked 0 (formatTokens text), SlotFits (fun _ ↦ some 0) args ask :=
    fun ask hask ↦ ⟨hwords ask hask, fun _ ↦ stringFits_zero _⟩
  obtain ⟨printed, hprinted, houtcome⟩ :=
    vprintfmt_outcome text hfree (reads_literal (fun _ ↦ some 0) text) hfits
  rw [houtcome.1 ⟨ask, hask, herror⟩] at hprinted
  cases hsettles.unique hprinted

/-- A format is rendered exactly if no `%e` is given the least number. -/
theorem vprintfmt_renders_iff (args : VaList) (text : List Byte) (hfree : 0 ∉ text)
    (hwords : ∀ ask ∈ asked 0 (formatTokens text), ask.2 ≠ ascii 's' →
      ∃ word, args ask.1 = .word word) :
    RendersFormat args text ↔
      ∀ ask ∈ asked 0 (formatTokens text), ¬ AsksMinError args ask := by
  constructor
  · intro hrenders ask hask herror
    exact not_rendersFormat hfree hwords hask herror hrenders
  · intro hmin memory format hread hstrings
    obtain ⟨printed, hprinted, houtcome⟩ := vprintfmt_outcome text hfree hread
      fun ask hask ↦ ⟨hwords ask hask, hstrings ask hask⟩
    obtain ⟨output, rfl, hrendered⟩ := houtcome.2 hmin
    exact ⟨output, hprinted, hrendered⟩

/-- Two conversions that take a slot, one that is unknown and one that is cut off -/
theorem vprintfmt_renders_sample :
    RendersFormat (fun _ ↦ .word 5) ("%-5d%*q%e %0".toList.map ascii) := by
  apply (vprintfmt_renders_iff _ _ (by decide) fun _ _ _ ↦ ⟨5, rfl⟩).mpr
  rintro ask - ⟨-, word, hword, hmin⟩
  obtain rfl : (5 : BitVec 64) = word := VaArg.word.inj hword
  exact absurd hmin (by decide)

theorem vprintfmt_renders_least :
    ¬ RendersFormat (fun _ ↦ .word 0x80000000) ("%e".toList.map ascii) := by
  have hask : (0, ascii 'e') ∈ asked 0 (formatTokens ("%e".toList.map ascii)) := by decide
  exact not_rendersFormat (by decide) (fun _ _ _ ↦ ⟨_, rfl⟩) hask
    ⟨rfl, 0x80000000, rfl, by decide⟩

end Ucore
