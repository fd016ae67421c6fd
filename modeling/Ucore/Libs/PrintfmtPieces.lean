import Mathlib.Data.List.GetD
import Ucore.Libs.PrintfmtTokens

/-!
# Formats in pieces

Most formats of the kernel are put together from plain text, `%s` and numeric conversions. What such a
format puts is put together from what its pieces put.
-/

namespace Ucore

open Foundation Printing ByteMemory

/-- A `const char *` that is passed after a format -/
def CString.arg : CString → VaArg
  | memory start => .word start
  | literal text => .text text

inductive FormatPiece where
  | text (chars : List Byte)
  /-- `%s` with the string `name` at `s` -/
  | string (s : CString) (name : List Byte)
  | number (flag : FieldFlag) (width : ℕ) (length : NumberLength) (kind : NumberKind)
      (word : BitVec 64)

namespace FormatPiece

def format : FormatPiece → List Byte
  | text chars => chars
  | string _ _ => [ascii '%', ascii 's']
  | number flag width length kind _ => numberFormat flag width length kind

def shown : FormatPiece → List Byte
  | text chars => chars
  | string _ name => name
  | number flag width length kind word =>
    flag.put width (kind.sign length word) (kind.digits length word)

def slots : FormatPiece → List VaArg
  | text _ => []
  | string s _ => [s.arg]
  | number _ _ _ _ word => [.word word]

/-- Text is put as it stands; a string ends with a NUL and is no longer than its length can tell. -/
def Valid (memory : ByteMemory) : FormatPiece → Prop
  | text chars => ∀ ch ∈ chars, ch ≠ ascii '%' ∧ ch ≠ 0
  | string s name => s ≠ .memory 0 ∧ 0 ∉ name ∧ name.length < 2 ^ 31 - 1 ∧
      s.Reads memory 0 (name ++ [0])
  | number _ _ _ _ _ => True

end FormatPiece

/-- The slots of a call that passes `args` -/
def vaList (args : List VaArg) : VaList := fun slot ↦ args.getD slot (.word 0)

variable {memory : ByteMemory} {format s : CString} {args : VaList} {index slot : ℕ}
  {printed : Option (Unit × List Byte)} {name : List Byte} {word : BitVec 64}

/-- A `%s` without flags puts the whole string. -/
theorem vprintfmt_string (hnul : 0 ∉ name) (hlength : name.length < 2 ^ 31 - 1)
    (hslot : (args slot).string.getD (.literal nullString) = s)
    (hread : s.Reads memory 0 (name ++ [0]))
    (h : format.Reads memory index [ascii '%', ascii 's'])
    (hrest : Settles memory (fun fuel ↦ vprintfmt fuel format args (index + 2) (slot + 1)) printed) :
    Settles memory (fun fuel ↦ vprintfmt fuel format args index slot)
      (printed.map fun last ↦ (last.1, name ++ last.2)) := by
  let conv : Conversion := { fmt := index + 1, ap := slot }
  have hswitch : Settles memory (fun fuel ↦ reswitch format args fuel conv)
      (some ((ascii 's', conv.advance 1), [])) := reswitch_last (by decide) ⟨h.2.1, trivial⟩
  have hunset : int32 (-1) = -1 := by decide
  have hnegative : (-1 : ℤ) < 0 := by decide
  have hpadless : ¬ (conv.advance 1).PadsLeft := fun h ↦ absurd h.1 (by decide : ¬ (-1 : ℤ) > 0)
  have hsmall : name.length < 2 ^ 63 := hlength.trans (by decide)
  have hstring : Settles memory (fun fuel ↦ convertString fuel s (conv.advance 1)) _ :=
    convertString_eq hnul hsmall hunset hunset (if_pos hnegative).symm
      (by rw [List.take_of_length_le (by simp)]; exact hread)
  have hpads : (int32 (-1 - (name.length : ℤ))).toNat = 0 := by
    rw [int32_eq (by omega) (by omega)]
    omega
  have hleft : (conv.advance 1).leftPads name.length = 0 := if_neg hpadless
  have hright : (conv.advance 1).rightPads name.length = 0 := by
    rw [Conversion.rightPads, Conversion.widthAfter, if_neg hpadless]
    exact hpads
  have hshown : name.map (Ucore.shown (conv.advance 1).altflag) = name :=
    (List.map_congr_left fun ch _ ↦ shown_false ch).trans (List.map_id _)
  rw [hleft, hright, List.take_length, hshown, List.replicate_zero, List.replicate_zero,
    List.nil_append, List.append_nil] at hstring
  have hconvert : Settles memory
      (fun fuel ↦ convert (printfmt fuel) fuel format args (ascii 's') (conv.advance 1))
      (some ((index + 1 + 1, slot + 1), name)) := by
    rw [← hslot] at hstring
    exact hstring.then_pure _
  exact vprintfmt_conversion ⟨h.1, trivial⟩ hswitch hconvert hrest

/-- A numeric conversion wherever it stands -/
theorem vprintfmt_number {flag : FieldFlag} {width : ℕ} {length : NumberLength} {kind : NumberKind}
    (hslot : args slot = .word word)
    (h : format.Reads memory index (numberFormat flag width length kind))
    (hrest : Settles memory (fun fuel ↦ vprintfmt fuel format args
      (index + (numberFormat flag width length kind).length) (slot + 1)) printed) :
    Settles memory (fun fuel ↦ vprintfmt fuel format args index slot)
      (printed.map fun last ↦ (last.1,
        flag.put width (kind.sign length word) (kind.digits length word) ++ last.2)) := by
  obtain ⟨hpercent, hfield⟩ := h
  obtain ⟨next, rest, hnext, hdigit⟩ := not_isDigit_length length kind
  have hread : format.Reads memory (index + 1) (flag.text ++ (widthText width ++ [next])) := by
    rw [hnext, ← List.singleton_append, ← List.append_assoc, ← List.append_assoc] at hfield
    rw [← List.append_assoc]
    exact (reads_append.mp hfield).1
  rw [← List.append_assoc, reads_append, List.length_append] at hfield
  let conv : Conversion :=
    { fmt := index + 1 + (flag.text.length + (widthText width).length) + length.text.length + 1,
      ap := slot, padc := flag.padc, width := fieldWidth width, lflag := length.lflag }
  have hswitch : Settles memory
      (fun fuel ↦ reswitch format args fuel { fmt := index + 1, ap := slot })
      (some ((kind.char, conv), [])) :=
    reswitch_field hdigit hread (reswitch_length (not_isModifier_char kind) hfield.2)
  have hconvert : Settles memory
      (fun fuel ↦ convert (printfmt fuel) fuel format args kind.char conv) _ :=
    convert_number hslot rfl
  have hplace : index + (numberFormat flag width length kind).length = conv.fmt := by
    simp only [numberFormat, conv, List.length_cons, List.length_append, List.length_nil]
    omega
  rw [hplace] at hrest
  exact vprintfmt_conversion ⟨hpercent, trivial⟩ hswitch hconvert hrest

/-- A piece puts what it stands for and goes on behind its slots. -/
theorem vprintfmt_piece {piece : FormatPiece} (hvalid : piece.Valid memory)
    (h : format.Reads memory index piece.format)
    (hslots : ∀ i < piece.slots.length, args (slot + i) = piece.slots.getD i (.word 0))
    (hrest : Settles memory (fun fuel ↦ vprintfmt fuel format args (index + piece.format.length)
      (slot + piece.slots.length)) printed) :
    Settles memory (fun fuel ↦ vprintfmt fuel format args index slot)
      (printed.map fun last ↦ (last.1, piece.shown ++ last.2)) := by
  cases piece with
  | text chars => exact vprintfmt_chars hvalid h hrest
  | string s name =>
    obtain ⟨hstart, hnul, hlength, hread⟩ := hvalid
    cases s with
    | memory start =>
      have hslot : args slot = .word start := hslots 0 Nat.one_pos
      have hne : start ≠ 0 := fun hzero ↦ hstart (congrArg CString.memory hzero)
      apply vprintfmt_string hnul hlength _ hread h hrest
      rw [hslot, VaArg.string, if_neg hne]
      rfl
    | literal literal =>
      have hslot : args slot = .text literal := hslots 0 Nat.one_pos
      apply vprintfmt_string hnul hlength _ hread h hrest
      rw [hslot]
      rfl
  | number flag width length kind word =>
    have hslot : args slot = .word word := hslots 0 Nat.one_pos
    exact vprintfmt_number hslot h hrest

/-- What a format of pieces puts -/
theorem vprintfmt_pieces (pieces : List FormatPiece) (hvalid : ∀ piece ∈ pieces, piece.Valid memory)
    (h : format.Reads memory index (pieces.flatMap FormatPiece.format ++ [0]))
    (hslots : ∀ i < (pieces.flatMap FormatPiece.slots).length,
      args (slot + i) = (pieces.flatMap FormatPiece.slots).getD i (.word 0)) :
    Settles memory (fun fuel ↦ vprintfmt fuel format args index slot)
      (some ((), pieces.flatMap FormatPiece.shown)) := by
  induction pieces generalizing index slot with
  | nil => exact vprintfmt_end h
  | cons piece pieces ih =>
    obtain ⟨hfirst, hvalid⟩ := List.forall_mem_cons.mp hvalid
    rw [List.flatMap_cons, List.append_assoc] at h
    obtain ⟨hread, hbehind⟩ := reads_append.mp h
    simp only [List.flatMap_cons, List.length_append] at hslots
    have hbehindSlots : ∀ i < (pieces.flatMap FormatPiece.slots).length,
        args (slot + piece.slots.length + i) = (pieces.flatMap FormatPiece.slots).getD i (.word 0) := by
      intro i hi
      rw [Nat.add_assoc, hslots _ (Nat.add_lt_add_left hi _),
        List.getD_append_right _ _ _ _ (Nat.le_add_right _ _), Nat.add_sub_cancel_left]
    have hrest := ih hvalid hbehind hbehindSlots
    have hpiece := vprintfmt_piece hfirst hread (fun i hi ↦ by
      rw [hslots i (Nat.lt_add_right _ hi), List.getD_append _ _ _ _ hi]) hrest
    exact hpiece

/-- What a literal format comes to when its slots are what its pieces take. -/
theorem literal_pieces (pieces : List FormatPiece) (hvalid : ∀ piece ∈ pieces, piece.Valid memory) :
    Settles memory
      (fun fuel ↦ vprintfmt fuel (.literal (pieces.flatMap FormatPiece.format))
        (vaList (pieces.flatMap FormatPiece.slots)) 0 0)
      (some ((), pieces.flatMap FormatPiece.shown)) := by
  apply vprintfmt_pieces pieces hvalid (reads_literal memory _)
  intro i _
  rw [vaList, Nat.zero_add]

end Ucore
