import Ucore.Foundation.Numeral
import Ucore.Libs.Printfmt

/-!
# How `vprintfmt` reads a conversion
-/

namespace Ucore

open Foundation Printing ByteMemory

variable {memory : ByteMemory} {s format : CString} {args : VaList} {conv : Conversion}
  {index : ℕ} {text rest digits : List Byte} {ch : Byte} {precision : ℤ}
  {outcome : Option ((Byte × Conversion) × List Byte)}

/-- The bytes of a string from an index on -/
def CString.Reads (memory : ByteMemory) (s : CString) : ℕ → List Byte → Prop
  | _, [] => True
  | index, byte :: text =>
    (s.get index).output memory = some (byte, []) ∧ s.Reads memory (index + 1) text

@[simp]
theorem reads_nil : s.Reads memory index [] := trivial

@[simp]
theorem reads_cons : s.Reads memory index (ch :: text) ↔
    (s.get index).output memory = some (ch, []) ∧ s.Reads memory (index + 1) text := Iff.rfl

theorem reads_append : s.Reads memory index (text ++ rest) ↔
    s.Reads memory index text ∧ s.Reads memory (index + text.length) rest := by
  induction text generalizing index with
  | nil => simp
  | cons ch text ih =>
    have hindex : index + 1 + text.length = index + (ch :: text).length := by
      rw [List.length_cons]
      ring
    rw [List.cons_append, reads_cons, reads_cons, ih, hindex, and_assoc]

/-- A string in memory -/
theorem reads_of_holds {start : BitVec 64} (h : memory.Holds (start + BitVec.ofNat 64 index) text) :
    (CString.memory start).Reads memory index text := by
  induction text generalizing index with
  | nil => exact reads_nil
  | cons ch text ih =>
    obtain ⟨hch, htext⟩ := h
    have hnext : start + BitVec.ofNat 64 index + 1 = start + BitVec.ofNat 64 (index + 1) := by
      rw [BitVec.ofNat_add, ← BitVec.add_assoc]
      rfl
    rw [hnext] at htext
    refine ⟨?_, ih htext⟩
    rw [CString.get, output_load, hch]
    rfl

theorem reads_memory {start : BitVec 64} (h : memory.Holds start text) :
    (CString.memory start).Reads memory 0 text := by
  apply reads_of_holds
  rw [BitVec.add_zero]
  exact h

theorem reads_drop (hindex : (text ++ [0]).drop index = rest) :
    (CString.literal text).Reads memory index rest := by
  induction rest generalizing index with
  | nil => exact reads_nil
  | cons ch rest ih =>
    have hlt : index < (text ++ [0]).length := by
      by_contra hout
      rw [List.drop_eq_nil_of_le (Nat.le_of_not_lt hout)] at hindex
      cases hindex
    rw [List.drop_eq_getElem_cons hlt] at hindex
    obtain ⟨hch, hrest⟩ := List.cons.inj hindex
    refine ⟨?_, ih hrest⟩
    rw [CString.get, List.getElem?_eq_getElem hlt, hch]
    rfl

/-- A literal is read with its NUL. -/
theorem reads_literal (memory : ByteMemory) (text : List Byte) :
    (CString.literal text).Reads memory 0 (text ++ [0]) := reads_drop rfl

/-! ## Numbers in a format -/

def IsDigit (ch : Byte) : Prop := ascii '0' ≤ ch ∧ ch ≤ ascii '9'

instance : DecidablePred IsDigit := fun _ ↦ inferInstanceAs (Decidable (_ ∧ _))

def digitValue (ch : Byte) : ℕ := ch.toNat - 48

theorem not_isDigit : ¬ IsDigit ch ↔ ch < ascii '0' ∨ ch > ascii '9' := by
  rw [IsDigit, not_and_or, BitVec.not_le, BitVec.not_le]

theorem IsDigit.toNat (h : IsDigit ch) : ch.toNat = 48 + digitValue ch ∧ digitValue ch < 10 := by
  obtain ⟨hlower, hupper⟩ := h
  have hlower : 48 ≤ ch.toNat := hlower
  have hupper : ch.toNat ≤ 57 := hupper
  unfold digitValue
  omega

theorem int32_step (number digit : ℕ) :
    int32 (int32 number * 10 + digit) = int32 (number * 10 + digit : ℕ) := by
  have hproduct : int32 (int32 number * 10) = int32 (number * 10) := Int.bmod_mul_bmod
  calc
    int32 (int32 number * 10 + digit) = int32 (int32 (int32 number * 10) + digit) :=
      Int.bmod_add_bmod.symm
    _ = int32 (number * 10 + digit) := by
      rw [hproduct]
      exact Int.bmod_add_bmod
    _ = int32 (number * 10 + digit : ℕ) := by push_cast; rfl

theorem fieldNumber_digit {before : List Byte} (hch : IsDigit ch)
    (hprecision : precision = int32 (positional 10 (before.map digitValue))) :
    int32 (precision * 10 + ch.toNat - (ascii '0').toNat) =
      int32 (positional 10 ((before ++ [ch]).map digitValue)) := by
  have hzero : (ascii '0').toNat = 48 := rfl
  have hdigit : precision * 10 + ch.toNat - (ascii '0').toNat = precision * 10 + digitValue ch := by
    rw [hch.toNat.1, hzero]
    push_cast
    ring
  rw [hdigit, hprecision, int32_step, List.map_append, List.map_singleton, positional_append]

/-- The loop reads all the digits, and wraps the number that they stand for. -/
theorem fieldNumber_eq {before : List Byte} {last : Byte} (hch : IsDigit ch)
    (hdigits : ∀ digit ∈ digits, IsDigit digit) (hlast : ¬ IsDigit last)
    (h : s.Reads memory index (digits ++ [last]))
    (hprecision : precision = int32 (positional 10 (before.map digitValue))) :
    Settles memory (fun fuel ↦ fieldNumber s fuel precision ch index)
      (some ((int32 (positional 10 ((before ++ ch :: digits).map digitValue)),
        index + digits.length), [])) := by
  induction digits generalizing before ch index precision with
  | nil =>
    apply Settles.of_succ
    apply Settles.of_eq
    intro fuel
    rw [fieldNumber, output_bind_silent h.1, if_pos (not_isDigit.mp hlast),
      fieldNumber_digit hch hprecision]
    rfl
  | cons digit digits ih =>
    rw [List.forall_mem_cons] at hdigits
    obtain ⟨hdigit, hdigits⟩ := hdigits
    have hrest := ih hdigit hdigits h.2 (fieldNumber_digit hch hprecision)
    have htext : before ++ [ch] ++ digit :: digits = before ++ ch :: digit :: digits := by simp
    rw [htext, Nat.add_assoc, Nat.add_comm 1] at hrest
    apply Settles.of_step _ hrest
    intro fuel
    rw [fieldNumber, output_bind_silent h.1, if_neg (not_not.mpr hdigit ∘ not_isDigit.mpr)]

/-! ## Flags and numbers -/

/-- The flags, which are one character each -/
def flagChars : List Byte := [ascii '-', ascii '0', ascii '.', ascii '#', ascii 'l']

/-- What a flag sets. -/
def Conversion.set (conv : Conversion) (flag : Byte) : Conversion :=
  if flag = ascii '-' then { conv with padc := ascii '-' }
  else if flag = ascii '0' then { conv with padc := ascii '0' }
  else if flag = ascii '.' then { conv with width := if conv.width < 0 then 0 else conv.width }
  else if flag = ascii '#' then { conv with altflag := true }
  else { conv with lflag := int32 (conv.lflag + 1) }

def Conversion.advance (conv : Conversion) (count : ℕ) : Conversion :=
  { conv with fmt := conv.fmt + count }

@[simp]
theorem advance_fmt (conv : Conversion) (count : ℕ) :
    (conv.advance count).fmt = conv.fmt + count := rfl

@[simp]
theorem advance_ap (conv : Conversion) (count : ℕ) : (conv.advance count).ap = conv.ap := rfl

def Conversion.nextSlot (conv : Conversion) : Conversion := { conv with ap := conv.ap + 1 }

@[simp]
theorem nextSlot_fmt (conv : Conversion) : conv.nextSlot.fmt = conv.fmt := rfl

@[simp]
theorem nextSlot_ap (conv : Conversion) : conv.nextSlot.ap = conv.ap + 1 := rfl

/-- A character that leads back to `reswitch`. -/
def IsModifier (ch : Byte) : Prop := ch ∈ flagChars ∨ IsDigit ch ∨ ch = ascii '*'

instance : DecidablePred IsModifier := fun _ ↦ inferInstanceAs (Decidable (_ ∨ _ ∨ _))

theorem reswitch_flag (hch : ch ∈ flagChars) (h : format.Reads memory conv.fmt [ch])
    (hnext : Settles memory (fun fuel ↦ reswitch format args fuel ((conv.advance 1).set ch)) outcome) :
    Settles memory (fun fuel ↦ reswitch format args fuel conv) outcome := by
  apply hnext.of_step
  intro fuel
  rw [reswitch, output_bind_silent h.1]
  simp only [flagChars, List.mem_cons, List.not_mem_nil, or_false] at hch
  rcases hch with rfl | rfl | rfl | rfl | rfl <;> rfl

theorem IsDigit.ne_flag (hch : IsDigit ch) (hpos : ch ≠ ascii '0') : ch ∉ flagChars := by
  obtain ⟨hvalue, hlt⟩ := hch.toNat
  intro hmem
  simp only [flagChars, List.mem_cons, List.not_mem_nil, or_false] at hmem
  rcases hmem with rfl | rfl | rfl | rfl | rfl
  · exact absurd hch (by decide)
  · exact hpos rfl
  · exact absurd hch (by decide)
  · exact absurd hch (by decide)
  · exact absurd hch (by decide)

theorem IsDigit.range (hch : IsDigit ch) (hpos : ch ≠ ascii '0') :
    ascii '1' ≤ ch ∧ ch ≤ ascii '9' := by
  refine ⟨?_, hch.2⟩
  have hlower : 48 ≤ ch.toNat := hch.1
  have hne : ch.toNat ≠ 48 := fun heq ↦ hpos (BitVec.eq_of_toNat_eq heq)
  change 49 ≤ ch.toNat
  omega

theorem reswitch_number {last : Byte} (hch : IsDigit ch) (hpos : ch ≠ ascii '0')
    (hdigits : ∀ digit ∈ digits, IsDigit digit) (hlast : ¬ IsDigit last)
    (h : format.Reads memory conv.fmt (ch :: digits ++ [last]))
    (hnext : Settles memory (fun fuel ↦ reswitch format args fuel
      ((conv.advance (1 + digits.length)).processPrecision
        (int32 (positional 10 ((ch :: digits).map digitValue))))) outcome) :
    Settles memory (fun fuel ↦ reswitch format args fuel conv) outcome := by
  have hnumber : Settles memory (fun fuel ↦ fieldNumber format fuel 0 ch (conv.fmt + 1))
      (some ((int32 (positional 10 ((([] : List Byte) ++ ch :: digits).map digitValue)),
        conv.fmt + 1 + digits.length), [])) := fieldNumber_eq hch hdigits hlast h.2 rfl
  rw [Nat.add_assoc, List.nil_append] at hnumber
  generalize int32 (positional 10 ((ch :: digits).map digitValue)) = number at hnumber hnext
  have hflag := hch.ne_flag hpos
  simp only [flagChars, List.mem_cons, List.not_mem_nil, or_false, not_or] at hflag
  obtain ⟨hminus, hzero, -⟩ := hflag
  let following (fuel : ℕ) (number : ℤ × ℕ) := reswitch format args fuel
    ({ conv with fmt := number.2 }.processPrecision number.1)
  have hboth : Settles memory
      (fun fuel ↦ fieldNumber format fuel 0 ch (conv.fmt + 1) >>= following fuel) outcome :=
    hnumber.bind_silent hnext
  apply hboth.of_step
  intro fuel
  rw [reswitch, output_bind_silent h.1]
  simp only [if_neg hminus, if_neg hzero, if_pos (hch.range hpos)]
  rfl

theorem reswitch_star {value : BitVec 64} (h : format.Reads memory conv.fmt [ascii '*'])
    (hslot : args conv.ap = .word value)
    (hnext : Settles memory (fun fuel ↦ reswitch format args fuel
      ((conv.advance 1).nextSlot.processPrecision (value.setWidth 32).toInt)) outcome) :
    Settles memory (fun fuel ↦ reswitch format args fuel conv) outcome := by
  apply hnext.of_step
  intro fuel
  rw [reswitch, output_bind_silent h.1]
  have hminus : ascii '*' ≠ ascii '-' := by decide
  have hzero : ascii '*' ≠ ascii '0' := by decide
  have hrange : ¬ (ascii '1' ≤ ascii '*' ∧ ascii '*' ≤ ascii '9') := by decide
  simp only [if_neg hminus, if_neg hzero, if_neg hrange, if_true, hslot]
  rfl

theorem reswitch_last (hch : ¬ IsModifier ch) (h : format.Reads memory conv.fmt [ch]) :
    Settles memory (fun fuel ↦ reswitch format args fuel conv)
      (some ((ch, conv.advance 1), [])) := by
  simp only [IsModifier, flagChars, List.mem_cons, List.not_mem_nil, or_false, not_or] at hch
  obtain ⟨⟨hminus, hzero, hdot, hsharp, hell⟩, hdigit, hstar⟩ := hch
  have hrange : ¬ (ascii '1' ≤ ch ∧ ch ≤ ascii '9') := by
    rintro ⟨hlower, hupper⟩
    have hlower : 49 ≤ ch.toNat := hlower
    apply hdigit
    refine ⟨?_, hupper⟩
    change 48 ≤ ch.toNat
    omega
  apply Settles.of_succ
  apply Settles.of_eq
  intro fuel
  rw [reswitch, output_bind_silent h.1]
  simp only [if_neg hminus, if_neg hzero, if_neg hrange, if_neg hstar, if_neg hdot, if_neg hsharp,
    if_neg hell]
  rfl

@[simp]
theorem set_fmt (conv : Conversion) (flag : Byte) : (conv.set flag).fmt = conv.fmt := by
  unfold Conversion.set
  split_ifs <;> rfl

@[simp]
theorem set_ap (conv : Conversion) (flag : Byte) : (conv.set flag).ap = conv.ap := by
  unfold Conversion.set
  split_ifs <;> rfl

@[simp]
theorem processPrecision_fmt (conv : Conversion) (precision : ℤ) :
    (conv.processPrecision precision).fmt = conv.fmt := by
  unfold Conversion.processPrecision
  split_ifs <;> rfl

@[simp]
theorem processPrecision_ap (conv : Conversion) (precision : ℤ) :
    (conv.processPrecision precision).ap = conv.ap := by
  unfold Conversion.processPrecision
  split_ifs <;> rfl

theorem exists_digits (mods : List Byte) : ∃ digits others, mods = digits ++ others ∧
    (∀ digit ∈ digits, IsDigit digit) ∧ ∀ ch ∈ others.head?, ¬ IsDigit ch := by
  induction mods with
  | nil => exact ⟨[], [], rfl, by simp, by simp⟩
  | cons ch mods ih =>
    by_cases hch : IsDigit ch
    · obtain ⟨digits, others, rfl, hdigits, hothers⟩ := ih
      exact ⟨ch :: digits, others, rfl, List.forall_mem_cons.mpr ⟨hch, hdigits⟩, hothers⟩
    · exact ⟨[], ch :: mods, rfl, by simp, by simpa using hch⟩

theorem int32_idem (value : ℤ) : int32 (int32 value) = int32 value := Int.bmod_bmod

theorem int32_toInt (value : BitVec 32) : int32 value.toInt = value.toInt :=
  Int.bmod_eq_of_le value.le_toInt value.toInt_lt

/-- The same flags and numbers at another position -/
def Conversion.moved (conv : Conversion) (fmt ap : ℕ) : Conversion :=
  { conv with fmt := fmt, ap := ap }

theorem set_moved (conv : Conversion) (flag : Byte) (fmt ap : ℕ) :
    ((conv.moved fmt ap).advance 1).set flag = (conv.set flag).moved (fmt + 1) ap := by
  unfold Conversion.set Conversion.moved Conversion.advance
  split_ifs <;> rfl

theorem processPrecision_moved (conv : Conversion) (precision : ℤ) (fmt ap : ℕ) :
    (conv.moved fmt ap).processPrecision precision =
      (conv.processPrecision precision).moved fmt ap := by
  unfold Conversion.processPrecision Conversion.moved
  split_ifs <;> rfl

/-- The width and the precision are values of an `int`. -/
def Conversion.Ints (conv : Conversion) : Prop :=
  int32 conv.width = conv.width ∧ int32 conv.precision = conv.precision

theorem Conversion.Ints.set (h : conv.Ints) (flag : Byte) : (conv.set flag).Ints := by
  obtain ⟨hwidth, hprecision⟩ := h
  unfold Conversion.set
  split_ifs
  · exact ⟨hwidth, hprecision⟩
  · exact ⟨hwidth, hprecision⟩
  · exact ⟨rfl, hprecision⟩
  · exact ⟨hwidth, hprecision⟩
  · exact ⟨hwidth, hprecision⟩
  · exact ⟨hwidth, hprecision⟩

theorem Conversion.Ints.processPrecision (h : conv.Ints) (hint : int32 precision = precision) :
    (conv.processPrecision precision).Ints := by
  obtain ⟨hwidth, -⟩ := h
  unfold Conversion.processPrecision
  split_ifs
  · exact ⟨hint, rfl⟩
  · exact ⟨hwidth, hint⟩

/-- Whatever flags and numbers there are, and in whatever order, `reswitch` gets to the character after
them, and sets the same wherever they stand. -/
theorem reswitch_modifiers (words : ℕ → BitVec 64) {mods : List Byte} {last : Byte}
    (hmods : ∀ ch ∈ mods, IsModifier ch) (hlast : ¬ IsModifier last) (hints : conv.Ints) :
    ∃ found : Conversion, found.Ints ∧ ∀ (memory : ByteMemory) (format : CString) (args : VaList)
      (index slot : ℕ), format.Reads memory index (mods ++ [last]) →
      (∀ i < mods.count (ascii '*'), args (slot + i) = .word (words i)) →
      Settles memory (fun fuel ↦ reswitch format args fuel (conv.moved index slot))
        (some ((last, found.moved (index + mods.length + 1) (slot + mods.count (ascii '*'))), [])) := by
  induction hlength : mods.length using Nat.strong_induction_on generalizing mods conv words with
  | h length ih =>
    cases mods with
    | nil =>
      subst hlength
      exact ⟨conv, hints, fun memory format args index slot h _ ↦ reswitch_last hlast h⟩
    | cons ch mods =>
      rw [List.forall_mem_cons] at hmods
      obtain ⟨hch, hmods⟩ := hmods
      rw [List.length_cons] at hlength
      subst hlength
      by_cases hflag : ch ∈ flagChars
      · have hstar : ch ≠ ascii '*' := by
          rintro rfl
          exact absurd hflag (by decide)
        obtain ⟨found, hfound, hsettles⟩ := ih mods.length (Nat.lt_succ_self _) words hmods
          (hints.set ch) rfl
        refine ⟨found, hfound, fun memory format args index slot h hwords ↦ ?_⟩
        rw [List.count_cons_of_ne hstar] at hwords ⊢
        have hrest := hsettles memory format args (index + 1) slot h.2 hwords
        rw [← set_moved, Nat.add_right_comm index] at hrest
        exact reswitch_flag hflag ⟨h.1, trivial⟩ hrest
      by_cases hstar : ch = ascii '*'
      · subst hstar
        have hint : int32 ((words 0).setWidth 32).toInt = ((words 0).setWidth 32).toInt :=
          int32_toInt _
        obtain ⟨found, hfound, hsettles⟩ := ih mods.length (Nat.lt_succ_self _)
          (fun i ↦ words (i + 1)) hmods (hints.processPrecision hint) rfl
        refine ⟨found, hfound, fun memory format args index slot h hwords ↦ ?_⟩
        rw [List.count_cons_self] at hwords ⊢
        have hrest := hsettles memory format args (index + 1) (slot + 1) h.2 fun i hi ↦ by
          rw [Nat.add_right_comm]
          exact hwords (i + 1) (Nat.succ_lt_succ hi)
        rw [← processPrecision_moved, Nat.add_right_comm index, Nat.add_assoc slot,
          Nat.add_comm 1] at hrest
        exact reswitch_star ⟨h.1, trivial⟩ (hwords 0 (Nat.succ_pos _)) hrest
      -- A number takes all the digits that follow.
      have hdigit : IsDigit ch := (hch.resolve_left hflag).resolve_right hstar
      have hpos : ch ≠ ascii '0' := by
        rintro rfl
        exact hflag (by decide)
      obtain ⟨digits, others, rfl, hdigits, hothers⟩ := exists_digits mods
      obtain ⟨next, following, hnext⟩ : ∃ next following, others ++ [last] = next :: following :=
        List.exists_cons_of_ne_nil (by simp)
      have hnextDigit : ¬ IsDigit next := by
        cases others with
        | nil =>
          obtain ⟨rfl, -⟩ := List.cons.inj hnext
          exact fun hlastDigit ↦ hlast (.inr (.inl hlastDigit))
        | cons other others =>
          obtain ⟨rfl, -⟩ := List.cons.inj hnext
          exact hothers other rfl
      have hnone : (ch :: (digits ++ others)).count (ascii '*') = others.count (ascii '*') := by
        have hdigitsNone : digits.count (ascii '*') = 0 := by
          rw [List.count_eq_zero]
          exact fun hmem ↦ absurd (hdigits _ hmem) (by decide)
        rw [List.count_cons_of_ne hstar, List.count_append, hdigitsNone, Nat.zero_add]
      rw [List.length_append] at ih ⊢
      rw [List.forall_mem_append] at hmods
      have hnumber := int32_idem (positional 10 ((ch :: digits).map digitValue))
      obtain ⟨found, hfound, hsettles⟩ := ih others.length (by omega) words hmods.2
        (hints.processPrecision hnumber) rfl
      refine ⟨found, hfound, fun memory format args index slot h hwords ↦ ?_⟩
      rw [hnone] at hwords ⊢
      rw [List.cons_append, List.append_assoc, ← List.cons_append] at h
      obtain ⟨-, hothersRead⟩ := reads_append.mp h
      have hrest := hsettles memory format args (index + (1 + digits.length)) slot
        (by rw [Nat.add_comm 1]; exact hothersRead) hwords
      rw [← processPrecision_moved] at hrest
      rw [hnext, List.append_cons] at h
      have hplace : index + (1 + digits.length) + others.length + 1 =
          index + (digits.length + others.length + 1) + 1 := by omega
      rw [hplace] at hrest
      exact reswitch_number hdigit hpos hdigits hnextDigit (reads_append.mp h).1 hrest

/-! ## Rounds of `vprintfmt` -/

variable {slot next slot' : ℕ} {bytes : List Byte} {printed : Option (Unit × List Byte)}

theorem vprintfmt_end (h : format.Reads memory index [0]) :
    Settles memory (fun fuel ↦ vprintfmt fuel format args index slot) (some ((), [])) := by
  apply Settles.of_succ
  apply Settles.of_eq
  intro fuel
  rw [vprintfmt, output_bind_silent h.1]
  rfl

theorem vprintfmt_char (hch : ch ≠ ascii '%') (hnul : ch ≠ 0) (h : format.Reads memory index [ch])
    (hrest : Settles memory (fun fuel ↦ vprintfmt fuel format args (index + 1) slot) printed) :
    Settles memory (fun fuel ↦ vprintfmt fuel format args index slot)
      (printed.map fun last ↦ (last.1, ch :: last.2)) := by
  have hround : Settles memory
      (fun fuel ↦ do putch (ch.setWidth 32); vprintfmt fuel format args (index + 1) slot)
      (printed.map fun last ↦ (last.1, (ch.setWidth 32).setWidth 8 :: last.2)) := hrest.putch
  rw [BitVec.setWidth_setWidth_of_le _ (by decide), BitVec.setWidth_eq] at hround
  apply hround.of_step
  intro fuel
  rw [vprintfmt, output_bind_silent h.1, if_pos hch, if_neg hnul]

/-- A round at a conversion -/
theorem vprintfmt_round (h : format.Reads memory index [ascii '%'])
    (hswitch : Settles memory (fun fuel ↦ reswitch format args fuel { fmt := index + 1, ap := slot })
      (some ((ch, conv), [])))
    (hround : Settles memory (fun fuel ↦ convert (printfmt fuel) fuel format args ch conv >>=
      fun place ↦ vprintfmt fuel format args place.1 place.2) printed) :
    Settles memory (fun fuel ↦ vprintfmt fuel format args index slot) printed := by
  let following (fuel : ℕ) (found : Byte × Conversion) :=
    convert (printfmt fuel) fuel format args found.1 found.2 >>= fun place ↦
      vprintfmt fuel format args place.1 place.2
  have hboth : Settles memory
      (fun fuel ↦ reswitch format args fuel { fmt := index + 1, ap := slot } >>= following fuel)
      printed := hswitch.bind_silent hround
  apply hboth.of_step
  intro fuel
  rw [vprintfmt, output_bind_silent h.1]
  rfl

theorem vprintfmt_conversion (h : format.Reads memory index [ascii '%'])
    (hswitch : Settles memory (fun fuel ↦ reswitch format args fuel { fmt := index + 1, ap := slot })
      (some ((ch, conv), [])))
    (hconvert : Settles memory (fun fuel ↦ convert (printfmt fuel) fuel format args ch conv)
      (some ((next, slot'), bytes)))
    (hrest : Settles memory (fun fuel ↦ vprintfmt fuel format args next slot') printed) :
    Settles memory (fun fuel ↦ vprintfmt fuel format args index slot)
      (printed.map fun last ↦ (last.1, bytes ++ last.2)) := by
  let following (fuel : ℕ) (place : ℕ × ℕ) := vprintfmt fuel format args place.1 place.2
  have hround : Settles memory
      (fun fuel ↦ convert (printfmt fuel) fuel format args ch conv >>= following fuel)
      (printed.map fun last ↦ (last.1, bytes ++ last.2)) := hconvert.bind hrest
  exact vprintfmt_round h hswitch hround

end Ucore
