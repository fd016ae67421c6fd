import Ucore.Libs.PrintfmtField

/-!
# Fields of strings
-/

namespace Ucore

open Foundation Printing

variable {memory : ByteMemory} {s format : CString} {args : VaList} {altflag : Bool}
  {index count len cnt : ℕ} {text : List Byte} {precision width : ℤ} {conv : Conversion}

theorem reads_take {fewer more : ℕ} (h : s.Reads memory index (text.take more))
    (hle : fewer ≤ more) : s.Reads memory index (text.take fewer) := by
  have hsplit : text.take more = text.take fewer ++ (text.take more).drop fewer := by
    calc
      text.take more = (text.take more).take fewer ++ (text.take more).drop fewer :=
        (List.take_append_drop fewer _).symm
      _ = _ := by rw [List.take_take, Nat.min_eq_left hle]
  rw [hsplit] at h
  exact (reads_append.mp h).1

/-! ## The loops of `%s` -/

/-- The number of characters of a string of `length` that a precision lets through -/
def shownCount (precision : ℤ) (length : ℕ) : ℕ :=
  if precision < 0 then length else min length precision.toNat

theorem shownCount_le (precision : ℤ) (length : ℕ) : shownCount precision length ≤ length := by
  unfold shownCount
  split_ifs <;> omega

/-- The character put for one of the string -/
def shown (altflag : Bool) (ch : Byte) : Byte :=
  if altflag ∧ (ch < ascii ' ' ∨ ch > ascii '~') then ascii '?' else ch

theorem strnlen_eq (hnul : 0 ∉ text) (hle : cnt ≤ len)
    (h : s.Reads memory cnt ((text ++ [0]).take (len - cnt))) :
    Settles memory (fun fuel ↦ strnlen s len fuel cnt)
      (some (min (cnt + text.length) len, [])) := by
  induction text generalizing cnt with
  | nil =>
    apply Settles.of_succ
    apply Settles.of_eq
    intro fuel
    rw [strnlen]
    by_cases hlt : cnt < len
    · obtain ⟨more, hmore⟩ := Nat.exists_eq_add_one_of_ne_zero (show len - cnt ≠ 0 by omega)
      rw [hmore] at h
      rw [if_pos hlt, output_bind_silent h.1, if_neg (not_not.mpr rfl), List.length_nil, Nat.add_zero,
        Nat.min_eq_left hle]
      rfl
    · rw [if_neg hlt, List.length_nil, Nat.add_zero, Nat.min_eq_left hle]
      rfl
  | cons ch text ih =>
    rw [List.mem_cons, not_or] at hnul
    by_cases hlt : cnt < len
    · have hless : len - cnt = len - (cnt + 1) + 1 := by omega
      rw [hless] at h
      have hrest := ih hnul.2 hlt h.2
      have hsum : cnt + 1 + text.length = cnt + (ch :: text).length := by
        rw [List.length_cons]
        ring
      rw [hsum] at hrest
      apply hrest.of_step
      intro fuel
      rw [strnlen, if_pos hlt, output_bind_silent h.1, if_pos (Ne.symm hnul.1)]
    · have heq : cnt = len := by omega
      subst heq
      apply Settles.of_succ
      apply Settles.of_eq
      intro fuel
      rw [strnlen, if_neg hlt, Nat.min_eq_right (Nat.le_add_right _ _)]
      rfl

/-- The loop puts what the precision lets through, and counts down the width for each character. -/
theorem putString_eq (hnul : 0 ∉ text) (hwidth : int32 width = width)
    (h : s.Reads memory index ((text ++ [0]).take (shownCount precision text.length + 1))) :
    Settles memory (fun fuel ↦ putString s altflag fuel index precision width)
      (some (int32 (width - shownCount precision text.length),
        (text.take (shownCount precision text.length)).map (shown altflag))) := by
  induction text generalizing index precision width with
  | nil =>
    have hcount : shownCount precision 0 = 0 := Nat.le_zero.mp (shownCount_le precision 0)
    rw [List.length_nil, hcount] at h ⊢
    apply Settles.of_succ
    apply Settles.of_eq
    intro fuel
    rw [putString, output_bind_silent h.1, if_neg (fun both ↦ both.1 rfl), Nat.cast_zero, sub_zero,
      hwidth]
    rfl
  | cons ch text ih =>
    rw [List.mem_cons, not_or] at hnul
    have hread := h.1
    by_cases hgo : precision < 0 ∨ precision - 1 ≥ 0
    · have hcount : shownCount precision (ch :: text).length =
          shownCount (if precision < 0 then precision else precision - 1) text.length + 1 := by
        unfold shownCount
        rw [List.length_cons]
        split_ifs <;> omega
      have hstep : ∀ fuel, (putString s altflag (fuel + 1) index precision width).output memory =
          (do
            putch ((shown altflag ch).setWidth 32)
            putString s altflag fuel (index + 1) (if precision < 0 then precision else precision - 1)
              (int32 (width - 1))).output memory := by
        intro fuel
        rw [putString, output_bind_silent hread, if_pos ⟨Ne.symm hnul.1, hgo⟩, shown]
        split_ifs <;> rfl
      rw [hcount] at h ⊢
      have hidem : int32 (int32 (width - 1)) = int32 (width - 1) := Int.bmod_bmod
      have hrest := ih hnul.2 hidem h.2
      generalize (if precision < 0 then precision else precision - 1) = precision' at hrest hstep ⊢
      have hcounted : int32 (int32 (width - 1) - shownCount precision' text.length) =
          int32 (width - (shownCount precision' text.length + 1 : ℕ)) := by
        rw [int32_sub, sub_sub, Nat.cast_add, Nat.cast_one, add_comm (1 : ℤ)]
      have hch : ((shown altflag ch).setWidth 32).setWidth 8 = shown altflag ch := by
        rw [BitVec.setWidth_setWidth_of_le _ (by decide), BitVec.setWidth_eq]
      rw [hcounted] at hrest
      have hround : Settles memory (fun fuel ↦ do
          putch ((shown altflag ch).setWidth 32)
          putString s altflag fuel (index + 1) precision' (int32 (width - 1))) _ := hrest.putch
      rw [hch] at hround
      exact hround.of_step hstep
    · have hcount : shownCount precision (ch :: text).length = 0 := by
        unfold shownCount
        split_ifs <;> omega
      rw [hcount]
      apply Settles.of_succ
      apply Settles.of_eq
      intro fuel
      rw [putString, output_bind_silent hread, if_neg (fun both ↦ hgo both.2), Nat.cast_zero,
        sub_zero, hwidth]
      rfl

/-- A read that fails before `strnlen` knows the length. -/
theorem strnlen_fault (hnul : 0 ∉ text) (hcount : count ≤ text.length) (hlt : cnt + count < len)
    (h : s.Reads memory cnt (text.take count)) (hfault : (s.get (cnt + count)).output memory = none) :
    Settles memory (fun fuel ↦ strnlen s len fuel cnt) none := by
  induction count generalizing cnt text with
  | zero =>
    apply Settles.of_succ
    apply Settles.of_eq
    intro fuel
    rw [Nat.add_zero] at hlt hfault
    rw [strnlen, if_pos hlt]
    exact output_bind_none hfault
  | succ count ih =>
    cases text with
    | nil => simp at hcount
    | cons ch text =>
      rw [List.mem_cons, not_or] at hnul
      rw [Nat.add_comm count, ← Nat.add_assoc] at hlt hfault
      have hrest := ih hnul.2 (Nat.le_of_succ_le_succ hcount) hlt h.2 hfault
      apply hrest.of_step
      intro fuel
      rw [strnlen, if_pos (by omega), output_bind_silent h.1, if_pos (Ne.symm hnul.1)]

theorem putString_fault (hnul : 0 ∉ text) (hcount : count ≤ shownCount precision text.length)
    (h : s.Reads memory index (text.take count))
    (hfault : (s.get (index + count)).output memory = none) :
    Settles memory (fun fuel ↦ putString s altflag fuel index precision width) none := by
  induction count generalizing index precision width text with
  | zero =>
    apply Settles.of_succ
    apply Settles.of_eq
    intro fuel
    exact output_bind_none hfault
  | succ count ih =>
    cases text with
    | nil => simp [Nat.le_zero.mp (shownCount_le precision 0)] at hcount
    | cons ch text =>
      rw [List.mem_cons, not_or] at hnul
      rw [Nat.add_comm count, ← Nat.add_assoc] at hfault
      have hgo : precision < 0 ∨ precision - 1 ≥ 0 := by
        unfold shownCount at hcount
        split_ifs at hcount <;> omega
      have hless : count ≤
          shownCount (if precision < 0 then precision else precision - 1) text.length := by
        unfold shownCount at hcount ⊢
        rw [List.length_cons] at hcount
        split_ifs at hcount ⊢ <;> omega
      have hrest : Settles memory (fun fuel ↦ putString s altflag fuel (index + 1)
          (if precision < 0 then precision else precision - 1) (int32 (width - 1))) none :=
        ih hnul.2 hless h.2 hfault
      have hround : Settles memory (fun fuel ↦ do
          putch ((shown altflag ch).setWidth 32)
          putString s altflag fuel (index + 1) _ (int32 (width - 1))) none := hrest.putch
      apply hround.of_step
      intro fuel
      rw [putString, output_bind_silent h.1, if_pos ⟨Ne.symm hnul.1, hgo⟩, shown]
      split_ifs <;> rfl

/-! ## The whole conversion -/

def Conversion.PadsLeft (conv : Conversion) : Prop := conv.width > 0 ∧ conv.padc ≠ ascii '-'

instance (conv : Conversion) : Decidable conv.PadsLeft := inferInstanceAs (Decidable (_ ∧ _))

def Conversion.leftPads (conv : Conversion) (count : ℕ) : ℕ :=
  if conv.PadsLeft then (int32 (conv.width - count)).toNat else 0

/-- What is left of the width after the padding on the left -/
def Conversion.widthAfter (conv : Conversion) (count : ℕ) : ℤ :=
  if conv.PadsLeft then min (int32 (conv.width - count)) 0 else conv.width

def Conversion.rightPads (conv : Conversion) (count : ℕ) : ℕ :=
  (int32 (conv.widthAfter count - count)).toNat

theorem output_padding (ch : BitVec 32) (count : ℕ) :
    (padding ch count).output memory = some ((), List.replicate count (ch.setWidth 8)) := by
  rw [padding_eq, output_putAll, List.map_replicate]

/-- The padding on the left, with what is left of the width -/
def leftPadding (fuel : ℕ) (s : CString) (conv : Conversion) : Printing ℤ :=
  if conv.PadsLeft then do
    let len ← strnlen s (BitVec.ofInt 64 conv.precision).toNat fuel 0
    let width := int32 (conv.width - len)
    padding (conv.padc.setWidth 32) width.toNat
    pure (min width 0)
  else pure conv.width

theorem convertString_eq_bind (fuel : ℕ) (s : CString) (conv : Conversion) :
    convertString fuel s conv = (do
      let width ← leftPadding fuel s conv
      let width ← putString s conv.altflag fuel 0 conv.precision width
      padding ((ascii ' ').setWidth 32) width.toNat) := by
  unfold convertString leftPadding
  by_cases hpads : conv.PadsLeft
  · have hcond : conv.width > 0 ∧ conv.padc ≠ ascii '-' := hpads
    simp only [if_pos hcond, if_pos hpads, bind_assoc, pure_bind]
  · have hcond : ¬ (conv.width > 0 ∧ conv.padc ≠ ascii '-') := hpads
    simp only [if_neg hcond, if_neg hpads, pure_bind]

/-- A precision as the `size_t` that `strnlen` is given -/
def Conversion.sizeT (conv : Conversion) : ℕ := (BitVec.ofInt 64 conv.precision).toNat

theorem min_sizeT {length : ℕ} (hprecision : int32 conv.precision = conv.precision)
    (hlength : length < 2 ^ 63) :
    min length conv.sizeT = shownCount conv.precision length := by
  obtain ⟨hlower, hupper, -⟩ := int32_spec conv.precision
  rw [Conversion.sizeT, BitVec.toNat_ofInt]
  unfold shownCount
  split_ifs <;> omega

theorem leftPadding_eq (hnul : 0 ∉ text)
    (h : conv.PadsLeft → s.Reads memory 0 ((text ++ [0]).take conv.sizeT)) :
    Settles memory (fun fuel ↦ leftPadding fuel s conv)
      (some (conv.widthAfter (min text.length conv.sizeT),
        List.replicate (conv.leftPads (min text.length conv.sizeT)) conv.padc)) := by
  unfold leftPadding Conversion.leftPads Conversion.widthAfter
  split_ifs with hpads
  · have hlen : Settles memory (fun fuel ↦ strnlen s conv.sizeT fuel 0) _ :=
      strnlen_eq hnul (Nat.zero_le _) (h hpads)
    rw [Nat.zero_add] at hlen
    let following (_ : ℕ) (len : ℕ) : Printing ℤ := do
      padding (conv.padc.setWidth 32) (int32 (conv.width - len)).toNat
      pure (min (int32 (conv.width - len)) 0)
    have hpadding : Settles memory (fun fuel ↦ following fuel (min text.length conv.sizeT))
        (some (min (int32 (conv.width - (min text.length conv.sizeT : ℕ))) 0,
          List.replicate (int32 (conv.width - (min text.length conv.sizeT : ℕ))).toNat
            conv.padc)) := by
      apply Settles.of_eq
      intro fuel
      change (padding _ _ >>= _).output memory = _
      rw [output_bind_of (output_padding _ _), BitVec.setWidth_setWidth_of_le _ (by decide),
        BitVec.setWidth_eq]
      simp
    exact hlen.bind_silent hpadding
  · exact Settles.of_eq fun _ ↦ rfl

theorem convertString_eq {m : ℕ} (hnul : 0 ∉ text) (hlength : text.length < 2 ^ 63)
    (hwidth : int32 conv.width = conv.width) (hprecision : int32 conv.precision = conv.precision)
    (hm : m = shownCount conv.precision text.length)
    (h : s.Reads memory 0 ((text ++ [0]).take (m + 1))) :
    Settles memory (fun fuel ↦ convertString fuel s conv)
      (some ((), List.replicate (conv.leftPads m) conv.padc ++
        ((text.take m).map (shown conv.altflag) ++
          List.replicate (conv.rightPads m) (ascii ' ')))) := by
  have hafter : int32 (conv.widthAfter m) = conv.widthAfter m := by
    unfold Conversion.widthAfter
    split_ifs
    · obtain ⟨hlower, -, -⟩ := int32_spec (conv.width - m)
      exact int32_eq (by omega) (by omega)
    · exact hwidth
  have hsize : min text.length conv.sizeT = m := (min_sizeT hprecision hlength).trans hm.symm
  have hread : s.Reads memory 0 ((text ++ [0]).take conv.sizeT) := by
    by_cases hle : conv.sizeT ≤ text.length
    · exact reads_take h (by omega)
    · have hall : m = text.length := hsize.symm.trans (Nat.min_eq_left (by omega))
      have hlong : (text ++ [0]).length ≤ conv.sizeT := by
        rw [List.length_append, List.length_singleton]
        omega
      rw [hall, List.take_of_length_le (by simp)] at h
      rw [List.take_of_length_le hlong]
      exact h
  have hleft := leftPadding_eq hnul fun _ ↦ hread
  rw [hsize] at hleft
  rw [hm] at h
  have hchars : Settles memory
      (fun fuel ↦ putString s conv.altflag fuel 0 conv.precision (conv.widthAfter m)) _ :=
    putString_eq hnul hafter h
  rw [← hm] at hchars
  have hright : Settles memory
      (fun _ ↦ padding ((ascii ' ').setWidth 32) (int32 (conv.widthAfter m - m)).toNat)
      (some ((), List.replicate (conv.rightPads m) (ascii ' '))) :=
    Settles.of_eq fun _ ↦ output_padding _ _
  let last (_ : ℕ) (width : ℤ) := padding ((ascii ' ').setWidth 32) width.toNat
  let following (fuel : ℕ) (width : ℤ) :=
    putString s conv.altflag fuel 0 conv.precision width >>= last fuel
  have hrest : Settles memory (fun fuel ↦ following fuel (conv.widthAfter m)) _ := hchars.bind hright
  have hboth : Settles memory (fun fuel ↦ leftPadding fuel s conv >>= following fuel) _ :=
    hleft.bind hrest
  simp only [convertString_eq_bind]
  exact hboth

/-- A read that fails at a character that the precision lets through, or just after them -/
theorem convertString_fault (hnul : 0 ∉ text)
    (hcount : count ≤ shownCount conv.precision text.length)
    (h : s.Reads memory 0 (text.take count)) (hfault : (s.get count).output memory = none) :
    Settles memory (fun fuel ↦ convertString fuel s conv) none := by
  have hall : count ≤ text.length := hcount.trans (shownCount_le _ _)
  have hfault' : (s.get (0 + count)).output memory = none := by rw [Nat.zero_add]; exact hfault
  let last (_ : ℕ) (width : ℤ) := padding ((ascii ' ').setWidth 32) width.toNat
  let following (fuel : ℕ) (width : ℤ) :=
    putString s conv.altflag fuel 0 conv.precision width >>= last fuel
  have hchars : ∀ width, Settles memory (fun fuel ↦ following fuel width) none :=
    fun width ↦ (putString_fault hnul hcount h hfault').bind_none
  simp only [convertString_eq_bind]
  by_cases hlt : conv.PadsLeft ∧ count < conv.sizeT
  · have hlen : Settles memory (fun fuel ↦ strnlen s conv.sizeT fuel 0) none :=
      strnlen_fault hnul hall (by omega) h hfault'
    have hleft : Settles memory (fun fuel ↦ leftPadding fuel s conv) none := by
      unfold leftPadding
      simp only [if_pos hlt.1]
      exact hlen.bind_none
    exact hleft.bind_none
  · -- `strnlen` stops before the byte that cannot be read.
    have hread : conv.PadsLeft → s.Reads memory 0 ((text ++ [0]).take conv.sizeT) := by
      intro hpads
      have hle : conv.sizeT ≤ count := Nat.le_of_not_lt fun hless ↦ hlt ⟨hpads, hless⟩
      rw [List.take_append_of_le_length (hle.trans hall)]
      exact reads_take h hle
    have hleft := leftPadding_eq hnul hread
    exact hleft.bind (hchars _)

/-! ## The format -/

def precisionText : Option ℕ → List Byte
  | none => []
  | some precision => ascii '.' :: numeralBytes 10 precision

def sizeText : Option ℕ → List Byte
  | none => []
  | some width => numeralBytes 10 width

/-- `%s` with a width and a precision -/
def stringFormat (flag : FieldFlag) (width precision : Option ℕ) : List Byte :=
  ascii '%' :: (flag.text ++ (sizeText width ++ (precisionText precision ++ [ascii 's'])))

/-- `padc` after a width; the width 0 is a flag. -/
def sizePadc (flag : FieldFlag) (width : Option ℕ) : Byte :=
  if width = some 0 then ascii '0' else flag.padc

/-- `width` after a precision -/
def stringWidth (width : ℤ) : Option ℕ → ℤ
  | none => width
  | some _ => if width < 0 then 0 else width

/-- `precision`; the digit 0 is a flag. -/
def stringPrecision : Option ℕ → ℤ
  | none => -1
  | some precision => if precision = 0 then -1 else int32 precision

def stringPadc (padc : Byte) (precision : Option ℕ) : Byte :=
  if precision = some 0 then ascii '0' else padc

theorem reswitch_size {flag : FieldFlag} {widthArg : Option ℕ} {next : Byte} {slot : ℕ}
    {outcome : Option ((Byte × Conversion) × List Byte)} (hnext : ¬ IsDigit next)
    (h : format.Reads memory index (flag.text ++ (sizeText widthArg ++ [next])))
    (hrest : Settles memory (fun fuel ↦ reswitch format args fuel
      { fmt := index + (flag.text.length + (sizeText widthArg).length), ap := slot,
        padc := sizePadc flag widthArg, width := fieldWidth (widthArg.getD 0) }) outcome) :
    Settles memory (fun fuel ↦ reswitch format args fuel { fmt := index, ap := slot }) outcome := by
  by_cases hzero : widthArg = some 0
  · subst hzero
    obtain ⟨hflag, hwidth⟩ := reads_append.mp h
    obtain ⟨hdigit, -⟩ := hwidth
    cases flag with
    | blank => exact reswitch_flag (by decide) ⟨hdigit, trivial⟩ hrest
    | zero =>
      exact reswitch_flag (by decide) hflag (reswitch_flag (by decide) ⟨hdigit, trivial⟩ hrest)
    | minus =>
      exact reswitch_flag (by decide) hflag (reswitch_flag (by decide) ⟨hdigit, trivial⟩ hrest)
  · have htext : sizeText widthArg = widthText (widthArg.getD 0) := by
      cases widthArg with
      | none => rfl
      | some width => exact (if_neg (by simpa using hzero)).symm
    rw [sizePadc, if_neg hzero, htext] at hrest
    rw [htext] at h
    exact reswitch_field hnext h hrest

theorem reswitch_precision {precision : Option ℕ} {padc : Byte} {slot : ℕ}
    (h : format.Reads memory index (precisionText precision ++ [ascii 's'])) :
    Settles memory
      (fun fuel ↦ reswitch format args fuel { fmt := index, ap := slot, padc := padc, width := width })
      (some ((ascii 's',
        { fmt := index + (precisionText precision).length + 1, ap := slot
          padc := stringPadc padc precision, width := stringWidth width precision
          precision := stringPrecision precision }), [])) := by
  have hlast : ¬ IsModifier (ascii 's') := by decide
  cases precision with
  | none => exact reswitch_last hlast h
  | some number =>
    obtain ⟨hdot, hnumber⟩ := h
    apply reswitch_flag (by decide) ⟨hdot, trivial⟩
    by_cases hzero : number = 0
    · subst hzero
      obtain ⟨hdigit, hrest⟩ := hnumber
      exact reswitch_flag (by decide) ⟨hdigit, trivial⟩ (reswitch_last hlast hrest)
    · obtain ⟨ch, digits, hbytes, hch, hpos, hdigits⟩ := exists_numeral hzero
      have hvalue : positional 10 ((ch :: digits).map digitValue) = number := by
        rw [← hbytes, digitValue_numeral, positional_numeral]
      have hdigit : ¬ IsDigit (ascii 's') := by decide
      have hwidth : ¬ (if width < 0 then 0 else width) < 0 := by split_ifs <;> omega
      change format.Reads memory (index + 1) (numeralBytes 10 number ++ [ascii 's']) at hnumber
      rw [hbytes] at hnumber
      apply reswitch_number hch hpos hdigits hdigit hnumber
      have hend := (reads_append.mp hnumber).2
      have hplace : index + 1 + (ch :: digits).length = index + 1 + (1 + digits.length) := by
        rw [List.length_cons, Nat.add_comm 1]
      have hfmt : index + (precisionText (some number)).length + 1 =
          index + 1 + (1 + digits.length) + 1 := by
        rw [precisionText, hbytes, List.length_cons, List.length_cons]
        ring
      have hpadc : stringPadc padc (some number) = padc := if_neg (by simpa using hzero)
      have hprecision : stringPrecision (some number) = int32 number := if_neg hzero
      let conv : Conversion := { fmt := index, ap := slot, padc := padc, width := width }
      have hconv : (((conv.advance 1).set (ascii '.')).advance (1 + digits.length)).processPrecision
            (int32 number) =
          { fmt := index + 1 + (1 + digits.length), ap := slot, padc := padc
            width := if width < 0 then 0 else width, precision := int32 number } := if_neg hwidth
      rw [hplace] at hend
      rw [hvalue, hfmt, hpadc, hprecision, hconv]
      generalize int32 number = value
      exact reswitch_last hlast hend

/-- The variables of the conversion of `stringFormat` -/
def stringConversion (flag : FieldFlag) (width precision : Option ℕ) : Conversion where
  fmt := (stringFormat flag width precision).length
  ap := 0
  padc := stringPadc (sizePadc flag width) precision
  width := stringWidth (fieldWidth (width.getD 0)) precision
  precision := stringPrecision precision

variable {flag : FieldFlag} {widthArg precisionArg : Option ℕ} {start : BitVec 64}

theorem reswitch_stringFormat
    (h : format.Reads memory 0 (stringFormat flag widthArg precisionArg ++ [0])) :
    Settles memory (fun fuel ↦ reswitch format args fuel { fmt := 0 + 1, ap := 0 })
      (some ((ascii 's', stringConversion flag widthArg precisionArg), [])) := by
  obtain ⟨-, hfield⟩ := (reads_append.mp h).1
  obtain ⟨next, rest, hnext, hdigit⟩ : ∃ next rest,
      precisionText precisionArg ++ [ascii 's'] = next :: rest ∧ ¬ IsDigit next := by
    cases precisionArg with
    | none => exact ⟨ascii 's', [], rfl, by decide⟩
    | some precision => exact ⟨ascii '.', _, rfl, by decide⟩
  have hread : format.Reads memory (0 + 1) (flag.text ++ (sizeText widthArg ++ [next])) := by
    rw [hnext, ← List.singleton_append, ← List.append_assoc, ← List.append_assoc] at hfield
    rw [← List.append_assoc]
    exact (reads_append.mp hfield).1
  have hlength : (stringFormat flag widthArg precisionArg).length =
      0 + 1 + (flag.text.length + (sizeText widthArg).length) +
        (precisionText precisionArg).length + 1 := by
    simp only [stringFormat, List.length_cons, List.length_append, List.length_nil]
    ring
  rw [← List.append_assoc, reads_append, List.length_append] at hfield
  rw [stringConversion, hlength]
  exact reswitch_size hdigit hread (reswitch_precision hfield.2)

theorem vprintfmt_stringFormat {bytes : List Byte} (hstart : start ≠ 0) (hslot : args 0 = .word start)
    (h : format.Reads memory 0 (stringFormat flag widthArg precisionArg ++ [0]))
    (hconvert : Settles memory (fun fuel ↦ convertString fuel (.memory start)
      (stringConversion flag widthArg precisionArg)) (some ((), bytes))) :
    Settles memory (fun fuel ↦ vprintfmt fuel format args 0 0) (some ((), bytes)) := by
  have hstring : (args 0).string.getD (.literal nullString) = .memory start := by
    rw [hslot, VaArg.string, if_neg hstart]
    rfl
  obtain ⟨hformat, hend⟩ := reads_append.mp h
  rw [Nat.zero_add] at hend
  have hreturn := hconvert.then_pure ((stringFormat flag widthArg precisionArg).length, 0 + 1)
  rw [← hstring] at hreturn
  have hboth := vprintfmt_conversion ⟨hformat.1, trivial⟩ (reswitch_stringFormat h) hreturn
    (vprintfmt_end hend)
  rw [Option.map_some, List.append_nil] at hboth
  exact hboth

theorem vprintfmt_stringFormat_fault (hstart : start ≠ 0) (hslot : args 0 = .word start)
    (h : format.Reads memory 0 (stringFormat flag widthArg precisionArg ++ [0]))
    (hconvert : Settles memory (fun fuel ↦ convertString fuel (.memory start)
      (stringConversion flag widthArg precisionArg)) none) :
    Settles memory (fun fuel ↦ vprintfmt fuel format args 0 0) none := by
  have hstring : (args 0).string.getD (.literal nullString) = .memory start := by
    rw [hslot, VaArg.string, if_neg hstart]
    rfl
  obtain ⟨hformat, -⟩ := reads_append.mp h
  rw [← hstring] at hconvert
  exact vprintfmt_round ⟨hformat.1, trivial⟩ (reswitch_stringFormat h) hconvert.bind_none.bind_none

/-! ## Where that is the field -/

/-- A width of `width` that is counted down `count` times does not end positive. -/
def CountsDown (width : ℤ) (count : ℕ) : Prop := (count - width) % 2 ^ 32 ≤ 2 ^ 31

/-- A width that the source takes to be `width` gives a string of `length` characters a field of
`fieldSize`. -/
def FieldFits (flag : FieldFlag) (width : ℤ) (fieldSize length : ℕ) : Prop :=
  if flag = .minus then
    if fieldSize ≤ length then CountsDown width length
    else width = int32 fieldSize ∧ fieldSize < 2 ^ 31 + length
  else
    if fieldSize ≤ length then
      CountsDown width length ∧ (0 < width → CountsDown width (2 * length))
    else 0 < width ∧ fieldSize < 2 ^ 31 + length ∧ CountsDown 0 length

theorem int32_nonpos_iff (width : ℤ) (count : ℕ) :
    int32 (width - count) ≤ 0 ↔ CountsDown width count := by
  obtain ⟨hlower, hupper, turns, hturns⟩ := int32_spec (width - count)
  unfold CountsDown
  have hneg : count - width = -int32 (width - count) - 2 ^ 32 * turns := by omega
  rw [hneg]
  omega

theorem toNat_int32_eq_zero (width : ℤ) (count : ℕ) :
    (int32 (width - count)).toNat = 0 ↔ CountsDown width count := by
  rw [← int32_nonpos_iff]
  omega

theorem int32_exact_iff {fieldSize length : ℕ} (h : length < fieldSize) :
    (int32 (fieldSize - length)).toNat = fieldSize - length ↔ fieldSize < 2 ^ 31 + length := by
  obtain ⟨hlower, hupper, turns, hturns⟩ := int32_spec (fieldSize - length)
  constructor
  · omega
  · intro hlt
    rw [int32_eq (by omega) (by omega)]
    omega

variable {length : ℕ}

theorem leftPads_iff {fieldSize : ℕ} (conv : Conversion) (length : ℕ)
    (hpads : conv.PadsLeft ↔ 0 < conv.width)
    (hwidth : 0 < conv.width → conv.width = int32 fieldSize) :
    conv.leftPads length = fieldSize - length ∧ conv.rightPads length = 0 ↔
      FieldFits .blank conv.width fieldSize length := by
  have hfits : FieldFits .blank conv.width fieldSize length =
      if fieldSize ≤ length then
        CountsDown conv.width length ∧ (0 < conv.width → CountsDown conv.width (2 * length))
      else 0 < conv.width ∧ fieldSize < 2 ^ 31 + length ∧ CountsDown 0 length := if_neg (by decide)
  rw [hfits]
  unfold Conversion.leftPads Conversion.rightPads Conversion.widthAfter
  by_cases hpos : 0 < conv.width
  · have hsub : int32 (conv.width - length) = int32 (fieldSize - length) := by
      rw [hwidth hpos, int32_sub]
    simp only [if_pos (hpads.mpr hpos)]
    by_cases hle : fieldSize ≤ length
    · rw [if_pos hle, Nat.sub_eq_zero_of_le hle, toNat_int32_eq_zero]
      apply and_congr_right
      intro hdown
      have htwice : int32 (int32 (conv.width - length) - length) =
          int32 (conv.width - (2 * length : ℕ)) := by
        rw [int32_sub, sub_sub]
        push_cast
        ring_nf
      rw [min_eq_left ((int32_nonpos_iff _ _).mpr hdown), htwice, toNat_int32_eq_zero]
      simp [hpos]
    · have hgt := Nat.lt_of_not_le hle
      rw [if_neg hle, hsub, int32_exact_iff hgt]
      simp only [hpos, true_and]
      apply and_congr_right
      intro hlt
      have hvalue : int32 (fieldSize - length) = fieldSize - length :=
        int32_eq (by omega) (by omega)
      rw [hvalue, min_eq_right (by omega), toNat_int32_eq_zero]
  · simp only [if_neg (mt hpads.mp hpos), toNat_int32_eq_zero]
    by_cases hle : fieldSize ≤ length
    · simp [hle, hpos, Nat.sub_eq_zero_of_le hle]
    · simp [hle, hpos]
      omega

theorem rightPads_iff {fieldSize : ℕ} (conv : Conversion) (length : ℕ) (hpads : ¬ conv.PadsLeft)
    (hwidth : conv.width = -1 ∧ fieldSize = 0 ∨ conv.width = int32 fieldSize ∨
      conv.width = 0 ∧ int32 fieldSize < 0) :
    conv.leftPads length = 0 ∧ (conv.rightPads length = fieldSize - length ↔
      FieldFits .minus conv.width fieldSize length) := by
  unfold FieldFits Conversion.leftPads Conversion.rightPads Conversion.widthAfter
  simp only [if_neg hpads, if_true, true_and]
  by_cases hle : fieldSize ≤ length
  · rw [if_pos hle, Nat.sub_eq_zero_of_le hle, toNat_int32_eq_zero]
  · have hgt := Nat.lt_of_not_le hle
    rw [if_neg hle]
    rcases hwidth with ⟨-, hzero⟩ | hwidth | ⟨hwidth, hneg⟩
    · omega
    · rw [hwidth, int32_sub, int32_exact_iff hgt]
      simp
    · rw [hwidth]
      constructor
      · intro heq
        obtain ⟨hlower, -, turns, hturns⟩ := int32_spec fieldSize
        obtain ⟨-, hupper, turns', hturns'⟩ := int32_spec (0 - length)
        omega
      · omega

theorem stringWidth_cases (fieldSize : ℕ) (precisionArg : Option ℕ) :
    stringWidth (fieldWidth fieldSize) precisionArg = -1 ∧ fieldSize = 0 ∨
      stringWidth (fieldWidth fieldSize) precisionArg = int32 fieldSize ∨
      stringWidth (fieldWidth fieldSize) precisionArg = 0 ∧ int32 fieldSize < 0 := by
  have hzero : int32 (0 : ℕ) = 0 := rfl
  cases precisionArg with
  | none =>
    have hwidth : stringWidth (fieldWidth fieldSize) none = fieldWidth fieldSize := rfl
    rw [hwidth, fieldWidth]
    split_ifs with hsize
    · exact .inl ⟨rfl, hsize⟩
    · exact .inr (.inl rfl)
  | some precision =>
    have hwidth : stringWidth (fieldWidth fieldSize) (some precision) =
        if fieldWidth fieldSize < 0 then 0 else fieldWidth fieldSize := rfl
    rw [hwidth, fieldWidth]
    by_cases hsize : fieldSize = 0
    · rw [if_pos hsize, if_pos (by decide), hsize, hzero]
      exact .inr (.inl rfl)
    · rw [if_neg hsize]
      split_ifs with hneg
      · exact .inr (.inr ⟨rfl, hneg⟩)
      · exact .inr (.inl rfl)

theorem stringConversion_ints (flag : FieldFlag) (widthArg precisionArg : Option ℕ) :
    int32 (stringConversion flag widthArg precisionArg).width =
        (stringConversion flag widthArg precisionArg).width ∧
      int32 (stringConversion flag widthArg precisionArg).precision =
        (stringConversion flag widthArg precisionArg).precision := by
  constructor
  · change int32 (stringWidth (fieldWidth (widthArg.getD 0)) precisionArg) = _
    rcases stringWidth_cases (widthArg.getD 0) precisionArg with ⟨h, -⟩ | h | ⟨h, -⟩
    · simp only [stringConversion, h]
      rfl
    · simp only [stringConversion, h]
      exact Int.bmod_bmod
    · simp only [stringConversion, h]
      rfl
  · change int32 (stringPrecision precisionArg) = stringPrecision precisionArg
    unfold stringPrecision
    split
    · rfl
    · split_ifs
      · rfl
      · exact Int.bmod_bmod

/-- The characters that the precision lets through -/
def limited (precision : Option ℕ) (text : List Byte) : List Byte :=
  match precision with
  | none => text
  | some precision => text.take precision

/-- The bytes that may be read: with a precision the first ones of the string only. -/
def readable (precision : Option ℕ) (text : List Byte) : List Byte := limited precision (text ++ [0])

/-- The conversion prints the field of a string, whatever else is in memory and without reading it. -/
def PrintsField (flag : FieldFlag) (width precision : Option ℕ) (text : List Byte) : Prop :=
  ∀ (memory : ByteMemory) (format : CString) (args : VaList) (start : BitVec 64), start ≠ 0 →
    args 0 = .word start → format.Reads memory 0 (stringFormat flag width precision ++ [0]) →
    memory.Holds start (readable precision text) →
    Settles memory (fun fuel ↦ vprintfmt fuel format args 0 0)
      (some ((), flag.field (width.getD 0) [] (limited precision text)))

/-- The precision is above the length and, as an `int`, not below it. -/
def PrecisionFits (precision : Option ℕ) (length : ℕ) : Prop :=
  ∀ number ∈ precision, length < number ∧ (int32 number < 0 ∨ length ≤ int32 number)

theorem shownCount_of_fits (h : PrecisionFits precisionArg length) :
    shownCount (stringPrecision precisionArg) length = length ∧
      ∀ text : List Byte, text.length = length → limited precisionArg text = text ∧
        readable precisionArg text = text ++ [0] := by
  cases precisionArg with
  | none => exact ⟨rfl, fun text _ ↦ ⟨rfl, rfl⟩⟩
  | some number =>
    obtain ⟨hlt, hcases⟩ := h number rfl
    constructor
    · have hprecision : stringPrecision (some number) = int32 number := if_neg (by omega)
      rw [hprecision]
      unfold shownCount
      split_ifs <;> omega
    · intro text htext
      exact ⟨List.take_of_length_le (by omega),
        List.take_of_length_le (by rw [List.length_append, List.length_singleton]; omega)⟩

theorem shown_false (ch : Byte) : shown false ch = ch := if_neg fun both ↦ absurd both.1 (by decide)

/-- What the conversion puts of a string that it can read far enough -/
theorem stringFormat_put {m : ℕ} (hstart : start ≠ 0) (hslot : args 0 = .word start)
    (hnul : 0 ∉ text) (hlength : text.length < 2 ^ 63)
    (h : format.Reads memory 0 (stringFormat flag widthArg precisionArg ++ [0]))
    (hm : m = shownCount (stringPrecision precisionArg) text.length)
    (hread : memory.Holds start ((text ++ [0]).take (m + 1))) :
    Settles memory (fun fuel ↦ vprintfmt fuel format args 0 0)
      (some ((), List.replicate ((stringConversion flag widthArg precisionArg).leftPads m)
          (stringPadc (sizePadc flag widthArg) precisionArg) ++
        (text.take m ++ List.replicate
          ((stringConversion flag widthArg precisionArg).rightPads m) (ascii ' ')))) := by
  obtain ⟨hwidth, hprecision⟩ := stringConversion_ints flag widthArg precisionArg
  have hconvert : Settles memory (fun fuel ↦ convertString fuel (.memory start)
      (stringConversion flag widthArg precisionArg)) _ :=
    convertString_eq hnul hlength hwidth hprecision hm (reads_memory hread)
  have hshown : (text.take m).map (shown (stringConversion flag widthArg precisionArg).altflag) =
      text.take m := (List.map_congr_left fun ch _ ↦ shown_false ch).trans (List.map_id _)
  rw [hshown] at hconvert
  exact vprintfmt_stringFormat hstart hslot h hconvert

theorem field_blank (fieldSize : ℕ) (text : List Byte) : FieldFlag.blank.field fieldSize [] text =
    List.replicate (fieldSize - text.length) (ascii ' ') ++ text := by
  simp [FieldFlag.field]

theorem field_minus (fieldSize : ℕ) (text : List Byte) : FieldFlag.minus.field fieldSize [] text =
    text ++ List.replicate (fieldSize - text.length) (ascii ' ') := by
  simp [FieldFlag.field]

theorem width_of_pos (fieldSize : ℕ) (precisionArg : Option ℕ)
    (hpos : 0 < stringWidth (fieldWidth fieldSize) precisionArg) :
    stringWidth (fieldWidth fieldSize) precisionArg = int32 fieldSize := by
  rcases stringWidth_cases fieldSize precisionArg with ⟨h, -⟩ | h | ⟨h, -⟩
  · omega
  · exact h
  · omega

theorem padsLeft_blank (widthArg precisionArg : Option ℕ) :
    (stringConversion .blank widthArg precisionArg).PadsLeft ↔
      0 < stringWidth (fieldWidth (widthArg.getD 0)) precisionArg := by
  apply and_iff_left
  change stringPadc (sizePadc .blank widthArg) precisionArg ≠ _
  have hpadc : FieldFlag.blank.padc = ascii ' ' := rfl
  rw [stringPadc, sizePadc, hpadc]
  split_ifs <;> decide

theorem stringWidth_zero (precisionArg : Option ℕ) :
    ¬ 0 < stringWidth (fieldWidth 0) precisionArg := by
  cases precisionArg with
  | none => exact of_decide_eq_true rfl
  | some precision => exact of_decide_eq_true rfl

theorem not_padsLeft_minus (widthArg : Option ℕ) (h : precisionArg ≠ some 0) :
    ¬ (stringConversion .minus widthArg precisionArg).PadsLeft := by
  rintro ⟨hpos, hpadc⟩
  apply hpadc
  change stringPadc (sizePadc .minus widthArg) precisionArg = _
  rw [stringPadc, if_neg h, sizePadc]
  split_ifs with hzero
  · -- The width 0 is a flag, so there is no width to pad to.
    subst hzero
    exact absurd hpos (stringWidth_zero precisionArg)
  · rfl

/-- Zeros are never put: where the digit 0 made them the padding, there is none. -/
theorem replicate_leftPads (widthArg : Option ℕ) (count : ℕ) (h : precisionArg ≠ some 0) :
    List.replicate ((stringConversion .blank widthArg precisionArg).leftPads count)
        (stringPadc (sizePadc .blank widthArg) precisionArg) =
      List.replicate ((stringConversion .blank widthArg precisionArg).leftPads count)
        (ascii ' ') := by
  rw [stringPadc, if_neg h, sizePadc]
  split_ifs with hzero
  · subst hzero
    rw [Conversion.leftPads,
      if_neg (mt (padsLeft_blank (some 0) precisionArg).mp (stringWidth_zero precisionArg))]
    rfl
  · rfl

theorem printsField_of_fits (hflag : flag ≠ .zero) (hnul : 0 ∉ text)
    (hlength : text.length < 2 ^ 63) (hprecision : PrecisionFits precisionArg text.length)
    (hfits : FieldFits flag (stringWidth (fieldWidth (widthArg.getD 0)) precisionArg)
      (widthArg.getD 0) text.length) : PrintsField flag widthArg precisionArg text := by
  intro memory format args start hstart hslot hformat hread
  obtain ⟨hm, htext⟩ := shownCount_of_fits hprecision
  obtain ⟨hlimited, hreadable⟩ := htext text rfl
  have hzero : precisionArg ≠ some 0 := by
    rintro rfl
    exact absurd (hprecision 0 rfl).1 (Nat.not_lt_zero _)
  rw [hreadable] at hread
  have hall : memory.Holds start ((text ++ [0]).take (text.length + 1)) := by
    rw [List.take_of_length_le (by simp)]
    exact hread
  have hput := stringFormat_put hstart hslot hnul hlength hformat hm.symm hall
  rw [List.take_length] at hput
  rw [hlimited]
  cases flag with
  | zero => exact absurd rfl hflag
  | blank =>
    have hpads := (leftPads_iff (stringConversion .blank widthArg precisionArg) text.length
      (padsLeft_blank _ _) (width_of_pos (widthArg.getD 0) precisionArg)).mpr hfits
    rw [replicate_leftPads widthArg _ hzero, hpads.1, hpads.2, List.replicate_zero,
      List.append_nil] at hput
    rw [field_blank]
    exact hput
  | minus =>
    have hpads := rightPads_iff (stringConversion .minus widthArg precisionArg) text.length
      (not_padsLeft_minus _ hzero) (stringWidth_cases (widthArg.getD 0) precisionArg)
    rw [hpads.1, hpads.2.mpr hfits, List.replicate_zero, List.nil_append] at hput
    rw [field_minus]
    exact hput

/-! Conversely a string of one letter tells what the padding is. -/

def letter : Byte := ascii 'x'

theorem replicate_letter_inj {count count' : ℕ} {rest rest' : List Byte}
    (h : List.replicate count (ascii ' ') ++ letter :: rest =
      List.replicate count' (ascii ' ') ++ letter :: rest') : count = count' ∧ rest = rest' := by
  induction count generalizing count' with
  | zero =>
    cases count' with
    | zero => exact ⟨rfl, (List.cons.inj h).2⟩
    | succ count' => exact absurd (List.cons.inj h).1 (by decide)
  | succ count ih =>
    cases count' with
    | zero => exact absurd (List.cons.inj h).1 (by decide)
    | succ count' =>
      obtain ⟨hcount, hrest⟩ := ih (List.cons.inj h).2
      exact ⟨congrArg _ hcount, hrest⟩

theorem count_pads {left right count : ℕ} {padc : Byte} (hpadc : padc ≠ letter) :
    (List.replicate left padc ++ (List.replicate count letter ++
      List.replicate right (ascii ' '))).count letter = count := by
  have hblank : ascii ' ' ≠ letter := by decide
  simp [List.count_replicate, hpadc, hblank]

/-- A string cut short by the end of what may be read -/
theorem settles_only {number : ℕ} (hnul : 0 ∉ text) (hlength : text.length < 2 ^ 63)
    (hnumber : number ≤ shownCount (stringPrecision (some number)) text.length) :
    Settles (ByteMemory.only 1 (readable (some number) text)) (fun fuel ↦ vprintfmt fuel
      (.literal (stringFormat flag widthArg (some number))) (fun _ ↦ .word 1) 0 0) none := by
  have hle : number ≤ text.length := hnumber.trans (shownCount_le _ _)
  have hreadable : readable (some number) text = text.take number :=
    List.take_append_of_le_length hle
  have htake : (text.take number).length = number := by
    rw [List.length_take, Nat.min_eq_left hle]
  rw [hreadable]
  have hread : (ByteMemory.only 1 (text.take number)).Holds 1 (text.take number) :=
    ByteMemory.holds_only (by omega)
  have hfault : ((CString.memory 1).get number).output
      (ByteMemory.only 1 (text.take number)) = none := by
    have hindex : (1 + BitVec.ofNat 64 number - 1 : BitVec 64).toNat = number := by
      rw [BitVec.add_comm, BitVec.add_sub_cancel, BitVec.toNat_ofNat]
      exact Nat.mod_eq_of_lt (by omega)
    rw [CString.get, output_load, ByteMemory.only, hindex, List.getElem?_eq_none (by omega)]
    rfl
  exact vprintfmt_stringFormat_fault (by decide) rfl (reads_literal _ _)
    (convertString_fault hnul hnumber (reads_memory hread) hfault)

theorem only_put (flag : FieldFlag) (widthArg : Option ℕ) {m : ℕ} (hnul : 0 ∉ text)
    (hlength : text.length < 2 ^ 63)
    (hm : m = shownCount (stringPrecision precisionArg) text.length)
    (hread : (ByteMemory.only 1 (readable precisionArg text)).Holds 1 ((text ++ [0]).take (m + 1))) :
    Settles (ByteMemory.only 1 (readable precisionArg text)) (fun fuel ↦ vprintfmt fuel
      (.literal (stringFormat flag widthArg precisionArg)) (fun _ ↦ .word 1) 0 0)
      (some ((), List.replicate ((stringConversion flag widthArg precisionArg).leftPads m)
          (stringPadc (sizePadc flag widthArg) precisionArg) ++
        (text.take m ++ List.replicate
          ((stringConversion flag widthArg precisionArg).rightPads m) (ascii ' ')))) :=
  stringFormat_put (by decide) rfl hnul hlength (reads_literal _ _) hm hread

/-- Without characters to print, nothing is left to pad on the right. -/
theorem rightPads_zero (hpads : conv.PadsLeft ↔ 0 < conv.width)
    (hwidth : int32 conv.width = conv.width) : conv.rightPads 0 = 0 := by
  obtain ⟨hlower, -, -⟩ := int32_spec conv.width
  rw [hwidth] at hlower
  have hafter : -2 ^ 31 ≤ conv.widthAfter 0 ∧ conv.widthAfter 0 ≤ 0 := by
    unfold Conversion.widthAfter
    by_cases hleft : conv.PadsLeft
    · obtain ⟨hlower', -, -⟩ := int32_spec (conv.width - (0 : ℕ))
      rw [if_pos hleft]
      exact ⟨le_min hlower' (by decide), min_le_right _ _⟩
    · have hneg : ¬ conv.width > 0 := fun hpos ↦ hleft (hpads.mpr hpos)
      rw [if_neg hleft]
      omega
  rw [Conversion.rightPads, int32_eq (by omega) (by omega)]
  omega

theorem limited_replicate (precisionArg : Option ℕ) (length : ℕ) :
    ∃ count, limited precisionArg (List.replicate length letter) = List.replicate count letter ∧
      ∀ number ∈ precisionArg, count = min number length := by
  cases precisionArg with
  | none => exact ⟨length, rfl, nofun⟩
  | some number =>
    refine ⟨min number length, List.take_replicate .., fun other hother ↦ ?_⟩
    rw [Option.mem_some_iff.mp hother]

theorem count_field (hflag : flag ≠ .zero) (fieldSize count : ℕ) :
    (flag.field fieldSize [] (List.replicate count letter)).count letter = count := by
  have hblank : ascii ' ' ≠ letter := by decide
  cases flag with
  | zero => exact absurd rfl hflag
  | blank =>
    rw [field_blank]
    simp [List.count_replicate, hblank]
  | minus =>
    rw [field_minus]
    simp [List.count_replicate, hblank]

theorem stringPadc_ne_letter (flag : FieldFlag) (widthArg precisionArg : Option ℕ) :
    stringPadc (sizePadc flag widthArg) precisionArg ≠ letter := by
  have hzero : ascii '0' ≠ letter := by decide
  have hflag : flag.padc ≠ letter := by cases flag <;> decide
  rw [stringPadc, sizePadc]
  split_ifs
  · exact hzero
  · exact hzero
  · exact hflag

theorem fits_of_printsField (hflag : flag ≠ .zero) (hlength : length < 2 ^ 63)
    (h : PrintsField flag widthArg precisionArg (List.replicate length letter)) :
    PrecisionFits precisionArg length ∧
      FieldFits flag (stringWidth (fieldWidth (widthArg.getD 0)) precisionArg) (widthArg.getD 0)
        length := by
  have hnul : 0 ∉ List.replicate length letter := by
    intro hmem
    exact absurd (List.eq_of_mem_replicate hmem) (by decide)
  have hsize : (List.replicate length letter).length = length := List.length_replicate
  have hlong : (List.replicate length letter).length < 2 ^ 63 := by rw [hsize]; exact hlength
  have hholds : (ByteMemory.only 1 (readable precisionArg (List.replicate length letter))).Holds 1
      (readable precisionArg (List.replicate length letter)) := by
    apply ByteMemory.holds_only
    have hle : (readable precisionArg (List.replicate length letter)).length ≤ length + 1 := by
      unfold readable limited
      split <;> simp
    omega
  have hfield := h _ (.literal (stringFormat flag widthArg precisionArg)) (fun _ ↦ .word 1) 1
    (by decide) rfl (reads_literal _ _) hholds
  have hprecision : PrecisionFits precisionArg length := by
    intro number hnumber
    obtain rfl := Option.mem_def.mp hnumber
    have hm : shownCount (stringPrecision (some number)) length ≤ length := shownCount_le _ _
    by_cases hlt : shownCount (stringPrecision (some number)) length < number
    · have hread : (ByteMemory.only 1 (readable (some number) (List.replicate length letter))).Holds 1
          ((List.replicate length letter ++ [0]).take
            (shownCount (stringPrecision (some number)) length + 1)) := by
        apply hholds.of_initial
        have htake := List.take_prefix (shownCount (stringPrecision (some number)) length + 1)
          ((List.replicate length letter ++ [0]).take number)
        rw [List.take_take, Nat.min_eq_left hlt] at htake
        exact htake
      have hput := only_put flag widthArg hnul hlong (by rw [hsize]) hread
      have heq := (Prod.mk.inj (Option.some.inj (hput.unique hfield))).2
      obtain ⟨count, hlimited, hcount⟩ := limited_replicate (some number) length
      have hletters := congrArg (List.count letter) heq
      rw [List.take_replicate, Nat.min_eq_left hm, count_pads (stringPadc_ne_letter _ _ _), hlimited,
        count_field hflag, hcount number rfl] at hletters
      have hall : shownCount (stringPrecision (some number)) length = length := by omega
      have hnumber' : stringPrecision (some number) = int32 number := if_neg (by omega)
      rw [hnumber'] at hall
      refine ⟨by omega, ?_⟩
      unfold shownCount at hall
      split_ifs at hall with hneg
      · exact .inl hneg
      · omega
    · have hcount : number ≤ shownCount (stringPrecision (some number))
          (List.replicate length letter).length := by
        rw [hsize]
        exact Nat.le_of_not_lt hlt
      cases (settles_only hnul hlong hcount).unique hfield
  refine ⟨hprecision, ?_⟩
  obtain ⟨hm, htext⟩ := shownCount_of_fits hprecision
  obtain ⟨hlimited, hreadable⟩ := htext _ hsize
  have hzero : precisionArg ≠ some 0 := by
    rintro rfl
    exact absurd (hprecision 0 rfl).1 (Nat.not_lt_zero _)
  have hread : (ByteMemory.only 1 (readable precisionArg (List.replicate length letter))).Holds 1
      ((List.replicate length letter ++ [0]).take (length + 1)) := by
    rw [hreadable] at hholds ⊢
    rw [List.take_of_length_le (by simp)]
    exact hholds
  have hput := only_put flag widthArg hnul hlong (hm.symm.trans (by rw [hsize])) hread
  have heq := (Prod.mk.inj (Option.some.inj (hput.unique hfield))).2
  rw [hlimited, List.take_of_length_le hsize.le] at heq
  cases flag with
  | zero => exact absurd rfl hflag
  | blank =>
    apply (leftPads_iff (stringConversion .blank widthArg precisionArg) length
      (padsLeft_blank _ _) (width_of_pos (widthArg.getD 0) precisionArg)).mp
    rw [replicate_leftPads widthArg _ hzero, field_blank, hsize] at heq
    cases length with
    | zero =>
      have hright := rightPads_zero (padsLeft_blank widthArg precisionArg)
        (stringConversion_ints .blank widthArg precisionArg).1
      rw [hright] at heq
      have hlengths := congrArg List.length heq
      simp at hlengths
      exact ⟨hlengths, hright⟩
    | succ length =>
      obtain ⟨hleft, hrest⟩ := replicate_letter_inj heq
      have hlengths := congrArg List.length hrest
      simp at hlengths
      exact ⟨hleft, hlengths⟩
  | minus =>
    have hpads := rightPads_iff (stringConversion .minus widthArg precisionArg) length
      (not_padsLeft_minus _ hzero) (stringWidth_cases (widthArg.getD 0) precisionArg)
    rw [field_minus, hpads.1, List.replicate_zero, List.nil_append, List.append_cancel_left_eq,
      hsize] at heq
    exact hpads.2.mp (List.replicate_inj.mp heq).1

/-- The bounds for the strings of less than 1 GiB -/
theorem fieldFits_short (flag : FieldFlag) (fieldSize : ℕ) (precisionArg : Option ℕ)
    (hlength : length < 2 ^ 30) :
    FieldFits flag (stringWidth (fieldWidth fieldSize) precisionArg) fieldSize length ↔
      fieldSize < 2 ^ 31 + if flag = .minus ∧ precisionArg = none then length else 0 := by
  have hwidth := stringWidth_cases fieldSize precisionArg
  have hnone : precisionArg = none → stringWidth (fieldWidth fieldSize) precisionArg =
      if fieldSize = 0 then -1 else int32 fieldSize := by
    rintro rfl
    rfl
  have hsome : precisionArg ≠ none → 0 ≤ stringWidth (fieldWidth fieldSize) precisionArg := by
    intro h
    obtain ⟨precision, rfl⟩ := Option.ne_none_iff_exists'.mp h
    have heq : stringWidth (fieldWidth fieldSize) (some precision) =
        if fieldWidth fieldSize < 0 then 0 else fieldWidth fieldSize := rfl
    rw [heq]
    split_ifs <;> omega
  obtain ⟨hlower, hupper, turns, hturns⟩ := int32_spec fieldSize
  generalize stringWidth (fieldWidth fieldSize) precisionArg = width at hwidth hnone hsome ⊢
  by_cases hminus : flag = .minus
  · by_cases hprecision : precisionArg = none
    · have hvalue := hnone hprecision
      have hboth : flag = .minus ∧ precisionArg = none := ⟨hminus, hprecision⟩
      rw [if_pos hboth]
      unfold FieldFits CountsDown
      rw [if_pos hminus]
      split_ifs at hvalue ⊢ <;> omega
    · have hpos := hsome hprecision
      have hboth : ¬ (flag = .minus ∧ precisionArg = none) := fun both ↦ hprecision both.2
      rw [if_neg hboth]
      unfold FieldFits CountsDown
      rw [if_pos hminus]
      split_ifs <;> omega
  · have hboth : ¬ (flag = .minus ∧ precisionArg = none) := fun both ↦ hminus both.1
    rw [if_neg hboth]
    unfold FieldFits CountsDown
    rw [if_neg hminus]
    split_ifs <;> omega

/-- The digit 0 is no precision but a flag, and the byte after those a precision lets through is
read before the precision is. -/
theorem string_field_iff (flag : FieldFlag) (widthArg precisionArg : Option ℕ) (length : ℕ)
    (hflag : flag ≠ .zero) (hlength : length < 2 ^ 63) :
    (∀ text : List Byte, text.length = length → 0 ∉ text →
      PrintsField flag widthArg precisionArg text) ↔
      PrecisionFits precisionArg length ∧
        FieldFits flag (stringWidth (fieldWidth (widthArg.getD 0)) precisionArg)
          (widthArg.getD 0) length := by
  constructor
  · intro h
    have hnul : 0 ∉ List.replicate length letter := by
      intro hmem
      exact absurd (List.eq_of_mem_replicate hmem) (by decide)
    exact fits_of_printsField hflag hlength (h _ List.length_replicate hnul)
  · rintro ⟨hprecision, hfits⟩ text rfl hnul
    exact printsField_of_fits hflag hnul hlength hprecision hfits

theorem string_field_iff_sample :
    PrintsField .blank (some 5) (some 3) ("hi".toList.map ascii) :=
  have hfits : FieldFits .blank (stringWidth (fieldWidth 5) (some 3)) 5 2 :=
    (fieldFits_short .blank 5 (some 3) (by decide)).mpr (by decide)
  have hprecision : PrecisionFits (some 3) 2 := by
    intro number hnumber
    obtain rfl := Option.some.inj hnumber
    exact ⟨by decide, .inr (by decide)⟩
  (string_field_iff .blank (some 5) (some 3) 2 (by decide) (by decide)).mpr ⟨hprecision, hfits⟩ _
    rfl (by decide)

/-- `%.2s` of a string of which only the two bytes `hi` may be read -/
theorem string_field_past :
    ¬ Settles (ByteMemory.only 1 ("hi".toList.map ascii)) (fun fuel ↦ vprintfmt fuel
        (.literal ("%.2s".toList.map ascii)) (fun _ ↦ .word 1) 0 0)
      (some ((), "hi".toList.map ascii)) := by
  have hformat : "%.2s".toList.map ascii = stringFormat .blank none (some 2) := by decide
  have hnul : 0 ∉ "hi".toList.map ascii := by decide
  have hfault : Settles (ByteMemory.only 1 (readable (some 2) ("hi".toList.map ascii)))
      (fun fuel ↦ vprintfmt fuel (.literal (stringFormat .blank none (some 2)))
        (fun _ ↦ .word 1) 0 0) none :=
    settles_only hnul (by decide) (by decide)
  have hreadable : readable (some 2) ("hi".toList.map ascii) = "hi".toList.map ascii := by decide
  rw [hreadable] at hfault
  rw [hformat]
  intro h
  cases hfault.unique h

end Ucore
