import Ucore.Libs.PrintfmtParse
import Ucore.Libs.Printnum

/-!
# Fields of numbers

A conversion with at most one flag and a width, the field that it should print, and what it prints.
-/

namespace Ucore

open Foundation Printing

/-- The bytes of a numeral -/
def numeralBytes (base num : ℕ) : List Byte :=
  (numeral base num).map fun digit ↦ (digitChar digit).setWidth 8

inductive FieldFlag where
  | blank
  | zero
  | minus
deriving DecidableEq

def FieldFlag.text : FieldFlag → List Byte
  | blank => []
  | zero => [ascii '0']
  | minus => [ascii '-']

/-- The width in a format, which has none for 0. -/
def widthText (width : ℕ) : List Byte := if width = 0 then [] else numeralBytes 10 width

/-- What is printed with a sign and digits in a field of at least `width` characters. -/
def FieldFlag.field (flag : FieldFlag) (width : ℕ) (sign digits : List Byte) : List Byte :=
  let missing := width - (sign.length + digits.length)
  match flag with
  | blank => List.replicate missing (ascii ' ') ++ (sign ++ digits)
  | zero => sign ++ (List.replicate missing (ascii '0') ++ digits)
  | minus => sign ++ digits ++ List.replicate missing (ascii ' ')

/-- `padc` -/
def FieldFlag.padc : FieldFlag → Byte
  | blank => ascii ' '
  | zero => ascii '0'
  | minus => ascii '-'

/-- `width` -/
def fieldWidth (width : ℕ) : ℤ := if width = 0 then -1 else int32 width

/-- The numeric conversions -/
inductive NumberKind where
  | d
  | u
  | x
  | o
deriving DecidableEq

def NumberKind.char : NumberKind → Byte
  | d => ascii 'd'
  | u => ascii 'u'
  | x => ascii 'x'
  | o => ascii 'o'

def NumberKind.base : NumberKind → BitVec 32
  | d => 10
  | u => 10
  | x => 16
  | o => 8

/-- None, `l` or `ll` before a numeric conversion -/
inductive NumberLength where
  | int
  | long
  | longLong
deriving DecidableEq

def NumberLength.text : NumberLength → List Byte
  | int => []
  | long => [ascii 'l']
  | longLong => [ascii 'l', ascii 'l']

def NumberLength.lflag : NumberLength → ℤ
  | int => 0
  | long => 1
  | longLong => 2

/-- `getuint` of a slot -/
def NumberLength.unsigned (length : NumberLength) (word : BitVec 64) : BitVec 64 :=
  match length with
  | int => (word.setWidth 32).setWidth 64
  | _ => word

/-- `getint` of a slot -/
def NumberLength.signed (length : NumberLength) (word : BitVec 64) : BitVec 64 :=
  match length with
  | int => (word.setWidth 32).signExtend 64
  | _ => word

/-- The argument of the selected length in a slot -/
def NumberKind.value (kind : NumberKind) (length : NumberLength) (word : BitVec 64) : ℤ :=
  match kind, length with
  | d, .int => (word.setWidth 32).toInt
  | d, _ => word.toInt
  | _, .int => (word.setWidth 32).toNat
  | _, _ => word.toNat

def NumberKind.sign (kind : NumberKind) (length : NumberLength) (word : BitVec 64) : List Byte :=
  if kind.value length word < 0 then [ascii '-'] else []

/-- The canonical numeral of the argument, without its sign -/
def NumberKind.digits (kind : NumberKind) (length : NumberLength) (word : BitVec 64) : List Byte :=
  numeralBytes kind.base.toNat (kind.value length word).natAbs

def numberFormat (flag : FieldFlag) (width : ℕ) (length : NumberLength) (kind : NumberKind) :
    List Byte :=
  ascii '%' :: (flag.text ++ (widthText width ++ (length.text ++ [kind.char])))

/-- What is put instead of the field: the padding is between sign and digits. -/
def FieldFlag.put (flag : FieldFlag) (width : ℕ) (sign digits : List Byte) : List Byte :=
  sign ++ (List.replicate (int32 (fieldWidth width - digits.length)).toNat flag.padc ++ digits)

/-! ## The field of a conversion -/

variable {memory : ByteMemory} {format : CString} {args : VaList} {index slot : ℕ}
  {outcome : Option ((Byte × Conversion) × List Byte)}

theorem isDigit_digitChar {digit : ℕ} (h : digit < 10) :
    IsDigit ((digitChar digit).setWidth 8) ∧ digitValue ((digitChar digit).setWidth 8) = digit := by
  interval_cases digit <;> decide

theorem digitValue_numeral (num : ℕ) : (numeralBytes 10 num).map digitValue = numeral 10 num := by
  rw [numeralBytes, List.map_map]
  apply (List.map_congr_left _).trans (List.map_id _)
  intro digit hdigit
  exact (isDigit_digitChar (lt_of_mem_numeral (by decide) hdigit)).2

theorem isDigit_numeral {num : ℕ} : ∀ ch ∈ numeralBytes 10 num, IsDigit ch := by
  intro ch hch
  obtain ⟨digit, hdigit, rfl⟩ := List.mem_map.mp hch
  exact (isDigit_digitChar (lt_of_mem_numeral (by decide) hdigit)).1

/-- A numeral but that of 0 does not begin with a zero. -/
theorem exists_numeral {num : ℕ} (hnum : num ≠ 0) : ∃ ch digits,
    numeralBytes 10 num = ch :: digits ∧ IsDigit ch ∧ ch ≠ ascii '0' ∧
      ∀ digit ∈ digits, IsDigit digit := by
  obtain ⟨first, others, hnumeral⟩ := List.exists_cons_of_ne_nil (numeral_ne_nil 10 num)
  have hbytes : numeralBytes 10 num = (digitChar first).setWidth 8 ::
      others.map fun digit ↦ (digitChar digit).setWidth 8 := by
    rw [numeralBytes, hnumeral, List.map_cons]
  have hall : ∀ ch ∈ numeralBytes 10 num, IsDigit ch := isDigit_numeral
  rw [hbytes, List.forall_mem_cons] at hall
  refine ⟨_, _, hbytes, hall.1, ?_, hall.2⟩
  intro hzero
  have hhead : (numeral 10 num).head (numeral_ne_nil 10 num) ≠ 0 := head_numeral_ne_zero hnum
  simp only [hnumeral, List.head_cons] at hhead
  have hlt : first < 10 := lt_of_mem_numeral (by decide) (hnumeral ▸ List.mem_cons_self)
  apply hhead
  calc
    first = digitValue ((digitChar first).setWidth 8) := (isDigit_digitChar hlt).2.symm
    _ = digitValue (ascii '0') := by rw [hzero]
    _ = 0 := rfl

/-- `reswitch` takes the flag and the width of a field. -/
theorem reswitch_field {flag : FieldFlag} {width : ℕ} {next : Byte} (hnext : ¬ IsDigit next)
    (h : format.Reads memory index (flag.text ++ (widthText width ++ [next])))
    (hrest : Settles memory (fun fuel ↦ reswitch format args fuel
      { fmt := index + (flag.text.length + (widthText width).length), ap := slot,
        padc := flag.padc, width := fieldWidth width }) outcome) :
    Settles memory (fun fuel ↦ reswitch format args fuel { fmt := index, ap := slot }) outcome := by
  obtain ⟨hflag, hwidth⟩ := reads_append.mp h
  have hafter : Settles memory (fun fuel ↦ reswitch format args fuel
      { fmt := index + flag.text.length, ap := slot, padc := flag.padc }) outcome := by
    by_cases hzero : width = 0
    · subst hzero
      exact hrest
    · rw [widthText, if_neg hzero] at hwidth
      obtain ⟨ch, digits, hbytes, hch, hpos, hdigits⟩ := exists_numeral hzero
      have hvalue : positional 10 ((ch :: digits).map digitValue) = width := by
        rw [← hbytes, digitValue_numeral, positional_numeral]
      rw [hbytes] at hwidth
      apply reswitch_number hch hpos hdigits hnext hwidth
      rw [hvalue]
      rw [fieldWidth, if_neg hzero, widthText, if_neg hzero, hbytes, List.length_cons,
        Nat.add_comm digits.length, ← Nat.add_assoc] at hrest
      exact hrest
  cases flag with
  | blank => exact hafter
  | zero => exact reswitch_flag (by decide) hflag hafter
  | minus => exact reswitch_flag (by decide) hflag hafter

/-! ## Numbers -/

variable {kind : NumberKind} {length : NumberLength} {word : BitVec 64} {flag : FieldFlag}
  {width : ℕ} {conv : Conversion}

theorem reswitch_length {last padc : Byte} {number : ℤ} (hlast : ¬ IsModifier last)
    (h : format.Reads memory index (length.text ++ [last])) :
    Settles memory
      (fun fuel ↦ reswitch format args fuel { fmt := index, ap := slot, padc := padc, width := number })
      (some ((last,
        { fmt := index + length.text.length + 1, ap := slot, padc := padc, width := number,
          lflag := length.lflag }), [])) := by
  cases length with
  | int => exact reswitch_last hlast h
  | long =>
    obtain ⟨hell, hrest⟩ := h
    exact reswitch_flag (by decide) ⟨hell, trivial⟩ (reswitch_last hlast hrest)
  | longLong =>
    obtain ⟨hell, hell', hrest⟩ := h
    exact reswitch_flag (by decide) ⟨hell, trivial⟩
      (reswitch_flag (by decide) ⟨hell', trivial⟩ (reswitch_last hlast hrest))

/-- The padding and the digits of a number -/
def paddedDigits (conv : Conversion) (digits : List Byte) : List Byte :=
  List.replicate (int32 (conv.width - digits.length)).toNat conv.padc ++ digits

theorem settles_convertNumber {base : BitVec 32} (hbase : 2 ≤ base.toNat) (hhex : base.toNat ≤ 16)
    (num : BitVec 64) : Settles memory (fun fuel ↦ convertNumber fuel num base conv)
      (some ((), paddedDigits conv (numeralBytes base.toNat num.toNat))) := by
  have hlength : (numeralBytes base.toNat num.toNat).length =
      (numeral base.toNat num.toNat).length := List.length_map _
  refine ⟨(numeral base.toNat num.toNat).length, fun fuel hfuel ↦ ?_⟩
  change (printnum base (conv.padc.setWidth 32) fuel num conv.width).output memory = _
  rw [printnum_eq hbase hhex hfuel, output_putAll, pads, paddedDigits, hlength, List.map_append,
    List.map_replicate, List.map_map, BitVec.setWidth_setWidth_of_le _ (by decide),
    BitVec.setWidth_eq]
  rfl

theorem getuint_eq (length : NumberLength) (word : BitVec 64) :
    getuint (.word word) length.lflag = pure (length.unsigned word) := by
  cases length <;> rfl

theorem getint_eq (length : NumberLength) (word : BitVec 64) :
    getint (.word word) length.lflag = pure (length.signed word) := by
  cases length <;> rfl

theorem value_unsigned (hkind : kind ≠ .d) :
    kind.value length word = (length.unsigned word).toNat := by
  have hint : ((word.setWidth 32).setWidth 64).toNat = (word.setWidth 32).toNat := setWidth_toNat _
  cases kind with
  | d => exact absurd rfl hkind
  | u => cases length <;> simp only [NumberKind.value, NumberLength.unsigned, hint]
  | x => cases length <;> simp only [NumberKind.value, NumberLength.unsigned, hint]
  | o => cases length <;> simp only [NumberKind.value, NumberLength.unsigned, hint]

theorem value_signed : NumberKind.d.value length word = (length.signed word).toInt := by
  cases length with
  | int => exact (BitVec.toInt_signExtend_of_le (by decide)).symm
  | long => rfl
  | longLong => rfl

theorem convert_unsigned (hkind : kind ≠ .d) (hslot : args conv.ap = .word word)
    (hlflag : conv.lflag = length.lflag) :
    Settles memory (fun fuel ↦ convert (printfmt fuel) fuel format args kind.char conv)
      (some ((conv.fmt, conv.ap + 1), paddedDigits conv (kind.digits length word))) := by
  have hdigits : kind.digits length word =
      numeralBytes kind.base.toNat (length.unsigned word).toNat := by
    rw [NumberKind.digits, value_unsigned hkind, Int.natAbs_natCast]
  have hnum : getuint (args conv.ap) conv.lflag = pure (length.unsigned word) := by
    rw [hslot, hlflag, getuint_eq]
  have hnumber : Settles memory (fun fuel ↦ convertNumber fuel (length.unsigned word) kind.base conv)
      (some ((), paddedDigits conv (kind.digits length word))) := by
    rw [hdigits]
    cases kind <;> exact settles_convertNumber (by decide) (by decide) _
  have hconvert : ∀ fuel, convert (printfmt fuel) fuel format args kind.char conv = (do
      let _ ← convertNumber fuel (length.unsigned word) kind.base conv
      return (conv.fmt, conv.ap + 1)) := by
    intro fuel
    calc
      convert (printfmt fuel) fuel format args kind.char conv = (do
          convertNumber fuel (← getuint (args conv.ap) conv.lflag) kind.base conv
          return (conv.fmt, conv.ap + 1)) := by
        cases kind with
        | d => exact absurd rfl hkind
        | u => rfl
        | x => rfl
        | o => rfl
      _ = _ := by
        rw [hnum]
        rfl
  rw [funext hconvert]
  exact hnumber.then_pure _

theorem settles_convertDecimal (hlflag : conv.lflag = length.lflag) :
    Settles memory (fun fuel ↦ convertDecimal fuel (.word word) conv)
      (some ((), NumberKind.d.sign length word ++
        paddedDigits conv (NumberKind.d.digits length word))) := by
  have hprogram : ∀ fuel, convertDecimal fuel (.word word) conv =
      if (length.signed word).toInt < 0 then do
        putch ((ascii '-').setWidth 32)
        convertNumber fuel (-length.signed word) 10 conv
      else convertNumber fuel (length.signed word) 10 conv := by
    intro fuel
    rw [convertDecimal, hlflag, getint_eq]
    rfl
  rw [funext hprogram]
  by_cases hnegative : (length.signed word).toInt < 0
  · have habs : (-length.signed word).toNat = (length.signed word).toInt.natAbs := by
      have hlt := (length.signed word).isLt
      rw [BitVec.toNat_neg]
      rw [BitVec.toInt_eq_toNat_cond] at hnegative ⊢
      split_ifs at hnegative ⊢ <;> omega
    have hnumber : Settles memory (fun fuel ↦ convertNumber fuel (-length.signed word) 10 conv)
        (some ((), paddedDigits conv (numeralBytes 10 (-length.signed word).toNat))) :=
      settles_convertNumber (by decide) (by decide) _
    rw [habs] at hnumber
    simp only [if_pos hnegative, NumberKind.sign, NumberKind.digits, value_signed]
    exact hnumber.putch
  · have habs : (length.signed word).toNat = (length.signed word).toInt.natAbs := by
      rw [BitVec.toInt_eq_toNat_cond] at hnegative ⊢
      split_ifs at hnegative ⊢ <;> omega
    simp only [if_neg hnegative, NumberKind.sign, NumberKind.digits, value_signed]
    rw [← habs]
    exact settles_convertNumber (by decide) (by decide) _

/-- What a numeric conversion puts. -/
theorem convert_number (hslot : args conv.ap = .word word) (hlflag : conv.lflag = length.lflag) :
    Settles memory (fun fuel ↦ convert (printfmt fuel) fuel format args kind.char conv)
      (some ((conv.fmt, conv.ap + 1),
        kind.sign length word ++ paddedDigits conv (kind.digits length word))) := by
  by_cases hkind : kind = .d
  · subst hkind
    have hdecimal : Settles memory (fun fuel ↦ convertDecimal fuel (.word word) conv) _ :=
      settles_convertDecimal hlflag
    rw [← hslot] at hdecimal
    exact hdecimal.then_pure _
  · have hsign : kind.sign length word = [] := by
      rw [NumberKind.sign, value_unsigned hkind, if_neg (by omega)]
    rw [hsign]
    exact convert_unsigned hkind hslot hlflag

theorem not_isModifier_char (kind : NumberKind) : ¬ IsModifier kind.char := by
  cases kind <;> decide

theorem not_isDigit_length (length : NumberLength) (kind : NumberKind) :
    ∃ next rest, length.text ++ [kind.char] = next :: rest ∧ ¬ IsDigit next := by
  cases length with
  | int => exact ⟨kind.char, [], rfl, fun h ↦ not_isModifier_char kind (.inr (.inl h))⟩
  | long => exact ⟨ascii 'l', _, rfl, by decide⟩
  | longLong => exact ⟨ascii 'l', _, rfl, by decide⟩

/-- What a format of one numeric conversion puts. -/
theorem number_put (hslot : args 0 = .word word)
    (h : format.Reads memory 0 (numberFormat flag width length kind ++ [0])) :
    Settles memory (fun fuel ↦ vprintfmt fuel format args 0 0)
      (some ((), flag.put width (kind.sign length word) (kind.digits length word))) := by
  obtain ⟨hformat, hend⟩ := reads_append.mp h
  obtain ⟨hpercent, hfield⟩ := hformat
  obtain ⟨next, rest, hnext, hdigit⟩ := not_isDigit_length length kind
  have hread : format.Reads memory (0 + 1) (flag.text ++ (widthText width ++ [next])) := by
    rw [hnext, ← List.singleton_append, ← List.append_assoc, ← List.append_assoc] at hfield
    rw [← List.append_assoc]
    exact (reads_append.mp hfield).1
  rw [← List.append_assoc, reads_append, List.length_append] at hfield
  let conv : Conversion :=
    { fmt := 0 + 1 + (flag.text.length + (widthText width).length) + length.text.length + 1, ap := 0,
      padc := flag.padc, width := fieldWidth width, lflag := length.lflag }
  have hswitch : Settles memory (fun fuel ↦ reswitch format args fuel { fmt := 0 + 1, ap := 0 })
      (some ((kind.char, conv), [])) :=
    reswitch_field hdigit hread (reswitch_length (not_isModifier_char kind) hfield.2)
  have hconvert : Settles memory
      (fun fuel ↦ convert (printfmt fuel) fuel format args kind.char conv) _ :=
    convert_number hslot rfl
  have hplace : 0 + (numberFormat flag width length kind).length = conv.fmt := by
    simp only [numberFormat, conv, List.length_cons, List.length_append, List.length_nil]
    omega
  rw [hplace] at hend
  have hboth := vprintfmt_conversion ⟨hpercent, trivial⟩ hswitch hconvert (vprintfmt_end hend)
  rw [Option.map_some, List.append_nil] at hboth
  exact hboth

/-! ## Where that is the field -/

theorem int32_spec (value : ℤ) : -2 ^ 31 ≤ int32 value ∧ int32 value < 2 ^ 31 ∧
    ∃ turns, value = int32 value + 2 ^ 32 * turns := by
  have hlower : -((2 ^ 32 : ℕ) / 2 : ℤ) ≤ int32 value := Int.le_bmod (by decide)
  have hupper : int32 value < ((2 ^ 32 : ℕ) + 1) / 2 := Int.bmod_lt (by decide)
  exact ⟨by omega, by omega, Int.bdiv value (2 ^ 32), (Int.bmod_add_bdiv value (2 ^ 32)).symm⟩

/-- The number of padding characters before `count` digits -/
def missing (width count : ℕ) : ℕ := (int32 (fieldWidth width - count)).toNat

theorem int32_fieldWidth (width count : ℕ) (hwidth : width ≠ 0) :
    int32 (fieldWidth width - count) = int32 (width - count) := by
  rw [fieldWidth, if_neg hwidth, int32_sub]

theorem missing_of_le {width count : ℕ} (hcount : count < 2 ^ 31) (h : width ≤ count) :
    missing width count = 0 := by
  unfold missing
  by_cases hwidth : width = 0
  · rw [fieldWidth, if_pos hwidth, int32_eq (by omega) (by omega)]
    omega
  · rw [int32_fieldWidth _ _ hwidth, int32_eq (by omega) (by omega)]
    omega

theorem missing_of_gt {width count : ℕ} (h : count < width) :
    ∃ turns : ℤ, missing width count = 0 ∨
      (missing width count : ℤ) = width - count - 2 ^ 32 * turns ∧ missing width count < 2 ^ 31 := by
  obtain ⟨-, hupper, turns, hturns⟩ := int32_spec (width - count)
  refine ⟨turns, ?_⟩
  unfold missing
  rw [int32_fieldWidth _ _ (by omega)]
  omega

theorem missing_eq_iff {width count : ℕ} (hcount : count < 2 ^ 31) :
    missing width count = width - count ↔ width < 2 ^ 31 + count := by
  by_cases h : width ≤ count
  · rw [missing_of_le hcount h]
    omega
  · constructor
    · obtain ⟨turns, hzero | ⟨-, hlt⟩⟩ := missing_of_gt (Nat.lt_of_not_le h)
      · omega
      · omega
    · intro hlt
      unfold missing
      rw [int32_fieldWidth _ _ (by omega), int32_eq (by omega) (by omega)]
      omega

/-- With a sign before it the padding is never right. -/
theorem missing_signed_iff {width count : ℕ} (hcount : count < 2 ^ 31) :
    missing width count = width - (1 + count) ↔ width ≤ count := by
  constructor
  · intro heq
    by_contra hgt
    obtain ⟨turns, hzero | ⟨hmissing, hlt⟩⟩ := missing_of_gt (Nat.lt_of_not_le hgt)
    · have hlast : width = count + 1 := by omega
      rw [(missing_eq_iff hcount).mpr (by omega)] at hzero
      omega
    · omega
  · intro h
    rw [missing_of_le hcount h]
    omega

theorem replicate_append_inj {count count' : ℕ} {ch : Byte} {rest : List Byte} :
    List.replicate count ch ++ rest = List.replicate count' ch ++ rest ↔ count = count' := by
  simp [List.replicate_inj]

/-- Digits after some characters that none of them is, and the digits before some others -/
theorem replicate_append_eq_iff {count count' : ℕ} {ch other : Byte} {digits : List Byte}
    (hdigits : ch ∉ digits) (hpos : digits ≠ []) :
    List.replicate count ch ++ digits = digits ++ List.replicate count' other ↔
      count = 0 ∧ count' = 0 := by
  constructor
  · intro heq
    obtain ⟨first, rest, rfl⟩ := List.exists_cons_of_ne_nil hpos
    have hcount : count = 0 := by
      by_contra hne
      obtain ⟨less, rfl⟩ := Nat.exists_eq_add_one_of_ne_zero hne
      obtain ⟨rfl, -⟩ := List.cons.inj heq
      exact hdigits List.mem_cons_self
    have hlength := congrArg List.length heq
    simp only [List.length_append, List.length_replicate, List.length_cons] at hlength
    omega
  · rintro ⟨rfl, rfl⟩
    simp

theorem put_eq_field_iff {sign digits : List Byte} (hsign : sign = [] ∨ sign = [ascii '-'])
    (hpos : digits ≠ []) (hlength : digits.length < 2 ^ 31) (hdigits : ascii '-' ∉ digits) :
    flag.put width sign digits = flag.field width sign digits ↔
      width ≤ digits.length ∨ sign = [] ∧ flag ≠ .minus ∧ width < 2 ^ 31 + digits.length := by
  have hput : flag.put width sign digits =
      sign ++ (List.replicate (missing width digits.length) flag.padc ++ digits) := rfl
  have hexact : missing width digits.length = width - digits.length ↔
      width < 2 ^ 31 + digits.length := missing_eq_iff hlength
  have hsigned : missing width digits.length = width - (1 + digits.length) ↔
      width ≤ digits.length := missing_signed_iff hlength
  have hnone : width ≤ digits.length → missing width digits.length = 0 := missing_of_le hlength
  rw [hput]
  rcases hsign with rfl | rfl
  · rw [List.nil_append]
    cases flag with
    | blank =>
      simp only [FieldFlag.field, FieldFlag.padc, List.length_nil, Nat.zero_add, List.nil_append]
      rw [replicate_append_inj, hexact]
      simp
      omega
    | zero =>
      simp only [FieldFlag.field, FieldFlag.padc, List.length_nil, Nat.zero_add, List.nil_append]
      rw [replicate_append_inj, hexact]
      simp
      omega
    | minus =>
      simp only [FieldFlag.field, FieldFlag.padc, List.length_nil, Nat.zero_add, List.nil_append]
      rw [replicate_append_eq_iff hdigits hpos]
      simp
      constructor
      · omega
      · intro h
        exact ⟨hnone h, by omega⟩
  · have hwhole : width ≤ digits.length ∨ [ascii '-'] = [] ∧ flag ≠ .minus ∧
        width < 2 ^ 31 + digits.length ↔ width ≤ digits.length := by simp
    rw [hwhole]
    cases flag with
    | blank =>
      simp only [FieldFlag.field, FieldFlag.padc, List.length_singleton]
      constructor
      · intro heq
        by_cases hmissing : width - (1 + digits.length) = 0
        · rw [hmissing, List.replicate_zero, List.nil_append, List.append_cancel_left_eq] at heq
          have hzero : missing width digits.length = 0 :=
            replicate_append_inj.mp (heq.trans (List.nil_append digits).symm)
          exact hsigned.mp (hzero.trans hmissing.symm)
        · obtain ⟨less, hless⟩ := Nat.exists_eq_add_one_of_ne_zero hmissing
          rw [hless, List.replicate_succ] at heq
          exact absurd (List.cons.inj heq).1 (by decide)
      · intro h
        have hmissing : width - (1 + digits.length) = 0 := by omega
        rw [hnone h, hmissing]
        rfl
    | zero =>
      simp only [FieldFlag.field, FieldFlag.padc, List.length_singleton]
      rw [List.append_cancel_left_eq, replicate_append_inj, hsigned]
    | minus =>
      simp only [FieldFlag.field, FieldFlag.padc, List.length_singleton]
      rw [List.append_assoc, List.append_cancel_left_eq, replicate_append_eq_iff hdigits hpos]
      constructor
      · rintro ⟨hzero, hmissing⟩
        exact hsigned.mp (hzero.trans hmissing.symm)
      · intro h
        exact ⟨hnone h, by omega⟩

theorem natAbs_value_lt (kind : NumberKind) (length : NumberLength) (word : BitVec 64) :
    (kind.value length word).natAbs < 2 ^ 64 := by
  have hunsigned := (length.unsigned word).isLt
  have hlower := BitVec.le_toInt (length.signed word)
  have hupper := BitVec.toInt_lt (x := length.signed word)
  by_cases hkind : kind = .d
  · rw [hkind, value_signed]
    omega
  · rw [value_unsigned hkind]
    omega

theorem digits_length_le (kind : NumberKind) (length : NumberLength) (word : BitVec 64) :
    (kind.digits length word).length ≤ 64 := by
  have hbase : 2 ≤ kind.base.toNat := by cases kind <;> decide
  rw [NumberKind.digits, numeralBytes, List.length_map]
  exact numeral_length_le hbase ((natAbs_value_lt kind length word).trans_le
    (Nat.pow_le_pow_left hbase 64)) (by decide)

theorem minus_notMem_digits (kind : NumberKind) (length : NumberLength) (word : BitVec 64) :
    ascii '-' ∉ kind.digits length word := by
  have hbase : 1 < kind.base.toNat ∧ kind.base.toNat ≤ 16 := by cases kind <;> decide
  intro hmem
  obtain ⟨digit, hdigit, hchar⟩ := List.mem_map.mp hmem
  have hlt : digit < 16 := (lt_of_mem_numeral hbase.1 hdigit).trans_le hbase.2
  interval_cases digit <;> exact absurd hchar (by decide)

/-- A numeric conversion prints the field of its argument exactly if no padding is needed, or if the
argument is not negative, the padding is not on the right and it has fewer than 2^31 characters. -/
theorem number_field_iff (memory : ByteMemory) (format : CString) (args : VaList) (kind : NumberKind)
    (flag : FieldFlag) (width : ℕ) (length : NumberLength) (word : BitVec 64)
    (hslot : args 0 = .word word)
    (hformat : format.Reads memory 0 (numberFormat flag width length kind ++ [0])) :
    Settles memory (fun fuel ↦ vprintfmt fuel format args 0 0)
        (some ((), flag.field width (kind.sign length word) (kind.digits length word))) ↔
      width ≤ (kind.digits length word).length ∨
        0 ≤ kind.value length word ∧ flag ≠ .minus ∧
          width < 2 ^ 31 + (kind.digits length word).length := by
  have hput := number_put hslot hformat
  have hsign : kind.sign length word = [] ∨ kind.sign length word = [ascii '-'] := by
    unfold NumberKind.sign
    split_ifs
    · exact .inr rfl
    · exact .inl rfl
  have hnegative : kind.sign length word = [] ↔ 0 ≤ kind.value length word := by
    unfold NumberKind.sign
    split_ifs <;> simp <;> omega
  have hpos : kind.digits length word ≠ [] := by
    rw [NumberKind.digits, numeralBytes, Ne, List.map_eq_nil_iff]
    exact numeral_ne_nil _ _
  have hlength : (kind.digits length word).length < 2 ^ 31 :=
    (digits_length_le kind length word).trans_lt (by decide)
  rw [← hnegative, ← put_eq_field_iff hsign hpos hlength (minus_notMem_digits kind length word)]
  constructor
  · intro hfield
    have heq := hput.unique hfield
    exact (Prod.mk.inj (Option.some.inj heq)).2
  · intro heq
    rw [← heq]
    exact hput

theorem number_field_iff_sample :
    Settles (fun _ ↦ none) (fun fuel ↦ vprintfmt fuel (.literal (numberFormat .zero 5 .int .d))
        (fun _ ↦ .word 42) 0 0)
      (some ((), FieldFlag.zero.field 5 (NumberKind.d.sign .int 42) (NumberKind.d.digits .int 42))) :=
  (number_field_iff (fun _ ↦ none) _ (fun _ ↦ .word 42) .d .zero 5 .int 42 rfl
    (reads_literal _ _)).mpr (.inr ⟨by decide, by decide, by decide⟩)

/-- `%-5d` of 42 -/
theorem number_field_minus :
    ¬ Settles (fun _ ↦ none) (fun fuel ↦ vprintfmt fuel (.literal ("%-5d".toList.map ascii))
        (fun _ ↦ .word 42) 0 0) (some ((), "42   ".toList.map ascii)) := by
  have hformat : "%-5d".toList.map ascii = numberFormat .minus 5 .int .d := by decide
  have hput : Settles (fun _ ↦ none) (fun fuel ↦ vprintfmt fuel
      (.literal (numberFormat .minus 5 .int .d)) (fun _ ↦ .word 42) 0 0) _ :=
    number_put rfl (reads_literal _ _)
  rw [hformat]
  intro h
  have heq := hput.unique h
  exact absurd heq (by decide)

end Ucore
