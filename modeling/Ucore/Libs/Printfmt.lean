import Ucore.Foundation.Printing
import Mathlib.Data.Int.Notation

/-!
# Formatted output (`libs/printfmt.c`)

An `int` is an integer that is wrapped where the source may overflow it. What an argument list holds is
read by `va_arg` one 64-bit slot after the other.
-/

namespace Ucore

open Foundation Printing

/-- The value of an `int` that is given `value`. -/
def int32 (value : ℤ) : ℤ := value.bmod (2 ^ 32)

def ascii (c : Char) : Byte := BitVec.ofNat 8 c.toNat

/-- A `const char *`, into memory or a string literal of the kernel -/
inductive CString where
  | memory (start : BitVec 64)
  | literal (text : List Byte)

/-- `s[index]` -/
def CString.get : CString → ℕ → Printing Byte
  | memory start, index => load (start + BitVec.ofNat 64 index)
  | literal text, index =>
    match (text ++ [0])[index]? with
    | some byte => return byte
    | none => fault

/-- A slot of a `va_list`: a number or the address of a string literal of the kernel. -/
inductive VaArg where
  | word (value : BitVec 64)
  | text (literal : List Byte)

/-- The slots, of which the caller has filled as many as its format asks for. -/
abbrev VaList := ℕ → VaArg

/-- `va_arg(ap, unsigned long long)`, of an integer or a pointer -/
def VaArg.long : VaArg → Printing (BitVec 64)
  | word value => return value
  | text _ => fault

/-- `va_arg(ap, int)` -/
def VaArg.int (slot : VaArg) : Printing (BitVec 32) := do
  return (← slot.long).setWidth 32

/-- `va_arg(ap, char *)`, nothing if it is `NULL` -/
def VaArg.string : VaArg → Option CString
  | word value => if value = 0 then none else some (.memory value)
  | text literal => some (.literal literal)

/-- `strnlen(s, len)` -/
def strnlen (s : CString) (len : ℕ) : ℕ → ℕ → Printing ℕ
  | 0, _ => fault
  | fuel + 1, cnt => do
    if cnt < len then
      if (← s.get cnt) ≠ 0 then strnlen s len fuel (cnt + 1) else return cnt
    else return cnt

/-- A loop that puts the same character a number of times. -/
def padding (ch : BitVec 32) : ℕ → Printing Unit
  | 0 => return
  | count + 1 => do
    putch ch
    padding ch count

/-! ## Numbers -/

def hexDigits : CString := .literal ("0123456789abcdef".toList.map ascii)

/-- `do_div(n, base)` (`libs/riscv.h`): the quotient left in `n`, and the remainder -/
def doDiv (n : BitVec 64) (base : BitVec 32) : BitVec 64 × BitVec 32 :=
  (n / base.setWidth 64, (n % base.setWidth 64).setWidth 32)

def printnum (base : BitVec 32) (padc : BitVec 32) : ℕ → BitVec 64 → ℤ → Printing Unit
  | 0, _, _ => fault
  | fuel + 1, num, width => do
    let (result, mod) := doDiv num base
    -- After `-- width` the loop runs while `width` is positive.
    if num ≥ base.setWidth 64 then printnum base padc fuel result (int32 (width - 1))
    else padding padc (int32 (width - 1)).toNat
    putch ((← hexDigits.get mod.toNat).setWidth 32)

def getuint (slot : VaArg) (lflag : ℤ) : Printing (BitVec 64) :=
  if lflag ≥ 2 then slot.long
  else if lflag ≠ 0 then slot.long
  else do return (← slot.int).setWidth 64

def getint (slot : VaArg) (lflag : ℤ) : Printing (BitVec 64) :=
  if lflag ≥ 2 then slot.long
  else if lflag ≠ 0 then slot.long
  else do return (← slot.int).signExtend 64

/-! ## Conversions -/

/-- The variables of a conversion: the position in the format, the next slot of the arguments, and what the
flags and numbers of the conversion have set. -/
structure Conversion where
  fmt : ℕ
  ap : ℕ
  padc : Byte := ascii ' '
  width : ℤ := -1
  precision : ℤ := -1
  lflag : ℤ := 0
  altflag : Bool := false

/-- `process_precision` -/
def Conversion.processPrecision (conv : Conversion) (precision : ℤ) : Conversion :=
  if conv.width < 0 then { conv with width := precision, precision := -1 }
  else { conv with precision := precision }

/-- The loop over the digits of a number, and the position after them -/
def fieldNumber (format : CString) : ℕ → ℤ → Byte → ℕ → Printing (ℤ × ℕ)
  | 0, _, _, _ => fault
  | fuel + 1, precision, ch, fmt => do
    let precision := int32 (precision * 10 + ch.toNat - (ascii '0').toNat)
    let ch ← format.get fmt
    if ch < ascii '0' ∨ ch > ascii '9' then return (precision, fmt)
    fieldNumber format fuel precision ch (fmt + 1)

/-- `reswitch` up to a character that is none of those that lead back to it. -/
def reswitch (format : CString) (args : VaList) : ℕ → Conversion → Printing (Byte × Conversion)
  | 0, _ => fault
  | fuel + 1, conv => do
    let ch ← format.get conv.fmt
    let conv := { conv with fmt := conv.fmt + 1 }
    if ch = ascii '-' then reswitch format args fuel { conv with padc := ascii '-' }
    else if ch = ascii '0' then reswitch format args fuel { conv with padc := ascii '0' }
    else if ascii '1' ≤ ch ∧ ch ≤ ascii '9' then
      let (precision, fmt) ← fieldNumber format fuel 0 ch conv.fmt
      reswitch format args fuel ({ conv with fmt := fmt }.processPrecision precision)
    else if ch = ascii '*' then
      let precision ← (args conv.ap).int
      reswitch format args fuel
        ({ conv with ap := conv.ap + 1 }.processPrecision precision.toInt)
    else if ch = ascii '.' then
      reswitch format args fuel { conv with width := if conv.width < 0 then 0 else conv.width }
    else if ch = ascii '#' then reswitch format args fuel { conv with altflag := true }
    else if ch = ascii 'l' then
      reswitch format args fuel { conv with lflag := int32 (conv.lflag + 1) }
    else return (ch, conv)

/-- The loop over the characters of `%s`, which ends with what is left of `width`. -/
def putString (s : CString) (altflag : Bool) : ℕ → ℕ → ℤ → ℤ → Printing ℤ
  | 0, _, _, _ => fault
  | fuel + 1, p, precision, width => do
    let ch ← s.get p
    if ch ≠ 0 ∧ (precision < 0 ∨ precision - 1 ≥ 0) then
      if altflag ∧ (ch < ascii ' ' ∨ ch > ascii '~') then putch ((ascii '?').setWidth 32)
      else putch (ch.setWidth 32)
      putString s altflag fuel (p + 1) (if precision < 0 then precision else precision - 1)
        (int32 (width - 1))
    else return width

/-- `case 's'`; a precision is a `size_t` for `strnlen`. -/
def convertString (fuel : ℕ) (s : CString) (conv : Conversion) : Printing Unit := do
  let width ←
    if conv.width > 0 ∧ conv.padc ≠ ascii '-' then do
      let len ← strnlen s (BitVec.ofInt 64 conv.precision).toNat fuel 0
      let width := int32 (conv.width - len)
      padding (conv.padc.setWidth 32) width.toNat
      pure (min width 0)
    else pure conv.width
  let width ← putString s conv.altflag fuel 0 conv.precision width
  padding ((ascii ' ').setWidth 32) width.toNat

def nullString : List Byte := "(null)".toList.map ascii

def MAXERROR : ℤ := 6

def errorString : List (Option (List Byte)) :=
  [none, some ("unspecified error".toList.map ascii), some ("bad process".toList.map ascii),
    some ("invalid parameter".toList.map ascii), some ("out of memory".toList.map ascii),
    some ("out of processes".toList.map ascii), some ("segmentation fault".toList.map ascii)]

/-- `error_string[err]` -/
def getErrorString (err : ℤ) : Printing (Option (List Byte)) :=
  if err < 0 then fault
  else match errorString[err.toNat]? with
    | some entry => return entry
    | none => fault

/-- `case 'e'`, with `printfmt` as a parameter -/
def convertError (printfmt : List Byte → VaArg → Printing Unit) (slot : VaArg) : Printing Unit := do
  let err := (← slot.int).toInt
  let err := if err < 0 then int32 (-err) else err
  let p ← if err > MAXERROR then pure none else getErrorString err
  match p with
  | none => printfmt ("error %d".toList.map ascii) (.word (BitVec.ofInt 64 err))
  | some p => printfmt ("%s".toList.map ascii) (.text p)

/-- The label `number` -/
def convertNumber (fuel : ℕ) (num : BitVec 64) (base : BitVec 32) (conv : Conversion) :
    Printing Unit :=
  printnum base (conv.padc.setWidth 32) fuel num conv.width

/-- `case 'd'` -/
def convertDecimal (fuel : ℕ) (slot : VaArg) (conv : Conversion) : Printing Unit := do
  let num ← getint slot conv.lflag
  if num.toInt < 0 then
    putch ((ascii '-').setWidth 32)
    convertNumber fuel (-num) 10 conv
  else convertNumber fuel num 10 conv

/-- `for (fmt --; fmt[-1] != '%'; fmt --)`, from `fmt` on -/
def rewind (format : CString) : ℕ → Printing ℕ
  | fmt + 1 => do
    if (← format.get fmt) ≠ ascii '%' then rewind format fmt else return fmt + 1
  | 0 => fault

/-- What the character `ch` converts, and the position and the slot to go on with. -/
def convert (printfmt : List Byte → VaArg → Printing Unit) (fuel : ℕ) (format : CString)
    (args : VaList) (ch : Byte) (conv : Conversion) : Printing (ℕ × ℕ) := do
  let slot := args conv.ap
  if ch = ascii 'c' then
    putch (← slot.int)
    return (conv.fmt, conv.ap + 1)
  else if ch = ascii 'e' then
    convertError printfmt slot
    return (conv.fmt, conv.ap + 1)
  else if ch = ascii 's' then
    convertString fuel (slot.string.getD (.literal nullString)) conv
    return (conv.fmt, conv.ap + 1)
  else if ch = ascii 'd' then
    convertDecimal fuel slot conv
    return (conv.fmt, conv.ap + 1)
  else if ch = ascii 'u' then
    convertNumber fuel (← getuint slot conv.lflag) 10 conv
    return (conv.fmt, conv.ap + 1)
  else if ch = ascii 'o' then
    convertNumber fuel (← getuint slot conv.lflag) 8 conv
    return (conv.fmt, conv.ap + 1)
  else if ch = ascii 'p' then
    putch ((ascii '0').setWidth 32)
    putch ((ascii 'x').setWidth 32)
    convertNumber fuel (← slot.long) 16 conv
    return (conv.fmt, conv.ap + 1)
  else if ch = ascii 'x' then
    convertNumber fuel (← getuint slot conv.lflag) 16 conv
    return (conv.fmt, conv.ap + 1)
  else if ch = ascii '%' then
    putch (ch.setWidth 32)
    return (conv.fmt, conv.ap)
  else
    putch ((ascii '%').setWidth 32)
    return (← rewind format (conv.fmt - 1), conv.ap)

/-- `vprintfmt` from a position of its format and a slot of its arguments on. One round puts a character of
the format or processes one conversion. -/
def vprintfmt : ℕ → CString → VaList → ℕ → ℕ → Printing Unit
  | 0, _, _, _, _ => fault
  | fuel + 1, format, args, fmt, ap => do
    let ch ← format.get fmt
    if ch ≠ ascii '%' then
      if ch = 0 then return
      putch (ch.setWidth 32)
      vprintfmt fuel format args (fmt + 1) ap
    else
      let (ch, conv) ← reswitch format args fuel { fmt := fmt + 1, ap := ap }
      let (fmt, ap) ← convert
        (fun text slot ↦ vprintfmt fuel (.literal text) (fun _ ↦ slot) 0 0) fuel format args ch conv
      vprintfmt fuel format args fmt ap

/-- `printfmt` with one argument after the format -/
def printfmt (fuel : ℕ) (text : List Byte) (slot : VaArg) : Printing Unit :=
  vprintfmt fuel (.literal text) (fun _ ↦ slot) 0 0

end Ucore
