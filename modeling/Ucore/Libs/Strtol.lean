import Mathlib.Algebra.Order.Ring.Int
import Ucore.Foundation.Bytes
import Ucore.Foundation.Numeral

/-!
# Numbers in strings (`strtol` in `libs/string.c`)

The arithmetic of `long` wraps, since the loop does not look for an overflow. The object that `endptr`
points to is an option here, which is `none` for a null pointer.
-/

namespace Ucore.Strtol

open Foundation ByteMemory

/-- `dig`, unless the character ends the digits -/
def digit (byte : Byte) : Option ℕ :=
  if 0x30 ≤ byte.toNat ∧ byte.toNat ≤ 0x39 then some (byte.toNat - 0x30)
  else if 0x61 ≤ byte.toNat ∧ byte.toNat ≤ 0x7a then some (byte.toNat - 0x61 + 10)
  else if 0x41 ≤ byte.toNat ∧ byte.toNat ≤ 0x5a then some (byte.toNat - 0x41 + 10)
  else none

def IsSpace (byte : Byte) : Prop := byte = 0x20 ∨ byte = 0x09

instance : DecidablePred IsSpace := fun _ ↦ inferInstanceAs (Decidable (_ ∨ _))

def gobble (memory : ByteMemory) : ℕ → BitVec 64 → Option (BitVec 64)
  | 0, _ => none
  | fuel + 1, s => do
    if IsSpace (← memory s) then gobble memory fuel (s + 1) else return s

/-- `s[0] == '0' && s[1] == 'x'` -/
def hexPrefix (memory : ByteMemory) (s : BitVec 64) : Option Bool := do
  if (← memory s) = 0x30 then return decide ((← memory (s + 1)) = 0x78) else return false

/-- Hex or octal base prefix -/
def basePrefix (memory : ByteMemory) (s : BitVec 64) (base : ℤ) : Option (BitVec 64 × ℤ) := do
  let hex ← if base = 0 ∨ base = 16 then hexPrefix memory s else some false
  if hex then return (s + 2, 16)
  else if base = 0 then
    if (← memory s) = 0x30 then return (s + 1, 8) else return (s, 10)
  else return (s, base)

def digits (memory : ByteMemory) (base : ℤ) :
    ℕ → BitVec 64 → BitVec 64 → Option (BitVec 64 × BitVec 64)
  | 0, _, _ => none
  | fuel + 1, s, val => do
    match digit (← memory s) with
    | none => return (s, val)
    | some dig =>
      if base ≤ dig then return (s, val)
      else digits memory base fuel (s + 1) (val * BitVec.ofInt 64 base + BitVec.ofNat 64 dig)

def strtol (memory : ByteMemory) (fuel : ℕ) (s : BitVec 64) (endptr : Option (BitVec 64))
    (base : ℤ) : Option (BitVec 64 × Option (BitVec 64)) := do
  let s ← gobble memory fuel s
  let byte ← memory s
  let (s, neg) := if byte = 0x2b then (s + 1, false) else if byte = 0x2d then (s + 1, true)
    else (s, false)
  let (s, base) ← basePrefix memory s base
  let (s, val) ← digits memory base fuel s 0
  return (if neg then -val else val, endptr.map fun _ ↦ s)

/-! ## The grammar -/

/-- Plus or minus -/
def IsSign (byte : Byte) : Prop := byte = 0x2b ∨ byte = 0x2d

instance : DecidablePred IsSign := fun _ ↦ inferInstanceAs (Decidable (_ ∨ _))

/-- The text behind the blanks and tabs -/
def unspaced (text : List Byte) : List Byte := text.dropWhile IsSpace

/-- The text behind the sign -/
def unsigned : List Byte → List Byte
  | [] => []
  | byte :: text => if IsSign byte then text else byte :: text

/-- A zero with one of the characters `marks` -/
def BeginsHex (marks : List Byte) : List Byte → Prop
  | zero :: mark :: _ => zero = 0x30 ∧ mark ∈ marks
  | _ => False

instance (marks : List Byte) : DecidablePred (BeginsHex marks)
  | [] => inferInstanceAs (Decidable False)
  | [_] => inferInstanceAs (Decidable False)
  | _ :: _ :: _ => inferInstanceAs (Decidable (_ ∧ _))

/-- The length of the prefix and the base of the digits behind it -/
def radixPrefix (marks : List Byte) (base : ℕ) (text : List Byte) : ℕ × ℕ :=
  if (base = 0 ∨ base = 16) ∧ BeginsHex marks text then (2, 16)
  else if base = 0 then if text.head? = some 0x30 then (1, 8) else (0, 10)
  else (0, base)

/-- The longest run of digits that are valid in a base -/
def validDigits (base : ℕ) : List Byte → List ℕ
  | [] => []
  | byte :: text =>
    match digit byte with
    | none => []
    | some dig => if dig < base then dig :: validDigits base text else []

/-- A number at the beginning of a text, and the length of what it was read from -/
structure Number where
  value : ℤ
  length : ℕ

/-- What follows the blanks and the sign -/
def body (text : List Byte) : List Byte := unsigned (unspaced text)

/-- The digits behind the prefix -/
def digitsBehind (marks : List Byte) (base : ℕ) (body : List Byte) : List ℕ :=
  validDigits (radixPrefix marks base body).2 (body.drop (radixPrefix marks base body).1)

/-- The number that the grammar gives, with the characters that may stand in a hexadecimal prefix -/
def numberWith (marks : List Byte) (base : ℕ) (text : List Byte) : Number where
  value :=
    let magnitude := positional (radixPrefix marks base (body text)).2
      (digitsBehind marks base (body text))
    if (unspaced text).head? = some 0x2d then -magnitude else magnitude
  length := text.length - (body text).length + (radixPrefix marks base (body text)).1 +
    (digitsBehind marks base (body text)).length

/-- `0x` and `0X` -/
def documented (base : ℕ) (text : List Byte) : Number := numberWith [0x78, 0x58] base text

variable {memory : ByteMemory} {s : BitVec 64} {text rest : List Byte} {byte : Byte}
  {fuel base radix : ℕ}

/-! ## The loops -/

/-- The string that a text ends with -/
theorem holds_suffix (h : memory.Holds s (text ++ [0])) (hrest : rest <:+ text) :
    memory.Holds (s + BitVec.ofNat 64 (text.length - rest.length)) (rest ++ [0]) := by
  obtain ⟨front, rfl⟩ := hrest
  rw [List.append_assoc, holds_append] at h
  rw [List.length_append, Nat.add_sub_cancel]
  exact h.2

theorem holds_head (h : memory.Holds s (text ++ [0])) : memory s = some (text.headD 0) := by
  cases text with
  | nil => exact h.1
  | cons byte text => exact h.1

theorem unspaced_suffix (text : List Byte) : unspaced text <:+ text := List.dropWhile_suffix _

theorem unsigned_suffix (text : List Byte) : unsigned text <:+ text := by
  cases text with
  | nil => exact List.suffix_rfl
  | cons byte text =>
    rw [unsigned]
    split
    · exact List.suffix_cons byte text
    · exact List.suffix_rfl

theorem gobble_eq (h : memory.Holds s (text ++ [0])) (hfuel : text.length < fuel) :
    gobble memory fuel s =
      some (s + BitVec.ofNat 64 (text.length - (unspaced text).length)) := by
  induction text generalizing fuel s with
  | nil =>
    obtain ⟨fuel, rfl⟩ := Nat.exists_eq_add_one_of_ne_zero (Nat.ne_of_gt hfuel)
    have hread := h.1
    have hzero : ¬ IsSpace 0 := by decide
    rw [gobble, hread, Option.bind_eq_bind, Option.bind_some, if_neg hzero, unspaced,
      List.dropWhile_nil, Nat.sub_self, BitVec.add_zero]
    rfl
  | cons byte text ih =>
    obtain ⟨fuel, rfl⟩ := Nat.exists_eq_add_one_of_ne_zero (Nat.ne_of_gt (Nat.zero_lt_of_lt hfuel))
    obtain ⟨hread, hrest⟩ := h
    rw [gobble, hread, Option.bind_eq_bind, Option.bind_some]
    by_cases hspace : IsSpace byte
    · have hunspaced : unspaced (byte :: text) = unspaced text := by simp [unspaced, hspace]
      have hle := (unspaced_suffix text).length_le
      rw [if_pos hspace, ih hrest (Nat.lt_of_succ_lt_succ hfuel), add_succ, hunspaced,
        List.length_cons, Nat.sub_add_comm hle]
    · have hunspaced : unspaced (byte :: text) = byte :: text := by simp [unspaced, hspace]
      rw [if_neg hspace, hunspaced, Nat.sub_self, BitVec.add_zero]
      rfl

theorem hexPrefix_eq (h : memory.Holds s (text ++ [0])) :
    hexPrefix memory s = some (decide (BeginsHex [0x78] text)) := by
  cases text with
  | nil =>
    rw [hexPrefix, h.1]
    rfl
  | cons zero text =>
    obtain ⟨hzero, hrest⟩ := h
    rw [hexPrefix, hzero, Option.bind_eq_bind, Option.bind_some]
    by_cases heq : zero = 0x30
    · rw [if_pos heq]
      cases text with
      | nil =>
        rw [hrest.1]
        rfl
      | cons mark text =>
        rw [hrest.1, Option.bind_some]
        have hiff : BeginsHex [0x78] (zero :: mark :: text) ↔ mark = 0x78 := by
          rw [BeginsHex, and_iff_right heq, List.mem_singleton]
        simp only [hiff]
        rfl
    · have hother : ¬ BeginsHex [0x78] (zero :: text) := by
        cases text with
        | nil => exact id
        | cons mark text => exact fun hhex ↦ heq hhex.1
      rw [if_neg heq, decide_eq_false hother]
      rfl

theorem basePrefix_eq (base : ℕ) (h : memory.Holds s (text ++ [0])) :
    basePrefix memory s base = some (s + BitVec.ofNat 64 (radixPrefix [0x78] base text).1,
      ((radixPrefix [0x78] base text).2 : ℤ)) := by
  have hsixteen : (base : ℤ) = 16 ↔ base = 16 := by omega
  have hzero : (base : ℤ) = 0 ↔ base = 0 := by omega
  have hhead : text.head? = some 0x30 ↔ text.headD 0 = 0x30 := by
    cases text with
    | nil => exact ⟨nofun, fun heq ↦ absurd heq (by decide)⟩
    | cons byte text => exact Option.some_inj
  rw [basePrefix, hexPrefix_eq h, holds_head h]
  unfold radixPrefix
  simp only [hsixteen, hzero, hhead, Option.bind_eq_bind, Option.bind_some]
  have hoctal : (if base = 0 then if text.headD 0 = 0x30 then some (s + 1, 8) else some (s, 10)
      else some (s, (base : ℤ))) = some
        (s + BitVec.ofNat 64 (if base = 0 then if text.headD 0 = 0x30 then (1, 8) else (0, 10)
            else (0, base)).1,
          (((if base = 0 then if text.headD 0 = 0x30 then (1, 8) else (0, 10)
            else (0, base)).2 : ℕ) : ℤ)) := by
    split_ifs
    · rfl
    · rw [BitVec.add_zero]
      rfl
    · rw [BitVec.add_zero]
  by_cases hbase : base = 0 ∨ base = 16
  · by_cases hhex : BeginsHex [0x78] text
    · rw [if_pos hbase, if_pos (decide_eq_true hhex), if_pos ⟨hbase, hhex⟩]
      rfl
    · rw [if_pos hbase, if_neg (by simpa using hhex), if_neg (hhex ∘ And.right)]
      exact hoctal
  · rw [if_neg hbase, if_neg Bool.false_ne_true, if_neg (hbase ∘ And.left)]
    exact hoctal

theorem digits_eq (base : ℕ) (h : memory.Holds s (text ++ [0])) (hfuel : text.length < fuel) (before : List ℕ) :
    digits memory base fuel s (BitVec.ofNat 64 (positional base before)) =
      some (s + BitVec.ofNat 64 (validDigits base text).length,
        BitVec.ofNat 64 (positional base (before ++ validDigits base text))) := by
  induction text generalizing fuel s before with
  | nil =>
    obtain ⟨fuel, rfl⟩ := Nat.exists_eq_add_one_of_ne_zero (Nat.ne_of_gt hfuel)
    have hread := h.1
    rw [digits, hread, validDigits, List.append_nil, List.length_nil, BitVec.add_zero]
    rfl
  | cons byte text ih =>
    obtain ⟨fuel, rfl⟩ := Nat.exists_eq_add_one_of_ne_zero (Nat.ne_of_gt (Nat.zero_lt_of_lt hfuel))
    obtain ⟨hread, hrest⟩ := h
    rw [digits, hread, Option.bind_eq_bind, Option.bind_some, validDigits]
    cases digit byte with
    | none =>
      rw [List.append_nil, List.length_nil, BitVec.add_zero]
      rfl
    | some dig =>
      by_cases hvalid : dig < base
      · have hinside : ¬ (base : ℤ) ≤ dig := by omega
        have hnext : BitVec.ofNat 64 (positional base before) * BitVec.ofInt 64 base +
            BitVec.ofNat 64 dig = BitVec.ofNat 64 (positional base (before ++ [dig])) := by
          rw [positional_append, BitVec.ofNat_add, BitVec.ofNat_mul, BitVec.ofInt_natCast]
        simp only [if_neg hinside, if_pos hvalid]
        rw [hnext, ih hrest (Nat.lt_of_succ_lt_succ hfuel), add_succ, List.append_assoc,
          List.singleton_append, List.length_cons]
      · have houtside : (base : ℤ) ≤ dig := by omega
        simp only [if_pos houtside, if_neg hvalid]
        rw [List.append_nil, List.length_nil, BitVec.add_zero]
        rfl

/-! ## The whole function -/

/-- What is left of the sign is read from there on. -/
theorem sign_eq (s : BitVec 64) (text : List Byte) :
    (if text.headD 0 = 0x2b then (s + 1, false) else if text.headD 0 = 0x2d then (s + 1, true)
      else (s, false)) =
      (s + BitVec.ofNat 64 (text.length - (unsigned text).length),
        decide (text.head? = some 0x2d)) := by
  cases text with
  | nil =>
    rw [unsigned, Nat.sub_self, BitVec.add_zero]
    rfl
  | cons byte text =>
    have hhead : (byte :: text).head? = some 0x2d ↔ byte = 0x2d := Option.some_inj
    have hlast : (byte :: text).length - text.length = 1 := by simp
    change (if byte = 0x2b then (s + 1, false) else if byte = 0x2d then (s + 1, true)
      else (s, false)) = _
    have hsign : IsSign byte ↔ byte = 0x2b ∨ byte = 0x2d := Iff.rfl
    simp only [unsigned, hsign]
    by_cases hplus : byte = 0x2b
    · have hminus : ¬ byte = 0x2d := by
        rw [hplus]
        decide
      rw [if_pos hplus, if_pos (.inl hplus), hlast, decide_eq_false (mt hhead.mp hminus)]
      rfl
    · by_cases hminus : byte = 0x2d
      · rw [if_neg hplus, if_pos hminus, if_pos (.inr hminus), hlast,
          decide_eq_true (hhead.mpr hminus)]
        rfl
      · rw [if_neg hplus, if_neg hminus, if_neg (not_or.mpr ⟨hplus, hminus⟩), Nat.sub_self,
          BitVec.add_zero, decide_eq_false (mt hhead.mp hminus)]

theorem radixPrefix_le (marks : List Byte) (base : ℕ) (text : List Byte) :
    (radixPrefix marks base text).1 ≤ text.length := by
  unfold radixPrefix
  split_ifs with hhex hbase hhead
  · match text, hhex.2 with
    | zero :: mark :: text, _ => simp
  · cases text with
    | nil => cases hhead
    | cons byte text => simp
  · exact Nat.zero_le _
  · exact Nat.zero_le _

theorem signed_eq (neg : Prop) [Decidable neg] (magnitude : ℕ) :
    (if decide neg then -BitVec.ofNat 64 magnitude else BitVec.ofNat 64 magnitude) =
      BitVec.ofInt 64 (if neg then -(magnitude : ℤ) else magnitude) := by
  simp only [decide_eq_true_iff]
  split_ifs
  · rw [BitVec.ofInt_neg, BitVec.ofInt_natCast]
  · rw [BitVec.ofInt_natCast]

/-- `strtol` reads the numbers of the grammar whose only hexadecimal prefix is `0x`. -/
theorem strtol_eq (h : memory.Holds s (text ++ [0])) (hfuel : text.length < fuel) (base : ℕ)
    (endptr : Option (BitVec 64)) :
    strtol memory fuel s endptr base = some (BitVec.ofInt 64 (numberWith [0x78] base text).value,
      endptr.map fun _ ↦ s + BitVec.ofNat 64 (numberWith [0x78] base text).length) := by
  have hunspaced := holds_suffix h (unspaced_suffix text)
  have hbody : memory.Holds _ (body text ++ [0]) :=
    holds_suffix hunspaced (unsigned_suffix (unspaced text))
  have hskip := radixPrefix_le [0x78] base (body text)
  have hshorter : (body text).length ≤ _ := (unsigned_suffix (unspaced text)).length_le
  have hshort := (unspaced_suffix text).length_le
  have hdigits := holds_suffix hbody
    (List.drop_suffix (radixPrefix [0x78] base (body text)).1 _)
  rw [List.length_drop, Nat.sub_sub_self hskip] at hdigits
  rw [strtol, gobble_eq h hfuel]
  have hunsigned : unsigned (unspaced text) = body text := rfl
  simp only [Option.bind_eq_bind, Option.bind_some, holds_head hunspaced, sign_eq, hunsigned,
    basePrefix_eq base hbody]
  unfold numberWith digitsBehind
  generalize radixPrefix [0x78] base (body text) = found at hskip hdigits
  obtain ⟨skip, radix⟩ := found
  have hremaining : ((body text).drop skip).length < fuel := by
    rw [List.length_drop]
    omega
  have hval := digits_eq radix hdigits hremaining []
  rw [positional_nil, List.nil_append] at hval
  generalize validDigits radix ((body text).drop skip) = dig at hval
  change ((digits memory radix fuel _ (BitVec.ofNat 64 0)).bind _) = _
  rw [hval, Option.bind_some]
  have hplace : s + BitVec.ofNat 64 (text.length - (unspaced text).length) +
      BitVec.ofNat 64 ((unspaced text).length - (body text).length) +
      BitVec.ofNat 64 skip + BitVec.ofNat 64 dig.length =
      s + BitVec.ofNat 64 (text.length - (body text).length + skip + dig.length) := by
    rw [BitVec.add_assoc, BitVec.add_assoc, BitVec.add_assoc, ← BitVec.ofNat_add,
      ← BitVec.ofNat_add, ← BitVec.ofNat_add]
    congr 2
    omega
  exact congrArg some (Prod.ext (signed_eq _ _) (congrArg (endptr.map fun _ ↦ ·) hplace))

/-! ## The documented grammar -/

/-- `strtol` returns the number that the grammar gives, if that is a `long`, and sets `*endptr` just
after it. -/
def AcceptsGrammar (memory : ByteMemory) (s : BitVec 64) (base : ℕ) (text : List Byte) : Prop :=
  ∃ enough, ∀ fuel ≥ enough, ∀ endptr, ∃ value,
    strtol memory fuel s endptr base = some (value,
      endptr.map fun _ ↦ s + BitVec.ofNat 64 (documented base text).length) ∧
    (-2 ^ 63 ≤ (documented base text).value → (documented base text).value < 2 ^ 63 →
      value.toInt = (documented base text).value)

theorem validDigits_length (base : ℕ) (text : List Byte) :
    (validDigits base text).length ≤ text.length := by
  induction text with
  | nil => exact Nat.le_refl _
  | cons byte text ih =>
    rw [validDigits]
    cases digit byte with
    | none => exact Nat.zero_le _
    | some dig =>
      simp only
      split_ifs
      · exact Nat.succ_le_succ ih
      · exact Nat.zero_le _

/-- A number lies within its text. -/
theorem numberWith_length (marks : List Byte) (base : ℕ) (text : List Byte) :
    (numberWith marks base text).length ≤ text.length := by
  have hbody : (body text).length ≤ text.length :=
    ((unsigned_suffix _).trans (unspaced_suffix text)).length_le
  have hskip := radixPrefix_le marks base (body text)
  have hdigits := validDigits_length (radixPrefix marks base (body text)).2
    ((body text).drop (radixPrefix marks base (body text)).1)
  rw [List.length_drop] at hdigits
  change text.length - (body text).length + (radixPrefix marks base (body text)).1 +
    (validDigits _ _).length ≤ text.length
  omega

/-- The prefix that the loop does not know -/
def BeginsCapital (base : ℕ) (text : List Byte) : Prop :=
  (base = 0 ∨ base = 16) ∧ BeginsHex [0x58] (body text)

instance (base : ℕ) (text : List Byte) : Decidable (BeginsCapital base text) :=
  inferInstanceAs (Decidable (_ ∧ _))

theorem beginsHex_cons (mark : Byte) (marks text : List Byte) :
    BeginsHex (mark :: marks) text ↔ BeginsHex [mark] text ∨ BeginsHex marks text := by
  match text with
  | [] => simp [BeginsHex]
  | [_] => simp [BeginsHex]
  | zero :: next :: _ =>
    rw [BeginsHex, BeginsHex, BeginsHex, List.mem_cons, List.mem_singleton]
    tauto

/-- Without that prefix the two grammars are the same. -/
theorem documented_eq (h : ¬ BeginsCapital base text) :
    documented base text = numberWith [0x78] base text := by
  have hradix : radixPrefix [0x78, 0x58] base (body text) =
      radixPrefix [0x78] base (body text) := by
    unfold radixPrefix
    have hiff : (base = 0 ∨ base = 16) ∧ BeginsHex [0x78, 0x58] (body text) ↔
        (base = 0 ∨ base = 16) ∧ BeginsHex [0x78] (body text) := by
      rw [beginsHex_cons]
      unfold BeginsCapital at h
      tauto
    simp only [hiff]
  unfold documented numberWith digitsBehind
  rw [hradix]

/-- With it, only the zero is read as a digit or as a prefix. -/
theorem length_of_capital (h : BeginsCapital base text) :
    (numberWith [0x78] base text).length < (documented base text).length := by
  obtain ⟨hbase, hhex⟩ := h
  have hread : (radixPrefix [0x78] base (body text)).1 +
      (digitsBehind [0x78] base (body text)).length = 1 := by
    match body text, hhex with
    | _ :: _ :: rest, ⟨rfl, hmark⟩ =>
      obtain rfl := List.mem_singleton.mp hmark
      rcases hbase with rfl | rfl
      · rfl
      · rfl
  have hskip : (radixPrefix [0x78, 0x58] base (body text)).1 = 2 := by
    rw [radixPrefix, if_pos ⟨hbase, (beginsHex_cons 0x78 [0x58] _).mpr (.inr hhex)⟩]
  unfold documented numberWith
  simp only [hskip]
  omega

theorem not_acceptsGrammar (h : memory.Holds s (text ++ [0])) (hfree : 0 ∉ text)
    (hcapital : BeginsCapital base text) : ¬ AcceptsGrammar memory s base text := by
  rintro ⟨enough, haccepts⟩
  obtain ⟨value, hvalue, -⟩ := haccepts (max enough (text.length + 1)) (Nat.le_max_left _ _) (some 0)
  have hfuel : text.length < max enough (text.length + 1) := Nat.le_max_right _ _
  rw [strtol_eq h hfuel] at hvalue
  have hend : s + BitVec.ofNat 64 (numberWith [0x78] base text).length =
      s + BitVec.ofNat 64 (documented base text).length :=
    Option.some.inj (congrArg Prod.snd (Option.some.inj hvalue))
  have hlength := h.length_lt hfree
  have hshort : (numberWith [0x78] base text).length < 2 ^ 64 :=
    (numberWith_length _ _ _).trans_lt hlength
  have hlong : (documented base text).length < 2 ^ 64 :=
    (numberWith_length _ _ _).trans_lt hlength
  have heq := offset_sub s hshort
  rw [hend, offset_sub s hlong] at heq
  exact (length_of_capital hcapital).ne' heq

/-- `strtol` keeps to the grammar exactly if there is no prefix `0X`. -/
theorem strtol_grammar_iff (base : ℕ) (text : List Byte) (h : memory.Holds s (text ++ [0]))
    (hfree : 0 ∉ text) : AcceptsGrammar memory s base text ↔ ¬ BeginsCapital base text := by
  constructor
  · intro haccepts hcapital
    exact not_acceptsGrammar h hfree hcapital haccepts
  · intro hnone
    refine ⟨text.length + 1, fun fuel hfuel endptr ↦ ?_⟩
    rw [documented_eq hnone]
    exact ⟨_, strtol_eq h hfuel base endptr,
      fun hmin hmax ↦ BitVec.toInt_ofInt_eq_self (by decide) hmin hmax⟩

/-- The string `" -0x1f"` -/
theorem strtol_grammar_lower : AcceptsGrammar
    (ByteMemory.only 0x1000 [0x20, 0x2d, 0x30, 0x78, 0x31, 0x66, 0]) 0x1000 16
    [0x20, 0x2d, 0x30, 0x78, 0x31, 0x66] :=
  (strtol_grammar_iff 16 [0x20, 0x2d, 0x30, 0x78, 0x31, 0x66] (holds_only (by decide))
    (by decide)).mpr (by decide)

/-- The string `"0X1F"` -/
theorem strtol_grammar_capital : ¬ AcceptsGrammar
    (ByteMemory.only 0x1000 [0x30, 0x58, 0x31, 0x46, 0]) 0x1000 16 [0x30, 0x58, 0x31, 0x46] :=
  not_acceptsGrammar (holds_only (by decide)) (by decide) (by decide)

end Ucore.Strtol
