import Mathlib.Algebra.Order.Ring.Int
import Ucore.Foundation.Bytes

/-!
# Strings (`libs/string.c`)

Strings are bytes in memory up to a NUL. The second argument of the comparisons is always a literal
of the kernel, which is a list of bytes here.
-/

namespace Ucore

open Foundation ByteMemory

/-- The loop of `strlen` -/
def strlenFrom (memory : ByteMemory) : ℕ → BitVec 64 → BitVec 64 → Option (BitVec 64)
  | 0, _, _ => none
  | fuel + 1, s, cnt => do
    if (← memory s) ≠ 0 then strlenFrom memory fuel (s + 1) (cnt + 1) else return cnt

def strlen (memory : ByteMemory) (fuel : ℕ) (s : BitVec 64) : Option (BitVec 64) :=
  strlenFrom memory fuel s 0

/-- `*s1` and `*s2` of a comparison that stops -/
def difference (byte : Byte) (c : Byte) : ℤ := byte.toNat - c.toNat

def strcmp (memory : ByteMemory) (s1 : BitVec 64) : List Byte → Option ℤ
  | [] => do return difference (← memory s1) 0
  | c :: s2 => do
    let byte ← memory s1
    if byte ≠ 0 ∧ byte = c then strcmp memory (s1 + 1) s2 else return difference byte c

def strncmp (memory : ByteMemory) (s1 : BitVec 64) (s2 : List Byte) : ℕ → Option ℤ
  | 0 => some 0
  | n + 1 => do
    let byte ← memory s1
    let c := s2.headD 0
    if byte ≠ 0 ∧ byte = c then strncmp memory (s1 + 1) s2.tail n else return difference byte c

/-- The place of a character in a literal -/
def strchr : List Byte → Byte → Option ℕ
  | [], _ => none
  | byte :: s, c => if byte = c then some 0 else (strchr s c).map (· + 1)

variable {memory : ByteMemory} {fuel : ℕ} {s cnt result : BitVec 64} {name s2 : List Byte}

theorem strchr_ne_none {c : Byte} : strchr s2 c ≠ none ↔ c ∈ s2 := by
  induction s2 with
  | nil => simp [strchr]
  | cons byte s2 ih =>
    by_cases hbyte : byte = c
    · simp [strchr, hbyte]
    · rw [strchr, if_neg hbyte, ne_eq, Option.map_eq_none_iff, ← ne_eq, ih, List.mem_cons,
        or_iff_right (Ne.symm hbyte)]

theorem difference_eq_zero {byte c : Byte} : difference byte c = 0 ↔ byte = c := by
  unfold difference
  rw [sub_eq_zero, Nat.cast_inj]
  exact BitVec.toNat_inj

theorem strlenFrom_eq (h : memory.Holds s (name ++ [0])) (hname : 0 ∉ name)
    (hfuel : name.length < fuel) :
    strlenFrom memory fuel s cnt = some (cnt + BitVec.ofNat 64 name.length) := by
  induction name generalizing fuel s cnt with
  | nil =>
    obtain ⟨fuel, rfl⟩ := Nat.exists_eq_add_one_of_ne_zero (show fuel ≠ 0 by simp at hfuel; omega)
    simp [strlenFrom, h.1]
  | cons byte name ih =>
    obtain ⟨fuel, rfl⟩ := Nat.exists_eq_add_one_of_ne_zero (show fuel ≠ 0 by omega)
    obtain ⟨hbyte, hrest⟩ := h
    rw [List.mem_cons, not_or] at hname
    obtain ⟨hne, hname⟩ := hname
    have hnext : strlenFrom memory (fuel + 1) s cnt = strlenFrom memory fuel (s + 1) (cnt + 1) := by
      rw [strlenFrom, hbyte]
      exact if_pos (Ne.symm hne)
    rw [hnext, ih hrest hname (by simpa using hfuel), add_succ, List.length_cons]

/-- The length of a string that ends where it can be read. -/
theorem strlen_eq (h : memory.Holds s (name ++ [0])) (hname : 0 ∉ name)
    (hfuel : name.length < fuel) : strlen memory fuel s = some (BitVec.ofNat 64 name.length) := by
  rw [strlen, strlenFrom_eq h hname hfuel]
  exact congrArg some (BitVec.zero_add _)

/-- More fuel does not change a length. -/
theorem strlenFrom_mono (more : ℕ) (h : strlenFrom memory fuel s cnt = some result) :
    strlenFrom memory (fuel + more) s cnt = some result := by
  induction fuel generalizing s cnt with
  | zero => cases h
  | succ fuel ih =>
    rw [Nat.add_right_comm]
    obtain ⟨byte, hbyte, hrest⟩ := Option.bind_eq_some_iff.mp h
    refine Option.bind_eq_some_iff.mpr ⟨byte, hbyte, ?_⟩
    split_ifs at hrest ⊢
    · exact ih hrest
    · exact hrest

theorem strlen_mono (more : ℕ) (h : strlen memory fuel s = some result) :
    strlen memory (fuel + more) s = some result := strlenFrom_mono more h

theorem strlenFrom_holds (h : strlenFrom memory fuel s cnt = some result) :
    ∃ name, memory.Holds s (name ++ [0]) ∧ 0 ∉ name := by
  induction fuel generalizing s cnt with
  | zero => cases h
  | succ fuel ih =>
    obtain ⟨byte, hbyte, hrest⟩ := Option.bind_eq_some_iff.mp h
    by_cases hzero : byte = 0
    · exact ⟨[], ⟨hzero ▸ hbyte, trivial⟩, List.not_mem_nil⟩
    · rw [if_pos hzero] at hrest
      obtain ⟨name, hname, hfree⟩ := ih hrest
      refine ⟨byte :: name, ⟨hbyte, hname⟩, ?_⟩
      rw [List.mem_cons, not_or]
      exact ⟨Ne.symm hzero, hfree⟩

/-- Only such strings have a length. -/
theorem strlen_holds (h : strlen memory fuel s = some result) :
    ∃ name, memory.Holds s (name ++ [0]) ∧ 0 ∉ name := strlenFrom_holds h

/-- `strcmp` tells whether a string is the literal. -/
theorem strcmp_eq (h : memory.Holds s (name ++ [0])) (hname : 0 ∉ name) (hs2 : 0 ∉ s2) :
    ∃ result, strcmp memory s s2 = some result ∧ (result = 0 ↔ name = s2) := by
  induction s2 generalizing s name with
  | nil =>
    cases name with
    | nil => exact ⟨_, by simp [strcmp, h.1]; rfl, by simp [difference_eq_zero]⟩
    | cons byte name =>
      refine ⟨difference byte 0, by simp [strcmp, h.1], ?_⟩
      rw [List.mem_cons, not_or] at hname
      simp only [difference_eq_zero, reduceCtorEq, iff_false]
      exact Ne.symm hname.1
  | cons c s2 ih =>
    cases name with
    | nil =>
      refine ⟨difference 0 c, by simp [strcmp, h.1], ?_⟩
      rw [List.mem_cons, not_or] at hs2
      simp only [difference_eq_zero, reduceCtorEq, iff_false]
      exact hs2.1
    | cons byte name =>
      obtain ⟨hbyte, hrest⟩ := h
      rw [List.mem_cons, not_or] at hname hs2
      obtain ⟨hne, hname⟩ := hname
      by_cases hsame : byte = c
      · obtain ⟨result, hresult, hiff⟩ := ih hrest hname hs2.2
        refine ⟨result, ?_, ?_⟩
        · rw [strcmp, hbyte]
          exact (if_pos ⟨Ne.symm hne, hsame⟩).trans hresult
        · rw [hiff, List.cons_eq_cons, and_iff_right hsame]
      · refine ⟨difference byte c, by simp [strcmp, hbyte, hsame], ?_⟩
        simp [difference_eq_zero, hsame]

/-- The string differs from the literal at a byte that can be read, and so can all before it. -/
def Differs (memory : ByteMemory) (s : BitVec 64) (s2 : List Byte) : Prop :=
  ∃ common byte other, common ++ [other] <+: s2 ++ [0] ∧ memory.Holds s (common ++ [byte]) ∧
    byte ≠ other

/-- `strcmp` has a result only if it can read up to the first difference or to the end. -/
theorem strcmp_holds {compared : ℤ} (hs2 : 0 ∉ s2) (h : strcmp memory s s2 = some compared) :
    (compared = 0 ∧ memory.Holds s (s2 ++ [0])) ∨ (compared ≠ 0 ∧ Differs memory s s2) := by
  induction s2 generalizing s with
  | nil =>
    obtain ⟨byte, hbyte, hcompared⟩ := Option.bind_eq_some_iff.mp h
    obtain rfl := Option.some.inj hcompared
    by_cases hzero : byte = 0
    · exact .inl ⟨difference_eq_zero.mpr hzero, hzero ▸ hbyte, trivial⟩
    · exact .inr ⟨mt difference_eq_zero.mp hzero, [], byte, 0, List.prefix_rfl,
        ⟨hbyte, trivial⟩, hzero⟩
  | cons c s2 ih =>
    rw [List.mem_cons, not_or] at hs2
    obtain ⟨byte, hbyte, hrest⟩ := Option.bind_eq_some_iff.mp h
    by_cases hsame : byte = c
    · subst hsame
      rw [if_pos ⟨Ne.symm hs2.1, rfl⟩] at hrest
      rcases ih hs2.2 hrest with ⟨hzero, hholds⟩ | ⟨hne, common, last, other, hcommon, hholds, hlast⟩
      · exact .inl ⟨hzero, hbyte, hholds⟩
      · exact .inr ⟨hne, byte :: common, last, other, List.cons_prefix_cons.mpr ⟨rfl, hcommon⟩,
          ⟨hbyte, hholds⟩, hlast⟩
    · rw [if_neg fun both ↦ hsame both.2] at hrest
      obtain rfl := Option.some.inj hrest
      exact .inr ⟨mt difference_eq_zero.mp hsame, [], byte, c, by simp, ⟨hbyte, trivial⟩, hsame⟩

theorem strcmp_differs (hs2 : 0 ∉ s2) (h : Differs memory s s2) :
    ∃ compared, strcmp memory s s2 = some compared ∧ compared ≠ 0 := by
  induction s2 generalizing s with
  | nil =>
    obtain ⟨common, byte, other, hcommon, hholds, hne⟩ := h
    cases common with
    | nil =>
      obtain rfl : other = 0 := (List.cons_prefix_cons.mp hcommon).1
      exact ⟨difference byte 0, by simp [strcmp, hholds.1], mt difference_eq_zero.mp hne⟩
    | cons first common =>
      have hlength := hcommon.length_le
      simp at hlength
  | cons c s2 ih =>
    rw [List.mem_cons, not_or] at hs2
    obtain ⟨common, byte, other, hcommon, hholds, hne⟩ := h
    cases common with
    | nil =>
      obtain rfl : other = c := (List.cons_prefix_cons.mp hcommon).1
      exact ⟨difference byte other, by simp [strcmp, hholds.1, hne], mt difference_eq_zero.mp hne⟩
    | cons first common =>
      obtain ⟨rfl, hlater⟩ := List.cons_prefix_cons.mp hcommon
      obtain ⟨hfirst, hholds⟩ := hholds
      obtain ⟨compared, hcompared, hdiffers⟩ := ih hs2.2 ⟨common, byte, other, hlater, hholds, hne⟩
      refine ⟨compared, ?_, hdiffers⟩
      rw [strcmp, hfirst]
      exact (if_pos ⟨Ne.symm hs2.1, rfl⟩).trans hcompared

/-- `strncmp` with the length of the literal tells whether a string begins with it. -/
theorem strncmp_eq (h : memory.Holds s (name ++ [0])) (hname : 0 ∉ name) (hs2 : 0 ∉ s2) :
    ∃ result, strncmp memory s s2 s2.length = some result ∧ (result = 0 ↔ s2 <+: name) := by
  induction s2 generalizing s name with
  | nil => exact ⟨0, rfl, by simp⟩
  | cons c s2 ih =>
    cases name with
    | nil =>
      refine ⟨difference 0 c, by simp [strncmp, h.1], ?_⟩
      rw [List.mem_cons, not_or] at hs2
      simp only [difference_eq_zero, List.prefix_nil, reduceCtorEq, iff_false]
      exact hs2.1
    | cons byte name =>
      obtain ⟨hbyte, hrest⟩ := h
      rw [List.mem_cons, not_or] at hname hs2
      obtain ⟨hne, hname⟩ := hname
      by_cases hsame : byte = c
      · obtain ⟨result, hresult, hiff⟩ := ih hrest hname hs2.2
        refine ⟨result, ?_, ?_⟩
        · rw [List.length_cons, strncmp, hbyte]
          exact (if_pos ⟨Ne.symm hne, hsame⟩).trans hresult
        · rw [hiff, List.cons_prefix_cons, and_iff_right hsame.symm]
      · refine ⟨difference byte c, by simp [strncmp, hbyte, hsame], ?_⟩
        simp [difference_eq_zero, hsame, Ne.symm hsame]

end Ucore
