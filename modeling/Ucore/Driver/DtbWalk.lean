import Mathlib.Data.Nat.Digits.Lemmas
import Mathlib.Tactic.IntervalCases
import Ucore.Driver.DtbFormat
import Ucore.Mm.Pmm

/-!
# The walk through a device tree

From the start of a token the loop gets to the start of the next one, unless the name of a node is so
long that its length is no `int`. Mapped memory has no room for such a name.
-/

namespace Ucore

open Foundation ByteMemory

/-! ## Words and alignment -/

theorem getLsbD_mask (bit : ℕ) : (0xff : BitVec 32).getLsbD bit = decide (bit < 8) := by
  by_cases h : bit < 32
  · interval_cases bit <;> rfl
  · rw [BitVec.getLsbD_of_ge _ _ (by omega), eq_comm, decide_eq_false_iff_not]
    omega

/-- `fdt32_to_cpu` reverses the bytes. -/
theorem fdt32ToCpu_append (byte₀ byte₁ byte₂ byte₃ : Byte) :
    fdt32ToCpu (byte₃ ++ byte₂ ++ byte₁ ++ byte₀) = byte₀ ++ byte₁ ++ byte₂ ++ byte₃ := by
  apply BitVec.eq_of_getLsbD_eq
  intro bit hbit
  simp only [fdt32ToCpu, BitVec.getLsbD_or, BitVec.getLsbD_and, BitVec.getLsbD_shiftLeft,
    BitVec.getLsbD_ushiftRight, BitVec.getLsbD_append, getLsbD_mask]
  grind

theorem bigEndian32_append (word : BitVec 32) :
    word.extractLsb' 24 8 ++ word.extractLsb' 16 8 ++ word.extractLsb' 8 8 ++
      word.extractLsb' 0 8 = word := by
  apply BitVec.eq_of_getLsbD_eq
  intro bit hbit
  simp only [BitVec.getLsbD_append, BitVec.getLsbD_extractLsb']
  grind

theorem bigEndian32_length (word : BitVec 32) : (bigEndian32 word).length = 4 := rfl

section Loads

variable {memory : ByteMemory} {address : BitVec 64} {word : BitVec 32}

theorem load32_bigEndian32 (h : memory.Holds address (bigEndian32 word)) :
    ∃ loaded, memory.load32 address = some loaded ∧ fdt32ToCpu loaded = word :=
  ⟨_, load32_eq h, (fdt32ToCpu_append _ _ _ _).trans (bigEndian32_append word)⟩

theorem fetchToken_eq (h : memory.Holds address (bigEndian32 word)) :
    fetchToken memory address = some word := by
  obtain ⟨loaded, hload, hword⟩ := load32_bigEndian32 h
  rw [fetchToken, hload, ← hword]
  rfl

theorem exists_four {bytes : List Byte} (hlength : 4 ≤ bytes.length) :
    ∃ byte₀ byte₁ byte₂ byte₃, bytes = byte₀ :: byte₁ :: byte₂ :: byte₃ :: bytes.drop 4 := by
  rcases bytes with _ | ⟨byte₀, _ | ⟨byte₁, _ | ⟨byte₂, _ | ⟨byte₃, bytes⟩⟩⟩⟩ <;> simp at hlength ⊢

theorem append_toNat {width width' : ℕ} (high : BitVec width) (low : BitVec width') :
    (high ++ low).toNat = high.toNat * 2 ^ width' + low.toNat := by
  rw [BitVec.toNat_append, ← Nat.shiftLeft_add_eq_or_of_lt low.isLt, Nat.shiftLeft_eq]

/-- The number in four bytes -/
theorem load32_value {bytes : List Byte} (h : memory.Holds address bytes)
    (hlength : 4 ≤ bytes.length) :
    ∃ loaded, memory.load32 address = some loaded ∧
      (fdt32ToCpu loaded).toNat = Nat.ofDigits 256 ((bytes.take 4).reverse.map BitVec.toNat) := by
  obtain ⟨byte₀, byte₁, byte₂, byte₃, hbytes⟩ := exists_four hlength
  have hfour : bytes.take 4 = [byte₀, byte₁, byte₂, byte₃] := by
    rw [hbytes]
    rfl
  have hinitial : [byte₀, byte₁, byte₂, byte₃] <+: bytes := hfour ▸ List.take_prefix 4 bytes
  refine ⟨_, load32_eq (h.of_initial hinitial), ?_⟩
  rw [fdt32ToCpu_append, hfour]
  simp only [List.reverse_cons, List.reverse_nil, List.nil_append, List.cons_append,
    List.map_cons, List.map_nil, Nat.ofDigits_cons, Nat.ofDigits_nil, append_toNat]
  ring

/-- `fdt64_to_cpu` reverses eight bytes. -/
theorem fdt64ToCpu_append (high low : BitVec 32) :
    fdt64ToCpu (high ++ low) = fdt32ToCpu low ++ fdt32ToCpu high := by
  have hlow : fdt32ToCpu (BitVec.setWidth 32 ((high ++ low : BitVec 64) &&& 0xffffffff)) =
      fdt32ToCpu low := by
    congr 1
    apply BitVec.eq_of_toNat_eq
    have hlt := low.isLt
    have hmask : (0xffffffff : BitVec 64).toNat = 2 ^ 32 - 1 := rfl
    rw [BitVec.toNat_setWidth, BitVec.toNat_and, append_toNat, hmask,
      Nat.and_two_pow_sub_one_eq_mod]
    omega
  have hhigh : fdt32ToCpu (BitVec.setWidth 32 ((high ++ low : BitVec 64) >>> 32)) =
      fdt32ToCpu high := by
    congr 1
    apply BitVec.eq_of_toNat_eq
    have hlt := low.isLt
    have hlt' := high.isLt
    rw [BitVec.toNat_setWidth, BitVec.toNat_ushiftRight, append_toNat, Nat.shiftRight_eq_div_pow]
    omega
  rw [fdt64ToCpu, hlow, hhigh]
  generalize fdt32ToCpu low = first, fdt32ToCpu high = second
  apply BitVec.eq_of_toNat_eq
  have hfirst : first.toNat < 2 ^ 32 := first.isLt
  have hsecond : second.toNat < 2 ^ 32 := second.isLt
  have hshift : first.toNat <<< 32 < 2 ^ 64 := by
    rw [Nat.shiftLeft_eq]
    omega
  rw [append_toNat, BitVec.toNat_or, BitVec.toNat_shiftLeft, BitVec.toNat_setWidth,
    BitVec.toNat_setWidth, Nat.mod_eq_of_lt (hfirst.trans (by decide)),
    Nat.mod_eq_of_lt (hsecond.trans (by decide)), Nat.mod_eq_of_lt hshift,
    ← Nat.shiftLeft_add_eq_or_of_lt hsecond, Nat.shiftLeft_eq]

theorem load64_value {bytes : List Byte} (h : memory.Holds address bytes)
    (hlength : 8 ≤ bytes.length) :
    ∃ loaded, memory.load64 address = some loaded ∧ fdt64ToCpu loaded = bigEndian64 bytes := by
  obtain ⟨low, hlow, hlowValue⟩ := load32_value h (by omega)
  have hrest : memory.Holds (address + 4) (bytes.drop 4) := h.drop 4
  obtain ⟨high, hhigh, hhighValue⟩ := load32_value hrest (by rw [List.length_drop]; omega)
  refine ⟨high ++ low, ?_, ?_⟩
  · simp only [load64, hlow, hhigh, Option.bind_eq_bind, Option.bind_some, Option.pure_def]
  · have hdigits : (bytes.take 8).reverse.map BitVec.toNat =
        ((bytes.drop 4).take 4).reverse.map BitVec.toNat ++
          (bytes.take 4).reverse.map BitVec.toNat := by
      rw [← List.map_append, ← List.reverse_append, ← List.take_add]
    have hfour : (((bytes.drop 4).take 4).reverse.map BitVec.toNat).length = 4 := by
      simp only [List.length_map, List.length_reverse, List.length_take, List.length_drop]
      omega
    apply BitVec.eq_of_toNat_eq
    rw [fdt64ToCpu_append, append_toNat, hlowValue, hhighValue, bigEndian64, hdigits,
      Nat.ofDigits_append, hfour, BitVec.toNat_ofNat, Nat.mod_eq_of_lt]
    · ring
    · have hlt := (fdt32ToCpu low).isLt
      have hlt' := (fdt32ToCpu high).isLt
      omega

end Loads

theorem alignedAfter_toNat (p len : BitVec 64) :
    (alignedAfter p len).toNat = (p + len).toNat / 4 * 4 := by
  have hshift : alignedAfter p len = ((p + len) >>> 2) <<< 2 := by
    apply BitVec.eq_of_getLsbD_eq
    intro bit hbit
    unfold alignedAfter
    interval_cases bit <;> simp
  rw [hshift]
  simp only [BitVec.toNat_shiftLeft, BitVec.toNat_ushiftRight, Nat.shiftRight_eq_div_pow,
    Nat.shiftLeft_eq]
  omega

/-- Aligned pointers stay aligned. -/
theorem alignedAfter_eq {start : BitVec 64} (haligned : start.toNat % 4 = 0) (before len : ℕ) :
    alignedAfter (start + BitVec.ofNat 64 before) (BitVec.ofNat 64 len) =
      start + BitVec.ofNat 64 ((before + len) / 4 * 4) := by
  apply BitVec.eq_of_toNat_eq
  rw [alignedAfter_toNat]
  simp only [BitVec.toNat_add, BitVec.toNat_ofNat]
  omega

theorem aligned_add {start : BitVec 64} (haligned : start.toNat % 4 = 0) {offset : ℕ}
    (hoffset : offset % 4 = 0) : (start + BitVec.ofNat 64 offset).toNat % 4 = 0 := by
  simp only [BitVec.toNat_add, BitVec.toNat_ofNat]
  omega

/-- The length of a name as an `int` -/
theorem nameLen_eq {length : ℕ} (hlength : length < 2 ^ 32) :
    ((BitVec.ofNat 64 length).setWidth 32).signExtend 64 =
      BitVec.ofNat 64 (if length < 2 ^ 31 then length else length + (2 ^ 64 - 2 ^ 32)) := by
  have hwidth : ((BitVec.ofNat 64 length).setWidth 32).toNat = length := by
    rw [BitVec.toNat_setWidth, BitVec.toNat_ofNat]
    omega
  have hmsb : ((BitVec.ofNat 64 length).setWidth 32).msb = decide (2 ^ 31 ≤ length) := by
    rw [BitVec.msb_eq_decide, hwidth]
  apply BitVec.eq_of_toNat_eq
  rw [BitVec.toNat_signExtend, BitVec.toNat_setWidth, hwidth, hmsb, BitVec.toNat_ofNat,
    Nat.mod_eq_of_lt (by omega)]
  by_cases hshort : length < 2 ^ 31
  · rw [if_pos hshort, if_neg (by simpa using hshort), Nat.add_zero, Nat.mod_eq_of_lt (by omega)]
  · rw [if_neg hshort, if_pos (by simpa using hshort), Nat.mod_eq_of_lt (by omega)]

/-! ## Rounds -/

namespace FdtToken

/-- Where the loop goes after a token -/
def next (start : BitVec 64) : FdtToken → BitVec 64
  | .beginNode name =>
    alignedAfter (start + 4) (((BitVec.ofNat 64 name.length).setWidth 32).signExtend 64 + 4)
  | token => start + BitVec.ofNat 64 token.bytes.length

theorem bytes_length_mod (token : FdtToken) : token.bytes.length % 4 = 0 := by
  cases token with
  | beginNode name =>
    simp only [bytes, List.length_append, bigEndian32_length, List.length_replicate,
      List.length_singleton]
    omega
  | property prop =>
    simp only [bytes, List.length_append, bigEndian32_length, List.length_replicate]
    omega
  | _ => rfl

theorem bytes_length_pos (token : FdtToken) : 0 < token.bytes.length := by
  cases token with
  | beginNode name =>
    simp only [bytes, List.length_append, bigEndian32_length]
    omega
  | property prop =>
    simp only [bytes, List.length_append, bigEndian32_length]
    omega
  | _ => exact Nat.succ_pos _

/-- The end of a name -/
theorem next_beginNode {name : List Byte} {start : BitVec 64} (haligned : start.toNat % 4 = 0)
    (hlength : name.length < 2 ^ 32) :
    next start (.beginNode name) = start + BitVec.ofNat 64
      ((if name.length < 2 ^ 31 then name.length else name.length + (2 ^ 64 - 2 ^ 32)) / 4 * 4 +
        8) := by
  have hsum : ((BitVec.ofNat 64 name.length).setWidth 32).signExtend 64 + 4 = BitVec.ofNat 64
      ((if name.length < 2 ^ 31 then name.length else name.length + (2 ^ 64 - 2 ^ 32)) + 4) := by
    rw [nameLen_eq hlength, BitVec.ofNat_add]
    rfl
  have hnext : next start (.beginNode name) = alignedAfter (start + BitVec.ofNat 64 4) _ :=
    congrArg (alignedAfter _) hsum
  rw [hnext, alignedAfter_eq haligned]
  congr 2
  omega

/-- The next token, exactly if there is no overlong name. -/
theorem next_eq_iff {token : FdtToken} {start : BitVec 64} (haligned : start.toNat % 4 = 0)
    (hlength : token.bytes.length < 2 ^ 32) :
    token.next start = start + BitVec.ofNat 64 token.bytes.length ↔
      ∀ name, token = .beginNode name → name.length < 2 ^ 31 := by
  cases token with
  | beginNode name =>
    simp only [bytes, List.length_append, bigEndian32_length, List.length_replicate,
      List.length_singleton] at hlength ⊢
    rw [next_beginNode haligned (by omega), BitVec.add_right_inj, ← BitVec.toNat_inj,
      BitVec.toNat_ofNat, BitVec.toNat_ofNat]
    simp only [beginNode.injEq, forall_eq']
    by_cases hshort : name.length < 2 ^ 31
    · rw [if_pos hshort, Nat.mod_eq_of_lt (by omega), Nat.mod_eq_of_lt (by omega)]
      exact ⟨fun _ ↦ hshort, fun _ ↦ by omega⟩
    · rw [if_neg hshort, Nat.mod_eq_of_lt (by omega), Nat.mod_eq_of_lt (by omega)]
      exact ⟨fun heq ↦ by omega, fun hlt ↦ absurd hlt hshort⟩
  | _ => simp [next]

end FdtToken

section Rounds

variable {memory : ByteMemory} {stringsBase start : BitVec 64} {fuel : ℕ} {flag : Bool}

theorem fdtBeginNode_eq {name : List Byte} (h : memory.Holds start (name ++ [0]))
    (hname : 0 ∉ name) (hfuel : name.length < fuel) :
    fdtBeginNode memory fuel start flag = some (.next
      ⟨alignedAfter start (((BitVec.ofNat 64 name.length).setWidth 32).signExtend 64 + 4),
        memoryName.isPrefixOf name || flag⟩) := by
  have hliteral : 0 ∉ memoryName := by decide
  obtain ⟨result, hresult, hinitial⟩ := strncmp_eq h hname hliteral
  have hfound : decide (result = 0) = memoryName.isPrefixOf name := by
    rw [Bool.eq_iff_iff, decide_eq_true_iff, List.isPrefixOf_iff_prefix]
    exact hinitial
  have hcompared : strncmp memory start memoryName 6 = some result := hresult
  simp only [fdtBeginNode, strlen_eq h hname hfuel, hcompared, hfound, Option.bind_eq_bind,
    Option.bind_some, Option.pure_def]

theorem isMemoryReg_eq {propName : BitVec 64} {name : List Byte} {length : ℕ}
    (h : memory.Holds propName (name ++ [0])) (hname : 0 ∉ name) (hlength : length < 2 ^ 32) :
    isMemoryReg memory flag propName (BitVec.ofNat 32 length) =
      some (decide (flag = true ∧ name = regName ∧ 16 ≤ length)) := by
  have hliteral : 0 ∉ regName := by decide
  obtain ⟨result, hresult, hsame⟩ := strcmp_eq h hname hliteral
  have hsmall : length % 4294967296 = length := Nat.mod_eq_of_lt hlength
  cases flag with
  | false => simp [isMemoryReg]
  | true => simp [isMemoryReg, hresult, hsame, hsmall]

theorem fdtProp_eq {prop : FdtProperty} {padding : List Byte}
    (h : memory.Holds start (bigEndian32 (BitVec.ofNat 32 prop.data.length) ++
      (bigEndian32 prop.nameoff ++ (prop.data ++ padding))))
    (hprop : 0 ∉ prop.name ∧ prop.data.length < 2 ^ 32)
    (hname : memory.Holds (stringsBase + prop.nameoff.setWidth 64) (prop.name ++ [0])) :
    fdtProp memory stringsBase start flag =
      match (FdtToken.property prop).foundAt flag with
      | some data => some (.success (bigEndian64 data) (bigEndian64 (data.drop 8)))
      | none => some (.next
          ⟨alignedAfter (start + 8) (BitVec.ofNat 64 (prop.data.length + 3)), flag⟩) := by
  obtain ⟨hlen, hrest⟩ := holds_append.mp h
  obtain ⟨hoff, hrest⟩ := holds_append.mp hrest
  have height : start + 4 + 4 = start + 8 := BitVec.add_assoc _ _ _
  have hoff : memory.Holds (start + 4) (bigEndian32 prop.nameoff) := hoff
  have hrest : memory.Holds (start + 4 + 4) (prop.data ++ padding) := hrest
  rw [height] at hrest
  have hdata := (holds_append.mp hrest).1
  obtain ⟨len, hlen, hlenValue⟩ := load32_bigEndian32 hlen
  obtain ⟨off, hoff, hoffValue⟩ := load32_bigEndian32 hoff
  have hreg : isMemoryReg memory flag _ _ = _ := isMemoryReg_eq hname hprop.1 hprop.2
  have hwide : (BitVec.ofNat 32 prop.data.length).setWidth 64 + 3 =
      BitVec.ofNat 64 (prop.data.length + 3) := by
    have hwiden : (BitVec.ofNat 32 prop.data.length).setWidth 64 =
        BitVec.ofNat 64 prop.data.length := by
      apply BitVec.eq_of_toNat_eq
      rw [BitVec.toNat_setWidth, BitVec.toNat_ofNat, BitVec.toNat_ofNat,
        Nat.mod_eq_of_lt hprop.2]
    rw [hwiden, BitVec.ofNat_add]
    rfl
  by_cases hfound : flag = true ∧ prop.name = regName ∧ 16 ≤ prop.data.length
  · obtain ⟨base, hbase, hbaseValue⟩ := load64_value hdata (by omega)
    have hlater : memory.Holds (start + 8 + 8) (prop.data.drop 8) := hdata.drop 8
    obtain ⟨size, hsize, hsizeValue⟩ := load64_value hlater (by rw [List.length_drop]; omega)
    rw [FdtToken.foundAt, if_pos hfound]
    simp only [fdtProp, hlen, hoff, hlenValue, hoffValue, hreg, hbase, hsize, hbaseValue,
      hsizeValue, decide_eq_true hfound, Option.bind_eq_bind, Option.bind_some, Option.pure_def,
      if_true]
  · rw [FdtToken.foundAt, if_neg hfound]
    simp only [fdtProp, hlen, hoff, hlenValue, hoffValue, hreg, hwide, decide_eq_false hfound,
      Option.bind_eq_bind, Option.bind_some, Option.pure_def, Bool.false_eq_true, if_false]

/-- Where a token begins, the loop reads it and does what the token says. -/
theorem extractRound_eq {token : FdtToken} (h : memory.Holds start token.bytes)
    (haligned : start.toNat % 4 = 0) (hwell : token.WellFormed)
    (hnames : ∀ prop, token = .property prop →
      memory.Holds (stringsBase + prop.nameoff.setWidth 64) (prop.name ++ [0]))
    (hfuel : token.bytes.length ≤ fuel) :
    fetchToken memory start = some token.word ∧
      extractRound memory stringsBase fuel token.word ⟨start, flag⟩ =
        if token = .fin then some .failure
        else match token.foundAt flag with
          | some data => some (.success (bigEndian64 data) (bigEndian64 (data.drop 8)))
          | none => some (.next ⟨token.next start, token.flagAfter flag⟩) := by
  cases token with
  | beginNode name =>
    obtain ⟨hword, hrest⟩ := holds_append.mp h
    obtain ⟨hname, -⟩ := holds_append.mp hrest
    refine ⟨fetchToken_eq hword, ?_⟩
    have hshort : name.length < fuel := by
      simp only [FdtToken.bytes, List.length_append, bigEndian32_length] at hfuel
      omega
    exact fdtBeginNode_eq hname hwell hshort
  | endNode => exact ⟨fetchToken_eq h, rfl⟩
  | property prop =>
    obtain ⟨hword, hrest⟩ := holds_append.mp h
    refine ⟨fetchToken_eq hword, ?_⟩
    have htwelve : start + 4 + 8 = start + BitVec.ofNat 64 12 := BitVec.add_assoc _ _ _
    have hafter : alignedAfter (start + 4 + 8) (BitVec.ofNat 64 (prop.data.length + 3)) =
        (FdtToken.property prop).next start := by
      rw [htwelve, alignedAfter_eq haligned, FdtToken.next]
      · simp only [FdtToken.bytes, List.length_append, bigEndian32_length, List.length_replicate]
        congr 2
        omega
      · nofun
    refine (fdtProp_eq hrest hwell (hnames prop rfl)).trans ?_
    rw [← hafter]
    rfl
  | nop => exact ⟨fetchToken_eq h, rfl⟩
  | fin => exact ⟨fetchToken_eq h, rfl⟩

end Rounds

/-! ## The loop -/

section Loop

variable {memory : ByteMemory} {stringsBase start : BitVec 64} {fuel : ℕ} {flag : Bool}
  {token : FdtToken} {tokens : List FdtToken}

/-- Tokens in memory, with the names of their properties. -/
structure Laid (memory : ByteMemory) (stringsBase start : BitVec 64) (tokens : List FdtToken) :
    Prop where
  holds : memory.Holds start (tokens.flatMap FdtToken.bytes)
  aligned : start.toNat % 4 = 0
  wellFormed : ∀ token ∈ tokens, token.WellFormed
  names : ∀ prop, FdtToken.property prop ∈ tokens →
    memory.Holds (stringsBase + prop.nameoff.setWidth 64) (prop.name ++ [0])

theorem Laid.tail (h : Laid memory stringsBase start (token :: tokens)) :
    Laid memory stringsBase (start + BitVec.ofNat 64 token.bytes.length) tokens where
  holds := by
    have hholds := h.holds
    rw [List.flatMap_cons, holds_append] at hholds
    exact hholds.2
  aligned := aligned_add h.aligned token.bytes_length_mod
  wellFormed := fun token htoken ↦ h.wellFormed token (List.mem_cons_of_mem _ htoken)
  names := fun prop hprop ↦ h.names prop (List.mem_cons_of_mem _ hprop)

/-- `*mem_base` and `*mem_size` for the data of a `reg` property -/
def memoryInfo (data : List Byte) : BitVec 64 × BitVec 64 :=
  (bigEndian64 data, bigEndian64 (data.drop 8))

/-- One round of the loop at a token -/
theorem extractLoop_cons (h : Laid memory stringsBase start (token :: tokens))
    (hfuel : token.bytes.length ≤ fuel) :
    extractLoop memory stringsBase (fuel + 1) ⟨start, flag⟩ =
      if token.stopsAt flag then some ([(start, token.word)], (token.foundAt flag).map memoryInfo)
      else (extractLoop memory stringsBase fuel ⟨token.next start, token.flagAfter flag⟩).map
        fun result ↦ ((start, token.word) :: result.1, result.2) := by
  have hholds := h.holds
  rw [List.flatMap_cons, holds_append] at hholds
  have hround : _ ∧ extractRound memory stringsBase fuel token.word ⟨start, flag⟩ = _ :=
    extractRound_eq hholds.1 h.aligned (h.wellFormed token List.mem_cons_self)
      (fun prop heq ↦ h.names prop (heq ▸ List.mem_cons_self)) hfuel
  obtain ⟨htoken, hround⟩ := hround
  by_cases hfin : token = .fin
  · subst hfin
    rw [if_pos rfl] at hround
    simp only [extractLoop, htoken, hround, Option.bind_eq_bind, Option.bind_some,
      Option.pure_def]
    rfl
  · rw [if_neg hfin] at hround
    cases hfound : token.foundAt flag with
    | some data =>
      rw [hfound] at hround
      have hstops : token.stopsAt flag = true := by simp [FdtToken.stopsAt, hfound]
      rw [if_pos hstops]
      simp only [extractLoop, htoken, hround, Option.bind_eq_bind, Option.bind_some,
        Option.pure_def]
      rfl
    | none =>
      rw [hfound] at hround
      have hstops : ¬ token.stopsAt flag = true := by simp [FdtToken.stopsAt, hfound, hfin]
      rw [if_neg hstops]
      simp only [extractLoop, htoken, hround, Option.bind_eq_bind, Option.bind_some,
        Option.pure_def]
      rw [Option.map_eq_bind]
      rfl

/-- The run of the loop -/
theorem extractLoop_eq (h : Laid memory stringsBase start tokens) (hend : .fin ∈ tokens)
    (hsize : (tokens.flatMap FdtToken.bytes).length < 2 ^ 32)
    (hshort : ∀ name, .beginNode name ∈ FdtToken.visited flag tokens → name.length < 2 ^ 31)
    (hfuel : (tokens.flatMap FdtToken.bytes).length < fuel) :
    extractLoop memory stringsBase fuel ⟨start, flag⟩ =
      some (FdtToken.positions start (FdtToken.visited flag tokens),
        (FdtToken.found flag tokens).map memoryInfo) := by
  induction tokens generalizing start flag fuel with
  | nil => cases hend
  | cons token tokens ih =>
    rw [List.flatMap_cons, List.length_append] at hsize hfuel
    obtain ⟨fuel, rfl⟩ := Nat.exists_eq_add_one_of_ne_zero (show fuel ≠ 0 by omega)
    have hpos := token.bytes_length_pos
    rw [extractLoop_cons h (by omega)]
    unfold FdtToken.visited FdtToken.found
    unfold FdtToken.visited at hshort
    by_cases hstops : token.stopsAt flag = true
    · simp only [if_pos hstops]
      rfl
    · simp only [if_neg hstops] at hshort ⊢
      have hnext : token.next start = start + BitVec.ofNat 64 token.bytes.length := by
        rw [FdtToken.next_eq_iff h.aligned (by omega)]
        rintro name rfl
        exact hshort name List.mem_cons_self
      have hend' : .fin ∈ tokens := by
        refine (List.mem_cons.mp hend).resolve_left ?_
        rintro rfl
        exact hstops rfl
      rw [hnext, ih h.tail hend' (by omega)
        (fun name hname ↦ hshort name (List.mem_cons_of_mem _ hname)) (by omega)]
      rfl

/-! More fuel does not change what is returned. -/

theorem extractRound_mono {word : BitVec 32} {walk : FdtWalk} {round : FdtRound} (more : ℕ)
    (h : extractRound memory stringsBase fuel word walk = some round) :
    extractRound memory stringsBase (fuel + more) word walk = some round := by
  unfold extractRound at h ⊢
  dsimp only at h ⊢
  by_cases hbegin : word = FDT_BEGIN_NODE
  · rw [if_pos hbegin] at h ⊢
    obtain ⟨length, hlength, hrest⟩ := Option.bind_eq_some_iff.mp h
    exact Option.bind_eq_some_iff.mpr ⟨length, strlen_mono more hlength, hrest⟩
  · rwa [if_neg hbegin] at h ⊢

theorem extractLoop_mono {walk : FdtWalk}
    {result : List (BitVec 64 × BitVec 32) × Option (BitVec 64 × BitVec 64)} (more : ℕ)
    (h : extractLoop memory stringsBase fuel walk = some result) :
    extractLoop memory stringsBase (fuel + more) walk = some result := by
  induction fuel generalizing walk result with
  | zero => cases h
  | succ fuel ih =>
    rw [Nat.add_right_comm]
    obtain ⟨token, htoken, hrest⟩ := Option.bind_eq_some_iff.mp h
    obtain ⟨round, hround, hrest⟩ := Option.bind_eq_some_iff.mp hrest
    refine Option.bind_eq_some_iff.mpr ⟨token, htoken, ?_⟩
    refine Option.bind_eq_some_iff.mpr ⟨round, extractRound_mono more hround, ?_⟩
    cases round with
    | next walk' =>
      obtain ⟨later, hlater, hresult⟩ := Option.bind_eq_some_iff.mp hrest
      exact Option.bind_eq_some_iff.mpr ⟨later, ih hlater, hresult⟩
    | success base size => exact hrest
    | failure => exact hrest

theorem extractLoop_of_unreadable {walk : FdtWalk} (h : memory walk.structPtr = none) :
    extractLoop memory stringsBase fuel walk = none := by
  cases fuel with
  | zero => rfl
  | succ fuel => simp [extractLoop, fetchToken, load32, h]

end Loop

/-! ## A blob in memory -/

namespace FdtBlob

variable {blob : FdtBlob} {memory : ByteMemory} {v : BitVec 64}

/-- The tokens that the loop reads until it returns are those of the blob, each at its place. -/
def InStep (blob : FdtBlob) (memory : ByteMemory) (v : BitVec 64) : Prop :=
  ∃ fuel read info, extractMemoryInfo memory fuel v = some (read, info) ∧
    read <+: FdtToken.positions (v + blob.structOffset.setWidth 64) blob.tokens

theorem extractMemoryInfo_eq (h : memory.Holds v blob.bytes) (fuel : ℕ) :
    extractMemoryInfo memory fuel v =
      extractLoop memory (v + blob.stringsOffset.setWidth 64) fuel
        ⟨v + blob.structOffset.setWidth 64, false⟩ := by
  obtain ⟨structOff, hstruct, hstructValue⟩ :=
    load32_bigEndian32 ((h.drop 8).of_initial blob.offDtStruct)
  obtain ⟨stringsOff, hstrings, hstringsValue⟩ :=
    load32_bigEndian32 ((h.drop 12).of_initial blob.offDtStrings)
  have hstruct : memory.load32 (v + 8) = some structOff := hstruct
  have hstrings : memory.load32 (v + 12) = some stringsOff := hstrings
  simp only [extractMemoryInfo, hstruct, hstrings, hstructValue, hstringsValue,
    Option.bind_eq_bind, Option.bind_some]

theorem setWidth_eq_ofNat (offset : BitVec 32) :
    offset.setWidth 64 = BitVec.ofNat 64 offset.toNat := by
  apply BitVec.eq_of_toNat_eq
  rw [BitVec.toNat_setWidth, BitVec.toNat_ofNat]

theorem laid (haligned : v.toNat % 4 = 0) (h : memory.Holds v blob.bytes) :
    Laid memory (v + blob.stringsOffset.setWidth 64) (v + blob.structOffset.setWidth 64)
      blob.tokens where
  holds := by
    rw [setWidth_eq_ofNat]
    exact (h.drop _).of_initial blob.structBlock
  aligned := by
    rw [setWidth_eq_ofNat]
    exact aligned_add haligned blob.aligned
  wellFormed := blob.wellFormed
  names prop hprop := by
    rw [setWidth_eq_ofNat, setWidth_eq_ofNat, BitVec.add_assoc, ← BitVec.ofNat_add]
    exact (h.drop _).of_initial (blob.names prop hprop)

theorem tokens_size (blob : FdtBlob) : (blob.tokens.flatMap FdtToken.bytes).length < 2 ^ 32 := by
  have hlength := blob.structBlock.length_le
  have hsize := blob.size
  rw [List.length_drop] at hlength
  omega

theorem fin_mem (blob : FdtBlob) : .fin ∈ blob.tokens := by
  have hfin : FdtToken.fin ∈ blob.tokens.filter (· ≠ .nop) := by
    rw [blob.layout]
    exact List.mem_append_right _ List.mem_cons_self
  exact (List.mem_filter.mp hfin).1

/-- The length of a name in a mapped blob is an `int`. -/
theorem name_length_lt (blob : FdtBlob) (hmapped : BootMapped v.toNat blob.bytes.length)
    {name : List Byte} (hname : .beginNode name ∈ blob.tokens) : name.length < 2 ^ 31 := by
  have hblock := blob.structBlock.length_le
  obtain ⟨before, behind, htokens⟩ := List.append_of_mem hname
  rw [htokens, List.flatMap_append, List.flatMap_cons] at hblock
  simp only [FdtToken.bytes, List.length_append, List.length_drop] at hblock
  obtain ⟨hlower, hupper⟩ := hmapped
  unfold DRAM_BASE va_pa_offset at hlower
  omega

/-- What the loop reads in a mapped blob, and what it returns -/
theorem extractMemoryInfo_mapped {memory : ByteMemory} (haligned : v.toNat % 4 = 0)
    (hmapped : BootMapped v.toNat blob.bytes.length) (h : memory.Holds v blob.bytes) :
    ∃ fuel, extractMemoryInfo memory fuel v =
      some (FdtToken.positions (v + blob.structOffset.setWidth 64)
        (FdtToken.visited false blob.tokens), (FdtToken.found false blob.tokens).map memoryInfo) := by
  have hshort : ∀ name, .beginNode name ∈ FdtToken.visited false blob.tokens →
      name.length < 2 ^ 31 :=
    fun name hname ↦ blob.name_length_lt hmapped ((FdtToken.visited_initial _ _).subset hname)
  refine ⟨(blob.tokens.flatMap FdtToken.bytes).length + 1, ?_⟩
  rw [extractMemoryInfo_eq h]
  exact extractLoop_eq (blob.laid haligned h) blob.fin_mem blob.tokens_size hshort
    (Nat.lt_succ_self _)

/-- In a mapped blob the walk stays in step up to its return. -/
theorem walk_in_step (blob : FdtBlob) (haligned : v.toNat % 4 = 0)
    (hmapped : BootMapped v.toNat blob.bytes.length) (h : memory.Holds v blob.bytes) :
    blob.InStep memory v := by
  obtain ⟨fuel, hread⟩ := extractMemoryInfo_mapped haligned hmapped h
  exact ⟨fuel, _, _, hread, FdtToken.positions_initial (FdtToken.visited_initial _ _) _⟩

/-- `"memory@80000000"` -/
def memoryNode : List Byte :=
  [109, 101, 109, 111, 114, 121, 64, 56, 48, 48, 48, 48, 48, 48, 48]

/-- 128 MiB from 0x80000000 on -/
def memoryRegion : FdtProperty where
  name := regName
  nameoff := 0
  data := [0, 0, 0, 0, 0x80, 0, 0, 0, 0, 0, 0, 0, 0x08, 0, 0, 0]

/-- The device tree of a machine with one region of memory -/
def oneRegion : FdtBlob :=
  build [.beginNode [], .nop, .beginNode memoryNode, .property memoryRegion, .endNode, .endNode,
      .fin]
    (.node [] [] (.node memoryNode [memoryRegion] .nil .nil) .nil) (regName ++ [0])
    (by decide) (by decide)
    (by
      intro prop hprop
      have heq : prop = memoryRegion := by simpa using hprop
      rw [heq]
      exact List.prefix_rfl)
    (by decide)

theorem walk_in_step_sample :
    oneRegion.InStep (only 0xFFFFFFFFC2200000 oneRegion.bytes) 0xFFFFFFFFC2200000 :=
  walk_in_step oneRegion (by decide) (by decide) (holds_only (by decide))

end FdtBlob

end Ucore
