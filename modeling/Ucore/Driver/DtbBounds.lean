import Mathlib.Data.BitVec
import Ucore.Driver.DtbWalk

/-!
# Reads outside the blob

Every offset, length and name comes from the blob and none is checked. The blobs within which all reads
stay are those in which complete entries follow each other up to a word that ends the walk.
-/

namespace Ucore

open Foundation ByteMemory

/-- Entries of a structure block that lie completely in the readable memory, the blob at `v`, up to the one
at which the walk ends. -/
inductive FdtComplete (memory : ByteMemory) (v stringsBase : BitVec 64) : BitVec 64 → Bool → Prop
  /-- `FDT_END` or a word that is no token -/
  | stop {p : BitVec 64} {flag : Bool} {word : BitVec 32} (h : memory.Holds p (bigEndian32 word))
      (hword : word ≠ FDT_BEGIN_NODE ∧ word ≠ FDT_END_NODE ∧ word ≠ FDT_PROP ∧ word ≠ FDT_NOP) :
      FdtComplete memory v stringsBase p flag
  | nop {p : BitVec 64} {flag : Bool} (h : memory.Holds p (bigEndian32 FDT_NOP))
      (hrest : FdtComplete memory v stringsBase (p + 4) flag) :
      FdtComplete memory v stringsBase p flag
  | endNode {p : BitVec 64} {flag : Bool} (h : memory.Holds p (bigEndian32 FDT_END_NODE))
      (hrest : FdtComplete memory v stringsBase (p + 4) false) :
      FdtComplete memory v stringsBase p flag
  | beginNode {p : BitVec 64} {flag : Bool} {name : List Byte}
      (h : memory.Holds p (bigEndian32 FDT_BEGIN_NODE ++ (name ++ [0]))) (hname : 0 ∉ name)
      (hshort : name.length < 2 ^ 31)
      (hrest : FdtComplete memory v stringsBase
        (alignedAfter (p + 4) (BitVec.ofNat 64 (name.length + 4)))
        (memoryName.isPrefixOf name || flag)) :
      FdtComplete memory v stringsBase p flag
  /-- An overlong name leads 4 GiB back, which may be into the magic number of a blob of 4 GiB. -/
  | overlong {p : BitVec 64} {flag : Bool} {name : List Byte}
      (h : memory.Holds p (bigEndian32 FDT_BEGIN_NODE ++ (name ++ [0]))) (hname : 0 ∉ name)
      (hlong : 2 ^ 31 ≤ name.length)
      (hback : (alignedAfter (p + 4) (BitVec.ofNat 64 (name.length + 4) - 2 ^ 32) - v).toNat < 3) :
      FdtComplete memory v stringsBase p flag
  /-- A `reg` of a memory node -/
  | region {p : BitVec 64} {len nameoff : BitVec 32} {data : List Byte}
      (h : memory.Holds p (bigEndian32 FDT_PROP ++ (bigEndian32 len ++ (bigEndian32 nameoff ++ data))))
      (hname : memory.Holds (stringsBase + nameoff.setWidth 64) (regName ++ [0]))
      (hlen : 16 ≤ len.toNat) (hdata : data.length = 16) :
      FdtComplete memory v stringsBase p true
  /-- Another property: its data need not lie in the blob if the next token does. -/
  | property {p : BitVec 64} {flag : Bool} {len nameoff : BitVec 32}
      (h : memory.Holds p (bigEndian32 FDT_PROP ++ (bigEndian32 len ++ bigEndian32 nameoff)))
      (hother : flag = true → Differs memory (stringsBase + nameoff.setWidth 64) regName ∨
        memory.Holds (stringsBase + nameoff.setWidth 64) (regName ++ [0]) ∧ len.toNat < 16)
      (hrest : FdtComplete memory v stringsBase
        (alignedAfter (p + 12) (len.setWidth 64 + 3)) flag) :
      FdtComplete memory v stringsBase p flag

section Rounds

variable {memory : ByteMemory} {v stringsBase p : BitVec 64} {fuel : ℕ} {flag : Bool}
  {len nameoff : BitVec 32}

theorem bigEndian32_bytes (byte₀ byte₁ byte₂ byte₃ : Byte) :
    bigEndian32 (byte₀ ++ byte₁ ++ byte₂ ++ byte₃) = [byte₀, byte₁, byte₂, byte₃] := by
  have hbyte : ∀ (start : ℕ) (byte : Byte), (∀ bit < 8, (byte₀ ++ byte₁ ++ byte₂ ++ byte₃).getLsbD
      (start + bit) = byte.getLsbD bit) →
      (byte₀ ++ byte₁ ++ byte₂ ++ byte₃).extractLsb' start 8 = byte := by
    intro start byte hbits
    apply BitVec.eq_of_getLsbD_eq
    intro bit hbit
    rw [BitVec.getLsbD_extractLsb', hbits bit hbit]
    simp [hbit]
  unfold bigEndian32
  rw [hbyte 24 byte₀, hbyte 16 byte₁, hbyte 8 byte₂, hbyte 0 byte₃] <;> intro bit hbit <;>
    simp only [BitVec.getLsbD_append] <;> grind

/-- A word that is read is in the readable memory. -/
theorem load32_holds {loaded : BitVec 32} (h : memory.load32 p = some loaded) :
    memory.Holds p (bigEndian32 (fdt32ToCpu loaded)) := by
  obtain ⟨byte₀, h₀, hrest⟩ := Option.bind_eq_some_iff.mp h
  obtain ⟨byte₁, h₁, hrest⟩ := Option.bind_eq_some_iff.mp hrest
  obtain ⟨byte₂, h₂, hrest⟩ := Option.bind_eq_some_iff.mp hrest
  obtain ⟨byte₃, h₃, hloaded⟩ := Option.bind_eq_some_iff.mp hrest
  obtain rfl := Option.some.inj hloaded
  have htwo : p + 1 + 1 = p + 2 := BitVec.add_assoc _ _ _
  have hthree : p + 2 + 1 = p + 3 := BitVec.add_assoc _ _ _
  rw [fdt32ToCpu_append, bigEndian32_bytes, holds_cons, holds_cons, holds_cons, holds_cons, htwo,
    hthree]
  exact ⟨h₀, h₁, h₂, h₃, holds_nil⟩

theorem load64_holds {loaded : BitVec 64} (h : memory.load64 p = some loaded) :
    ∃ data : List Byte, data.length = 8 ∧ memory.Holds p data := by
  obtain ⟨low, hlow, hrest⟩ := Option.bind_eq_some_iff.mp h
  obtain ⟨high, hhigh, -⟩ := Option.bind_eq_some_iff.mp hrest
  exact ⟨bigEndian32 (fdt32ToCpu low) ++ bigEndian32 (fdt32ToCpu high), rfl,
    holds_append.mpr ⟨load32_holds hlow, load32_holds hhigh⟩⟩

/-- A round at the start of a node reads its name to the end. -/
theorem fdtBeginNode_holds {round : FdtRound} (h : fdtBeginNode memory fuel p flag = some round) :
    ∃ name : List Byte, memory.Holds p (name ++ [0]) ∧ 0 ∉ name ∧ round = .next
      ⟨alignedAfter p (((BitVec.ofNat 64 name.length).setWidth 32).signExtend 64 + 4),
        memoryName.isPrefixOf name || flag⟩ := by
  obtain ⟨length, hlength, -⟩ := Option.bind_eq_some_iff.mp h
  obtain ⟨name, hholds, hname⟩ := strlen_holds hlength
  have hmore : extractRound memory 0 (fuel + (name.length + 1)) FDT_BEGIN_NODE ⟨p - 4, flag⟩ =
      some round := by
    apply extractRound_mono
    change fdtBeginNode memory fuel (p - 4 + 4) flag = some round
    rwa [BitVec.sub_add_cancel]
  have heq : fdtBeginNode memory (fuel + (name.length + 1)) (p - 4 + 4) flag = some round := hmore
  rw [BitVec.sub_add_cancel, fdtBeginNode_eq hholds hname (by omega)] at heq
  exact ⟨name, hholds, hname, (Option.some.inj heq).symm⟩

/-- What the comparison of a property's name reads -/
theorem isMemoryReg_holds {propName : BitVec 64} {found : Bool}
    (h : isMemoryReg memory flag propName len = some found) :
    (found = true ∧ flag = true ∧ memory.Holds propName (regName ++ [0]) ∧ 16 ≤ len.toNat) ∨
      (found = false ∧ (flag = true → Differs memory propName regName ∨
        memory.Holds propName (regName ++ [0]) ∧ len.toNat < 16)) := by
  cases flag with
  | false => exact .inr ⟨(Option.some.inj h).symm, nofun⟩
  | true =>
    have hliteral : 0 ∉ regName := by decide
    obtain ⟨compared, hcompared, hfound⟩ := Option.bind_eq_some_iff.mp h
    obtain rfl := Option.some.inj hfound
    have hlarge : len ≥ 16 ↔ 16 ≤ len.toNat := Iff.rfl
    rcases strcmp_holds hliteral hcompared with ⟨hzero, hholds⟩ | ⟨hne, hdiffers⟩
    · by_cases hlen : 16 ≤ len.toNat
      · exact .inl ⟨decide_eq_true ⟨hzero, hlen⟩, rfl, hholds, hlen⟩
      · exact .inr ⟨decide_eq_false fun both ↦ hlen both.2, fun _ ↦ .inr ⟨hholds, by omega⟩⟩
    · exact .inr ⟨decide_eq_false fun both ↦ hne both.1, fun _ ↦ .inl hdiffers⟩

theorem isMemoryReg_region (hname : memory.Holds p (regName ++ [0])) (hlen : 16 ≤ len.toNat) :
    isMemoryReg memory true p len = some true := by
  have hliteral : 0 ∉ regName := by decide
  obtain ⟨compared, hcompared, hsame⟩ := strcmp_eq hname hliteral hliteral
  have hlarge : len ≥ 16 := hlen
  rw [isMemoryReg, if_pos rfl, hcompared]
  exact congrArg some (decide_eq_true ⟨hsame.mpr rfl, hlarge⟩)

theorem isMemoryReg_other (h : flag = true → Differs memory p regName ∨
      memory.Holds p (regName ++ [0]) ∧ len.toNat < 16) :
    isMemoryReg memory flag p len = some false := by
  have hliteral : 0 ∉ regName := by decide
  cases flag with
  | false => rfl
  | true =>
    rcases h rfl with hdiffers | ⟨hname, hlen⟩
    · obtain ⟨compared, hcompared, hne⟩ := strcmp_differs hliteral hdiffers
      simp [isMemoryReg, hcompared, hne]
    · obtain ⟨compared, hcompared, -⟩ := strcmp_eq hname hliteral hliteral
      have hsmall : ¬ len ≥ 16 := by
        change ¬ 16 ≤ len.toNat
        omega
      rw [isMemoryReg, if_pos rfl, hcompared]
      exact congrArg some (decide_eq_false fun both ↦ hsmall both.2)

/-- A round at a property reads the entry and, at a `reg` of a memory node, 16 bytes of data. -/
theorem fdtProp_holds {round : FdtRound} (h : fdtProp memory stringsBase p flag = some round) :
    ∃ len nameoff : BitVec 32, memory.Holds p (bigEndian32 len ++ bigEndian32 nameoff) ∧
      ((∃ data : List Byte, flag = true ∧ data.length = 16 ∧ memory.Holds (p + 8) data ∧
          memory.Holds (stringsBase + nameoff.setWidth 64) (regName ++ [0]) ∧ 16 ≤ len.toNat) ∨
        ((flag = true → Differs memory (stringsBase + nameoff.setWidth 64) regName ∨
            memory.Holds (stringsBase + nameoff.setWidth 64) (regName ++ [0]) ∧ len.toNat < 16) ∧
          round = .next ⟨alignedAfter (p + 8) (len.setWidth 64 + 3), flag⟩)) := by
  obtain ⟨len, hlen, hrest⟩ := Option.bind_eq_some_iff.mp h
  obtain ⟨nameoff, hnameoff, hrest⟩ := Option.bind_eq_some_iff.mp hrest
  obtain ⟨found, hfound, hrest⟩ := Option.bind_eq_some_iff.mp hrest
  refine ⟨fdt32ToCpu len, fdt32ToCpu nameoff,
    holds_append.mpr ⟨load32_holds hlen, load32_holds hnameoff⟩, ?_⟩
  rcases isMemoryReg_holds hfound with ⟨rfl, hflag, hname, hlarge⟩ | ⟨rfl, hother⟩
  · rw [if_pos rfl] at hrest
    obtain ⟨base, hbase, hrest⟩ := Option.bind_eq_some_iff.mp hrest
    obtain ⟨size, hsize, -⟩ := Option.bind_eq_some_iff.mp hrest
    obtain ⟨first, hfirst, hholds⟩ := load64_holds hbase
    obtain ⟨second, hsecond, hholds'⟩ := load64_holds hsize
    refine .inl ⟨first ++ second, hflag, ?_, holds_append.mpr ⟨hholds, ?_⟩, hname, hlarge⟩
    · rw [List.length_append, hfirst, hsecond]
    · rw [hfirst]
      exact hholds'
  · rw [if_neg Bool.false_ne_true] at hrest
    exact .inr ⟨hother, (Option.some.inj hrest).symm⟩

theorem fdtProp_region {data : List Byte}
    (h : memory.Holds p (bigEndian32 len ++ (bigEndian32 nameoff ++ data)))
    (hname : memory.Holds (stringsBase + nameoff.setWidth 64) (regName ++ [0]))
    (hlen : 16 ≤ len.toNat) (hdata : data.length = 16) :
    ∃ round, fdtProp memory stringsBase p true = some round ∧ ∀ walk, round ≠ .next walk := by
  obtain ⟨hlenHolds, hrest⟩ := holds_append.mp h
  obtain ⟨hoffHolds, hvalue⟩ := holds_append.mp hrest
  obtain ⟨len', hload, rfl⟩ := load32_bigEndian32 hlenHolds
  obtain ⟨nameoff', hload', rfl⟩ := load32_bigEndian32 hoffHolds
  have height : p + 4 + 4 = p + 8 := BitVec.add_assoc _ _ _
  have hload' : memory.load32 (p + 4) = some nameoff' := hload'
  have hvalue : memory.Holds (p + 4 + 4) data := hvalue
  rw [height] at hvalue
  obtain ⟨base, hbase, -⟩ := load64_value hvalue (by omega)
  have hlater : memory.Holds (p + 8 + 8) (data.drop 8) := hvalue.drop 8
  obtain ⟨size, hsize, -⟩ := load64_value hlater (by rw [List.length_drop]; omega)
  refine ⟨.success (fdt64ToCpu base) (fdt64ToCpu size), ?_, nofun⟩
  simp only [fdtProp, hload, hload', isMemoryReg_region hname hlen, hbase, hsize,
    Option.bind_eq_bind, Option.bind_some, Option.pure_def, if_true]

theorem fdtProp_other (h : memory.Holds p (bigEndian32 len ++ bigEndian32 nameoff))
    (hother : flag = true → Differs memory (stringsBase + nameoff.setWidth 64) regName ∨
      memory.Holds (stringsBase + nameoff.setWidth 64) (regName ++ [0]) ∧ len.toNat < 16) :
    fdtProp memory stringsBase p flag =
      some (.next ⟨alignedAfter (p + 8) (len.setWidth 64 + 3), flag⟩) := by
  obtain ⟨hlenHolds, hoffHolds⟩ := holds_append.mp h
  obtain ⟨len', hload, rfl⟩ := load32_bigEndian32 hlenHolds
  obtain ⟨nameoff', hload', rfl⟩ := load32_bigEndian32 hoffHolds
  have hload' : memory.load32 (p + 4) = some nameoff' := hload'
  simp only [fdtProp, hload, hload', isMemoryReg_other hother, Option.bind_eq_bind,
    Option.bind_some, Option.pure_def, Bool.false_eq_true, if_false]

end Rounds

section Blob

variable {contents : BitVec 64 → Byte} {v stringsBase p : BitVec 64} {size fuel : ℕ} {flag : Bool}
  {memory : ByteMemory}

theorem back_eq {length : ℕ} (hlength : length < 2 ^ 32) (hlong : 2 ^ 31 ≤ length) :
    ((BitVec.ofNat 64 length).setWidth 32).signExtend 64 + 4 =
      BitVec.ofNat 64 (length + 4) - 2 ^ 32 := by
  have hpower : (2 ^ 32 : BitVec 64).toNat = 2 ^ 32 := rfl
  have hfour : (4 : BitVec 64).toNat = 4 := rfl
  apply BitVec.eq_of_toNat_eq
  rw [nameLen_eq hlength, if_neg (by omega), BitVec.toNat_add, BitVec.toNat_sub, hpower, hfour,
    BitVec.toNat_ofNat, BitVec.toNat_ofNat]
  omega

theorem back_offset {start offset length place back : ℕ} (hstart : start < 2 ^ 64)
    (hinside : offset + 4 + length + 1 ≤ size) (hsize : size < 2 ^ 32)
    (hplace : place = (start + (offset + length + 8) + (2 ^ 64 - 2 ^ 32)) % 2 ^ 64)
    (hback : back = (2 ^ 64 - start + place / 4 * 4) % 2 ^ 64) (hlt : back < size) : back < 3 := by
  omega

/-- Where an overlong name leads to is before the blob or at its very start. -/
theorem back_near {name : List Byte} (hsize : size < 2 ^ 32)
    (h : (restrict contents v size).Holds p (bigEndian32 FDT_BEGIN_NODE ++ (name ++ [0])))
    (hread : (alignedAfter (p + 4) (BitVec.ofNat 64 (name.length + 4) - 2 ^ 32) - v).toNat < size) :
    (alignedAfter (p + 4) (BitVec.ofNat 64 (name.length + 4) - 2 ^ 32) - v).toNat < 3 := by
  have hinside := holds_restrict (by omega) h (by simp [bigEndian32])
  rw [List.length_append, List.length_append, bigEndian32_length, List.length_singleton] at hinside
  have hplace : (p + 4 + (BitVec.ofNat 64 (name.length + 4) - 2 ^ 32)).toNat =
      (v.toNat + ((p - v).toNat + name.length + 8) + (2 ^ 64 - 2 ^ 32)) % 2 ^ 64 := by
    have hpower : (2 ^ 32 : BitVec 64).toNat = 2 ^ 32 := rfl
    have hfour : (4 : BitVec 64).toNat = 4 := rfl
    have hp := p.isLt
    have hv := v.isLt
    rw [BitVec.toNat_add, BitVec.toNat_add, BitVec.toNat_sub, BitVec.toNat_sub, hpower, hfour,
      BitVec.toNat_ofNat]
    omega
  apply back_offset v.isLt (by omega) hsize hplace _ hread
  rw [BitVec.toNat_sub, alignedAfter_toNat]

theorem complete_of_returns (hsize : size < 2 ^ 32)
    {result : List (BitVec 64 × BitVec 32) × Option (BitVec 64 × BitVec 64)}
    (h : extractLoop (restrict contents v size) stringsBase fuel ⟨p, flag⟩ = some result) :
    FdtComplete (restrict contents v size) v stringsBase p flag := by
  induction fuel generalizing p flag result with
  | zero => cases h
  | succ fuel ih =>
    obtain ⟨token, htoken, hrest⟩ := Option.bind_eq_some_iff.mp h
    obtain ⟨round, hround, hrest⟩ := Option.bind_eq_some_iff.mp hrest
    have hword : (restrict contents v size).Holds p (bigEndian32 token) := by
      obtain ⟨loaded, hloaded, rfl⟩ := Option.map_eq_some_iff.mp
        ((Option.map_eq_bind ..).trans htoken)
      exact load32_holds hloaded
    have hnext : ∀ walk, round = .next walk →
        FdtComplete (restrict contents v size) v stringsBase walk.structPtr walk.inMemoryNode := by
      rintro walk rfl
      obtain ⟨later, hlater, -⟩ := Option.bind_eq_some_iff.mp hrest
      exact ih hlater
    unfold extractRound at hround
    dsimp only at hround
    by_cases hbegin : token = FDT_BEGIN_NODE
    · subst hbegin
      rw [if_pos rfl] at hround
      obtain ⟨name, hholds, hname, hwalk⟩ := fdtBeginNode_holds hround
      have hentry := holds_append.mpr ⟨hword, hholds⟩
      have hinside := holds_restrict (by omega) hentry (by simp [bigEndian32])
      rw [List.length_append, List.length_append, bigEndian32_length, List.length_singleton]
        at hinside
      by_cases hshort : name.length < 2 ^ 31
      · have hplace : ((BitVec.ofNat 64 name.length).setWidth 32).signExtend 64 + 4 =
            BitVec.ofNat 64 (name.length + 4) := by
          rw [nameLen_eq (by omega), if_pos hshort, BitVec.ofNat_add]
          rfl
        rw [hplace] at hwalk
        exact .beginNode hentry hname hshort (hnext _ hwalk)
      · rw [back_eq (by omega) (by omega)] at hwalk
        subst hwalk
        obtain ⟨later, hlater, -⟩ := Option.bind_eq_some_iff.mp hrest
        apply FdtComplete.overlong hentry hname (by omega)
        apply back_near hsize hentry
        -- The loop goes on there, so that the next token is in the blob.
        by_contra houtside
        rw [extractLoop_of_unreadable (if_neg houtside)] at hlater
        cases hlater
    rw [if_neg hbegin] at hround
    by_cases hend : token = FDT_END_NODE
    · subst hend
      rw [if_pos rfl] at hround
      exact .endNode hword (hnext _ (Option.some.inj hround).symm)
    rw [if_neg hend] at hround
    by_cases hprop : token = FDT_PROP
    · subst hprop
      rw [if_pos rfl] at hround
      have height : p + 4 + 8 = p + 12 := BitVec.add_assoc _ _ _
      obtain ⟨len, nameoff, hholds, hcases⟩ := fdtProp_holds hround
      rcases hcases with ⟨data, rfl, hdata, hvalue, hname, hlen⟩ | ⟨hother, hwalk⟩
      · have hentry : (restrict contents v size).Holds (p + 4)
            (bigEndian32 len ++ (bigEndian32 nameoff ++ data)) := by
          rw [← List.append_assoc]
          exact holds_append.mpr ⟨hholds, hvalue⟩
        exact .region (holds_append.mpr ⟨hword, hentry⟩) hname hlen hdata
      · rw [height] at hwalk
        exact .property (holds_append.mpr ⟨hword, hholds⟩) hother (hnext _ hwalk)
    rw [if_neg hprop] at hround
    by_cases hnop : token = FDT_NOP
    · subst hnop
      rw [if_pos rfl] at hround
      exact .nop hword (hnext _ (Option.some.inj hround).symm)
    · exact .stop hword ⟨hbegin, hend, hprop, hnop⟩

/-! Conversely the loop returns. -/

theorem returns_of_next {token : BitVec 32} {walk : FdtWalk} (more : ℕ)
    (htoken : memory.Holds p (bigEndian32 token))
    (hround : ∀ fuel, extractRound memory stringsBase (fuel + more) token ⟨p, flag⟩ =
      some (.next walk))
    (hnext : ∃ fuel result, extractLoop memory stringsBase fuel walk = some result) :
    ∃ fuel result, extractLoop memory stringsBase fuel ⟨p, flag⟩ = some result := by
  obtain ⟨fuel, result, hresult⟩ := hnext
  refine ⟨fuel + more + 1, ((p, token) :: result.1, result.2), ?_⟩
  simp only [extractLoop, fetchToken_eq htoken, hround, extractLoop_mono more hresult,
    Option.bind_eq_bind, Option.bind_some, Option.pure_def]

theorem returns_of_last {token : BitVec 32} {round : FdtRound}
    (htoken : memory.Holds p (bigEndian32 token))
    (hround : extractRound memory stringsBase fuel token ⟨p, flag⟩ = some round)
    (hlast : ∀ walk, round ≠ .next walk) :
    ∃ fuel result, extractLoop memory stringsBase fuel ⟨p, flag⟩ = some result := by
  cases round with
  | next walk => exact absurd rfl (hlast walk)
  | success base size =>
    refine ⟨fuel + 1, ([(p, token)], some (base, size)), ?_⟩
    simp only [extractLoop, fetchToken_eq htoken, hround, Option.bind_eq_bind, Option.bind_some,
      Option.pure_def]
  | failure =>
    refine ⟨fuel + 1, ([(p, token)], none), ?_⟩
    simp only [extractLoop, fetchToken_eq htoken, hround, Option.bind_eq_bind, Option.bind_some,
      Option.pure_def]

/-- The big-endian word at an address -/
def wordAt (contents : BitVec 64 → Byte) (address : BitVec 64) : BitVec 32 :=
  contents address ++ contents (address + 1) ++ contents (address + 2) ++ contents (address + 3)

theorem wordAt_holds (hinside : (p - v).toNat + 4 ≤ size) :
    (restrict contents v size).Holds p (bigEndian32 (wordAt contents p)) := by
  have hread : ∀ offset < 4, restrict contents v size (p + BitVec.ofNat 64 offset) =
      some (contents (p + BitVec.ofNat 64 offset)) := by
    intro offset hoffset
    have hplace : (p + BitVec.ofNat 64 offset - v).toNat ≤ (p - v).toNat + offset := by
      rw [BitVec.sub_eq_add_neg, BitVec.add_assoc, BitVec.add_comm (BitVec.ofNat 64 offset),
        ← BitVec.add_assoc, ← BitVec.sub_eq_add_neg, BitVec.toNat_add, BitVec.toNat_ofNat]
      omega
    apply if_pos
    omega
  rw [wordAt, bigEndian32_bytes, holds_iff]
  intro offset hoffset
  rw [hread offset hoffset]
  have hcases : offset = 0 ∨ offset = 1 ∨ offset = 2 ∨ offset = 3 := by
    simp only [List.length_cons, List.length_nil] at hoffset
    omega
  rcases hcases with rfl | rfl | rfl | rfl
  · exact congrArg (fun address ↦ some (contents address)) (BitVec.add_zero p)
  · rfl
  · rfl
  · rfl

/-- A word that begins with a byte of the magic number is no token. -/
theorem returns_of_magic (hsize : 8 ≤ size)
    (hmagic : ∀ offset < 3, contents (v + BitVec.ofNat 64 offset) ≠ 0)
    (hnear : (p - v).toNat < 3) :
    ∃ fuel result, extractLoop (restrict contents v size) stringsBase fuel ⟨p, flag⟩ =
      some result := by
  have hp : p = v + BitVec.ofNat 64 (p - v).toNat := by
    rw [BitVec.ofNat_toNat, BitVec.setWidth_eq, BitVec.add_comm, BitVec.sub_add_cancel]
  have hword : (restrict contents v size).Holds p (bigEndian32 (wordAt contents p)) :=
    wordAt_holds (by omega)
  have hfirst : contents p ≠ 0 := by
    rw [hp]
    exact hmagic _ hnear
  have hlarge : 2 ^ 24 ≤ (wordAt contents p).toNat := by
    have hpos : 0 < (contents p).toNat :=
      Nat.pos_of_ne_zero fun hzero ↦ hfirst (BitVec.eq_of_toNat_eq hzero)
    rw [wordAt, append_toNat, append_toNat, append_toNat]
    omega
  have hother : ∀ token : BitVec 32, token.toNat < 2 ^ 24 → wordAt contents p ≠ token := by
    intro token hsmall heq
    rw [heq] at hlarge
    omega
  have hround : extractRound (restrict contents v size) stringsBase 0 (wordAt contents p)
      ⟨p, flag⟩ = some .failure := by
    unfold extractRound
    rw [if_neg (hother _ (by decide)), if_neg (hother _ (by decide)),
      if_neg (hother _ (by decide)), if_neg (hother _ (by decide))]
  exact returns_of_last hword hround nofun

theorem returns_of_complete (hsize : size < 2 ^ 32)
    (hmagic : ∀ offset < 3, contents (v + BitVec.ofNat 64 offset) ≠ 0)
    (h : FdtComplete (restrict contents v size) v stringsBase p flag) :
    ∃ fuel result, extractLoop (restrict contents v size) stringsBase fuel ⟨p, flag⟩ =
      some result := by
  induction h with
  | @stop p flag word hword hother =>
    obtain ⟨hbegin, hend, hprop, hnop⟩ := hother
    have hround : extractRound (restrict contents v size) stringsBase 0 word ⟨p, flag⟩ =
        some .failure := by
      unfold extractRound
      rw [if_neg hbegin, if_neg hend, if_neg hprop, if_neg hnop]
    exact returns_of_last hword hround nofun
  | nop hword hrest ih => exact returns_of_next 0 hword (fun _ ↦ rfl) ih
  | endNode hword hrest ih => exact returns_of_next 0 hword (fun _ ↦ rfl) ih
  | @beginNode p flag name hentry hname hshort hrest ih =>
    obtain ⟨hword, hholds⟩ := holds_append.mp hentry
    apply returns_of_next (name.length + 1) hword _ ih
    intro fuel
    have hplace : ((BitVec.ofNat 64 name.length).setWidth 32).signExtend 64 + 4 =
        BitVec.ofNat 64 (name.length + 4) := by
      rw [nameLen_eq (by omega), if_pos hshort, BitVec.ofNat_add]
      rfl
    rw [← hplace]
    exact fdtBeginNode_eq hholds hname (by omega)
  | @overlong p flag name hentry hname hlong hback =>
    obtain ⟨hword, hholds⟩ := holds_append.mp hentry
    have hinside := holds_restrict (by omega) hentry (by simp [bigEndian32])
    rw [List.length_append, List.length_append, bigEndian32_length, List.length_singleton]
      at hinside
    have hlanding : ∃ fuel result, extractLoop (restrict contents v size) stringsBase fuel
        ⟨alignedAfter (p + 4) (BitVec.ofNat 64 (name.length + 4) - 2 ^ 32),
          memoryName.isPrefixOf name || flag⟩ = some result :=
      returns_of_magic (by omega) hmagic hback
    apply returns_of_next (name.length + 1) hword _ hlanding
    intro fuel
    rw [← back_eq (by omega) hlong]
    exact fdtBeginNode_eq hholds hname (by omega)
  | @region p len nameoff data hentry hname hlen hdata =>
    obtain ⟨hword, hentry⟩ := holds_append.mp hentry
    obtain ⟨round, hround, hlast⟩ := fdtProp_region hentry hname hlen hdata
    exact @returns_of_last _ _ 0 _ _ _ _ hword hround hlast
  | @property p flag len nameoff hentry hother hrest ih =>
    obtain ⟨hword, hentry⟩ := holds_append.mp hentry
    have height : p + 4 + 8 = p + 12 := BitVec.add_assoc _ _ _
    apply returns_of_next 0 hword _ ih
    intro fuel
    rw [← height]
    exact fdtProp_other hentry hother

theorem load32_inside {offset : ℕ} (hinside : offset + 4 ≤ size) (hsize : size < 2 ^ 64) :
    ∃ loaded, (restrict contents v size).load32 (v + BitVec.ofNat 64 offset) = some loaded ∧
      fdt32ToCpu loaded = wordAt contents (v + BitVec.ofNat 64 offset) := by
  apply load32_bigEndian32
  apply wordAt_holds
  rw [BitVec.add_comm, BitVec.add_sub_cancel, BitVec.toNat_ofNat, Nat.mod_eq_of_lt (by omega)]
  exact hinside

theorem inside_of_load32 {offset : ℕ} {loaded : BitVec 32} (hoffset : offset < 2 ^ 64)
    (hsize : size < 2 ^ 64)
    (h : (restrict contents v size).load32 (v + BitVec.ofNat 64 offset) = some loaded) :
    offset + 4 ≤ size := by
  have hinside := holds_restrict hsize (load32_holds h) (by simp [bigEndian32])
  rw [BitVec.add_comm, BitVec.add_sub_cancel, BitVec.toNat_ofNat, Nat.mod_eq_of_lt hoffset]
    at hinside
  exact hinside

/-- After the magic number is read and found right, all depends on the walk. -/
theorem dtbInit_returns_iff {bootHartid bootDtb : BitVec 64} {info : DtbInfo} {loaded : BitVec 32}
    (hnonnull : bootDtb ≠ 0)
    (hload : memory.load32 (bootDtb + PHYSICAL_MEMORY_OFFSET) = some loaded)
    (hmagic : fdt32ToCpu loaded = FDT_MAGIC) :
    (∃ info', dtbInit memory fuel bootHartid bootDtb info = some info') ↔
      ∃ result, extractMemoryInfo memory fuel (bootDtb + PHYSICAL_MEMORY_OFFSET) = some result := by
  simp only [dtbInit, if_neg hnonnull, hload, hmagic, Option.bind_eq_bind, Option.bind_some,
    Option.pure_def, ne_eq, not_true_eq_false, if_false]
  cases extractMemoryInfo memory fuel (bootDtb + PHYSICAL_MEMORY_OFFSET) with
  | none => simp
  | some result => rcases result with ⟨read, _ | found⟩ <;> simp

theorem extractMemoryInfo_restrict (hheader : 16 ≤ size) (hsize : size < 2 ^ 64) :
    extractMemoryInfo (restrict contents v size) fuel v =
      extractLoop (restrict contents v size) (v + (wordAt contents (v + 12)).setWidth 64) fuel
        ⟨v + (wordAt contents (v + 8)).setWidth 64, false⟩ := by
  have height : 8 + 4 ≤ size := by omega
  have htwelve : 12 + 4 ≤ size := by omega
  obtain ⟨structOff, hstruct, hstructValue⟩ := load32_inside height hsize
  obtain ⟨stringsOff, hstrings, hstringsValue⟩ := load32_inside htwelve hsize
  have hstruct : (restrict contents v size).load32 (v + 8) = some structOff := hstruct
  have hstrings : (restrict contents v size).load32 (v + 12) = some stringsOff := hstrings
  have hstructValue : fdt32ToCpu structOff = wordAt contents (v + 8) := hstructValue
  have hstringsValue : fdt32ToCpu stringsOff = wordAt contents (v + 12) := hstringsValue
  simp only [extractMemoryInfo, hstruct, hstrings, hstructValue, hstringsValue,
    Option.bind_eq_bind, Option.bind_some]

/-- `extract_memory_info` reads the header to its fourth field. -/
theorem header_of_returns {result : List (BitVec 64 × BitVec 32) × Option (BitVec 64 × BitVec 64)}
    (hsize : size < 2 ^ 64)
    (h : extractMemoryInfo (restrict contents v size) fuel v = some result) : 16 ≤ size := by
  obtain ⟨structOff, hstruct, hrest⟩ := Option.bind_eq_some_iff.mp h
  obtain ⟨stringsOff, hstrings, -⟩ := Option.bind_eq_some_iff.mp hrest
  have hread : (restrict contents v size).load32 (v + BitVec.ofNat 64 12) = some stringsOff :=
    hstrings
  exact inside_of_load32 (by omega) hsize hread

theorem magic_bytes (hmagic : wordAt contents v = FDT_MAGIC) :
    ∀ offset < 3, contents (v + BitVec.ofNat 64 offset) ≠ 0 := by
  have hbytes : [contents v, contents (v + 1), contents (v + 2), contents (v + 3)] =
      [0xd0, 0x0d, 0xfe, 0xed] := by
    rw [← bigEndian32_bytes]
    exact congrArg bigEndian32 hmagic
  obtain ⟨h₀, h₁, h₂, -⟩ : contents v = 0xd0 ∧ contents (v + 1) = 0x0d ∧
      contents (v + 2) = 0xfe ∧ contents (v + 3) = 0xed := by simpa using hbytes
  intro offset hoffset
  have hcases : offset = 0 ∨ offset = 1 ∨ offset = 2 := by omega
  rcases hcases with rfl | rfl | rfl
  · rw [BitVec.add_zero, h₀]
    decide
  · exact fun hzero ↦ absurd (h₁.symm.trans hzero) (by decide)
  · exact fun hzero ↦ absurd (h₂.symm.trans hzero) (by decide)

/-- `dtb_init` returns without reading outside the `totalsize` bytes of the blob exactly if the header is
among them and the structure block consists of complete entries. -/
theorem dtb_in_bounds_iff (contents : BitVec 64 → Byte) (bootHartid bootDtb : BitVec 64)
    (info : DtbInfo)
    (hmagic : wordAt contents (bootDtb + PHYSICAL_MEMORY_OFFSET) = FDT_MAGIC) :
    let v := bootDtb + PHYSICAL_MEMORY_OFFSET
    let size := (wordAt contents (v + 4)).toNat
    (∃ fuel info', dtbInit (restrict contents v size) fuel bootHartid bootDtb info = some info') ↔
      bootDtb = 0 ∨ 16 ≤ size ∧
        FdtComplete (restrict contents v size) v (v + (wordAt contents (v + 12)).setWidth 64)
          (v + (wordAt contents (v + 8)).setWidth 64) false := by
  intro v size
  have hsize : size < 2 ^ 32 := (wordAt contents (v + 4)).isLt
  have hwide : size < 2 ^ 64 := hsize.trans (by decide)
  clear_value size
  have hbytes : ∀ offset < 3, contents (v + BitVec.ofNat 64 offset) ≠ 0 := magic_bytes hmagic
  have hv : v + BitVec.ofNat 64 0 = v := BitVec.add_zero v
  by_cases hnonnull : bootDtb = 0
  · exact iff_of_true ⟨0, _, if_pos hnonnull⟩ (.inl hnonnull)
  rw [or_iff_right hnonnull]
  constructor
  · rintro ⟨fuel, info', hinit⟩
    have hread : ∃ loaded, (restrict contents v size).load32 v = some loaded := by
      unfold dtbInit at hinit
      rw [if_neg hnonnull] at hinit
      obtain ⟨loaded, hloaded, -⟩ := Option.bind_eq_some_iff.mp hinit
      exact ⟨loaded, hloaded⟩
    obtain ⟨loaded, hloaded⟩ := hread
    have hstart : (restrict contents v size).load32 (v + BitVec.ofNat 64 0) = some loaded :=
      (congrArg (restrict contents v size).load32 hv).trans hloaded
    have hfour : 0 + 4 ≤ size := inside_of_load32 (by decide) hwide hstart
    obtain ⟨loaded', hloaded', hvalue⟩ := load32_inside hfour hwide
    rw [hv] at hloaded' hvalue
    obtain ⟨result, hresult⟩ := (dtbInit_returns_iff hnonnull hloaded'
      (hvalue.trans hmagic)).mp ⟨info', hinit⟩
    have hheader := header_of_returns hwide hresult
    rw [extractMemoryInfo_restrict hheader hwide] at hresult
    exact ⟨hheader, complete_of_returns hsize hresult⟩
  · rintro ⟨hheader, hcomplete⟩
    have hfour : 0 + 4 ≤ size := by omega
    obtain ⟨loaded, hloaded, hvalue⟩ := load32_inside hfour hwide
    rw [hv] at hloaded hvalue
    obtain ⟨fuel, result, hresult⟩ := returns_of_complete hsize hbytes hcomplete
    rw [← extractMemoryInfo_restrict hheader hwide] at hresult
    exact ⟨fuel, (dtbInit_returns_iff hnonnull hloaded (hvalue.trans hmagic)).mpr
      ⟨result, hresult⟩⟩

/-- Four header fields and a structure block behind them -/
def headerBefore (totalsize : Byte) (structBlock : List Byte) : BitVec 64 → Byte := fun address ↦
  ([0xd0, 0x0d, 0xfe, 0xed, 0, 0, 0, totalsize, 0, 0, 0, 16, 0, 0, 0, 16] ++ structBlock).getD
    (address - 0xFFFFFFFFC2200000).toNat 0

/-- The bytes of a blob, and zeros around it -/
def blobContents (bytes : List Byte) : BitVec 64 → Byte := fun address ↦
  bytes.getD (address - 0xFFFFFFFFC2200000).toNat 0

theorem restrict_blobContents (bytes : List Byte) (hlength : bytes.length ≤ 2 ^ 64) :
    (restrict (blobContents bytes) 0xFFFFFFFFC2200000 bytes.length).Holds 0xFFFFFFFFC2200000 bytes := by
  apply (holds_only hlength).congr
  intro offset hoffset
  have hindex : (0xFFFFFFFFC2200000 + BitVec.ofNat 64 offset - 0xFFFFFFFFC2200000 : BitVec 64).toNat =
      offset := offset_sub _ (Nat.lt_of_lt_of_le hoffset hlength)
  rw [restrict, only, blobContents, hindex, if_pos hoffset, List.getElem?_eq_getElem hoffset,
    List.getD_eq_getElem?_getD, List.getElem?_eq_getElem hoffset, Option.getD_some]

/-- The region of a memory node behind a root node and a NOP -/
theorem dtb_in_bounds_iff_sample :
    ∃ fuel info', dtbInit (restrict (blobContents FdtBlob.oneRegion.bytes) 0xFFFFFFFFC2200000
      FdtBlob.oneRegion.bytes.length) fuel 0 0x82200000 ⟨0, 0, []⟩ = some info' := by
  have hblob := restrict_blobContents FdtBlob.oneRegion.bytes (by decide +kernel)
  generalize hreadable : restrict (blobContents FdtBlob.oneRegion.bytes) 0xFFFFFFFFC2200000
    FdtBlob.oneRegion.bytes.length = readable at hblob
  have hroot : readable.Holds 0xFFFFFFFFC2200010 (bigEndian32 FDT_BEGIN_NODE ++ ([] ++ [0])) :=
    (hblob.drop 16).of_initial (by decide +kernel)
  have hnop : readable.Holds 0xFFFFFFFFC2200018 (bigEndian32 FDT_NOP) :=
    (hblob.drop 24).of_initial (by decide +kernel)
  have hnode : readable.Holds 0xFFFFFFFFC220001C
      (bigEndian32 FDT_BEGIN_NODE ++ (FdtBlob.memoryNode ++ [0])) :=
    (hblob.drop 28).of_initial (by decide +kernel)
  have hregion : readable.Holds 0xFFFFFFFFC2200030 (bigEndian32 FDT_PROP ++
      (bigEndian32 16 ++ (bigEndian32 0 ++ FdtBlob.memoryRegion.data))) :=
    (hblob.drop 48).of_initial (by decide +kernel)
  have hname : readable.Holds 0xFFFFFFFFC2200058 (regName ++ [0]) :=
    (hblob.drop 88).of_initial (by decide +kernel)
  have hcomplete : FdtComplete readable 0xFFFFFFFFC2200000 0xFFFFFFFFC2200058 0xFFFFFFFFC2200010
      false :=
    .beginNode hroot (by decide) (by decide) (.nop hnop (.beginNode hnode (by decide) (by decide)
      (.region hregion hname (by decide) (by decide))))
  have hreturns := (dtb_in_bounds_iff (blobContents FdtBlob.oneRegion.bytes) 0 0x82200000 ⟨0, 0, []⟩
    (by decide +kernel)).mpr
  have hsize : (wordAt (blobContents FdtBlob.oneRegion.bytes)
      (0x82200000 + PHYSICAL_MEMORY_OFFSET + 4)).toNat = FdtBlob.oneRegion.bytes.length := by
    decide +kernel
  rw [hsize] at hreturns
  subst hreadable
  exact hreturns (.inr ⟨by decide +kernel, hcomplete⟩)

/-- A blob that ends with its header: the first token is read behind it. -/
theorem dtb_out_of_bounds :
    wordAt (headerBefore 16 []) (0x82200000 + PHYSICAL_MEMORY_OFFSET) = FDT_MAGIC ∧
    wordAt (headerBefore 16 []) (0x82200000 + PHYSICAL_MEMORY_OFFSET + 4) = 16 ∧
    ∀ fuel info', dtbInit (restrict (headerBefore 16 []) (0x82200000 + PHYSICAL_MEMORY_OFFSET) 16)
      fuel 0 0x82200000 ⟨0, 0, []⟩ ≠ some info' := by
  refine ⟨rfl, rfl, ?_⟩
  intro fuel info' hinit
  have hload : (restrict (headerBefore 16 []) (0x82200000 + PHYSICAL_MEMORY_OFFSET) 16).load32
      (0x82200000 + PHYSICAL_MEMORY_OFFSET) = some 0xedfe0dd0 := rfl
  obtain ⟨result, hresult⟩ := (dtbInit_returns_iff (by decide) hload rfl).mp ⟨info', hinit⟩
  rw [extractMemoryInfo_restrict (by decide) (by decide), extractLoop_of_unreadable rfl] at hresult
  cases hresult

end Blob

end Ucore
