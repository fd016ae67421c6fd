import Ucore.Foundation.Bytes

/-!
# Programs that print

A program puts characters through a callback it knows nothing about, and it reads memory. A `Sink` is a
callback with its state and the memory that is read meanwhile, which may be changed by the callback.
-/

namespace Ucore.Foundation

inductive Printing (α : Type) where
  | done (result : α)
  /-- A program that reads where it cannot or outlives its fuel -/
  | fault
  | emit (ch : BitVec 32) (rest : Printing α)
  | fetch (address : BitVec 64) (rest : Byte → Printing α)

structure Sink (σ : Type) where
  memory : σ → ByteMemory
  putch : BitVec 32 → σ → σ

namespace Printing

variable {α β σ τ : Type}

def bind : Printing α → (α → Printing β) → Printing β
  | done result, next => next result
  | fault, _ => fault
  | emit ch rest, next => emit ch (rest.bind next)
  | fetch address rest, next => fetch address fun byte ↦ (rest byte).bind next

instance : Monad Printing where
  pure := done
  bind := bind

def putch (ch : BitVec 32) : Printing Unit := emit ch (done ())

def load (address : BitVec 64) : Printing Byte := fetch address done

def run (sink : Sink σ) : Printing α → σ → Option (α × σ)
  | done result, state => some (result, state)
  | fault, _ => none
  | emit ch rest, state => rest.run sink (sink.putch ch state)
  | fetch address rest, state => do
    let byte ← sink.memory state address
    (rest byte).run sink state

/-- The bytes of the characters that a program puts while memory stays as it is. -/
def output (memory : ByteMemory) : Printing α → Option (α × List Byte)
  | done result => some (result, [])
  | fault => none
  | emit ch rest => (rest.output memory).map fun put ↦ (put.1, ch.setWidth 8 :: put.2)
  | fetch address rest => do
    let byte ← memory address
    (rest byte).output memory

variable {program : Printing α} {next : α → Printing β} {memory : ByteMemory}

theorem bind_eq (program : Printing α) (next : α → Printing β) :
    program >>= next = program.bind next := rfl

theorem bind_done (program : Printing α) : program.bind done = program := by
  induction program with
  | done result => rfl
  | fault => rfl
  | emit ch rest ih => rw [bind, ih]
  | fetch address rest ih => rw [bind, funext ih]

theorem bind_bind {γ : Type} (program : Printing α) (next : α → Printing β)
    (last : β → Printing γ) :
    (program.bind next).bind last = program.bind fun result ↦ (next result).bind last := by
  induction program with
  | done result => rfl
  | fault => rfl
  | emit ch rest ih => rw [bind, bind, bind, ih]
  | fetch address rest ih => simp only [bind, ih]

instance : LawfulMonad Printing := LawfulMonad.mk'
  Printing bind_done (fun _ _ ↦ rfl) bind_bind

@[simp]
theorem fault_bind : (fault >>= next) = fault := rfl

/-! ## What is put -/

@[simp]
theorem output_pure (result : α) : (pure result : Printing α).output memory = some (result, []) :=
  rfl

@[simp]
theorem output_fault : (fault : Printing α).output memory = none := rfl

@[simp]
theorem output_putch (ch : BitVec 32) :
    (putch ch).output memory = some ((), [ch.setWidth 8]) := rfl

@[simp]
theorem output_load (address : BitVec 64) :
    (load address).output memory = (memory address).map fun byte ↦ (byte, []) := by
  rw [Option.map_eq_bind]
  rfl

/-- What is put in sequence is put by the one, then by the other. -/
theorem output_bind : (program >>= next).output memory =
    (program.output memory).bind fun first ↦
      ((next first.1).output memory).map fun second ↦ (second.1, first.2 ++ second.2) := by
  rw [bind_eq]
  induction program with
  | done result => cases h : (next result).output memory <;> simp [bind, output, h]
  | fault => rfl
  | emit ch rest ih =>
    rw [bind, output, ih, output]
    cases rest.output memory with
    | none => rfl
    | some first =>
      rw [Option.bind_some, Option.map_map, Option.map_some, Option.bind_some]
      rfl
  | fetch address rest ih =>
    rw [bind, output, output]
    cases memory address with
    | none => rfl
    | some byte => exact ih byte

/-- A program that puts `bytes` and goes on -/
theorem output_bind_of {result : α} {bytes : List Byte} (h : program.output memory = some (result, bytes)) :
    (program >>= next).output memory =
      ((next result).output memory).map fun second ↦ (second.1, bytes ++ second.2) := by
  rw [output_bind, h, Option.bind_some]

/-- A program that puts nothing and goes on -/
theorem output_bind_silent {result : α} (h : program.output memory = some (result, [])) :
    (program >>= next).output memory = (next result).output memory := by
  rw [output_bind_of h]
  simp

theorem output_bind_none (h : program.output memory = none) :
    (program >>= next).output memory = none := by
  rw [output_bind, h, Option.bind_none]

/-- Puts some characters. -/
def putAll : List (BitVec 32) → Printing Unit
  | [] => pure ()
  | ch :: chars => do
    putch ch
    putAll chars

theorem putAll_append (chars others : List (BitVec 32)) :
    putAll (chars ++ others) = (do putAll chars; putAll others) := by
  induction chars with
  | nil => rfl
  | cons ch chars ih =>
    rw [List.cons_append, putAll, ih, putAll, bind_assoc]

@[simp]
theorem output_putAll (chars : List (BitVec 32)) :
    (putAll chars).output memory = some ((), chars.map (BitVec.setWidth 8)) := by
  induction chars with
  | nil => rfl
  | cons ch chars ih =>
    rw [putAll, output_bind_of (output_putch ch), ih]
    rfl

/-! ## Programs with fuel -/

variable {withFuel : ℕ → Printing α} {outcome outcome' : Option (α × List Byte)}

/-- What a program comes to with enough fuel. -/
def Settles (memory : ByteMemory) (withFuel : ℕ → Printing α) (outcome : Option (α × List Byte)) :
    Prop :=
  ∃ enough, ∀ fuel, enough ≤ fuel → (withFuel fuel).output memory = outcome

theorem Settles.unique (h : Settles memory withFuel outcome) (h' : Settles memory withFuel outcome') :
    outcome = outcome' := by
  obtain ⟨enough, h⟩ := h
  obtain ⟨enough', h'⟩ := h'
  calc
    outcome = (withFuel (max enough enough')).output memory := (h _ (Nat.le_max_left _ _)).symm
    _ = outcome' := h' _ (Nat.le_max_right _ _)

theorem Settles.of_eq (h : ∀ fuel, (withFuel fuel).output memory = outcome) :
    Settles memory withFuel outcome := ⟨0, fun fuel _ ↦ h fuel⟩

/-- A program that a unit of fuel takes to another one. -/
theorem Settles.of_step {later : ℕ → Printing α}
    (hstep : ∀ fuel, (withFuel (fuel + 1)).output memory = (later fuel).output memory)
    (h : Settles memory later outcome) : Settles memory withFuel outcome := by
  obtain ⟨enough, h⟩ := h
  refine ⟨enough + 1, fun fuel hfuel ↦ ?_⟩
  obtain ⟨fuel, rfl⟩ := Nat.exists_eq_add_one_of_ne_zero (Nat.ne_zero_of_lt hfuel)
  rw [hstep]
  exact h fuel (Nat.le_of_succ_le_succ hfuel)

theorem Settles.of_succ (h : Settles memory (fun fuel ↦ withFuel (fuel + 1)) outcome) :
    Settles memory withFuel outcome := h.of_step fun _ ↦ rfl

theorem Settles.bind {following : ℕ → α → Printing β} {result : α} {bytes : List Byte}
    {last : Option (β × List Byte)} (h : Settles memory withFuel (some (result, bytes)))
    (hnext : Settles memory (fun fuel ↦ following fuel result) last) :
    Settles memory (fun fuel ↦ withFuel fuel >>= following fuel)
      (last.map fun second ↦ (second.1, bytes ++ second.2)) := by
  obtain ⟨enough, h⟩ := h
  obtain ⟨enough', hnext⟩ := hnext
  refine ⟨max enough enough', fun fuel hfuel ↦ ?_⟩
  rw [output_bind_of (h fuel (Nat.le_trans (Nat.le_max_left _ _) hfuel)),
    hnext fuel (Nat.le_trans (Nat.le_max_right _ _) hfuel)]

theorem Settles.bind_silent {following : ℕ → α → Printing β} {result : α}
    {last : Option (β × List Byte)} (h : Settles memory withFuel (some (result, [])))
    (hnext : Settles memory (fun fuel ↦ following fuel result) last) :
    Settles memory (fun fuel ↦ withFuel fuel >>= following fuel) last := by
  have hboth := h.bind hnext
  simpa using hboth

theorem Settles.then_pure {result : α} {bytes : List Byte}
    (h : Settles memory withFuel (some (result, bytes))) (last : β) :
    Settles memory (fun fuel ↦ do let _ ← withFuel fuel; return last) (some (last, bytes)) := by
  let following (_ : ℕ) (_ : α) : Printing β := pure last
  have hboth : Settles memory (fun fuel ↦ withFuel fuel >>= following fuel)
      (some (last, bytes ++ [])) := h.bind (Settles.of_eq fun _ ↦ rfl)
  rw [List.append_nil] at hboth
  exact hboth

theorem Settles.putch {ch : BitVec 32} (h : Settles memory withFuel outcome) :
    Settles memory (fun fuel ↦ do putch ch; withFuel fuel)
      (outcome.map fun last ↦ (last.1, ch.setWidth 8 :: last.2)) := by
  let following (fuel : ℕ) (_ : Unit) := withFuel fuel
  have hput : Settles memory (fun _ ↦ Printing.putch ch) (some ((), [ch.setWidth 8])) :=
    Settles.of_eq fun _ ↦ rfl
  have hboth : Settles memory (fun fuel ↦ Printing.putch ch >>= following fuel)
      (outcome.map fun last ↦ (last.1, [ch.setWidth 8] ++ last.2)) := hput.bind h
  exact hboth

theorem Settles.bind_none {following : ℕ → α → Printing β} (h : Settles memory withFuel none) :
    Settles memory (fun fuel ↦ withFuel fuel >>= following fuel) none := by
  obtain ⟨enough, h⟩ := h
  exact ⟨enough, fun fuel hfuel ↦ output_bind_none (h fuel hfuel)⟩

/-! ## Sinks -/

variable {sink : Sink σ} {sink' : Sink τ}

/-- Two sinks that are related before a program are related after it, if what the first one reads is also
what the second one reads. -/
theorem run_related {related : σ → τ → Prop}
    (hputch : ∀ ch state state', related state state' →
      related (sink.putch ch state) (sink'.putch ch state'))
    (hmemory : ∀ state state' address byte, related state state' →
      sink.memory state address = some byte → sink'.memory state' address = some byte)
    {state final : σ} {state' : τ} {result : α} (hrelated : related state state')
    (h : program.run sink state = some (result, final)) :
    ∃ final', program.run sink' state' = some (result, final') ∧ related final final' := by
  induction program generalizing state state' with
  | done value =>
    obtain ⟨rfl, rfl⟩ := Prod.mk.inj (Option.some.inj h)
    exact ⟨state', rfl, hrelated⟩
  | fault => cases h
  | emit ch rest ih => exact ih (hputch ch state state' hrelated) h
  | fetch address rest ih =>
    obtain ⟨byte, hbyte, hrest⟩ := Option.bind_eq_some_iff.mp h
    obtain ⟨final', hfinal, hlast⟩ := ih byte hrelated hrest
    refine ⟨final', ?_, hlast⟩
    rw [run, hmemory state state' address byte hrelated hbyte]
    exact hfinal

/-- A sink that shows what is put and reads memory as it is. -/
def console (memory : ByteMemory) : Sink (List Byte) where
  memory _ := memory
  putch ch shown := shown ++ [ch.setWidth 8]

theorem run_console (shown : List Byte) : program.run (console memory) shown =
    (program.output memory).map fun put ↦ (put.1, shown ++ put.2) := by
  induction program generalizing shown with
  | done result => simp [run, output]
  | fault => rfl
  | emit ch rest ih =>
    rw [run, ih, output, Option.map_map]
    simp [console, Function.comp_def]
  | fetch address rest ih =>
    rw [run, output]
    change (memory address >>= fun byte ↦ (rest byte).run (console memory) shown) = _
    cases memory address with
    | none => rfl
    | some byte => exact ih byte shown

/-- A sink that also keeps the bytes of the characters that are put. -/
def traced (sink : Sink σ) : Sink (σ × List Byte) where
  memory state := sink.memory state.1
  putch ch state := (sink.putch ch state.1, state.2 ++ [ch.setWidth 8])

/-- Keeping them changes nothing. -/
theorem run_of_traced {state : σ × List Byte} {result : α} {final : σ × List Byte}
    (h : program.run (traced sink) state = some (result, final)) :
    program.run sink state.1 = some (result, final.1) := by
  let related (state : σ × List Byte) (state' : σ) : Prop := state' = state.1
  have hputch : ∀ ch state state', related state state' →
      related ((traced sink).putch ch state) (sink.putch ch state') := by
    rintro ch state _ rfl
    rfl
  have hmemory : ∀ state state' address byte, related state state' →
      (traced sink).memory state address = some byte → sink.memory state' address = some byte := by
    rintro state _ address byte rfl hread
    exact hread
  obtain ⟨_, hrun, rfl⟩ := run_related hputch hmemory (rfl : related state state.1) h
  exact hrun

/-- What holds of a state before a program holds after it, if putting a character keeps it. -/
theorem run_invariant {invariant : σ → Prop}
    (hputch : ∀ ch state, invariant state → invariant (sink.putch ch state)) {state final : σ}
    {result : α} (hstate : invariant state) (h : program.run sink state = some (result, final)) :
    invariant final := by
  let related (state state' : σ) : Prop := state = state' ∧ invariant state
  have hrelated : ∀ ch state state', related state state' →
      related (sink.putch ch state) (sink.putch ch state') := by
    rintro ch state _ ⟨rfl, hkept⟩
    exact ⟨rfl, hputch ch state hkept⟩
  obtain ⟨_, -, -, hfinal⟩ := run_related hrelated
    (by rintro state _ address byte ⟨rfl, -⟩ hread; exact hread) (⟨rfl, hstate⟩ : related state state) h
  exact hfinal

end Printing

end Ucore.Foundation
