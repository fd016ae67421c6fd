import Mathlib.Tactic.Common

/-!
# Line editors

A line editor takes keys one after the other until a key ends the line. Its line has a capacity; a glyph
beyond that and an erasure of the empty line are dropped. A key that takes effect is echoed.
-/

namespace Ucore.Foundation

inductive Key (α : Type) where
  | glyph (a : α)
  | erase
  | enter
  | cancel

inductive Line (α : Type) where
  | entered (text : List α)
  | cancelled
  /-- No key has ended the line yet. -/
  | pending (text : List α)

/-- The text of a line, where there is one -/
def Line.content {α : Type} : Line α → Option (List α)
  | entered text => some text
  | pending text => some text
  | cancelled => none

structure Reading (α β : Type) where
  line : Line α
  echoed : List β
  rest : List β

namespace Reading

variable {α β : Type}

def echo (b : β) (reading : Reading α β) : Reading α β :=
  { reading with echoed := b :: reading.echoed }

/-- Reads a line from `input`, whose first part has put `text`; `decode` finds no key in what has no
effect. -/
def read (capacity : ℕ) (decode : β → Option (Key α)) (text : List α) : List β → Reading α β
  | [] => ⟨.pending text, [], []⟩
  | b :: input =>
    match decode b with
    | some (.glyph a) =>
      if text.length < capacity then (read capacity decode (text ++ [a]) input).echo b
      else read capacity decode text input
    | some .erase =>
      if text = [] then read capacity decode text input
      else (read capacity decode text.dropLast input).echo b
    | some .enter => ⟨.entered text, [b], input⟩
    | some .cancel => ⟨.cancelled, [], input⟩
    | none => read capacity decode text input

/-- What a screen shows in a line after `text` when `echoed` is put. -/
def screen (decode : β → Option (Key α)) (text : List α) : List β → List α
  | [] => text
  | b :: echoed =>
    match decode b with
    | some (.glyph a) => screen decode (text ++ [a]) echoed
    | some .erase => screen decode text.dropLast echoed
    | _ => screen decode text echoed

variable {capacity : ℕ} {decode : β → Option (Key α)} {text final : List α} {b : β} {input : List β}

@[simp]
theorem echo_line (b : β) (reading : Reading α β) : (reading.echo b).line = reading.line := rfl

@[simp]
theorem echo_echoed (b : β) (reading : Reading α β) :
    (reading.echo b).echoed = b :: reading.echoed := rfl

@[simp]
theorem echo_rest (b : β) (reading : Reading α β) : (reading.echo b).rest = reading.rest := rfl

/-- A line never grows beyond the capacity. -/
theorem length_le (htext : text.length ≤ capacity)
    (h : (read capacity decode text input).line.content = some final) : final.length ≤ capacity := by
  induction input generalizing text with
  | nil =>
    obtain rfl := Option.some.inj h
    exact htext
  | cons b input ih =>
    rw [read] at h
    split at h
    · split_ifs at h with hroom
      · apply ih _ h
        rw [List.length_append, List.length_singleton]
        exact hroom
      · exact ih htext h
    · split_ifs at h
      · exact ih htext h
      · apply ih _ h
        rw [List.length_dropLast]
        exact Nat.le_trans (Nat.sub_le _ _) htext
    · obtain rfl := Option.some.inj h
      exact htext
    · cases h
    · exact ih htext h

/-- The screen shows the line: every glyph of it, and nothing that was erased. -/
theorem screen_echoed (h : (read capacity decode text input).line.content = some final) :
    screen decode text (read capacity decode text input).echoed = final := by
  induction input generalizing text with
  | nil => exact Option.some.inj h
  | cons b input ih =>
    rw [read] at h ⊢
    split at h
    · rename_i a hkey
      split_ifs at h ⊢
      · rw [echo_echoed, screen, hkey]
        exact ih h
      · exact ih h
    · rename_i hkey
      split_ifs at h ⊢
      · exact ih h
      · rw [echo_echoed, screen, hkey]
        exact ih h
    · rename_i hkey
      rw [screen, hkey]
      exact Option.some.inj h
    · cases h
    · exact ih h

/-- A line that has ended leaves less input than there was. -/
theorem rest_length_lt (h : ∀ text, (read capacity decode final input).line ≠ .pending text) :
    (read capacity decode final input).rest.length < input.length := by
  induction input generalizing final with
  | nil => exact absurd rfl (h final)
  | cons b input ih =>
    have hlater : ∀ text, (∀ other, (read capacity decode text input).line ≠ .pending other) →
        (read capacity decode text input).rest.length < (b :: input).length :=
      fun text hended ↦ Nat.lt_trans (ih hended) (Nat.lt_succ_self _)
    rw [read] at h ⊢
    split at h
    · split_ifs at h ⊢
      · exact hlater _ h
      · exact hlater _ h
    · split_ifs at h ⊢
      · exact hlater _ h
      · exact hlater _ h
    · exact Nat.lt_succ_self _
    · exact Nat.lt_succ_self _
    · exact hlater _ h

end Reading

end Ucore.Foundation
