import EnvScript.Position

/-!
# Cursors

A place in a text: what lies ahead, and how far one has come, as an offset and as a position.
`Cursor.At text c` says that `c` is such a place of `text`.
-/

namespace EnvScript

structure Cursor where
  rest : Text
  offset : Nat
  position : Position
  deriving DecidableEq, Repr

namespace Cursor

def ofText (t : Text) : Cursor := ⟨t, 0, .start⟩

/-- Steps over `n` characters, or over all that are left. -/
def advance : Nat → Cursor → Cursor
  | 0, c => c
  | n + 1, c =>
    match c.rest with
    | [] => c
    | x :: t => advance n ⟨t, c.offset + 1, c.position.next x⟩

theorem rest_advance (n : Nat) (c : Cursor) : (c.advance n).rest = c.rest.drop n := by
  induction n generalizing c with
  | zero => rfl
  | succ n ih =>
    obtain ⟨rest, offset, position⟩ := c
    cases rest with
    | nil => rfl
    | cons x t => simp [advance, ih]

theorem position_advance (n : Nat) (c : Cursor) :
    (c.advance n).position = c.position.after (c.rest.take n) := by
  induction n generalizing c with
  | zero => rfl
  | succ n ih =>
    obtain ⟨rest, offset, position⟩ := c
    cases rest with
    | nil => rfl
    | cons x t => simp [advance, ih]

theorem offset_advance (n : Nat) (c : Cursor) :
    (c.advance n).offset = c.offset + (c.rest.take n).length := by
  induction n generalizing c with
  | zero => rfl
  | succ n ih =>
    obtain ⟨rest, offset, position⟩ := c
    cases rest with
    | nil => rfl
    | cons x t => simp [advance, ih]; omega

structure At (text : Text) (c : Cursor) : Prop where
  le : c.offset ≤ text.length
  rest_eq : c.rest = text.drop c.offset
  position_eq : c.position = Position.start.after (text.take c.offset)

theorem at_ofText (t : Text) : At t (ofText t) := ⟨Nat.zero_le _, rfl, rfl⟩

theorem At.advance {text : Text} {c : Cursor} (h : At text c) (n : Nat) :
    At text (c.advance n) := by
  obtain ⟨le, rest_eq, position_eq⟩ := h
  have htake : text.take (c.advance n).offset = text.take c.offset ++ c.rest.take n := by
    rw [offset_advance, rest_eq, List.length_take, List.length_drop, List.take_add]
    congr 1
    rw [List.take_eq_take_iff, List.length_drop]
    omega
  refine ⟨?_, ?_, ?_⟩
  · rw [offset_advance, rest_eq, List.length_take, List.length_drop]
    omega
  · rw [rest_advance, offset_advance, rest_eq, List.drop_drop, List.length_take, List.length_drop]
    by_cases hn : n ≤ text.length - c.offset
    · rw [Nat.min_eq_left hn]
    · rw [List.drop_eq_nil_of_le (by omega), List.drop_eq_nil_of_le (by omega)]
  · rw [position_advance, htake, Position.after_append, ← position_eq]

/-- The length of the blank item that `t` starts with: a space, a tab, a carriage return, an
escaped newline or a comment. -/
def blankStep : Text → Nat
  | ' ' :: _ | '\t' :: _ | '\r' :: _ => 1
  | '\\' :: '\n' :: _ => 2
  | '#' :: t => (t.takeWhile (· != '\n')).length + 1
  | _ => 0

def skipBlanks (c : Cursor) : Cursor :=
  if blankStep c.rest = 0 then c else (c.advance (blankStep c.rest)).skipBlanks
termination_by c.rest.length
decreasing_by
  rename_i h
  rw [rest_advance, List.length_drop]
  have : c.rest ≠ [] := fun e => h (by simp [e, blankStep])
  have := List.length_pos_iff.mpr this
  omega

end Cursor

end EnvScript
