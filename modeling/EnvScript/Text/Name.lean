import EnvScript.Text

/-!
# Variable names

A name is an ASCII letter or underscore followed by ASCII letters, digits and underscores.
-/

namespace EnvScript

def isNameStart (c : Char) : Bool := c.isAlpha || c == '_'

def isNameChar (c : Char) : Bool := c.isAlphanum || c == '_'

def isName : Text → Bool
  | [] => false
  | c :: t => isNameStart c && t.all isNameChar

/-- The longest name that `t` starts with, empty where there is none. -/
def leadingName : Text → Text
  | [] => []
  | c :: t => if isNameStart c then c :: t.takeWhile isNameChar else []

/-- Splits a text `NAME=value` into the name and the value. -/
def splitAssignment (t : Text) : Option (Text × Text) :=
  match leadingName t, t.drop (leadingName t).length with
  | c :: name, '=' :: value => some (c :: name, value)
  | _, _ => none

theorem isNameChar_of_isNameStart {c : Char} (h : isNameStart c = true) : isNameChar c = true := by
  simp only [isNameStart, isNameChar, Char.isAlphanum, Bool.or_eq_true] at h ⊢
  exact h.imp_left .inl

theorem isName_leadingName {t : Text} (h : leadingName t ≠ []) : isName (leadingName t) = true := by
  cases t with
  | nil => exact absurd rfl h
  | cons c t =>
    by_cases hc : isNameStart c = true
    · simp [leadingName, hc, isName]
    · simp [leadingName, hc] at h

theorem leadingName_append_drop (t : Text) :
    leadingName t ++ t.drop (leadingName t).length = t := by
  cases t with
  | nil => rfl
  | cons c t =>
    by_cases hc : isNameStart c = true
    · have h : t.takeWhile isNameChar <+: t := List.takeWhile_prefix _
      simpa [leadingName, hc] using List.prefix_iff_eq_append.mp h
    · simp [leadingName, hc]

end EnvScript
