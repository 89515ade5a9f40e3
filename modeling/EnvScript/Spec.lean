import EnvScript.Text

/-!
# Substitution specs

The text after the operator of a parameter substitution. A separator divides it in two, and a
backslash takes the meaning of a separator or a wildcard from the character after it.
-/

namespace EnvScript.Spec

/-- Splits a spec at the first separator that no backslash escapes. -/
def split (separator : Char) : Text → Option (Text × Text)
  | [] => none
  | '\\' :: t =>
    match t with
    | [] => none
    | c :: t => (split separator t).map fun (left, right) => ('\\' :: c :: left, right)
  | c :: t =>
    if c = separator then some ([], t)
    else (split separator t).map fun (left, right) => (c :: left, right)

/-- Takes the backslashes off. One at the end, which escapes nothing, is kept. -/
def unescape : Text → Text
  | '\\' :: c :: t => c :: unescape t
  | c :: t => c :: unescape t
  | [] => []

/-- The characters that mean something in a spec. -/
def isActive (c : Char) : Bool := "\\/:*?[]".toList.contains c

/-- Puts a backslash before every character that means something in a spec. -/
def escape (t : Text) : Text :=
  t.flatMap fun c => if isActive c then ['\\', c] else [c]

end EnvScript.Spec
