import EnvScript.EvalError
import EnvScript.Spec
import EnvScript.Text.Blank

/-!
# Substrings

`${NAME:offset:length}`. An offset below zero counts from the end, and one outside of the text gives
the empty text. A length that is missing, below zero or too large takes all that is left.
-/

namespace EnvScript

/-- Reads a numeral with blank space around it. -/
def readInteger (invalid : Text → EvalError) (t : Text) : Except EvalError Int :=
  match Numeral.ofText? (trim t) with
  | none => .error (invalid t)
  | some n => n.value.mapError .oversizedNumeral

def slice (origin : Text) (offset : Int) (length : Option Int) : Text :=
  let start := if offset < 0 then offset + origin.length else offset
  if start < 0 then []
  else
    let rest := origin.drop start.toNat
    match length with
    | none => rest
    | some n => if n < 0 then rest else rest.take n.toNat

/-- Applies a substring spec `offset` or `offset:length`. -/
def Spec.substring (origin spec : Text) : Except EvalError Text :=
  match Spec.split ':' spec with
  | none => do
    let offset ← readInteger .invalidOffset spec
    return slice origin offset none
  | some (offset, length) => do
    let offset ← readInteger .invalidOffset offset
    let length ← readInteger .invalidLength length
    return slice origin offset (some length)

end EnvScript
