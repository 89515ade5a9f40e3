import EnvScript.Text

/-!
# Decimal numerals

An optional sign and one or more ASCII digits, leading zeros allowed. A numeral of more than
`maxDigits` digits has no value here: reading it reports how many digits it has.
-/

namespace EnvScript

structure Numeral where
  negative : Bool
  digits : Text
  deriving DecidableEq, Repr

/-- A numeral too long to be read, with the number of its digits. -/
structure OversizedNumeral where
  digits : Nat
  deriving DecidableEq, Repr

namespace Numeral

def maxDigits : Nat := 4300

def digitValue (c : Char) : Nat := c.toNat - '0'.toNat

def magnitude (digits : Text) : Nat :=
  digits.foldl (fun n c => 10 * n + digitValue c) 0

def ofDigits? (negative : Bool) (digits : Text) : Option Numeral :=
  if digits.isEmpty || !digits.all Char.isDigit then none else some ⟨negative, digits⟩

def ofText? : Text → Option Numeral
  | '+' :: t => ofDigits? false t
  | '-' :: t => ofDigits? true t
  | t => ofDigits? false t

/-- The value of digits without a sign. -/
def natural (digits : Text) : Except OversizedNumeral Nat :=
  if maxDigits < digits.length then .error ⟨digits.length⟩ else .ok (magnitude digits)

def value (n : Numeral) : Except OversizedNumeral Int :=
  (natural n.digits).map fun m => if n.negative then -(m : Int) else m

end Numeral

def OversizedNumeral.message (n : OversizedNumeral) : String :=
  s!"Exceeds the limit ({Numeral.maxDigits} digits) for integer string conversion: " ++
    s!"value has {n.digits} digits; use sys.set_int_max_str_digits() to increase the limit"

end EnvScript
