import EnvScript.Fault
import EnvScript.Text.Numeral

/-!
# Evaluation errors

The causes for which an evaluation stops, each with its category and its wording. A numeral too
long to be read and an operation that finds nothing belong to no category, and are reported without
a position.
-/

namespace EnvScript

inductive Category where
  | invalidSyntax
  | context
  | substitution
  | glob
  | regex
  deriving DecidableEq, Repr

def Category.label : Category → String
  | .invalidSyntax => "Invalid syntax"
  | .context => "Context error"
  | .substitution => "Substitution error"
  | .glob => "Glob translation error"
  | .regex => "Regex error"

/-- A character range whose end comes before its start, both as they are written in the pattern's
regular expression, with the index of the range there. -/
structure ReversedRange where
  low : Text
  high : Text
  index : Nat
  /-- The same place as line and column, where the regular expression has several lines. -/
  place : Option Position
  deriving DecidableEq, Repr

def ReversedRange.message (r : ReversedRange) : String :=
  s!"bad character range {String.ofList r.low}-{String.ofList r.high} at position {r.index}" ++
    match r.place with
    | some p => s!" (line {p.line}, column {p.col})"
    | none => ""

inductive EvalError where
  | malformed (fault : Fault)
  | job
  | pipe
  | compoundCommand
  | functionDefinition
  | commands
  | redirects
  | missingValue (name : Text)
  | wildcard (text : Text)
  | tilde
  | commandSubstitution
  | arithmeticExpansion
  | unsupportedParameter
  | unsupportedOperator (operator : Text)
  | missingSpec
  | unsetVariable (name : Text)
  /-- The variable that an operation was to be applied to. -/
  | unsetOrigin (name : Text)
  | missingSeparator (spec : Text)
  | invalidOffset (text : Text)
  | invalidLength (text : Text)
  | unterminatedBracket (pattern : Text)
  | unknownClass (name pattern : Text)
  | patternTooBig
  | reversedRange (r : ReversedRange)
  | oversizedNumeral (n : OversizedNumeral)
  | missing (m : Missing)
  deriving DecidableEq, Repr

namespace EvalError

def category : EvalError → Option Category
  | .malformed _ | .job | .pipe | .compoundCommand | .functionDefinition | .commands | .redirects
  | .missingValue _ | .wildcard _ | .tilde | .commandSubstitution | .arithmeticExpansion
  | .unsupportedParameter | .unsupportedOperator _ | .missingSpec => some .invalidSyntax
  | .unsetVariable _ | .unsetOrigin _ => some .context
  | .missingSeparator _ | .invalidOffset _ | .invalidLength _ => some .substitution
  | .unterminatedBracket _ | .unknownClass .. => some .glob
  | .patternTooBig | .reversedRange _ => some .regex
  | .oversizedNumeral _ | .missing _ => none

def message : EvalError → String
  | .malformed fault => fault.message
  | .job => "Job not allowed."
  | .pipe => "Pipe not allowed."
  | .compoundCommand => "Compound command not allowed."
  | .functionDefinition => "Function definition not allowed."
  | .commands => "Commands not allowed."
  | .redirects => "Redirects not allowed."
  | .missingValue name => s!"Variable {String.ofList name} without value."
  | .wildcard text => "Unquoted wildcard '" ++ String.ofList text ++ "' not allowed."
  | .tilde => "Tilde expansion not allowed."
  | .commandSubstitution => "Command substitution not allowed."
  | .arithmeticExpansion => "Arithmetic expansion not allowed."
  | .unsupportedParameter => "Unsupported parameter."
  | .unsupportedOperator operator =>
    s!"Unsupported parameter substitution: {String.ofList operator}."
  | .missingSpec => "No substitution spec provided."
  | .unsetVariable name => s!"Param variable {String.ofList name} not found."
  | .unsetOrigin name => s!"Param {String.ofList name} not found."
  | .missingSeparator spec =>
    "Missing '/' separator in replace spec '" ++ String.ofList spec ++ "'."
  | .invalidOffset text => "Invalid substring offset '" ++ String.ofList text ++ "'."
  | .invalidLength text => "Invalid substring length '" ++ String.ofList text ++ "'."
  | .unterminatedBracket pattern =>
    "Unterminated bracket expression in pattern '" ++ String.ofList pattern ++ "'."
  | .unknownClass name pattern =>
    "Unknown character class '" ++ String.ofList name ++ "' in pattern '" ++
      String.ofList pattern ++ "'."
  | .patternTooBig => "Compiled syntax too big."
  | .reversedRange r => "Syntax error: " ++ r.message
  | .oversizedNumeral n => n.message
  | .missing m => m.message

end EvalError

end EnvScript
