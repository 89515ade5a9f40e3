import EnvScript.Command
import EnvScript.Position
import EnvScript.Text.Quoted

/-!
# Faults

What can be wrong with the text of a script, before any of it is evaluated. A `SyntaxError` is a
fault with the position at which it is reported.
-/

namespace EnvScript

/-- The constructs that need a closing mark. -/
inductive Construct where
  | singleQuote
  | doubleQuote
  | backquote
  | parameterExpansion
  | commandSubstitution
  | arithmeticExpansion
  deriving DecidableEq, Repr

def Construct.name : Construct → String
  | .singleQuote => "single quote"
  | .doubleQuote => "double quote"
  | .backquote => "backquote"
  | .parameterExpansion => "parameter expansion"
  | .commandSubstitution => "command substitution"
  | .arithmeticExpansion => "arithmetic expansion"

/-- What an operation asks for and does not find: a token where none has been read ahead, the
innermost of what is to be closed where nothing is open, the compound command of a word that opens
none, the command of a pipeline without one, the value of an entry that is no assignment. -/
inductive Missing where
  | token
  | closer
  | opener (word : Text)
  | command
  | value
  deriving DecidableEq, Repr

def Missing.message : Missing → String
  | .token => "pop from empty list"
  | .closer => "list index out of range"
  | .opener word => String.ofList (shownText word)
  | .command => "tuple index out of range"
  | .value => "'RedirectionNode' object has no attribute 'value'"

inductive Fault where
  | inputTooLarge (size : Nat) (limit : Int)
  | tooManyTokens (limit : Int)
  | tooManyIterations (limit : Int)
  | nestingTooDeep
  | unterminated (c : Construct)
  | missingParameterName
  /-- A character that is no parameter operator, after the name in `${NAME`. -/
  | unexpectedOperator (c : Char)
  | unexpectedEnd
  | unexpectedNewline
  | unexpectedToken (text : Text)
  | unfinishedCompound (kind : CompoundKind)
  | missingFunctionName
  | missingFunctionParen
  | missingFunctionBody (name : Text)
  | missingTarget (operator : Text)
  | arrayAssignment
  /-- An operation of the parser finds nothing. The text is not to blame for it. -/
  | missing (m : Missing)
  deriving DecidableEq, Repr

namespace Fault

def message : Fault → String
  | .inputTooLarge size limit => s!"Input too large ({size} > {limit} characters)"
  | .tooManyTokens limit => s!"Too many tokens (limit {limit})"
  | .tooManyIterations limit => s!"Maximum parse iterations exceeded ({limit})"
  | .nestingTooDeep => "Maximum nesting depth exceeded"
  | .unterminated c => "Unterminated " ++ c.name
  | .missingParameterName => "Bad substitution: missing parameter name"
  | .unexpectedOperator c => "Bad substitution: unexpected '" ++ c.toString ++ "'"
  | .unexpectedEnd => "Unexpected end of input"
  | .unexpectedNewline => "Unexpected newline"
  | .unexpectedToken text => "Unexpected token '" ++ String.ofList text ++ "'"
  | .unfinishedCompound kind => "Unexpected end of input in " ++ kind.name ++ " command"
  | .missingFunctionName => "Expected function name"
  | .missingFunctionParen => "Expected ')' in function definition"
  | .missingFunctionBody name => "Expected function body for '" ++ String.ofList name ++ "'"
  | .missingTarget operator =>
    "Expected redirection target after '" ++ String.ofList operator ++ "'"
  | .arrayAssignment => "Array assignment not allowed."
  | .missing m => m.message

end Fault

structure SyntaxError where
  fault : Fault
  position : Position
  deriving DecidableEq, Repr

def SyntaxError.message (e : SyntaxError) : String :=
  s!"{e.fault.message} (line {e.position.line}, col {e.position.col})"

end EnvScript
