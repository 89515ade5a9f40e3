import EnvScript.Text

/-!
# Words

A word is a concatenation of parts, one for each way of writing text: plain, escaped, quoted, or
standing for something that a shell would expand.
-/

namespace EnvScript

inductive Parameter where
  | var (name : Text)
  /-- A positional parameter, or one named by a sign such as `?`. -/
  | special (symbol : Text)
  deriving DecidableEq, Repr

/-- The parameter operators that are evaluated. -/
inductive Operation where
  /-- `${NAME/pattern/replacement}` -/
  | replace
  /-- `${NAME//pattern/replacement}` -/
  | replaceAll
  /-- `${NAME:offset:length}` -/
  | substring
  deriving DecidableEq, Repr

inductive Part where
  | literal (text : Text)
  /-- What a backslash stands before. -/
  | escaped (text : Text)
  | single (text : Text)
  | double (parts : List Part)
  /-- A colon outside of quotes. -/
  | colon
  | parameter (p : Parameter)
  /-- An operation with the raw word of its spec. -/
  | substitution (p : Parameter) (op : Operation) (raw : List Part)
  /-- An operation with nothing after the operator. -/
  | specless (p : Parameter) (op : Operation)
  | unsupported (p : Parameter) (operator : Text)
  /-- A wildcard character outside of quotes. -/
  | glob (wildcard : Text)
  | tilde (user : Option Text)
  | command (text : Text) (backquoted : Bool)
  | arithmetic (expression : Text)
  deriving Repr, BEq

abbrev Word := List Part

end EnvScript
