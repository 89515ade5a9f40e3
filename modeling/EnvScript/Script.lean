import EnvScript.Command.Parser
import EnvScript.Evaluation

/-!
# Scripts

A script is evaluated statement by statement, each before the next is read. The first error ends it,
and the context keeps what was assigned until then.
-/

namespace EnvScript

/-- An error with the position at which it is reported. -/
structure Failure where
  error : EvalError
  position : Position
  deriving DecidableEq, Repr

def Failure.message (f : Failure) : String :=
  match f.error.category with
  | some category =>
    s!"{category.label} at line {f.position.line}, col {f.position.col}. " ++
      s!"Reason: {f.error.message}"
  | none => f.error.message

structure Outcome where
  result : Except Failure Unit
  context : Context

/-- What a script that cannot be read fails with; `last` is the end of the last token before. Only a
fault of the text is reported as such. -/
def ReadError.failure (last : Position) : ReadError → Failure
  | .malformed ⟨.missing m, _⟩ => ⟨.missing m, last⟩
  | .malformed e => ⟨.malformed e.fault, e.position⟩
  | .oversizedNumeral n => ⟨.oversizedNumeral n, last⟩

/-- Evaluates up to `n` more statements. -/
def runStatements (limits : Limits) : Nat → Parser → Context → Outcome
  | 0, parser, context =>
    ⟨.error ⟨.malformed (.tooManyIterations limits.iterations), parser.last⟩, context⟩
  | n + 1, parser, context =>
    match Parse.statement? limits parser with
    | .error e parser => ⟨.error (e.failure parser.last), context⟩
    | .ok none _ => ⟨.ok (), context⟩
    | .ok (some s) parser =>
      match Eval.statement limits s context with
      | .ok _ context => runStatements limits n parser context
      | .error e context => ⟨.error ⟨e, parser.last⟩, context⟩

/-- Evaluates a script. Every statement but an absent last one has at least one character, so there
are no more rounds than the script has characters and one. -/
def runScript (limits : Limits) (script : Text) (context : Context) : Outcome :=
  runStatements limits (script.length + 1) (.ofText script) context

/-- A context that several scripts work on, one after the other. -/
structure Session where
  initial : Context
  current : Context
  limits : Limits

namespace Session

def start (initial : Context) (limits : Limits) : Session := ⟨initial, initial, limits⟩

def run (s : Session) (script : Text) : Except Failure Unit × Session :=
  let outcome := runScript s.limits script s.current
  (outcome.result, { s with current := outcome.context })

def reset (s : Session) : Session := { s with current := s.initial }

end Session

end EnvScript
