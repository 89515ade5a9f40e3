import EnvScript.Command
import EnvScript.Expansion

/-!
# Evaluation

Only assignments are evaluated; every other command is refused. Each assignment takes effect as soon
as its value is known, and what has taken effect stays when a later one fails.
-/

namespace EnvScript

abbrev Eval := EStateM EvalError Context

namespace Eval

variable (limits : Limits)

def assign (name : Text) : Option Word → Eval Unit
  | none => throw (.missingValue name)
  | some word => do
    match expandWord limits (← get) word with
    | .ok value => modify (·.set name value)
    | .error e => throw e

def binding : Binding → Eval Unit
  | .assign name value => assign limits name value
  | .redirect _ => throw (.missing .value)

def command : Command → Eval Unit
  | .simple bindings arguments =>
    if !arguments.isEmpty then throw .commands
    else if bindings.any (·.isRedirect) then throw .redirects
    else bindings.forM (binding limits)
  | .compound _ => throw .compoundCommand
  | .function .. => throw .functionDefinition

def pipeline (p : Pipeline) : Eval Unit :=
  if p.isPipe then throw .pipe
  else
    match p.commands with
    | c :: _ => command limits c
    | [] => throw (.missing .command)

def statement (s : Statement) : Eval Unit :=
  if s.background then throw .job else s.pipelines.forM (pipeline limits)

end Eval

end EnvScript
