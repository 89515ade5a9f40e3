import EnvScript.CommandLine.Arguments
import EnvScript.CommandLine.Folder
import EnvScript.Script
import EnvScript.Text.Newline

/-!
# The command line

Evaluates files one after the other in one context and prints the context. The command line, an
unreadable file or the first error in a script can end the run before that.
-/

namespace EnvScript

/-- How a run ends. -/
inductive Exit where
  | help
  | usage (e : UsageError)
  | invalidAssignment (item : Text)
  | unreadable (path : Text) (e : FileError)
  | undecodable (e : Utf8.DecodeError)
  | failed (path : Text) (f : Failure)
  | printed (context : Context) (json : Bool)

/-- A context as the lines of a script. -/
def Context.lines (c : Context) : Text :=
  c.entries.flatMap fun (name, value) => name ++ '=' :: quoteValue value ++ ['\n']

/-- A context as a JSON object, with one member a line. -/
def Context.json (c : Context) : Text :=
  match c.entries with
  | [] => ['\x7b', '\x7d', '\n']
  | entries =>
    let members := entries.map fun (name, value) =>
      "  ".toList ++ jsonString name ++ ": ".toList ++ jsonString value
    "\x7b\n".toList ++ [',', '\n'].intercalate members ++ "\n\x7d\n".toList

def usageLine : String :=
  "usage: just-env [-h] [--set KEY=VALUE] [--json] [--debug] [FILE ...]\n"

/-- The help, laid out for 80 columns. -/
def helpText : String :=
  usageLine ++
    "\nEvaluate shell-style variable assignments without a shell\n" ++
    "\npositional arguments:\n" ++
    "  FILE             Scripts to evaluate in order (default: stdin)\n" ++
    "\noptions:\n" ++
    "  -h, --help       show this help message and exit\n" ++
    "  --set KEY=VALUE  Initial variable (can be specified multiple times)\n" ++
    "  --json           Print the context as a JSON object\n" ++
    "  --debug          Enable debug logging\n"

namespace Exit

def code : Exit → Nat
  | .help | .printed .. => 0
  | .failed .. | .undecodable _ => 1
  | .usage _ | .invalidAssignment _ | .unreadable .. => 2

def stdout : Exit → String
  | .printed context json => String.ofList (if json then context.json else context.lines)
  | .help => helpText
  | _ => ""

/-- Standard error without the debug log, and with the last line only of what is not handled. -/
def stderr : Exit → String
  | .help | .printed .. => ""
  | .usage e => usageLine ++ s!"just-env: error: {e.message}\n"
  | .invalidAssignment item => s!"just-env: invalid --set value: {String.ofList item}\n"
  | .unreadable path e => s!"just-env: {String.ofList path}: {e.message}\n"
  | .undecodable e => e.message ++ "\n"
  | .failed path f => s!"just-env: {String.ofList path}: {f.message}\n"

end Exit

namespace CommandLine

/-- The assignments given on the command line, each `NAME=value`. -/
def initialContext (items : List Text) : Except Exit Context :=
  items.foldlM (fun context item =>
    match splitEquals item with
    | (name, some value) =>
      if isName name then .ok (context.set name value) else .error (.invalidAssignment item)
    | (_, none) => .error (.invalidAssignment item)) .empty

/-- Evaluates a file with the given content. -/
def evaluateFile (path : Text) (content : Except FileError (List UInt8)) (context : Context) :
    Except Exit Context := do
  let bytes ← content.mapError (.unreadable path)
  let script ← (Utf8.decode bytes).mapError .undecodable
  let outcome := runScript {} (foldNewlines script) context
  match outcome.result with
  | .ok _ => return outcome.context
  | .error failure => throw (.failed path failure)

/-- The paths to be read, of which `-` is standard input. -/
def paths (a : Arguments) : List Text := if a.files.isEmpty then [['-']] else a.files

/-- The arguments and the context to begin with. -/
def prepare (argv : List Text) : Except Exit (Arguments × Context) := do
  let a ← (Arguments.ofList argv).mapError fun
    | .help => .help
    | .usage e => .usage e
  return (a, ← initialContext a.assignments)

/-- Evaluates the files of a folder. Standard input is empty after it has been read once. -/
def evaluateFiles (folder : Folder) (stdin : List UInt8) :
    List Text → Context → Except Exit Context
  | [], context => .ok context
  | path :: paths, context =>
    if path = ['-'] then do
      evaluateFiles folder [] paths (← evaluateFile path (.ok stdin) context)
    else do
      evaluateFiles folder stdin paths (← evaluateFile path (folder.read path) context)

/-- The outcome of a command line in a folder. -/
def run (argv : List Text) (folder : Folder) (stdin : List UInt8) : Exit :=
  let result : Except Exit Exit := do
    let (a, context) ← prepare argv
    return .printed (← evaluateFiles folder stdin (paths a) context) a.json
  match result with
  | .ok exit | .error exit => exit

end CommandLine

end EnvScript
