import EnvScript.Text.Decimal
import EnvScript.Text.Quoted

/-!
# Command line arguments

Options may be cut short as long as one option alone fits, and take a value after `=` or as the next
argument. Only help has a one-letter spelling; letters may follow it in the same argument. The files
are the first run of arguments that belong to no option; `--` ends the options.
-/

namespace EnvScript

structure Arguments where
  files : List Text := []
  assignments : List Text := []
  json : Bool := false
  debug : Bool := false
  deriving DecidableEq, Repr

inductive Switch where
  | help
  | set
  | json
  | debug
  deriving DecidableEq, Repr

/-- The name of an option in error messages. -/
def Switch.name : Switch → String
  | .help => "-h/--help"
  | .set => "--set"
  | .json => "--json"
  | .debug => "--debug"

/-- The long spellings of the options. -/
def switches : List (Text × Switch) :=
  [("--help".toList, .help), ("--set".toList, .set), ("--json".toList, .json),
    ("--debug".toList, .debug)]

inductive UsageError where
  | ambiguous (argument : Text) (candidates : List Text)
  | missingValue (s : Switch)
  | ignoredValue (s : Switch) (value : Text)
  | unrecognized (arguments : List Text)
  deriving DecidableEq, Repr

def joinWith (separator : String) (ts : List Text) : String :=
  separator.intercalate (ts.map String.ofList)

def UsageError.message : UsageError → String
  | .ambiguous argument candidates =>
    s!"ambiguous option: {String.ofList argument} could match " ++ joinWith ", " candidates
  | .missingValue s => s!"argument {s.name}: expected one argument"
  | .ignoredValue s value =>
    s!"argument {s.name}: ignored explicit argument {String.ofList (shownText value)}"
  | .unrecognized arguments => "unrecognized arguments: " ++ joinWith " " arguments

/-- What one argument is taken for. -/
inductive Argv where
  | operand (t : Text)
  /-- The first `--`. -/
  | separator
  | switch (s : Switch) (value : Option Text)
  /-- `-h` with `rest` right behind it, or behind it and one `=`. -/
  | cluster (rest : Text)
  | unknown (t : Text)
  deriving DecidableEq, Repr

def isNegativeNumber (t : Text) : Bool :=
  match t with
  | '-' :: t =>
    let t := if t.getLast? = some '\n' then t.dropLast else t
    match t.takeWhile isDecimal, t.dropWhile isDecimal with
    | digits, [] => !digits.isEmpty
    | _, '.' :: fraction => !fraction.isEmpty && fraction.all isDecimal
    | _, _ => false
  | _ => false

/-- The part before the first `=`, and the part after it if there is one. -/
def splitEquals (t : Text) : Text × Option Text :=
  match t.dropWhile (· != '=') with
  | [] => (t, none)
  | _ :: value => (t.takeWhile (· != '='), some value)

/-- Takes an argument that starts with a hyphen and matches no option. -/
def classifyUnmatched (t : Text) : Argv :=
  if isNegativeNumber t || t.contains ' ' then .operand t else .unknown t

/-- Takes an argument that starts with two hyphens. -/
def classifyLong (t : Text) : Except UsageError Argv :=
  let (name, value) := splitEquals t
  match switches.lookup name with
  | some s => .ok (.switch s value)
  | none =>
    match switches.filter (name.isPrefixOf ·.1) with
    | [] => .ok (classifyUnmatched t)
    | [(_, s)] => .ok (.switch s value)
    | candidates => .error (.ambiguous t (candidates.map Prod.fst))

def classify (t : Text) : Except UsageError Argv :=
  match t with
  | ['-'] => .ok (.operand t)
  | ['-', 'h'] => .ok (.switch .help none)
  | '-' :: 'h' :: '=' :: rest | '-' :: 'h' :: rest => .ok (.cluster rest)
  | '-' :: '-' :: _ => classifyLong t
  | '-' :: _ => .ok (classifyUnmatched t)
  | _ => .ok (.operand t)

def classifyAll : List Text → Except UsageError (List Argv)
  | [] => .ok []
  | t :: ts => do
    if t = ['-', '-'] then return .separator :: ts.map .operand
    else return (← classify t) :: (← classifyAll ts)

/-- A request for help, or an error. -/
inductive Refusal where
  | help
  | usage (e : UsageError)
  deriving DecidableEq, Repr

/-- The outcome of `-h` with `rest` right behind it: each further `h` asks for help once more, and
what starts otherwise would be a value, which help does not take. -/
def clusterRefusal : Text → Refusal
  | ['h'] => .help
  | 'h' :: rest => clusterRefusal rest
  | value => .usage (.ignoredValue .help value)

structure Progress where
  /-- The files, once their run of arguments has been met. -/
  files : Option (List Text) := none
  assignments : List Text := []
  json : Bool := false
  debug : Bool := false
  extras : List Text := []

def Progress.addSwitch (p : Progress) : Switch → Progress
  | .json => { p with json := true }
  | .debug => { p with debug := true }
  | .help | .set => p

def Argv.isOperand : Argv → Bool
  | .operand _ | .separator => true
  | _ => false

/-- The text of an operand. -/
def Argv.text : Argv → Text
  | .operand t | .unknown t | .cluster t => t
  | .separator => ['-', '-']
  | .switch .. => []

/-- Takes in a run of operands. -/
def Progress.addOperands (p : Progress) (run : List Argv) : Progress :=
  match p.files with
  | none => { p with files := some ((run.filter (· != .separator)).map Argv.text) }
  | some _ => { p with extras := p.extras ++ run.map Argv.text }

def readArguments (p : Progress) (arguments : List Argv) : Except Refusal Progress :=
  match arguments with
  | [] => .ok p
  | .switch .help none :: _ => .error .help
  | .switch .set none :: .operand value :: rest =>
    readArguments { p with assignments := p.assignments ++ [value] } rest
  | .switch .set none :: _ => .error (.usage (.missingValue .set))
  | .switch .set (some value) :: rest =>
    readArguments { p with assignments := p.assignments ++ [value] } rest
  | .switch s none :: rest => readArguments (p.addSwitch s) rest
  | .switch s (some value) :: _ => .error (.usage (.ignoredValue s value))
  | .cluster rest :: _ => .error (clusterRefusal rest)
  | .unknown t :: rest => readArguments { p with extras := p.extras ++ [t] } rest
  | .operand t :: rest =>
    readArguments (p.addOperands (.operand t :: rest.takeWhile Argv.isOperand))
      (rest.dropWhile Argv.isOperand)
  | .separator :: rest =>
    readArguments (p.addOperands (.separator :: rest.takeWhile Argv.isOperand))
      (rest.dropWhile Argv.isOperand)
termination_by arguments.length
decreasing_by
  all_goals
    try have := (List.dropWhile_suffix (l := rest) Argv.isOperand).length_le
    simp only [List.length_cons]
    omega

def Arguments.ofList (argv : List Text) : Except Refusal Arguments := do
  let arguments ← (classifyAll argv).mapError .usage
  let p ← readArguments {} arguments
  if p.extras.isEmpty then return ⟨p.files.getD [], p.assignments, p.json, p.debug⟩
  else throw (.usage (.unrecognized p.extras))

end EnvScript
