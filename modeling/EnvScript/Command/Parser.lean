import EnvScript.Command.Lookahead

/-!
# Parsing

The grammar of a script, one statement at a time, so that a statement can be evaluated before the
next is read:

    statement  := list (';' | '&' | NEWLINE | END)
    list       := pipeline (('&&' | '||') NEWLINE* pipeline)*
    pipeline   := '!'? command ('|' NEWLINE* command)*
    command    := function | compound | simple
    simple     := (assignment | redirection)* (word | redirection)*

The inside of a compound command is not parsed: `compound` finds where it ends.
-/

namespace EnvScript

/-- The assignment that a word stands for, if it starts with `NAME=` in plain characters. -/
def Word.assignment? : Word → Option (Text × Option Word)
  | .literal text :: parts =>
    match splitAssignment text, parts with
    | some (name, []), [] => some (name, none)
    | some (name, []), part :: parts => some (name, some (part :: parts))
    | some (name, c :: value), parts => some (name, some (.literal (c :: value) :: parts))
    | none, _ => none
  | _ => none

/-- The words after which a command begins. -/
def commandWords : List Text :=
  ["then".toList, "do".toList, "else".toList, "elif".toList, ['{'], "if".toList, "while".toList,
    "until".toList, ['!']]

/-- A command begins after this token. -/
def Token.startsCommand (t : Token) : Bool :=
  match t.lexeme with
  | .word _ => commandWords.contains t.text
  | .newline | .bang => true
  | .operator (.redirect _) | .operator .rightParen => false
  | .operator _ => true
  | .ioNumber | .eof => false

/-- What is still to be closed after a token, the innermost first. A word counts as a closer or an
opener only where a command may begin, except that `]]` always closes. There is no answer where a
token is compared with the innermost and nothing is open. -/
def closersAfter? (closers : List Text) (commandStart : Bool) (t : Token) : Option (List Text) :=
  match t.lexeme with
  | .operator .leftParen =>
    closers.head?.map fun closer => if closer = "esac".toList then closers else [')'] :: closers
  | .operator .rightParen =>
    closers.head?.map fun closer => if closer = [')'] then closers.tail else closers
  | .word _ =>
    closers.head?.map fun closer =>
      if closer = t.text ∧ (commandStart = true ∨ t.text = [']', ']']) then closers.tail
      else if commandStart then
        match CompoundKind.ofOpener? t.text with
        | some kind => kind.closer :: closers
        | none => closers
      else closers
  | _ => some closers

namespace Parse

variable (limits : Limits)

def skipNewlines : Parse Unit :=
  loop limits (fun _ => do
    match ← accept limits [.newline] with
    | some _ =>
      countRound limits
      return .inl ()
    | none => return .inr ()) ()

def descriptor? : Option Token → Parse (Option Nat)
  | none => return none
  | some t =>
    match Numeral.natural t.text with
    | .ok n => return some n
    | .error n => throw (.oversizedNumeral n)

def redirection : Parse Redirection := do
  let descriptor ← descriptor? (← accept limits [.ioNumber])
  let operator ← advance limits
  match operator.lexeme with
  | .operator (.redirect r) =>
    let t ← peek limits 0
    match t.lexeme with
    | .word target =>
      discard (advance limits)
      return ⟨r, target, descriptor⟩
    | _ => fail (.missingTarget r.text) t
  | _ => unexpected operator

/-- One entry of a simple command, added to those before it, which are the latest first. -/
def simpleStep :
    List Binding × List Argument → Parse ((List Binding × List Argument) ⊕ Command)
  | (bindings, arguments) => do
    countRound limits
    let t ← peek limits 0
    match t.lexeme with
    | .ioNumber | .operator (.redirect _) =>
      let r ← redirection limits
      if arguments.isEmpty then return .inl (.redirect r :: bindings, [])
      else return .inl (bindings, .redirect r :: arguments)
    | .word w =>
      discard (advance limits)
      match if arguments.isEmpty then Word.assignment? w else none with
      | none => return .inl (bindings, .word w :: arguments)
      | some (name, value) =>
        let following ← peek limits 0
        if value.isNone ∧ following.kind = .operator .leftParen ∧ following.start = t.stop then
          fail .arrayAssignment following
        else return .inl (.assign name value :: bindings, [])
    | _ => return .inr (.simple bindings.reverse arguments.reverse)

def simpleCommand : Parse Command := do
  let command ← loop limits (simpleStep limits) ([], [])
  let t ← peek limits 0
  if t.kind = .operator .leftParen then unexpected t else return command

/-- One token of a compound command. The state has what is still to be closed, and whether a
command may begin. -/
def compoundStep (kind : CompoundKind) :
    List Text × Bool → Parse ((List Text × Bool) ⊕ CompoundKind)
  | ([], _) => return .inr kind
  | (closers, commandStart) => do
    countRound limits
    let t ← advance limits
    if t.kind = .eof then fail (.unfinishedCompound kind) t
    else
      match closersAfter? closers commandStart t with
      | some closers => return .inl (closers, t.startsCommand)
      | none => fail (.missing .closer) t

def compoundKind (opener : Token) : Parse CompoundKind := do
  if opener.kind = .operator .leftParen then
    if ← check limits (.operator .leftParen) then return .arithmetic else return .subshell
  else
    match CompoundKind.ofOpener? opener.text with
    | some kind => return kind
    | none => fail (.missing (.opener opener.text)) opener

def compound : Parse CompoundKind := do
  let kind ← compoundKind limits (← advance limits)
  loop limits (compoundStep limits kind) ([kind.closer], true)

/-- The name in the head of a function definition, `function NAME`, `function NAME ()` or
`NAME ()`. -/
def functionName : Parse Text := do
  if (← peek limits 0).text = "function".toList then
    discard (advance limits)
    let t ← peek limits 0
    if t.kind = .word then
      discard (advance limits)
      if (← accept limits [.operator .leftParen]).isSome then
        if (← accept limits [.operator .rightParen]).isNone then
          fail .missingFunctionParen (← peek limits 0)
      return t.text
    else fail .missingFunctionName t
  else
    let name := (← advance limits).text
    discard (advance limits)
    discard (advance limits)
    return name

def startsCompound (t : Token) : Bool :=
  t.kind == .operator .leftParen ||
    (t.kind == .word && (CompoundKind.ofOpener? t.text).isSome)

def functionDefinition : Parse Command := do
  let name ← functionName limits
  skipNewlines limits
  let t ← peek limits 0
  if startsCompound t then return .function name (← compound limits)
  else fail (.missingFunctionBody name) t

/-- A word before `()` names a function, unless it is an assignment. -/
def startsFunction (t : Token) : Parse Bool := do
  if (← peek limits 1).kind = .operator .leftParen then
    if (← peek limits 2).kind = .operator .rightParen then
      return (splitAssignment t.text).isNone
    else return false
  else return false

def command : Parse Command := do
  countRound limits
  let t ← peek limits 0
  if startsCompound t then return .compound (← compound limits)
  else
    match t.lexeme with
    | .word _ =>
      if t.text = "function".toList then functionDefinition limits
      else if ← startsFunction limits t then functionDefinition limits
      else simpleCommand limits
    | .ioNumber | .operator (.redirect _) => simpleCommand limits
    | _ => unexpected t

def pipeline : Parse Pipeline := do
  let negated := (← accept limits [.bang]).isSome
  let first ← command limits
  loop limits (fun commands => do
    match ← accept limits [.operator .pipe] with
    | some _ =>
      skipNewlines limits
      return .inl ((← command limits) :: commands)
    | none => return .inr ⟨commands.reverse, negated⟩) [first]

/-- One more pipeline of a list, or its end. Pipelines and connectives are the latest first. -/
def listStep :
    List Pipeline × List Connective → Parse ((List Pipeline × List Connective) ⊕ Statement)
  | (pipelines, connectives) => do
    match ← accept limits [.operator (.connective .and), .operator (.connective .or)] with
    | some t =>
      skipNewlines limits
      let connective : Connective := if t.kind = .operator (.connective .and) then .and else .or
      return .inl ((← pipeline limits) :: pipelines, connective :: connectives)
    | none => return .inr ⟨pipelines.reverse, connectives.reverse, false⟩

def list : Parse Statement := do
  let first ← pipeline limits
  loop limits (listStep limits) ([first], [])

/-- The next statement, or nothing at the end of the script. -/
def statement? : Parse (Option Statement) := do
  skipNewlines limits
  if ← check limits .eof then return none
  else
    let s ← list limits
    if (← accept limits [.operator .amp]).isSome then return some { s with background := true }
    else if (← accept limits [.operator .semi, .newline]).isSome then return some s
    else if ← check limits .eof then return some s
    else unexpected (← peek limits 0)

/-- All the statements that are left. -/
def statements : Parse (List Statement) :=
  loop limits (fun done => do
    match ← statement? limits with
    | some s => return .inl (s :: done)
    | none => return .inr done.reverse) []

end Parse

/-- The statements of a text. -/
def parseText (limits : Limits) (t : Text) : Except ReadError (List Statement) :=
  match Parse.statements limits (.ofText t) with
  | .ok statements _ => .ok statements
  | .error e _ => .error e

end EnvScript
