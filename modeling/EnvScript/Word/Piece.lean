import EnvScript.Fault
import EnvScript.Text.Alphanumeric
import EnvScript.Text.Name

/-!
# Pieces of words

A word is read piece by piece: a plain character, a finished part, or the opening or closing mark
of a double quote or of `${NAME…}`, inside of which pieces are read by other rules. A reading says
how many characters a piece takes; it never takes more than there are.
-/

namespace EnvScript

/-- Where a character of a word stands, which decides what it means. -/
inductive Place where
  | word
  | quote
  | operand
  deriving DecidableEq, Repr

/-- What has been opened, with all that was read of it so far. -/
inductive Opening where
  | quote
  | operand (p : Parameter) (op : Operation)
  /-- After an operator that is not evaluated; its operand is read and dropped. -/
  | ignored (p : Parameter) (operator : Text)
  deriving DecidableEq, Repr

namespace Opening

def place : Opening → Place
  | .quote => .quote
  | .operand .. | .ignored .. => .operand

def construct : Opening → Construct
  | .quote => .doubleQuote
  | .operand .. | .ignored .. => .parameterExpansion

/-- The part that is complete once `parts` have been read inside. -/
def close : Opening → List Part → Part
  | .quote, parts => .double parts
  | .operand p op, [] => .specless p op
  | .operand p op, part :: parts => .substitution p op (part :: parts)
  | .ignored p operator, _ => .unsupported p operator

end Opening

inductive Piece where
  | plain (c : Char)
  | part (p : Part)
  | opens (o : Opening)
  | closes

/-- Why no piece can be read. -/
inductive Flaw where
  /-- The text ends before the construct that begins here does. -/
  | unclosed (c : Construct)
  /-- A character that cannot stand where it does, `taken` characters on. -/
  | misplaced (fault : Fault) (taken : Nat)
  deriving DecidableEq, Repr

/-- A piece and the number of characters it takes. -/
abbrev Reading := Except Flaw (Piece × Nat)

namespace Reading

def taking (n : Nat) (p : Piece) : Reading := .ok (p, n)

/-- The reading of a text from the reading of what is left after `k` characters. -/
def shift (k : Nat) : Reading → Reading
  | .ok (p, n) => .ok (p, n + k)
  | .error (.misplaced fault n) => .error (.misplaced fault (n + k))
  | .error (.unclosed c) => .error (.unclosed c)

end Reading

open Reading

/-- The number of characters before the backquote that closes a backquoted command. -/
def backquoteLength (n : Nat) : Text → Option Nat
  | [] => none
  | '`' :: _ => some n
  | '\\' :: _ :: t => backquoteLength (n + 2) t
  | _ :: t => backquoteLength (n + 1) t

/-- The number of characters before the parenthesis that closes a command substitution, where
`depth` inner parentheses are open and the text is inside of `quote`. -/
def commandLength (quote : Option Char) (depth n : Nat) : Text → Option Nat
  | [] => none
  | c :: t =>
    if c = '\\' ∧ quote ≠ some '\'' then
      match t with
      | [] => none
      | _ :: t => commandLength quote depth (n + 2) t
    else if quote.isSome then
      commandLength (if quote = some c then none else quote) depth (n + 1) t
    else if c = '\'' ∨ c = '"' then
      commandLength (some c) depth (n + 1) t
    else if c = '(' then
      commandLength none (depth + 1) (n + 1) t
    else if c = ')' then
      match depth with
      | 0 => some n
      | depth + 1 => commandLength none depth (n + 1) t
    else
      commandLength none depth (n + 1) t

/-- The number of characters before the parenthesis at which `depth` open ones and one more are
closed. -/
def arithmeticLength (depth n : Nat) : Text → Option Nat
  | [] => none
  | c :: t =>
    if c = '(' then
      arithmeticLength (depth + 1) (n + 1) t
    else if c = ')' then
      match depth with
      | 0 => some n
      | depth + 1 => arithmeticLength depth (n + 1) t
    else
      arithmeticLength depth (n + 1) t

/-- The signs that are parameters of their own. -/
def isParameterSign (c : Char) : Bool := "@*#?-$!".toList.contains c

def isOperatorSign (c : Char) : Bool := "-=?+#%^,@[".toList.contains c

/-- The operator signs that may be written twice. -/
def isDoubledSign (c : Char) : Bool := "#%^,".toList.contains c

/-- The operator signs that may follow a colon. -/
def isDefaultSign (c : Char) : Bool := "-=?+".toList.contains c

def isWildcard (c : Char) : Bool := "*?[]".toList.contains c

/-- What a backslash escapes inside of double quotes. -/
def isQuotedEscape (c : Char) : Bool := "$`\"\\\n".toList.contains c

/-- The characters that end a word. -/
def isBreak (c : Char) : Bool := " \t\n|&;<>()".toList.contains c

def isUserChar (c : Char) : Bool := isAlphanumeric c || "_.+-".toList.contains c

/-- The parameter that begins the inside of `${…}`, with its length. -/
def leadingParameter? (t : Text) : Option (Parameter × Nat) :=
  match leadingName t, t with
  | c :: name, _ => some (.var (c :: name), name.length + 1)
  | [], c :: _ =>
    if c.isDigit then
      some (.special (t.takeWhile Char.isDigit), (t.takeWhile Char.isDigit).length)
    else if isParameterSign c then some (.special [c], 1)
    else none
  | [], [] => none

/-- Reads on after the parameter of `${…}`. -/
def readOperator (p : Parameter) : Text → Reading
  | [] => .error (.unclosed .parameterExpansion)
  | '}' :: _ => taking 1 (.part (.parameter p))
  | '/' :: '/' :: _ => taking 2 (.opens (.operand p .replaceAll))
  | '/' :: _ => taking 1 (.opens (.operand p .replace))
  | ':' :: c :: _ =>
    if isDefaultSign c then taking 2 (.opens (.ignored p [':', c]))
    else taking 1 (.opens (.operand p .substring))
  | [':'] => taking 1 (.opens (.operand p .substring))
  | c :: t =>
    if isDoubledSign c && t.head? == some c then taking 2 (.opens (.ignored p [c, c]))
    else if isOperatorSign c then taking 1 (.opens (.ignored p [c]))
    else .error (.misplaced (.unexpectedOperator c) 0)

def missingParameter (t : Text) : Reading :=
  .error (if t.isEmpty then .unclosed .parameterExpansion else .misplaced .missingParameterName 0)

/-- Reads on after `${`. A `#` or `!` in front of a parameter is an operator. -/
def readBraced : Text → Reading
  | [] => missingParameter []
  | c :: t =>
    if (c == '#' || c == '!') && t.head? != some '}' then
      match leadingParameter? t with
      | some (p, n) => taking (n + 1) (.opens (.ignored p [c]))
      | none => (missingParameter t).shift 1
    else
      match leadingParameter? (c :: t) with
      | some (p, n) => (readOperator p ((c :: t).drop n)).shift n
      | none => missingParameter (c :: t)

/-- Reads on after `$`, which stands for itself where nothing that it could introduce follows. -/
def readDollar : Text → Reading
  | '{' :: t => (readBraced t).shift 1
  | '(' :: '(' :: t =>
    match arithmeticLength 1 0 t with
    | some n => taking (n + 3) (.part (.arithmetic (t.take (n - 1))))
    | none => .error (.unclosed .arithmeticExpansion)
  | '(' :: t =>
    match commandLength none 0 0 t with
    | some n => taking (n + 2) (.part (.command (t.take n) false))
    | none => .error (.unclosed .commandSubstitution)
  | t =>
    match leadingName t, t with
    | c :: name, _ => taking (name.length + 1) (.part (.parameter (.var (c :: name))))
    | [], c :: _ =>
      if c.isDigit || isParameterSign c then taking 1 (.part (.parameter (.special [c])))
      else taking 0 (.plain '$')
    | [], [] => taking 0 (.plain '$')

def readBackquote (t : Text) : Reading :=
  match backquoteLength 0 t with
  | some n => taking (n + 1) (.part (.command (t.take n) true))
  | none => .error (.unclosed .backquote)

def readSingle (t : Text) : Reading :=
  let text := t.takeWhile (· != '\'')
  if text.length < t.length then taking (text.length + 1) (.part (.single text))
  else .error (.unclosed .singleQuote)

def readTilde (t : Text) : Reading :=
  let user := t.takeWhile isUserChar
  taking user.length (.part (.tilde (if user.isEmpty then none else some user)))

/-- Reads on after `c` inside of double quotes. -/
def readQuoted (c : Char) (t : Text) : Reading :=
  if c = '"' then taking 0 .closes
  else if c = '\\' then
    match t with
    | d :: _ =>
      if isQuotedEscape d then taking 1 (.part (.escaped [d])) else taking 0 (.plain '\\')
    | [] => taking 0 (.plain '\\')
  else taking 0 (.plain c)

/-- Reads on after `c` outside of double quotes. -/
def readUnquoted (c : Char) (t : Text) : Reading :=
  if c = '\\' then
    match t with
    | d :: _ => taking 1 (.part (.escaped [d]))
    | [] => taking 0 (.plain '\\')
  else if c = '\'' then readSingle t
  else if c = '"' then taking 0 (.opens .quote)
  else taking 0 (.plain c)

/-- The piece that begins with `c` before the text `t`, which counts the characters of `t` it
takes. With `tilde`, a `~` here stands for a home directory. -/
def readPiece (place : Place) (tilde : Bool) (c : Char) (t : Text) : Reading :=
  if c = '$' then readDollar t
  else if c = '`' then readBackquote t
  else
    match place with
    | .quote => readQuoted c t
    | .operand => if c = '}' then taking 0 .closes else readUnquoted c t
    | .word =>
      if isWildcard c then taking 0 (.part (.glob [c]))
      else if c = ':' then taking 0 (.part .colon)
      else if c = '~' ∧ tilde = true then readTilde t
      else readUnquoted c t

/-- The pieces that go one level deeper: an opening double quote and all of `${…}`. -/
def nests (place : Place) (c : Char) (t : Text) : Bool :=
  (c == '"' && place != .quote) || (c == '$' && t.head? == some '{')

end EnvScript
