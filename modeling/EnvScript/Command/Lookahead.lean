import EnvScript.EvalError
import EnvScript.Token.Scanner

/-!
# Reading tokens ahead

The state of a parser and its steps on tokens: looking ahead, taking a token off, counting a round
of a loop. A step that fails keeps the state it had reached, and parsing can go on from there.
-/

namespace EnvScript

inductive ReadError where
  | malformed (e : SyntaxError)
  | oversizedNumeral (n : OversizedNumeral)
  deriving DecidableEq, Repr

structure Parser where
  scanner : Scanner
  /-- Tokens read and not yet taken off. -/
  ahead : List Token
  /-- Where the last token that is no separator ended. -/
  last : Position
  /-- Rounds of the grammar's loops so far. -/
  iterations : Nat

def Parser.ofText (t : Text) : Parser := ⟨.ofText t, [], .start, 0⟩

abbrev Parse := EStateM ReadError Parser

namespace Parse

variable (limits : Limits)

/-- Reports a fault at the start of a token. -/
def fail {α : Type} (fault : Fault) (t : Token) : Parse α :=
  throw (.malformed ⟨fault, t.start⟩)

def unexpected {α : Type} (t : Token) : Parse α :=
  match t.lexeme with
  | .eof => fail .unexpectedEnd t
  | .newline => fail .unexpectedNewline t
  | _ => fail (.unexpectedToken t.text) t

/-- Reads one more token and puts it behind those read ahead. -/
def readAhead : Parse Token := fun p =>
  match p.scanner.next limits with
  | (.ok t, s) => .ok t { p with scanner := s, ahead := p.ahead ++ [t] }
  | (.error e, s) => .error (.malformed e) { p with scanner := s }

/-- Reads `n + 1` more tokens, of which the last is returned. -/
def readFurther : Nat → Parse Token
  | 0 => readAhead limits
  | n + 1 => do
    discard (readAhead limits)
    readFurther n

/-- The token `n` places ahead. -/
def peek (n : Nat) : Parse Token := fun p =>
  match p.ahead[n]? with
  | some t => .ok t p
  | none => readFurther limits (n - p.ahead.length) p

/-- Takes a token off. -/
def advance : Parse Token := do
  let t ← peek limits 0
  match (← get).ahead with
  | [] => fail (.missing .token) t
  | _ :: ahead =>
    modify fun p => { p with ahead, last := if t.isSeparator then p.last else t.stop }
    return t

def check (k : Kind) : Parse Bool :=
  return (← peek limits 0).kind == k

/-- Takes a token off if it is of one of the kinds. -/
def accept : List Kind → Parse (Option Token)
  | [] => return none
  | k :: ks => do
    if ← check limits k then some <$> advance limits else accept ks

/-- Counts a round of a loop. -/
def countRound : Parse Unit := do
  modify fun p => { p with iterations := p.iterations + 1 }
  if limits.iterations < (← get).iterations then
    fail (.tooManyIterations limits.iterations) (← peek limits 0)

/-- Repeats a step for at most `n` rounds, until it gives a result. -/
def repeatUpTo {α β : Type} (step : α → Parse (α ⊕ β)) : Nat → α → Parse β
  | 0, _ => throw (.malformed ⟨.tooManyIterations limits.iterations, .start⟩)
  | n + 1, a => do
    match ← step a with
    | .inl a => repeatUpTo step n a
    | .inr b => return b

/-- Repeats a step until it gives a result. A step that goes on has counted a round, so the number
of rounds that may still be counted bounds the loop. -/
def loop {α β : Type} (step : α → Parse (α ⊕ β)) (a : α) : Parse β := fun p =>
  repeatUpTo limits step ((limits.iterations - p.iterations).toNat + 1) a p

end Parse

end EnvScript
