import EnvScript.Command
import EnvScript.Position

/-!
# Tokens

The units of a script: words, operators, newlines and the number before a redirection. Each token
keeps the text it was read from and the positions of its two ends.
-/

namespace EnvScript

inductive Operator where
  | connective (c : Connective)
  | doubleSemi
  | semi
  | amp
  | pipe
  | leftParen
  | rightParen
  | redirect (r : Redirect)
  deriving DecidableEq, Repr

namespace Operator

def text : Operator → Text
  | .connective c => c.text
  | .doubleSemi => [';', ';']
  | .semi => [';']
  | .amp => ['&']
  | .pipe => ['|']
  | .leftParen => ['(']
  | .rightParen => [')']
  | .redirect r => r.text

/-- Every operator, one that begins another after it. -/
def longestFirst : List Operator :=
  [.redirect .hereDocIndented, .connective .and, .connective .or, .doubleSemi, .redirect .hereDoc,
    .redirect .append, .redirect .dupInput, .redirect .dupOutput, .redirect .readWrite,
    .redirect .clobber, .redirect .outputAll, .pipe, .amp, .semi, .redirect .input,
    .redirect .output, .leftParen, .rightParen]

/-- The longest operator that `t` starts with. -/
def leading? (t : Text) : Option Operator := longestFirst.find? (·.text.isPrefixOf t)

theorem mem_longestFirst (o : Operator) : o ∈ longestFirst := by
  rcases o with c | _ | _ | _ | _ | _ | _ | r
  · cases c <;> decide
  all_goals first | decide | (cases r <;> decide)

end Operator

inductive Kind where
  | word
  | ioNumber
  | newline
  | bang
  | operator (o : Operator)
  | eof
  deriving DecidableEq, Repr

/-- What a token says beside its text. -/
inductive Lexeme where
  | word (w : Word)
  | ioNumber
  | newline
  | bang
  | operator (o : Operator)
  | eof

def Lexeme.kind : Lexeme → Kind
  | .word _ => .word
  | .ioNumber => .ioNumber
  | .newline => .newline
  | .bang => .bang
  | .operator o => .operator o
  | .eof => .eof

structure Token where
  lexeme : Lexeme
  text : Text
  start : Position
  /-- The position after the last character. -/
  stop : Position

namespace Token

def kind (t : Token) : Kind := t.lexeme.kind

def eof (p : Position) : Token := ⟨.eof, [], p, p⟩

/-- Newlines, `;`, `&` and the end, which stand between statements. -/
def isSeparator (t : Token) : Bool :=
  match t.lexeme with
  | .newline | .operator .semi | .operator .amp | .eof => true
  | _ => false

end Token

end EnvScript
