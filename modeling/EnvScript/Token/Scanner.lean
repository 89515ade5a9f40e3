import EnvScript.Limits
import EnvScript.Token
import EnvScript.Word.Reader

/-!
# Scanning

A scanner hands out the tokens of a script one at a time. It can be asked again after an error, and
then goes on from where the error left it, and it repeats the end token at the end of the script.
-/

namespace EnvScript

structure Scanner where
  cursor : Cursor
  /-- Constructs that an error left open. -/
  depth : Nat
  /-- Tokens begun, the end token aside. -/
  count : Nat
  /-- Length of the script. -/
  size : Nat

namespace Scanner

def ofText (t : Text) : Scanner := ⟨.ofText t, 0, 0, t.length⟩

/-- The number of digits before `<` or `>`, if `t` starts with such a number. -/
def ioNumberLength? (t : Text) : Option Nat :=
  match t.takeWhile Char.isDigit, t.dropWhile Char.isDigit with
  | _ :: ds, c :: _ => if c = '<' ∨ c = '>' then some (ds.length + 1) else none
  | _, _ => none

/-- A `!` is an operator only in front of a blank, a newline or the end. -/
def startsBang : Text → Bool
  | '!' :: t => t.isEmpty || " \t\n".toList.any (t.head? == some ·)
  | _ => false

/-- The token other than a word that `t` starts with, and its length. -/
def leadingLexeme? (t : Text) : Option (Lexeme × Nat) :=
  if t.head? = some '\n' then some (.newline, 1)
  else
    match Operator.leading? t with
    | some o => some (.operator o, o.text.length)
    | none =>
      if startsBang t then some (.bang, 1)
      else (ioNumberLength? t).map fun n => (.ioNumber, n)

/-- Reads the token at the cursor, which stands before a character that is not blank. -/
def readToken (limits : Limits) (s : Scanner) : Except SyntaxError Token × Scanner :=
  let token (lexeme : Lexeme) (after : Cursor) : Token :=
    ⟨lexeme, s.cursor.rest.take (after.offset - s.cursor.offset), s.cursor.position,
      after.position⟩
  match leadingLexeme? s.cursor.rest with
  | some (lexeme, n) =>
    let after := s.cursor.advance n
    (.ok (token lexeme after), { s with cursor := after })
  | none =>
    match readWord limits.nesting s.depth {} s.cursor with
    | .ok (word, after) => (.ok (token (.word word) after), { s with cursor := after })
    | .error halt => (.error halt.error, { s with cursor := halt.cursor, depth := halt.depth })

/-- The next token of the script, and the scanner after it. -/
def next (limits : Limits) (s : Scanner) : Except SyntaxError Token × Scanner :=
  if limits.inputSize < s.size then
    (.error ⟨.inputTooLarge s.size limits.inputSize, .start⟩, s)
  else
    let s := { s with cursor := s.cursor.skipBlanks }
    if s.cursor.rest.isEmpty then (.ok (.eof s.cursor.position), s)
    else
      let s := { s with count := s.count + 1 }
      if limits.tokens < s.count then
        (.error ⟨.tooManyTokens limits.tokens, s.cursor.position⟩, s)
      else s.readToken limits

/-- The tokens that are left, at most `n` of them before the end token. -/
def tokensUpTo (limits : Limits) : Nat → Scanner → Except SyntaxError (List Token)
  | 0, s => s.next limits |>.1.map ([·])
  | n + 1, s =>
    match s.next limits with
    | (.error e, _) => .error e
    | (.ok token, s) =>
      if token.kind = .eof then .ok [token]
      else (s.tokensUpTo limits n).map (token :: ·)

end Scanner

/-- The tokens of a text, of which the last is the end token. -/
def tokenize (limits : Limits) (t : Text) : Except SyntaxError (List Token) :=
  (Scanner.ofText t).tokensUpTo limits t.length

end EnvScript
