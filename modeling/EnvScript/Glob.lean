import EnvScript.Text

/-!
# Glob patterns

The items of a wildcard pattern, and its regular expression. The members of a bracket expression
are kept as they are written there, because it is the written form that decides which of them make
a range.
-/

namespace EnvScript

/-- The characters that a regular expression escapes outside of brackets. -/
def isMeta (c : Char) : Bool := "()[]\x7b\x7d?*+-|^$\\.&~# \t\n\r\x0b\x0c".toList.contains c

/-- A character as it is written in a regular expression. -/
inductive Atom where
  | bare (c : Char)
  | escaped (c : Char)
  /-- A control character as a backslash and a letter. -/
  | control (letter c : Char)
  /-- A character as `\x` and two hexadecimal digits. -/
  | code (c : Char)
  deriving DecidableEq, Repr

namespace Atom

/-- The atom that stands for `c` wherever it is written. -/
def ofChar (c : Char) : Atom := if isMeta c then .escaped c else .bare c

def char : Atom → Char
  | .bare c | .escaped c | .control _ c | .code c => c

def text : Atom → Text
  | .bare c => [c]
  | .escaped c => ['\\', c]
  | .control letter _ => ['\\', letter]
  | .code c => ['\\', 'x', Nat.digitChar (c.toNat / 16), Nat.digitChar (c.toNat % 16)]

/-- The text by which an error names the atom. -/
def shown : Atom → Text
  | .code _ => ['\\', 'x']
  | a => a.text

end Atom

inductive Item where
  /-- Any run of characters, the empty one included. -/
  | run
  | any
  | exactly (c : Char)
  | bracket (negated : Bool) (members : List Atom)
  deriving DecidableEq, Repr

abbrev Glob := List Item

/-- What a bracket expression begins with. -/
def bracketHead (negated : Bool) : Text := if negated then ['[', '^'] else ['[']

def Item.regex : Item → Text
  | .run => ['.', '*']
  | .any => ['.']
  | .exactly c => (Atom.ofChar c).text
  | .bracket negated members => bracketHead negated ++ members.flatMap Atom.text ++ [']']

def Glob.regex (g : Glob) : Text := g.flatMap Item.regex

end EnvScript
