import EnvScript.Cursor
import EnvScript.Word.Piece

/-!
# Reading words

`readWord` joins pieces into a word. Adjacent plain characters make one literal. What stands inside
of a double quote or of `${NAME…}` is collected on a stack of the constructs that are still open, so
the nesting depth at any time is the height of the stack over the depth at which the word began.
-/

namespace EnvScript

/-- The parts of an unfinished word, the latest first, and the literal text after them, the latest
character first. -/
structure Draft where
  parts : List Part := []
  text : Text := []

namespace Draft

def addText (d : Draft) (c : Char) : Draft := { d with text := c :: d.text }

/-- The parts with the literal text among them, the latest first. -/
def closed (d : Draft) : List Part :=
  match d.text with
  | [] => d.parts
  | c :: t => .literal (c :: t).reverse :: d.parts

def addPart (d : Draft) (p : Part) : Draft := ⟨p :: d.closed, []⟩

def word (d : Draft) : Word := d.closed.reverse

/-- A `~` stands for a home directory at the start of a word and after an unquoted `=` or `:`. -/
def allowsTilde : Draft → Bool
  | ⟨[], []⟩ | ⟨.colon :: _, []⟩ => true
  | ⟨_, c :: _⟩ => c == '='
  | _ => false

end Draft

/-- A construct that is still open, with where it began and what had been read before it. -/
structure Suspended where
  opening : Opening
  start : Position
  outer : Draft

/-- A word in the making: the innermost draft and the constructs it is inside of. -/
structure Assembly where
  draft : Draft := {}
  stack : List Suspended := []

namespace Assembly

def place (a : Assembly) : Place :=
  match a.stack with
  | [] => .word
  | s :: _ => s.opening.place

/-- Takes in a piece that begins at position `p`. -/
def add (a : Assembly) (p : Position) : Piece → Assembly
  | .plain c => { a with draft := a.draft.addText c }
  | .part part => { a with draft := a.draft.addPart part }
  | .opens o => ⟨{}, ⟨o, p, a.draft⟩ :: a.stack⟩
  | .closes =>
    match a.stack with
    | [] => a
    | s :: stack => ⟨s.outer.addPart (s.opening.close a.draft.word), stack⟩

end Assembly

/-- How the reading of a token ended in an error: where the cursor stood and how deep. -/
structure Halt where
  error : SyntaxError
  cursor : Cursor
  depth : Nat

/-- The error of a flawed piece at the cursor, `depth` levels deep. -/
def Halt.ofFlaw (c : Cursor) (depth : Nat) : Flaw → Halt
  | .unclosed construct =>
    ⟨⟨.unterminated construct, c.position⟩, c.advance c.rest.length, depth⟩
  | .misplaced fault taken =>
    ⟨⟨fault, (c.advance (taken + 1)).position⟩, c.advance (taken + 1), depth⟩

/-- Reads on from the cursor to the end of the word. At most `limit` levels may be open, `base` of
which are outside of this word. -/
def readWord (limit : Int) (base : Nat) (a : Assembly) (c : Cursor) :
    Except Halt (Word × Cursor) :=
  let depth := base + a.stack.length
  match _h : c.rest with
  | [] =>
    match a.stack with
    | [] => .ok (a.draft.word, c)
    | s :: _ => .error ⟨⟨.unterminated s.opening.construct, s.start⟩, c, depth⟩
  | x :: t =>
    if a.stack.isEmpty && isBreak x then .ok (a.draft.word, c)
    else
      let deeper := nests a.place x t
      if deeper && limit < depth + 1 then
        .error ⟨⟨.nestingTooDeep, c.position⟩, c, depth + 1⟩
      else
        match readPiece a.place a.draft.allowsTilde x t with
        | .ok (piece, n) => readWord limit base (a.add c.position piece) (c.advance (n + 1))
        | .error flaw => .error (.ofFlaw c (if deeper then depth + 1 else depth) flaw)
termination_by c.rest.length
decreasing_by
  rw [Cursor.rest_advance, _h, List.drop_succ_cons, List.length_drop, List.length_cons]
  omega

end EnvScript
