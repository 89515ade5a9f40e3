import EnvScript.Glob.Reader
import EnvScript.Limits

/-!
# Matching

A pattern compiles to steps, in which the members of a bracket expression are single characters and
ranges. After a member, a bare hyphen that is not the last character makes a range with the member
behind it, and a range must not be reversed. Steps match a text from its start, every `*` taking as
many characters as the steps after it allow.
-/

namespace EnvScript

inductive Member where
  | single (c : Char)
  | range (low high : Char)
  deriving DecidableEq, Repr

def Member.contains (x : Char) : Member → Bool
  | .single c => x == c
  | .range low high => low ≤ x && x ≤ high

inductive Step where
  | run
  | any
  | exactly (c : Char)
  | oneOf (negated : Bool) (members : List Member)
  deriving DecidableEq, Repr

abbrev Steps := List Step

/-- The members that atoms make, the first of which stands at `index` of the regular expression
`regex`. -/
def membersOf (regex : Text) (index : Nat) : List Atom → Except ReversedRange (List Member)
  | [] => .ok []
  | a :: .bare '-' :: b :: rest =>
    let stop := index + a.text.length + 1 + b.text.length
    if b.char < a.char then
      let start := stop - (a.shown.length + 1 + b.shown.length)
      .error ⟨a.shown, b.shown, start,
        if regex.contains '\n' then some (Position.start.after (regex.take start)) else none⟩
    else (membersOf regex stop rest).map (.range a.char b.char :: ·)
  | a :: rest => (membersOf regex (index + a.text.length) rest).map (.single a.char :: ·)

/-- The steps of items, the first of which stands at `index` of the regular expression `regex`. -/
def stepsOf (regex : Text) (index : Nat) : Glob → Except ReversedRange Steps
  | [] => .ok []
  | item :: rest => do
    let step ← match item with
      | .run => .ok Step.run
      | .any => .ok .any
      | .exactly c => .ok (.exactly c)
      | .bracket negated members =>
        (membersOf regex (index + (bracketHead negated).length) members).map (.oneOf negated)
    return step :: (← stepsOf regex (index + item.regex.length) rest)

/-- Compiles a pattern whose regular expression has at most `limit` characters. -/
def compilePattern (limit : Int) (pattern : Text) : Except EvalError Steps := do
  let glob ← Glob.ofPattern pattern
  let regex := glob.regex
  if limit < regex.length then throw .patternTooBig
  else (stepsOf regex 0 glob).mapError .reversedRange

/-- A step other than a run takes this character. -/
def Step.accepts (x : Char) : Step → Bool
  | .run => false
  | .any => true
  | .exactly c => x == c
  | .oneOf negated members => members.any (·.contains x) != negated

/-- The length of the longest run after which `next` succeeds, with what `next` takes. -/
def greedy (next : Text → Option Nat) : Text → Option Nat
  | [] => next []
  | c :: t =>
    match greedy next t with
    | some n => some (n + 1)
    | none => next (c :: t)

/-- How many characters of a text the steps take from its start, if they match there. -/
def matchLength : Steps → Text → Option Nat
  | [], _ => some 0
  | .run :: rest, t => greedy (matchLength rest) t
  | step :: rest, c :: t => if step.accepts c then (matchLength rest t).map (· + 1) else none
  | _ :: _, [] => none

/-- For every start in a text, the end of the match there. -/
def matchEnds (steps : Steps) (start : Nat) : Text → List (Option Nat)
  | [] => [(matchLength steps []).map (start + ·)]
  | c :: t =>
    (matchLength steps (c :: t)).map (start + ·) :: matchEnds steps (start + 1) t

end EnvScript
