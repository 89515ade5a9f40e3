import EnvScript.Word

/-!
# Commands

The tree of a script. A command that is never evaluated, a compound command or the body of a
function, is recorded by its kind alone.
-/

namespace EnvScript

inductive CompoundKind where
  | braceGroup
  | ifClause
  | whileLoop
  | untilLoop
  | forLoop
  | selectLoop
  | caseClause
  | conditional
  | subshell
  | arithmetic
  deriving DecidableEq, Repr

namespace CompoundKind

def name : CompoundKind → String
  | .braceGroup => "brace-group"
  | .ifClause => "if"
  | .whileLoop => "while"
  | .untilLoop => "until"
  | .forLoop => "for"
  | .selectLoop => "select"
  | .caseClause => "case"
  | .conditional => "conditional"
  | .subshell => "subshell"
  | .arithmetic => "arithmetic"

/-- The word or parenthesis that ends a compound command of this kind. -/
def closer : CompoundKind → Text
  | .braceGroup => ['}']
  | .ifClause => "fi".toList
  | .whileLoop | .untilLoop | .forLoop | .selectLoop => "done".toList
  | .caseClause => "esac".toList
  | .conditional => [']', ']']
  | .subshell | .arithmetic => [')']

/-- The reserved words that begin a compound command. -/
def openers : List (Text × CompoundKind) :=
  [(['{'], .braceGroup), ("if".toList, .ifClause), ("while".toList, .whileLoop),
    ("until".toList, .untilLoop), ("for".toList, .forLoop), ("select".toList, .selectLoop),
    ("case".toList, .caseClause), (['[', '['], .conditional)]

def ofOpener? (word : Text) : Option CompoundKind := openers.lookup word

end CompoundKind

inductive Redirect where
  | input
  | output
  | append
  | hereDoc
  | hereDocIndented
  | dupInput
  | dupOutput
  | readWrite
  | clobber
  | outputAll
  deriving DecidableEq, Repr

def Redirect.text : Redirect → Text
  | .input => ['<']
  | .output => ['>']
  | .append => ['>', '>']
  | .hereDoc => ['<', '<']
  | .hereDocIndented => ['<', '<', '-']
  | .dupInput => ['<', '&']
  | .dupOutput => ['>', '&']
  | .readWrite => ['<', '>']
  | .clobber => ['>', '|']
  | .outputAll => ['&', '>']

structure Redirection where
  operator : Redirect
  target : Word
  /-- The file descriptor written before the operator. -/
  descriptor : Option Nat

/-- What may stand before the first word of a simple command. -/
inductive Binding where
  | assign (name : Text) (value : Option Word)
  | redirect (r : Redirection)

def Binding.isRedirect : Binding → Bool
  | .redirect _ => true
  | .assign .. => false

/-- What may stand from the first word on. -/
inductive Argument where
  | word (w : Word)
  | redirect (r : Redirection)

inductive Command where
  | simple (bindings : List Binding) (arguments : List Argument)
  | compound (kind : CompoundKind)
  | function (name : Text) (body : CompoundKind)

structure Pipeline where
  commands : List Command
  negated : Bool

/-- A pipeline proper: more than one command, or one whose status is inverted. -/
def Pipeline.isPipe (p : Pipeline) : Bool := p.negated || p.commands.length != 1

inductive Connective where
  | and
  | or
  deriving DecidableEq, Repr

def Connective.text : Connective → Text
  | .and => ['&', '&']
  | .or => ['|', '|']

/-- A list of pipelines. `connectives` has the operator between each and the next. -/
structure Statement where
  pipelines : List Pipeline
  connectives : List Connective
  /-- Ended by `&`. -/
  background : Bool

end EnvScript
