import EnvScript.Command.Parser

/-!
# Properties of every part of the grammar

`Closed` is what a property of computations needs to hold of every part of the grammar: the steps on
tokens have it, and what is put together from computations that have it has it too. Looking further
ahead than the next token is left out of it, since only `startsFunction` does so; the parts that use
it take its share as a hypothesis.
-/

namespace EnvScript

namespace Parse

/-- A redirection among the entries of a simple command, in front of its first word or behind. -/
def redirectionEntry (limits : Limits) (bindings : List Binding) (arguments : List Argument) :
    Parse ((List Binding × List Argument) ⊕ Command) := do
  let r ← redirection limits
  if arguments.isEmpty then return .inl (.redirect r :: bindings, [])
  else return .inl (bindings, .redirect r :: arguments)

/-- The property holds of the steps on tokens, and of what is made of computations it holds of. -/
structure Closed (limits : Limits) (P : {α : Type} → Parse α → Prop) : Prop where
  pure {α : Type} (a : α) : P (Pure.pure a : Parse α)
  throw {α : Type} (e : ReadError) : P (MonadExcept.throw e : Parse α)
  bind {α β : Type} {m : Parse α} {f : α → Parse β} (hm : P m) (hf : ∀ a, P (f a)) : P (m >>= f)
  loop {α β : Type} {step : α → Parse (α ⊕ β)} (hstep : ∀ a, P (step a)) (a : α) :
    P (loop limits step a)
  next : P (peek limits 0)
  advance : P (advance limits)
  countRound : P (countRound limits)

namespace Closed

variable {limits : Limits} {P : {α : Type} → Parse α → Prop} {α β : Type} {m : Parse α}

/-! ## Steps on tokens -/

theorem map (h : Closed limits P) (g : α → β) (hm : P m) : P (g <$> m) := by
  show P (m >>= fun a => Pure.pure (g a))
  exact h.bind hm fun _ => h.pure _

theorem discard (h : Closed limits P) (hm : P m) : P (discard m) := by
  show P (m >>= fun _ => Pure.pure ())
  exact h.bind hm fun _ => h.pure _

theorem fail (h : Closed limits P) (fault : Fault) (t : Token) : P (fail fault t : Parse α) :=
  h.throw _

theorem unexpected (h : Closed limits P) (t : Token) : P (unexpected t : Parse α) := by
  unfold Parse.unexpected
  split <;> exact h.fail _ t

theorem check (h : Closed limits P) (k : Kind) : P (check limits k) :=
  h.bind h.next fun _ => h.pure _

theorem accept (h : Closed limits P) (kinds : List Kind) : P (accept limits kinds) := by
  induction kinds with
  | nil => exact h.pure _
  | cons k ks ih =>
    refine h.bind (h.check k) fun found => ?_
    split
    · exact h.map some h.advance
    · exact ih

theorem skipNewlines (h : Closed limits P) : P (skipNewlines limits) := by
  refine h.loop (fun _ => h.bind (h.accept _) fun newline => ?_) ()
  split
  · exact h.bind h.countRound fun _ => h.pure _
  · exact h.pure _

/-! ## Commands -/

theorem redirection (h : Closed limits P) : P (redirection limits) := by
  refine h.bind (h.accept _) fun number => h.bind ?_ fun descriptor => ?_
  · unfold descriptor?
    split
    · exact h.pure _
    · split
      · exact h.pure _
      · exact h.throw _
  · refine h.bind h.advance fun operator => ?_
    split
    · refine h.bind h.next fun t => ?_
      split
      · exact h.bind (h.discard h.advance) fun _ => h.pure _
      · exact h.fail _ t
    · exact h.unexpected operator

theorem redirectionEntry (h : Closed limits P) (bindings : List Binding)
    (arguments : List Argument) : P (redirectionEntry limits bindings arguments) := by
  refine h.bind h.redirection fun r => ?_
  split <;> exact h.pure _

theorem simpleStep (h : Closed limits P) (entries : List Binding × List Argument) :
    P (simpleStep limits entries) := by
  obtain ⟨bindings, arguments⟩ := entries
  refine h.bind h.countRound fun _ => h.bind h.next fun t => ?_
  split
  · exact h.redirectionEntry bindings arguments
  · exact h.redirectionEntry bindings arguments
  · refine h.bind (h.discard h.advance) fun _ => ?_
    split
    · exact h.pure _
    · refine h.bind h.next fun following => ?_
      split
      · exact h.fail _ following
      · exact h.pure _
  · exact h.pure _

theorem simpleCommand (h : Closed limits P) : P (simpleCommand limits) := by
  refine h.bind (h.loop h.simpleStep _) fun command => h.bind h.next fun t => ?_
  split
  · exact h.unexpected t
  · exact h.pure _

theorem compound (h : Closed limits P) : P (compound limits) := by
  refine h.bind h.advance fun opener => h.bind ?_ fun kind => h.loop (fun state => ?_) _
  · unfold compoundKind
    split
    · refine h.bind (h.check _) fun doubled => ?_
      split <;> exact h.pure _
    · split
      · exact h.pure _
      · exact h.fail _ opener
  · obtain ⟨_ | ⟨closer, closers⟩, commandStart⟩ := state
    · exact h.pure _
    · refine h.bind h.countRound fun _ => h.bind h.advance fun t => ?_
      split
      · exact h.fail _ t
      · split
        · exact h.pure _
        · exact h.fail _ t

theorem functionName (h : Closed limits P) : P (functionName limits) := by
  refine h.bind h.next fun t => ?_
  split
  · refine h.bind (h.discard h.advance) fun _ => h.bind h.next fun name => ?_
    split
    · refine h.bind (h.discard h.advance) fun _ => h.bind (h.accept _) fun left => ?_
      split
      · refine h.bind (h.accept _) fun right => ?_
        split
        · exact h.bind h.next fun u => h.bind (h.fail _ u) fun _ => h.pure _
        · exact h.pure _
      · exact h.pure _
    · exact h.fail _ name
  · exact h.bind h.advance fun _ => h.bind (h.discard h.advance) fun _ =>
      h.bind (h.discard h.advance) fun _ => h.pure _

/-- What follows the name of a function. -/
theorem functionBody (h : Closed limits P) (name : Text) : P (do
    Parse.skipNewlines limits
    let t ← peek limits 0
    if startsCompound t then return Command.function name (← Parse.compound limits)
    else Parse.fail (.missingFunctionBody name) t) := by
  refine h.bind h.skipNewlines fun _ => h.bind h.next fun t => ?_
  split
  · exact h.bind h.compound fun _ => h.pure _
  · exact h.fail _ t

theorem functionDefinition (h : Closed limits P) : P (functionDefinition limits) :=
  h.bind h.functionName h.functionBody

theorem startsFunction (h : Closed limits P) (hpeek : ∀ n, P (peek limits n)) (t : Token) :
    P (startsFunction limits t) := by
  refine h.bind (hpeek 1) fun left => ?_
  split
  · refine h.bind (hpeek 2) fun right => ?_
    split <;> exact h.pure _
  · exact h.pure _

theorem command (h : Closed limits P) (hpeek : ∀ n, P (peek limits n)) : P (command limits) := by
  refine h.bind h.countRound fun _ => h.bind h.next fun t => ?_
  split
  · exact h.bind h.compound fun _ => h.pure _
  · split
    · split
      · exact h.functionDefinition
      · refine h.bind (h.startsFunction hpeek t) fun isFunction => ?_
        split
        · exact h.functionDefinition
        · exact h.simpleCommand
    · exact h.simpleCommand
    · exact h.simpleCommand
    · exact h.unexpected t

/-! ## Pipelines and lists -/

theorem pipeline (h : Closed limits P) (hcommand : P (Parse.command limits)) :
    P (pipeline limits) := by
  refine h.bind (h.accept _) fun bang => h.bind hcommand fun first => h.loop (fun commands => ?_) _
  refine h.bind (h.accept _) fun pipe => ?_
  split
  · exact h.bind h.skipNewlines fun _ => h.bind hcommand fun _ => h.pure _
  · exact h.pure _

theorem list (h : Closed limits P) (hcommand : P (Parse.command limits)) : P (list limits) := by
  refine h.bind (h.pipeline hcommand) fun first => h.loop (fun state => ?_) _
  obtain ⟨pipelines, connectives⟩ := state
  refine h.bind (h.accept _) fun connective => ?_
  split
  · exact h.bind h.skipNewlines fun _ => h.bind (h.pipeline hcommand) fun _ => h.pure _
  · exact h.pure _

theorem statement? (h : Closed limits P) (hcommand : P (Parse.command limits)) :
    P (statement? limits) := by
  refine h.bind h.skipNewlines fun _ => h.bind (h.check _) fun atEnd => ?_
  split
  · exact h.pure _
  · refine h.bind (h.list hcommand) fun s => h.bind (h.accept _) fun amp => ?_
    split
    · exact h.pure _
    · refine h.bind (h.accept _) fun separator => ?_
      split
      · exact h.pure _
      · refine h.bind (h.check _) fun atEnd => ?_
        split
        · exact h.pure _
        · exact h.bind h.next fun t => h.unexpected t

theorem statements (h : Closed limits P) (hcommand : P (Parse.command limits)) :
    P (statements limits) := by
  refine h.loop (fun done => h.bind (h.statement? hcommand) fun s => ?_) _
  split <;> exact h.pure _

end Closed

end Parse

end EnvScript
