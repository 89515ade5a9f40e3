import EnvScript.Proofs.Command.Lockstep
import EnvScript.Proofs.Expansion.Errors
import EnvScript.Proofs.Script.Run
import EnvScript.Proofs.Token.Nesting

/-!
# Errors without a category

A script that fails does so with an error of one of the categories, or because a numeral in it is
too long to be read: the number of a file descriptor, or the offset or length of a substring. No
other error is without a category, since no operation finds nothing. The scanner steps over no
character that is not there, a word is looked up as an opener only if it is one, and the innermost
of what is to be closed is asked for only while something is open.
-/

namespace EnvScript

variable {limits : Limits} {script : Text} {p p' : Parser} {ts : List Token} {e : ReadError}

/-- The scanner hands out the token somewhere in the script. -/
def Token.IsOf (limits : Limits) (script : Text) (t : Token) : Prop :=
  ∃ tokens s, Scanner.Yields limits (.ofText script) tokens s ∧ t ∈ tokens

/-- A descriptor in the script has more digits than can be read. -/
def HasOversizedDescriptor (limits : Limits) (script : Text) (n : OversizedNumeral) : Prop :=
  ∃ t : Token, t.IsOf limits script ∧ t.kind = .ioNumber ∧ t.text.length = n.digits ∧
    Numeral.maxDigits < n.digits

/-- The text is malformed, which nothing that has not been found is a case of, or it is a descriptor
that cannot be read. -/
def ReadError.Reports (limits : Limits) (script : Text) : ReadError → Prop
  | .malformed e => e.fault.isMissing = false
  | .oversizedNumeral n => HasOversizedDescriptor limits script n

/-- What a parser of the script has read ahead are tokens of the script. -/
structure Parser.Of (limits : Limits) (script : Text) (p : Parser) : Prop where
  yields : ∃ tokens, Scanner.Yields limits (.ofText script) tokens p.scanner
  ahead : ∀ t ∈ p.ahead, t.IsOf limits script

theorem Parser.Of.readAhead (h : p.Of limits script) :
    Coupled ⟨fun e e' => e' = e ∧ e.Reports limits script, fun _ => False,
        fun e => e.Reports limits script⟩
      (fun _ p' _ q' => q' = p' ∧ p'.Of limits script) (Parse.readAhead limits p)
      (Parse.readAhead limits p) := by
  obtain ⟨⟨tokens, htokens⟩, hahead⟩ := h
  unfold Parse.readAhead
  generalize hnext : p.scanner.next limits = r
  obtain ⟨e | t, s⟩ := r
  · exact .failed ⟨rfl, Scanner.isMissing_of_next_error hnext⟩
  · have hyields := htokens.append (.single hnext)
    refine .ok ⟨rfl, ⟨_, hyields⟩, fun u hu => ?_⟩
    rcases List.mem_append.mp hu with hu | hu
    · exact hahead u hu
    · exact ⟨_, s, hyields, List.mem_append_right tokens hu⟩

theorem Parser.Of.take (h : p.Of limits script) (t : Token) : (p.take t).Of limits script :=
  ⟨h.yields, fun u hu => h.ahead u (List.mem_of_mem_tail hu)⟩

-- Asked for a compound command in front of a word that opens none, the parser does find nothing.
example : Parse.outcome (Parse.compound {}) (.ofText ['a']) =
    .error (.malformed ⟨.missing (.opener ['a']), ⟨1, 1⟩⟩) := by
  with_unfolding_all rfl

end EnvScript
