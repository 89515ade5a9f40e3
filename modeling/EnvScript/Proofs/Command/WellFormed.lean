import EnvScript.Proofs.Command.Accepted
import EnvScript.Proofs.Command.Head

/-!
# Well-formed trees

What holds of every statement that a parser returns, whatever state it begins in. The types of the
tree say part of it: what stands in front of the first word is an assignment or a redirection, and a
redirection has a target.
-/

namespace EnvScript

/-- The operators that redirect. -/
def redirectTexts : List Text :=
  ["<".toList, ">".toList, ">>".toList, "<<".toList, "<<-".toList, "<&".toList, ">&".toList,
    "<>".toList, ">|".toList, "&>".toList]

def Redirection.WellFormed (r : Redirection) : Prop := r.operator.text ∈ redirectTexts

/-- What is assigned to a name is missing or a word of at least one part. -/
def Binding.WellFormed : Binding → Prop
  | .assign name value => isName name = true ∧ value ≠ some []
  | .redirect r => r.WellFormed

def Argument.WellFormed : Argument → Prop
  | .word _ => True
  | .redirect r => r.WellFormed

def Argument.isWord : Argument → Bool
  | .word _ => true
  | .redirect _ => false

/-- A simple command is not empty, and a word is the first of its arguments. -/
def Command.WellFormed : Command → Prop
  | .simple bindings arguments =>
    (bindings ≠ [] ∨ arguments ≠ []) ∧ (∀ a ∈ arguments.head?, a.isWord = true) ∧
      (∀ b ∈ bindings, b.WellFormed) ∧ ∀ a ∈ arguments, a.WellFormed
  | .compound _ | .function .. => True

structure Pipeline.WellFormed (p : Pipeline) : Prop where
  commands_ne_nil : p.commands ≠ []
  commands : ∀ c ∈ p.commands, c.WellFormed

/-- A list has one connective between each pipeline and the next. -/
structure Statement.WellFormed (s : Statement) : Prop where
  pipelines_ne_nil : s.pipelines ≠ []
  length_connectives : s.connectives.length + 1 = s.pipelines.length
  connectives : ∀ c ∈ s.connectives, c.text = "&&".toList ∨ c.text = "||".toList
  pipelines : ∀ p ∈ s.pipelines, p.WellFormed

theorem wellFormed_redirection (r : Redirection) : r.WellFormed := by
  have htext : ∀ operator : Redirect, operator.text ∈ redirectTexts := by
    intro operator
    cases operator <;> decide
  exact htext r.operator

theorem Connective.text_eq (c : Connective) : c.text = "&&".toList ∨ c.text = "||".toList := by
  cases c <;> decide

theorem Word.wellFormed_of_assignment? {w : Word} {name : Text} {value : Option Word}
    (h : w.assignment? = some (name, value)) : (Binding.assign name value).WellFormed := by
  constructor
  · obtain ⟨text, parts, rest, -, hsplit⟩ := exists_split_of_assignment? h
    exact isName_of_splitAssignment hsplit
  · unfold assignment? at h
    split at h
    · split at h <;> simp at h <;> simp [← h.2]
    · exact absurd h (by simp)

namespace Parse

variable {limits : Limits} {p : Parser} {t : Token}

/-! ## Simple commands -/

/-- The entries of a simple command so far, the latest first. As long as there are none, the next
token begins one. -/
structure EntriesWellFormed (entries : List Binding × List Argument) (p : Parser) : Prop where
  bindings : ∀ b ∈ entries.1, b.WellFormed
  arguments : ∀ a ∈ entries.2, a.WellFormed
  first : ∀ a ∈ entries.2.getLast?, a.isWord = true
  next : entries = ([], []) → ∃ t, p.ahead.head? = some t ∧ t.startsEntry = true

section

variable {bindings : List Binding} {arguments : List Argument} {q : Parser}

/-- Another entry goes to the bindings as long as there is no argument. -/
theorem EntriesWellFormed.binding {b : Binding} (h : EntriesWellFormed (bindings, arguments) p)
    (hb : b.WellFormed) : EntriesWellFormed (b :: bindings, []) q :=
  ⟨List.forall_mem_cons.mpr ⟨hb, h.bindings⟩, by simp, by simp, fun h => by simp at h⟩

theorem EntriesWellFormed.argument {a : Argument} (h : EntriesWellFormed (bindings, arguments) p)
    (ha : a.WellFormed) (hword : arguments = [] → a.isWord = true) :
    EntriesWellFormed (bindings, a :: arguments) q := by
  refine ⟨h.bindings, List.forall_mem_cons.mpr ⟨ha, h.arguments⟩, ?_, fun h => by simp at h⟩
  cases arguments with
  | nil => simpa using hword rfl
  | cons a' arguments => simpa using h.first

theorem EntriesWellFormed.simple (h : EntriesWellFormed (bindings, arguments) p)
    (hne : bindings ≠ [] ∨ arguments ≠ []) :
    (Command.simple bindings.reverse arguments.reverse).WellFormed := by
  refine ⟨by simpa using hne, ?_, by simpa using h.bindings, by simpa using h.arguments⟩
  rw [List.head?_reverse]
  exact h.first

/-- What a step on the entries comes to: another entry, or a command. -/
def StepWellFormed (r : (List Binding × List Argument) ⊕ Command) (p : Parser) : Prop :=
  r.elim (fun entries => EntriesWellFormed entries p) Command.WellFormed

theorem returns_redirectionEntry (h : EntriesWellFormed (bindings, arguments) p) :
    Returns (redirectionEntry limits bindings arguments) q StepWellFormed := by
  refine returns_bind fun r q' => ?_
  split
  · exact ends_pure (h.binding (wellFormed_redirection r))
  · rename_i hempty
    refine ends_pure (h.argument (wellFormed_redirection r) fun hnil => ?_)
    exact absurd (List.isEmpty_iff.mpr hnil) hempty

theorem returns_simpleStep (h : EntriesWellFormed (bindings, arguments) p) :
    Returns (simpleStep limits (bindings, arguments)) p StepWellFormed := by
  refine Ends.bind reads_countRound ?_
  rintro _ p₁ ⟨_, htook₁, rfl⟩
  refine Ends.bind (reads_peek 0) ?_
  rintro t p₂ ⟨_, htook₂, rfl, ht⟩
  split
  · exact returns_redirectionEntry h
  · exact returns_redirectionEntry h
  · refine returns_bind fun _ p₃ => ?_
    split
    · exact ends_pure (h.argument trivial fun _ => rfl)
    · rename_i name value hassign
      have hassign := (Option.ite_none_right_eq_some.mp hassign).2
      refine returns_bind fun following p₄ => ?_
      split
      · exact ends_throw trivial
      · exact ends_pure (h.binding (Word.wellFormed_of_assignment? hassign))
  · rename_i hnumber hredirect hword
    refine ends_pure (h.simple ?_)
    -- Without an entry the next token would still be one that begins an entry.
    by_contra hnone
    obtain ⟨hbindings, harguments⟩ := not_or.mp hnone
    obtain ⟨u, hu, hentry⟩ := h.next
      (Prod.ext (not_not.mp hbindings) (not_not.mp harguments))
    have hhead := (htook₁.trans htook₂).head_of_nil hu
    rw [List.head?_eq_getElem?, ht] at hhead
    obtain rfl := Option.some.inj hhead
    rw [Token.startsEntry_of_lexeme hword hnumber hredirect] at hentry
    exact absurd hentry (by decide)

end

theorem returns_simpleCommand (ht : p.ahead[0]? = some t) (hentry : t.startsEntry = true) :
    Returns (simpleCommand limits) p fun c _ => c.WellFormed := by
  refine Ends.bind (Q := fun c _ => c.WellFormed) ?_ ?_
  · refine ends_loop EntriesWellFormed (fun _ => trivial) ?_ ?_
    -- There is no entry yet, but the token that the command begins with is one.
    · exact ⟨by simp, by simp, by simp, fun _ => ⟨t, List.head?_eq_getElem? ▸ ht, hentry⟩⟩
    · rintro ⟨bindings, arguments⟩ p₁ h
      exact returns_simpleStep h
  · intro c p₁ hc
    refine returns_bind fun u p₂ => ?_
    split
    · exact returns_unexpected
    · exact ends_pure hc

/-! ## Commands, pipelines and lists -/

theorem returns_functionDefinition :
    Returns (functionDefinition limits) p fun c _ => c.WellFormed := by
  refine returns_bind fun name p₁ => returns_bind fun _ p₂ => returns_bind fun u p₃ => ?_
  split
  · exact returns_bind fun kind p₄ => ends_pure trivial
  · exact ends_throw trivial

theorem returns_command : Returns (command limits) p fun c _ => c.WellFormed := by
  refine returns_bind fun _ p₁ => Ends.bind (reads_peek 0) ?_
  rintro t p₂ ⟨_, -, rfl, ht⟩
  split
  · exact returns_bind fun kind p₃ => ends_pure trivial
  · split
    · rename_i w hw
      have hentry : t.startsEntry = true := by rw [Token.startsEntry, hw]
      split
      · exact returns_functionDefinition
      · refine Ends.bind reads_startsFunction ?_
        rintro isFunction p₃ ⟨_, htook, rfl⟩
        have ht₃ : p₃.ahead[0]? = some t := by
          rw [← List.head?_eq_getElem?] at ht ⊢
          exact htook.head_of_nil ht
        split
        · exact returns_functionDefinition
        · exact returns_simpleCommand ht₃ hentry
    · rename_i hnumber
      exact returns_simpleCommand ht (by rw [Token.startsEntry, hnumber])
    · rename_i r hr
      exact returns_simpleCommand ht (by rw [Token.startsEntry, hr])
    · exact returns_unexpected

theorem returns_pipeline : Returns (pipeline limits) p fun q _ => q.WellFormed := by
  refine returns_bind fun bang p₁ => Ends.bind returns_command fun first p₂ hfirst => ?_
  refine ends_loop (fun commands _ => commands ≠ [] ∧ ∀ c ∈ commands, c.WellFormed)
    (fun _ => trivial) ⟨by simp, by simpa using hfirst⟩ ?_
  rintro commands p₃ ⟨hne, hcommands⟩
  refine returns_bind fun pipe p₄ => ?_
  cases pipe with
  | none => exact ends_pure ⟨by simpa using hne, by simpa using hcommands⟩
  | some t =>
    refine returns_bind fun _ p₅ => Ends.bind returns_command fun c p₆ hc => ends_pure ?_
    exact ⟨List.cons_ne_nil _ _, List.forall_mem_cons.mpr ⟨hc, hcommands⟩⟩

theorem returns_list : Returns (list limits) p fun s _ => s.WellFormed := by
  refine Ends.bind returns_pipeline fun first p₁ hfirst => ?_
  refine ends_loop (fun rows _ => rows.2.length + 1 = rows.1.length ∧ ∀ q ∈ rows.1, q.WellFormed)
    (fun _ => trivial) ⟨rfl, by simpa using hfirst⟩ ?_
  rintro ⟨pipelines, connectives⟩ p₂ ⟨hlength, hpipelines⟩
  refine returns_bind fun connective p₃ => ?_
  cases connective with
  | none =>
    refine ends_pure ⟨?_, by simpa using hlength, fun c _ => c.text_eq, by simpa using hpipelines⟩
    -- The count of connectives leaves one pipeline at least.
    rintro hnil
    rw [List.reverse_eq_nil_iff.mp hnil] at hlength
    exact absurd hlength (by simp)
  | some t =>
    refine returns_bind fun _ p₄ => Ends.bind returns_pipeline fun q p₅ hq => ends_pure ?_
    exact ⟨congrArg (· + 1) hlength, List.forall_mem_cons.mpr ⟨hq, hpipelines⟩⟩

/-- Every statement that is read is well formed, down to its redirections and assignments. -/
theorem wellFormed_of_read {p' : Parser} {s : Statement}
    (h : statement? limits p = .ok (some s) p') : s.WellFormed := by
  have hreturns : Returns (statement? limits) p fun r _ => ∀ s ∈ r, s.WellFormed := by
    refine returns_bind fun _ p₁ => returns_bind fun atEnd p₂ => ?_
    split
    · exact ends_pure (by simp)
    · refine Ends.bind returns_list fun s p₃ hs => returns_bind fun amp p₄ => ?_
      split
      -- To run in the background changes nothing of the list.
      · exact ends_pure (by simpa using ⟨hs.1, hs.2, hs.3, hs.4⟩)
      · refine returns_bind fun separator p₅ => ?_
        split
        · exact ends_pure (by simpa using hs)
        · refine returns_bind fun atEnd p₆ => ?_
          split
          · exact ends_pure (by simpa using hs)
          · exact returns_bind fun t p₇ => returns_unexpected
  exact hreturns.ok h s rfl

/-- The descriptor and the texts of a statement with the shape of `2>a A=1 b >c && ! B= | d &`. -/
private def textsOfShape? : Statement → Option (Nat × List Text)
  | ⟨[⟨[.simple [.redirect ⟨.output, [.literal a], some n⟩, .assign name (some [.literal value])]
          [.word [.literal b], .redirect ⟨.output, [.literal c], none⟩]], false⟩,
      ⟨[.simple [.assign name' none] [], .simple [] [.word [.literal d]]], true⟩], [.and], true⟩ =>
    some (n, [a, name, value, b, c, name', d])
  | _ => none

/-- Two pipelines, redirections around an assignment and a word, a negation and a `&`. -/
theorem wellFormed_of_redirected_commands : ∃ s p',
    s = ⟨[⟨[.simple [.redirect ⟨.output, [.literal ['a']], some 2⟩,
              .assign ['A'] (some [.literal ['1']])]
            [.word [.literal ['b']], .redirect ⟨.output, [.literal ['c']], none⟩]], false⟩,
          ⟨[.simple [.assign ['B'] none] [], .simple [] [.word [.literal ['d']]]], true⟩],
        [.and], true⟩ ∧
      statement? {} (.ofText "2>a A=1 b >c && ! B= | d &".toList) = .ok (some s) p' ∧
      s.WellFormed := by
  have hread : (outcome (statement? {}) (.ofText "2>a A=1 b >c && ! B= | d &".toList)).map
      (·.bind textsOfShape?) =
        .ok (some (2, [['a'], ['A'], ['1'], ['b'], ['c'], ['B'], ['d']])) := by decide +kernel
  obtain ⟨r, hr, htexts⟩ := exceptMap_eq_ok hread
  obtain ⟨s, rfl, hs⟩ := Option.bind_eq_some_iff.mp htexts
  obtain ⟨p', h⟩ := exists_of_outcome hr
  refine ⟨s, p', ?_, h, wellFormed_of_read h⟩
  unfold textsOfShape? at hs
  split at hs
  · simpa [and_assoc, and_left_comm] using hs
  · exact absurd hs (by simp)

end Parse

end EnvScript
