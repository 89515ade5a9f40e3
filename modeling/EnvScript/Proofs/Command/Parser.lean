import EnvScript.Proofs.Command.Closed
import EnvScript.Proofs.Command.Lookahead
import EnvScript.Proofs.Evaluation

/-!
# What a statement is read from

Each rule of the grammar with the tokens that it takes off. Where what has been read consists of
assignments alone, the tokens of a command are these assignments, one by one, and no token of the
statement is anything but an assignment, a newline or an operator between pipelines.
-/

namespace EnvScript

/-- The assignment that a token stands for, if it is a word that is one. -/
def Token.assignment? (t : Token) : Option Assignment :=
  match t.lexeme with
  | .word w => w.assignment?
  | _ => none

theorem Token.assignment?_of_lexeme {t : Token} {w : Word} (h : t.lexeme = .word w) :
    t.assignment? = w.assignment? := by
  rw [assignment?, h]

/-- An entry of a simple command starts with this token. -/
def Token.startsEntry (t : Token) : Bool :=
  match t.lexeme with
  | .word _ | .ioNumber | .operator (.redirect _) => true
  | _ => false

theorem Token.startsEntry_of_lexeme {t : Token} (hword : ∀ w, t.lexeme ≠ .word w)
    (hnumber : t.lexeme ≠ .ioNumber) (hredirect : ∀ r, t.lexeme ≠ .operator (.redirect r)) :
    t.startsEntry = false := by
  unfold startsEntry
  split
  · rename_i w hw
    exact absurd hw (hword w)
  · rename_i h
    exact absurd h hnumber
  · rename_i r hr
    exact absurd hr (hredirect r)
  · rfl

theorem Token.kind_ne_eof_of_isSeparator {t : Token} (h : t.isSeparator = false) :
    t.kind ≠ .eof := by
  unfold Token.isSeparator at h
  split at h
  case h_4 => exact absurd h (by decide)
  case h_5 hend =>
    unfold Token.kind
    intro hkind
    cases hlexeme : t.lexeme with
    | eof => exact hend hlexeme
    | _ => exact absurd (hlexeme ▸ hkind) Kind.noConfusion
  all_goals exact absurd h (by decide)

/-- The last of the tokens is no separator. -/
def Closes (ts : List Token) : Prop := ∃ us t, ts = us ++ [t] ∧ t.isSeparator = false

theorem closes_single {t : Token} (h : t.isSeparator = false) : Closes [t] := ⟨[], t, rfl, h⟩

theorem Closes.append {us : List Token} (h : Closes us) (ts : List Token) : Closes (ts ++ us) := by
  obtain ⟨vs, t, rfl, ht⟩ := h
  exact ⟨ts ++ vs, t, (List.append_assoc ts vs [t]).symm, ht⟩

theorem Closes.exists_token {ts : List Token} (h : Closes ts) :
    ∃ t ∈ ts, t.isSeparator = false := by
  obtain ⟨us, t, rfl, ht⟩ := h
  exact ⟨t, by simp, ht⟩

/-- The tokens of a command or a pipeline, which are its assignments if it consists of them. -/
structure Wording (ts : List Token) (as : Option (List Assignment)) : Prop where
  closes : Closes ts
  map_assignment? : ∀ as', as = some as' → ts.map Token.assignment? = as'.map some

/-- The tokens of pipelines with operators between them. -/
inductive Chained : List Token → List Pipeline → Prop
  | one {ts : List Token} {p : Pipeline} (h : Wording ts p.assignments?) : Chained ts [p]
  | snoc {ts newlines us : List Token} {ps : List Pipeline} {c : Connective} {t : Token}
    {p : Pipeline} (h : Chained ts ps) (ht : t.kind = .operator (.connective c))
    (hnewlines : ∀ u ∈ newlines, u.kind = .newline) (hp : Wording us p.assignments?) :
    Chained (ts ++ (t :: newlines ++ us)) (ps ++ [p])

theorem Chained.closes {ts : List Token} {ps : List Pipeline} (h : Chained ts ps) : Closes ts := by
  cases h with
  | one h => exact h.closes
  | snoc _ _ _ hp => exact (hp.closes.append _).append _

/-- The tokens of the first pipelines come first. -/
theorem Chained.exists_initial {ts : List Token} {ps qs : List Pipeline} (h : Chained ts (ps ++ qs))
    (hps : ps ≠ []) : ∃ us, us <+: ts ∧ Chained us ps := by
  -- The last pipelines are taken off one by one, as `Chained` has put them on.
  induction qs using List.reverseRecOn generalizing ts with
  | nil => exact ⟨ts, List.prefix_refl ts, by rwa [List.append_nil] at h⟩
  | append_singleton qs q ih =>
    rw [← List.append_assoc] at h
    generalize hall : ps ++ qs ++ [q] = all at h
    cases h with
    | one _ =>
      have hlength := congrArg List.length hall
      have hpos := List.length_pos_iff.mpr hps
      simp at hlength
      omega
    | snoc h _ _ _ =>
      obtain ⟨us, hus, hchained⟩ := ih ((List.append_inj' hall rfl).1 ▸ h)
      exact ⟨us, hus.trans (List.prefix_append _ _), hchained⟩

/-! ## Inside a compound command -/

/-- What is still to be closed after a token, where something is open. -/
def closersAfter (closers : List Text) (commandStart : Bool) (t : Token) : List Text :=
  match t.lexeme with
  | .operator .leftParen =>
    if closers.head? = some "esac".toList then closers else [')'] :: closers
  | .operator .rightParen => if closers.head? = some [')'] then closers.tail else closers
  | .word _ =>
    if closers.head? = some t.text ∧ (commandStart = true ∨ t.text = [']', ']']) then closers.tail
    else if commandStart then
      match CompoundKind.ofOpener? t.text with
      | some kind => kind.closer :: closers
      | none => closers
    else closers
  | _ => closers

/-- Only with nothing open there is no answer. -/
theorem closersAfter?_eq {closers : List Text} (h : closers ≠ []) (commandStart : Bool)
    (t : Token) :
    closersAfter? closers commandStart t = some (closersAfter closers commandStart t) := by
  obtain ⟨closer, closers, rfl⟩ := List.exists_cons_of_ne_nil h
  unfold closersAfter? closersAfter
  simp only [List.head?_cons, Option.map_some, Option.some.injEq]
  cases t.lexeme with
  | operator o => cases o <;> rfl
  | _ => rfl

/-- Inside a compound command the tokens lead from one state to another. A state has what is still
to be closed, something in front of each token, and whether a command may begin. -/
inductive Passes : List Text × Bool → List Token → List Text × Bool → Prop
  | nil (state : List Text × Bool) : Passes state [] state
  | cons {closers : List Text} {commandStart : Bool} {t : Token} {ts : List Token}
      {state : List Text × Bool} (hclosers : closers ≠ []) (ht : t.kind ≠ .eof)
      (h : Passes (closersAfter closers commandStart t, t.startsCommand) ts state) :
      Passes (closers, commandStart) (t :: ts) state

/-- What closes the last construct is a parenthesis or a word. -/
theorem isSeparator_of_closersAfter {closers : List Text} {commandStart : Bool} {t : Token}
    (hne : closers ≠ []) (h : closersAfter closers commandStart t = []) :
    t.isSeparator = false := by
  unfold closersAfter at h
  unfold Token.isSeparator
  split
  case h_5 => rfl
  all_goals
    rename_i hlexeme
    rw [hlexeme] at h
    exact absurd h hne

theorem Passes.closes {state : List Text × Bool} {ts : List Token} {commandStart : Bool}
    (h : Passes state ts ([], commandStart)) (hne : state.1 ≠ []) : Closes ts := by
  generalize hend : (([], commandStart) : List Text × Bool) = state' at h
  induction h with
  | nil state =>
    subst hend
    exact absurd rfl hne
  | @cons closers commandStart t ts state hclosers _ h ih =>
    by_cases hnil : closersAfter closers commandStart t = []
    -- Nothing comes behind the token that closes the last construct.
    · have hclosed := isSeparator_of_closersAfter hclosers hnil
      rw [hnil] at h
      cases h with
      | nil => exact closes_single hclosed
      | cons hne' => exact absurd rfl hne'
    · exact (ih hnil hend).append [t]

namespace Parse

variable {limits : Limits} {p : Parser} {t : Token}

/-- As long as something is open, a token leads from what is to be closed to what is then. -/
theorem compoundStep_cons (kind : CompoundKind) (closer : Text) (closers : List Text)
    (commandStart : Bool) :
    compoundStep limits kind (closer :: closers, commandStart) = (do
      countRound limits
      let t ← advance limits
      if t.kind = .eof then fail (.unfinishedCompound kind) t
      else return .inl (closersAfter (closer :: closers) commandStart t, t.startsCommand)) := by
  unfold compoundStep
  simp only [closersAfter?_eq (List.cons_ne_nil closer closers)]

/-- A word is looked up among those that open a compound command only if it is one of them. -/
theorem exists_ofOpener?_of_startsCompound (h : startsCompound t = true)
    (hparen : t.kind ≠ .operator .leftParen) :
    ∃ kind, CompoundKind.ofOpener? t.text = some kind := by
  unfold startsCompound at h
  rw [beq_eq_false_iff_ne.mpr hparen, Bool.false_or] at h
  exact Option.isSome_iff_exists.mp (Bool.and_eq_true_iff.mp h).2

theorem reads_skipNewlines :
    Reads limits (skipNewlines limits) p fun ts _ _ => ∀ t ∈ ts, t.kind = .newline := by
  refine reads_loop (fun ts _ _ => ∀ t ∈ ts, t.kind = .newline) (by simp) ?_
  intro ts _ p' _ hts
  refine (reads_accept _).bind ?_
  intro us r p' _ hr
  cases r with
  | none =>
    cases hr
    refine reads_pure ?_
    simpa using hts
  | some u =>
    obtain ⟨rfl, hu⟩ := hr
    refine reads_countRound.bind ?_
    rintro _ _ p'' - rfl
    refine reads_pure ?_
    show ∀ t ∈ ts ++ ([u] ++ [] ++ []), t.kind = .newline
    simpa [or_imp, forall_and] using ⟨hts, List.mem_singleton.mp hu⟩

theorem reads_check (k : Kind) :
    Reads limits (check limits k) p fun ts b p' =>
      ts = [] ∧ (b = true → ∃ t, p'.ahead[0]? = some t ∧ t.kind = k) := by
  unfold check
  refine (reads_peek 0).bind ?_
  rintro _ t p' - ⟨rfl, ht⟩
  exact reads_pure ⟨rfl, fun hk => ⟨t, ht, beq_iff_eq.mp hk⟩⟩

theorem reads_redirection : Reads limits (redirection limits) p fun ts _ _ => Closes ts := by
  refine (reads_accept _).bind ?_
  intro _ r p' _ _
  refine Reads.bind (R := fun _ _ _ => True) ?_ ?_
  · unfold descriptor?
    split
    · exact reads_pure trivial
    · split
      · exact reads_pure trivial
      · exact reads_throw
  · intro _ d p' _ _
    refine reads_advance.bind ?_
    intro _ operator p' _ _
    split
    · refine (reads_peek 0).bind ?_
      rintro _ u p' - ⟨-, hu⟩
      split
      -- The target is the last token.
      · rename_i w hw
        refine reads_discard_advance.bind ?_
        rintro _ _ p'' htook ⟨v, rfl⟩
        obtain rfl : v = u := htook.head_eq (List.head?_eq_getElem? ▸ hu)
        have hclosed : Closes [v] := closes_single (by rw [Token.isSeparator, hw])
        exact reads_pure ((((hclosed.append _).append _).append _).append _)
      · exact reads_throw
    · exact reads_unexpected

/-! ## Commands -/

/-- The tokens of the entries so far, if these are all assignments. -/
def EntriesRead (ts : List Token) (entries : List Binding × List Argument) : Prop :=
  entries.2 = [] → entries.1.any (·.isRedirect) = false →
    ts.map Token.assignment? = entries.1.reverse.map Binding.assignment?

/-- What a step on the entries of a simple command has taken off: another entry, or nothing where
none is next. -/
def StepRead (ts : List Token) (entries : List Binding × List Argument) (us : List Token)
    (r : (List Binding × List Argument) ⊕ Command) (p : Parser) : Prop :=
  match r with
  | .inl entries' => EntriesRead (ts ++ us) entries' ∧ Closes us
  | .inr command => us = [] ∧ command = .simple entries.1.reverse entries.2.reverse ∧
      ∃ t, p.ahead[0]? = some t ∧ t.startsEntry = false

theorem reads_redirectionEntry (ts : List Token) (bindings : List Binding)
    (arguments : List Argument) :
    Reads limits (redirectionEntry limits bindings arguments) p
      (StepRead ts (bindings, arguments)) := by
  refine reads_redirection.bind ?_
  intro us r p' _ hus
  rw [← List.append_nil us] at hus
  -- A redirection counts among the bindings or the arguments, and either spoils the entries.
  split
  · exact reads_pure ⟨fun _ hany => absurd hany (by simp [Binding.isRedirect]), hus⟩
  · exact reads_pure ⟨fun hnil _ => absurd hnil (by simp), hus⟩

theorem reads_simpleStep {ts : List Token} {entries : List Binding × List Argument}
    (hts : EntriesRead ts entries) :
    Reads limits (simpleStep limits entries) p (StepRead ts entries) := by
  obtain ⟨bindings, arguments⟩ := entries
  refine reads_countRound.bind ?_
  rintro _ _ p₁ - rfl
  refine (reads_peek 0).bind ?_
  rintro _ t p₂ - ⟨rfl, ht⟩
  split
  · exact reads_redirectionEntry ts bindings arguments
  · exact reads_redirectionEntry ts bindings arguments
  · rename_i w hw
    refine reads_discard_advance.bind ?_
    rintro _ _ p₃ htook ⟨u, rfl⟩
    have hu : u = t := htook.head_eq (List.head?_eq_getElem? ▸ ht)
    have hcloses : Closes [u] := closes_single (by rw [hu, Token.isSeparator, hw])
    split
    -- An argument spoils the entries.
    · exact reads_pure ⟨fun hnil _ => absurd hnil (by simp), hcloses⟩
    · rename_i name value hassign
      refine (reads_peek 0).bind ?_
      rintro _ following p₄ - ⟨rfl, -⟩
      split
      · exact reads_throw
      · refine reads_pure ⟨?_, hcloses⟩
        obtain ⟨hnil, hw'⟩ := Option.ite_none_right_eq_some.mp hassign
        have hu' : u.assignment? = some (name, value) := by
          rw [hu, Token.assignment?_of_lexeme hw]
          exact hw'
        intro _ hany
        have hbindings := hts (List.isEmpty_iff.mp hnil) (Bool.or_eq_false_iff.mp hany).2
        show (ts ++ [u]).map Token.assignment? = _
        rw [List.map_append, hbindings, List.reverse_cons, List.map_append, List.map_singleton, hu']
        rfl
  · rename_i hnumber hredirect hword
    exact reads_pure ⟨rfl, rfl, t, ht, Token.startsEntry_of_lexeme hword hnumber hredirect⟩

theorem assignments?_simple {bindings : List Binding} {arguments : List Argument}
    {as : List Assignment} (h : (Command.simple bindings arguments).assignments? = some as) :
    arguments = [] ∧ bindings.map Binding.assignment? = as.map some := by
  cases arguments with
  | nil => exact ⟨rfl, mapM_eq_some_iff.mp h⟩
  | cons a arguments => exact absurd h (by simp [Command.assignments?])

theorem reads_simpleCommand (ht : p.ahead[0]? = some t) (hentry : t.startsEntry = true) :
    Reads limits (simpleCommand limits) p fun ts command _ => Wording ts command.assignments? := by
  unfold simpleCommand
  refine Reads.bind (R := fun ts command p' => ∃ entries, EntriesRead ts entries ∧
    (ts = [] ∨ Closes ts) ∧ StepRead ts entries [] (.inr command) p') ?_ ?_
  · refine reads_loop (fun ts entries _ => EntriesRead ts entries ∧ (ts = [] ∨ Closes ts))
      ⟨fun _ _ => rfl, .inl rfl⟩ ?_
    rintro ts entries p' _ ⟨hts, hcloses⟩
    refine (reads_simpleStep hts).mono ?_
    intro us r p'' _ hr
    cases r with
    | inl entries' => exact ⟨hr.1, .inr (hr.2.append ts)⟩
    | inr command =>
      obtain ⟨rfl, hcommand, hnext⟩ := hr
      rw [List.append_nil]
      exact ⟨entries, hts, hcloses, rfl, hcommand, hnext⟩
  · rintro ts command p₁ htook ⟨⟨bindings, arguments⟩, hts, hcloses, -, rfl, u, hu, hstop⟩
    refine (reads_peek 0).bind ?_
    rintro _ v p₂ - ⟨rfl, -⟩
    split
    · exact reads_unexpected
    · refine reads_pure ?_
      rw [List.append_nil, List.append_nil]
      refine ⟨hcloses.resolve_left ?_, ?_⟩
      -- With nothing taken off, the token that starts an entry would still be the next.
      · rintro rfl
        have hhead := htook.head_of_nil (List.head?_eq_getElem? ▸ ht)
        rw [List.head?_eq_getElem?, hu] at hhead
        rw [Option.some.inj hhead, hentry] at hstop
        exact absurd hstop (by decide)
      · intro as has
        obtain ⟨hnil, hmap⟩ := assignments?_simple has
        -- Bindings that are all assignments have no redirection among them.
        have hany : bindings.any (·.isRedirect) = false := by
          cases hany : bindings.any (·.isRedirect) with
          | false => rfl
          | true =>
            rw [← List.any_reverse] at hany
            have hnone := Eval.mapM_assignment?_of_any hany
            rw [mapM_eq_some_iff.mpr hmap] at hnone
            exact absurd hnone (by simp)
        rw [hts (List.reverse_eq_nil_iff.mp hnil) hany]
        exact hmap

/-- The inside of a compound command is passed up to the token after which nothing is left to be
closed. -/
theorem reads_compoundRounds {kind : CompoundKind} (n : Nat) (state : List Text × Bool) :
    Reads limits (repeatUpTo limits (compoundStep limits kind) n state) p
      fun ts k _ => k = kind ∧ ∃ commandStart, Passes state ts ([], commandStart) := by
  induction n generalizing p state with
  | zero => exact reads_throw
  | succ n ih =>
    obtain ⟨_ | ⟨closer, closers⟩, commandStart⟩ := state
    · exact reads_pure ⟨rfl, commandStart, .nil _⟩
    · unfold repeatUpTo
      rw [compoundStep_cons]
      refine Reads.bind (R := fun ts r _ => ∃ t, ts = [t] ∧ t.kind ≠ .eof ∧
        r = .inl (closersAfter (closer :: closers) commandStart t, t.startsCommand)) ?_ ?_
      · refine reads_countRound.bind ?_
        rintro _ _ p₁ - rfl
        refine reads_advance.bind ?_
        rintro _ t p₂ - rfl
        split
        · exact reads_throw
        · rename_i ht
          exact reads_pure ⟨t, rfl, ht, rfl⟩
      · rintro _ _ p₁ - ⟨t, rfl, ht, rfl⟩
        refine (ih _).mono ?_
        rintro ts k p₂ - ⟨hk, b, hpasses⟩
        exact ⟨hk, b, .cons (List.cons_ne_nil closer closers) ht hpasses⟩

theorem reads_compound : Reads limits (compound limits) p fun ts _ _ => Closes ts := by
  unfold compound
  refine reads_advance.bind ?_
  rintro _ t p₁ - rfl
  refine Reads.bind (R := fun _ _ _ => True) ?_ ?_
  · unfold compoundKind
    split
    · refine (reads_check _).bind ?_
      intro _ _ _ _ _
      split <;> exact reads_pure trivial
    · split
      · exact reads_pure trivial
      · exact reads_throw
  · intro us kind p₂ _ _
    refine Reads.mono (reads_compoundRounds _ _) ?_
    rintro ts k p₃ - ⟨-, b, hpasses⟩
    exact ((hpasses.closes (List.cons_ne_nil _ _)).append us).append [t]

theorem reads_functionName : Reads limits (functionName limits) p fun _ _ _ => True := by
  unfold functionName
  refine (reads_peek 0).bind ?_
  intro _ t p₁ _ _
  split
  · refine reads_discard_advance.bind ?_
    intro _ _ p₂ _ _
    refine (reads_peek 0).bind ?_
    intro _ u p₃ _ _
    split
    · refine reads_discard_advance.bind ?_
      intro _ _ p₄ _ _
      refine (reads_accept _).bind ?_
      intro _ r p₅ _ _
      split
      · refine (reads_accept _).bind ?_
        intro _ r' p₆ _ _
        split
        · refine (reads_peek 0).bind ?_
          intro _ _ _ _ _
          exact reads_throw
        · exact reads_pure trivial
      · exact reads_pure trivial
    · exact reads_throw
  · refine reads_advance.bind ?_
    intro _ u p₂ _ _
    refine reads_discard_advance.bind ?_
    intro _ _ p₃ _ _
    refine reads_discard_advance.bind ?_
    intro _ _ p₄ _ _
    exact reads_pure trivial

theorem wording_none {ts : List Token} (h : Closes ts) : Wording ts none :=
  ⟨h, fun _ has => absurd has (by simp)⟩

/-- A function is no assignment. -/
theorem reads_functionDefinition :
    Reads limits (functionDefinition limits) p fun ts command _ =>
      Wording ts command.assignments? := by
  unfold functionDefinition
  refine reads_functionName.bind ?_
  intro _ name p₁ _ _
  refine reads_skipNewlines.bind ?_
  intro _ _ p₂ _ _
  refine (reads_peek 0).bind ?_
  intro _ t p₃ _ _
  split
  · refine reads_compound.bind ?_
    intro ts kind p₄ _ hts
    rw [← List.append_nil ts] at hts
    exact reads_pure (wording_none (((hts.append _).append _).append _))
  · exact reads_throw

theorem reads_startsFunction : Reads limits (startsFunction limits t) p fun ts _ _ => ts = [] := by
  unfold startsFunction
  refine (reads_peek 1).bind ?_
  rintro _ _ p₁ - ⟨rfl, -⟩
  split
  · refine (reads_peek 2).bind ?_
    rintro _ _ p₂ - ⟨rfl, -⟩
    split <;> exact reads_pure rfl
  · exact reads_pure rfl

theorem reads_command :
    Reads limits (command limits) p fun ts command _ => Wording ts command.assignments? := by
  unfold command
  refine reads_countRound.bind ?_
  rintro _ _ p₁ - rfl
  refine (reads_peek 0).bind ?_
  rintro _ t p₂ - ⟨rfl, ht⟩
  split
  · refine reads_compound.bind ?_
    intro ts kind p₃ _ hts
    exact reads_pure (wording_none ((List.append_nil ts).symm ▸ hts))
  · split
    · rename_i w hw
      have hentry : t.startsEntry = true := by rw [Token.startsEntry, hw]
      split
      · exact reads_functionDefinition
      · refine reads_startsFunction.bind ?_
        rintro _ isFunction p₃ htook rfl
        -- Looking two tokens ahead has taken nothing off.
        have ht₃ : p₃.ahead[0]? = some t := by
          rw [← List.head?_eq_getElem?] at ht ⊢
          exact htook.head_of_nil ht
        split
        · exact reads_functionDefinition
        · exact reads_simpleCommand ht₃ hentry
    · rename_i hnumber
      exact reads_simpleCommand ht (by rw [Token.startsEntry, hnumber])
    · rename_i r hr
      exact reads_simpleCommand ht (by rw [Token.startsEntry, hr])
    · exact reads_unexpected

/-! ## Pipelines and lists -/

theorem assignments?_pipeline {q : Pipeline} {as : List Assignment}
    (h : q.assignments? = some as) :
    ∃ command, q = ⟨[command], false⟩ ∧ command.assignments? = some as := by
  cases hpipe : q.isPipe with
  | true =>
    rw [Eval.assignments?_of_isPipe hpipe] at h
    exact absurd h (by simp)
  | false =>
    obtain ⟨command, rfl⟩ := Eval.eq_single_of_isPipe hpipe
    exact ⟨command, rfl, h⟩

theorem reads_pipeline :
    Reads limits (pipeline limits) p fun ts pipeline _ => Wording ts pipeline.assignments? := by
  unfold pipeline
  refine (reads_accept _).bind ?_
  intro ts bang p₁ _ hbang
  refine reads_command.bind ?_
  intro us first p₂ _ hfirst
  -- A second command makes it a pipe, whatever the commands are.
  refine reads_loop
    (fun vs commands _ => (vs = [] ∧ commands = [first]) ∨ 2 ≤ commands.length ∧ Closes vs)
    (.inl ⟨rfl, rfl⟩) ?_
  intro vs commands p₃ _ hcommands
  refine (reads_accept _).bind ?_
  intro ws pipe p₄ _ hpipe
  cases pipe with
  | some u =>
    refine reads_skipNewlines.bind ?_
    intro _ _ p₅ _ _
    refine reads_command.bind ?_
    intro xs command p₆ _ hcommand
    have hcloses := hcommand.closes
    rw [← List.append_nil xs] at hcloses
    refine reads_pure (.inr ⟨?_, ((hcloses.append _).append _).append _⟩)
    rcases hcommands with ⟨-, rfl⟩ | ⟨hlength, -⟩
    · exact Nat.le_refl 2
    · exact Nat.le_succ_of_le hlength
  | none =>
    cases hpipe
    have hcloses : Closes (us ++ vs) := by
      rcases hcommands with ⟨rfl, -⟩ | ⟨-, hvs⟩
      · exact (List.append_nil us).symm ▸ hfirst.closes
      · exact hvs.append us
    rw [← List.append_nil vs] at hcloses
    refine reads_pure ⟨hcloses.append ts, ?_⟩
    intro as has
    obtain ⟨command, hsingle, hcommand⟩ := assignments?_pipeline has
    obtain ⟨hcommands', hbang'⟩ := Pipeline.mk.inj hsingle
    -- Neither a `!` nor a pipe has been taken off, so the first command is all there is.
    obtain rfl : bang = none := Option.not_isSome_iff_eq_none.mp (Bool.eq_false_iff.mp hbang')
    obtain rfl : commands = [command] := by
      rw [← List.reverse_reverse commands, hcommands']
      rfl
    cases hbang
    rcases hcommands with ⟨rfl, hfirst'⟩ | ⟨hlength, -⟩
    · cases hfirst'
      simpa using hfirst.map_assignment? as hcommand
    · exact absurd hlength (by simp)

theorem reads_list :
    Reads limits (list limits) p fun ts s _ => Chained ts s.pipelines ∧ s.background = false := by
  unfold list
  refine reads_pipeline.bind ?_
  intro ts first p₁ _ hfirst
  refine reads_loop (fun us state _ => Chained (ts ++ us) state.1.reverse) ?_ ?_
  · rw [List.append_nil]
    exact .one hfirst
  · rintro us ⟨pipelines, connectives⟩ p₂ _ hchained
    refine (reads_accept _).bind ?_
    intro vs connective p₃ _ hconnective
    cases connective with
    | none =>
      cases hconnective
      refine reads_pure ⟨?_, rfl⟩
      simpa using hchained
    | some t =>
      obtain ⟨rfl, ht⟩ := hconnective
      refine reads_skipNewlines.bind ?_
      intro newlines _ p₄ _ hnewlines
      refine reads_pipeline.bind ?_
      intro ws pipeline p₅ _ hpipeline
      obtain ⟨c, hc⟩ : ∃ c, t.kind = .operator (.connective c) := by
        rcases List.mem_pair.mp ht with h | h
        · exact ⟨.and, h⟩
        · exact ⟨.or, h⟩
      refine reads_pure ?_
      simpa using hchained.snoc hc hnewlines hpipeline

/-- What a statement is read from: newlines before it, its list, and what ends it. Without a
statement there are newlines up to the end. -/
def StatementRead (ts : List Token) (r : Option Statement) (p : Parser) : Prop :=
  match r with
  | none => (∀ t ∈ ts, t.kind = .newline) ∧ ∃ e, p.ahead[0]? = some e ∧ e.kind = .eof
  | some s => ∃ newlines body tail, ts = newlines ++ (body ++ tail) ∧
      (∀ t ∈ newlines, t.kind = .newline) ∧ Chained body s.pipelines ∧
      (s.background = true → ∃ t, tail = [t] ∧ t.kind = .operator .amp) ∧
      (s.background = false →
        (∃ t, tail = [t] ∧ (t.kind = .operator .semi ∨ t.kind = .newline)) ∨
          tail = [] ∧ ∃ e, p.ahead[0]? = some e ∧ e.kind = .eof)

theorem reads_statement? : Reads limits (statement? limits) p StatementRead := by
  unfold statement?
  refine reads_skipNewlines.bind ?_
  intro newlines _ p₁ _ hnewlines
  refine (reads_check .eof).bind ?_
  rintro _ atEnd p₂ - ⟨rfl, hend⟩
  split
  · rename_i hatEnd
    refine reads_pure ⟨?_, hend hatEnd⟩
    simpa using hnewlines
  · refine reads_list.bind ?_
    rintro body s p₃ _ ⟨hbody, hforeground⟩
    have hnot : ∀ {P : Prop}, s.background = true → P := fun hbackground =>
      absurd (hforeground.symm.trans hbackground) (by simp)
    refine (reads_accept _).bind ?_
    intro ts amp p₄ _ hamp
    split
    -- In the background the `&` ends the statement.
    · rename_i hsome
      obtain ⟨t, rfl⟩ := Option.isSome_iff_exists.mp hsome
      obtain ⟨rfl, ht⟩ := hamp
      exact reads_pure ⟨newlines, body, [t], by simp, hnewlines, hbody,
        fun _ => ⟨t, rfl, List.mem_singleton.mp ht⟩,
        fun hbackground => absurd hbackground (by simp)⟩
    · rename_i hnone
      obtain rfl : amp = none := Option.not_isSome_iff_eq_none.mp hnone
      cases hamp
      refine (reads_accept _).bind ?_
      intro tail separator p₅ _ hseparator
      split
      · rename_i hsome
        obtain ⟨t, rfl⟩ := Option.isSome_iff_exists.mp hsome
        obtain ⟨rfl, ht⟩ := hseparator
        exact reads_pure ⟨newlines, body, [t], by simp, hnewlines, hbody, hnot,
          fun _ => .inl ⟨t, rfl, List.mem_pair.mp ht⟩⟩
      · rename_i hnone'
        obtain rfl : separator = none := Option.not_isSome_iff_eq_none.mp hnone'
        cases hseparator
        refine (reads_check .eof).bind ?_
        rintro _ atEnd' p₆ - ⟨rfl, hend'⟩
        split
        · rename_i hatEnd'
          exact reads_pure ⟨newlines, body, [], by simp, hnewlines, hbody, hnot,
            fun _ => .inr ⟨rfl, hend' hatEnd'⟩⟩
        · refine (reads_peek 0).bind ?_
          intro _ _ _ _ _
          exact reads_unexpected

theorem took_of_statement? {r : Option Statement} {p' : Parser}
    (h : statement? limits p = .ok r p') : ∃ ts, p.Took limits ts p' ∧ StatementRead ts r p' := by
  have hreads : Reads limits (statement? limits) p StatementRead := reads_statement?
  exact hreads.ok h

/-- A statement takes at least one token off. -/
theorem exists_token_of_statement? {s : Statement} {p' : Parser}
    (h : statement? limits p = .ok (some s) p') :
    ∃ ts, p.Took limits ts p' ∧ ∃ t ∈ ts, t.kind ≠ .eof := by
  obtain ⟨_, htook, newlines, body, tail, rfl, -, hchained, -⟩ := took_of_statement? h
  obtain ⟨t, ht, hkind⟩ := hchained.closes.exists_token
  exact ⟨_, htook, t, by simp [ht], Token.kind_ne_eof_of_isSeparator hkind⟩

end Parse

end EnvScript
