import EnvScript.Proofs.Command.Ahead
import EnvScript.Proofs.Command.Short

/-!
# Calls of a parser in a row

A parser may be called in any order: for a token, for a part of the grammar, or for a look ahead.
Whatever the order, the tokens that the calls take off, followed by those that have been read ahead,
are the tokens of the text, from the first one on and each in its turn. Looking ahead makes no
difference to the calls that follow, and nothing behind a statement is read for it.
-/

namespace EnvScript

namespace Parse

/-! ## Calls and answers -/

inductive Call where
  | peek (n : Nat)
  | advance
  | check (k : Kind)
  | accept (kinds : List Kind)
  | redirection
  | simpleCommand
  | pipeline
  | list
  | statement
  | statements

inductive Answer where
  | token (t : Token)
  | check (found : Bool)
  | accept (taken : Option Token)
  | redirection (r : Redirection)
  | command (c : Command)
  | pipeline (q : Pipeline)
  | list (s : Statement)
  | statement (s : Option Statement)
  | statements (ss : List Statement)

namespace Call

def run (limits : Limits) : Call → Parse Answer
  | .peek n => .token <$> Parse.peek limits n
  | .advance => .token <$> Parse.advance limits
  | .check k => .check <$> Parse.check limits k
  | .accept kinds => .accept <$> Parse.accept limits kinds
  | .redirection => .redirection <$> Parse.redirection limits
  | .simpleCommand => .command <$> Parse.simpleCommand limits
  | .pipeline => .pipeline <$> Parse.pipeline limits
  | .list => .list <$> Parse.list limits
  | .statement => .statement <$> statement? limits
  | .statements => .statements <$> Parse.statements limits

/-- The call only looks ahead. -/
def looks : Call → Bool
  | .peek _ | .check _ => true
  | _ => false

/-- The tokens `ts` are those that the call has taken off, as far as its answer tells. -/
def Takes : Call → Answer → List Token → Prop
  | .peek _, _, ts | .check _, _, ts => ts = []
  | .advance, .token t, ts => ts = [t]
  | .accept _, .accept r, ts => ts = r.toList
  | _, _, _ => True

end Call

/-- The calls in a row, up to the first that fails: what each of them answers, and where the last
token that is no separator ends after it. -/
def answers (limits : Limits) (calls : List Call) : Parse (List (Answer × Position)) :=
  calls.mapM fun call => do
    let answer ← call.run limits
    return (answer, (← get).last)

/-- The calls lead from `p` to `p'` with these answers, and the tokens `ts` are taken off on the
way. -/
inductive Leads (limits : Limits) :
    Parser → List Call → List (Answer × Position) → List Token → Parser → Prop
  | nil (p : Parser) : Leads limits p [] [] [] p
  | cons {p p' p'' : Parser} {call : Call} {answer : Answer} {ts us : List Token}
      {calls : List Call} {more : List (Answer × Position)}
      (h : call.run limits p = .ok answer p') (htook : p.Took limits ts p')
      (htakes : call.Takes answer ts) (hrest : Leads limits p' calls more us p'') :
      Leads limits p (call :: calls) ((answer, p'.last) :: more) (ts ++ us) p''

/-- What holds once the calls have been made on a parser of a text with these tokens. -/
structure Ordered (limits : Limits) (text : Text) (tokens : List Token) (calls : List Call)
    (given : List (Answer × Position)) (p : Parser) : Prop where
  takes : ∃ taken, Leads limits (.ofText text) calls given taken p
  /-- The tokens taken off and those read ahead begin the list of tokens, with more end tokens
  behind it. -/
  row : ∀ taken, Leads limits (.ofText text) calls given taken p →
    ∃ e n, e ∈ tokens.getLast? ∧ e.kind = .eof ∧
      taken ++ p.ahead <+: tokens ++ List.replicate n e
  /-- A look ahead succeeds, and it changes nothing of what follows. -/
  look : ∀ call : Call, call.looks = true → ∃ answer p', call.run limits p = .ok answer p' ∧
    p'.last = p.last ∧ ∀ later, outcome (answers limits later) p' = outcome (answers limits later) p
  /-- Nothing is read behind a statement. -/
  ending : ∀ s p', p.ahead.length ≤ 1 → statement? limits p = .ok (some s) p' →
    ∃ ts, p.Took limits ts p' ∧ EndsHere ts p'

section

variable {limits : Limits} {text : Text} {tokens taken : List Token} {calls : List Call}
  {given : List (Answer × Position)} {p p' q : Parser}

/-! ## One call -/

/-- Whatever the part of the grammar, it takes a row of tokens off. -/
theorem closed_took : Closed limits fun m => ∀ p, Reads limits m p fun _ _ _ => True where
  pure _ _ := reads_pure trivial
  throw _ _ := reads_throw
  bind hm hf p := (hm p).bind fun _ a p' _ _ => hf a p'
  loop hstep a p := reads_loop (fun _ _ _ => True) trivial fun _ a p' _ _ =>
    (hstep a p').mono fun _ r _ _ _ => by cases r <;> trivial
  next _ := (reads_peek 0).mono fun _ _ _ _ _ => trivial
  advance _ := reads_advance.mono fun _ _ _ _ _ => trivial
  countRound _ := reads_countRound.mono fun _ _ _ _ _ => trivial

theorem took_command (p : Parser) : Reads limits (command limits) p fun _ _ _ => True :=
  closed_took.command (fun n _ => (reads_peek n).mono fun _ _ _ _ _ => trivial) p

theorem reads_call (call : Call) :
    Reads limits (call.run limits) p fun ts answer _ => call.Takes answer ts := by
  cases call with
  | peek n => exact Ends.map ((reads_peek n).mono fun _ _ _ _ h => h.1)
  | advance => exact Ends.map reads_advance
  | check k => exact Ends.map ((reads_check k).mono fun _ _ _ _ h => h.1)
  | accept kinds =>
    refine Ends.map ((reads_accept kinds).mono fun ts r _ _ h => ?_)
    cases r with
    | none => exact h
    | some t => exact h.1
  | redirection => exact Ends.map (closed_took.redirection p)
  | simpleCommand => exact Ends.map (closed_took.simpleCommand p)
  | pipeline => exact Ends.map (closed_took.pipeline took_command p)
  | list => exact Ends.map (closed_took.list took_command p)
  | statement => exact Ends.map (closed_took.statement? took_command p)
  | statements => exact Ends.map (closed_took.statements took_command p)

theorem indifferent_call (call : Call) : Indifferent limits (call.run limits) := by
  have hclosed : Closed limits (Indifferent limits) := closed_indifferent
  have hcommand : Indifferent limits (command limits) := hclosed.command indifferent_peek
  cases call with
  | peek n => exact hclosed.map _ (indifferent_peek n)
  | advance => exact hclosed.map _ hclosed.advance
  | check k => exact hclosed.map _ (hclosed.check k)
  | accept kinds => exact hclosed.map _ (hclosed.accept kinds)
  | redirection => exact hclosed.map _ hclosed.redirection
  | simpleCommand => exact hclosed.map _ hclosed.simpleCommand
  | pipeline => exact hclosed.map _ (hclosed.pipeline hcommand)
  | list => exact hclosed.map _ (hclosed.list hcommand)
  | statement => exact hclosed.map _ (hclosed.statement? hcommand)
  | statements => exact hclosed.map _ (hclosed.statements hcommand)

/-! ## Calls in a row -/

theorem answers_cons (call : Call) (calls : List Call) :
    answers limits (call :: calls) = call.run limits >>= fun answer => get >>= fun q =>
      answers limits calls >>= fun more => pure ((answer, q.last) :: more) := by
  simp [answers]

theorem leads_of_answers (h : answers limits calls p = .ok given p') :
    ∃ ts, Leads limits p calls given ts p' := by
  induction calls generalizing p given with
  | nil =>
    cases h
    exact ⟨[], .nil _⟩
  | cons call calls ih =>
    rw [answers_cons] at h
    obtain ⟨answer, q, hcall, h⟩ := exists_of_bind_ok h
    have hthen : (answers limits calls >>= fun more => pure ((answer, q.last) :: more)) q =
      .ok given p' := h
    obtain ⟨more, p₁, hmore, h⟩ := exists_of_bind_ok hthen
    cases h
    obtain ⟨us, hrest⟩ := ih hmore
    obtain ⟨ts, htook, htakes⟩ := (reads_call call).ok hcall
    exact ⟨ts ++ us, .cons hcall htook htakes hrest⟩

theorem Leads.took (h : Leads limits p calls given taken p') : p.Took limits taken p' := by
  induction h with
  | nil p => exact .refl p
  | cons _ htook _ _ ih => exact htook.trans ih

theorem indifferent_answers (calls : List Call) : Indifferent limits (answers limits calls) := by
  induction calls with
  | nil => exact closed_indifferent.pure _
  | cons call calls ih =>
    rw [answers_cons]
    refine closed_indifferent.bind (indifferent_call call) fun answer p q h => ?_
    -- Where the last token ended is the same for both parsers.
    show SameAnswer limits
      ((answers limits calls >>= fun more => pure ((answer, p.last) :: more)) p)
      ((answers limits calls >>= fun more => pure ((answer, q.last) :: more)) q)
    rw [h.last]
    exact (ih p q h).bind fun more => closed_indifferent.pure _

theorem Indifferent.outcome_eq {α : Type} {m : Parse α} (hm : Indifferent limits m)
    (h : p.ReadsOn limits q) : outcome m q = outcome m p := by
  have hsame := hm p q h
  unfold outcome
  generalize m p = x at hsame ⊢
  generalize m q = y at hsame ⊢
  cases hsame <;> rfl

/-! ## The tokens of a text -/

/-- What a parser of the text has taken off and read ahead begins the list of tokens, and the tokens
behind it are to come, as many as one likes. -/
theorem tokens_of_took (htokens : tokenize limits text = .ok tokens)
    (h : (Parser.ofText text).Took limits taken p) (k : Nat) :
    ∃ e n more s, e ∈ tokens.getLast? ∧ e.kind = .eof ∧
      tokens ++ List.replicate n e = taken ++ p.ahead ++ more ∧
      Scanner.Yields limits p.scanner more s ∧ k ≤ more.length := by
  obtain ⟨us, hus, heq, -⟩ := h
  obtain ⟨init, e, rfl, heof, hmore⟩ :=
    Scanner.yields_replicate_of_tokensUpTo (s := .ofText text) htokens (Nat.le_refl _)
  -- As many end tokens as the parser may have read, and `k` more to come.
  obtain ⟨s, hs⟩ := hmore (us.length + k)
  obtain ⟨more, hrow, hmore⟩ := hus.split hs (by simp; omega)
  refine ⟨e, us.length + k, more, s, by simp, heof, ?_, hmore, ?_⟩
  · rw [hrow, ← heq]
    rfl
  · have hlength := congrArg List.length hrow
    simp only [List.length_append, List.length_replicate] at hlength
    omega

theorem exists_look (htokens : tokenize limits text = .ok tokens)
    (htook : (Parser.ofText text).Took limits taken p) {call : Call} (hlooks : call.looks = true) :
    ∃ answer p', call.run limits p = .ok answer p' ∧ p.ReadsOn limits p' := by
  have hpeek : ∀ n, ∃ t p', peek limits n p = .ok t p' ∧ p.ReadsOn limits p' := by
    intro n
    -- There is always a token to look at, since the end token comes again and again.
    obtain ⟨e, k, more, s, -, -, -, hmore, hlength⟩ := tokens_of_took htokens htook (n + 1)
    have hn : n < (p.ahead ++ more).length := by
      rw [List.length_append]
      omega
    have hfaces : p.Faces limits (p.ahead ++ more) s := ⟨more, hmore, rfl⟩
    obtain ⟨t, p', h, -⟩ := (ends_peek hfaces (List.getElem?_eq_getElem hn)).exists_ok
    exact ⟨t, p', h, (readsOn_of_peek h).1⟩
  cases call with
  | peek n =>
    obtain ⟨t, p', h, hon⟩ := hpeek n
    exact ⟨.token t, p', bind_of_ok h, hon⟩
  | check k =>
    obtain ⟨t, p', h, hon⟩ := hpeek 0
    have hcheck : check limits k p = .ok (t.kind == k) p' := bind_of_ok h
    exact ⟨.check _, p', bind_of_ok hcheck, hon⟩
  | _ => exact absurd hlooks (by simp [Call.looks])

/-- However a parser of the text is called, no token is lost and none is out of its turn. -/
theorem ordered_of_answers (htokens : tokenize limits text = .ok tokens)
    (hcalls : answers limits calls (.ofText text) = .ok given p) :
    Ordered limits text tokens calls given p := by
  obtain ⟨taken, hleads⟩ := leads_of_answers hcalls
  refine ⟨⟨taken, hleads⟩, fun taken' hleads' => ?_, fun call hlooks => ?_,
    fun s p' hp h => endsHere_of_statement? hp h⟩
  · obtain ⟨e, n, more, -, he, heof, hrow, -⟩ := tokens_of_took htokens hleads'.took 0
    exact ⟨e, n, he, heof, more, hrow.symm⟩
  · obtain ⟨answer, p', hrun, hon⟩ := exists_look htokens hleads.took hlooks
    exact ⟨answer, p', hrun, hon.last, fun later => (indifferent_answers later).outcome_eq hon⟩

end

/-- Two looks ahead, a statement with its `;`, a pipeline, and the end token twice. -/
theorem ordered_of_mixed_calls : ∃ tokens given p,
    tokenize {} "A=1;! b | c".toList = .ok tokens ∧
      answers {} [.peek 3, .statement, .check .bang, .pipeline, .advance, .advance]
        (.ofText "A=1;! b | c".toList) = .ok given p ∧
      given.map (·.2.col) = [1, 4, 4, 12, 12, 12] ∧
      Ordered {} "A=1;! b | c".toList tokens
        [.peek 3, .statement, .check .bang, .pipeline, .advance, .advance] given p := by
  have htokens : (tokenize {} "A=1;! b | c".toList).map List.length = .ok 7 := by decide +kernel
  have hanswers : (outcome (answers {} [.peek 3, .statement, .check .bang, .pipeline, .advance,
      .advance]) (.ofText "A=1;! b | c".toList)).map (·.map (·.2.col)) =
        .ok [1, 4, 4, 12, 12, 12] := by decide +kernel
  obtain ⟨tokens, htokens, -⟩ := exceptMap_eq_ok htokens
  obtain ⟨given, hgiven, hcols⟩ := exceptMap_eq_ok hanswers
  obtain ⟨p, hcalls⟩ := exists_of_outcome hgiven
  exact ⟨tokens, given, p, htokens, hcalls, hcols, ordered_of_answers htokens hcalls⟩

end Parse

end EnvScript
