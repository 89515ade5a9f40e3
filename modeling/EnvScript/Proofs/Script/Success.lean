import EnvScript.Proofs.Command.Accepted
import EnvScript.Script

/-!
# Which scripts succeed

A script that succeeds is read to its end, its tokens are a row of the grammar of assignments, and
the context afterwards has all of these assignments stored, one after the other. A script for which
this can be done succeeds, unless a limit stops it.
-/

namespace EnvScript

/-- The errors of a script that goes beyond a limit. -/
def EvalError.isLimit : EvalError → Bool
  | .malformed fault => fault.isLimit
  | .patternTooBig => true
  | _ => false

variable {limits : Limits} {c c₁ c' : Context} {p p₁ q : Parser} {s : Statement} {ts : List Token}

/-- A fault of the text is reported as such. -/
theorem ReadError.failure_malformed {fault : Fault} {position : Position}
    (h : fault.isMissing = false) (last : Position) :
    (malformed ⟨fault, position⟩).failure last = ⟨.malformed fault, position⟩ := by
  cases fault with
  | missing m => exact absurd h Bool.noConfusion
  | _ => rfl

/-- Reading fails because of the text, because an operation finds nothing, or because of a numeral
that is too long. -/
theorem ReadError.cases_fault (e : ReadError) :
    (∃ fault position, fault.isMissing = false ∧ e = .malformed ⟨fault, position⟩) ∨
      (∃ m position, e = .malformed ⟨.missing m, position⟩) ∨ ∃ n, e = .oversizedNumeral n := by
  match e with
  | .oversizedNumeral n => exact .inr (.inr ⟨n, rfl⟩)
  | .malformed ⟨fault, position⟩ =>
    cases fault with
    | missing m => exact .inr (.inl ⟨m, position, rfl⟩)
    | _ => exact .inl ⟨_, position, rfl, rfl⟩

/-! ## One statement -/

theorem runStatements_congr (h : Parse.statement? limits p = Parse.statement? limits q) (n : Nat)
    (c : Context) : runStatements limits (n + 1) p c = runStatements limits (n + 1) q c := by
  rw [runStatements, runStatements, h]

theorem runStatements_of_none {n : Nat} (h : Parse.statement? limits p = .ok none p₁) :
    runStatements limits (n + 1) p c = ⟨.ok (), c⟩ := by
  rw [runStatements, h]

theorem runStatements_of_error {n : Nat} {e : ReadError}
    (h : Parse.statement? limits p = .error e p₁) :
    runStatements limits (n + 1) p c = ⟨.error (e.failure p₁.last), c⟩ := by
  rw [runStatements, h]

theorem runStatements_of_some {n : Nat} (h : Parse.statement? limits p = .ok (some s) p₁)
    (heval : Eval.statement limits s c = .ok () c₁) :
    runStatements limits (n + 1) p c = runStatements limits n p₁ c₁ := by
  rw [runStatements, h]
  dsimp only
  rw [heval]

theorem runStatements_of_stop {n : Nat} {e : EvalError}
    (h : Parse.statement? limits p = .ok (some s) p₁)
    (heval : Eval.statement limits s c = .error e c₁) :
    runStatements limits (n + 1) p c = ⟨.error ⟨e, p₁.last⟩, c₁⟩ := by
  rw [runStatements, h]
  dsimp only
  rw [heval]

/-! ## From a success to the tokens -/

theorem Grammar.Rows.ne_nil (h : Rows ts) : ts ≠ [] := by
  obtain ⟨us, e, rfl, -⟩ := h.exists_end
  simp

theorem kind_ne_eof_of_inner {t : Token} (h : t.assignment?.isSome ∨ t.kind = .newline ∨
    t.kind = .operator .semi ∨ ∃ c, t.kind = .operator (.connective c)) : t.kind ≠ .eof := by
  rcases h with h | h | h | ⟨c, h⟩
  · obtain ⟨a, ha⟩ := Option.isSome_iff_exists.mp h
    simp [Token.kind_of_assignment? ha]
  all_goals simp [h]

/-- A row that begins with the end token has nothing else. -/
theorem Grammar.Rows.eq_end {e : Token} {us : List Token} (h : Rows (e :: us))
    (he : e.kind = .eof) : us = [] := by
  obtain ⟨vs, e', heq, -, hvs⟩ := h.exists_end
  cases vs with
  | nil => exact (List.cons.inj heq).2
  | cons v vs =>
    obtain rfl := (List.cons.inj heq).1
    exact absurd he (kind_ne_eof_of_inner (hvs e List.mem_cons_self))

theorem Grammar.ne_nil_of_mem_list (h : ts ∈ Grammar.list) : ts ≠ [] := by
  obtain ⟨ws, hws, rows, -, rfl⟩ := h
  exact List.append_ne_nil_of_left_ne_nil (Grammar.mem_command.mp hws).1 rows

theorem filterMap_newlines (h : ∀ t ∈ ts, t.kind = .newline) :
    ts.filterMap Token.assignment? = [] :=
  Grammar.filterMap_of_kind fun t ht => by simp [h t ht]

theorem filterMap_end {e : Token} (hts : ∀ t ∈ ts, t.kind = .newline) (he : e.kind = .eof) :
    (ts ++ [e]).filterMap Token.assignment? = [] := by
  rw [List.filterMap_append, filterMap_newlines hts,
    Grammar.filterMap_of_kind (List.forall_mem_singleton.mpr (by simp [he]))]
  rfl

theorem runStatements_ok {n : Nat} (h : runStatements limits n p c = ⟨.ok (), c'⟩) :
    ∃ ts, p.Sees limits ts ∧ Grammar.Rows ts ∧
      c.storeAll? limits (ts.filterMap Token.assignment?) = some c' := by
  induction n generalizing p c with
  | zero => exact absurd (congrArg Outcome.result h) (by simp [runStatements])
  | succ n ih =>
    rw [runStatements] at h
    split at h
    · exact absurd (congrArg Outcome.result h) (by simp)
    · rename_i p₁ hstatement
      obtain ⟨newlines, htook, hnewlines, e, he, hkind⟩ := Parse.took_of_statement? hstatement
      rw [← List.head?_eq_getElem?] at he
      refine ⟨newlines ++ [e], htook.sees (Parser.sees_of_head he),
        .done (mem_kstar_single.mpr hnewlines) hkind, ?_⟩
      rw [filterMap_end hnewlines hkind]
      exact congrArg some (congrArg Outcome.context h)
    · rename_i s p₁ hstatement
      obtain ⟨_, htook, newlines, body, tail, rfl, hnewlines, hchained, -, htail⟩ :=
        Parse.took_of_statement? hstatement
      split at h
      · rename_i c₁ heval
        obtain ⟨as, has, hstored⟩ := Eval.statement_eq_ok_iff.mp heval
        obtain ⟨hbackground, done, hdone, rfl⟩ := Eval.mapM_of_assignments? has
        obtain ⟨hbody, hfilter⟩ := Grammar.mem_list_of_chained hchained hdone
        obtain ⟨rest, hsees, hrows, hrest⟩ := ih h
        have hends := htail hbackground
        -- The statement comes in front of a row, and its assignments are stored before the others.
        refine ⟨newlines ++ (body ++ tail) ++ rest, htook.sees hsees, ?_, ?_⟩
        · rcases hends with ⟨t, rfl, ht⟩ | ⟨rfl, e, he, hkind⟩
          · have := Grammar.Rows.cons (mem_kstar_single.mpr hnewlines) hbody ht hrows
            simpa using this
          · -- the end token stays, and nothing can be in front of it
            obtain ⟨e', us, rfl⟩ := List.exists_cons_of_ne_nil hrows.ne_nil
            obtain rfl : e' = e := hsees.head_eq (List.head?_eq_getElem? ▸ he)
            obtain rfl := hrows.eq_end hkind
            have := Grammar.Rows.last (mem_kstar_single.mpr hnewlines) hbody hkind
            simpa using this
        -- What ends the statement is no assignment.
        · have hnone : tail.filterMap Token.assignment? = [] := by
            refine Grammar.filterMap_of_kind fun t ht => ?_
            rcases hends with ⟨u, rfl, hu⟩ | ⟨rfl, -⟩
            · obtain rfl := List.mem_singleton.mp ht
              rcases hu with hu | hu <;> simp [hu]
            · exact absurd ht List.not_mem_nil
          rw [List.filterMap_append, List.filterMap_append, List.filterMap_append,
            filterMap_newlines hnewlines, hfilter, hnone, List.nil_append, List.append_nil,
            Context.storeAll?_append, hstored]
          exact hrest
      · exact absurd (congrArg Outcome.result h) (by simp)

/-! ## From the tokens to an outcome -/

/-- An outcome without the position of its failure. -/
def Outcome.unplaced (o : Outcome) : EStateM.Result EvalError Context Unit :=
  match o.result with
  | .ok () => .ok () o.context
  | .error f => .error f.error o.context

theorem Outcome.eq_of_unplaced {o : Outcome} (h : o.unplaced = .ok () c) : o = ⟨.ok (), c⟩ := by
  obtain ⟨_ | _, context⟩ := o
  · exact absurd h (by simp [unplaced])
  · exact congrArg _ (EStateM.Result.ok.inj h).2

/-- The script ends with `r`, unless the `k` rounds it has at most are too many. -/
def EndsWithin (limits : Limits) (k : Nat) (outcome : Outcome)
    (r : EStateM.Result EvalError Context Unit) : Prop :=
  outcome.unplaced = r ∨ limits.iterations < k ∧
    ∃ pos, outcome.result = .error ⟨.malformed (.tooManyIterations limits.iterations), pos⟩

theorem EndsWithin.mono {outcome : Outcome} {r : EStateM.Result EvalError Context Unit} {j k : Nat}
    (h : EndsWithin limits j outcome r) (hk : j ≤ k) : EndsWithin limits k outcome r :=
  h.imp id fun h => ⟨by omega, h.2⟩

/-- The limit is one that so many rounds do not reach. -/
theorem EndsWithin.unplaced_eq {outcome : Outcome} {r : EStateM.Result EvalError Context Unit}
    {k : Nat} (h : EndsWithin limits k outcome r) (hk : k ≤ limits.iterations) :
    outcome.unplaced = r :=
  h.resolve_right fun hmany => absurd hmany.1 (Int.not_lt.mpr hk)

/-- The script succeeds with the context `c'`, unless the `k` rounds it has at most are too many. -/
def SucceedsWithin (limits : Limits) (k : Nat) (outcome : Outcome) (c' : Context) : Prop :=
  outcome = ⟨.ok (), c'⟩ ∨ limits.iterations < k ∧
    ∃ pos, outcome.result = .error ⟨.malformed (.tooManyIterations limits.iterations), pos⟩

theorem EndsWithin.succeeds {outcome : Outcome} {k : Nat}
    (h : EndsWithin limits k outcome (.ok () c')) : SucceedsWithin limits k outcome c' :=
  h.imp_left Outcome.eq_of_unplaced

/-- The limit is one that so many rounds do not reach. -/
theorem SucceedsWithin.eq_ok {outcome : Outcome} {k : Nat}
    (h : SucceedsWithin limits k outcome c') (hk : k ≤ limits.iterations) :
    outcome = ⟨.ok (), c'⟩ :=
  h.resolve_right fun hmany => absurd hmany.1 (Int.not_lt.mpr hk)

/-- A round of the script: its statement is evaluated, and the rest does what it does behind it. -/
theorem endsWithin_of_statement {n j : Nat} {newlines body rest : List Token} {u : Token}
    {as : List Assignment}
    (hp : p.Sees limits (newlines ++ (body ++ u :: rest))) (hnewlines : newlines ∈ Grammar.newlines)
    (hbody : body ∈ Grammar.list) (hspelled : ∀ t ∈ body, Scanner.Spelled t)
    (hu : u.kind = .operator .semi ∨ u.kind = .newline ∨ u.kind = .eof)
    (hrest : ∀ p' c₁, p'.Sees limits (if u.kind = .eof then u :: rest else rest) →
      EndsWithin limits (p'.iterations + j) (runStatements limits n p' c₁)
        (Eval.assignAll limits as c₁)) :
    EndsWithin limits (p.iterations + (3 * body.length + newlines.length + j))
      (runStatements limits (n + 1) p c)
      (Eval.assignAll limits (body.filterMap Token.assignment? ++ as) c) := by
  have hread := Parse.gives_statement?_some hp hnewlines hbody hspelled hu
  unfold Parse.Gives Parse.Ends at hread
  rw [Eval.assignAll_append]
  show EndsWithin _ _ _ (EStateM.bind _ _ c)
  unfold EStateM.bind
  split at hread
  · rename_i r p' hstatement
    obtain ⟨⟨s, rfl, hs⟩, hp', hrounds⟩ := hread
    rw [← Eval.statement_eq_assignAll hs]
    cases heval : Eval.statement limits s c with
    | ok _ c₁ =>
      rw [runStatements_of_some hstatement heval]
      exact (hrest p' c₁ hp').mono (by omega)
    | error e c₁ =>
      rw [runStatements_of_stop hstatement heval]
      exact .inl rfl
  · rename_i e p' hstatement
    obtain ⟨⟨pos, rfl⟩, hrounds⟩ := hread
    rw [runStatements_of_error hstatement]
    exact .inr ⟨by omega, pos, rfl⟩

theorem runStatements_of_end {n : Nat} {e : Token} (hp : p.Sees limits (ts ++ [e]))
    (hts : ts ∈ Grammar.newlines) (he : e.kind = .eof) :
    EndsWithin limits (p.iterations + ts.length) (runStatements limits (n + 1) p c) (.ok () c) := by
  have hread := Parse.gives_statement?_none hp hts he
  unfold Parse.Gives Parse.Ends at hread
  split at hread
  · rename_i r p' hstatement
    obtain ⟨rfl, -, -⟩ := hread
    rw [runStatements_of_none hstatement]
    exact .inl rfl
  · rename_i e p' hstatement
    obtain ⟨⟨pos, rfl⟩, hrounds⟩ := hread
    rw [runStatements_of_error hstatement]
    exact .inr ⟨by omega, pos, rfl⟩

/-- A row of the grammar does what its assignments do one after the other. The induction is over the
statements of the row, each of which takes one round. -/
theorem runStatements_of_rows {n : Nat} (hrows : Grammar.Rows ts) (hp : p.Sees limits ts)
    (hspelled : ∀ t ∈ ts, Scanner.Spelled t) (hn : ts.length ≤ n) :
    EndsWithin limits (p.iterations + 3 * ts.length) (runStatements limits n p c)
      (Eval.assignAll limits (ts.filterMap Token.assignment?) c) := by
  induction hrows generalizing n p c with
  | @done newlines e hnewlines he =>
    obtain ⟨m, rfl⟩ := Nat.exists_eq_add_one_of_ne_zero (show n ≠ 0 by simp at hn; omega)
    rw [filterMap_end (mem_kstar_single.mp hnewlines) he]
    exact (runStatements_of_end hp hnewlines he).mono (by simp; omega)
  | @last newlines body e hnewlines hbody he =>
    have hpos := List.length_pos_iff.mpr (Grammar.ne_nil_of_mem_list hbody)
    obtain ⟨m, rfl⟩ : ∃ m, n = m + 1 + 1 := ⟨n - 2, by simp at hn; omega⟩
    have hend : [e].filterMap Token.assignment? = [] :=
      Grammar.filterMap_of_kind (List.forall_mem_singleton.mpr (by simp [he]))
    rw [List.filterMap_append, filterMap_newlines (mem_kstar_single.mp hnewlines), List.nil_append,
      List.filterMap_append, hend]
    refine (endsWithin_of_statement (j := 0) hp hnewlines hbody
      (fun t ht => hspelled t (by simp [ht])) (.inr (.inr he)) ?_).mono (by simp; omega)
    intro p' c₁ hp'
    -- Behind the last list only the end token is left.
    rw [if_pos he] at hp'
    exact runStatements_of_end hp' (Language.nil_mem_kstar _) he
  | @cons newlines body rest t hnewlines hbody ht hrest ih =>
    obtain ⟨m, rfl⟩ := Nat.exists_eq_add_one_of_ne_zero (show n ≠ 0 by simp at hn; omega)
    have hkind : t.kind ≠ .eof := by rcases ht with ht | ht <;> simp [ht]
    have hword : t.kind ≠ .word := by rcases ht with ht | ht <;> simp [ht]
    rw [List.filterMap_append, filterMap_newlines (mem_kstar_single.mp hnewlines), List.nil_append,
      List.filterMap_append, List.filterMap_cons_none (Grammar.assignment?_eq_none hword)]
    refine (endsWithin_of_statement (j := 3 * rest.length) hp hnewlines hbody
      (fun t ht => hspelled t (by simp [ht])) (by tauto) ?_).mono (by simp; omega)
    intro p' c₁ hp'
    rw [if_neg hkind] at hp'
    exact ih hp' (fun t ht => hspelled t (by simp [ht])) (by simp at hn; omega)

theorem sees_ofText {script : Text} :
    (Parser.ofText script).Sees limits ts ↔
      ∃ us s', Scanner.Yields limits (.ofText script) us s' ∧ ts <+: us :=
  Iff.rfl

/-- Besides the end token there are no more tokens than characters. -/
theorem Grammar.Rows.length_le {script : Text} {s' : Scanner} (hrows : Rows ts)
    (h : Scanner.Yields limits (.ofText script) ts s') : ts.length ≤ script.length + 1 := by
  obtain ⟨before, e, rfl, -, hbefore⟩ := hrows.exists_end
  have hcount : before.countP (·.kind != .eof) = before.length := by
    refine List.countP_eq_length.mpr fun t ht => ?_
    simpa using kind_ne_eof_of_inner (hbefore t ht)
  have hle := h.length_le
  rw [List.countP_append, hcount] at hle
  have hstart : (Scanner.ofText script).cursor.rest = script := rfl
  rw [hstart] at hle
  rw [List.length_append, List.length_singleton]
  omega

theorem endsWithin_of_yields {script : Text} {s' : Scanner} (hrows : Grammar.Rows ts)
    (h : Scanner.Yields limits (.ofText script) ts s') :
    EndsWithin limits (3 * ts.length) (runScript limits script c)
      (Eval.assignAll limits (ts.filterMap Token.assignment?) c) :=
  (runStatements_of_rows hrows (sees_ofText.mpr ⟨ts, s', h, List.prefix_refl _⟩) h.spelled
    (hrows.length_le h)).mono (Nat.le_of_eq (Nat.zero_add _))

theorem succeeds_of_tokens {script : Text} {as : List Assignment}
    (htokens : tokenize limits script = .ok ts) (hscript : ts ∈ Grammar.script)
    (hwords : wordAssignments ts = as.map some) (hstored : c.storeAll? limits as = some c') :
    SucceedsWithin limits (3 * ts.length) (runScript limits script c) c' := by
  have hrows := Grammar.mem_script_iff.mp hscript
  rw [hrows.wordAssignments_eq] at hwords
  obtain rfl := List.map_injective_iff.mpr (Option.some_injective _) hwords
  obtain ⟨s', hyields⟩ := Scanner.yields_of_tokensUpTo htokens
  refine EndsWithin.succeeds ?_
  rw [← Eval.assignAll_of_storeAll? hstored]
  exact endsWithin_of_yields hrows hyields

/-! ## The two together -/

/-- A script to which no limit applies succeeds exactly if all of its text is tokens, the tokens are
a row of the grammar, and the assignments that its words are can be stored one after the other. Then
the context has these stored and nothing else. -/
theorem runScript_eq_ok_iff {script : Text} {context context' : Context}
    (hlimits : ∀ f, (runScript limits script context).result = .error f → f.error.isLimit = false) :
    runScript limits script context = ⟨.ok (), context'⟩ ↔
      ∃ tokens as, tokenize limits script = .ok tokens ∧ tokens ∈ Grammar.script ∧
        wordAssignments tokens = as.map some ∧ context.storeAll? limits as = some context' := by
  constructor
  · intro h
    obtain ⟨tokens, hsees, hrows, hstored⟩ := runStatements_ok h
    obtain ⟨us, s', hyields, more, rfl⟩ := sees_ofText.mp hsees
    obtain ⟨before, e, rfl, he, hbefore⟩ := hrows.exists_end
    refine ⟨_, _, ?_, Grammar.mem_script_iff.mpr hrows, hrows.wordAssignments_eq, hstored⟩
    rw [List.append_assoc] at hyields
    exact hyields.tokensUpTo (fun t ht => kind_ne_eof_of_inner (hbefore t ht)) he (Nat.le_refl _)
  -- The only error that the tokens leave room for is one of a limit.
  · rintro ⟨tokens, as, htokens, hscript, hwords, hstored⟩
    rcases succeeds_of_tokens htokens hscript hwords hstored with h | ⟨-, pos, h⟩
    · exact h
    · exact absurd (hlimits _ h) (by simp [EvalError.isLimit, Fault.isLimit])

theorem Outcome.eq_mk {o : Outcome} {result : Except Failure Unit} (hresult : o.result = result)
    (hcontext : o.context = c) : o = ⟨result, c⟩ := by
  rw [← hresult, ← hcontext]

/-- The second assignment sees what the first has stored. -/
theorem tokens_of_two_assignments :
    ∃ tokens as, tokenize {} "A=1;B=$A$A".toList = .ok tokens ∧ tokens ∈ Grammar.script ∧
      wordAssignments tokens = as.map some ∧
      Context.empty.storeAll? {} as = some (.ofPairs [(['A'], ['1']), (['B'], ['1', '1'])]) := by
  have hrun : runScript {} "A=1;B=$A$A".toList .empty =
      ⟨.ok (), .ofPairs [(['A'], ['1']), (['B'], ['1', '1'])]⟩ :=
    Outcome.eq_mk (by decide +kernel) (by decide +kernel)
  refine (runScript_eq_ok_iff ?_).mp hrun
  intro f hf
  rw [hrun] at hf
  exact absurd hf (by simp)

end EnvScript
