import EnvScript.Proofs.Script.Success

/-!
# What a failing script leaves behind

A script that fails has stored the assignments of the statements before the one it fails at, and of
that one as many as `StopsAfter` tells: none if it cannot be read, and otherwise those that are
evaluated before the failure. They are the assignments that the first words of the script are.
-/

namespace EnvScript

/-- Statements are read from `p` on and stored with the assignments `as`, which takes the parser to
`p'` and the context from `c` to `c'`. -/
inductive Ran (limits : Limits) : Parser → Context → List Assignment → Parser → Context → Prop
  | nil (p : Parser) (c : Context) : Ran limits p c [] p c
  | cons {p p₁ p' : Parser} {c c₁ c' : Context} {s : Statement} {as bs : List Assignment}
    (hread : Parse.statement? limits p = .ok (some s) p₁) (has : s.assignments? = some as)
    (hstored : c.storeAll? limits as = some c₁) (hrest : Ran limits p₁ c₁ bs p' c') :
    Ran limits p c (as ++ bs) p' c'

/-- The next statement fails with `f`, after the assignments in `before` are stored. -/
inductive Parser.StopsAfter (limits : Limits) (p : Parser) (c : Context) :
    Failure → List Assignment → Prop
  | reading {e : ReadError} {p' : Parser} (h : Parse.statement? limits p = .error e p') :
    StopsAfter limits p c (e.failure p'.last) []
  | evaluating {s : Statement} {p' : Parser} {e : EvalError} {c' : Context}
    {before : List Assignment} (hread : Parse.statement? limits p = .ok (some s) p')
    (heval : Eval.statement limits s c = .error e c') (hstops : s.StopsAfter limits c before) :
    StopsAfter limits p c ⟨e, p'.last⟩ before

section

variable {limits : Limits} {p p' : Parser} {c c' : Context} {ts : List Token}
  {as bs before : List Assignment} {s : Statement}

theorem Ran.storeAll? (h : Ran limits p c as p' c') : c.storeAll? limits as = some c' := by
  induction h with
  | nil => rfl
  | cons _ _ hstored _ ih =>
    rw [Context.storeAll?_append, hstored]
    exact ih

/-! ## The words that are stored -/

theorem wordAssignments_of_kind (h : ∀ t ∈ ts, t.kind ≠ .word) : wordAssignments ts = [] := by
  rw [wordAssignments, List.filter_eq_nil_iff.mpr fun t ht => by simpa using h t ht]
  rfl

theorem wordAssignments_chained {ps : List Pipeline} {done : List (List Assignment)}
    (h : Chained ts ps) (hps : ps.mapM Pipeline.assignments? = some done) :
    wordAssignments ts = done.flatten.map some := by
  obtain ⟨hlist, hfilter⟩ := Grammar.mem_list_of_chained h hps
  rw [Grammar.wordAssignments_list hlist, hfilter]

theorem wordAssignments_statement (h : Parse.StatementRead ts (some s) p)
    (has : s.assignments? = some as) : wordAssignments ts = as.map some := by
  obtain ⟨newlines, body, tail, rfl, hnewlines, hchained, -, htail⟩ := h
  obtain ⟨hbackground, done, hdone, rfl⟩ := Eval.mapM_of_assignments? has
  have htailNone : wordAssignments tail = [] := by
    refine wordAssignments_of_kind fun t ht => ?_
    rcases htail hbackground with ⟨u, rfl, hu⟩ | ⟨rfl, -⟩
    · obtain rfl := List.mem_singleton.mp ht
      rcases hu with hu | hu <;> simp [hu]
    · exact absurd ht List.not_mem_nil
  have hnone : wordAssignments newlines = [] :=
    wordAssignments_of_kind fun t ht => by simp [hnewlines t ht]
  rw [wordAssignments_append, wordAssignments_append, wordAssignments_chained hchained hdone, hnone,
    htailNone, List.nil_append, List.append_nil]

theorem wordAssignments_mono {us : List Token} (h : us <+: ts) :
    wordAssignments us <+: wordAssignments ts := by
  obtain ⟨more, rfl⟩ := h
  rw [wordAssignments_append]
  exact List.prefix_append _ _

/-- What a list has stored when it fails are the first of its words. -/
theorem wordAssignments_of_stopsAfter (h : Parse.StatementRead ts (some s) p)
    (hstops : s.StopsAfter limits c before) : before.map some <+: wordAssignments ts := by
  obtain ⟨newlines, body, tail, rfl, hnewlines, hchained, -⟩ := h
  have hbody : wordAssignments body <+: wordAssignments (newlines ++ (body ++ tail)) := by
    have hnone : wordAssignments newlines = [] :=
      wordAssignments_of_kind fun t ht => by simp [hnewlines t ht]
    rw [wordAssignments_append, hnone]
    exact wordAssignments_mono (List.prefix_append _ _)
  refine List.IsPrefix.trans ?_ hbody
  cases hstops with
  | background _ => exact List.nil_prefix
  | @pipeline ps qs q done c₁ before hbackground hpipelines hdone hstored hstops =>
    rw [hpipelines] at hchained
    generalize has : q.assignments? = as at hstops
    cases hstops with
    | refused =>
      -- the pipeline itself stores nothing, so its tokens do not matter
      cases ps with
      | nil =>
        cases hdone
        exact List.nil_prefix
      | cons first ps =>
        obtain ⟨us, hus, hfirst⟩ := hchained.exists_initial (List.cons_ne_nil first ps)
        rw [List.append_nil, ← wordAssignments_chained hfirst hdone]
        exact wordAssignments_mono hus
    | @failing as before hstopsIn =>
      obtain ⟨a, after, c₂, rfl, -, -⟩ := hstopsIn
      rw [List.append_cons] at hchained
      -- The failing pipeline is made of assignments too, and `before` is a beginning of these.
      obtain ⟨us, hus, hfirst⟩ := hchained.exists_initial (by simp)
      have hall := wordAssignments_chained hfirst (mapM_append_eq_some_iff.mpr
        ⟨done, [before ++ a :: after], rfl, hdone, mapM_eq_some_iff.mpr (congrArg ([·]) has)⟩)
      refine List.IsPrefix.trans ?_ (wordAssignments_mono hus)
      rw [hall]
      refine List.IsPrefix.map some ?_
      simp

theorem Ran.took (h : Ran limits p c as p' c') :
    ∃ ts, p.Took limits ts p' ∧ wordAssignments ts = as.map some := by
  induction h with
  | nil p c => exact ⟨[], .refl p, rfl⟩
  | @cons p p₁ p' c c₁ c' s as bs hread has _ _ ih =>
    obtain ⟨ts, htook, hts⟩ := Parse.took_of_statement? hread
    obtain ⟨us, htook', hus⟩ := ih
    refine ⟨ts ++ us, htook.trans htook', ?_⟩
    rw [wordAssignments_append, wordAssignments_statement hts has, hus, List.map_append]

theorem Parser.StopsAfter.took {f : Failure} (h : p.StopsAfter limits c f before) :
    ∃ ts p', p.Took limits ts p' ∧ before.map some <+: wordAssignments ts := by
  cases h with
  | reading _ => exact ⟨[], p, .refl p, List.prefix_refl _⟩
  | @evaluating s p' e c' before hread _ hstops =>
    obtain ⟨ts, htook, hts⟩ := Parse.took_of_statement? hread
    exact ⟨ts, p', htook, wordAssignments_of_stopsAfter hts hstops⟩

/-! ## Runs -/

/-- A statement leaves less to be read. -/
theorem unread_lt_of_statement? (h : Parse.statement? limits p = .ok (some s) p') :
    p'.unread < p.unread := by
  obtain ⟨ts, htook, t, ht, hkind⟩ := Parse.exists_token_of_statement? h
  have hpos : 0 < ts.countP (·.kind != .eof) :=
    List.countP_pos_iff.mpr ⟨t, ht, by simpa using hkind⟩
  have hle := htook.unread_le
  omega

/-- A run stores the statements it reads, and then it is at the end or fails. -/
theorem runStatements_stores {n : Nat} (hn : p.unread < n) :
    ∃ as p' c', Ran limits p c as p' c' ∧
      (runStatements limits n p c = ⟨.ok (), c'⟩ ∨
        ∃ f before c'', runStatements limits n p c = ⟨.error f, c''⟩ ∧
          p'.StopsAfter limits c' f before ∧ c'.storeAll? limits before = some c'') := by
  induction n generalizing p c with
  | zero => exact absurd hn (Nat.not_lt_zero _)
  | succ n ih =>
    rw [runStatements]
    split
    · rename_i e p₁ hstatement
      exact ⟨[], p, c, .nil p c, .inr ⟨_, [], c, rfl, .reading hstatement, rfl⟩⟩
    · exact ⟨[], p, c, .nil p c, .inl rfl⟩
    · rename_i s p₁ hstatement
      split
      · rename_i c₁ heval
        obtain ⟨as, has, hstored⟩ := Eval.statement_eq_ok_iff.mp heval
        -- The rest of the script is shorter, so the rounds that are left are enough for it.
        have hlt := unread_lt_of_statement? hstatement
        obtain ⟨bs, p', c', hran, hends⟩ := ih (c := c₁) (show p₁.unread < n by omega)
        exact ⟨as ++ bs, p', c', .cons hstatement has hstored hran, hends⟩
      · rename_i e c₁ heval
        -- The statement itself fails, with a part of its assignments stored.
        have hstores : Eval.Stores limits (Eval.statement limits s) c _ _ :=
          Eval.stores_statement s c
        unfold Eval.Stores at hstores
        rw [heval] at hstores
        obtain ⟨before, hstops, hbefore⟩ := hstores
        exact ⟨[], p, c, .nil p c,
          .inr ⟨_, before, c₁, rfl, .evaluating hstatement heval hstops, hbefore⟩⟩

/-- Only names are assigned. -/
theorem isName_of_mem_wordAssignments {a : Assignment} (h : some a ∈ wordAssignments ts) :
    isName a.1 = true := by
  obtain ⟨t, -, ht⟩ := List.mem_map.mp h
  obtain ⟨w, -, hw⟩ := Token.exists_word_of_assignment? ht
  obtain ⟨text, parts, value, -, hsplit⟩ := Word.exists_split_of_assignment? hw
  exact isName_of_splitAssignment hsplit

theorem names_of_storeAll? (h : c.storeAll? limits as = some c')
    (has : as.map some <+: wordAssignments ts) :
    c.names <+: c'.names ∧ ∀ name ∈ c'.names, name ∉ c.names → isName name = true := by
  obtain ⟨added, hadded, hsub⟩ := Context.storeAll?_names h
  refine ⟨⟨added, hadded.symm⟩, fun name hname hnew => ?_⟩
  rw [hadded] at hname
  have hmem := hsub ((List.mem_append.mp hname).resolve_left hnew)
  obtain ⟨a, ha, rfl⟩ := List.mem_map.mp hmem
  exact isName_of_mem_wordAssignments (has.subset (List.mem_map_of_mem ha))

theorem exists_yields_of_took {script : Text} (h : (Parser.ofText script).Took limits ts p) :
    ∃ tokens s, Scanner.Yields limits (.ofText script) tokens s ∧
      wordAssignments ts <+: wordAssignments tokens := by
  obtain ⟨us, hus, heq, -⟩ := h
  refine ⟨us, p.scanner, hus, wordAssignments_mono ⟨p.ahead, heq.symm⟩⟩

end

/-- A script that fails has stored exactly the assignments of the statements in front of the one it
fails at, and those that this one stores before it fails. They are the first words of the script, in
their order. However a script ends, the names there were keep their places, and what is added to
them are names. -/
theorem runScript_stores (limits : Limits) (script : Text) (context : Context) :
    (∀ f context', runScript limits script context = ⟨.error f, context'⟩ →
      ∃ as p c before, Ran limits (.ofText script) context as p c ∧
        p.StopsAfter limits c f before ∧
        context.storeAll? limits (as ++ before) = some context' ∧
        ∃ tokens s, Scanner.Yields limits (.ofText script) tokens s ∧
          (as ++ before).map some <+: wordAssignments tokens) ∧
      context.names <+: (runScript limits script context).context.names ∧
      ∀ name ∈ (runScript limits script context).context.names,
        name ∉ context.names → isName name = true := by
  obtain ⟨as, p, c, hran, hends⟩ : ∃ as p c, Ran limits (.ofText script) context as p c ∧ _ :=
    runStatements_stores (Nat.lt_succ_self script.length)
  obtain ⟨ts, htook, hts⟩ := hran.took
  have hstored := hran.storeAll?
  rcases hends with hok | ⟨f, before, c', herror, hstops, hbefore⟩
  · have hrun : runScript limits script context = ⟨.ok (), c⟩ := hok
    rw [hrun]
    have hstarts : as.map some <+: wordAssignments ts := hts ▸ List.prefix_refl (as.map some)
    refine ⟨fun f c' h => ?_, names_of_storeAll? hstored hstarts⟩
    exact absurd (congrArg Outcome.result h) (by simp)
  · have hrun : runScript limits script context = ⟨.error f, c'⟩ := herror
    obtain ⟨us, p', htook', hus⟩ := hstops.took
    obtain ⟨tokens, s, hyields, htokens⟩ := exists_yields_of_took (htook.trans htook')
    -- What the run has stored and what the failing statement has are stored one after the other.
    have hall : context.storeAll? limits (as ++ before) = some c' := by
      rw [Context.storeAll?_append, hstored]
      exact hbefore
    have hstarts : (as ++ before).map some <+: wordAssignments (ts ++ us) := by
      rw [List.map_append, wordAssignments_append, hts]
      exact (List.prefix_append_right_inj _).mpr hus
    rw [hrun]
    refine ⟨fun f' c'' h => ?_, names_of_storeAll? hall hstarts⟩
    cases h
    exact ⟨as, p, c, before, hran, hstops, hall, tokens, s, hyields, hstarts.trans htokens⟩

/-- The second list fails in its second pipeline, and what is behind that is not stored. -/
theorem stored_of_failing_list :
    ∃ as p c before, Ran {} (.ofText "A=1;B=2&&C=$A$Z;D=4".toList) .empty as p c ∧
      p.StopsAfter {} c ⟨.unsetVariable ['Z'], ⟨1, 16⟩⟩ before ∧
      Context.empty.storeAll? {} (as ++ before) =
        some (.ofPairs [(['A'], ['1']), (['B'], ['2'])]) ∧
      ∃ tokens s, Scanner.Yields {} (.ofText "A=1;B=2&&C=$A$Z;D=4".toList) tokens s ∧
        (as ++ before).map some <+: wordAssignments tokens := by
  refine (runScript_stores {} "A=1;B=2&&C=$A$Z;D=4".toList .empty).1 _ _ ?_
  exact Outcome.eq_mk (by decide +kernel) (by decide +kernel)

end EnvScript
