import EnvScript.Proofs.Expansion.Agreement
import EnvScript.Proofs.Script.Errors

/-!
# What a run depends on

A script is run in two contexts that agree on the variables its words mention. The statements are
read without a context, so both runs read the same, and both make the same assignments, until they
end in the same way.
-/

namespace EnvScript

open Context

/-- A word of the script asks for the value of the variable. -/
def ScriptMentions (limits : Limits) (script name : Text) : Prop :=
  ∃ t : Token, t.IsOf limits script ∧ ∃ w, t.lexeme = .word w ∧ w.Mentions name

/-- The statements from `p` on, run in the context `c`, store these assignments and no others: those
of the statements that succeed, and what the one they fail at stores before. -/
def Parser.Stores (limits : Limits) (p : Parser) (c : Context) (as : List Assignment) : Prop :=
  ∃ bs p' c' before, as = bs ++ before ∧ Ran limits p c bs p' c' ∧
    (before = [] ∧ (∃ p'', Parse.statement? limits p' = .ok none p'') ∨
      ∃ f, p'.StopsAfter limits c' f before)

variable {limits : Limits} {script name : Text} {p p₁ : Parser} {c c' c₁ : Context}
  {s : Statement} {ts : List Token} {as bs before : List Assignment} {f : Failure}

/-! ## The words that are evaluated -/

/-- The value of an assignment mentions what its word does. -/
theorem mentions_of_assignment? {w value : Word} {target : Text}
    (h : w.assignment? = some (target, some value)) (hname : value.Mentions name) :
    w.Mentions name := by
  unfold Word.assignment? at h
  split at h
  · rename_i text parts
    split at h
    · exact absurd (Prod.mk.inj (Option.some.inj h)).2 (by simp)
    · obtain rfl := Option.some.inj (Prod.mk.inj (Option.some.inj h)).2
      exact mentions_cons_iff.mpr (.inr hname)
    · obtain rfl := Option.some.inj (Prod.mk.inj (Option.some.inj h)).2
      -- The literal that is left in front of the other parts mentions nothing.
      have hparts := (mentions_cons_iff.mp hname).resolve_left (not_mentions_literal _ name)
      exact mentions_cons_iff.mpr (.inr hparts)
    · exact absurd h (by simp)
  · exact absurd h (by simp)

theorem Chained.exists_wording {ps : List Pipeline} {q : Pipeline} (h : Chained ts ps)
    (hq : q ∈ ps) : ∃ us, us ⊆ ts ∧ Wording us q.assignments? := by
  induction h with
  | one h =>
    obtain rfl := List.mem_singleton.mp hq
    exact ⟨_, List.Subset.refl _, h⟩
  | snoc h ht hnewlines hp ih =>
    rcases List.mem_append.mp hq with hq | hq
    · obtain ⟨us, hus, hwording⟩ := ih hq
      exact ⟨us, List.Subset.trans hus (List.subset_append_left _ _), hwording⟩
    · obtain rfl := List.mem_singleton.mp hq
      refine ⟨_, ?_, hp⟩
      exact List.Subset.trans (List.subset_append_right _ _) (List.subset_append_right _ _)

theorem exists_word_of_mentions (h : Parse.StatementRead ts (some s) p) (hname : s.Mentions name) :
    ∃ t ∈ ts, ∃ w, t.lexeme = .word w ∧ w.Mentions name := by
  obtain ⟨newlines, body, tail, rfl, -, hchained, -⟩ := h
  obtain ⟨q, hq, as, has, ⟨target, value⟩, ha, w, rfl, hw⟩ := hname
  obtain ⟨us, hus, hwording⟩ := hchained.exists_wording hq
  have hmem : some (target, some w) ∈ us.map Token.assignment? := by
    rw [hwording.map_assignment? as has]
    exact List.mem_map_of_mem ha
  obtain ⟨t, ht, htarget⟩ := List.mem_map.mp hmem
  obtain ⟨v, hv, hassignment⟩ := Token.exists_word_of_assignment? htarget
  have hbody : t ∈ newlines ++ (body ++ tail) :=
    List.mem_append_right _ (List.mem_append_left _ (hus ht))
  exact ⟨t, hbody, v, hv, mentions_of_assignment? hassignment hw⟩

theorem Parser.Took.isOf (h : (Parser.ofText script).Took limits ts p) {t : Token} (ht : t ∈ ts) :
    t.IsOf limits script := by
  obtain ⟨us, hus, heq, -⟩ := h
  have heq : us = ts ++ p.ahead := heq
  exact ⟨us, _, hus, heq ▸ List.mem_append_left _ ht⟩

theorem Token.IsOf.mem_tokenize {t : Token} {tokens : List Token} (h : t.IsOf limits script)
    (htokens : tokenize limits script = .ok tokens) : t ∈ tokens := by
  obtain ⟨us, s, hus, ht⟩ := h
  exact hus.subset_of_tokensUpTo htokens (Nat.le_refl _) ht

/-! ## What is stored -/

theorem stores_of_end {p' : Parser} (h : Parse.statement? limits p = .ok none p') (c : Context) :
    p.Stores limits c [] :=
  ⟨[], p, c, [], rfl, .nil p c, .inl ⟨rfl, p', h⟩⟩

theorem stores_of_stopsAfter (h : p.StopsAfter limits c f before) : p.Stores limits c before :=
  ⟨[], p, c, before, rfl, .nil p c, .inr ⟨f, h⟩⟩

theorem Parser.Stores.cons (hread : Parse.statement? limits p = .ok (some s) p₁)
    (has : s.assignments? = some as) (hstored : c.storeAll? limits as = some c₁)
    (h : p₁.Stores limits c₁ bs) : p.Stores limits c (as ++ bs) := by
  obtain ⟨done, p', c', before, rfl, hran, hends⟩ := h
  exact ⟨as ++ done, p', c', before, (List.append_assoc _ _ _).symm,
    .cons hread has hstored hran, hends⟩

/-! ## Two runs -/

/-- Both runs store the same assignments, with the same values, and have the same result. -/
structure RunsAgree (limits : Limits) (p : Parser) (n : Nat) (c c' : Context)
    (as : List Assignment) : Prop where
  stores : p.Stores limits c as
  stores' : p.Stores limits c' as
  outcomes : ∃ pairs r, pairs.map Prod.fst = as.map Prod.fst ∧
    runStatements limits n p c = ⟨r, c.assign pairs⟩ ∧
    runStatements limits n p c' = ⟨r, c'.assign pairs⟩

theorem RunsAgree.cons {n : Nat} {pairs : List (Text × Text)}
    (hread : Parse.statement? limits p = .ok (some s) p₁) (has : s.assignments? = some as)
    (hnames : pairs.map Prod.fst = as.map Prod.fst)
    (hstored : c.storeAll? limits as = some (c.assign pairs))
    (hstored' : c'.storeAll? limits as = some (c'.assign pairs))
    (h : RunsAgree limits p₁ n (c.assign pairs) (c'.assign pairs) bs) :
    RunsAgree limits p (n + 1) c c' (as ++ bs) := by
  obtain ⟨hstores, hstores', more, r, hmore, hrun, hrun'⟩ := h
  have hok := Eval.statement_eq_ok_iff.mpr ⟨as, has, hstored⟩
  have hok' := Eval.statement_eq_ok_iff.mpr ⟨as, has, hstored'⟩
  refine ⟨hstores.cons hread has hstored, hstores'.cons hread has hstored', pairs ++ more, r, ?_,
    ?_, ?_⟩
  · rw [List.map_append, List.map_append, hnames, hmore]
  · rw [runStatements_of_some hread hok, hrun, assign_append]
  · rw [runStatements_of_some hread hok', hrun', assign_append]

/-- The statement at which both runs fail. -/
theorem runsAgree_of_error {n : Nat} {e : EvalError} {d : Context}
    (hread : Parse.statement? limits p = .ok (some s) p₁)
    (heval : Eval.statement limits s c = .error e d)
    (hagree : AgreeOn s.Mentions c c') : ∃ as, RunsAgree limits p (n + 1) c c' as := by
  have hrespects : Eval.Respects s.Mentions (Eval.statement limits s) := Eval.respects_statement s
  have hsame := hrespects c c' hagree
  rw [heval] at hsame
  generalize heval' : Eval.statement limits s c' = r' at hsame
  cases hsame with
  | error _ _ =>
    rename_i d'
    have hstores : Eval.Stores limits (Eval.statement limits s) c _ _ := Eval.stores_statement s c
    have hstores' : Eval.Stores limits (Eval.statement limits s) c' _ _ :=
      Eval.stores_statement s c'
    unfold Eval.Stores at hstores hstores'
    rw [heval] at hstores
    rw [heval'] at hstores'
    obtain ⟨before, hstops, hbefore⟩ := hstores
    obtain ⟨before', hstops', hbefore'⟩ := hstores'
    -- The second run stops where the first does.
    obtain rfl := (hstops.congr hagree).unique hstops'
    obtain ⟨pairs, hnames, rfl, hsome⟩ :=
      exists_storeAll?_of_agreeOn (fun _ h => h.of_stopsAfter hstops) hagree hbefore
    obtain rfl := Option.some.inj (hbefore'.symm.trans hsome)
    refine ⟨before, stores_of_stopsAfter (.evaluating hread heval hstops),
      stores_of_stopsAfter (.evaluating hread heval' hstops'), pairs, _, hnames,
      runStatements_of_stop hread heval, runStatements_of_stop hread heval'⟩

theorem exists_runsAgree {n : Nat} (hp : (Parser.ofText script).Took limits ts p)
    (hn : p.unread < n) (hagree : AgreeOn (ScriptMentions limits script) c c') :
    ∃ as, RunsAgree limits p n c c' as := by
  induction n generalizing p c c' ts with
  | zero => exact absurd hn (Nat.not_lt_zero _)
  | succ n ih =>
    cases hread : Parse.statement? limits p with
    | error e p₁ =>
      exact ⟨[], stores_of_stopsAfter (.reading hread), stores_of_stopsAfter (.reading hread),
        [], _, rfl, runStatements_of_error hread, runStatements_of_error hread⟩
    | ok r p₁ =>
      cases r with
      | none =>
        exact ⟨[], stores_of_end hread c, stores_of_end hread c', [], _, rfl,
          runStatements_of_none hread, runStatements_of_none hread⟩
      | some s =>
        obtain ⟨us, htook, hus⟩ := Parse.took_of_statement? hread
        have hp₁ := hp.trans htook
        have hmentions : ∀ name, s.Mentions name → ScriptMentions limits script name := by
          intro name hname
          obtain ⟨t, ht, hw⟩ := exists_word_of_mentions hus hname
          exact ⟨t, hp₁.isOf (List.mem_append_right ts ht), hw⟩
        cases heval : Eval.statement limits s c with
        | error e d => exact runsAgree_of_error hread heval (hagree.mono hmentions)
        | ok u d =>
          obtain ⟨as, has, hstored⟩ := Eval.statement_eq_ok_iff.mp heval
          obtain ⟨pairs, hnames, rfl, hstored'⟩ := exists_storeAll?_of_agreeOn
            (fun name h => hmentions name (h.of_assignments? has)) hagree hstored
          have hlt := unread_lt_of_statement? hread
          obtain ⟨bs, hbs⟩ := ih hp₁ (by omega) (hagree.assign pairs)
          exact ⟨as ++ bs, hbs.cons hread has hnames hstored hstored'⟩

/-- A script does the same in two contexts that agree on the variables its words mention: it makes
the same assignments, with the same values, and ends with the same result. What it does not assign
stays as it was. -/
theorem runScript_agree (limits : Limits) (script : Text) {c c' : Context}
    (h : AgreeOn (ScriptMentions limits script) c c') :
    ∃ as, (Parser.ofText script).Stores limits c as ∧ (Parser.ofText script).Stores limits c' as ∧
      (runScript limits script c).result = (runScript limits script c').result ∧
      (∀ name ∈ as.map Prod.fst, (runScript limits script c).context.get? name =
        (runScript limits script c').context.get? name) ∧
      ∀ name ∉ as.map Prod.fst,
        (runScript limits script c).context.get? name = c.get? name ∧
          (runScript limits script c').context.get? name = c'.get? name := by
  obtain ⟨as, hstores, hstores', pairs, r, hnames, hrun, hrun'⟩ :
      ∃ as, RunsAgree limits (.ofText script) (script.length + 1) c c' as :=
    exists_runsAgree (.refl _) (Nat.lt_succ_self script.length) h
  refine ⟨as, hstores, hstores', ?_⟩
  rw [runScript, runScript, hrun, hrun', ← hnames]
  exact ⟨rfl, fun name hname => get?_assign_of_mem hname c c', fun name hname =>
    ⟨get?_assign_of_notMem hname c, get?_assign_of_notMem hname c'⟩⟩

/-- Only the values of the variables that are not mentioned differ, and the script fails behind its
first assignment. -/
theorem agreement_of_failing_script :
    AgreeOn (ScriptMentions {} "X=$\x7bA/a/\"$B\"\x7d\nY=$C".toList)
        (.ofPairs [(['A'], "aa".toList), (['B'], ['b']), (['Z'], ['1'])])
        (.ofPairs [(['X'], ['2']), (['B'], ['b']), (['A'], "aa".toList)]) ∧
      (runScript {} "X=$\x7bA/a/\"$B\"\x7d\nY=$C".toList
          (.ofPairs [(['A'], "aa".toList), (['B'], ['b']), (['Z'], ['1'])])).result =
        (runScript {} "X=$\x7bA/a/\"$B\"\x7d\nY=$C".toList
          (.ofPairs [(['X'], ['2']), (['B'], ['b']), (['A'], "aa".toList)])).result ∧
      (runScript {} "X=$\x7bA/a/\"$B\"\x7d\nY=$C".toList
          (.ofPairs [(['A'], "aa".toList), (['B'], ['b']), (['Z'], ['1'])])).result =
        .error ⟨.unsetVariable ['C'], ⟨2, 5⟩⟩ ∧
      (runScript {} "X=$\x7bA/a/\"$B\"\x7d\nY=$C".toList
          (.ofPairs [(['A'], "aa".toList), (['B'], ['b']), (['Z'], ['1'])])).context.get? ['X'] =
        some "ba".toList := by
  have htokens : tokenize {} "X=$\x7bA/a/\"$B\"\x7d\nY=$C".toList = .ok
      [⟨.word [.literal "X=".toList, .substitution (.var ['A']) .replace
          [.literal "a/".toList, .double [.parameter (.var ['B'])]]],
        "X=$\x7bA/a/\"$B\"\x7d".toList, ⟨1, 1⟩, ⟨1, 14⟩⟩,
        ⟨.newline, ['\n'], ⟨1, 14⟩, ⟨2, 1⟩⟩,
        ⟨.word [.literal "Y=".toList, .parameter (.var ['C'])], "Y=$C".toList, ⟨2, 1⟩, ⟨2, 5⟩⟩,
        .eof ⟨2, 5⟩] := by with_unfolding_all rfl
  have hmentions : AgreeOn (ScriptMentions {} "X=$\x7bA/a/\"$B\"\x7d\nY=$C".toList)
      (.ofPairs [(['A'], "aa".toList), (['B'], ['b']), (['Z'], ['1'])])
      (.ofPairs [(['X'], ['2']), (['B'], ['b']), (['A'], "aa".toList)]) := by
    rintro name ⟨t, ht, w, hw, hname⟩
    have hnames : ['A'] = name ∨ ['B'] = name ∨ ['C'] = name := by
      have hmem := ht.mem_tokenize htokens
      simp only [List.mem_cons, List.not_mem_nil, or_false] at hmem
      rcases hmem with rfl | rfl | rfl | rfl
      · obtain rfl := Lexeme.word.inj hw
        have hfirst : ['A'] = name ∨
            Word.Mentions [.literal "a/".toList, .double [.parameter (.var ['B'])]] name := by
          simpa [mentions_single_iff, Part.parameter?] using mentions_cons_iff.mp hname
        refine hfirst.imp_right fun hraw => .inl ?_
        simpa [mentions_single_iff, Part.parameter?] using mentions_cons_iff.mp hraw
      · exact absurd hw (by simp)
      · obtain rfl := Lexeme.word.inj hw
        refine .inr (.inr ?_)
        simpa [mentions_single_iff, Part.parameter?] using mentions_cons_iff.mp hname
      · exact absurd hw (by simp [Token.eof])
    rcases hnames with rfl | rfl | rfl <;> decide +kernel
  obtain ⟨as, -, -, hresult, -⟩ := runScript_agree {} _ hmentions
  exact ⟨hmentions, hresult, by decide +kernel, by decide +kernel⟩

end EnvScript
