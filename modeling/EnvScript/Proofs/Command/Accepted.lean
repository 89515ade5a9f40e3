import EnvScript.Proofs.Script.Grammar

/-!
# Reading rows of the grammar

The parser accepts the rows of tokens that are lists of assignments, unless it counts too many
rounds, and finds the assignments in them that the tokens are.
-/

namespace EnvScript

namespace Token

variable {t : Token}

/-- What comes after a command of assignments: nothing that would belong to it. -/
structure EndsCommand (t : Token) : Prop where
  startsEntry : t.startsEntry = false
  not_leftParen : t.kind ≠ .operator .leftParen
  not_pipe : t.kind ≠ .operator .pipe

theorem startsEntry_eq_false (hword : t.kind ≠ .word) (hnumber : t.kind ≠ .ioNumber)
    (hredirect : ∀ r, t.kind ≠ .operator (.redirect r)) : t.startsEntry = false := by
  unfold Token.startsEntry
  unfold Token.kind at hword hnumber hredirect
  split
  · rename_i w hw
    exact absurd (by rw [hw]; rfl) hword
  · rename_i hlexeme
    exact absurd (by rw [hlexeme]; rfl) hnumber
  · rename_i r hr
    exact absurd (by rw [hr]; rfl) (hredirect r)
  · rfl

theorem endsCommand_of_kind
    (h : t.kind = .newline ∨ t.kind = .eof ∨ t.kind = .operator .semi ∨
      ∃ c, t.kind = .operator (.connective c)) : t.EndsCommand := by
  rcases h with h | h | h | ⟨c, h⟩
  -- No newline, end or operator between statements is a word, a number or a redirection.
  all_goals
    refine ⟨startsEntry_eq_false ?_ ?_ ?_, ?_, ?_⟩
    all_goals simp [h]

/-! ## Assignments are not reserved words -/

theorem exists_word_of_assignment? {a : Assignment} (h : t.assignment? = some a) :
    ∃ w, t.lexeme = .word w ∧ w.assignment? = some a := by
  unfold Token.assignment? at h
  split at h
  · rename_i w hw
    exact ⟨w, hw, h⟩
  · exact absurd h (by simp)

theorem kind_of_assignment? {a : Assignment} (h : t.assignment? = some a) : t.kind = .word := by
  obtain ⟨w, hw, -⟩ := exists_word_of_assignment? h
  rw [Token.kind, hw]
  rfl

end Token

theorem equals_mem_of_splitAssignment {t : Text} {p : Text × Text}
    (h : splitAssignment t = some p) : '=' ∈ t := by
  unfold splitAssignment at h
  split at h
  · rename_i c name value hname hvalue
    rw [← leadingName_append_drop t, hvalue]
    exact List.mem_append_right _ List.mem_cons_self
  · exact absurd h (by simp)

theorem isName_of_splitAssignment {t : Text} {p : Text × Text}
    (h : splitAssignment t = some p) : isName p.1 = true := by
  unfold splitAssignment at h
  split at h
  · rename_i x name value hname _
    rw [← Option.some.inj h, ← hname]
    exact isName_leadingName (by rw [hname]; exact List.cons_ne_nil x name)
  · exact absurd h (by simp)

theorem Word.exists_split_of_assignment? {w : Word} {a : Assignment} (h : w.assignment? = some a) :
    ∃ text parts value, w = .literal text :: parts ∧ splitAssignment text = some (a.1, value) := by
  unfold Word.assignment? at h
  split at h
  · rename_i text parts
    split at h
    · rename_i hsplit
      cases h
      exact ⟨text, [], [], rfl, hsplit⟩
    · rename_i hsplit
      cases h
      exact ⟨text, _, [], rfl, hsplit⟩
    · rename_i hsplit
      cases h
      exact ⟨text, _, _, rfl, hsplit⟩
    · exact absurd h (by simp)
  · exact absurd h (by simp)

theorem Token.equals_mem_text {t : Token} {a : Assignment} (h : t.assignment? = some a)
    (hspelled : Scanner.Spelled t) : '=' ∈ t.text := by
  obtain ⟨w, hw, hassign⟩ := t.exists_word_of_assignment? h
  obtain ⟨text, parts, value, rfl, hsplit⟩ := Word.exists_split_of_assignment? hassign
  exact (hspelled text parts hw).subset (equals_mem_of_splitAssignment hsplit)

theorem equals_not_mem_of_ofOpener? {word : Text} {kind : CompoundKind}
    (h : CompoundKind.ofOpener? word = some kind) : '=' ∉ word := by
  have hall : ∀ e ∈ CompoundKind.openers, '=' ∉ e.1 := by decide
  exact hall (word, kind) (mem_of_lookup h)

namespace Parse

variable {limits : Limits} {p : Parser} {t u v : Token} {ts ws rest : List Token}

/-! ## Commands -/

theorem gives_simpleStep_assignment {a : Assignment} {bindings : List Binding}
    (hp : p.Sees limits (t :: v :: rest)) (ht : t.assignment? = some a)
    (hv : v.kind ≠ .operator .leftParen) :
    Gives limits (simpleStep limits (bindings, [])) p
      (· = .inl (.assign a.1 a.2 :: bindings, [])) (v :: rest) 1 := by
  obtain ⟨w, hw, hassign⟩ := Token.exists_word_of_assignment? ht
  refine (gives_countRound hp (by simp)).bind ?_
  intro _ p₁ _ hp₁
  refine (gives_peek hp₁ (n := 0) rfl).bind ?_
  rintro _ p₂ rfl hp₂
  split
  · rename_i hnumber
    exact absurd (hw.symm.trans hnumber) (by simp)
  · rename_i r hr
    exact absurd (hw.symm.trans hr) (by simp)
  · rename_i w' hw'
    obtain rfl := Lexeme.word.inj (hw.symm.trans hw')
    refine (gives_discard_advance hp₂).bind ?_
    intro _ p₃ _ hp₃
    split
    · rename_i hnone
      exact absurd (hassign.symm.trans hnone) (by simp)
    · rename_i name value hsome
      obtain rfl := Option.some.inj (hassign.symm.trans hsome)
      refine (gives_peek hp₃ (n := 0) rfl).bind ?_
      rintro _ p₄ rfl hp₄
      rw [if_neg (fun h => hv h.2.1)]
      exact gives_pure rfl hp₄
  · rename_i hword
    exact absurd hw (hword w)

theorem gives_simpleStep_end {bindings : List Binding} (hp : p.Sees limits (u :: rest))
    (hu : u.startsEntry = false) :
    Gives limits (simpleStep limits (bindings, [])) p
      (· = .inr (.simple bindings.reverse [])) (u :: rest) 1 := by
  refine (gives_countRound hp (by simp)).bind ?_
  intro _ p₁ _ hp₁
  refine (gives_peek hp₁ (n := 0) rfl).bind ?_
  rintro _ p₂ rfl hp₂
  unfold Token.startsEntry at hu
  split
  · rename_i hnumber
    rw [hnumber] at hu
    exact absurd (show true = false from hu) (by decide)
  · rename_i r hr
    rw [hr] at hu
    exact absurd (show true = false from hu) (by decide)
  · rename_i w hw
    rw [hw] at hu
    exact absurd (show true = false from hu) (by decide)
  · exact gives_pure rfl hp₂

/-- No token of a row of assignments, nor the one behind it, is a parenthesis. -/
theorem not_leftParen_of_head {as : List Assignment} (rest : List Token)
    (hws : ws.map Token.assignment? = as.map some) (hu : u.EndsCommand) :
    ∃ v more, ws ++ u :: rest = v :: more ∧ v.kind ≠ .operator .leftParen := by
  cases ws with
  | nil => exact ⟨u, rest, rfl, hu.not_leftParen⟩
  | cons t ws =>
    cases as with
    | nil => exact absurd hws (by simp)
    | cons a as =>
      refine ⟨t, ws ++ u :: rest, rfl, ?_⟩
      rw [Token.kind_of_assignment? (List.cons.inj hws).1]
      exact Kind.noConfusion

/-- The words to come, up to `u`, are the assignments that the entries still lack of `as`. Each of
them is a round of the loop, and one more ends it. -/
def EntriesLeft (as : List Assignment) (u : Token) (rest : List Token)
    (entries : List Binding × List Argument) (ts : List Token) (rounds : Nat) : Prop :=
  entries.2 = [] ∧ ∃ ws done todo, ts = ws ++ u :: rest ∧
    ws.map Token.assignment? = todo.map some ∧ as = done ++ todo ∧ rounds = ws.length + 1 ∧
    entries.1.reverse.map Binding.assignment? = done.map some

theorem gives_simpleCommand {as : List Assignment} (hp : p.Sees limits (ws ++ u :: rest))
    (hws : ws.map Token.assignment? = as.map some) (hu : u.EndsCommand) :
    Gives limits (simpleCommand limits) p (fun command => command.assignments? = some as)
      (u :: rest) (ws.length + 1) := by
  have hloop : Gives limits (loop limits (simpleStep limits) ([], [])) p
      (fun command => command.assignments? = some as) (u :: rest) (ws.length + 1) := by
    refine gives_loop (EntriesLeft as u rest) ⟨rfl, ws, [], as, rfl, hws, rfl, rfl, rfl⟩ hp ?_
    rintro ⟨bindings, _⟩ _ _ p' ⟨rfl, ws, done, todo, rfl, hws, rfl, rfl, hbindings⟩ hp'
    -- An assignment that is left is a round of the loop; without one the next token ends it.
    cases ws with
    | nil =>
      obtain rfl : todo = [] := by simpa using hws.symm
      refine .inr (Gives.mono (gives_simpleStep_end hp' hu.startsEntry) ?_ (Nat.le_refl 1))
      rintro _ rfl
      refine ⟨_, rfl, mapM_eq_some_iff.mpr ?_⟩
      rw [hbindings, List.append_nil]
    | cons t ws =>
      cases todo with
      | nil => exact absurd hws (by simp)
      | cons a todo =>
        obtain ⟨ht, hws⟩ := List.cons.inj hws
        obtain ⟨v, more, hmore, hv⟩ := not_leftParen_of_head rest hws hu
        rw [List.cons_append, hmore] at hp'
        refine .inl ⟨v :: more, ws.length + 1, 1,
          Gives.mono (gives_simpleStep_assignment hp' ht hv) ?_ (Nat.le_refl 1), by omega,
          by rw [List.length_cons]⟩
        rintro _ rfl
        refine ⟨_, rfl, rfl, ws, done ++ [a], todo, hmore.symm, hws, by simp, rfl, ?_⟩
        rw [List.reverse_cons, List.map_append, List.map_append, hbindings]
        rfl
  refine hloop.bind_le 0 ?_ (by omega)
  intro command p' hcommand hp'
  refine (gives_peek hp' (n := 0) rfl).bind ?_
  rintro _ p'' rfl hp''
  rw [if_neg hu.not_leftParen]
  exact gives_pure hcommand hp''

theorem startsCompound_eq_false {a : Assignment} (ht : t.assignment? = some a)
    (hspelled : Scanner.Spelled t) : startsCompound t = false := by
  have hopener : CompoundKind.ofOpener? t.text = none := by
    cases hopener : CompoundKind.ofOpener? t.text with
    | none => rfl
    | some kind =>
      exact absurd (Token.equals_mem_text ht hspelled) (equals_not_mem_of_ofOpener? hopener)
  rw [startsCompound, hopener, Token.kind_of_assignment? ht]
  rfl

theorem gives_startsFunction (hp : p.Sees limits (t :: v :: rest))
    (hv : v.kind ≠ .operator .leftParen) :
    Gives limits (startsFunction limits t) p (· = false) (t :: v :: rest) 0 := by
  refine (gives_peek hp (n := 1) rfl).bind ?_
  rintro _ p' rfl hp'
  rw [if_neg hv]
  exact gives_pure rfl hp'

theorem map_assignment?_eq_map_some (h : ∀ t ∈ ws, t.assignment?.isSome) :
    ws.map Token.assignment? = (ws.filterMap Token.assignment?).map some := by
  induction ws with
  | nil => rfl
  | cons t ws ih =>
    obtain ⟨ht, hws⟩ := List.forall_mem_cons.mp h
    obtain ⟨a, ha⟩ := Option.isSome_iff_exists.mp ht
    rw [List.map_cons, List.filterMap_cons_some ha, List.map_cons, ha, ih hws]

theorem gives_command (hp : p.Sees limits (ws ++ u :: rest)) (hws : ws ∈ Grammar.command)
    (hspelled : ∀ t ∈ ws, Scanner.Spelled t) (hu : u.EndsCommand) :
    Gives limits (command limits) p
      (fun command => command.assignments? = some (ws.filterMap Token.assignment?))
      (u :: rest) (ws.length + 2) := by
  obtain ⟨hne, hall⟩ := Grammar.mem_command.mp hws
  have hmap := map_assignment?_eq_map_some hall
  cases ws with
  | nil => exact absurd rfl hne
  | cons t ws =>
    obtain ⟨a, ha⟩ := Option.isSome_iff_exists.mp (hall t List.mem_cons_self)
    obtain ⟨w, hw, -⟩ := Token.exists_word_of_assignment? ha
    have hspelled := hspelled t List.mem_cons_self
    rw [List.cons_append] at hp
    refine (gives_countRound hp (by simp)).bind ?_
    intro _ p₁ _ hp₁
    refine (gives_peek hp₁ (n := 0) rfl).bind ?_
    rintro t p₂ rfl hp₂
    rw [if_neg (Bool.eq_false_iff.mp (startsCompound_eq_false ha hspelled))]
    split
    -- An assignment is spelled with a `=`, which no keyword has.
    · have hfunction : t.text ≠ "function".toList := by
        intro htext
        have hmem := Token.equals_mem_text ha hspelled
        rw [htext] at hmem
        exact absurd hmem (by decide)
      rw [if_neg hfunction]
      have hmap' : ws.map Token.assignment? = (ws.filterMap Token.assignment?).map some :=
        map_assignment?_eq_map_some fun t ht => hall t (List.mem_cons_of_mem _ ht)
      obtain ⟨v, more, hmore, hv⟩ := not_leftParen_of_head rest hmap' hu
      rw [hmore] at hp₂
      refine (gives_startsFunction hp₂ hv).bind ?_
      rintro _ p₃ rfl hp₃
      rw [← hmore] at hp₃
      exact gives_simpleCommand hp₃ hmap hu
    · rename_i hnumber
      exact absurd (hw.symm.trans hnumber) (by simp)
    · rename_i r hr
      exact absurd (hw.symm.trans hr) (by simp)
    · rename_i hword _ _
      exact absurd hw (hword w)

/-! ## Pipelines and lists -/

theorem gives_skipNewlines {newlines : List Token} (hp : p.Sees limits (newlines ++ u :: rest))
    (hnewlines : newlines ∈ Grammar.newlines) (hu : u.kind ≠ .newline) :
    Gives limits (skipNewlines limits) p (fun _ => True) (u :: rest) newlines.length := by
  refine gives_loop (fun _ ts b => ∃ newlines ∈ Grammar.newlines, ts = newlines ++ u :: rest ∧
    b = newlines.length) ⟨newlines, hnewlines, rfl, rfl⟩ hp ?_
  rintro _ _ _ p' ⟨newlines, hnewlines, rfl, rfl⟩ hp'
  cases newlines with
  | nil =>
    refine .inr ((gives_accept_none hp' (by simpa using hu)).bind ?_)
    rintro _ p₁ rfl hp₁
    exact gives_pure ⟨(), rfl, trivial⟩ hp₁
  | cons t newlines =>
    obtain ⟨ht, hnewlines⟩ := List.forall_mem_cons.mp (mem_kstar_single.mp hnewlines)
    rw [List.cons_append] at hp'
    refine .inl ⟨newlines ++ u :: rest, newlines.length, 1, ?_, by omega, by rw [List.length_cons]⟩
    refine (gives_accept_some hp' (List.mem_singleton.mpr ht)).bind ?_
    rintro _ p₁ rfl hp₁
    refine (gives_countRound hp₁ (by simp)).bind ?_
    intro _ p₂ _ hp₂
    exact gives_pure ⟨(), rfl, newlines, mem_kstar_single.mpr hnewlines, rfl, rfl⟩ hp₂

/-- The first token of a command of assignments is a word. -/
theorem exists_word_of_mem_command (hws : ws ∈ Grammar.command) :
    ∃ v more, ws = v :: more ∧ v.kind = .word := by
  obtain ⟨hne, hall⟩ := Grammar.mem_command.mp hws
  obtain ⟨v, more, rfl⟩ := List.exists_cons_of_ne_nil hne
  obtain ⟨a, ha⟩ := Option.isSome_iff_exists.mp (hall v List.mem_cons_self)
  exact ⟨v, more, rfl, Token.kind_of_assignment? ha⟩

theorem gives_pipeline (hp : p.Sees limits (ws ++ u :: rest)) (hws : ws ∈ Grammar.command)
    (hspelled : ∀ t ∈ ws, Scanner.Spelled t) (hu : u.EndsCommand) :
    Gives limits (pipeline limits) p
      (fun pipeline => pipeline.assignments? = some (ws.filterMap Token.assignment?))
      (u :: rest) (ws.length + 2) := by
  obtain ⟨v, more, hwords, hv⟩ := exists_word_of_mem_command hws
  -- The pipeline is a command of its own: no `!` stands before it and no `|` behind it.
  have hbang : v.kind ∉ [Kind.bang] := by simp [hv]
  have hp' : p.Sees limits (v :: (more ++ u :: rest)) := by rwa [hwords] at hp
  refine (gives_accept_none hp' hbang).bind ?_
  rintro _ p₁ rfl hp₁
  rw [← List.cons_append, ← hwords] at hp₁
  refine (gives_command hp₁ hws hspelled hu).bind_le 0 ?_ (by omega)
  intro command p₂ hcommand hp₂
  refine gives_loop (fun commands ts _ => commands = [command] ∧ ts = u :: rest) ⟨rfl, rfl⟩ hp₂ ?_
  rintro _ _ b p₃ ⟨rfl, rfl⟩ hp₃
  have hpipe : u.kind ∉ [Kind.operator .pipe] := by simpa using hu.not_pipe
  refine .inr ((gives_accept_none hp₃ hpipe).bind ?_)
  rintro _ p₄ rfl hp₄
  exact gives_pure ⟨_, rfl, hcommand⟩ hp₄

/-- The operator in front of a row, the newlines behind it and the pipeline. -/
theorem gives_listStep {pipelines : List Pipeline} {connectives : List Connective}
    {row : List Token} (hp : p.Sees limits (row ++ u :: rest))
    (hrow : row ∈ Grammar.connective * Grammar.newlines * Grammar.command)
    (hspelled : ∀ t ∈ row, Scanner.Spelled t) (hu : u.EndsCommand) :
    Gives limits (listStep limits (pipelines, connectives)) p
      (fun r => ∃ pipeline connective,
        r = .inl (pipeline :: pipelines, connective :: connectives) ∧
          pipeline.assignments? = some (row.filterMap Token.assignment?))
      (u :: rest) (row.length + 1) := by
  obtain ⟨_, ⟨_, ⟨t, ⟨c, ht⟩, rfl⟩, newlines, hnewlines, rfl⟩, ws, hws, rfl⟩ := hrow
  obtain ⟨v, more, hwords, hv⟩ := exists_word_of_mem_command hws
  have hkind : t.kind ∈ [Kind.operator (.connective .and), .operator (.connective .or)] := by
    rw [ht]
    cases c <;> simp
  have hp' : p.Sees limits (t :: (newlines ++ (ws ++ u :: rest))) := by simpa using hp
  -- A round for each newline and each assignment, and two for the command.
  have hlength : ([t] ++ newlines ++ ws).length + 1 = ws.length + 2 + newlines.length := by
    simp
    omega
  show Gives _ _ _ _ _ (([t] ++ newlines ++ ws).length + 1)
  rw [hlength]
  refine (gives_accept_some hp' hkind).bind ?_
  rintro _ p₁ rfl hp₁
  rw [hwords, List.cons_append] at hp₁
  have hnewline : v.kind ≠ .newline := by simp [hv]
  refine (gives_skipNewlines hp₁ hnewlines hnewline).bind ?_
  intro _ p₂ _ hp₂
  rw [← List.cons_append, ← hwords] at hp₂
  have hspelled' : ∀ t ∈ ws, Scanner.Spelled t := fun t ht =>
    hspelled t (List.mem_append_right _ ht)
  refine (gives_pipeline hp₂ hws hspelled' hu).bind_le 0 ?_ (by omega)
  intro pipeline p₃ hpipeline hp₃
  -- Only the pipeline adds to the assignments.
  have hnone : ([t] ++ newlines).filterMap Token.assignment? = [] := by
    refine Grammar.filterMap_of_kind (List.forall_mem_cons.mpr ⟨by simp [ht], fun w hw => ?_⟩)
    rw [mem_kstar_single.mp hnewlines w hw]
    exact Kind.noConfusion
  refine gives_pure ⟨pipeline, _, rfl, ?_⟩ hp₃
  rw [List.filterMap_append, hnone]
  exact hpipeline

/-- Behind a command there is the operator of another row, or what comes after all of them. -/
theorem endsCommand_of_rows {rows : List (List Token)} (rest : List Token)
    (hrows : ∀ row ∈ rows, row ∈ Grammar.connective * Grammar.newlines * Grammar.command)
    (hu : u.EndsCommand) : ∃ v more, rows.flatten ++ u :: rest = v :: more ∧ v.EndsCommand := by
  cases rows with
  | nil => exact ⟨u, rest, rfl, hu⟩
  | cons row rows =>
    obtain ⟨_, ⟨_, ⟨t, ht, rfl⟩, newlines, -, rfl⟩, ws, -, rfl⟩ := hrows row List.mem_cons_self
    exact ⟨t, _, rfl, Token.endsCommand_of_kind (.inr (.inr (.inr ht)))⟩

/-- The tokens to come, up to `u`, are rows of the list, and the assignments in them are those that
the pipelines so far still lack of `as`. No row takes more than three rounds for each token. -/
structure RowsLeft (as : List Assignment) (u : Token) (rest : List Token)
    (state : List Pipeline × List Connective) (ts : List Token) (rounds : Nat)
    (rows : List (List Token)) (done : List (List Assignment)) : Prop where
  tokens : ts = rows.flatten ++ u :: rest
  mem_rows : ∀ row ∈ rows, row ∈ Grammar.connective * Grammar.newlines * Grammar.command
  spelled : ∀ row ∈ rows, ∀ t ∈ row, Scanner.Spelled t
  rounds_eq : rounds = 3 * rows.flatten.length
  done_eq : state.1.reverse.mapM Pipeline.assignments? = some done
  assignments : as = done.flatten ++ rows.flatten.filterMap Token.assignment?

section

variable {as : List Assignment} {pipelines : List Pipeline} {connectives : List Connective}
  {rounds : Nat} {done : List (List Assignment)}

/-- Where no row is left, the loop ends with the assignments of all of them. -/
theorem RowsLeft.gives_end (h : RowsLeft as u rest (pipelines, connectives) ts rounds [] done)
    (hp : p.Sees limits ts) (hconnective : ∀ c, u.kind ≠ .operator (.connective c)) :
    Gives limits (listStep limits (pipelines, connectives)) p
      (fun r => ∃ s : Statement, r = .inr s ∧ s.assignments? = some as) (u :: rest) rounds := by
  obtain ⟨rfl, -, -, rfl, hdone, rfl⟩ := h
  have hkind : u.kind ∉ [Kind.operator (.connective .and), .operator (.connective .or)] := by
    simp [hconnective]
  refine (gives_accept_none hp hkind).bind ?_
  rintro _ p₁ rfl hp₁
  refine gives_pure ⟨_, rfl, ?_⟩ hp₁
  rw [Statement.assignments?, hdone]
  simp

/-- A row that is left is the next round of the loop. -/
theorem RowsLeft.gives_row {row : List Token} {rows : List (List Token)}
    (h : RowsLeft as u rest (pipelines, connectives) ts rounds (row :: rows) done)
    (hp : p.Sees limits ts) (hu : u.EndsCommand) :
    ∃ us j k, Gives limits (listStep limits (pipelines, connectives)) p
      (fun r => ∃ state, r = .inl state ∧ ∃ rows done, RowsLeft as u rest state us j rows done)
      us k ∧ 0 < k ∧ j + k ≤ rounds := by
  obtain ⟨rfl, hrows, hspelled, rfl, hdone, rfl⟩ := h
  obtain ⟨hrow, hrows⟩ := List.forall_mem_cons.mp hrows
  obtain ⟨hspelled, hspelled'⟩ := List.forall_mem_cons.mp hspelled
  obtain ⟨v, more, hmore, hv⟩ := endsCommand_of_rows rest hrows hu
  rw [List.flatten_cons, List.append_assoc, hmore] at hp
  have hpos : 0 < row.length := by
    obtain ⟨_, ⟨_, ⟨t, _, rfl⟩, newlines, -, rfl⟩, ws, -, rfl⟩ := hrow
    simp
  refine ⟨v :: more, 3 * rows.flatten.length, row.length + 1,
    Gives.mono (gives_listStep hp hrow hspelled hv) ?_ (Nat.le_refl _), by omega,
    by rw [List.flatten_cons, List.length_append]; omega⟩
  rintro _ ⟨pipeline, connective, rfl, hpipeline⟩
  refine ⟨_, rfl, rows, done ++ [row.filterMap Token.assignment?], hmore.symm, hrows, hspelled',
    rfl, ?_, by simp⟩
  rw [List.reverse_cons, mapM_append_eq_some_iff]
  exact ⟨done, _, rfl, hdone, mapM_eq_some_iff.mpr (congrArg ([·]) hpipeline)⟩

end

theorem gives_list {body : List Token} (hp : p.Sees limits (body ++ u :: rest))
    (hbody : body ∈ Grammar.list) (hspelled : ∀ t ∈ body, Scanner.Spelled t) (hu : u.EndsCommand)
    (hconnective : ∀ c, u.kind ≠ .operator (.connective c)) :
    Gives limits (list limits) p
      (fun s => s.assignments? = some (body.filterMap Token.assignment?))
      (u :: rest) (3 * body.length) := by
  obtain ⟨ws, hws, _, hstar, rfl⟩ := hbody
  obtain ⟨rows, rfl, hrows⟩ := Language.mem_kstar.mp hstar
  obtain ⟨v, more, hmore, hv⟩ := endsCommand_of_rows rest hrows hu
  have hp' : p.Sees limits (ws ++ v :: more) := by
    rw [← hmore, ← List.append_assoc]
    exact hp
  have hspelled' : ∀ row ∈ rows, ∀ t ∈ row, Scanner.Spelled t := fun row hrow t ht =>
    hspelled t (List.mem_append_right _ (List.mem_flatten_of_mem hrow ht))
  -- There are words in the first pipeline, so it has its three rounds for each token as well.
  have hpos := List.length_pos_iff.mpr (Grammar.mem_command.mp hws).1
  refine (gives_pipeline hp' hws (fun t ht => hspelled t (List.mem_append_left _ ht)) hv).bind_le
    (3 * rows.flatten.length) ?_ (by simp; omega)
  intro first p₁ hfirst hp₁
  rw [← hmore] at hp₁
  refine gives_loop (fun state ts rounds => ∃ left done,
      RowsLeft ((ws ++ rows.flatten).filterMap Token.assignment?) u rest state ts rounds left done)
    ⟨rows, [ws.filterMap Token.assignment?], rfl, hrows, hspelled', rfl, ?_, by simp⟩ hp₁ ?_
  · exact mapM_eq_some_iff.mpr (congrArg ([·]) hfirst)
  · rintro ⟨pipelines, connectives⟩ ts rounds p₂ ⟨left, done, hleft⟩ hp₂
    cases left with
    | nil => exact .inr (hleft.gives_end hp₂ hconnective)
    | cons row left => exact .inl (hleft.gives_row hp₂ hu)

/-! ## Statements -/

theorem gives_statement?_none {newlines : List Token} (hp : p.Sees limits (newlines ++ u :: rest))
    (hnewlines : newlines ∈ Grammar.newlines) (hu : u.kind = .eof) :
    Gives limits (statement? limits) p (· = none) (u :: rest) newlines.length := by
  refine (gives_skipNewlines hp hnewlines (by simp [hu])).bind_le 0 ?_ (by omega)
  intro _ p₁ _ hp₁
  refine (gives_check hp₁ .eof).bind ?_
  rintro _ p₂ rfl hp₂
  rw [if_pos (beq_iff_eq.mpr hu)]
  exact gives_pure rfl hp₂

/-- A list with its separator, or up to the end of the script. -/
theorem gives_statement?_some {newlines body : List Token}
    (hp : p.Sees limits (newlines ++ (body ++ u :: rest))) (hnewlines : newlines ∈ Grammar.newlines)
    (hbody : body ∈ Grammar.list) (hspelled : ∀ t ∈ body, Scanner.Spelled t)
    (hu : u.kind = .operator .semi ∨ u.kind = .newline ∨ u.kind = .eof) :
    Gives limits (statement? limits) p
      (fun r => ∃ s, r = some s ∧ s.assignments? = some (body.filterMap Token.assignment?))
      (if u.kind = .eof then u :: rest else rest) (3 * body.length + newlines.length) := by
  obtain ⟨v, more, hmore, hv⟩ : ∃ v more, body ++ u :: rest = v :: more ∧ v.kind = .word := by
    obtain ⟨ws, hws, rows, -, rfl⟩ := hbody
    obtain ⟨v, more, rfl, hv⟩ := exists_word_of_mem_command hws
    exact ⟨v, _, rfl, hv⟩
  have hends : u.EndsCommand := Token.endsCommand_of_kind (by tauto)
  have hconnective : ∀ c, u.kind ≠ .operator (.connective c) := by
    intro c hc
    rw [hc] at hu
    simp at hu
  have hamp : u.kind ∉ [Kind.operator .amp] := by
    rcases hu with hu | hu | hu <;> simp [hu]
  rw [hmore] at hp
  refine (gives_skipNewlines hp hnewlines (by simp [hv])).bind ?_
  intro _ p₁ _ hp₁
  refine (gives_check hp₁ .eof).bind ?_
  rintro _ p₂ rfl hp₂
  rw [if_neg (by simp [hv])]
  rw [← hmore] at hp₂
  refine (gives_list hp₂ hbody hspelled hends hconnective).bind_le 0 ?_
    (Nat.le_of_eq (Nat.zero_add _))
  intro s p₃ hs hp₃
  refine (gives_accept_none hp₃ hamp).bind ?_
  rintro _ p₄ rfl hp₄
  rw [if_neg (by simp)]
  -- The end token stays for the next statement, a separator does not.
  by_cases heof : u.kind = .eof
  · have hseparator : u.kind ∉ [Kind.operator .semi, .newline] := by simp [heof]
    refine (gives_accept_none hp₄ hseparator).bind ?_
    rintro _ p₅ rfl hp₅
    rw [if_neg (by simp)]
    refine (gives_check hp₅ .eof).bind ?_
    rintro _ p₆ rfl hp₆
    rw [if_pos (beq_iff_eq.mpr heof), if_pos heof]
    exact gives_pure ⟨s, rfl, hs⟩ hp₆
  · have hseparator : u.kind ∈ [Kind.operator .semi, .newline] := by
      rcases hu with hu | hu | hu <;> simp_all
    refine (gives_accept_some hp₄ hseparator).bind ?_
    rintro _ p₅ rfl hp₅
    rw [if_pos Option.isSome_some, if_neg heof]
    exact gives_pure ⟨s, rfl, hs⟩ hp₅

end Parse

end EnvScript
