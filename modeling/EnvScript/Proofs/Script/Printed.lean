import EnvScript.Proofs.CommandLine.Names
import EnvScript.Proofs.Script.Joined
import EnvScript.Proofs.Script.Quoted
import EnvScript.Proofs.Token.Separated

/-!
# Printed variables

The lines in which a context is printed are a script that gives the context back.
-/

namespace EnvScript

variable {limits limits' : Limits} {c c' : Context} {name value script : Text}
  {pairs : List (Text × Text)}

/-- A variable as a line of a script. -/
def printedLine (pair : Text × Text) : Text := pair.1 ++ '=' :: quoteValue pair.2

/-! ## One line -/

/-- Limits with room for the assignment of one word. -/
def Limits.forLine (limits : Limits) (line : Text) : Limits :=
  { limits with
    inputSize := max limits.inputSize line.length
    tokens := max limits.tokens 1
    iterations := max limits.iterations 6 }

theorem Limits.tighter_forLine (limits : Limits) (line : Text) :
    limits.Tighter (limits.forLine line) :=
  ⟨Int.le_max_left _ _, Int.le_max_left _ _, Int.le_max_left _ _, Int.le_refl _, Int.le_refl _⟩

theorem quoteValue_ne_nil (value : Text) : quoteValue value ≠ [] := by
  unfold quoteValue
  split
  · rename_i hsafe
    rintro rfl
    exact absurd hsafe (by simp)
  · simp

/-- A script `NAME=…` of a text that spells a value stores it, with or without blanks behind the
text. -/
theorem succeeds_of_spells_blanks {t s v : Text} (hname : isName name = true)
    (h : Spells limits.nesting 0 t v) (ht : t ≠ []) (hseam : StartsSeam s)
    (hblanks : ∀ x ∈ s, x ∈ Cursor.blanks)
    (hsize : (name ++ '=' :: (t ++ s)).length ≤ limits.inputSize) (htokens : 1 ≤ limits.tokens) :
    SucceedsWithin limits 6 (runScript limits (name ++ '=' :: (t ++ s)) c) (c.set name v) := by
  obtain ⟨x, rest, rfl⟩ : ∃ x rest, name = x :: rest :=
    List.exists_cons_of_ne_nil (by rintro rfl; exact absurd hname (by simp [isName]))
  have hx : isNameStart x = true := (Bool.and_eq_true_iff.mp hname).1
  obtain ⟨w, after, word, hw, hafter, hassignment, hvalue⟩ := readWord_assignment hname h ht hseam
  exact succeeds_of_word hw (Cursor.rest_skipBlanks_of_blanks (hafter ▸ hblanks))
    (List.cons_ne_nil x _) (blankStep_of_isNameStart hx _) (leadingLexeme?_of_isNameStart hx _)
    hassignment (hvalue _ c) hsize htokens

theorem succeeds_of_spells {t v : Text} (hname : isName name = true)
    (h : Spells limits.nesting 0 t v) (ht : t ≠ [])
    (hsize : (name ++ '=' :: t).length ≤ limits.inputSize) (htokens : 1 ≤ limits.tokens) :
    SucceedsWithin limits 6 (runScript limits (name ++ '=' :: t) c) (c.set name v) := by
  rw [← List.append_nil t] at hsize ⊢
  exact succeeds_of_spells_blanks hname h ht (by simp [StartsSeam]) (by simp) hsize htokens

/-- A line gives its variable the value it was printed from. -/
theorem runScript_printedLine (hname : isName name = true) (limits : Limits) (value : Text)
    (c : Context) :
    runScript (limits.forLine (printedLine (name, value))) (printedLine (name, value)) c =
      ⟨.ok (), c.set name value⟩ :=
  (succeeds_of_spells hname (spells_quoteValue value) (quoteValue_ne_nil value)
    (Int.le_max_right _ _) (Int.le_max_right _ _)).eq_ok (Int.le_max_right _ _)

/-- With room for it the line does nothing but store the pair, and it does not take the newline
behind it for its own. -/
structure StoresLine (line : Text) (pair : Text × Text) : Prop where
  open_end : line.getLast? ≠ some '\\'
  run (limits : Limits) (c : Context) :
    runScript (limits.forLine line) line c = ⟨.ok (), c.set pair.1 pair.2⟩

theorem getLast?_printedLine (pair : Text × Text) : (printedLine pair).getLast? ≠ some '\\' := by
  have hlast : (printedLine pair).getLast? = (quoteValue pair.2).getLast? := by
    have happend : printedLine pair = (pair.1 ++ ['=']) ++ quoteValue pair.2 := by
      simp [printedLine]
    rw [happend, List.getLast?_append_of_ne_nil _ (quoteValue_ne_nil pair.2)]
  rw [hlast]
  intro h
  have hmem := List.mem_of_getLast? h
  unfold quoteValue at h hmem
  split at hmem
  · rename_i hsafe
    have hall := List.all_eq_true.mp (Bool.and_eq_true_iff.mp hsafe).2
    exact absurd (hall _ hmem) (by decide)
  · rename_i hsafe
    rw [if_neg hsafe, List.getLast?_concat] at h
    exact absurd h (by decide)

theorem storesLine_printedLine {pair : Text × Text} (hname : isName pair.1 = true) :
    StoresLine (printedLine pair) pair :=
  ⟨getLast?_printedLine pair, fun limits c => runScript_printedLine hname limits pair.2 c⟩

/-! ## Many lines -/

/-- After the lines of variables a script goes on with these assigned. The induction is over the
lines, each of which is a script in front of the others. -/
theorem runScript_lines {α : Type} {line : α → Text} {stored : α → Text × Text} {lines : List α}
    (hlines : ∀ l ∈ lines, StoresLine (line l) (stored l))
    (hwithin : (runScript limits (lines.flatMap (line · ++ ['\n']) ++ script) c).WithinLimits)
    (hrest : (runScript limits script (c.assign (lines.map stored))).WithinLimits →
      runScript limits script (c.assign (lines.map stored)) = ⟨.ok (), c'⟩) :
    runScript limits (lines.flatMap (line · ++ ['\n']) ++ script) c = ⟨.ok (), c'⟩ := by
  induction lines generalizing c with
  | nil => exact hrest hwithin
  | cons l lines ih =>
    obtain ⟨hline, hlines⟩ := List.forall_mem_cons.mp hlines
    rw [List.flatMap_cons, List.append_assoc, List.append_assoc, List.singleton_append]
      at hwithin ⊢
    have hbelow := runScript_append_newline (limits.tighter_forLine (line l)) hline.open_end hwithin
      (hline.run limits c)
    rw [ih hlines (hbelow.withinLimits hwithin) hrest] at hbelow
    exact hbelow.eq_ok

theorem runScript_printedLines (hpairs : ∀ pair ∈ pairs, isName pair.1 = true)
    (hwithin : (runScript limits (pairs.flatMap (printedLine · ++ ['\n']) ++ script)
      c).WithinLimits)
    (hrest : (runScript limits script (c.assign pairs)).WithinLimits →
      runScript limits script (c.assign pairs) = ⟨.ok (), c'⟩) :
    runScript limits (pairs.flatMap (printedLine · ++ ['\n']) ++ script) c = ⟨.ok (), c'⟩ := by
  have hlines : ∀ pair ∈ pairs, StoresLine (printedLine pair) (id pair) := fun pair hpair =>
    storesLine_printedLine (hpairs pair hpair)
  exact runScript_lines hlines hwithin (by rwa [List.map_id])

theorem intercalate_concat (lines : List Text) (line : Text) :
    ['\n'].intercalate (lines ++ [line]) = lines.flatMap (· ++ ['\n']) ++ line := by
  induction lines with
  | nil => exact List.intercalate_singleton
  | cons l lines ih =>
    obtain ⟨l', rest, hrest⟩ := List.exists_cons_of_ne_nil (List.append_ne_nil_of_right_ne_nil lines
      (List.cons_ne_nil line []))
    rw [List.cons_append, hrest, List.intercalate_cons_cons, ← hrest, ih, List.flatMap_cons,
      List.append_assoc, List.append_assoc, List.append_assoc]

theorem assignIn_of_notMem {entries : List (Text × Text)} (h : name ∉ entries.map Prod.fst) :
    assignIn name value entries = entries ++ [(name, value)] := by
  induction entries with
  | nil => rfl
  | cons e entries ih =>
    obtain ⟨hne, hrest⟩ := not_or.mp (List.mem_cons.not.mp h)
    rw [assignIn, if_neg (Ne.symm hne), ih hrest, List.cons_append]

theorem Context.entries_assign (h : (c.entries.map Prod.fst ++ pairs.map Prod.fst).Nodup) :
    (c.assign pairs).entries = c.entries ++ pairs := by
  induction pairs generalizing c with
  | nil => exact (List.append_nil _).symm
  | cons pair pairs ih =>
    have hnew : pair.1 ∉ c.entries.map Prod.fst := fun hmem =>
      (List.nodup_append.mp h).2.2 _ hmem _ List.mem_cons_self rfl
    have hset : (c.set pair.1 pair.2).entries = c.entries ++ [pair] := assignIn_of_notMem hnew
    have hnodup : ((c.set pair.1 pair.2).entries.map Prod.fst ++ pairs.map Prod.fst).Nodup := by
      rw [hset, List.map_append, List.append_assoc]
      exact h
    exact (ih hnodup).trans (by rw [hset, List.append_assoc, List.singleton_append])

/-- A context is what its entries make of the empty one. -/
theorem Context.ofPairs_entries (c : Context) : ofPairs c.entries = c := by
  have hentries : (ofPairs c.entries).entries = c.entries := entries_assign c.distinct
  obtain ⟨entries, distinct⟩ := c
  generalize ofPairs entries = c' at hentries
  obtain ⟨entries', distinct'⟩ := c'
  obtain rfl := hentries
  rfl

/-- Lines `NAME=value` with the values as they are printed assign these values, with a newline
behind every line or only between them. What the command line prints of its variables gives them
back in the same order. -/
theorem runScript_printed (limits : Limits) :
    (∀ pairs c text, (∀ pair ∈ pairs, isName pair.1 = true) →
      text = pairs.flatMap (printedLine · ++ ['\n']) ∨
        text = ['\n'].intercalate (pairs.map printedLine) →
      (runScript limits text c).WithinLimits →
      runScript limits text c = ⟨.ok (), c.assign pairs⟩) ∧
    ∀ argv folder stdin context, CommandLine.run argv folder stdin = .printed context false →
      (runScript limits (Exit.printed context false).stdout.toList .empty).WithinLimits →
      runScript limits (Exit.printed context false).stdout.toList .empty = ⟨.ok (), context⟩ := by
  have hlines : ∀ {pairs : List (Text × Text)} {c : Context},
      (∀ pair ∈ pairs, isName pair.1 = true) →
      (runScript limits (pairs.flatMap (printedLine · ++ ['\n'])) c).WithinLimits →
      runScript limits (pairs.flatMap (printedLine · ++ ['\n'])) c = ⟨.ok (), c.assign pairs⟩ := by
    intro pairs c hpairs hwithin
    rw [← List.append_nil (pairs.flatMap _)] at hwithin ⊢
    exact runScript_printedLines hpairs hwithin runScript_nil
  refine ⟨?_, ?_⟩
  · rintro pairs c _ hpairs (rfl | rfl) hwithin
    · exact hlines hpairs hwithin
    · rcases List.eq_nil_or_concat pairs with rfl | ⟨before, last, rfl⟩
      · exact runScript_nil hwithin
      · rw [List.concat_eq_append, List.map_append, List.map_singleton, intercalate_concat,
          List.flatMap_map] at hwithin ⊢
        refine runScript_printedLines (fun pair hpair => hpairs pair (by simp [hpair])) hwithin
          fun hlast => ?_
        have hbelow := runScript_of_tighter (limits.tighter_forLine (printedLine last)) hlast
        rw [runScript_printedLine (hpairs last (by simp))] at hbelow
        rw [hbelow.eq_ok, Context.assign, Context.assign, List.foldl_append]
        rfl
  · intro argv folder stdin context hrun hwithin
    have hnamed : ∀ pair ∈ context.entries, isName pair.1 = true := fun pair hpair =>
      CommandLine.named_of_run_eq_printed hrun pair.1 (List.mem_map_of_mem hpair)
    have hprinted : (Exit.printed context false).stdout.toList =
        context.entries.flatMap (printedLine · ++ ['\n']) := String.toList_ofList
    rw [hprinted] at hwithin ⊢
    rw [hlines hnamed hwithin]
    exact congrArg _ context.ofPairs_entries

/-- A name that comes twice, with values of all kinds; and what a run of the command line that sets
two variables prints. -/
theorem printed_quotes_and_newlines :
    runScript {} "A=''\nB='it'\\''s\n#'\nA=:=".toList (.ofPairs [(['B'], ['1'])]) =
        ⟨.ok (), .ofPairs [(['B'], "it's\n#".toList), (['A'], ":=".toList)]⟩ ∧
      CommandLine.run ["--set".toList, "B=x \\".toList, "--set".toList, "A=".toList] ⟨[], []⟩ [] =
        .printed (.ofPairs [(['B'], "x \\".toList), (['A'], [])]) false ∧
      runScript {} (Exit.printed (.ofPairs [(['B'], "x \\".toList), (['A'], [])])
          false).stdout.toList .empty =
        ⟨.ok (), .ofPairs [(['B'], "x \\".toList), (['A'], [])]⟩ := by
  have hrun : CommandLine.run ["--set".toList, "B=x \\".toList, "--set".toList, "A=".toList]
      ⟨[], []⟩ [] = .printed (.ofPairs [(['B'], "x \\".toList), (['A'], [])]) false := by
    with_unfolding_all rfl
  refine ⟨?_, hrun, ?_⟩
  · exact (runScript_printed {}).1
      [(['A'], []), (['B'], "it's\n#".toList), (['A'], ":=".toList)] (.ofPairs [(['B'], ['1'])]) _
      (by decide) (.inr (by decide)) (by decide +kernel)
  · exact (runScript_printed {}).2 _ _ _ _ hrun (by decide +kernel)

end EnvScript
