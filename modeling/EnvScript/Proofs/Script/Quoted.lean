import EnvScript.Proofs.Replacement.Literal
import EnvScript.Proofs.Script.Success

/-!
# Quoted variables in a replacement

In `${O//"$P"/"$R"}` the quotes take every meaning from the characters of the two variables: the
text of the one is replaced by the text of the other, whatever they are.
-/

namespace EnvScript

variable {limits : Limits} {c : Context}

/-! ## Scripts of one word -/

section

variable {script : Text} {w : Word} {after : Cursor}

theorem yields_of_word
    (hw : readWord limits.nesting 0 {} (.ofText script) = .ok (w, after))
    (hafter : after.skipBlanks.rest = []) (hne : script ≠ [])
    (hblank : Cursor.blankStep script = 0) (hlexeme : Scanner.leadingLexeme? script = none)
    (hsize : script.length ≤ limits.inputSize) (htokens : 1 ≤ limits.tokens) :
    ∃ t e s', Scanner.Yields limits (.ofText script) [t, e] s' ∧ t.lexeme = .word w ∧
      e.kind = .eof := by
  have hfirst := Scanner.next_word (s := .ofText script) hsize htokens hne hblank hlexeme hw
  have hlast := Scanner.next_end_of_skipBlanks (s := ⟨after, 0, 1, script.length⟩) hsize hafter
  exact ⟨_, _, _, .cons hfirst (.single hlast), rfl, rfl⟩

/-- A script that is one word, perhaps with blanks behind it, stores the value of that word. -/
theorem succeeds_of_word {name v : Text} {value : Word}
    (hw : readWord limits.nesting 0 {} (.ofText script) = .ok (w, after))
    (hafter : after.skipBlanks.rest = []) (hne : script ≠ [])
    (hblank : Cursor.blankStep script = 0) (hlexeme : Scanner.leadingLexeme? script = none)
    (hassignment : w.assignment? = some (name, some value))
    (hvalue : expandWord limits c value = .ok v) (hsize : script.length ≤ limits.inputSize)
    (htokens : 1 ≤ limits.tokens) :
    SucceedsWithin limits 6 (runScript limits script c) (c.set name v) := by
  obtain ⟨t, e, s', hyields, ht, he⟩ := yields_of_word hw hafter hne hblank hlexeme hsize htokens
  have hassign := (Token.assignment?_of_lexeme ht).trans hassignment
  have hcommand : [t] ∈ Grammar.command := Grammar.mem_command_single (by simp [hassign])
  -- One command is a list, and a list up to the end is a script.
  have hrows : Grammar.Rows [t, e] :=
    .last (Language.nil_mem_kstar _) (Grammar.mem_list_of_command hcommand) he
  have hends : EndsWithin _ _ _ (Eval.assignAll limits _ c) := endsWithin_of_yields hrows hyields
  have hnone : e.assignment? = none := Grammar.assignment?_eq_none (by simp [he])
  rw [List.filterMap_cons_some hassign, List.filterMap_cons_none hnone, List.filterMap_nil,
    Eval.assignAll_of_storeAll?] at hends
  · exact hends.succeeds
  · rw [Context.storeAll?_cons, Context.store?, hvalue]
    rfl

/-- A script that is one word and nothing else stores the value of that word. -/
theorem runScript_of_word {name v : Text} {value : Word}
    (hw : readWord limits.nesting 0 {} (.ofText script) = .ok (w, after)) (hafter : after.rest = [])
    (hne : script ≠ []) (hblank : Cursor.blankStep script = 0)
    (hlexeme : Scanner.leadingLexeme? script = none)
    (hassignment : w.assignment? = some (name, some value))
    (hvalue : expandWord limits c value = .ok v) (hsize : script.length ≤ limits.inputSize)
    (htokens : 1 ≤ limits.tokens) (hrounds : 6 ≤ limits.iterations) :
    runScript limits script c = ⟨.ok (), c.set name v⟩ :=
  (succeeds_of_word hw (by rw [Cursor.skipBlanks_of_nil hafter, hafter]) hne hblank hlexeme
    hassignment hvalue hsize htokens).eq_ok hrounds

end

/-! ## The replacement -/

section

variable {origin pattern replacement o p r : Text}

/-- The spec `"$pattern"/"$replacement"`. -/
def quotedSides (pattern replacement : Text) : List Part :=
  [.double [.parameter (.var pattern)], .literal ['/'], .double [.parameter (.var replacement)]]

/-- The value `${origin//"$pattern"/"$replacement"}`, or with one slash after the name if `all` is
`false`. -/
def quotedReplacement (all : Bool) (origin pattern replacement : Text) : Word :=
  [.substitution (.var origin) (if all then .replaceAll else .replace)
    (quotedSides pattern replacement)]

/-- In double quotes the value of a variable is escaped. -/
theorem expandSpecPart_double_var {name v : Text} (hv : c.get? name = some v) :
    expandSpecPart limits c false (.double [.parameter (.var name)]) = .ok (Spec.escape v) := by
  rw [expandSpecPart, expandSpec, expandSpecPart, Parameter.value, hv, expandSpec]
  show Except.ok (quotedSpec true v ++ []) = _
  rw [List.append_nil]
  rfl

theorem expandSpec_quotedSides (hp : c.get? pattern = some p) (hr : c.get? replacement = some r) :
    expandSpec limits c false (quotedSides pattern replacement) =
      .ok (Spec.escape p ++ '/' :: Spec.escape r) := by
  rw [quotedSides, expandSpec, expandSpecPart_double_var hp, expandSpec, expandSpecPart, expandSpec,
    expandSpecPart_double_var hr, expandSpec]
  show Except.ok (Spec.escape p ++ ('/' :: (Spec.escape r ++ []))) = _
  rw [List.append_nil]

/-- Quoted variables on both sides of the separator replace the one text by the other. -/
theorem replaced_quotedReplacement (limits : Limits) (all : Bool) (ho : c.get? origin = some o)
    (hp : c.get? pattern = some p) (hr : c.get? replacement = some r) (hne : p ≠ [])
    (hlimit : ∀ g, Glob.ofPattern (Spec.escape p) = .ok g →
      (g.regex.length : Int) ≤ limits.pattern) :
    ∃ w, Replaced p r all o w ∧
      expandWord limits c (quotedReplacement all origin pattern replacement) = .ok w := by
  obtain ⟨w, hw, hreplaced⟩ :=
    replaced_replace limits o p r hne all (hlimit _ (ofPattern_escape p))
  have horigin : (Parameter.var origin).origin c = .ok o := by
    rw [Parameter.origin, ho]
  have happly : (if all then Operation.replaceAll else .replace).apply limits o
      (Spec.escape p ++ '/' :: Spec.escape r) = .ok w := by
    cases all <;> exact hw
  refine ⟨w, hreplaced, ?_⟩
  rw [quotedReplacement, expandWord, expandPart, horigin, expandSpec_quotedSides hp hr, expandWord]
  show ((if all then Operation.replaceAll else .replace).apply limits o
    (Spec.escape p ++ '/' :: Spec.escape r)).bind (fun text => .ok (text ++ [])) = _
  rw [happly]
  exact congrArg Except.ok (List.append_nil w)

unseal readWord in
theorem readWord_replaceAll :
    readWord 64 0 {} (.ofText "X=$\x7bO//\"$P\"/\"$R\"\x7d".toList) =
      .ok (.literal ['X', '='] :: quotedReplacement true ['O'] ['P'] ['R'],
        ⟨[], 17, ⟨1, 18⟩⟩) := by
  rfl

unseal readWord in
theorem readWord_replace :
    readWord 64 0 {} (.ofText "X=$\x7bO/\"$P\"/\"$R\"\x7d".toList) =
      .ok (.literal ['X', '='] :: quotedReplacement false ['O'] ['P'] ['R'],
        ⟨[], 16, ⟨1, 17⟩⟩) := by
  rfl

/-- `X=${O//"$P"/"$R"}` replaces the text of `P` in that of `O` everywhere, and with one slash after
the name where it first occurs, if only the regular expression of the pattern is not too long. -/
theorem runScript_quoted_replacement {n : Int} (ho : c.get? ['O'] = some o)
    (hp : c.get? ['P'] = some p) (hr : c.get? ['R'] = some r) (hne : p ≠ [])
    (hlimit : ∀ g, Glob.ofPattern (Spec.escape p) = .ok g → (g.regex.length : Int) ≤ n) :
    (∃ w, Replaced p r true o w ∧
      runScript { pattern := n } "X=$\x7bO//\"$P\"/\"$R\"\x7d".toList c =
        ⟨.ok (), c.set ['X'] w⟩) ∧
    ∃ w, Replaced p r false o w ∧
      runScript { pattern := n } "X=$\x7bO/\"$P\"/\"$R\"\x7d".toList c =
        ⟨.ok (), c.set ['X'] w⟩ := by
  have hreplaced := fun all =>
    replaced_quotedReplacement { pattern := n } all ho hp hr hne hlimit
  -- The other limits are the defaults, and the script is well below them.
  have htokens : 1 ≤ ({ pattern := n } : Limits).tokens := (by decide : (1 : Int) ≤ 100000)
  have hrounds : 6 ≤ ({ pattern := n } : Limits).iterations := (by decide : (6 : Int) ≤ 1000000)
  constructor
  · obtain ⟨w, hreplaced, hw⟩ := hreplaced true
    exact ⟨w, hreplaced, runScript_of_word readWord_replaceAll rfl (by decide) (by decide)
      (by decide) rfl hw (by decide : (17 : Int) ≤ 1000000) htokens hrounds⟩
  · obtain ⟨w, hreplaced, hw⟩ := hreplaced false
    exact ⟨w, hreplaced, runScript_of_word readWord_replace rfl (by decide) (by decide)
      (by decide) rfl hw (by decide : (16 : Int) ≤ 1000000) htokens hrounds⟩

/-- The pattern holds a wildcard and a separator, and the replacement a backslash. -/
theorem replacement_of_wildcards :
    (∃ w, Replaced "*/".toList "\\[".toList true "a*/b*/".toList w ∧
      runScript {} "X=$\x7bO//\"$P\"/\"$R\"\x7d".toList
          (.ofPairs [(['O'], "a*/b*/".toList), (['P'], "*/".toList), (['R'], "\\[".toList)]) =
        ⟨.ok (), (Context.ofPairs [(['O'], "a*/b*/".toList), (['P'], "*/".toList),
          (['R'], "\\[".toList)]).set ['X'] w⟩) ∧
    ∃ w, Replaced "*/".toList "\\[".toList false "a*/b*/".toList w ∧
      runScript {} "X=$\x7bO/\"$P\"/\"$R\"\x7d".toList
          (.ofPairs [(['O'], "a*/b*/".toList), (['P'], "*/".toList), (['R'], "\\[".toList)]) =
        ⟨.ok (), (Context.ofPairs [(['O'], "a*/b*/".toList), (['P'], "*/".toList),
          (['R'], "\\[".toList)]).set ['X'] w⟩ := by
  refine runScript_quoted_replacement rfl rfl rfl (by decide) ?_
  intro g hg
  obtain rfl := Except.ok.inj ((ofPattern_escape _).symm.trans hg)
  decide

end

end EnvScript
