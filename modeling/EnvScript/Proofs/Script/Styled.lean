import EnvScript.Proofs.Script.Printed
import EnvScript.Proofs.Word.Styled

/-!
# Values in quotes of all kinds

A variable can be given any text in pieces, each quoted in a style of its own.
-/

namespace EnvScript

/-- The quotations side by side give the variable the texts side by side. The limit on nesting has
to leave room for double quotes. The other limits must not be reached. -/
theorem runScript_quotations (limits : Limits) (name : Text) (pieces : List Quotation)
    (context : Context) (hname : isName name = true)
    (hne : pieces.flatMap Quotation.rendering ≠ []) (hnesting : 1 ≤ limits.nesting)
    (hothers : ∀ f,
      (runScript limits (name ++ '=' :: pieces.flatMap Quotation.rendering) context).result =
        .error f → f.error.isLimit = false ∨ f.error = .malformed .nestingTooDeep) :
    runScript limits (name ++ '=' :: pieces.flatMap Quotation.rendering) context =
      ⟨.ok (), context.set name (pieces.flatMap Quotation.text)⟩ := by
  have hspells : Spells limits.nesting 0 _ _ := spells_quotations hnesting pieces
  generalize pieces.flatMap Quotation.rendering = rendering at hne hothers hspells ⊢
  -- The word itself can be read, so what is left are the limits on the script as a whole.
  by_cases hsize : limits.inputSize < (name ++ '=' :: rendering).length
  · rw [runScript_of_next_error (Scanner.next_of_size_lt (s := .ofText _) hsize)] at hothers
    exact absurd (hothers _ rfl) (by simp [EvalError.isLimit, Fault.isLimit])
  by_cases htokens : limits.tokens < (0 + 1 : Nat)
  · obtain ⟨x, rest, rfl⟩ : ∃ x rest, name = x :: rest :=
      List.exists_cons_of_ne_nil (by rintro rfl; exact absurd hname (by simp [isName]))
    have hblank := blankStep_of_isNameStart (Bool.and_eq_true_iff.mp hname).1
      (rest ++ '=' :: rendering)
    rw [List.cons_append, runScript_of_next_error (Scanner.next_of_tokens_lt (s := .ofText _)
      (Int.not_lt.mp hsize) htokens (List.cons_ne_nil x _) hblank)] at hothers
    exact absurd (hothers _ rfl) (by simp [EvalError.isLimit, Fault.isLimit])
  rcases succeeds_of_spells hname hspells hne (Int.not_lt.mp hsize) (Int.not_lt.mp htokens) with
    hok | ⟨-, position, herror⟩
  · exact hok
  · exact absurd (hothers _ herror) (by simp [EvalError.isLimit, Fault.isLimit])

/-- All four styles, with signs that each of them has to deal with. -/
theorem quotations_of_all_styles :
    runScript {} "A='$x\n#'\"\\`\\\"\n'\"\\é\\~b:=".toList .empty =
      ⟨.ok (), .ofPairs [(['A'], "$x\n#`\"\n'é~b:=".toList)]⟩ := by
  have hwithin : (runScript {} "A='$x\n#'\"\\`\\\"\n'\"\\é\\~b:=".toList .empty).WithinLimits := by
    decide +kernel
  exact runScript_quotations {} ['A']
    [⟨.single, "$x\n#".toList, by decide⟩, ⟨.double, "`\"\n'".toList, trivial⟩,
      ⟨.escaped, "é~".toList, by decide⟩, ⟨.bare, "b:=".toList, by decide⟩]
    .empty (by decide) (by decide) (by decide) fun f hf => .inl (hwithin f hf)

end EnvScript
