import EnvScript.Proofs.Command.Last
import EnvScript.Proofs.Command.Positions
import EnvScript.Proofs.Script.Run

/-!
# Where a script fails

The position of an error is that of an offset of the script. It does not lie before the end of what
has been executed in full, and a statement whose evaluation fails is reported at its own end.
-/

namespace EnvScript

variable {limits : Limits} {script : Text} {n : Nat} {p p' : Parser} {ts : List Token}
  {c c' : Context} {as before : List Assignment} {f : Failure}

/-! ## Where the last token ended -/

/-- The last of some tokens does not end beyond the place where the scanner is after them. -/
theorem Scanner.Yields.exists_lastEnd {s s' : Scanner} (h : Scanner.Yields limits s ts s')
    (hat : s.cursor.At script) {j : Nat} (hj : j ≤ s.cursor.offset) :
    ∃ k ≤ s'.cursor.offset,
      Parser.lastEnd (.after .start (script.take j)) ts = .after .start (script.take k) := by
  induction h generalizing j with
  | nil => exact ⟨j, hj, rfl⟩
  | @cons s s₁ s' t ts hnext _ ih =>
    obtain ⟨hstands, hat₁, hoffset, -⟩ := stands_next hat hnext
    rw [Parser.lastEnd_cons]
    split
    · refine ih hat₁ (Nat.le_trans hj ?_)
      rw [hoffset]
      exact Nat.le_trans hstands.le_start hstands.start_le_stop
    · rw [hstands.stop_eq]
      exact ih hat₁ (Nat.le_of_eq hoffset.symm)

/-- A parser has not come further than to the end of the last token that was taken off. -/
theorem Parser.Took.exists_from (h : (Parser.ofText script).Took limits ts p) :
    ∃ k ≤ script.length, lastEnd .start ts = .after .start (script.take k) ∧
      p.From limits script k := by
  obtain ⟨us, hus, heq, hlast⟩ := h
  obtain rfl : us = ts ++ p.ahead := heq
  obtain ⟨s, hts, hahead⟩ := hus.of_append
  have hs : s.From limits script 0 := ((Scanner.from_ofText limits script).yields hts).1
  obtain ⟨k, hk, hend⟩ := hts.exists_lastEnd (Cursor.at_ofText script) (Nat.le_refl 0)
  have hfrom : s.From limits script k := ⟨hs.cursor, hk, hs.size⟩
  obtain ⟨hscanner, htokens⟩ := hfrom.yields hahead
  have hle : k ≤ script.length := Nat.le_trans hk hs.cursor.le
  refine ⟨k, hle, hend, hscanner, htokens, k, Nat.le_refl k, hle, ?_⟩
  rw [hlast]
  exact hend

/-! ## Runs -/

theorem Ran.from (h : Ran limits p c as p' c') (hp : p.From limits script n) :
    p'.From limits script n := by
  induction h with
  | nil => exact hp
  | cons hread _ _ _ ih => exact ih ((Parse.keeps_statement? hp).ok hread).1

/-- From `p` on, no failure is reported in front of the place where the parser stood. -/
theorem Parser.StopsAfter.from (h : p.StopsAfter limits c f before)
    (hp : p.From limits script n) (hcategory : f.error.category.isSome = true) :
    f.position.From script n := by
  cases h with
  | @reading e p' hread =>
    have hkeeps := Parse.keeps_statement? hp
    unfold Parse.Keeps Parse.Ends at hkeeps
    rw [hread] at hkeeps
    rcases e.cases_fault with ⟨fault, position, hfault, rfl⟩ | ⟨m, position, rfl⟩ | ⟨m, rfl⟩
    · rw [ReadError.failure_malformed hfault]
      exact hkeeps
    · exact absurd hcategory (by simp [ReadError.failure, EvalError.category])
    · exact absurd hcategory (by simp [ReadError.failure, EvalError.category])
  | evaluating hread _ _ => exact ((Parse.keeps_statement? hp).ok hread).1.last

/-- The statements from `p` on fail with `f`, and `f` is not reported in front of `p`. -/
theorem runStatements_from {m : Nat} (hm : p.unread < m)
    (h : runStatements limits m p c = ⟨.error f, c'⟩) (hp : p.From limits script n)
    (hcategory : f.error.category.isSome = true) : f.position.From script n := by
  obtain ⟨as, p₁, c₁, hran, hends⟩ : ∃ as p₁ c₁, Ran limits p c as p₁ c₁ ∧ _ :=
    runStatements_stores hm
  rcases hends with hok | ⟨f', before, c₂, herror, hstops, -⟩
  · exact absurd (congrArg Outcome.result (h.symm.trans hok)) (by simp)
  · obtain rfl := Except.error.inj (congrArg Outcome.result (h.symm.trans herror))
    exact hstops.from (hran.from hp) hcategory

/-- A failure that has a category is reported at the position of an offset `n` of the script, which
is not in front of the end of any token that has been executed. If it is the evaluation of a
statement that fails, it is the end of that statement's last token in front of its terminator. -/
theorem runScript_positions (limits : Limits) (script : Text) (context : Context) (f : Failure)
    (c' : Context) (h : runScript limits script context = ⟨.error f, c'⟩)
    (hcategory : f.error.category.isSome = true) :
    ∃ n ≤ script.length, f.position = .after .start (script.take n) ∧
      (∀ as p c ts, Ran limits (.ofText script) context as p c →
        (Parser.ofText script).Took limits ts p →
          ∃ m ≤ n, Parser.lastEnd .start ts = .after .start (script.take m)) ∧
      (FailsEvaluating limits script context f c' →
        ∃ as p c s p' newlines body t tail, Ran limits (.ofText script) context as p c ∧
          Parse.statement? limits p = .ok (some s) p' ∧
          Eval.statement limits s c = .error f.error c' ∧
          p.Took limits (newlines ++ (body ++ [t] ++ tail)) p' ∧
          (∀ u ∈ newlines, u.kind = .newline) ∧ Chained (body ++ [t]) s.pipelines ∧
          Terminates tail p' ∧ t.isSeparator = false ∧ f.position = t.stop) := by
  have hposition : ∀ {p : Parser} {m n : Nat} {c : Context}, p.unread < m →
      runStatements limits m p c = ⟨.error f, c'⟩ → p.From limits script n →
      n ≤ f.position.offsetIn script ∧ f.position.offsetIn script ≤ script.length ∧
        f.position = .after .start (script.take (f.position.offsetIn script)) :=
    fun hm hrun hp => (runStatements_from hm hrun hp hcategory).offsetIn
  obtain ⟨-, hle, heq⟩ :=
    hposition (Nat.lt_succ_self script.length) h (Parser.from_ofText limits script)
  refine ⟨_, hle, heq, fun as p c ts hran htook => ?_, ?_⟩
  · -- What is left of the script fails with `f` too.
    obtain ⟨k, -, hlast, hp⟩ := htook.exists_from
    obtain ⟨m, hm, hrun⟩ := hran.runStatements (Nat.lt_succ_self script.length)
    exact ⟨k, (hposition hm (hrun.symm.trans h) hp).1, hlast⟩
  · rintro ⟨as, p, c, s, p', hran, hread, heval, hlast⟩
    obtain ⟨newlines, body, t, tail, htook, hnewlines, hchained, htail, hseparator, hstop⟩ :=
      Parse.last_of_statement? hread
    exact ⟨as, p, c, s, p', newlines, body, t, tail, hran, hread, heval, htook, hnewlines, hchained,
      htail, hseparator, hlast.trans hstop⟩

/-- The list fails in its first pipeline and is reported where its last one ends, in front of the
comment. -/
theorem position_of_failing_list :
    ∃ n ≤ " A=1;\n B=$C && D=1 # x".toList.length,
      (⟨2, 13⟩ : Position) = .after .start (" A=1;\n B=$C && D=1 # x".toList.take n) ∧
      (∀ as p c ts, Ran {} (.ofText " A=1;\n B=$C && D=1 # x".toList) .empty as p c →
        (Parser.ofText " A=1;\n B=$C && D=1 # x".toList).Took {} ts p →
          ∃ m ≤ n, Parser.lastEnd .start ts =
            .after .start (" A=1;\n B=$C && D=1 # x".toList.take m)) ∧
      ∃ p p' newlines body t tail, Parser.Took {} p (newlines ++ (body ++ [t] ++ tail)) p' ∧
        Terminates tail p' ∧ t.isSeparator = false ∧ ⟨2, 13⟩ = t.stop := by
  have hrun : runScript {} " A=1;\n B=$C && D=1 # x".toList .empty =
      ⟨.error ⟨.unsetVariable ['C'], ⟨2, 13⟩⟩, .ofPairs [(['A'], ['1'])]⟩ :=
    Outcome.eq_mk (by decide +kernel) (by decide +kernel)
  obtain ⟨n, hn, hposition, hafter, hends⟩ := runScript_positions {} _ .empty _ _ hrun rfl
  obtain ⟨-, p, -, -, p', newlines, body, t, tail, -, -, -, htook, -, -, htail, hseparator,
    hstop⟩ := hends (failsEvaluating_of_error hrun (by simp) (by simp) (by simp))
  exact ⟨n, hn, hposition, hafter, p, p', newlines, body, t, tail, htook, htail, hseparator, hstop⟩

end EnvScript
