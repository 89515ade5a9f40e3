import EnvScript.Proofs.Script.Failure

/-!
# How a run goes on and where it fails

A run that has reached a place does what the run of the statements from there on does. A script that
fails reaches a statement that cannot be read, or one whose evaluation fails.
-/

namespace EnvScript

variable {limits : Limits} {p p₁ q : Parser} {c c₁ c' : Context} {s : Statement}
  {as bs : List Assignment} {script : Text} {f : Failure}

/-! ## The statements from a place on -/

/-- What a run does from a place on that it reaches. -/
theorem Ran.runStatements {n : Nat} (h : Ran limits p c as p₁ c₁) (hn : p.unread < n) :
    ∃ n₁, p₁.unread < n₁ ∧ runStatements limits n p c = runStatements limits n₁ p₁ c₁ := by
  induction h generalizing n with
  | nil => exact ⟨n, hn, rfl⟩
  | cons hread has hstored _ ih =>
    obtain ⟨n, rfl⟩ : ∃ j, n = j + 1 := ⟨n - 1, by omega⟩
    have hlt := unread_lt_of_statement? hread
    obtain ⟨n₁, hn₁, heq⟩ := ih (n := n) (by omega)
    rw [runStatements_of_some hread (Eval.statement_eq_ok_iff.mpr ⟨_, has, hstored⟩)]
    exact ⟨n₁, hn₁, heq⟩

/-! ## Failures -/

/-- The script fails with `f` because a statement cannot be read, and leaves the context `c'`. -/
def FailsReading (limits : Limits) (script : Text) (c : Context) (f : Failure) (c' : Context) :
    Prop :=
  ∃ as p e p', Ran limits (.ofText script) c as p c' ∧ Parse.statement? limits p = .error e p' ∧
    f = e.failure p'.last

/-- The script fails with `f` in the evaluation of a statement and leaves the context `c'`. -/
def FailsEvaluating (limits : Limits) (script : Text) (c : Context) (f : Failure) (c' : Context) :
    Prop :=
  ∃ as p c₁ s p', Ran limits (.ofText script) c as p c₁ ∧
    Parse.statement? limits p = .ok (some s) p' ∧
    Eval.statement limits s c₁ = .error f.error c' ∧ f.position = p'.last

theorem FailsReading.runScript (h : FailsReading limits script c f c') :
    runScript limits script c = ⟨.error f, c'⟩ := by
  obtain ⟨as, p, e, p', hran, hread, rfl⟩ := h
  obtain ⟨n, hn, heq⟩ := hran.runStatements (Nat.lt_succ_self script.length)
  obtain ⟨n, rfl⟩ : ∃ j, n = j + 1 := ⟨n - 1, by omega⟩
  exact heq.trans (runStatements_of_error hread)

theorem FailsEvaluating.runScript (h : FailsEvaluating limits script c f c') :
    runScript limits script c = ⟨.error f, c'⟩ := by
  obtain ⟨as, p, c₁, s, p', hran, hread, heval, hposition⟩ := h
  obtain ⟨n, hn, heq⟩ := hran.runStatements (Nat.lt_succ_self script.length)
  obtain ⟨n, rfl⟩ : ∃ j, n = j + 1 := ⟨n - 1, by omega⟩
  refine heq.trans ?_
  rw [runStatements_of_stop hread heval, ← hposition]

theorem runScript_eq_error_iff :
    runScript limits script c = ⟨.error f, c'⟩ ↔
      FailsReading limits script c f c' ∨ FailsEvaluating limits script c f c' := by
  constructor
  · intro h
    obtain ⟨as, p, c₁, hran, hends⟩ : ∃ as p c₁, Ran limits (.ofText script) c as p c₁ ∧ _ :=
      runStatements_stores (Nat.lt_succ_self script.length)
    rcases hends with hok | ⟨f', before, c₂, herror, hstops, -⟩
    · exact absurd (congrArg Outcome.result (h.symm.trans hok)) (by simp)
    · obtain rfl := Except.error.inj (congrArg Outcome.result (h.symm.trans herror))
      cases hstops with
      | @reading e p' hread =>
        have hfails : FailsReading limits script c (e.failure p'.last) c₁ :=
          ⟨as, p, e, p', hran, hread, rfl⟩
        obtain rfl := congrArg Outcome.context (h.symm.trans hfails.runScript)
        exact .inl hfails
      | @evaluating s p' e c₃ before hread heval hstops =>
        have hfails : FailsEvaluating limits script c ⟨e, p'.last⟩ c₃ :=
          ⟨as, p, c₁, s, p', hran, hread, heval, rfl⟩
        obtain rfl := congrArg Outcome.context (h.symm.trans hfails.runScript)
        exact .inr hfails
  · rintro (h | h)
    · exact h.runScript
    · exact h.runScript

/-- Reading fails only because of a malformed text, an oversized numeral or an operation that finds
nothing. -/
theorem failsEvaluating_of_error (h : runScript limits script c = ⟨.error f, c'⟩)
    (hmalformed : ∀ fault, f.error ≠ .malformed fault)
    (hnumeral : ∀ n, f.error ≠ .oversizedNumeral n) (hmissing : ∀ m, f.error ≠ .missing m) :
    FailsEvaluating limits script c f c' := by
  refine (runScript_eq_error_iff.mp h).resolve_left ?_
  rintro ⟨as, p, e, p', -, -, rfl⟩
  rcases e.cases_fault with ⟨fault, position, hfault, rfl⟩ | ⟨m, position, rfl⟩ | ⟨n, rfl⟩
  · rw [ReadError.failure_malformed hfault] at hmalformed
    exact hmalformed fault rfl
  · exact hmissing m rfl
  · exact hnumeral n rfl

/-- A run that stops in an evaluation does not reach a statement that cannot be read. -/
theorem Ran.readable {e : ReadError} {e' : EvalError} {p' q' : Parser} {d d' : Context}
    (h : Ran limits p c as p₁ c₁) (hread : Parse.statement? limits p₁ = .error e p')
    (h' : Ran limits p c bs q d) (hread' : Parse.statement? limits q = .ok (some s) q')
    (heval : Eval.statement limits s d = .error e' d') : False := by
  -- Both runs read the same statements, for as long as they go on.
  induction h generalizing bs with
  | nil =>
    cases h' with
    | nil => exact absurd (hread.symm.trans hread') (by simp)
    | cons hfirst _ _ _ => exact absurd (hread.symm.trans hfirst) (by simp)
  | cons hfirst has hstored _ ih =>
    cases h' with
    | nil =>
      obtain ⟨hsome, rfl⟩ := EStateM.Result.ok.inj (hfirst.symm.trans hread')
      obtain rfl := Option.some.inj hsome
      have hok := Eval.statement_eq_ok_iff.mpr ⟨_, has, hstored⟩
      exact absurd (hok.symm.trans heval) (by simp)
    | cons hfirst' has' hstored' hrest' =>
      obtain ⟨hsome, rfl⟩ := EStateM.Result.ok.inj (hfirst.symm.trans hfirst')
      obtain rfl := Option.some.inj hsome
      obtain rfl := Option.some.inj (has.symm.trans has')
      obtain rfl := Option.some.inj (hstored.symm.trans hstored')
      exact ih hread hrest'

end EnvScript
