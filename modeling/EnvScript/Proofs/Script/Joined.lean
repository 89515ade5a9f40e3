import EnvScript.Proofs.Script.Alike
import EnvScript.Proofs.Token.Nesting

/-!
# Scripts one after the other

Two scripts with a newline between them do what the one does and then the other, if the first
succeeds. If the evaluation of one of its statements fails, they do what the first does.
-/

namespace EnvScript

variable {k m : Nat} {limits limits' : Limits} {p q : Parser} {c c₁ c' : Context} {o o' : Outcome}
  {s₁ s₂ script : Text} {f : Failure}

/-! ## Two scripts -/

/-- The parsers of a script and of a text that it begins. -/
theorem Parser.within_ofText {tail : Text} (hapart : Apart script tail) :
    (Parser.ofText script).Within 0 tail (1 + script.count '\n') (.ofText (script ++ tail)) := by
  have hscanner : (Scanner.ofText script).Within 0 tail (1 + script.count '\n')
      (Scanner.ofText (script ++ tail)) := by
    refine ⟨⟨rfl, rfl⟩, hapart, Position.line_after .start script, rfl, rfl, Nat.le_refl _, ?_,
      Nat.le_refl _⟩
    show script.length ≤ (script ++ tail).length
    rw [List.length_append]
    omega
  exact ⟨.inside .nil hscanner, .inl rfl, Nat.le_refl _⟩

/-- A script is run beside a text that it begins. -/
theorem runAlike_append {tail : Text} (hlimits : limits'.Tighter limits)
    (hapart : Apart script tail) (c : Context) :
    RunAlike 0 tail (1 + script.count '\n') limits limits' (.ofText script) c
      (runScript limits script c) (runScript limits' (script ++ tail) c) :=
  runAlike_runStatements hlimits (Parser.within_ofText hapart) (.refl _) (Nat.lt_succ_self _)
    (Nat.lt_succ_self _)

/-- A part with nothing behind it is the whole. -/
theorem RunAlike.below (h : RunAlike k [] m limits limits' p c o o') (hwithin : o'.WithinLimits) :
    o.Below k o' := by
  cases h with
  | ended _ => exact .ok _
  | passed hbeyond _ =>
    obtain ⟨-, u, -, hnil, -⟩ := hbeyond
    exact absurd hnil (by simp)
  | stopped f c' =>
    have hdown : f.Below k (f.down k) := ⟨rfl, fun _ => rfl⟩
    exact .failed hdown c'
  | unread _ _ hbelow => exact hbelow rfl
  | limited hlimit => exact absurd hwithin hlimit

/-- Under tighter limits a script that reaches none of them does what it did. -/
theorem runScript_of_tighter (hlimits : limits'.Tighter limits)
    (hwithin : (runScript limits' script c).WithinLimits) :
    (runScript limits script c).Below 0 (runScript limits' script c) := by
  have halike := runAlike_append hlimits (.inl rfl : Apart script []) c
  rw [List.append_nil] at halike
  exact halike.below hwithin

/-- Behind the newline the second script is run, further down. -/
theorem below_of_beyond {n : Nat} (h : q.Beyond ('\n' :: s₂) m) (hn : q.unread < n)
    (hwithin : (runStatements limits n q c).WithinLimits) :
    (runScript limits s₂ c).Below m (runStatements limits n q c) := by
  obtain ⟨hahead, u, m', htail, hs⟩ := h
  obtain rfl := (List.cons.inj htail).2
  have hparser : (Parser.ofText s₂).Within m [] m' q := by
    refine ⟨?_, .inr rfl, Nat.zero_le _⟩
    rw [hahead]
    exact .inside .nil hs
  exact (runAlike_runStatements (.refl limits) hparser (.refl _) (Nat.lt_succ_self _) hn).below
    hwithin

theorem runScript_append_newline (hlimits : limits'.Tighter limits)
    (hlast : s₁.getLast? ≠ some '\\')
    (hwithin : (runScript limits' (s₁ ++ '\n' :: s₂) c).WithinLimits)
    (h : runScript limits s₁ c = ⟨.ok (), c₁⟩) :
    (runScript limits' s₂ c₁).Below (1 + s₁.count '\n')
      (runScript limits' (s₁ ++ '\n' :: s₂) c) := by
  have halike := runAlike_append hlimits (.inr ⟨⟨s₂, rfl⟩, hlast⟩) c
  generalize ho' : runScript limits' (s₁ ++ '\n' :: s₂) c = o' at halike hwithin ⊢
  generalize ho : runScript limits s₁ c = o at halike
  have hok := ho.symm.trans h
  cases halike with
  | ended htail => exact absurd htail (by simp)
  | passed hbeyond hn =>
    obtain rfl := congrArg Outcome.context hok
    exact below_of_beyond hbeyond hn hwithin
  | stopped f c' => exact absurd (congrArg Outcome.result hok) (by simp)
  | unread hran hread _ =>
    have hfails := FailsReading.runScript ⟨_, _, _, _, hran, hread, rfl⟩
    exact absurd (congrArg Outcome.result (hfails.symm.trans h)) (by simp)
  | limited hlimit => exact absurd hwithin hlimit

theorem FailsEvaluating.append_newline (hlimits : limits'.Tighter limits)
    (hlast : s₁.getLast? ≠ some '\\')
    (hwithin : (EnvScript.runScript limits' (s₁ ++ '\n' :: s₂) c).WithinLimits)
    (h : FailsEvaluating limits s₁ c f c') :
    EnvScript.runScript limits' (s₁ ++ '\n' :: s₂) c = ⟨.error f, c'⟩ := by
  have halike := runAlike_append hlimits (.inr ⟨⟨s₂, rfl⟩, hlast⟩) c
  generalize EnvScript.runScript limits' (s₁ ++ '\n' :: s₂) c = o' at halike hwithin ⊢
  rw [h.runScript] at halike
  cases halike with
  | stopped f c' => rfl
  | unread hran hread _ =>
    obtain ⟨as, p, c₁, s, p', hran', hread', heval, -⟩ := h
    exact (hran.readable hread hran' hread' heval).elim
  | limited hlimit => exact absurd hwithin hlimit

/-! ## Many scripts -/

theorem Outcome.Below.withinLimits (h : o.Below k o') (hwithin : o'.WithinLimits) :
    o.WithinLimits := by
  cases h with
  | ok c => exact fun f hf => absurd hf (by simp)
  | @failed f f' hbelow c =>
    intro g hg
    obtain rfl := Except.error.inj hg
    rw [← hbelow.error]
    exact hwithin f' rfl

/-- A script whose first token cannot be read fails. -/
theorem runScript_of_next_error {e : SyntaxError} {s' : Scanner}
    (h : (Scanner.ofText script).next limits = (.error e, s')) :
    runScript limits script c = ⟨.error ⟨.malformed e.fault, e.position⟩, c⟩ := by
  have hpeek : Parse.peek limits 0 (.ofText script) =
      .error (.malformed e) ⟨s', [], .start, 0⟩ := by
    show Parse.readAhead limits (.ofText script) = _
    unfold Parse.readAhead
    rw [show (Parser.ofText script).scanner = .ofText script from rfl, h]
    rfl
  have herror : Parse.statement? limits (.ofText script) = _ :=
    Parse.bind_of_error (Parse.peeks_skipNewlines _ _ _ hpeek)
  rw [← ReadError.failure_malformed (Scanner.isMissing_of_next_error h) .start]
  exact runStatements_of_error herror

theorem runScript_nil (hwithin : (runScript limits [] c).WithinLimits) :
    runScript limits [] c = ⟨.ok (), c⟩ := by
  by_cases hsize : limits.inputSize < 0
  · rw [runScript_of_next_error (Scanner.next_of_size_lt (s := .ofText []) hsize)] at hwithin
    exact absurd hwithin (not_withinLimits rfl)
  · have hnext : (Scanner.ofText []).next limits = (.ok (.eof .start), .ofText []) :=
      Scanner.next_end (s := .ofText []) (Int.not_lt.mp hsize) rfl
    have hpeek : Parse.peek limits 0 (.ofText []) =
        .ok (.eof .start) ⟨.ofText [], [.eof .start], .start, 0⟩ := by
      show Parse.readAhead limits (.ofText []) = _
      unfold Parse.readAhead
      rw [show (Parser.ofText []).scanner = .ofText [] from rfl, hnext]
      rfl
    rw [runScript, runStatements_of_none (Parse.statement?_of_peek hpeek rfl)]

/-- The session after several scripts, if all of them succeed. -/
def Session.runEach (session : Session) : List Text → Option Session
  | [] => some session
  | script :: scripts =>
    match session.run script with
    | (.ok (), session) => session.runEach scripts
    | (.error _, _) => none

theorem Session.run_eq_ok_iff {initial : Context} {session' : Session} :
    (⟨initial, c, limits⟩ : Session).run script = (.ok (), session') ↔
      ∃ c', runScript limits script c = ⟨.ok (), c'⟩ ∧ session' = ⟨initial, c', limits⟩ := by
  constructor
  · intro h
    obtain ⟨hresult, rfl⟩ := Prod.mk.inj h
    exact ⟨_, Outcome.eq_mk hresult rfl, rfl⟩
  · rintro ⟨c', hrun, rfl⟩
    unfold Session.run
    rw [hrun]

theorem Outcome.Below.eq_ok (h : Outcome.Below k ⟨.ok (), c⟩ o) : o = ⟨.ok (), c⟩ := by
  cases h
  rfl

theorem Session.runEach_cons {initial : Context} (h : runScript limits script c = ⟨.ok (), c'⟩)
    (scripts : List Text) :
    (⟨initial, c, limits⟩ : Session).runEach (script :: scripts) =
      (⟨initial, c', limits⟩ : Session).runEach scripts := by
  rw [runEach, Session.run_eq_ok_iff.mpr ⟨c', h, rfl⟩]

theorem Session.run_joined {session session' : Session} {scripts : List Text}
    (hlast : ∀ script ∈ scripts.dropLast, script.getLast? ≠ some '\\')
    (hwithin : (runScript session.limits (['\n'].intercalate scripts)
      session.current).WithinLimits)
    (h : session.runEach scripts = some session') :
    session.run (['\n'].intercalate scripts) = (.ok (), session') := by
  induction scripts generalizing session with
  | nil =>
    obtain rfl := Option.some.inj h
    exact Session.run_eq_ok_iff.mpr ⟨_, runScript_nil hwithin, rfl⟩
  | cons script scripts ih =>
    unfold runEach at h
    split at h
    · rename_i session₁ hrun
      cases scripts with
      | nil =>
        obtain rfl := Option.some.inj h
        rw [List.intercalate_singleton]
        exact hrun
      | cons script' scripts =>
        rw [List.intercalate_cons_cons, List.append_assoc, List.singleton_append] at hwithin ⊢
        obtain ⟨c₁, hfirst, rfl⟩ := Session.run_eq_ok_iff.mp hrun
        have hbelow :=
          runScript_append_newline (.refl _) (hlast script List.mem_cons_self) hwithin hfirst
        -- What is left of the text does not reach a limit either.
        have hrest := ih (fun s hs => hlast s (List.mem_cons_of_mem _ hs))
          (hbelow.withinLimits hwithin) h
        obtain ⟨c₂, hsecond, rfl⟩ := Session.run_eq_ok_iff.mp hrest
        rw [hsecond] at hbelow
        exact Session.run_eq_ok_iff.mpr ⟨c₂, hbelow.eq_ok, rfl⟩
    · exact absurd h (by simp)

/-- A newline joins two scripts to one that does what the two do one after the other. If the first
succeeds, the outcome is that of the second with all lines counted on; if the first fails in an
evaluation, it is that of the first. So a session that runs scripts one by one ends as it would with
all of them at once. -/
theorem runScript_joined (limits : Limits) :
    (∀ s₁ s₂ c, s₁.getLast? ≠ some '\\' →
      (runScript limits (s₁ ++ '\n' :: s₂) c).WithinLimits →
      (∀ c₁, runScript limits s₁ c = ⟨.ok (), c₁⟩ →
        (runScript limits s₂ c₁).Below (1 + s₁.count '\n')
          (runScript limits (s₁ ++ '\n' :: s₂) c)) ∧
      ∀ f c', FailsEvaluating limits s₁ c f c' →
        runScript limits s₁ c = ⟨.error f, c'⟩ ∧
          runScript limits (s₁ ++ '\n' :: s₂) c = ⟨.error f, c'⟩) ∧
    ∀ (initial c : Context) (scripts : List Text) (session' : Session),
      (∀ script ∈ scripts.dropLast, script.getLast? ≠ some '\\') →
      (runScript limits (['\n'].intercalate scripts) c).WithinLimits →
      Session.runEach ⟨initial, c, limits⟩ scripts = some session' →
      Session.run ⟨initial, c, limits⟩ (['\n'].intercalate scripts) = (.ok (), session') := by
  refine ⟨fun s₁ s₂ c hlast hwithin => ⟨fun c₁ hfirst => ?_, fun f c' hfails => ?_⟩, ?_⟩
  · exact runScript_append_newline (.refl limits) hlast hwithin hfirst
  · exact ⟨hfails.runScript, hfails.append_newline (.refl limits) hlast hwithin⟩
  · intro initial c scripts session' hlast hwithin h
    exact Session.run_joined hlast hwithin h

/-- A malformed script behind two good ones, an evaluation that fails in front of it, and a session
of three scripts. -/
theorem joined_scripts :
    (runScript {} "C=$B;D='x".toList (.ofPairs [(['A'], ['1']), (['B'], ['1'])])).Below 2
        (runScript {} "A=1\nB=$A\nC=$B;D='x".toList .empty) ∧
      runScript {} "A=1\nB=$Z\nD='x".toList .empty =
        ⟨.error ⟨.unsetVariable ['Z'], ⟨2, 5⟩⟩, .ofPairs [(['A'], ['1'])]⟩ ∧
      Session.run (.start .empty {}) "A=1\nB=$A$A\nA=2".toList =
        (.ok (), ⟨.empty, .ofPairs [(['A'], ['2']), (['B'], ['1', '1'])], {}⟩) := by
  have hfirst : runScript {} "A=1\nB=$A".toList .empty =
      ⟨.ok (), .ofPairs [(['A'], ['1']), (['B'], ['1'])]⟩ :=
    Outcome.eq_mk (by decide +kernel) (by decide +kernel)
  have hfails : FailsEvaluating {} "A=1\nB=$Z".toList .empty ⟨.unsetVariable ['Z'], ⟨2, 5⟩⟩
      (.ofPairs [(['A'], ['1'])]) :=
    failsEvaluating_of_error (Outcome.eq_mk (by decide +kernel) (by decide +kernel)) (by simp)
      (by simp) (by simp)
  have heach : Session.runEach ⟨.empty, .empty, {}⟩
      ["A=1".toList, "B=$A$A".toList, "A=2".toList] =
      some ⟨.empty, .ofPairs [(['A'], ['2']), (['B'], ['1', '1'])], {}⟩ := by
    have h₁ : runScript {} "A=1".toList .empty = ⟨.ok (), .ofPairs [(['A'], ['1'])]⟩ :=
      Outcome.eq_mk (by decide +kernel) (by decide +kernel)
    have h₂ : runScript {} "B=$A$A".toList (.ofPairs [(['A'], ['1'])]) =
        ⟨.ok (), .ofPairs [(['A'], ['1']), (['B'], ['1', '1'])]⟩ :=
      Outcome.eq_mk (by decide +kernel) (by decide +kernel)
    have h₃ : runScript {} "A=2".toList (.ofPairs [(['A'], ['1']), (['B'], ['1', '1'])]) =
        ⟨.ok (), .ofPairs [(['A'], ['2']), (['B'], ['1', '1'])]⟩ :=
      Outcome.eq_mk (by decide +kernel) (by decide +kernel)
    rw [Session.runEach_cons h₁, Session.runEach_cons h₂, Session.runEach_cons h₃]
    rfl
  refine ⟨?_, ?_, ?_⟩
  · exact ((runScript_joined {}).1 "A=1\nB=$A".toList "C=$B;D='x".toList .empty (by decide)
      (by decide +kernel)).1 _ hfirst
  · exact (((runScript_joined {}).1 "A=1\nB=$Z".toList "D='x".toList .empty (by decide)
      (by decide +kernel)).2 _ _ hfails).2
  · exact (runScript_joined {}).2 .empty .empty ["A=1".toList, "B=$A$A".toList, "A=2".toList] _
      (by decide) (by decide +kernel) heach

end EnvScript
