import EnvScript.Proofs.Command.Last
import EnvScript.Proofs.Command.Within
import EnvScript.Proofs.Expansion.Limits
import EnvScript.Proofs.Script.Run

/-!
# Running a part of a text and the whole

The statements of a part are run, and beside them those of the whole text under tighter limits. As
long as no limit is reached and every statement can be read, both do the same, until the part is at
its end and the whole goes on behind the newline there.
-/

namespace EnvScript

def Failure.down (k : Nat) (f : Failure) : Failure := ⟨f.error, f.position.down k⟩

/-- The same failure `k` lines further down. An error without a category is reported without its
position. -/
structure Failure.Below (k : Nat) (f f' : Failure) : Prop where
  error : f'.error = f.error
  position : f.error.category.isSome → f'.position = f.position.down k

/-- The same outcome `k` lines further down. -/
inductive Outcome.Below (k : Nat) : Outcome → Outcome → Prop
  | ok (c : Context) : Below k ⟨.ok (), c⟩ ⟨.ok (), c⟩
  | failed {f f' : Failure} (h : f.Below k f') (c : Context) :
      Below k ⟨.error f, c⟩ ⟨.error f', c⟩

/-- No limit has stopped the script. -/
def Outcome.WithinLimits (o : Outcome) : Prop :=
  ∀ f, o.result = .error f → f.error.isLimit = false

instance (o : Outcome) : Decidable o.WithinLimits :=
  match h : o.result with
  | .ok _ => .isTrue fun f hf => absurd (h.symm.trans hf) (by simp)
  | .error f =>
    decidable_of_iff (f.error.isLimit = false) ⟨fun hlimit g hg =>
      Except.error.inj (h.symm.trans hg) ▸ hlimit, fun hwithin => hwithin f h⟩

/-- What the statements from `p` on in a part, with their outcome, and those in the whole text may
come to. -/
inductive RunAlike (k : Nat) (tail : Text) (m : Nat) (limits limits' : Limits) (p : Parser)
    (c : Context) : Outcome → Outcome → Prop
  | ended {c' : Context} (h : tail = []) :
      RunAlike k tail m limits limits' p c ⟨.ok (), c'⟩ ⟨.ok (), c'⟩
  /-- The whole goes on behind the part. -/
  | passed {c' : Context} {q : Parser} {n : Nat} (h : q.Beyond tail m) (hn : q.unread < n) :
      RunAlike k tail m limits limits' p c ⟨.ok (), c'⟩ (runStatements limits' n q c')
  /-- The evaluation of a statement has failed. -/
  | stopped (f : Failure) (c' : Context) :
      RunAlike k tail m limits limits' p c ⟨.error f, c'⟩ ⟨.error (f.down k), c'⟩
  /-- A statement of the part cannot be read. -/
  | unread {as : List Assignment} {p₁ p₂ : Parser} {c₁ : Context} {e : ReadError} {o o' : Outcome}
      (hran : Ran limits p c as p₁ c₁) (hread : Parse.statement? limits p₁ = .error e p₂)
      (h : tail = [] → o.Below k o') : RunAlike k tail m limits limits' p c o o'
  | limited {o o' : Outcome} (h : ¬ o'.WithinLimits) : RunAlike k tail m limits limits' p c o o'

variable {k m : Nat} {tail : Text} {limits limits' : Limits} {p p₁ p₂ q : Parser}
  {c c₁ c' : Context} {s : Statement} {as us : List Assignment} {o o' : Outcome}

/-! ## The end of the part -/

/-- Only where nothing comes behind the part is its end that of the whole. -/
theorem Parser.Within.eq_nil_of_atEnd (h : p.Within k tail m q) (hp : p.AtEnd) (hq : q.AtEnd) :
    tail = [] := by
  obtain ⟨t, ht, hkind⟩ := hp
  obtain ⟨t', ht', hkind'⟩ := hq
  obtain ⟨hahead, -, -⟩ := h
  obtain ⟨s, ts, last, iterations⟩ := p
  obtain ⟨s', ts', last', iterations'⟩ := q
  cases hahead with
  | inside hts _ =>
    cases hts with
    | nil => exact absurd ht (by simp)
    | cons hbelow _ =>
      obtain rfl := Option.some.inj ht
      exact hbelow.finish hkind
  | crossed _ hts hend _ hnewline _ _ =>
    cases hts with
    | nil =>
      obtain rfl := Option.some.inj ht'
      rw [Token.kind, hnewline] at hkind'
      exact absurd hkind' (by decide)
    | cons _ _ =>
      obtain rfl := Option.some.inj ht
      exact absurd hkind (hend _ List.mem_cons_self)

theorem Parser.Beyond.unread_eq {u : Text} (h : q.Beyond ('\n' :: u) m) : q.unread = u.length := by
  obtain ⟨hahead, u', m', htail, hs⟩ := h
  obtain rfl := (List.cons.inj htail).2
  have hrest : q.scanner.cursor.rest = u ++ [] := hs.cursor.rest
  rw [Parser.unread, hahead, hrest, List.append_nil]
  rfl

/-- In the part, the newline behind it is still to be read. -/
theorem Parser.Within.length_lt_unread {u : Text} (h : p.Within k ('\n' :: u) m q) :
    u.length < q.unread := by
  obtain ⟨hahead, -, -⟩ := h
  obtain ⟨s, ts, last, iterations⟩ := p
  obtain ⟨s', ts', last', iterations'⟩ := q
  unfold Parser.unread
  dsimp only at hahead ⊢
  cases hahead with
  | inside _ hs =>
    have hrest := congrArg List.length hs.cursor.rest
    rw [List.length_append, List.length_cons] at hrest
    omega
  | @crossed u' _ _ ts' _ t' _ _ htail _ _ _ hnewline _ hs =>
    obtain rfl := (List.cons.inj htail).2
    have hrest : s'.cursor.rest = u ++ [] := hs.cursor.rest
    have hcount : [t'].countP (·.kind != .eof) = 1 := by
      simp [Token.kind, hnewline, Lexeme.kind]
    rw [List.append_nil] at hrest
    rw [List.countP_append, hcount, hrest]
    omega

/-! ## Runs -/

theorem not_withinLimits {f : Failure} (h : f.error.isLimit = true) :
    ¬ Outcome.WithinLimits ⟨.error f, c⟩ := by
  intro hwithin
  exact absurd ((hwithin f rfl).symm.trans h) (by decide)

theorem ReadError.isLimit_failure (e : ReadError) (last : Position) :
    (e.failure last).error.isLimit = e.isLimit := by
  rcases e.cases_fault with ⟨fault, position, hfault, rfl⟩ | ⟨m, position, rfl⟩ | ⟨n, rfl⟩
  · rw [failure_malformed hfault]
    rfl
  · rfl
  · rfl

theorem ReadError.below_failure_down (e : ReadError) (last last' : Position) :
    (e.failure last).Below k ((e.down k).failure last') := by
  rcases e.cases_fault with ⟨fault, position, hfault, rfl⟩ | ⟨m, position, rfl⟩ | ⟨n, rfl⟩
  · rw [failure_malformed hfault]
    show Failure.Below k _ ((malformed ⟨fault, position.down k⟩).failure last')
    rw [failure_malformed hfault]
    exact ⟨rfl, fun _ => rfl⟩
  · exact ⟨rfl, fun h => absurd h (by simp [failure, EvalError.category])⟩
  · exact ⟨rfl, fun h => absurd h (by simp [failure, EvalError.category])⟩

theorem RunAlike.cons (hread : Parse.statement? limits p = .ok (some s) p₁)
    (heval : Eval.statement limits s c = .ok () c₁)
    (h : RunAlike k tail m limits limits' p₁ c₁ o o') :
    RunAlike k tail m limits limits' p c o o' := by
  cases h with
  | ended h => exact .ended h
  | passed h hn => exact .passed h hn
  | stopped f c' => exact .stopped f c'
  | unread hran hread' h =>
    obtain ⟨as, has, hstored⟩ := Eval.statement_eq_ok_iff.mp heval
    exact .unread (.cons hread has hstored hran) hread' h
  | limited h => exact .limited h

/-- The induction is over the statements of the part, each of which takes one round. -/
theorem runAlike_runStatements {n n' : Nat} {script : Text} {ts : List Token}
    (hlimits : limits'.Tighter limits) (h : p.Within k tail m q)
    (hp : (Parser.ofText script).Took limits ts p) (hn : p.unread < n) (hn' : q.unread < n') :
    RunAlike k tail m limits limits' p c (runStatements limits n p c)
      (runStatements limits' n' q c) := by
  induction n generalizing p q c ts n' with
  | zero => exact absurd hn (Nat.not_lt_zero _)
  | succ n ih =>
    obtain ⟨n', rfl⟩ : ∃ j, n' = j + 1 := ⟨n' - 1, by omega⟩
    rcases (Coupling.ofPart k tail m hlimits).alike_statement? h with
      halike | ⟨p₁, q₁, hnone, -, hbeyond, hskip⟩
    · unfold Coupling.Alike at halike
      generalize hx : Parse.statement? limits p = x at halike
      generalize hy : Parse.statement? limits' q = y at halike
      cases halike with
      | failed he =>
        rw [runStatements_of_error hx, runStatements_of_error hy]
        refine .unread (.nil p c) hx fun _ => ?_
        rw [he]
        exact .failed (ReadError.below_failure_down _ _ _) c
      | gaveUp he => exact .unread (.nil p c) hx fun htail => absurd htail he
      | stopped he =>
        rw [runStatements_of_error hy]
        exact .limited (not_withinLimits (by rw [ReadError.isLimit_failure, he]))
      | @ok r r' p₁ q₁ hs =>
        obtain ⟨rfl, hlast, hplace⟩ := hs
        cases r' with
        | none =>
          obtain ⟨-, -, -, e, he, hkind⟩ := Parse.took_of_statement? hx
          obtain ⟨-, -, -, e', he', hkind'⟩ := Parse.took_of_statement? hy
          rw [← List.head?_eq_getElem?] at he he'
          have hstate := hplace.resolve_right fun h => absurd h.1 (by simp)
          rw [runStatements_of_none hx, runStatements_of_none hy]
          exact .ended (hstate.eq_nil_of_atEnd ⟨e, he, hkind⟩ ⟨e', he', hkind'⟩)
        | some s =>
          have hlast' : q₁.last = p₁.last.down k :=
            hlast.resolve_right (Parse.last_ne_start hp hx)
          have hlt := unread_lt_of_statement? hx
          have hlt' := unread_lt_of_statement? hy
          rcases Eval.narrowed_statement hlimits.pattern s c with ⟨c₂, hbig⟩ | hsame
          · rw [runStatements_of_stop hy hbig]
            exact .limited (not_withinLimits rfl)
          cases heval : Eval.statement limits s c with
          | error e c₁ =>
            rw [runStatements_of_stop hx heval, runStatements_of_stop hy (hsame.trans heval),
              hlast']
            exact .stopped ⟨e, p₁.last⟩ c₁
          | ok _ c₁ =>
            rw [runStatements_of_some hx heval, runStatements_of_some hy (hsame.trans heval)]
            refine .cons hx heval ?_
            rcases hplace with hstate | ⟨-, hend, -, hbeyond⟩
            · obtain ⟨us, htook, -⟩ := Parse.took_of_statement? hx
              exact ih hstate (hp.trans htook) (by omega) (by omega)
            -- The statement was the last of the part, which is at its end now.
            · obtain ⟨n, rfl⟩ : ∃ j, n = j + 1 := ⟨n - 1, by omega⟩
              rw [runStatements_of_none (Parse.statement?_of_atEnd hend)]
              exact .passed hbeyond (by omega)
    -- Only newlines are left of the part, and the whole has skipped them and the one behind it.
    · have hbeyond' := hbeyond
      obtain ⟨-, u, -, rfl, -⟩ := hbeyond'
      have hlength := h.length_lt_unread
      rw [runStatements_of_none hnone, runStatements_congr hskip]
      exact .passed hbeyond (by rw [Parser.Beyond.unread_eq hbeyond]; omega)

end EnvScript
