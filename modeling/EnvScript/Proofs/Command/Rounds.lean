import EnvScript.Proofs.Command.Lockstep
import EnvScript.Proofs.Command.Paid

/-!
# Rounds of a run

A script is read statement by statement, up to the end or to the first error. Each statement takes a
token off, so there are no more of them than tokens, and at no time have more than three rounds been
counted for each token that has been read. A limit on the rounds of three times the limit on the
tokens is therefore never reached.

What happens inside a call is told by calls that are cut short: with the limit on the rounds lowered
a call does the same, up to the round that is over the limit.
-/

namespace EnvScript

namespace Scanner

variable {limits : Limits} {s s' s₁ : Scanner} {t : Token} {ts us : List Token} {e : SyntaxError}

/-! ## All the tokens -/

/-- The tokens `ts` are all that there are from `s` on, up to the end of the text or to what is
refused. -/
structure Exhausts (limits : Limits) (s : Scanner) (ts : List Token) (s' : Scanner) : Prop where
  yields : Yields limits s ts s'
  tokens : ∀ t ∈ ts, t.kind ≠ .eof
  last : ∀ t s'', s'.next limits = (.ok t, s'') → t.kind = .eof

theorem exists_exhausts (limits : Limits) (s : Scanner) : ∃ ts s', Exhausts limits s ts s' := by
  induction hn : s.cursor.rest.length using Nat.strong_induction_on generalizing s with
  | _ n ih =>
    by_cases hmore : ∃ t s', s.next limits = (.ok t, s') ∧ t.kind ≠ .eof
    · obtain ⟨t, s₁, hnext, hkind⟩ := hmore
      have hlt := length_next_lt_of_ne_eof hnext hkind
      obtain ⟨ts, s', hrest⟩ := ih _ (hn ▸ hlt) s₁ rfl
      exact ⟨t :: ts, s', .cons hnext hrest.yields,
        List.forall_mem_cons.mpr ⟨hkind, hrest.tokens⟩, hrest.last⟩
    · refine ⟨[], s, .nil s, by simp, fun t s' hnext => ?_⟩
      by_contra hkind
      exact hmore ⟨t, s', hnext, hkind⟩

/-- Where the next token is the end token, there are only end tokens. -/
theorem Yields.countP_eq_zero (h : Yields limits s us s₁)
    (hend : ∀ t s', s.next limits = (.ok t, s') → t.kind = .eof) :
    us.countP (·.kind != .eof) = 0 := by
  induction h with
  | nil => rfl
  | @cons s s' _ t us hnext _ ih =>
    have hkind := hend t s' hnext
    have hrest := ih fun u s'' hnext' => by
      obtain ⟨hu, -⟩ := Prod.mk.inj ((next_of_eof hnext hkind).symm.trans hnext')
      exact Except.ok.inj hu ▸ hkind
    rw [List.countP_cons_of_neg (by simp [hkind]), hrest]

theorem Exhausts.countP_le (h : Exhausts limits s ts s') (hus : Yields limits s us s₁) :
    us.countP (·.kind != .eof) ≤ ts.length := by
  rcases Nat.le_total us.length ts.length with hle | hle
  · exact Nat.le_trans List.countP_le_length hle
  · obtain ⟨more, rfl, hmore⟩ := h.yields.split hus hle
    rw [List.countP_append, hmore.countP_eq_zero h.last]
    exact List.countP_le_length

/-! ## How many have been read -/

/-- Tokens are counted, and within the limit they are handed out. -/
theorem count_le_of_next_ok (h : s.next limits = (.ok t, s')) :
    s'.count = s.count ∨ (s'.count : Int) ≤ limits.tokens := by
  rcases next_ok h with ⟨-, -, rfl⟩ | ⟨n, -, hrest, rfl, -⟩
  · exact .inl rfl
  · refine .inr (Int.not_lt.mp fun hmany => ?_)
    unfold next at h
    split at h
    · exact absurd (Prod.mk.inj h).1 (by simp)
    · dsimp only at h
      rw [if_neg (mt List.isEmpty_iff.mp hrest), if_pos hmany] at h
      exact absurd (Prod.mk.inj h).1 (by simp)

theorem Yields.count_le (h : Yields limits s ts s') :
    s'.count = s.count ∨ (s'.count : Int) ≤ limits.tokens := by
  induction h with
  | nil => exact .inl rfl
  | cons hnext _ ih =>
    rcases ih with heq | hle
    · exact heq ▸ count_le_of_next_ok hnext
    · exact .inr hle

/-- The limit on the rounds is none of the scanner's. -/
theorem Yields.of_cut {k : Int} (h : Yields { limits with iterations := k } s ts s') :
    Yields limits s ts s' := by
  induction h with
  | nil s => exact .nil s
  | cons hnext _ ih => exact .cons hnext ih

theorem count_le_of_next_error (h : s.next limits = (.error e, s')) : s.count ≤ s'.count := by
  rcases next_error h with ⟨-, rfl⟩ | ⟨-, rfl⟩ | ⟨halt, -, -, rfl⟩
  · exact Nat.le_refl _
  · exact Nat.le_succ _
  · exact Nat.le_succ _

end Scanner

namespace Parser

variable {limits : Limits} {text : Text} {p p' : Parser} {us vs : List Token} {e : ReadError}

/-- The tokens of the text that the parser has read so far. -/
def HasRead (limits : Limits) (text : Text) (us : List Token) (p : Parser) : Prop :=
  ∃ s, Scanner.Yields limits (.ofText text) us s ∧ p.ReadUpTo limits s

/-- However they are told, the tokens that the parser has read are equally many. -/
theorem HasRead.countP_le (h : p.HasRead limits text us) (h' : p.HasRead limits text vs) :
    vs.countP (·.kind != .eof) ≤ us.countP (·.kind != .eof) := by
  obtain ⟨s, hus, hs⟩ := h
  obtain ⟨s', hvs, hs'⟩ := h'
  rcases Nat.le_total vs.length us.length with hle | hle
  · obtain ⟨more, rfl, -⟩ := hvs.split hus hle
    rw [List.countP_append]
    exact Nat.le_add_right _ _
  · obtain ⟨more, rfl, hmore⟩ := hus.split hvs hle
    rcases hs with hs | ⟨e, hs⟩
    · -- The scanner is where it was before the tokens `more`, so these do not count.
      have hcount := hmore.count_eq
      have hback : s'.count ≤ s.count := by
        rcases hs' with hs' | ⟨e, hs'⟩
        · exact Nat.le_of_eq (congrArg Scanner.count (hs'.symm.trans hs))
        · exact hs ▸ Scanner.count_le_of_next_error hs'
      rw [List.countP_append]
      omega
    · cases hmore with
      | nil => rw [List.append_nil]
      | cons hnext _ => exact absurd (Prod.mk.inj (hs.symm.trans hnext)).1 (by simp)

/-- No more than three rounds have been counted for each token that has been read. -/
structure Frugal (limits : Limits) (text : Text) (p : Parser) : Prop where
  hasRead : ∃ us, p.HasRead limits text us
  rounds : ∀ us, p.HasRead limits text us → p.iterations ≤ 3 * us.countP (·.kind != .eof)

theorem frugal_of_yields {s : Scanner} (hus : Scanner.Yields limits (.ofText text) us s)
    (hs : p.ReadUpTo limits s) (hrounds : p.iterations ≤ 3 * s.count) : p.Frugal limits text := by
  have hread : p.HasRead limits text us := ⟨s, hus, hs⟩
  have hcount : s.count = us.countP (·.kind != .eof) := hus.count_eq.trans (Nat.zero_add _)
  refine ⟨⟨us, hread⟩, fun vs hvs => Nat.le_trans hrounds ?_⟩
  rw [hcount]
  exact Nat.mul_le_mul_left 3 (hvs.countP_le hread)

end Parser

/-! ## Calls that are cut short -/

/-- A parser beside itself, with the limit on the rounds lowered to `k`. -/
def Coupling.ofCut {limits : Limits} {k : Int} (hk : k ≤ limits.iterations) :
    Coupling limits { limits with iterations := k } where
  failed e e' := e' = e
  gaveUp _ := False
  stopped e := ∃ pos, e = .malformed ⟨.tooManyIterations k, pos⟩
  state p q := q = p
  token t t' := t' = t
  last _ _ := True
  beyond _ := False
  token_cases h := .inl (h ▸ ⟨rfl, rfl⟩)
  adjacent ht _ hu := by rw [ht, hu]
  fault ht fault _ := by rw [ht]
  oversized _ _ _ := rfl
  tooMany pos := ⟨pos, rfl⟩
  ahead := by
    rintro p _ rfl
    exact List.forall₂_same.mpr fun _ _ => rfl
  state_last _ := trivial
  rounds := by
    rintro p _ rfl
    exact Int.sub_le_sub_right hk _
  read := by
    rintro _ p rfl -
    -- A token is read without a look at the limit on the rounds.
    show Coupled _ _ (Parse.readAhead limits p) (Parse.readAhead limits p)
    cases Parse.readAhead limits p with
    | ok _ _ => exact .ok rfl
    | error _ _ => exact .failed rfl
  take := by
    rintro p _ t t' rfl ht ht' -
    rw [Option.some.inj (ht.symm.trans ht')]
  cross := by
    rintro p _ t t' rfl ht ht' heof hnewline
    rw [Option.some.inj (ht'.symm.trans ht), heof] at hnewline
    exact absurd hnewline (by simp)
  count h := congrArg Parser.counted h
  beyond_count h := h

namespace Parse

variable {limits : Limits} {text : Text} {p p' : Parser} {n : Nat} {k : Int} {e : ReadError}

theorem readFurther_cut (n : Nat) :
    readFurther { limits with iterations := k } n = readFurther limits n := by
  induction n with
  | zero => rfl
  | succ n ih =>
    rw [readFurther, readFurther, ih]
    rfl

theorem peek_cut (n : Nat) : peek { limits with iterations := k } n = peek limits n := by
  funext p
  rw [peek, peek, readFurther_cut]

/-- A call under a lower limit on the rounds does the same, or this limit stops it. -/
theorem outcome_statement?_cut (hk : k ≤ limits.iterations) (p : Parser) :
    outcome (statement? { limits with iterations := k }) p = outcome (statement? limits) p ∨
      ∃ pos p', statement? { limits with iterations := k } p =
        .error (.malformed ⟨.tooManyIterations k, pos⟩) p' := by
  rcases (Coupling.ofCut hk).alike_statement? (p := p) rfl with
    halike | ⟨-, -, -, hgave, -⟩
  · unfold Coupling.Alike at halike
    unfold outcome
    generalize statement? limits p = x at halike ⊢
    generalize statement? { limits with iterations := k } p = y at halike ⊢
    cases halike with
    | ok h => exact .inl (congrArg Except.ok h.1)
    | failed he => exact .inl (congrArg Except.error he)
    | gaveUp he => exact he.elim
    | stopped he =>
      obtain ⟨pos, rfl⟩ := he
      exact .inr ⟨pos, _, rfl⟩
  · -- Neither text goes on where the other ends.
    exact (hgave (.malformed ⟨.unexpectedEnd, .start⟩)).elim

/-! ## Statement by statement -/

/-- `n` calls in a row that each give a statement lead from a parser of the text to `p`. -/
inductive Run (limits : Limits) (text : Text) : Nat → Parser → Prop
  | start : Run limits text 0 (.ofText text)
  | statement {n : Nat} {p p' : Parser} {s : Statement} (h : Run limits text n p)
    (hs : statement? limits p = .ok (some s) p') : Run limits text (n + 1) p'

/-- Between statements the tokens that have been taken off have paid for all the rounds. -/
theorem Run.affords (h : Run limits text n p) : p.Affords 0 := by
  induction h with
  | start => exact Nat.zero_le _
  | statement _ hs ih =>
    have hpays : Pays limits (statement? limits) _ _ := pays_statement? ih
    unfold Pays at hpays
    rw [hs] at hpays
    exact hpays.2

/-- Each statement has taken a token off. -/
theorem Run.took (h : Run limits text n p) :
    ∃ ts, (Parser.ofText text).Took limits ts p ∧ n ≤ ts.countP (·.kind != .eof) := by
  induction h with
  | start => exact ⟨[], .refl _, Nat.le_refl 0⟩
  | statement _ hs ih =>
    obtain ⟨ts, htook, hn⟩ := ih
    obtain ⟨us, htook', t, ht, hkind⟩ := exists_token_of_statement? hs
    have hpos : 0 < us.countP (·.kind != .eof) :=
      List.countP_pos_iff.mpr ⟨t, ht, by simpa using hkind⟩
    refine ⟨ts ++ us, htook.trans htook', ?_⟩
    rw [List.countP_append]
    omega

theorem Run.yields (h : Run limits text n p) :
    ∃ us, Scanner.Yields limits (.ofText text) us p.scanner ∧ n ≤ us.countP (·.kind != .eof) := by
  obtain ⟨ts, ⟨us, hus, heq, -⟩, hn⟩ := h.took
  have hcount : us.countP (·.kind != .eof) = (ts ++ p.ahead).countP (·.kind != .eof) :=
    congrArg _ heq
  rw [List.countP_append] at hcount
  exact ⟨us, hus, by omega⟩

theorem Run.frugal (h : Run limits text n p) : p.Frugal limits text := by
  obtain ⟨us, hus, -⟩ := h.yields
  exact Parser.frugal_of_yields hus (.inl rfl) h.affords.backed.le

/-- The rounds inside a call are paid for as they are counted: where the count goes over `k`, the
call stands at `q`, and the next token is only looked up to report it. -/
theorem Run.frugal_inside (h : Run limits text n p) (hk : k ≤ limits.iterations) :
    outcome (statement? { limits with iterations := k }) p = outcome (statement? limits) p ∨
      ∃ pos p' q t, statement? { limits with iterations := k } p =
          .error (.malformed ⟨.tooManyIterations k, pos⟩) p' ∧
        peek limits 0 q = .ok t p' ∧ k < q.iterations ∧ q.Frugal limits text := by
  refine (outcome_statement?_cut hk p).imp_right ?_
  rintro ⟨pos, p', hcut⟩
  -- Rounds are paid for under any limits, and the lower limit stops the call in its middle.
  have hpays : Pays { limits with iterations := k } (statement? _) p _ := pays_statement? h.affords
  unfold Pays at hpays
  rw [hcut] at hpays
  obtain ⟨q, ⟨vs, hvs⟩, hpaid, -, hover, t, hpeek⟩ := hpays.rounds k pos rfl
  obtain ⟨us, hus, -⟩ := h.yields
  exact ⟨pos, p', q, t, hcut, peek_cut 0 ▸ hpeek, hover,
    Parser.frugal_of_yields (hus.append hvs.of_cut) (.inl rfl) hpaid⟩

/-- A run goes on until a call gives no statement. -/
theorem exists_last_run (limits : Limits) (text : Text) :
    ∃ n p, Run limits text n p ∧ ∀ s p', statement? limits p ≠ .ok (some s) p' := by
  obtain ⟨ts, s, hexhausts⟩ := Scanner.exists_exhausts limits (.ofText text)
  by_contra hgoes
  -- Otherwise there are runs of any length, also one with more statements than tokens.
  have hlong : ∀ n, ∃ p, Run limits text n p := by
    intro n
    induction n with
    | zero => exact ⟨_, .start⟩
    | succ n ih =>
      obtain ⟨p, hp⟩ := ih
      by_contra hlast
      exact hgoes ⟨n, p, hp, fun s p' hs => hlast ⟨p', .statement hp hs⟩⟩
  obtain ⟨p, hp⟩ := hlong (ts.length + 1)
  obtain ⟨us, hus, hn⟩ := hp.yields
  exact absurd (Nat.le_trans hn (hexhausts.countP_le hus)) (Nat.not_succ_le_self _)

/-- The tokens that pay for a round are within their limit, so three rounds for each token that is
allowed are too many if `k` rounds are. -/
theorem lt_of_paid {s : Scanner} {us : List Token} {k : Nat}
    (hus : Scanner.Yields limits (.ofText text) us s) (hpaid : k ≤ 3 * s.count) (hpos : 0 < k)
    (hmany : limits.iterations < k) : limits.iterations < 3 * limits.tokens := by
  rcases hus.count_le with hzero | hle
  · have hnone : s.count = 0 := hzero
    omega
  · omega

/-- Statement by statement, up to the first call that gives none or fails: there are no more
statements than tokens, each of them takes a token off, and at most three rounds are counted for
each token that has been read. So a limit of three rounds for each token is never reached, as the
limits are by default. The bound is also kept inside a call: with the limit on the rounds lowered to
any `k`, the call does the same, or it is stopped at `q`, where the count goes over `k` and the
tokens read until then pay for it. -/
theorem rounds_of_run (limits : Limits) (text : Text) :
    3 * ({} : Limits).tokens ≤ ({} : Limits).iterations ∧
    (∃ n p, Run limits text n p ∧ ∀ s p', statement? limits p ≠ .ok (some s) p') ∧
    ∃ tokens s, Scanner.Exhausts limits (.ofText text) tokens s ∧
      ∀ n p, Run limits text n p → n ≤ tokens.length ∧ p.Frugal limits text ∧
        (∀ k ≤ limits.iterations,
          outcome (statement? { limits with iterations := k }) p = outcome (statement? limits) p ∨
            ∃ pos p' q t, statement? { limits with iterations := k } p =
                .error (.malformed ⟨.tooManyIterations k, pos⟩) p' ∧
              peek limits 0 q = .ok t p' ∧ k < q.iterations ∧ q.Frugal limits text) ∧
        (match statement? limits p with
        | .ok none p' => p'.Frugal limits text
        | .ok (some _) p' => p'.Frugal limits text ∧
          ∃ ts, p.Took limits ts p' ∧ ∃ t ∈ ts, t.kind ≠ .eof
        | .error e p' => p'.Frugal limits text ∧
          (3 * limits.tokens ≤ limits.iterations →
            ∀ limit pos, e ≠ .malformed ⟨.tooManyIterations limit, pos⟩)) := by
  obtain ⟨tokens, s, hexhausts⟩ := Scanner.exists_exhausts limits (.ofText text)
  refine ⟨by decide, exists_last_run limits text, tokens, s, hexhausts, fun n p hrun => ?_⟩
  obtain ⟨us, hus, hn⟩ := hrun.yields
  refine ⟨Nat.le_trans hn (hexhausts.countP_le hus), hrun.frugal,
    fun k hk => hrun.frugal_inside hk, ?_⟩
  have hpays : Pays limits (statement? limits) p _ := pays_statement? hrun.affords
  unfold Pays at hpays
  split
  · rename_i p' hs
    rw [hs] at hpays
    obtain ⟨vs, hvs⟩ := hpays.1.yields
    exact Parser.frugal_of_yields (hus.append hvs) (.inl rfl) hpays.2.backed.le
  · rename_i st p' hs
    exact ⟨(hrun.statement hs).frugal, exists_token_of_statement? hs⟩
  · rename_i e p' hs
    rw [hs] at hpays
    obtain ⟨vs, s', hvs, hread, hrounds⟩ := hpays.paid
    refine ⟨Parser.frugal_of_yields (hus.append hvs) hread hrounds, fun hlimits limit pos he => ?_⟩
    obtain ⟨q, ⟨ws, hws⟩, hpaid, hpos, hmany, -⟩ := hpays.rounds limit pos he
    have hlt := lt_of_paid (hus.append hws) hpaid hpos hmany
    exact absurd hlimits (Int.not_le.mpr hlt)

/-- Each of these statements is one word, which pays for the command, for the word and for the end
of the words behind it. -/
theorem rounds_of_two_words : ∃ p, Run {} "a;b".toList 2 p ∧ p.iterations = 6 ∧
    p.Frugal {} "a;b".toList ∧
      ∃ tokens s, Scanner.Exhausts {} (.ofText "a;b".toList) tokens s ∧ 2 ≤ tokens.length := by
  have hcalls : outcome (statement? {} >>= fun first => statement? {} >>= fun second =>
      get >>= fun p => pure (first.isSome, second.isSome, p.iterations))
      (.ofText "a;b".toList) = .ok (true, true, 6) := by decide +kernel
  obtain ⟨q, hcalls⟩ := exists_of_outcome hcalls
  obtain ⟨first, p₁, hfirst, hcalls⟩ := exists_of_bind_ok hcalls
  obtain ⟨second, p₂, hsecond, hcalls⟩ := exists_of_bind_ok hcalls
  obtain ⟨heq, -⟩ := EStateM.Result.ok.inj hcalls
  obtain ⟨hfirst', hsecond', hrounds⟩ := by simpa using heq
  obtain ⟨st₁, rfl⟩ := Option.isSome_iff_exists.mp hfirst'
  obtain ⟨st₂, rfl⟩ := Option.isSome_iff_exists.mp hsecond'
  have hrun : Run {} "a;b".toList 2 p₂ := (Run.start.statement hfirst).statement hsecond
  obtain ⟨-, -, tokens, s, hexhausts, hruns⟩ := rounds_of_run {} "a;b".toList
  obtain ⟨hn, hfrugal, -⟩ := hruns 2 p₂ hrun
  exact ⟨p₂, hrun, hrounds, hfrugal, tokens, s, hexhausts, hn⟩

end Parse

end EnvScript
