import EnvScript.Proofs.Command.Head
import EnvScript.Proofs.Command.Parser
import EnvScript.Proofs.Command.Positions
import EnvScript.Proofs.Token.Nesting

/-!
# Rounds paid with tokens

A token that is taken off pays for three rounds, unless it is the end token. `Parser.Affords` says
how many more rounds the tokens that have been taken off pay for, and `Parser.Backed` how many they
pay for together with the next token. A computation `Pays` if where it ends, fails or goes over the
limit no more rounds have been counted than the tokens pay for that have been read until then.
-/

namespace EnvScript

namespace Scanner

variable {limits : Limits} {s s' : Scanner} {t : Token} {ts : List Token} {e : SyntaxError}

/-! ## Tokens that have been read -/

theorem count_of_next_ok (h : s.next limits = (.ok t, s')) :
    s'.count = s.count + [t].countP (·.kind != .eof) := by
  rcases next_ok h with ⟨-, rfl, rfl⟩ | ⟨n, -, -, rfl, heof, -⟩
  · rfl
  · simp [heof]

theorem Yields.count_eq (h : Yields limits s ts s') :
    s'.count = s.count + ts.countP (·.kind != .eof) := by
  induction h with
  | nil => rfl
  | cons hnext _ ih =>
    rw [ih, count_of_next_ok hnext, Nat.add_assoc, ← List.countP_append, List.singleton_append]

/-- The parser's own limit is none that the scanner runs into. -/
theorem next_ne_tooManyIterations (h : s.next limits = (.error e, s')) (limit : Int) :
    e.fault ≠ .tooManyIterations limit := by
  intro hfault
  rcases fault_of_next_error h with he | he | ⟨he, -⟩ | hword
  · exact absurd (he.symm.trans hfault) (by simp)
  · exact absurd (he.symm.trans hfault) (by simp)
  · exact absurd (he.symm.trans hfault) (by simp)
  · exact (hfault ▸ hword : Fault.OfWord (.tooManyIterations limit)).elim

end Scanner

namespace Parser

variable {limits : Limits} {p p' p'' q : Parser} {t : Token} {k n : Nat}

/-! ## What has been paid in -/

/-- The tokens that have been taken off pay for the rounds so far and for `k` more. -/
def Affords (p : Parser) (k : Nat) : Prop :=
  p.iterations + k + 3 * p.ahead.countP (·.kind != .eof) ≤ 3 * p.scanner.count

/-- With the next token taken off as well, the tokens pay for `k` more rounds. -/
def Backed (p : Parser) (k : Nat) : Prop :=
  p.iterations + k + 3 * p.ahead.tail.countP (·.kind != .eof) ≤ 3 * p.scanner.count

theorem Affords.mono (h : p.Affords n) (hk : k ≤ n) : p.Affords k := by
  unfold Affords at *
  omega

theorem Backed.mono (h : p.Backed n) (hk : k ≤ n) : p.Backed k := by
  unfold Backed at *
  omega

theorem Backed.le (h : p.Backed k) : p.iterations + k ≤ 3 * p.scanner.count :=
  Nat.le_trans (Nat.le_add_right _ _) h

theorem Affords.backed (h : p.Affords k) : p.Backed k := by
  have hle : p.ahead.tail.countP (·.kind != .eof) ≤ p.ahead.countP (·.kind != .eof) :=
    (List.tail_sublist p.ahead).countP_le
  unfold Affords at h
  unfold Backed
  omega

theorem Affords.backed_of_head (h : p.Affords k) (ht : p.ahead.head? = some t)
    (hkind : t.kind ≠ .eof) : p.Backed (k + 3) := by
  obtain ⟨rest, hrest⟩ := List.head?_eq_some_iff.mp ht
  unfold Affords at h
  unfold Backed
  rw [hrest, List.countP_cons_of_pos (by simpa using hkind)] at h
  rw [hrest, List.tail_cons]
  omega

theorem Backed.take (h : p.Backed k) (t : Token) : (p.take t).Affords k := h

theorem Affords.counted (h : p.Affords (k + 1)) : p.counted.Affords k := by
  unfold Affords at h
  show p.iterations + 1 + k + 3 * p.ahead.countP (·.kind != .eof) ≤ 3 * p.scanner.count
  omega

theorem Backed.counted (h : p.Backed (k + 1)) : p.counted.Backed k := by
  unfold Backed at h
  show p.iterations + 1 + k + 3 * p.ahead.tail.countP (·.kind != .eof) ≤ 3 * p.scanner.count
  omega

theorem Affords.readsOn (h : p.Affords k) (hon : p.ReadsOn limits q) : q.Affords k := by
  obtain ⟨us, s, hus, rfl⟩ := hon
  have hcount := hus.count_eq
  unfold Affords at *
  dsimp only
  rw [List.countP_append]
  omega

theorem Backed.readsOn (h : p.Backed k) (hon : p.ReadsOn limits q) : q.Backed k := by
  obtain ⟨us, s, hus, rfl⟩ := hon
  have hcount := hus.count_eq
  -- With nothing read ahead before, the first of the tokens is the next one now.
  have htail : (p.ahead ++ us).tail.countP (·.kind != .eof) ≤
      p.ahead.tail.countP (·.kind != .eof) + us.countP (·.kind != .eof) := by
    cases p.ahead with
    | nil => exact Nat.le_trans (List.tail_sublist us).countP_le (Nat.le_add_left _ _)
    | cons u rest => exact Nat.le_of_eq List.countP_append
  unfold Backed at *
  dsimp only
  omega

theorem ReadsOn.head (hon : p.ReadsOn limits q) (ht : p.ahead.head? = some t) :
    q.ahead.head? = some t := by
  obtain ⟨us, s, -, rfl⟩ := hon
  obtain ⟨rest, hrest⟩ := List.head?_eq_some_iff.mp ht
  rw [hrest]
  rfl

/-! ## What a computation may do -/

/-- Tokens are read between `p` and `p'`, and rounds are counted that are within the limit. -/
structure GoesOn (limits : Limits) (p p' : Parser) : Prop where
  yields : ∃ us, Scanner.Yields limits p.scanner us p'.scanner
  counts : p.Counts limits p'

/-- From `p` on a round is counted that goes over the limit. It leads to `q`, and the tokens that
have been read until then pay for it. -/
structure Overruns (limits : Limits) (p q p' : Parser) : Prop where
  yields : ∃ us, Scanner.Yields limits p.scanner us q.scanner
  paid : q.iterations ≤ 3 * q.scanner.count
  pos : 0 < q.iterations
  exceeds : limits.iterations < q.iterations
  /-- The next token is looked up to report it. -/
  peek : ∃ t, Parse.peek limits 0 q = .ok t p'

/-- The tokens before `s` have been read, and maybe a further one was asked for and refused. -/
def ReadUpTo (limits : Limits) (p : Parser) (s : Scanner) : Prop :=
  p.scanner = s ∨ ∃ e, s.next limits = (.error e, p.scanner)

/-- From `p` on there is an error that leaves `p'`, where the tokens that have been read still pay
for the rounds. -/
structure FailsPaid (limits : Limits) (p : Parser) (e : ReadError) (p' : Parser) : Prop where
  paid : ∃ us s, Scanner.Yields limits p.scanner us s ∧ p'.ReadUpTo limits s ∧
    p'.iterations ≤ 3 * s.count
  rounds : ∀ limit pos, e = .malformed ⟨.tooManyIterations limit, pos⟩ →
    ∃ q, p.Overruns limits q p'

theorem GoesOn.refl (p : Parser) : p.GoesOn limits p := ⟨⟨[], .nil _⟩, .inl rfl⟩

theorem GoesOn.trans (h : p.GoesOn limits p') (h' : p'.GoesOn limits p'') :
    p.GoesOn limits p'' := by
  obtain ⟨us, hus⟩ := h.yields
  obtain ⟨vs, hvs⟩ := h'.yields
  exact ⟨⟨us ++ vs, hus.append hvs⟩, h.counts.trans h'.counts⟩

theorem GoesOn.overruns (h : p.GoesOn limits p') (h' : p'.Overruns limits q p'') :
    p.Overruns limits q p'' := by
  obtain ⟨us, hus⟩ := h.yields
  obtain ⟨vs, hvs⟩ := h'.yields
  exact ⟨⟨us ++ vs, hus.append hvs⟩, h'.paid, h'.pos, h'.exceeds, h'.peek⟩

theorem GoesOn.failsPaid {e : ReadError} (h : p.GoesOn limits p')
    (h' : p'.FailsPaid limits e p'') : p.FailsPaid limits e p'' := by
  obtain ⟨us, hus⟩ := h.yields
  obtain ⟨vs, s, hvs, hrest⟩ := h'.paid
  exact ⟨⟨us ++ vs, s, hus.append hvs, hrest⟩, fun limit pos he =>
    (h'.rounds limit pos he).imp fun _ => h.overruns⟩

end Parser

namespace Parse

variable {α β : Type} {limits : Limits} {m : Parse α} {f : α → Parse β} {p p' : Parser}
  {t : Token} {Q Q' : α → Parser → Prop} {R : β → Parser → Prop} {k n : Nat}

/-- The computation ends as `Q` says or fails, and either way its rounds are paid for. -/
def Pays (limits : Limits) (m : Parse α) (p : Parser) (Q : α → Parser → Prop) : Prop :=
  match m p with
  | .ok a p' => p.GoesOn limits p' ∧ Q a p'
  | .error e p' => p.FailsPaid limits e p'

/-! ## Computations -/

theorem pays_pure {a : α} (h : Q a p) : Pays limits (pure a) p Q := ⟨.refl p, h⟩

theorem pays_of_ok {a : α} (hm : m p = .ok a p') (hon : p.GoesOn limits p') (h : Q a p') :
    Pays limits m p Q := by
  unfold Pays
  rw [hm]
  exact ⟨hon, h⟩

theorem pays_of_error {e : ReadError} (hm : m p = .error e p') (h : p.FailsPaid limits e p') :
    Pays limits m p Q := by
  unfold Pays
  rw [hm]
  exact h

theorem pays_throw {e : ReadError} (hp : p.Backed 0)
    (he : ∀ limit pos, e ≠ .malformed ⟨.tooManyIterations limit, pos⟩) :
    Pays limits (throw e : Parse α) p Q :=
  ⟨⟨[], p.scanner, .nil _, .inl rfl, hp.le⟩, fun limit pos h => absurd h (he limit pos)⟩

theorem Pays.mono (h : Pays limits m p Q) (hQ : ∀ a p', Q a p' → Q' a p') :
    Pays limits m p Q' := by
  unfold Pays at *
  split at h
  · exact ⟨h.1, hQ _ _ h.2⟩
  · exact h

/-- What is known of the result in case there is one. -/
theorem Pays.of_ok (h : Pays limits m p Q) (hQ : ∀ a p', m p = .ok a p' → Q' a p') :
    Pays limits m p Q' := by
  unfold Pays at *
  split at h
  · rename_i a p' hm
    exact ⟨h.1, hQ a p' hm⟩
  · exact h

theorem Pays.bind (h : Pays limits m p Q)
    (hf : ∀ a p', p.iterations ≤ p'.iterations → Q a p' → Pays limits (f a) p' R) :
    Pays limits (m >>= f) p R := by
  unfold Pays at h
  split at h
  · rename_i a p' hm
    have hfa := hf a p' h.1.counts.le h.2
    unfold Pays at hfa ⊢
    rw [bind_of_ok hm]
    split at hfa
    · exact ⟨h.1.trans hfa.1, hfa.2⟩
    · exact h.1.failsPaid hfa
  · rename_i e p' hm
    exact pays_of_error (bind_of_error hm) h

theorem Pays.discard {Q : Parser → Prop} (h : Pays limits m p fun _ p' => Q p') :
    Pays limits (discard m) p fun _ p' => Q p' := by
  show Pays limits (m >>= fun _ => pure ()) p _
  exact h.bind fun _ _ _ hQ => pays_pure hQ

/-- A computation that begins after a round was counted. -/
theorem Pays.counted {p₁ : Parser} (hlt : p.iterations < p₁.iterations) (h : Pays limits m p₁ Q) :
    Pays limits m p₁ fun a p' => p.iterations < p'.iterations ∧ Q a p' := by
  unfold Pays at *
  split at h
  · exact ⟨h.1, Nat.lt_of_lt_of_le hlt h.1.counts.le, h.2⟩
  · exact h

/-- A step that goes on has counted a round, so the bound on the rounds is never what ends the
loop. -/
theorem pays_loop {step : α → Parse (α ⊕ β)} {a : α} (I : Parser → Prop) (hI : I p)
    (hstep : ∀ a p, I p → Pays limits (step a) p fun r p' =>
      r.elim (fun _ => p.iterations < p'.iterations ∧ I p') (fun b => R b p')) :
    Pays limits (loop limits step a) p R := by
  -- The bound on the rounds that are left is one more than what the limit leaves.
  have hrepeat : ∀ (k : Nat) a q, I q → (limits.iterations - q.iterations).toNat < k →
      Pays limits (repeatUpTo limits step k a) q R := by
    intro k
    induction k with
    | zero => exact fun _ _ _ hk => absurd hk (Nat.not_lt_zero _)
    | succ k ih =>
      intro a q hq hk
      have hround : Pays limits (step a) q fun r q' => r.elim
          (fun _ => I q' ∧ (limits.iterations - q'.iterations).toNat < k) (fun b => R b q') := by
        have hpays := hstep a q hq
        unfold Pays at *
        split at hpays
        · rename_i r q' _
          obtain ⟨hon, hr⟩ := hpays
          refine ⟨hon, ?_⟩
          cases r with
          | inl a' =>
            have hle := hon.counts.resolve_left (Nat.ne_of_gt hr.1)
            exact ⟨hr.2, by omega⟩
          | inr b => exact hr
        · exact hpays
      refine hround.bind fun r q' _ hr => ?_
      cases r with
      | inl a' => exact ih a' q' hr.1 hr.2
      | inr b => exact pays_pure hr
  exact hrepeat _ a p hI (Nat.lt_succ_self _)

/-! ## Steps on tokens -/

theorem pays_fail {fault : Fault} (hp : p.Backed 0) (hfault : fault.isLimit = false) :
    Pays limits (fail fault t : Parse α) p Q := by
  refine pays_throw hp fun limit pos he => ?_
  cases he
  exact absurd hfault (by simp [Fault.isLimit])

theorem pays_unexpected (hp : p.Backed 0) : Pays limits (unexpected t : Parse α) p Q := by
  unfold unexpected
  split <;> exact pays_fail hp rfl

theorem pays_readAhead (hp : p.iterations ≤ 3 * p.scanner.count) :
    Pays limits (readAhead limits) p fun _ p' => p'.iterations ≤ 3 * p'.scanner.count := by
  unfold Pays readAhead
  cases hnext : p.scanner.next limits with
  | mk r s =>
    cases r with
    | error e =>
      refine ⟨⟨[], p.scanner, .nil _, .inr ⟨e, hnext⟩, hp⟩, fun limit pos he => ?_⟩
      cases he
      exact absurd rfl (Scanner.next_ne_tooManyIterations hnext limit)
    | ok t =>
      have hcount := Scanner.count_of_next_ok hnext
      exact ⟨⟨⟨[t], .single hnext⟩, .inl rfl⟩, by dsimp only; omega⟩

theorem pays_readFurther (hp : p.iterations ≤ 3 * p.scanner.count) (n : Nat) :
    Pays limits (readFurther limits n) p fun _ p' => p'.iterations ≤ 3 * p'.scanner.count := by
  induction n generalizing p with
  | zero => exact pays_readAhead hp
  | succ n ih => exact (pays_readAhead hp).discard.bind fun _ p' _ hp' => ih hp'

theorem pays_peek (hp : p.iterations ≤ 3 * p.scanner.count) (n : Nat) :
    Pays limits (peek limits n) p fun t p' => p.ReadsOn limits p' ∧ p'.ahead[n]? = some t := by
  refine Pays.of_ok (Q := fun _ _ => True) ?_ fun t p' => readsOn_of_peek
  cases hahead : p.ahead[n]? with
  | none =>
    have hpeek : peek limits n p = readFurther limits (n - p.ahead.length) p := by
      rw [peek, hahead]
    unfold Pays
    rw [hpeek]
    exact (pays_readFurther hp _).mono fun _ _ _ => trivial
  | some t =>
    have hpeek : peek limits n p = .ok t p := by rw [peek, hahead]
    exact pays_of_ok hpeek (.refl p) trivial

theorem pays_next (hp : p.Backed 0) :
    Pays limits (peek limits 0) p fun t p' =>
      p.ReadsOn limits p' ∧ p'.ahead.head? = some t :=
  (pays_peek hp.le 0).mono fun _ _ h => ⟨h.1, List.head?_eq_getElem? ▸ h.2⟩

theorem pays_countRound (hp : p.Backed 1) :
    Pays limits (countRound limits) p fun _ p' => p' = p.counted := by
  by_cases hmany : limits.iterations < (p.iterations + 1 : Nat)
  · have hcounted : p.counted.iterations ≤ 3 * p.counted.scanner.count := hp.le
    -- The round too many has been counted, and the next token is read to report it.
    have hpeek : Pays limits (peek limits 0) p.counted _ := pays_peek hcounted 0
    unfold Pays at hpeek
    split at hpeek
    · rename_i u q hq
      obtain ⟨-, hon, -⟩ := hpeek
      have hle := (hp.counted.readsOn hon).le
      obtain ⟨us, s, hus, rfl⟩ := hon
      refine pays_of_error ((countRound_of_lt hmany).trans (bind_of_ok hq)) ⟨?_, ?_⟩
      · exact ⟨us, s, hus, .inl rfl, hle⟩
      · exact fun _ _ _ =>
          ⟨p.counted, ⟨[], .nil _⟩, hcounted, Nat.succ_pos _, hmany, ⟨u, hq⟩⟩
    · rename_i e q hq
      exact pays_of_error ((countRound_of_lt hmany).trans (bind_of_error hq))
        ⟨hpeek.paid, fun limit pos he => (hpeek.rounds limit pos he).imp fun _ h => { h with }⟩
  · have hle := Int.not_lt.mp hmany
    exact pays_of_ok (countRound_of_le hle)
      ⟨⟨[], .nil _⟩, .inr ⟨Nat.lt_succ_self _, hle⟩⟩ rfl

theorem pays_accept (hp : p.Backed 0) (kinds : List Kind) :
    Pays limits (accept limits kinds) p fun r p' => ∃ q, p.ReadsOn limits q ∧
      r.elim (p' = q) fun t => q.ahead.head? = some t ∧ t.kind ∈ kinds ∧ p' = q.take t := by
  cases kinds with
  | nil => exact pays_pure ⟨p, .refl p, rfl⟩
  | cons k ks =>
    have hnext : Pays limits (peek limits 0) p _ := pays_next hp
    unfold Pays at hnext
    split at hnext
    · rename_i t q hq
      obtain ⟨hgoes, hon, ht⟩ := hnext
      have haccept := accept_of_peek hq k ks
      by_cases hkind : t.kind ∈ k :: ks
      · rw [if_pos hkind] at haccept
        exact pays_of_ok haccept ⟨hgoes.yields, hgoes.counts⟩ ⟨q, hon, ht, hkind, rfl⟩
      · rw [if_neg hkind] at haccept
        exact pays_of_ok haccept hgoes ⟨q, hon, rfl⟩
    · rename_i e q hq
      exact pays_of_error (peeks_accept k ks p e q hq) hnext

end Parse

namespace Parser

open Parse

variable {limits : Limits} {p : Parser} {t : Token} {n : Nat}

/-! ## Steps that pay -/

theorem Affords.next (h : p.Affords n) :
    Pays limits (peek limits 0) p fun t p' => p'.ahead.head? = some t ∧ p'.Affords n :=
  (pays_next (h.backed.mono (Nat.zero_le n))).mono fun _ _ h' => ⟨h'.2, h.readsOn h'.1⟩

theorem Backed.next (h : p.Backed n) :
    Pays limits (peek limits 0) p fun t p' => p'.ahead.head? = some t ∧ p'.Backed n :=
  (pays_next (h.mono (Nat.zero_le n))).mono fun _ _ h' => ⟨h'.2, h.readsOn h'.1⟩

/-- The next token is already paid in, so nothing is gained by taking it off. -/
theorem Backed.advance (h : p.Backed n) (ht : p.ahead.head? = some t) :
    Pays limits (advance limits) p fun _ p' => p'.Affords n :=
  pays_of_ok (advance_of_head ht) ⟨⟨[], .nil _⟩, .inl rfl⟩ (h.take t)

theorem Affords.advance (h : p.Affords n) :
    Pays limits (advance limits) p fun t p' =>
      p'.Affords n ∧ (t.kind ≠ .eof → p'.Affords (n + 3)) := by
  rw [advance_eq]
  refine h.next.bind fun t q _ ⟨ht, hq⟩ => ?_
  show q.GoesOn limits (q.take t) ∧ (q.take t).Affords n ∧
    (t.kind ≠ .eof → (q.take t).Affords (n + 3))
  refine ⟨⟨⟨[], .nil _⟩, .inl rfl⟩, hq.backed.take t, fun hkind => ?_⟩
  exact (hq.backed_of_head ht hkind).take t

theorem Affords.discard (h : p.Affords n) :
    Pays limits (discard (Parse.advance limits)) p fun _ p' => p'.Affords n :=
  (h.advance.mono fun _ _ h' => h'.1).discard

theorem Affords.check (h : p.Affords n) (k : Kind) :
    Pays limits (check limits k) p fun found p' =>
      p'.Affords n ∧ ∃ t, p'.ahead.head? = some t ∧ found = (t.kind == k) :=
  h.next.bind fun t _ _ h' => pays_pure ⟨h'.2, t, h'.1, rfl⟩

theorem Affords.accept (h : p.Affords n) {kinds : List Kind} (heof : Kind.eof ∉ kinds) :
    Pays limits (accept limits kinds) p fun r p' =>
      p'.Affords (if r.isSome then n + 3 else n) := by
  refine (pays_accept (h.backed.mono (Nat.zero_le n)) kinds).mono ?_
  rintro r p' ⟨q, hon, hr⟩
  have hq := h.readsOn hon
  cases r with
  | none => exact hr ▸ hq
  | some t =>
    obtain ⟨ht, hkind, rfl⟩ := hr
    exact (hq.backed_of_head ht fun heq => heof (heq ▸ hkind)).take t

theorem Backed.accept (h : p.Backed n) (kinds : List Kind) :
    Pays limits (accept limits kinds) p fun r p' =>
      if r.isSome then p'.Affords n else p'.Backed n ∧ p.ReadsOn limits p' := by
  refine (pays_accept (h.mono (Nat.zero_le n)) kinds).mono ?_
  rintro r p' ⟨q, hon, hr⟩
  have hq := h.readsOn hon
  cases r with
  | none =>
    obtain rfl := hr
    exact ⟨hq, hon⟩
  | some t =>
    obtain ⟨-, -, rfl⟩ := hr
    exact hq.take t

end Parser

namespace Parse

variable {limits : Limits} {p : Parser} {t : Token} {n : Nat}

/-! ## The grammar -/

theorem pays_skipNewlines (hp : p.Affords n) :
    Pays limits (skipNewlines limits) p fun _ p' => p'.Affords n := by
  refine pays_loop (·.Affords n) hp fun _ p hp => ?_
  refine (hp.accept (by decide)).bind fun newline p₁ hle hp₁ => ?_
  cases newline with
  | none => exact pays_pure hp₁
  | some t =>
    have hp₁ : p₁.Affords (n + 3) := hp₁
    refine (pays_countRound (hp₁.backed.mono (by omega))).bind ?_
    rintro _ _ - rfl
    exact pays_pure ⟨Nat.lt_succ_of_le hle, hp₁.counted.mono (by omega)⟩

theorem pays_descriptor? (hp : p.Backed 0) (number : Option Token) :
    Pays limits (descriptor? number) p fun _ p' => p' = p := by
  unfold descriptor?
  split
  · exact pays_pure rfl
  · split
    · exact pays_pure rfl
    · exact pays_throw hp fun _ _ => by simp

/-- A redirection takes the next token off, be it a number or the operator. -/
theorem pays_redirection (hp : p.Backed n) (ht : p.ahead.head? = some t) :
    Pays limits (redirection limits) p fun _ p' => p'.Affords n := by
  have hzero : ∀ {q : Parser}, q.Affords n ∨ q.Backed n ∧ q.ahead.head? = some t → q.Backed 0 :=
    fun h => (h.elim (·.backed) (·.1)).mono (Nat.zero_le n)
  refine Pays.bind (Q := fun _ p' => p'.Affords n ∨ p'.Backed n ∧ p'.ahead.head? = some t) ?_ ?_
  · refine (hp.accept _).mono fun number p₁ hp₁ => ?_
    cases number with
    | none => exact .inr ⟨hp₁.1, hp₁.2.head ht⟩
    | some u => exact .inl hp₁
  · intro number p₁ _ hp₁
    refine (pays_descriptor? (hzero hp₁) number).bind ?_
    rintro descriptor _ - rfl
    refine Pays.bind (Q := fun _ p' => p'.Affords n) ?_ fun operator p₂ _ hp₂ => ?_
    · rcases hp₁ with hp₁ | ⟨hp₁, ht₁⟩
      · exact hp₁.advance.mono fun _ _ h => h.1
      · exact hp₁.advance ht₁
    · split
      · refine hp₂.next.bind fun target p₃ _ ⟨_, hp₃⟩ => ?_
        split
        · exact hp₃.discard.bind fun _ p₄ _ hp₄ => pays_pure hp₄
        · exact pays_fail (hp₃.backed.mono (Nat.zero_le n)) rfl
      · exact pays_unexpected (hp₂.backed.mono (Nat.zero_le n))

theorem pays_redirectionEntry (bindings : List Binding) (arguments : List Argument)
    (hp : p.Backed n) (ht : p.ahead.head? = some t) :
    Pays limits (redirectionEntry limits bindings arguments) p fun _ p' => p'.Affords n := by
  refine (pays_redirection hp ht).bind fun r p₁ _ hp₁ => ?_
  split <;> exact pays_pure hp₁

/-- Before a further entry of a simple command there is a round left over, unless it is the first:
then the next token is the entry, and it has to pay for the command's round as well. -/
def BeforeEntry (p : Parser) : Prop :=
  p.Affords 1 ∨ p.Backed 2 ∧ ∃ t, p.ahead.head? = some t ∧ t.startsEntry = true

/-- An entry pays for its round and for the next one, in which there may be none. -/
theorem pays_simpleStep (entries : List Binding × List Argument) (hp : BeforeEntry p) :
    Pays limits (simpleStep limits entries) p fun r p' =>
      p.iterations < p'.iterations ∧ p'.Affords (if r.isLeft then 1 else 0) := by
  obtain ⟨bindings, arguments⟩ := entries
  have hround : p.Backed 1 := hp.elim (·.backed) (·.1.mono (Nat.le_succ 1))
  refine (pays_countRound hround).bind ?_
  rintro _ _ - rfl
  refine Pays.counted (Nat.lt_succ_self _) ?_
  refine (pays_next hround.counted).bind ?_
  rintro t p₁ - ⟨hon, ht⟩
  -- An entry is paid in before it is taken off, and without one the round was left over.
  have hentry : t.kind ≠ .eof → p₁.Backed 1 := by
    intro hkind
    rcases hp with hp | ⟨hp, -⟩
    · exact ((hp.counted.readsOn hon).backed_of_head ht hkind).mono (by omega)
    · exact hp.counted.readsOn hon
  have hend : t.startsEntry = false → p₁.Affords 0 := by
    intro hstop
    rcases hp with hp | ⟨-, u, hu, hstarts⟩
    · exact hp.counted.readsOn hon
    · obtain rfl := Option.some.inj ((hon.head hu).symm.trans ht)
      exact absurd (hstarts.symm.trans hstop) (by decide)
  have hredirection : t.kind ≠ .eof →
      Pays limits (redirectionEntry limits bindings arguments) p₁ fun r p' =>
        p'.Affords (if r.isLeft then 1 else 0) := fun hkind =>
    (pays_redirectionEntry _ _ (hentry hkind) ht).mono fun _ _ h => h.mono (by split <;> omega)
  split
  · rename_i hlexeme
    exact hredirection (by simp [Token.kind, hlexeme, Lexeme.kind])
  · rename_i hlexeme
    exact hredirection (by simp [Token.kind, hlexeme, Lexeme.kind])
  · rename_i w hlexeme
    have hp₁ := hentry (by simp [Token.kind, hlexeme, Lexeme.kind])
    refine (hp₁.advance ht).discard.bind fun _ p₂ _ hp₂ => ?_
    split
    · exact pays_pure hp₂
    · refine hp₂.next.bind ?_
      rintro following p₃ - ⟨-, hp₃⟩
      split
      · exact pays_fail (hp₃.backed.mono (Nat.zero_le 1)) rfl
      · exact pays_pure hp₃
  · rename_i hnumber hredirect hword
    exact pays_pure (hend (Token.startsEntry_of_lexeme hword hnumber hredirect))

theorem pays_simpleCommand (hp : BeforeEntry p) :
    Pays limits (simpleCommand limits) p fun _ p' => p'.Affords 0 := by
  refine Pays.bind (Q := fun _ p' => p'.Affords 0) ?_ fun command p₁ _ hp₁ => ?_
  · refine pays_loop BeforeEntry hp fun entries p hp => ?_
    refine (pays_simpleStep entries hp).mono fun r p' ⟨hlt, hp'⟩ => ?_
    cases r with
    | inl _ => exact ⟨hlt, .inl hp'⟩
    | inr _ => exact hp'
  · refine hp₁.next.bind fun t p₂ _ ⟨_, hp₂⟩ => ?_
    split
    · exact pays_unexpected hp₂.backed
    · exact pays_pure hp₂

theorem pays_compoundStep (kind : CompoundKind) (state : List Text × Bool) (hp : p.Affords 2) :
    Pays limits (compoundStep limits kind state) p fun r p' =>
      r.elim (fun _ => p.iterations < p'.iterations ∧ p'.Affords 2) (fun _ => p'.Affords 2) := by
  obtain ⟨_ | ⟨closer, closers⟩, commandStart⟩ := state
  · exact pays_pure hp
  · rw [compoundStep_cons]
    refine (pays_countRound (hp.backed.mono (Nat.le_succ 1))).bind ?_
    rintro _ _ - rfl
    refine hp.counted.advance.bind fun t p₁ hle ⟨hp₁, hmore⟩ => ?_
    split
    · exact pays_fail (hp₁.backed.mono (Nat.zero_le 1)) rfl
    · rename_i hkind
      exact pays_pure ⟨hle, (hmore hkind).mono (by omega)⟩

theorem pays_compound (hp : p.Backed 2) (ht : p.ahead.head? = some t) :
    Pays limits (compound limits) p fun _ p' => p'.Affords 2 := by
  refine (hp.advance ht).bind fun opener p₁ _ hp₁ => ?_
  refine Pays.bind (Q := fun _ p' => p'.Affords 2) ?_ fun kind p₂ _ hp₂ => ?_
  · unfold compoundKind
    split
    · refine (hp₁.check _).bind fun doubled p₂ _ ⟨hp₂, _⟩ => ?_
      split <;> exact pays_pure hp₂
    · split
      · exact pays_pure hp₁
      · exact pays_fail (hp₁.backed.mono (Nat.zero_le 2)) rfl
  · exact pays_loop (·.Affords 2) hp₂ fun state _ hp => pays_compoundStep kind state hp

theorem pays_functionName (hp : p.Backed n) (ht : p.ahead.head? = some t) :
    Pays limits (functionName limits) p fun _ p' => p'.Affords n := by
  have haccept : ∀ {q : Parser} (k : Kind), k ≠ .eof → q.Affords n →
      Pays limits (accept limits [k]) q fun _ p' => p'.Affords n := by
    intro q k hk hq
    refine (hq.accept (by simpa using hk.symm)).mono fun r p' hp' => hp'.mono ?_
    split <;> omega
  refine (pays_next (hp.mono (Nat.zero_le n))).bind fun _ p₁ _ ⟨hon, _⟩ => ?_
  have hp₁ : Pays limits (advance limits) p₁ fun _ p' => p'.Affords n :=
    (hp.readsOn hon).advance (hon.head ht)
  split
  · refine hp₁.discard.bind fun _ p₂ _ hp₂ => hp₂.next.bind fun name p₃ _ ⟨_, hp₃⟩ => ?_
    split
    · refine hp₃.discard.bind fun _ p₄ _ hp₄ => ?_
      refine (haccept _ (by simp) hp₄).bind fun left p₅ _ hp₅ => ?_
      split
      · refine (haccept _ (by simp) hp₅).bind fun right p₆ _ hp₆ => ?_
        split
        · refine hp₆.next.bind fun u p₇ _ ⟨_, hp₇⟩ => ?_
          exact Pays.bind (Q := fun _ p' => p'.Affords n)
            (pays_fail (hp₇.backed.mono (Nat.zero_le n)) rfl) fun _ _ _ hp => pays_pure hp
        · exact pays_pure hp₆
      · exact pays_pure hp₅
    · exact pays_fail (hp₃.backed.mono (Nat.zero_le n)) rfl
  · refine hp₁.bind fun name p₂ _ hp₂ => hp₂.discard.bind fun _ p₃ _ hp₃ => ?_
    exact hp₃.discard.bind fun _ p₄ _ hp₄ => pays_pure hp₄

theorem pays_functionDefinition (hp : p.Backed 2) (ht : p.ahead.head? = some t) :
    Pays limits (functionDefinition limits) p fun _ p' => p'.Affords 2 := by
  refine (pays_functionName hp ht).bind fun name p₁ _ hp₁ => ?_
  refine (pays_skipNewlines hp₁).bind fun _ p₂ _ hp₂ => ?_
  refine hp₂.next.bind fun opener p₃ _ ⟨hopener, hp₃⟩ => ?_
  split
  · exact (pays_compound hp₃.backed hopener).bind fun kind p₄ _ hp₄ => pays_pure hp₄
  · exact pays_fail (hp₃.backed.mono (Nat.zero_le 2)) rfl

/-- To find the `()` of a function, tokens are only read ahead. -/
theorem pays_startsFunction (hp : p.Backed n) (ht : p.ahead.head? = some t) :
    Pays limits (startsFunction limits t) p fun _ p' =>
      p'.Backed n ∧ p'.ahead.head? = some t := by
  have hpeek : ∀ {q : Parser} (k : Nat), q.Backed n ∧ q.ahead.head? = some t →
      Pays limits (peek limits k) q fun _ p' => p'.Backed n ∧ p'.ahead.head? = some t :=
    fun k hq => (pays_peek (hq.1.mono (Nat.zero_le n)).le k).mono fun _ _ h =>
      ⟨hq.1.readsOn h.1, h.1.head hq.2⟩
  refine (hpeek 1 ⟨hp, ht⟩).bind fun left p₁ _ hp₁ => ?_
  split
  · refine (hpeek 2 hp₁).bind fun right p₂ _ hp₂ => ?_
    split <;> exact pays_pure hp₂
  · exact pays_pure hp₁

/-- A command pays for its own round and for those inside of it. -/
theorem pays_command (hp : p.Backed 3) :
    Pays limits (command limits) p fun _ p' =>
      p.iterations < p'.iterations ∧ p'.Affords 0 := by
  refine (pays_countRound (hp.mono (by omega))).bind ?_
  rintro _ _ - rfl
  refine Pays.counted (Nat.lt_succ_self _) ?_
  refine hp.counted.next.bind fun t p₁ _ ⟨ht, hp₁⟩ => ?_
  have hsimple : ∀ {q : Parser}, q.Backed 2 ∧ q.ahead.head? = some t → t.startsEntry = true →
      Pays limits (simpleCommand limits) q fun _ p' => p'.Affords 0 :=
    fun hq hstarts => pays_simpleCommand (.inr ⟨hq.1, t, hq.2, hstarts⟩)
  have hfunction : ∀ {q : Parser}, q.Backed 2 ∧ q.ahead.head? = some t →
      Pays limits (functionDefinition limits) q fun _ p' => p'.Affords 0 :=
    fun hq => (pays_functionDefinition hq.1 hq.2).mono fun _ _ h => h.mono (Nat.zero_le 2)
  split
  · refine (pays_compound hp₁ ht).bind fun kind p₂ _ hp₂ => ?_
    exact pays_pure (hp₂.mono (Nat.zero_le 2))
  · split
    · rename_i w hword
      split
      · exact hfunction ⟨hp₁, ht⟩
      · refine (pays_startsFunction hp₁ ht).bind fun isFunction p₂ _ hp₂ => ?_
        split
        · exact hfunction hp₂
        · exact hsimple hp₂ (by rw [Token.startsEntry, hword])
    · rename_i hnumber
      exact hsimple ⟨hp₁, ht⟩ (by rw [Token.startsEntry, hnumber])
    · rename_i r hredirect
      exact hsimple ⟨hp₁, ht⟩ (by rw [Token.startsEntry, hredirect])
    · exact pays_unexpected (hp₁.mono (Nat.zero_le 2))

theorem pays_pipeline (hp : p.Backed 3) :
    Pays limits (pipeline limits) p fun _ p' =>
      p.iterations < p'.iterations ∧ p'.Affords 0 := by
  refine (hp.accept _).bind fun bang p₁ hle hp₁ => ?_
  have hp₁ : p₁.Backed 3 := by
    cases bang with
    | none => exact hp₁.1
    | some u => exact Parser.Affords.backed hp₁
  refine (pays_command hp₁).bind fun first p₂ _ ⟨hlt, hp₂⟩ => ?_
  refine Pays.counted (Nat.lt_of_le_of_lt hle hlt) ?_
  refine pays_loop (·.Affords 0) hp₂ fun commands p hp => ?_
  refine (hp.accept (by decide)).bind fun pipe p₃ hle₃ hp₃ => ?_
  cases pipe with
  | none => exact pays_pure hp₃
  | some u =>
    refine (pays_skipNewlines hp₃).bind fun _ p₄ hle₄ hp₄ => ?_
    refine (pays_command hp₄.backed).bind fun command p₅ _ ⟨hlt₅, hp₅⟩ => ?_
    exact pays_pure ⟨by omega, hp₅⟩

theorem pays_list (hp : p.Backed 3) :
    Pays limits (list limits) p fun _ p' => p'.Affords 0 := by
  refine (pays_pipeline hp).bind fun first p₁ _ ⟨_, hp₁⟩ => ?_
  refine pays_loop (·.Affords 0) hp₁ fun state p hp => ?_
  obtain ⟨pipelines, connectives⟩ := state
  refine (hp.accept (by decide)).bind fun connective p₂ hle₂ hp₂ => ?_
  cases connective with
  | none => exact pays_pure hp₂
  | some t =>
    refine (pays_skipNewlines hp₂).bind fun _ p₃ hle₃ hp₃ => ?_
    refine (pays_pipeline hp₃.backed).bind fun pipeline p₄ _ ⟨hlt₄, hp₄⟩ => ?_
    exact pays_pure ⟨by omega, hp₄⟩

/-- The tokens of a statement pay for all its rounds, and whether there is one is seen from a token
that is not yet paid in. -/
theorem pays_statement? (hp : p.Affords 0) :
    Pays limits (statement? limits) p fun _ p' => p'.Affords 0 := by
  have haccept : ∀ {q : Parser} {kinds : List Kind}, Kind.eof ∉ kinds → q.Affords 0 →
      Pays limits (accept limits kinds) q fun _ p' => p'.Affords 0 :=
    fun heof hq => (hq.accept heof).mono fun _ _ h => h.mono (Nat.zero_le _)
  refine (pays_skipNewlines hp).bind fun _ p₁ _ hp₁ => ?_
  refine (hp₁.check .eof).bind ?_
  rintro atEnd p₂ - ⟨hp₂, t, ht, rfl⟩
  split
  · exact pays_pure hp₂
  · rename_i hkind
    have hpaid : p₂.Backed 3 := hp₂.backed_of_head ht fun heof => hkind (beq_iff_eq.mpr heof)
    refine (pays_list hpaid).bind fun s p₃ _ hp₃ => ?_
    refine (haccept (by decide) hp₃).bind fun amp p₄ _ hp₄ => ?_
    split
    · exact pays_pure hp₄
    · refine (haccept (by decide) hp₄).bind fun separator p₅ _ hp₅ => ?_
      split
      · exact pays_pure hp₅
      · refine (hp₅.check .eof).bind fun atEnd' p₆ _ ⟨hp₆, _⟩ => ?_
        split
        · exact pays_pure hp₆
        · exact hp₆.next.bind fun t p₇ _ ⟨_, hp₇⟩ => pays_unexpected hp₇.backed

end Parse

end EnvScript
