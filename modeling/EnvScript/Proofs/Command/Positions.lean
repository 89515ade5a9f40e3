import EnvScript.Proofs.Command.Closed
import EnvScript.Proofs.Command.Lookahead
import EnvScript.Proofs.Token.Positions
import EnvScript.Command.Parser

/-!
# Positions that the parser reports

A parser that stands at an offset of the text, or beyond it, reports no position in front of that
offset. Rounds have to be counted on the way: a loop only goes on after a round within the limit, so
the bound on its rounds, which has no token to report, is never what ends it.
-/

namespace EnvScript

/-- The parser stands at the offset `n` of the text or beyond it, with all it has read ahead. -/
structure Parser.From (limits : Limits) (text : Text) (n : Nat) (p : Parser) : Prop where
  scanner : p.scanner.From limits text n
  ahead : ∀ t ∈ p.ahead, t.start.From text n ∧ t.stop.From text n
  last : p.last.From text n

/-- Between `p` and `p'` no rounds are counted, or some that are within the limit. -/
def Parser.Counts (limits : Limits) (p p' : Parser) : Prop :=
  p'.iterations = p.iterations ∨
    p.iterations < p'.iterations ∧ (p'.iterations : Int) ≤ limits.iterations

/-- The error is reported at the offset `n` of the text or beyond it. -/
def ReadError.From (text : Text) (n : Nat) : ReadError → Prop
  | .malformed e => e.position.From text n
  | .oversizedNumeral _ => True

theorem Parser.from_ofText (limits : Limits) (text : Text) :
    (Parser.ofText text).From limits text 0 :=
  ⟨Scanner.from_ofText limits text, by simp [ofText], Position.from_start text⟩

theorem Parser.Counts.le {limits : Limits} {p p' : Parser} (h : p.Counts limits p') :
    p.iterations ≤ p'.iterations := by
  unfold Counts at h
  omega

theorem Parser.Counts.trans {limits : Limits} {p p' p'' : Parser} (h : p.Counts limits p')
    (h' : p'.Counts limits p'') : p.Counts limits p'' := by
  unfold Counts at *
  omega

namespace Parse

variable {α β : Type} {limits : Limits} {text : Text} {n : Nat} {m : Parse α} {f : α → Parse β}
  {p : Parser} {t : Token} {Q Q' : α → Parser → Prop} {R : β → Parser → Prop}

/-- From `p` on the computation only goes on, to a result of which `Q` holds, and fails with no
position in front of `n`. -/
def Keeps (limits : Limits) (text : Text) (n : Nat) (m : Parse α) (p : Parser)
    (Q : α → Parser → Prop) : Prop :=
  Ends m p (fun a p' => p'.From limits text n ∧ p.Counts limits p' ∧ Q a p')
    (ReadError.From text n)

/-! ## Computations -/

theorem keeps_pure {a : α} (hp : p.From limits text n) (h : Q a p) :
    Keeps limits text n (pure a) p Q := ends_pure ⟨hp, .inl rfl, h⟩

theorem keeps_throw {e : ReadError} (h : e.From text n) :
    Keeps limits text n (throw e : Parse α) p Q := ends_throw h

theorem Keeps.mono (h : Keeps limits text n m p Q) (hQ : ∀ a p', Q a p' → Q' a p') :
    Keeps limits text n m p Q' :=
  Ends.mono h fun a p' h => ⟨h.1, h.2.1, hQ a p' h.2.2⟩

theorem Keeps.bind (h : Keeps limits text n m p Q)
    (hf : ∀ a p', p'.From limits text n → p.iterations ≤ p'.iterations → Q a p' →
      Keeps limits text n (f a) p' R) : Keeps limits text n (m >>= f) p R := by
  refine Ends.bind h ?_
  rintro a p' ⟨hp', hcounts, ha⟩
  refine Ends.mono (hf a p' hp' hcounts.le ha) ?_
  rintro b p'' ⟨hp'', hcounts', hb⟩
  exact ⟨hp'', hcounts.trans hcounts', hb⟩

/-- A computation that begins after a round was counted. -/
theorem Keeps.counted {p₁ : Parser} (hlt : p.iterations < p₁.iterations)
    (h : Keeps limits text n m p₁ fun _ _ => True) :
    Keeps limits text n m p₁ fun _ p' => p.iterations < p'.iterations :=
  Ends.mono h fun _ _ h => ⟨h.1, h.2.1, Nat.lt_of_lt_of_le hlt h.2.1.le⟩

theorem Keeps.discard (h : Keeps limits text n m p Q) :
    Keeps limits text n (discard m) p fun _ _ => True :=
  Ends.discard (Ends.mono h fun _ _ h => ⟨h.1, h.2.1, trivial⟩)

theorem Keeps.map {g : α → β} (h : Keeps limits text n m p fun a p' => R (g a) p') :
    Keeps limits text n (g <$> m) p R := Ends.map h

/-- A step that goes on has counted a round. -/
theorem keeps_loop {step : α → Parse (α ⊕ β)} {a : α} (hp : p.From limits text n)
    (hstep : ∀ a p, p.From limits text n →
      Keeps limits text n (step a) p fun r p' =>
        r.elim (fun _ => p.iterations < p'.iterations) (fun b => R b p')) :
    Keeps limits text n (loop limits step a) p R := by
  -- The bound on the rounds that are left is one more than what the limit leaves.
  have hrepeat : ∀ (k : Nat) a q, q.From limits text n → p.Counts limits q →
      (limits.iterations - q.iterations).toNat < k →
      Ends (repeatUpTo limits step k a) q
        (fun b q' => q'.From limits text n ∧ p.Counts limits q' ∧ R b q')
        (ReadError.From text n) := by
    intro k
    induction k with
    | zero => exact fun _ _ _ _ hk => absurd hk (Nat.not_lt_zero _)
    | succ k ih =>
      intro a q hq hcounts hk
      refine Ends.bind (hstep a q hq) ?_
      rintro r q' ⟨hq', hcounts', hr⟩
      cases r with
      | inl a' =>
        have hlt : q.iterations < q'.iterations := hr
        have hle := hcounts'.resolve_left (Nat.ne_of_gt hlt)
        exact ih a' q' hq' (hcounts.trans hcounts') (by omega)
      | inr b => exact ends_pure ⟨hq', hcounts.trans hcounts', hr⟩
  exact hrepeat _ a p hp (.inl rfl) (Nat.lt_succ_self _)

/-! ## Steps on tokens -/

theorem keeps_fail (ht : t.start.From text n) (fault : Fault) :
    Keeps limits text n (fail fault t : Parse α) p Q := keeps_throw ht

theorem keeps_unexpected (ht : t.start.From text n) :
    Keeps limits text n (unexpected t : Parse α) p Q := by
  unfold unexpected
  split <;> exact keeps_fail ht _

theorem keeps_readAhead (hp : p.From limits text n) :
    Keeps limits text n (readAhead limits) p fun t p' => t ∈ p'.ahead := by
  unfold Keeps Ends readAhead
  cases hnext : p.scanner.next limits with
  | mk r s =>
    cases r with
    | error e => exact hp.scanner.next_error hnext
    | ok t =>
      obtain ⟨hstart, hstop, hs⟩ := hp.scanner.next_ok hnext
      refine ⟨⟨hs, fun u hu => ?_, hp.last⟩, .inl rfl, by simp⟩
      rcases List.mem_append.mp hu with hu | hu
      · exact hp.ahead u hu
      · exact List.mem_singleton.mp hu ▸ ⟨hstart, hstop⟩

theorem keeps_readFurther (hp : p.From limits text n) (k : Nat) :
    Keeps limits text n (readFurther limits k) p fun t p' => t ∈ p'.ahead := by
  induction k generalizing p with
  | zero => exact keeps_readAhead hp
  | succ k ih =>
    refine (keeps_readAhead hp).discard.bind ?_
    intro _ p' hp' _ _
    exact ih hp'

theorem keeps_peek (hp : p.From limits text n) (k : Nat) :
    Keeps limits text n (peek limits k) p fun t p' => t ∈ p'.ahead := by
  cases hahead : p.ahead[k]? with
  | none =>
    have hpeek : peek limits k p = readFurther limits (k - p.ahead.length) p := by
      rw [peek, hahead]
    unfold Keeps Ends
    rw [hpeek]
    exact keeps_readFurther hp _
  | some t =>
    have hpeek : peek limits k p = .ok t p := by rw [peek, hahead]
    unfold Keeps Ends
    rw [hpeek]
    exact ⟨hp, .inl rfl, List.mem_of_getElem? hahead⟩

theorem keeps_advance (hp : p.From limits text n) :
    Keeps limits text n (advance limits) p fun t _ => t.start.From text n := by
  rw [advance_eq]
  refine (keeps_peek hp 0).bind ?_
  intro t p' hp' _ ht
  obtain ⟨hstart, hstop⟩ := hp'.ahead t ht
  refine ⟨⟨hp'.scanner, fun u hu => hp'.ahead u (List.mem_of_mem_tail hu), ?_⟩, .inl rfl,
    hstart⟩
  show Position.From text n (if t.isSeparator then p'.last else t.stop)
  split
  · exact hp'.last
  · exact hstop

theorem keeps_check (hp : p.From limits text n) (k : Kind) :
    Keeps limits text n (check limits k) p fun _ _ => True := by
  refine (keeps_peek hp 0).bind ?_
  intro t p' hp' _ _
  exact keeps_pure hp' trivial

theorem keeps_accept (hp : p.From limits text n) (kinds : List Kind) :
    Keeps limits text n (accept limits kinds) p fun _ _ => True := by
  induction kinds generalizing p with
  | nil => exact keeps_pure hp trivial
  | cons k ks ih =>
    refine (keeps_check hp k).bind ?_
    intro _ p' hp' _ _
    split
    · exact ((keeps_advance hp').mono fun _ _ _ => trivial).map
    · exact ih hp'

/-- A round too many is reported at the next token. -/
theorem keeps_countRound (hp : p.From limits text n) :
    Keeps limits text n (countRound limits) p fun _ p' => p.iterations < p'.iterations := by
  have hcounted : { p with iterations := p.iterations + 1 }.From limits text n :=
    ⟨hp.scanner, hp.ahead, hp.last⟩
  unfold countRound
  refine Ends.bind (Q := fun _ p' => p' = { p with iterations := p.iterations + 1 }) rfl ?_
  rintro _ _ rfl
  refine Ends.bind (Q := fun q p' => q = { p with iterations := p.iterations + 1 } ∧ p' = q)
    ⟨rfl, rfl⟩ ?_
  rintro _ _ ⟨rfl, rfl⟩
  split
  · refine Ends.bind (keeps_peek hcounted 0) ?_
    rintro t p' ⟨hp', -, ht⟩
    exact ends_throw (hp'.ahead t ht).1
  · rename_i hle
    exact ends_pure ⟨hcounted, .inr ⟨Nat.lt_succ_self _, Int.not_lt.mp hle⟩, Nat.lt_succ_self _⟩

/-! ## The grammar -/

theorem keeps_skipNewlines (hp : p.From limits text n) :
    Keeps limits text n (skipNewlines limits) p fun _ _ => True := by
  refine keeps_loop hp ?_
  intro _ p hp
  refine (keeps_accept hp _).bind ?_
  intro r p₁ hp₁ hle _
  cases r with
  | none => exact keeps_pure hp₁ trivial
  | some t =>
    refine (keeps_countRound hp₁).bind ?_
    intro _ p₂ hp₂ _ hlt
    exact keeps_pure hp₂ (Nat.lt_of_le_of_lt hle hlt)

theorem keeps_redirection (hp : p.From limits text n) :
    Keeps limits text n (redirection limits) p fun _ _ => True := by
  refine (keeps_accept hp _).bind ?_
  intro number p₁ hp₁ _ _
  refine Keeps.bind (Q := fun _ _ => True) ?_ ?_
  · unfold descriptor?
    split
    · exact keeps_pure hp₁ trivial
    · split
      · exact keeps_pure hp₁ trivial
      · exact keeps_throw trivial
  · intro _ p₂ hp₂ _ _
    refine (keeps_advance hp₂).bind ?_
    intro operator p₃ hp₃ _ hoperator
    split
    · refine (keeps_peek hp₃ 0).bind ?_
      intro t p₄ hp₄ _ ht
      split
      · refine (keeps_advance hp₄).discard.bind ?_
        intro _ p₅ hp₅ _ _
        exact keeps_pure hp₅ trivial
      · exact keeps_fail (hp₄.ahead t ht).1 _
    · exact keeps_unexpected hoperator

theorem keeps_redirectionEntry (bindings : List Binding) (arguments : List Argument)
    (hp : p.From limits text n) :
    Keeps limits text n (redirectionEntry limits bindings arguments) p fun _ _ => True := by
  refine (keeps_redirection hp).bind ?_
  intro r p₁ hp₁ _ _
  split <;> exact keeps_pure hp₁ trivial

/-- Every step on the entries of a command counts a round, also the last. -/
theorem keeps_simpleStep (entries : List Binding × List Argument) (hp : p.From limits text n) :
    Keeps limits text n (simpleStep limits entries) p fun _ p' => p.iterations < p'.iterations := by
  obtain ⟨bindings, arguments⟩ := entries
  refine (keeps_countRound hp).bind ?_
  intro _ p₁ hp₁ _ hlt
  refine Keeps.counted hlt ?_
  refine (keeps_peek hp₁ 0).bind ?_
  intro t p₂ hp₂ _ ht
  split
  · exact keeps_redirectionEntry bindings arguments hp₂
  · exact keeps_redirectionEntry bindings arguments hp₂
  · refine (keeps_advance hp₂).discard.bind ?_
    intro _ p₃ hp₃ _ _
    split
    · exact keeps_pure hp₃ trivial
    · refine (keeps_peek hp₃ 0).bind ?_
      intro following p₄ hp₄ _ hfollowing
      split
      · exact keeps_fail (hp₄.ahead following hfollowing).1 _
      · exact keeps_pure hp₄ trivial
  · exact keeps_pure hp₂ trivial

theorem keeps_simpleCommand (hp : p.From limits text n) :
    Keeps limits text n (simpleCommand limits) p fun _ _ => True := by
  refine Keeps.bind (Q := fun _ _ => True) (keeps_loop hp ?_) ?_
  · intro entries p hp
    refine (keeps_simpleStep entries hp).mono ?_
    intro r p' hlt
    cases r with
    | inl _ => exact hlt
    | inr _ => trivial
  · intro command p₁ hp₁ _ _
    refine (keeps_peek hp₁ 0).bind ?_
    intro t p₂ hp₂ _ ht
    split
    · exact keeps_unexpected (hp₂.ahead t ht).1
    · exact keeps_pure hp₂ trivial

theorem keeps_compoundStep (kind : CompoundKind) (state : List Text × Bool)
    (hp : p.From limits text n) :
    Keeps limits text n (compoundStep limits kind state) p fun r p' =>
      r.elim (fun _ => p.iterations < p'.iterations) fun _ => True := by
  obtain ⟨_ | ⟨closer, closers⟩, commandStart⟩ := state
  · exact keeps_pure hp trivial
  · refine (keeps_countRound hp).bind ?_
    intro _ p₁ hp₁ _ hlt
    refine (keeps_advance hp₁).bind ?_
    intro t p₂ hp₂ hle ht
    split
    · exact keeps_fail ht _
    · split
      · exact keeps_pure hp₂ (Nat.lt_of_lt_of_le hlt hle)
      · exact keeps_fail ht _

theorem keeps_compound (hp : p.From limits text n) :
    Keeps limits text n (compound limits) p fun _ _ => True := by
  refine (keeps_advance hp).bind ?_
  intro opener p₁ hp₁ _ hopener
  refine Keeps.bind (Q := fun _ _ => True) ?_ ?_
  · unfold compoundKind
    split
    · refine (keeps_check hp₁ _).bind ?_
      intro _ p₂ hp₂ _ _
      split <;> exact keeps_pure hp₂ trivial
    · split
      · exact keeps_pure hp₁ trivial
      · exact keeps_fail hopener _
  · intro kind p₂ hp₂ _ _
    exact keeps_loop hp₂ fun state _ => keeps_compoundStep kind state

theorem keeps_functionName (hp : p.From limits text n) :
    Keeps limits text n (functionName limits) p fun _ _ => True := by
  refine (keeps_peek hp 0).bind ?_
  intro _ p₁ hp₁ _ _
  split
  · refine (keeps_advance hp₁).discard.bind ?_
    intro _ p₂ hp₂ _ _
    refine (keeps_peek hp₂ 0).bind ?_
    intro t p₃ hp₃ _ ht
    split
    · refine (keeps_advance hp₃).discard.bind ?_
      intro _ p₄ hp₄ _ _
      refine (keeps_accept hp₄ _).bind ?_
      intro _ p₅ hp₅ _ _
      split
      · refine (keeps_accept hp₅ _).bind ?_
        intro _ p₆ hp₆ _ _
        split
        · refine (keeps_peek hp₆ 0).bind ?_
          intro u p₇ hp₇ _ hu
          exact Keeps.bind (Q := fun _ _ => True) (keeps_fail (hp₇.ahead u hu).1 _)
            fun _ _ hp _ _ => keeps_pure hp trivial
        · exact keeps_pure hp₆ trivial
      · exact keeps_pure hp₅ trivial
    · exact keeps_fail (hp₃.ahead t ht).1 _
  · refine (keeps_advance hp₁).bind ?_
    intro _ p₂ hp₂ _ _
    refine (keeps_advance hp₂).discard.bind ?_
    intro _ p₃ hp₃ _ _
    refine (keeps_advance hp₃).discard.bind ?_
    intro _ p₄ hp₄ _ _
    exact keeps_pure hp₄ trivial

theorem keeps_functionDefinition (hp : p.From limits text n) :
    Keeps limits text n (functionDefinition limits) p fun _ _ => True := by
  refine (keeps_functionName hp).bind ?_
  intro name p₁ hp₁ _ _
  refine (keeps_skipNewlines hp₁).bind ?_
  intro _ p₂ hp₂ _ _
  refine (keeps_peek hp₂ 0).bind ?_
  intro t p₃ hp₃ _ ht
  split
  · refine (keeps_compound hp₃).bind ?_
    intro kind p₄ hp₄ _ _
    exact keeps_pure hp₄ trivial
  · exact keeps_fail (hp₃.ahead t ht).1 _

theorem keeps_startsFunction (hp : p.From limits text n) :
    Keeps limits text n (startsFunction limits t) p fun _ _ => True := by
  refine (keeps_peek hp 1).bind ?_
  intro _ p₁ hp₁ _ _
  split
  · refine (keeps_peek hp₁ 2).bind ?_
    intro _ p₂ hp₂ _ _
    split <;> exact keeps_pure hp₂ trivial
  · exact keeps_pure hp₁ trivial

theorem keeps_command (hp : p.From limits text n) :
    Keeps limits text n (command limits) p fun _ p' => p.iterations < p'.iterations := by
  refine (keeps_countRound hp).bind ?_
  intro _ p₁ hp₁ _ hlt
  refine Keeps.counted hlt ?_
  refine (keeps_peek hp₁ 0).bind ?_
  intro t p₂ hp₂ _ ht
  split
  · refine (keeps_compound hp₂).bind ?_
    intro kind p₃ hp₃ _ _
    exact keeps_pure hp₃ trivial
  · split
    · split
      · exact keeps_functionDefinition hp₂
      · refine (keeps_startsFunction hp₂).bind ?_
        intro _ p₃ hp₃ _ _
        split
        · exact keeps_functionDefinition hp₃
        · exact keeps_simpleCommand hp₃
    · exact keeps_simpleCommand hp₂
    · exact keeps_simpleCommand hp₂
    · exact keeps_unexpected (hp₂.ahead t ht).1

theorem keeps_pipeline (hp : p.From limits text n) :
    Keeps limits text n (pipeline limits) p fun _ p' => p.iterations < p'.iterations := by
  refine (keeps_accept hp _).bind ?_
  intro bang p₁ hp₁ hle _
  refine (keeps_command hp₁).bind ?_
  intro first p₂ hp₂ _ hlt
  refine Keeps.counted (Nat.lt_of_le_of_lt hle hlt) (keeps_loop hp₂ ?_)
  intro commands p hp
  refine (keeps_accept hp _).bind ?_
  intro pipe p₃ hp₃ hle₃ _
  cases pipe with
  | none => exact keeps_pure hp₃ trivial
  | some u =>
    refine (keeps_skipNewlines hp₃).bind ?_
    intro _ p₄ hp₄ hle₄ _
    refine (keeps_command hp₄).bind ?_
    intro command p₅ hp₅ _ hlt₅
    exact keeps_pure hp₅ (show p.iterations < p₅.iterations by omega)

theorem keeps_list (hp : p.From limits text n) :
    Keeps limits text n (list limits) p fun _ _ => True := by
  refine (keeps_pipeline hp).bind ?_
  intro first p₁ hp₁ _ _
  refine keeps_loop hp₁ ?_
  rintro ⟨pipelines, connectives⟩ p hp
  refine (keeps_accept hp _).bind ?_
  intro connective p₂ hp₂ hle₂ _
  cases connective with
  | none => exact keeps_pure hp₂ trivial
  | some t =>
    refine (keeps_skipNewlines hp₂).bind ?_
    intro _ p₃ hp₃ hle₃ _
    refine (keeps_pipeline hp₃).bind ?_
    intro pipeline p₄ hp₄ _ hlt₄
    exact keeps_pure hp₄ (show p.iterations < p₄.iterations by omega)

/-- Reading a statement reports no position in front of the place where the parser stood. -/
theorem keeps_statement? (hp : p.From limits text n) :
    Keeps limits text n (statement? limits) p fun _ _ => True := by
  refine (keeps_skipNewlines hp).bind ?_
  intro _ p₁ hp₁ _ _
  refine (keeps_check hp₁ .eof).bind ?_
  intro _ p₂ hp₂ _ _
  split
  · exact keeps_pure hp₂ trivial
  · refine (keeps_list hp₂).bind ?_
    intro s p₃ hp₃ _ _
    refine (keeps_accept hp₃ _).bind ?_
    intro _ p₄ hp₄ _ _
    split
    · exact keeps_pure hp₄ trivial
    · refine (keeps_accept hp₄ _).bind ?_
      intro _ p₅ hp₅ _ _
      split
      · exact keeps_pure hp₅ trivial
      · refine (keeps_check hp₅ .eof).bind ?_
        intro _ p₆ hp₆ _ _
        split
        · exact keeps_pure hp₆ trivial
        · refine (keeps_peek hp₆ 0).bind ?_
          intro t p₇ hp₇ _ ht
          exact keeps_unexpected (hp₇.ahead t ht).1

end Parse

end EnvScript
