import EnvScript.Proofs.Command.Head

/-!
# How far a parser has read ahead

What a parser does depends on the tokens to come and not on how many of them it has read already:
`Parser.ReadsOn` relates a parser to one that has read further, and every part of the grammar gives
the same result for both, or the same error, and keeps the relation.
-/

namespace EnvScript

namespace Parser

variable {limits : Limits} {p q : Parser} {t : Token}

theorem ReadsOn.counted (h : p.ReadsOn limits q) : p.counted.ReadsOn limits q.counted := by
  obtain ⟨us, s, hus, rfl⟩ := h
  exact ⟨us, s, hus, rfl⟩

theorem ReadsOn.take (h : p.ReadsOn limits q) (ht : p.ahead.head? = some t) :
    (p.take t).ReadsOn limits (q.take t) := by
  obtain ⟨us, s, hus, rfl⟩ := h
  obtain ⟨rest, hrest⟩ := List.head?_eq_some_iff.mp ht
  refine ⟨us, s, hus, ?_⟩
  unfold Parser.take
  rw [hrest]
  rfl

end Parser

namespace Parse

variable {limits : Limits} {α β : Type} {m : Parse α} {f : α → Parse β} {p q : Parser}

/-- The same result or the same error, and no matter how far the parsers have read. -/
inductive SameAnswer (limits : Limits) :
    EStateM.Result ReadError Parser α → EStateM.Result ReadError Parser α → Prop
  | ok {a : α} {p q : Parser} (h : p.ReadsOn limits q) : SameAnswer limits (.ok a p) (.ok a q)
  | error {e : ReadError} {p q : Parser} : SameAnswer limits (.error e p) (.error e q)

theorem SameAnswer.refl (r : EStateM.Result ReadError Parser α) : SameAnswer limits r r := by
  cases r with
  | ok a p => exact .ok (.refl p)
  | error e p => exact .error

/-- What comes of the computation does not depend on how far the parser has read. -/
def Indifferent (limits : Limits) (m : Parse α) : Prop :=
  ∀ p q, p.ReadsOn limits q → SameAnswer limits (m p) (m q)

theorem SameAnswer.bind (hm : SameAnswer limits (m p) (m q)) (hf : ∀ a, Indifferent limits (f a)) :
    SameAnswer limits ((m >>= f) p) ((m >>= f) q) := by
  generalize hx : m p = x at hm
  generalize hy : m q = y at hm
  cases hm with
  | ok h =>
    rw [bind_of_ok hx, bind_of_ok hy]
    exact hf _ _ _ h
  | error =>
    rw [bind_of_error hx, bind_of_error hy]
    exact .error

/-- Tokens that are read anyway may be read before. -/
theorem readFurther_of_readsOn {us : List Token} {s : Scanner} {n : Nat}
    (h : Scanner.Yields limits p.scanner us s) (hn : us.length ≤ n) :
    readFurther limits n p = readFurther limits (n - us.length)
      { p with scanner := s, ahead := p.ahead ++ us } := by
  induction us generalizing p n with
  | nil =>
    cases h
    rw [List.append_nil]
    rfl
  | cons u us ih =>
    cases h with
    | @cons _ s₁ _ _ _ hnext hrest =>
      obtain ⟨k, rfl⟩ := Nat.exists_eq_add_of_le' (Nat.le_trans (Nat.succ_pos _) hn)
      have hread : discard (readAhead limits) p =
          .ok () { p with scanner := s₁, ahead := p.ahead ++ [u] } := by
        show EStateM.map _ (readAhead limits) p = _
        rw [EStateM.map, readAhead, hnext]
      rw [readFurther, bind_of_ok hread, ih hrest (Nat.le_of_succ_le_succ hn), List.length_cons,
        Nat.succ_sub_succ, List.append_assoc]
      rfl

theorem indifferent_peek (n : Nat) : Indifferent limits (peek limits n) := by
  rintro p _ ⟨us, s, hus, rfl⟩
  unfold peek
  cases hp : p.ahead[n]? with
  | some t =>
    -- Both have the token.
    have hlt := (List.getElem?_eq_some_iff.mp hp).1
    rw [List.getElem?_append_left hlt, hp]
    exact .ok ⟨us, s, hus, rfl⟩
  | none =>
    have hle : p.ahead.length ≤ n := List.getElem?_eq_none_iff.mp hp
    rw [List.getElem?_append_right hle]
    cases hq : us[n - p.ahead.length]? with
    | some t =>
      -- The first has it to read, among the tokens that the second has.
      obtain ⟨s₁, hread, hrest⟩ := readFurther_of_yields hus hq
      rw [hread]
      refine .ok ⟨_, s, hrest, ?_⟩
      rw [List.append_assoc, List.take_append_drop]
    | none =>
      -- Both have to read for it, and once the first has read `us` they are in the same state.
      have hle' : us.length ≤ n - p.ahead.length := List.getElem?_eq_none_iff.mp hq
      dsimp only
      rw [readFurther_of_readsOn hus hle', List.length_append, Nat.sub_sub]
      exact .refl _

theorem indifferent_advance : Indifferent limits (advance limits) := by
  intro p q h
  have hpeek := indifferent_peek 0 p q h
  generalize hx : peek limits 0 p = x at hpeek
  generalize hy : peek limits 0 q = y at hpeek
  cases hpeek with
  | ok h =>
    rw [advance_of_peek hx, advance_of_peek hy]
    exact .ok (h.take (head_of_peek hx).1)
  | error =>
    rw [peeks_advance _ _ _ hx, peeks_advance _ _ _ hy]
    exact .error

theorem indifferent_throw (e : ReadError) : Indifferent limits (throw e : Parse α) :=
  fun _ _ _ => .error

theorem indifferent_countRound : Indifferent limits (countRound limits) := by
  intro p q h
  by_cases hmany : limits.iterations < (p.iterations + 1 : Nat)
  · rw [countRound_of_lt hmany, countRound_of_lt (h.iterations ▸ hmany)]
    exact (indifferent_peek 0 _ _ h.counted).bind fun t => indifferent_throw _
  · have hle := Int.not_lt.mp hmany
    rw [countRound_of_le hle, countRound_of_le (h.iterations ▸ hle)]
    exact .ok h.counted

theorem indifferent_loop {step : α → Parse (α ⊕ β)} (hstep : ∀ a, Indifferent limits (step a))
    (a : α) : Indifferent limits (loop limits step a) := by
  have hrepeat : ∀ n a, Indifferent limits (repeatUpTo limits step n a) := by
    intro n
    induction n with
    | zero => exact fun _ => indifferent_throw _
    | succ n ih =>
      intro a p q h
      refine (hstep a p q h).bind fun r => ?_
      cases r with
      | inl a' => exact ih a'
      | inr b => exact fun _ _ h => .ok h
  -- Both have counted as many rounds, so both have as many to go.
  intro p q h
  show SameAnswer limits (repeatUpTo limits step _ a p) (repeatUpTo limits step _ a q)
  rw [h.iterations]
  exact hrepeat _ a p q h

theorem closed_indifferent : Closed limits (Indifferent limits) where
  pure _ _ _ h := .ok h
  throw := indifferent_throw
  bind hm hf p q h := (hm p q h).bind hf
  loop := indifferent_loop
  next := indifferent_peek 0
  advance := indifferent_advance
  countRound := indifferent_countRound

end Parse

end EnvScript
