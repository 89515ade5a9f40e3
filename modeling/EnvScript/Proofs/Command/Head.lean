import EnvScript.Proofs.Command.Closed
import EnvScript.Proofs.Command.Lookahead

/-!
# The next token

Where the next token is known, the steps on it are known. What looks at the next token first fails
as the looking does, and no command begins with the end token.
-/

namespace EnvScript

namespace Parser

def counted (p : Parser) : Parser := { p with iterations := p.iterations + 1 }

/-- The parser with its next token, `t`, taken off. -/
def take (p : Parser) (t : Token) : Parser :=
  { p with ahead := p.ahead.tail, last := if t.isSeparator then p.last else t.stop }

/-- The next token is the end token. -/
def AtEnd (p : Parser) : Prop := ∃ e, p.ahead.head? = some e ∧ e.kind = .eof

end Parser

namespace Parse

variable {α β : Type} {limits limits' : Limits} {p p' q q' : Parser} {t t' : Token}

/-! ## Known tokens -/

section

variable {m : Parse α} {f : α → Parse β} {a : α} {e : ReadError}

/-- What comes of a computation, but for the state it leaves. -/
def outcome (m : Parse α) (p : Parser) : Except ReadError α :=
  match m p with
  | .ok a _ => .ok a
  | .error e _ => .error e

theorem exists_of_outcome (h : outcome m p = .ok a) : ∃ p', m p = .ok a p' := by
  unfold outcome at h
  split at h
  · rename_i b p' hm
    exact ⟨p', Except.ok.inj h ▸ hm⟩
  · exact absurd h (by simp)

theorem bind_of_ok (h : m p = .ok a p') : (m >>= f) p = f a p' := by
  show EStateM.bind m f p = _
  rw [EStateM.bind, h]

theorem bind_of_error (h : m p = .error e p') : (m >>= f) p = .error e p' := by
  show EStateM.bind m f p = _
  rw [EStateM.bind, h]

theorem exists_of_bind_ok {b : β} (h : (m >>= f) p = .ok b p') :
    ∃ a q, m p = .ok a q ∧ f a q = .ok b p' := by
  cases hm : m p with
  | ok a q => exact ⟨a, q, rfl, (bind_of_ok hm).symm.trans h⟩
  | error e q =>
    rw [bind_of_error hm] at h
    exact absurd h (by simp)

theorem peek_of_head (h : p.ahead.head? = some t) : peek limits 0 p = .ok t p := by
  rw [List.head?_eq_getElem?] at h
  rw [peek, h]

theorem head_of_peek (h : peek limits 0 p = .ok t p') :
    p'.ahead.head? = some t ∧ p'.iterations = p.iterations := by
  obtain ⟨hon, ht⟩ := readsOn_of_peek h
  exact ⟨List.head?_eq_getElem? ▸ ht, hon.iterations⟩

theorem advance_of_peek (h : peek limits 0 p = .ok t p') :
    advance limits p = .ok t (p'.take t) := by
  rw [advance_eq]
  exact bind_of_ok h

theorem advance_of_head (h : p.ahead.head? = some t) : advance limits p = .ok t (p.take t) :=
  advance_of_peek (peek_of_head h)

theorem check_of_head (h : p.ahead.head? = some t) (k : Kind) :
    check limits k p = .ok (t.kind == k) p :=
  bind_of_ok (peek_of_head h)

theorem accept_of_head (h : p.ahead.head? = some t) (kinds : List Kind) :
    accept limits kinds p = if t.kind ∈ kinds then .ok (some t) (p.take t) else .ok none p := by
  induction kinds with
  | nil => rw [if_neg List.not_mem_nil]; rfl
  | cons k ks ih =>
    refine (bind_of_ok (check_of_head h k)).trans ?_
    by_cases hkind : t.kind = k
    · have hmap : (some <$> advance limits) p = .ok (some t) (p.take t) := by
        show EStateM.map some (advance limits) p = _
        rw [EStateM.map, advance_of_head h]
      rw [if_pos (List.mem_cons.mpr (.inl hkind)), beq_iff_eq.mpr hkind]
      exact hmap
    · have hmem : t.kind ∈ k :: ks ↔ t.kind ∈ ks := by simp [hkind]
      rw [beq_eq_false_iff_ne.mpr hkind]
      simp only [hmem]
      exact ih

theorem accept_of_peek (h : peek limits 0 p = .ok t p') (k : Kind) (ks : List Kind) :
    accept limits (k :: ks) p =
      if t.kind ∈ k :: ks then .ok (some t) (p'.take t) else .ok none p' := by
  have hhead := (head_of_peek h).1
  rw [← accept_of_head hhead]
  have hcheck : check limits k p = check limits k p' :=
    (bind_of_ok h).trans (check_of_head hhead k).symm
  -- Looking once more makes no difference.
  show EStateM.bind (check limits k) _ p = EStateM.bind (check limits k) _ p'
  rw [EStateM.bind, EStateM.bind, hcheck]

/-- What the computation does first is to look at the next token. -/
def Peeks (limits : Limits) (m : Parse α) : Prop :=
  ∀ p e p', peek limits 0 p = .error e p' → m p = .error e p'

theorem peeks_peek (f : Token → Parse α) : Peeks limits (peek limits 0 >>= f) :=
  fun _ _ _ h => bind_of_error h

theorem Peeks.bind (h : Peeks limits m) : Peeks limits (m >>= f) :=
  fun p e p' hp => bind_of_error (h p e p' hp)

theorem peeks_advance : Peeks limits (advance limits) := peeks_peek _

theorem peeks_accept (k : Kind) (ks : List Kind) : Peeks limits (accept limits (k :: ks)) :=
  Peeks.bind (peeks_peek _)

/-- Counting a round, if it is not one too many. -/
theorem countRound_of_le (h : (p.iterations + 1 : Nat) ≤ limits.iterations) :
    countRound limits p = .ok () p.counted := by
  show (if limits.iterations < ((p.iterations + 1 : Nat) : Int) then _ else _ : Parse Unit)
    p.counted = _
  rw [if_neg (Int.not_lt.mpr h)]
  rfl

theorem countRound_of_lt (h : limits.iterations < (p.iterations + 1 : Nat)) :
    countRound limits p = (peek limits 0 >>= fun t =>
      fail (.tooManyIterations limits.iterations) t) p.counted := by
  show (if limits.iterations < ((p.iterations + 1 : Nat) : Int) then _ else _ : Parse Unit)
    p.counted = _
  rw [if_pos h]

theorem returns_countRound : Returns (countRound limits) p fun _ p' => p' = p.counted := by
  by_cases hmany : limits.iterations < (p.iterations + 1 : Nat)
  · unfold Returns Ends
    rw [countRound_of_lt hmany]
    exact returns_bind fun _ _ => ends_throw trivial
  · unfold Returns Ends
    rw [countRound_of_le (Int.not_lt.mp hmany)]

/-- Looking at the token behind those that have been read ahead reads it. -/
theorem returns_peek_behind {n : Nat} (hn : p.ahead.length = n) :
    Returns (peek limits n) p fun t p' => p'.ahead = p.ahead ++ [t] := by
  have hpeek : peek limits n p = readAhead limits p := by
    rw [peek, List.getElem?_eq_none (Nat.le_of_eq hn), hn, Nat.sub_self]
    rfl
  unfold Returns Ends
  rw [hpeek, readAhead]
  rcases p.scanner.next limits with ⟨e | t, s⟩
  · trivial
  · rfl

theorem returns_peek_head : Returns (peek limits 0) p fun t p' =>
    p'.ahead.head? = some t ∧ (p'.ahead = p.ahead ∨ p'.ahead = [t]) := by
  cases hahead : p.ahead with
  | nil =>
    refine Ends.mono (returns_peek_behind (congrArg List.length hahead)) fun t p' hp' => ?_
    rw [hp', hahead]
    exact ⟨rfl, .inr rfl⟩
  | cons u rest =>
    unfold Returns Ends
    rw [peek_of_head (show p.ahead.head? = some u by rw [hahead]; rfl)]
    exact ⟨by rw [hahead]; rfl, .inl hahead⟩

/-- The computation fails. -/
def Fails (m : Parse α) (p : Parser) : Prop := Ends m p (fun _ _ => False) fun _ => True

theorem fails_of_error (h : m p = .error e p') : Fails m p := by
  unfold Fails Ends
  rw [h]
  trivial

theorem fails_throw : Fails (throw e : Parse α) p := trivial

theorem fails_unexpected : Fails (unexpected t : Parse α) p := by
  unfold unexpected
  split <;> exact fails_throw

theorem returns_unexpected {Q : α → Parser → Prop} : Returns (unexpected t) p Q :=
  Ends.mono fails_unexpected fun _ _ h => h.elim

theorem Fails.bind (h : Fails m p) : Fails (m >>= f) p :=
  Ends.bind h fun _ _ h => h.elim

theorem Fails.exists_error (h : Fails m p) : ∃ e p', m p = .error e p' := by
  unfold Fails Ends at h
  split at h
  · exact h.elim
  · rename_i e p' hm
    exact ⟨e, p', hm⟩

theorem fails_of_bind_ok (hm : m p = .ok a p') (hf : Fails (f a) p') : Fails (m >>= f) p := by
  unfold Fails Ends
  rw [bind_of_ok hm]
  exact hf

end

/-! ## Newlines -/

theorem peeks_skipNewlines : Peeks limits (skipNewlines limits) :=
  fun p e p' hp => bind_of_error (bind_of_error (peeks_accept _ _ p e p' hp))

/-- A newline is skipped in one round of the loop, and what is left of the loop is the loop. -/
theorem skipNewlines_of_peek (h : peek limits 0 p = .ok t p') :
    skipNewlines limits p =
      if t.kind = .newline then (countRound limits >>= fun _ => skipNewlines limits) (p'.take t)
      else .ok () p' := by
  obtain ⟨hhead, hrounds⟩ := head_of_peek h
  have haccept := accept_of_peek h .newline []
  simp only [List.mem_singleton] at haccept
  show (accept limits [.newline] >>= _ >>= _ : Parse Unit) p = _
  rw [bind_assoc]
  by_cases hkind : t.kind = .newline
  · rw [if_pos hkind] at haccept ⊢
    rw [bind_of_ok haccept, bind_assoc]
    have hrounds' : (p'.take t).iterations = p.iterations := hrounds
    by_cases hmany : limits.iterations < ((p'.take t).iterations + 1 : Nat)
    · have herror : ∃ e p'', countRound limits (p'.take t) = .error e p'' := by
        rw [countRound_of_lt hmany]
        cases hpeek : peek limits 0 (p'.take t).counted with
        | ok u p'' => exact ⟨_, _, bind_of_ok hpeek⟩
        | error e p'' => exact ⟨_, _, bind_of_error hpeek⟩
      obtain ⟨e, p'', he⟩ := herror
      rw [bind_of_error he, bind_of_error he]
    -- The round that is counted is one less to go.
    · have hle := Int.not_lt.mp hmany
      have hfuel : (limits.iterations - p.iterations).toNat =
          (limits.iterations - (p'.take t).counted.iterations).toNat + 1 := by
        show _ = (limits.iterations - ((p'.take t).iterations + 1 : Nat)).toNat + 1
        rw [hrounds'] at hle ⊢
        omega
      rw [bind_of_ok (countRound_of_le hle), bind_of_ok (countRound_of_le hle), hfuel]
      rfl
  · rw [if_neg hkind] at haccept ⊢
    rw [bind_of_ok haccept]
    rfl

/-- A round that is one too many ends the skipping, unless the next token is an error anyway. -/
theorem countRound_skipNewlines (p : Parser) :
    (countRound limits >>= fun _ => skipNewlines limits) p = skipNewlines limits p.counted ∨
      ∃ pos p', (countRound limits >>= fun _ => skipNewlines limits) p =
        .error (.malformed ⟨.tooManyIterations limits.iterations, pos⟩) p' := by
  by_cases hmany : limits.iterations < (p.iterations + 1 : Nat)
  · cases hpeek : peek limits 0 p.counted with
    | ok t p' =>
      refine .inr ⟨t.start, p', bind_of_error ?_⟩
      rw [countRound_of_lt hmany]
      exact bind_of_ok hpeek
    | error e p' =>
      refine .inl ?_
      rw [peeks_skipNewlines _ _ _ hpeek]
      refine bind_of_error ?_
      rw [countRound_of_lt hmany]
      exact bind_of_error hpeek
  · exact .inl (bind_of_ok (countRound_of_le (Int.not_lt.mp hmany)))

theorem fails_command (h : p.AtEnd) : Fails (command limits) p := by
  obtain ⟨e, he, hkind⟩ := h
  have hlexeme : e.lexeme = .eof := by
    unfold Token.kind at hkind
    cases hlex : e.lexeme with
    | eof => rfl
    | _ => exact absurd (hlex ▸ hkind) Kind.noConfusion
  by_cases hmany : limits.iterations < (p.iterations + 1 : Nat)
  · have herror : countRound limits p =
        .error (.malformed ⟨.tooManyIterations limits.iterations, e.start⟩) p.counted := by
      rw [countRound_of_lt hmany]
      exact bind_of_ok (peek_of_head he)
    exact (fails_of_error herror).bind
  · refine fails_of_bind_ok (countRound_of_le (Int.not_lt.mp hmany)) ?_
    refine fails_of_bind_ok (peek_of_head he) ?_
    have hcompound : startsCompound e = false := by
      rw [startsCompound, hkind]
      rfl
    rw [hcompound, hlexeme]
    exact fails_unexpected

theorem fails_pipeline (h : p.AtEnd) : Fails (pipeline limits) p := by
  obtain ⟨e, he, hkind⟩ := h
  have haccept : accept limits [.bang] p = .ok none p := by
    rw [accept_of_head he, hkind]
    rfl
  refine fails_of_bind_ok haccept ?_
  exact (fails_command ⟨e, he, hkind⟩).bind

theorem skipNewlines_of_atEnd (h : p.AtEnd) : skipNewlines limits p = .ok () p := by
  obtain ⟨e, he, hkind⟩ := h
  rw [skipNewlines_of_peek (peek_of_head he), hkind]
  rfl

/-- At the end there is no statement left. -/
theorem statement?_of_peek (h : peek limits 0 p = .ok t p') (hkind : t.kind = .eof) :
    statement? limits p = .ok none p' := by
  have hskip : skipNewlines limits p = .ok () p' := by
    rw [skipNewlines_of_peek h, hkind]
    rfl
  refine (bind_of_ok hskip).trans ?_
  refine (bind_of_ok (check_of_head (head_of_peek h).1 _)).trans ?_
  rw [hkind]
  rfl

theorem statement?_of_atEnd (h : p.AtEnd) : statement? limits p = .ok none p := by
  obtain ⟨e, he, hkind⟩ := h
  exact statement?_of_peek (peek_of_head he) hkind

/-- What a statement is depends on where the newlines in front of it end. -/
theorem statement?_of_skipNewlines (h : skipNewlines limits p = skipNewlines limits q) :
    statement? limits p = statement? limits q := by
  show EStateM.bind (skipNewlines limits) _ p = EStateM.bind (skipNewlines limits) _ q
  rw [EStateM.bind, EStateM.bind, h]

end Parse

end EnvScript
