import EnvScript.Proofs.Command.Head
import EnvScript.Proofs.Command.Parser

/-!
# At most one token read ahead

Each part of the grammar leaves at most one token read ahead, if it finds no more than that. So does
a command, which looks for the `()` of a function: it takes these tokens off, or it fails. Behind a
statement nothing has been read therefore.
-/

namespace EnvScript

namespace Parse

variable {limits : Limits} {α : Type} {m : Parse α} {p p' : Parser} {t u v : Token}

/-! ## The next token -/

theorem returns_advance_of_head (ht : p.ahead.head? = some t) :
    Returns (advance limits) p fun u p' => u = t ∧ p' = p.take t := by
  unfold Returns Ends
  rw [advance_of_head ht]
  exact ⟨rfl, rfl⟩

/-- What holds of the tokens read ahead, and of any one token alone, holds after a look at the next
token as well. -/
theorem returns_peek_of_ahead {S : List Token → Prop} (h : S p.ahead) (hone : ∀ t, S [t]) :
    Returns (peek limits 0) p fun t p' => p'.ahead.head? = some t ∧ S p'.ahead := by
  refine Ends.mono returns_peek_head ?_
  rintro t p' ⟨ht, hahead | hahead⟩
  · exact ⟨ht, hahead ▸ h⟩
  · exact ⟨ht, hahead ▸ hone t⟩

theorem length_tail_le_one {ts : List Token} (h : ts.length ≤ 1) : ts.tail.length ≤ 1 := by
  rw [List.length_tail]
  omega

/-! ## At most one token -/

/-- Where at most one token has been read ahead, that is so again when the computation returns. -/
def Short (m : Parse α) : Prop :=
  ∀ p, p.ahead.length ≤ 1 → Returns m p fun _ p' => p'.ahead.length ≤ 1

theorem short_peek (hp : p.ahead.length ≤ 1) :
    Returns (peek limits 0) p fun t p' => p'.ahead.head? = some t ∧ p'.ahead.length ≤ 1 :=
  returns_peek_of_ahead (S := (·.length ≤ 1)) hp fun _ => Nat.le_refl 1

theorem closed_short : Closed limits Short where
  pure _ _ h := ends_pure h
  throw _ _ _ := ends_throw trivial
  bind hm hf p h := (hm p h).bind fun a p' h' => hf a p' h'
  loop hstep a p h := ends_loop (fun _ p' => p'.ahead.length ≤ 1) (fun _ => trivial) h
    fun a p' h' => (hstep a p' h').mono fun r _ h'' => by cases r <;> exact h''
  next _ h := (short_peek h).mono fun _ _ h' => h'.2
  advance _ h := by
    rw [advance_eq]
    exact (short_peek h).bind fun _ _ h' => length_tail_le_one h'.2
  countRound p h := returns_countRound.mono fun _ _ hp => hp ▸ h

/-! ## Commands -/

/-- There is one token at most, or the first is a `(`, with which no simple command goes on and none
ends. -/
def Poised (ts : List Token) : Prop :=
  ts.length ≤ 1 ∨ ∃ t, ts.head? = some t ∧ t.kind = .operator .leftParen

theorem poised_single (t : Token) : Poised [t] := .inl (Nat.le_refl 1)

theorem Poised.length_le {ts : List Token} (h : Poised ts) (ht : ts.head? = some t)
    (hkind : t.kind ≠ .operator .leftParen) : ts.length ≤ 1 := by
  refine h.resolve_right fun ⟨u, hu, hleft⟩ => hkind ?_
  rw [Option.some.inj (ht.symm.trans hu)]
  exact hleft

/-- The tokens are poised, or are so behind a word. -/
def PoisedAfterWord (ts : List Token) : Prop :=
  Poised ts ∨ ∃ t w, ts.head? = some t ∧ t.lexeme = .word w ∧ Poised ts.tail

theorem PoisedAfterWord.tail {ts : List Token} {w : Word} (h : PoisedAfterWord ts)
    (ht : ts.head? = some t) (hword : t.lexeme = .word w) : Poised ts.tail := by
  rcases h with h | ⟨-, -, -, -, h⟩
  · have hkind : t.kind ≠ .operator .leftParen := by
      rw [Token.kind, hword]
      simp [Lexeme.kind]
    exact .inl (length_tail_le_one (h.length_le ht hkind))
  · exact h

theorem PoisedAfterWord.poised {ts : List Token} (h : PoisedAfterWord ts) (ht : ts.head? = some t)
    (hword : ∀ w, t.lexeme ≠ .word w) : Poised ts := by
  refine h.resolve_right fun ⟨u, w, hu, hw, _⟩ => hword w ?_
  rw [Option.some.inj (ht.symm.trans hu)]
  exact hw

theorem poised_redirectionEntry (bindings : List Binding) (arguments : List Argument)
    (hp : p.ahead.length ≤ 1) :
    Returns (redirectionEntry limits bindings arguments) p fun _ p' => Poised p'.ahead := by
  refine Ends.bind (closed_short.redirection p hp) fun r p' hp' => ?_
  split <;> exact ends_pure (.inl hp')

/-- Whatever stands in front, a `(` that has been read ahead is left for the end of the command. -/
theorem poised_simpleStep {entries : List Binding × List Argument}
    (hp : PoisedAfterWord p.ahead) :
    Returns (simpleStep limits entries) p fun _ p' => Poised p'.ahead := by
  obtain ⟨bindings, arguments⟩ := entries
  refine Ends.bind returns_countRound ?_
  rintro _ _ rfl
  refine Ends.bind (returns_peek_of_ahead (p := p.counted) hp fun t => .inl (poised_single t)) ?_
  rintro t p₁ ⟨ht, hp₁⟩
  -- Only a word or a `(` may have a second token read ahead behind it.
  have hshort : ∀ lexeme, t.lexeme = lexeme → (∀ w, lexeme ≠ .word w) →
      lexeme.kind ≠ .operator .leftParen → p₁.ahead.length ≤ 1 := by
    rintro _ rfl hword hkind
    exact (hp₁.poised ht hword).length_le ht hkind
  split
  · rename_i hlexeme
    exact poised_redirectionEntry _ _ (hshort _ hlexeme (by simp) (by simp [Lexeme.kind]))
  · rename_i r hlexeme
    exact poised_redirectionEntry _ _ (hshort _ hlexeme (by simp) (by simp [Lexeme.kind]))
  · rename_i w hlexeme
    -- With the word taken off, the tokens behind it are poised.
    refine Ends.bind (Q := fun _ p' => Poised p'.ahead) (Ends.discard ?_) ?_
    · refine Ends.mono (returns_advance_of_head ht) ?_
      rintro _ _ ⟨-, rfl⟩
      exact hp₁.tail ht hlexeme
    · intro _ p₂ hp₂
      split
      · exact ends_pure hp₂
      · refine Ends.bind (returns_peek_of_ahead hp₂ poised_single) ?_
        rintro following p₃ ⟨-, hp₃⟩
        split
        · exact ends_throw trivial
        · exact ends_pure hp₃
  · rename_i hword
    exact ends_pure (hp₁.poised ht hword)

theorem short_simpleCommand (hp : PoisedAfterWord p.ahead) :
    Returns (simpleCommand limits) p fun _ p' => p'.ahead.length ≤ 1 := by
  refine Ends.bind (Q := fun _ p' => Poised p'.ahead) ?_ ?_
  -- Only the first round can find a word in front of a `(`; the later ones begin poised.
  · refine ends_loop (fun _ p' => PoisedAfterWord p'.ahead) (fun _ => trivial) hp
      fun entries p' hp' => Ends.mono (poised_simpleStep hp') fun r p'' hp'' => ?_
    cases r with
    | inl entries => exact .inl hp''
    | inr c => exact hp''
  -- Behind the last entry a `(` is an error, so there is none when the command is returned.
  · intro c p₁ hp₁
    refine Ends.bind (returns_peek_of_ahead hp₁ poised_single) ?_
    rintro t p₂ ⟨ht, hp₂⟩
    split
    · exact returns_unexpected
    · rename_i hkind
      exact ends_pure (hp₂.length_le ht hkind)

/-- A function is found by its `()`, which has been read ahead then. -/
theorem returns_startsFunction (hp : p.ahead = [t]) :
    Returns (startsFunction limits t) p fun isFunction p' =>
      if isFunction then ∃ u v, p'.ahead = [t, u, v]
      else p'.ahead.head? = some t ∧ Poised p'.ahead.tail := by
  refine Ends.bind (returns_peek_behind (by rw [hp]; rfl)) fun left p₁ hp₁ => ?_
  rw [hp] at hp₁
  split
  · rename_i hparen
    refine Ends.bind (returns_peek_behind (by rw [hp₁]; rfl)) fun right p₂ hp₂ => ?_
    rw [hp₁] at hp₂
    -- Without the `)` it is no function, and the `(` is left for the simple command to refuse.
    have hpoised : p₂.ahead.head? = some t ∧ Poised p₂.ahead.tail := by
      rw [hp₂]
      exact ⟨rfl, .inr ⟨left, rfl, hparen⟩⟩
    split
    · refine ends_pure ?_
      split
      · exact ⟨left, right, hp₂⟩
      · exact hpoised
    · exact ends_pure hpoised
  · refine ends_pure ?_
    rw [hp₁]
    exact ⟨rfl, poised_single left⟩

/-- A function whose name and `()` have been read ahead. -/
theorem short_functionDefinition (hp : p.ahead = [t, u, v]) (ht : t.text ≠ "function".toList) :
    Returns (functionDefinition limits) p fun _ p' => p'.ahead.length ≤ 1 := by
  have hadvance : ∀ {p : Parser} {t : Token} (ts : List Token), p.ahead = t :: ts →
      Returns (advance limits) p fun _ p' => p'.ahead = ts := by
    intro p t ts hp
    refine Ends.mono (returns_advance_of_head (by rw [hp]; rfl)) ?_
    rintro _ _ ⟨-, rfl⟩
    exact congrArg List.tail hp
  refine Ends.bind (Q := fun _ p' => p'.ahead = []) ?_ fun name p' hp' =>
    closed_short.functionBody name p' (by rw [hp']; exact Nat.zero_le 1)
  refine Ends.bind (Q := fun x p' => x = t ∧ p' = p) ?_ ?_
  · unfold Ends
    rw [peek_of_head (show p.ahead.head? = some t by rw [hp]; rfl)]
    exact ⟨rfl, rfl⟩
  · rintro _ _ ⟨rfl, rfl⟩
    rw [if_neg ht]
    refine Ends.bind (hadvance [u, v] hp) fun _ p₁ hp₁ => ?_
    refine Ends.bind (Ends.discard (R := fun _ p₂ => p₂.ahead = [v]) (hadvance _ hp₁))
      fun _ p₂ hp₂ => ?_
    exact Ends.bind (Ends.discard (R := fun _ p₃ => p₃.ahead = []) (hadvance _ hp₂))
      fun _ _ hp₃ => ends_pure hp₃

theorem short_command : Short (command limits) := by
  intro p hp
  refine Ends.bind returns_countRound ?_
  rintro _ _ rfl
  refine Ends.bind (short_peek (p := p.counted) hp) ?_
  rintro t p₁ ⟨ht, hp₁⟩
  split
  · exact Ends.bind (closed_short.compound p₁ hp₁) fun _ _ h => ends_pure h
  · split
    · rename_i w hword
      split
      · exact closed_short.functionDefinition p₁ hp₁
      · rename_i hfunction
        obtain ⟨rest, hrest⟩ := List.head?_eq_some_iff.mp ht
        have hnil : rest = [] := by simpa [hrest] using hp₁
        refine Ends.bind (returns_startsFunction (hnil ▸ hrest)) fun isFunction p₂ hp₂ => ?_
        cases isFunction with
        | true =>
          obtain ⟨u, v, hp₂⟩ := hp₂
          exact short_functionDefinition hp₂ hfunction
        | false => exact short_simpleCommand (.inr ⟨t, w, hp₂.1, hword, hp₂.2⟩)
    · exact short_simpleCommand (.inl (.inl hp₁))
    · exact short_simpleCommand (.inl (.inl hp₁))
    · exact returns_unexpected

/-! ## The end of a statement -/

theorem Reads.and_returns {R : List Token → α → Parser → Prop} {Q : α → Parser → Prop}
    (h : Reads limits m p R) (h' : Returns m p Q) :
    Reads limits m p fun ts a p' => R ts a p' ∧ Q a p' := by
  unfold Reads Returns Ends at *
  split at h
  · rename_i a p' hm
    obtain ⟨ts, hts, hR⟩ := h
    rw [hm] at h'
    exact ⟨ts, hts, hR, h'⟩
  · trivial

theorem returns_accept_of_short (hp : p.ahead.length ≤ 1) (kinds : List Kind) :
    Returns (accept limits kinds) p fun r p' => p'.ahead.length ≤ if r.isSome then 0 else 1 := by
  cases kinds with
  | nil => exact ends_pure hp
  | cons k ks =>
    unfold Returns Ends
    cases hpeek : peek limits 0 p with
    | error e p' =>
      rw [peeks_accept k ks p e p' hpeek]
      trivial
    | ok t p' =>
      have hshort := ((short_peek hp).ok hpeek).2
      rw [accept_of_peek hpeek]
      by_cases hkind : t.kind ∈ k :: ks
      · rw [if_pos hkind]
        show p'.ahead.tail.length ≤ 0
        rw [List.length_tail]
        exact Nat.sub_le_of_le_add hshort
      · rw [if_neg hkind]
        exact hshort

/-- The token that ends the statement is the last to be taken off, and none behind it has been read;
or the statement ends where the text does, and only the end token has been read ahead. -/
def EndsHere (ts : List Token) (p : Parser) : Prop :=
  (∃ us t, ts = us ++ [t] ∧ t.kind ∈ [.operator .amp, .operator .semi, .newline] ∧ p.ahead = []) ∨
    Closes ts ∧ ∃ e, p.ahead = [e] ∧ e.kind = .eof

/-- Nothing is read behind a statement, not even to find where it ends. -/
theorem endsHere_of_statement? {s : Statement} (hp : p.ahead.length ≤ 1)
    (h : statement? limits p = .ok (some s) p') :
    ∃ ts, p.Took limits ts p' ∧ EndsHere ts p' := by
  have hreads : Reads limits (statement? limits) p fun ts r p' => r.isSome → EndsHere ts p' := by
    refine (reads_skipNewlines.and_returns (closed_short.skipNewlines p hp)).bind ?_
    rintro newlines _ p₁ - ⟨-, hp₁⟩
    refine ((reads_check .eof).and_returns (closed_short.check .eof p₁ hp₁)).bind ?_
    rintro _ atEnd p₂ - ⟨⟨rfl, -⟩, hp₂⟩
    split
    · exact reads_pure (by simp)
    · refine (reads_list.and_returns (closed_short.list short_command p₂ hp₂)).bind ?_
      rintro body s p₃ - ⟨⟨hbody, -⟩, hp₃⟩
      refine ((reads_accept _).and_returns (returns_accept_of_short hp₃ _)).bind ?_
      rintro ts amp p₄ - ⟨hamp, hp₄⟩
      split
      · rename_i hsome
        obtain ⟨t, rfl⟩ := Option.isSome_iff_exists.mp hsome
        obtain ⟨rfl, ht⟩ := hamp
        -- The `&` is the last token, and it was the one that had been read ahead.
        refine reads_pure fun _ => .inl ⟨newlines ++ body, t, by simp, ?_, ?_⟩
        · exact List.mem_cons.mpr (.inl (List.mem_singleton.mp ht))
        · exact List.length_eq_zero_iff.mp (Nat.le_zero.mp hp₄)
      · rename_i hnone
        obtain rfl : amp = none := Option.not_isSome_iff_eq_none.mp hnone
        cases hamp
        refine ((reads_accept _).and_returns (returns_accept_of_short hp₄ _)).bind ?_
        rintro tail separator p₅ - ⟨hseparator, hp₅⟩
        split
        · rename_i hsome
          obtain ⟨t, rfl⟩ := Option.isSome_iff_exists.mp hsome
          obtain ⟨rfl, ht⟩ := hseparator
          refine reads_pure fun _ => .inl ⟨newlines ++ body, t, by simp, ?_, ?_⟩
          · exact List.mem_cons_of_mem _ ht
          · exact List.length_eq_zero_iff.mp (Nat.le_zero.mp hp₅)
        · rename_i hnone'
          obtain rfl : separator = none := Option.not_isSome_iff_eq_none.mp hnone'
          cases hseparator
          refine ((reads_check .eof).and_returns (closed_short.check .eof p₅ hp₅)).bind ?_
          rintro _ atEnd' p₆ - ⟨⟨rfl, hend⟩, hp₆⟩
          -- Neither a `&` nor a separator: only the end of the text is left, and it stays.
          split
          · rename_i hatEnd
            obtain ⟨e, he, hkind⟩ := hend hatEnd
            refine reads_pure fun _ => .inr ⟨?_, e, ?_, hkind⟩
            · simpa using hbody.closes.append newlines
            · obtain ⟨rest, hrest⟩ := List.head?_eq_some_iff.mp (List.head?_eq_getElem? ▸ he)
              rw [hrest, List.length_cons] at hp₆
              rw [hrest, List.length_eq_zero_iff.mp (Nat.le_zero.mp (Nat.le_of_succ_le_succ hp₆))]
          · exact (reads_peek 0).bind fun _ _ _ _ _ => reads_unexpected
  obtain ⟨ts, hts, hends⟩ := hreads.ok h
  exact ⟨ts, hts, hends rfl⟩

end Parse

end EnvScript
