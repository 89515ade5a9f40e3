import EnvScript.Proofs.Command.Parser

/-!
# Where the last token ended

A token that takes at least one character ends behind the start of the script. A statement has such
a token, and `last` is then the end of one.
-/

namespace EnvScript

/-- Lines and columns are counted from one. -/
structure Position.Counted (p : Position) : Prop where
  line : 0 < p.line
  col : 0 < p.col

namespace Position

variable {p : Position} {t : Text}

theorem counted_start : start.Counted := ⟨Nat.one_pos, Nat.one_pos⟩

theorem Counted.next (h : p.Counted) (c : Char) : (p.next c).Counted := by
  unfold Position.next
  split
  · exact ⟨Nat.succ_pos _, Nat.one_pos⟩
  · exact ⟨h.line, Nat.succ_pos _⟩

theorem Counted.after (h : p.Counted) (t : Text) : (p.after t).Counted := by
  induction t generalizing p with
  | nil => exact h
  | cons c t ih => exact ih (h.next c)

theorem Counted.next_ne_start (h : p.Counted) (c : Char) : p.next c ≠ start := by
  intro heq
  have hline := congrArg Position.line heq
  have hcol := congrArg Position.col heq
  have := h.line
  have := h.col
  unfold Position.next Position.start at hline hcol
  split at hline <;> simp_all

theorem Counted.after_ne_start (h : p.Counted) (ht : t ≠ []) : p.after t ≠ start := by
  obtain ⟨u, c, rfl⟩ := List.eq_nil_or_concat t |>.resolve_left ht
  rw [List.concat_eq_append, after_append]
  exact (h.after u).next_ne_start c

end Position

variable {limits : Limits} {p p' : Parser} {ts : List Token} {t : Token} {s s' : Scanner}

namespace Scanner

theorem counted_next (h : s.next limits = (.ok t, s')) (hs : s.cursor.position.Counted) :
    s'.cursor.position.Counted ∧ (t.kind ≠ .eof → t.stop ≠ .start) := by
  obtain ⟨m, hm⟩ := Cursor.exists_advance_skipBlanks s.cursor
  have hblanks : s.cursor.skipBlanks.position.Counted := by
    rw [hm, Cursor.position_advance]
    exact hs.after _
  rcases next_ok h with ⟨-, rfl, rfl⟩ | ⟨n, hn, hne, rfl, -, -, -, hstop, -⟩
  · exact ⟨hblanks, fun heof => absurd rfl heof⟩
  · rw [hstop]
    have htake : s.cursor.skipBlanks.rest.take n ≠ [] := by
      rw [Ne, List.take_eq_nil_iff, not_or]
      exact ⟨Nat.ne_of_gt hn, hne⟩
    show (s.cursor.skipBlanks.advance n).position.Counted ∧
      (_ → (s.cursor.skipBlanks.advance n).position ≠ .start)
    rw [Cursor.position_advance]
    exact ⟨hblanks.after _, fun _ => hblanks.after_ne_start htake⟩

theorem Yields.stop_ne_start (h : Yields limits s ts s') (hs : s.cursor.position.Counted) :
    ∀ t ∈ ts, t.kind ≠ .eof → t.stop ≠ .start := by
  induction h with
  | nil => simp
  | cons hnext _ ih =>
    obtain ⟨hs', ht⟩ := counted_next hnext hs
    exact List.forall_mem_cons.mpr ⟨ht, ih hs'⟩

end Scanner

namespace Parser

variable {us : List Token}

theorem lastEnd_append (l : Position) (ts us : List Token) :
    lastEnd l (ts ++ us) = lastEnd (lastEnd l ts) us := List.foldl_append

theorem lastEnd_cons (l : Position) (t : Token) (ts : List Token) :
    lastEnd l (t :: ts) = lastEnd (if t.isSeparator then l else t.stop) ts := rfl

/-- Separators leave the end where it was. -/
theorem lastEnd_of_isSeparator (l : Position) (h : ∀ t ∈ ts, t.isSeparator = true) :
    lastEnd l ts = l := by
  induction ts with
  | nil => rfl
  | cons t ts ih =>
    obtain ⟨ht, hts⟩ := List.forall_mem_cons.mp h
    rw [lastEnd_cons, if_pos ht, ih hts]

end Parser

/-- What ends a statement: one of the separators `;`, `&` and newline, or the end of the script. -/
def Terminates (tail : List Token) (p : Parser) : Prop :=
  (∃ t, tail = [t] ∧
    (t.kind = .operator .semi ∨ t.kind = .operator .amp ∨ t.kind = .newline)) ∨
  tail = [] ∧ ∃ e, p.ahead[0]? = some e ∧ e.kind = .eof

theorem Token.isSeparator_of_kind
    (h : t.kind = .operator .semi ∨ t.kind = .operator .amp ∨ t.kind = .newline) :
    t.isSeparator = true := by
  obtain ⟨lexeme, text, start, stop⟩ := t
  cases lexeme with
  | newline => rfl
  | operator o => cases o <;> simp_all [kind, Lexeme.kind, isSeparator]
  | _ => simp [kind, Lexeme.kind] at h

theorem Terminates.isSeparator {tail : List Token} (h : Terminates tail p) :
    ∀ t ∈ tail, t.isSeparator = true := by
  rcases h with ⟨t, rfl, ht⟩ | ⟨rfl, -⟩
  · exact List.forall_mem_singleton.mpr (Token.isSeparator_of_kind ht)
  · simp

/-- A statement is read up to its last token and what terminates it, and that token is where the
parser has come to. -/
theorem Parse.last_of_statement? {st : Statement} (h : statement? limits p = .ok (some st) p') :
    ∃ newlines body t tail, p.Took limits (newlines ++ (body ++ [t] ++ tail)) p' ∧
      (∀ u ∈ newlines, u.kind = .newline) ∧ Chained (body ++ [t]) st.pipelines ∧
      Terminates tail p' ∧ t.isSeparator = false ∧ p'.last = t.stop := by
  obtain ⟨_, htook, newlines, _, tail, rfl, hnewlines, hchained, hamp, hends⟩ :=
    took_of_statement? h
  obtain ⟨body, t, rfl, hseparator⟩ := hchained.closes
  have htail : Terminates tail p' := by
    cases hbackground : st.background with
    | true =>
      obtain ⟨u, rfl, hu⟩ := hamp hbackground
      exact .inl ⟨u, rfl, .inr (.inl hu)⟩
    | false =>
      rcases hends hbackground with ⟨u, rfl, hu⟩ | hatEnd
      · exact .inl ⟨u, rfl, hu.imp_right .inr⟩
      · exact .inr hatEnd
  refine ⟨newlines, body, t, tail, htook, hnewlines, hchained, htail, hseparator, ?_⟩
  obtain ⟨-, -, -, hlast⟩ := htook
  rw [hlast, Parser.lastEnd_append, Parser.lastEnd_append,
    Parser.lastEnd_of_isSeparator _ htail.isSeparator, Parser.lastEnd_append,
    Parser.lastEnd_cons, hseparator]
  rfl

theorem Parse.last_ne_start {script : Text} {st : Statement}
    (hp : (Parser.ofText script).Took limits ts p)
    (h : statement? limits p = .ok (some st) p') : p'.last ≠ .start := by
  obtain ⟨newlines, body, t, tail, htook, -, -, -, hseparator, hlast⟩ := last_of_statement? h
  obtain ⟨us, hyields, heq, -⟩ := hp.trans htook
  have hus : us = ts ++ (newlines ++ (body ++ [t] ++ tail)) ++ p'.ahead := heq
  rw [hlast]
  exact hyields.stop_ne_start Position.counted_start t (by simp [hus])
    (Token.kind_ne_eof_of_isSeparator hseparator)

end EnvScript
