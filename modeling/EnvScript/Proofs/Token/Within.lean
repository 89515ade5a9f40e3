import EnvScript.Proofs.Token.Stream
import EnvScript.Proofs.Word.Within

/-!
# Tokens in a part of a text

The tokens of a part of a text are tokens of the whole text, further down. A scanner of the whole is
held to tighter limits, and where the part ends in front of a newline, that newline is the token in
the place of the end token.
-/

namespace EnvScript

/-- No limit of `limits'` is wider than that of `limits`. -/
structure Limits.Tighter (limits' limits : Limits) : Prop where
  inputSize : limits'.inputSize ≤ limits.inputSize
  tokens : limits'.tokens ≤ limits.tokens
  iterations : limits'.iterations ≤ limits.iterations
  nesting : limits'.nesting ≤ limits.nesting
  pattern : limits'.pattern ≤ limits.pattern

theorem Limits.Tighter.refl (limits : Limits) : limits.Tighter limits :=
  ⟨Int.le_refl _, Int.le_refl _, Int.le_refl _, Int.le_refl _, Int.le_refl _⟩

/-- The same token `k` lines further down. It is the end token only if nothing comes behind the
part. -/
structure Token.Below (k : Nat) (tail : Text) (t t' : Token) : Prop where
  lexeme : t'.lexeme = t.lexeme
  text : t'.text = t.text
  start : t'.start = t.start.down k
  stop : t'.stop = t.stop.down k
  finish : t.kind = .eof → tail = []

variable {k m : Nat} {tail : Text} {c d : Cursor} {t u : Text}

/-! ## Blanks -/

theorem blankStep_append (h : Apart t tail) :
    Cursor.blankStep (t ++ tail) = Cursor.blankStep t := by
  rcases h with rfl | ⟨⟨u, rfl⟩, hlast⟩
  · rw [List.append_nil]
  · cases t with
    | nil => rfl
    | cons x t =>
      by_cases hslash : x = '\\'
      · subst hslash
        cases t with
        | nil => exact absurd rfl hlast
        | cons y t =>
          rw [List.cons_append, List.cons_append]
          unfold Cursor.blankStep
          split <;> simp_all
      · by_cases hhash : x = '#'
        · subst hhash
          show ((t ++ '\n' :: u).takeWhile (· != '\n')).length + 1 = _
          rw [takeWhile_append_break (by decide)]
          rfl
        · rw [List.cons_append]
          unfold Cursor.blankStep
          split <;> simp_all

theorem Cursor.Within.skipBlanks (h : c.Within k tail d) (hapart : Apart c.rest tail) :
    ∃ n, n ≤ c.rest.length ∧ c.skipBlanks = c.advance n ∧ d.skipBlanks = d.advance n := by
  fun_induction Cursor.skipBlanks c generalizing d with
  | case1 c hblank =>
    have hblank' : Cursor.blankStep d.rest = 0 := by
      rw [h.rest, blankStep_append hapart, hblank]
    refine ⟨0, Nat.zero_le _, rfl, ?_⟩
    rw [Cursor.skipBlanks, if_pos hblank']
    rfl
  | case2 c hblank ih =>
    have hblank' : Cursor.blankStep d.rest = Cursor.blankStep c.rest := by
      rw [h.rest, blankStep_append hapart]
    have hd : d.skipBlanks = (d.advance (Cursor.blankStep c.rest)).skipBlanks := by
      conv => lhs; rw [Cursor.skipBlanks, hblank', if_neg hblank]
    have hapart' : Apart (c.advance (Cursor.blankStep c.rest)).rest tail := by
      rw [Cursor.rest_advance]
      exact hapart.drop _
    obtain ⟨n, hn, hc, hd'⟩ := ih (h.advance (Cursor.blankStep_le c.rest)) hapart'
    refine ⟨Cursor.blankStep c.rest + n, ?_, ?_, ?_⟩
    · have := Cursor.blankStep_le c.rest
      rw [Cursor.rest_advance, List.length_drop] at hn
      omega
    · rw [hc, Cursor.advance_advance]
    · rw [hd, hd', Cursor.advance_advance]

/-! ## Tokens other than words -/

theorem isPrefixOf_append_newline {s : Text} (hs : '\n' ∉ s) (t u : Text) :
    s.isPrefixOf (t ++ '\n' :: u) = s.isPrefixOf t := by
  induction s generalizing t with
  | nil => simp
  | cons x s ih =>
    obtain ⟨hx, hs⟩ := not_or.mp (List.mem_cons.not.mp hs)
    cases t with
    | nil => simp [List.isPrefixOf, Ne.symm hx]
    | cons y t => rw [List.cons_append, List.isPrefixOf_cons_cons, List.isPrefixOf_cons_cons, ih hs]

theorem leading?_append_newline (t u : Text) :
    Operator.leading? (t ++ '\n' :: u) = Operator.leading? t := by
  have hnewline : ∀ o ∈ Operator.longestFirst, '\n' ∉ o.text := by decide
  have hfind : ∀ os : List Operator, (∀ o ∈ os, '\n' ∉ o.text) →
      os.find? (·.text.isPrefixOf (t ++ '\n' :: u)) = os.find? (·.text.isPrefixOf t) := by
    intro os hos
    induction os with
    | nil => rfl
    | cons o os ih =>
      rw [List.find?_cons, List.find?_cons,
        isPrefixOf_append_newline (hos o List.mem_cons_self),
        ih fun o' ho' => hos o' (List.mem_cons_of_mem o ho')]
  exact hfind Operator.longestFirst hnewline

theorem startsBang_append_newline (h : t ≠ []) (u : Text) :
    Scanner.startsBang (t ++ '\n' :: u) = Scanner.startsBang t := by
  cases t with
  | nil => exact absurd rfl h
  | cons x t =>
    by_cases hx : x = '!'
    · subst hx
      cases t <;> rfl
    · rw [List.cons_append]
      unfold Scanner.startsBang
      split <;> simp_all

theorem dropWhile_append_newline {P : Char → Bool} (h : P '\n' = false) (t u : Text) :
    (t ++ '\n' :: u).dropWhile P = t.dropWhile P ++ '\n' :: u := by
  have happend := List.takeWhile_append_dropWhile (p := P) (l := t ++ '\n' :: u)
  rw [takeWhile_append_break h] at happend
  conv at happend => rhs; rw [← List.takeWhile_append_dropWhile (p := P) (l := t)]
  rw [List.append_assoc] at happend
  exact List.append_cancel_left happend

/-- A newline redirects nothing. -/
theorem ioNumberLength?_append_newline (t u : Text) :
    Scanner.ioNumberLength? (t ++ '\n' :: u) = Scanner.ioNumberLength? t := by
  unfold Scanner.ioNumberLength?
  rw [takeWhile_append_break (by decide), dropWhile_append_newline (by decide)]
  cases t.takeWhile Char.isDigit with
  | nil => rfl
  | cons d ds =>
    cases t.dropWhile Char.isDigit with
    | nil => rfl
    | cons x t => rfl

theorem leadingLexeme?_append (hapart : Apart t tail) (h : t ≠ []) :
    Scanner.leadingLexeme? (t ++ tail) = Scanner.leadingLexeme? t := by
  rcases hapart with rfl | ⟨⟨u, rfl⟩, -⟩
  · rw [List.append_nil]
  · have hhead : (t ++ '\n' :: u).head? = t.head? := by
      cases t with
      | nil => exact absurd rfl h
      | cons x t => rfl
    unfold Scanner.leadingLexeme?
    rw [hhead, leading?_append_newline, startsBang_append_newline h,
      ioNumberLength?_append_newline]

/-! ## Scanners -/

/-- A scanner `s` of the part beside the scanner `s'` of the whole. What comes behind the part is
`m` lines further down than where a text begins. -/
structure Scanner.Within (k : Nat) (tail : Text) (m : Nat) (s s' : Scanner) : Prop where
  cursor : s.cursor.Within k tail s'.cursor
  apart : Apart s.cursor.rest tail
  finish : ((s.cursor.position.after s.cursor.rest).down k).line = m
  depth : s.depth = 0
  depth' : s'.depth = 0
  count : s.count ≤ s'.count
  size : s.size ≤ s'.size
  room : s'.cursor.rest.length ≤ s'.size

theorem Scanner.Within.advance {s s' : Scanner} (h : s.Within k tail m s') {n : Nat}
    (hn : n ≤ s.cursor.rest.length) :
    Scanner.Within k tail m { s with cursor := s.cursor.advance n }
      { s' with cursor := s'.cursor.advance n } := by
  refine ⟨h.cursor.advance hn, ?_, ?_, h.depth, h.depth', h.count, h.size, ?_⟩
  · show Apart (s.cursor.advance n).rest tail
    rw [Cursor.rest_advance]
    exact h.apart.drop n
  · show (((s.cursor.advance n).position.after (s.cursor.advance n).rest).down k).line = m
    rw [Cursor.rest_advance, Cursor.position_advance, ← Position.after_append,
      List.take_append_drop]
    exact h.finish
  · show (s'.cursor.advance n).rest.length ≤ s'.size
    rw [Cursor.rest_advance, List.length_drop]
    have := h.room
    omega

/-- What reading the next token of the part and of the whole may come to. -/
inductive NextAlike (k : Nat) (tail : Text) (m : Nat) :
    Except SyntaxError Token × Scanner → Except SyntaxError Token × Scanner → Prop
  | ok {t t' : Token} {s s' : Scanner} (ht : t.Below k tail t') (hs : s.Within k tail m s') :
      NextAlike k tail m (.ok t, s) (.ok t', s')
  /-- The part is at its end, and the scanner of the whole has passed the newline there. -/
  | seam {u : Text} {m' : Nat} {t t' : Token} {s s' : Scanner} (htail : tail = '\n' :: u)
      (ht : t.lexeme = .eof) (ht' : t'.lexeme = .newline) (hstart : t'.start = t.start.down k)
      (hs : (Scanner.ofText u).Within m [] m' s') : NextAlike k tail m (.ok t, s) (.ok t', s')
  | failed {e e' : SyntaxError} {s s' : Scanner} (h : e' = e.down k) :
      NextAlike k tail m (.error e, s) (.error e', s')
  | cut {e : SyntaxError} {s : Scanner} {y : Except SyntaxError Token × Scanner}
      (h : tail ≠ []) : NextAlike k tail m (.error e, s) y
  | limit {e : SyntaxError} {s' : Scanner} {x : Except SyntaxError Token × Scanner}
      (h : e.fault.isLimit = true) : NextAlike k tail m x (.error e, s')

section

variable {limits limits' : Limits} {s s' : Scanner}

theorem below_token {lexeme : Lexeme} {n : Nat} (h : c.Within k tail d)
    (hn : n ≤ c.rest.length) (hlexeme : lexeme.kind ≠ .eof) :
    Token.Below k tail
      ⟨lexeme, c.rest.take ((c.advance n).offset - c.offset), c.position, (c.advance n).position⟩
      ⟨lexeme, d.rest.take ((d.advance n).offset - d.offset), d.position,
        (d.advance n).position⟩ := by
  refine ⟨rfl, ?_, h.position, (h.advance hn).position, fun heof => absurd heof hlexeme⟩
  show d.rest.take _ = c.rest.take _
  rw [Cursor.take_offset_advance, Cursor.take_offset_advance, h.rest,
    List.take_append_of_le_length hn]

theorem nextAlike_readToken (hlimits : limits'.Tighter limits) (h : s.Within k tail m s')
    (hne : s.cursor.rest ≠ []) :
    NextAlike k tail m (s.readToken limits) (s'.readToken limits') := by
  have hlexeme : Scanner.leadingLexeme? s'.cursor.rest = Scanner.leadingLexeme? s.cursor.rest := by
    rw [h.cursor.rest, leadingLexeme?_append h.apart hne]
  unfold Scanner.readToken
  rw [hlexeme]
  dsimp only
  cases hlex : Scanner.leadingLexeme? s.cursor.rest with
  | some found =>
    obtain ⟨lexeme, n⟩ := found
    have hn := Scanner.length_of_leadingLexeme? hlex
    exact .ok (below_token h.cursor hn (Scanner.leadingLexeme?_pos hlex).2.1) (h.advance hn)
  | none =>
    have hword : ReadAlike k tail s.cursor s'.cursor
        (readWord limits.nesting s.depth {} s.cursor)
        (readWord limits'.nesting s'.depth {} s'.cursor) := by
      rw [h.depth, h.depth']
      exact readAlike_readWord hlimits.nesting h.cursor h.apart
    generalize readWord limits.nesting s.depth {} s.cursor = r at hword ⊢
    generalize readWord limits'.nesting s'.depth {} s'.cursor = r' at hword ⊢
    cases hword with
    | ok w n hn => exact .ok (below_token h.cursor hn (by simp [Lexeme.kind])) (h.advance hn)
    | failed herror => exact .failed herror
    | cut htail => exact .cut htail
    | tooDeep hfault => exact .limit (by rw [hfault]; rfl)

/-- At the end of the part its scanner gives the end token, and that of the whole the newline. -/
theorem nextAlike_end (h : s.Within k tail m s') (hrest : s.cursor.rest = [])
    (hne : tail ≠ []) :
    NextAlike k tail m (.ok (.eof s.cursor.position), s) (s'.readToken limits') := by
  rcases h.apart with rfl | ⟨⟨u, rfl⟩, -⟩
  · exact absurd rfl hne
  have hrest' : s'.cursor.rest = '\n' :: u := by rw [h.cursor.rest, hrest, List.nil_append]
  have hlexeme : Scanner.leadingLexeme? s'.cursor.rest = some (.newline, 1) := by
    rw [hrest']
    rfl
  have hfinish := h.finish
  rw [hrest] at hfinish
  have hposition : (s'.cursor.advance 1).position = Position.start.down m := by
    rw [Cursor.position_advance, hrest', h.cursor.position]
    show (⟨(s.cursor.position.down k).line + 1, 1⟩ : Position) = ⟨1 + m, 1⟩
    rw [Nat.add_comm, ← hfinish]
    rfl
  have hsize := h.room
  rw [hrest', List.length_cons] at hsize
  have hrest'' : (s'.cursor.advance 1).rest = u := by
    rw [Cursor.rest_advance, hrest']
    rfl
  have hs : (Scanner.ofText u).Within m [] ((Position.start.after u).down m).line
      { s' with cursor := s'.cursor.advance 1 } := by
    refine ⟨⟨?_, hposition⟩, .inl rfl, rfl, rfl, h.depth', Nat.zero_le _, ?_, ?_⟩
    · rw [hrest'']
      exact (List.append_nil u).symm
    · show u.length ≤ s'.size
      omega
    · show (s'.cursor.advance 1).rest.length ≤ s'.size
      rw [hrest'']
      omega
  unfold Scanner.readToken
  rw [hlexeme]
  exact .seam rfl rfl rfl h.cursor.position hs

theorem nextAlike_next (hlimits : limits'.Tighter limits) (h : s.Within k tail m s') :
    NextAlike k tail m (s.next limits) (s'.next limits') := by
  by_cases hsize : limits'.inputSize < s'.size
  · rw [Scanner.next, Scanner.next, if_pos hsize]
    exact .limit rfl
  have hsize' : ¬ limits.inputSize < s.size := by
    have := h.size
    have := hlimits.inputSize
    omega
  rw [Scanner.next, Scanner.next, if_neg hsize, if_neg hsize']
  dsimp only
  obtain ⟨n, hn, hc, hd⟩ := h.cursor.skipBlanks h.apart
  have hs := h.advance hn
  rw [hc, hd]
  generalize s.cursor.advance n = c at hs ⊢
  generalize s'.cursor.advance n = d at hs ⊢
  have hcount : (s.count : Int) ≤ s'.count := Int.ofNat_le.mpr h.count
  have htokens := hlimits.tokens
  by_cases hrest : c.rest = []
  · rw [if_pos (List.isEmpty_iff.mpr hrest)]
    by_cases htail : tail = []
    · have hrest' : d.rest = [] := by rw [hs.cursor.rest, hrest, htail]; rfl
      rw [if_pos (List.isEmpty_iff.mpr hrest')]
      exact .ok ⟨rfl, rfl, hs.cursor.position, hs.cursor.position, fun _ => htail⟩ hs
    -- The newline behind the part counts as a token of the whole.
    · have hrest' : ¬ d.rest.isEmpty = true := by
        rw [hs.cursor.rest, hrest]
        simpa using htail
      rw [if_neg hrest']
      split
      · exact .limit rfl
      · have hs' : Scanner.Within k tail m { s with cursor := c }
            ⟨d, s'.depth, s'.count + 1, s'.size⟩ :=
          ⟨hs.cursor, hs.apart, hs.finish, hs.depth, hs.depth', Nat.le_succ_of_le hs.count,
            hs.size, hs.room⟩
        exact nextAlike_end hs' hrest htail
  · have hrest' : ¬ d.rest.isEmpty = true := by
      rw [hs.cursor.rest]
      simp [hrest]
    have hrest'' : ¬ c.rest.isEmpty = true := fun hempty => hrest (List.isEmpty_iff.mp hempty)
    rw [if_neg hrest', if_neg hrest'']
    by_cases hmany : limits'.tokens < (s'.count + 1 : Nat)
    · rw [if_pos hmany]
      exact .limit rfl
    · rw [if_neg hmany, if_neg (by omega)]
      exact nextAlike_readToken hlimits ⟨hs.cursor, hs.apart, hs.finish, hs.depth, hs.depth',
        Nat.succ_le_succ hs.count, hs.size, hs.room⟩ hrest

end

end EnvScript
