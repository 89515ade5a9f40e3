import EnvScript.Proofs.Success
import EnvScript.Proofs.Word.Leading
import EnvScript.Token.Scanner

/-!
# The tokens of a script in a row

`Scanner.next_ok` says all that reading one token does. `Scanner.Yields` is the reading of several,
and `tokenize` is the row up to the end token.
-/

namespace EnvScript

def Fault.isLimit : Fault → Bool
  | .inputTooLarge .. | .tooManyTokens _ | .tooManyIterations _ | .nestingTooDeep => true
  | _ => false

/-- An operation has found nothing. -/
def Fault.isMissing : Fault → Bool
  | .missing _ => true
  | _ => false

namespace Cursor

theorem exists_advance_skipBlanks (c : Cursor) : ∃ n, c.skipBlanks = c.advance n := by
  fun_induction skipBlanks c with
  | case1 c h => exact ⟨0, rfl⟩
  | case2 c h ih =>
    obtain ⟨n, hn⟩ := ih
    exact ⟨blankStep c.rest + n, by rw [hn, advance_advance]⟩

theorem blankStep_skipBlanks (c : Cursor) : blankStep c.skipBlanks.rest = 0 := by
  fun_induction skipBlanks c with
  | case1 c h => exact h
  | case2 c h ih => exact ih

theorem skipBlanks_eq_self {c : Cursor} (h : blankStep c.rest = 0) : c.skipBlanks = c := by
  rw [skipBlanks, if_pos h]

theorem skipBlanks_of_nil {c : Cursor} (h : c.rest = []) : c.skipBlanks = c :=
  skipBlanks_eq_self (by rw [h]; rfl)

theorem length_skipBlanks_le (c : Cursor) : c.skipBlanks.rest.length ≤ c.rest.length := by
  obtain ⟨n, hn⟩ := exists_advance_skipBlanks c
  rw [hn, rest_advance, List.length_drop]
  omega

theorem blankStep_le (t : Text) : blankStep t ≤ t.length := by
  unfold blankStep
  split
  · simp
  · simp
  · simp
  · simp
  · rename_i u
    have hcomment := (List.takeWhile_prefix (l := u) (· != '\n')).length_le
    rw [List.length_cons]
    omega
  · exact Nat.zero_le _

/-- The characters that are skipped between tokens wherever they stand. -/
def blanks : List Char := " \t\r".toList

theorem blankStep_of_mem_blanks {x : Char} (h : x ∈ blanks) (t : Text) :
    blankStep (x :: t) = 1 := by
  have hx : x = ' ' ∨ x = '\t' ∨ x = '\r' := by simpa [blanks] using h
  rcases hx with rfl | rfl | rfl <;> rfl

/-- Of blanks alone nothing is left. -/
theorem rest_skipBlanks_of_blanks {c : Cursor} (h : ∀ x ∈ c.rest, x ∈ blanks) :
    c.skipBlanks.rest = [] := by
  obtain ⟨n, hn⟩ := exists_advance_skipBlanks c
  have hstep := blankStep_skipBlanks c
  cases hrest : c.skipBlanks.rest with
  | nil => rfl
  | cons x t =>
    have hx : x ∈ c.rest.drop n := by
      rw [← rest_advance, ← hn, hrest]
      exact List.mem_cons_self
    rw [hrest, blankStep_of_mem_blanks (h x (List.mem_of_mem_drop hx))] at hstep
    exact absurd hstep Nat.one_ne_zero

/-- What has been passed between two cursors, from their offsets. -/
theorem take_offset_advance (c : Cursor) (n : Nat) :
    c.rest.take ((c.advance n).offset - c.offset) = c.rest.take n := by
  rw [offset_advance, Nat.add_sub_cancel_left, List.length_take, List.take_eq_take_iff]
  omega

theorem take_of_advance_eq {c : Cursor} {m n : Nat} (h : c.advance m = c.advance n) :
    c.rest.take m = c.rest.take n := by
  rw [← c.take_offset_advance, h, c.take_offset_advance]

end Cursor

namespace Scanner

/-! ## One token -/

/-- A token other than a word takes at least one character. -/
theorem leadingLexeme?_pos {t : Text} {lexeme : Lexeme} {n : Nat}
    (h : leadingLexeme? t = some (lexeme, n)) :
    0 < n ∧ lexeme.kind ≠ .eof ∧ lexeme.kind ≠ .word := by
  unfold leadingLexeme? at h
  split at h
  · obtain ⟨rfl, rfl⟩ := Prod.mk.inj (Option.some.inj h)
    exact ⟨by omega, by decide, by decide⟩
  · split at h
    · rename_i o _
      obtain ⟨rfl, rfl⟩ := Prod.mk.inj (Option.some.inj h)
      refine ⟨?_, by simp [Lexeme.kind], by simp [Lexeme.kind]⟩
      cases o with
      | connective c => cases c <;> decide
      | redirect r => cases r <;> decide
      | _ => decide
    · split at h
      · obtain ⟨rfl, rfl⟩ := Prod.mk.inj (Option.some.inj h)
        exact ⟨by omega, by decide, by decide⟩
      · obtain ⟨m, hm, heq⟩ := Option.map_eq_some_iff.mp h
        obtain ⟨rfl, rfl⟩ := Prod.mk.inj heq
        refine ⟨?_, by decide, by decide⟩
        unfold ioNumberLength? at hm
        split at hm
        · split at hm
          · rw [← Option.some.inj hm]
            omega
          · exact absurd hm (by simp)
        · exact absurd hm (by simp)

theorem length_of_leadingLexeme? {t : Text} {lexeme : Lexeme} {n : Nat}
    (h : leadingLexeme? t = some (lexeme, n)) : n ≤ t.length := by
  unfold leadingLexeme? at h
  split at h
  · rename_i hnewline
    obtain ⟨u, rfl⟩ := List.head?_eq_some_iff.mp hnewline
    obtain ⟨-, rfl⟩ := Prod.mk.inj (Option.some.inj h)
    simp
  · split at h
    · rename_i o ho
      obtain ⟨-, rfl⟩ := Prod.mk.inj (Option.some.inj h)
      have hprefix := List.find?_some (show Operator.longestFirst.find? _ = some o from ho)
      exact (List.isPrefixOf_iff_prefix.mp hprefix).length_le
    · split at h
      · rename_i hbang
        obtain ⟨-, rfl⟩ := Prod.mk.inj (Option.some.inj h)
        cases t with
        | nil => exact absurd hbang (by simp [startsBang])
        | cons x t => simp
      · obtain ⟨m, hm, heq⟩ := Option.map_eq_some_iff.mp h
        obtain ⟨-, rfl⟩ := Prod.mk.inj heq
        unfold ioNumberLength? at hm
        split at hm
        · rename_i hdigits _
          split at hm
          · have hle := (List.takeWhile_prefix (l := t) Char.isDigit).length_le
            rw [hdigits, List.length_cons] at hle
            exact Option.some.inj hm ▸ hle
          · exact absurd hm (by simp)
        · exact absurd hm (by simp)

/-- Where neither a blank nor a token other than a word begins, no break stands. -/
theorem isBreak_eq_false {x : Char} {t : Text} (hblank : Cursor.blankStep (x :: t) = 0)
    (hlexeme : leadingLexeme? (x :: t) = none) : isBreak x = false := by
  rw [Bool.eq_false_iff]
  intro hx
  have hmem : x ∈ [' ', '\t', '\n', '|', '&', ';', '<', '>', '(', ')'] :=
    List.contains_iff_mem.mp hx
  unfold leadingLexeme? at hlexeme
  split at hlexeme
  · exact absurd hlexeme (by simp)
  · rename_i hnewline
    split at hlexeme
    · exact absurd hlexeme (by simp)
    · rename_i hnone
      have hoperator : ∀ o : Operator, ¬ o.text <+: x :: t := by
        intro o ho
        refine List.find?_eq_none.mp hnone o (Operator.mem_longestFirst o) ?_
        exact List.isPrefixOf_iff_prefix.mpr ho
      -- No operator begins the text, so none is a single `x`. The other breaks are blanks and the
      -- newline.
      have hsingle : ∀ o : Operator, o.text ≠ [x] := by
        intro o ho
        exact hoperator o (ho ▸ ⟨t, rfl⟩)
      simp only [List.mem_cons, List.not_mem_nil, or_false] at hmem
      rcases hmem with rfl | rfl | rfl | rfl | rfl | rfl | rfl | rfl | rfl | rfl
      · exact absurd hblank (by simp [Cursor.blankStep])
      · exact absurd hblank (by simp [Cursor.blankStep])
      · exact hnewline rfl
      · exact hsingle .pipe rfl
      · exact hsingle .amp rfl
      · exact hsingle .semi rfl
      · exact hsingle (.redirect .input) rfl
      · exact hsingle (.redirect .output) rfl
      · exact hsingle .leftParen rfl
      · exact hsingle .rightParen rfl

/-- A token that begins at the cursor has at least one character, behind which the scanner then
stands. -/
theorem readToken_ok {limits : Limits} {s s' : Scanner} {t : Token} (hne : s.cursor.rest ≠ [])
    (hblank : Cursor.blankStep s.cursor.rest = 0) (h : s.readToken limits = (.ok t, s')) :
    ∃ n, 0 < n ∧ s' = { s with cursor := s.cursor.advance n } ∧ t.kind ≠ .eof ∧
      t.text = s.cursor.rest.take n ∧ t.start = s.cursor.position ∧
      t.stop = (s.cursor.advance n).position ∧ ∀ w, t.lexeme = .word w →
        readWord limits.nesting s.depth {} s.cursor = .ok (w, s.cursor.advance n) := by
  unfold readToken at h
  dsimp only at h
  split at h
  · rename_i lexeme n hlexeme
    obtain ⟨ht, rfl⟩ := Prod.mk.inj h
    obtain ⟨hpos, heof, hword⟩ := leadingLexeme?_pos hlexeme
    rw [← Except.ok.inj ht]
    refine ⟨n, hpos, rfl, heof, Cursor.take_offset_advance _ n, rfl, rfl, fun w hw => ?_⟩
    exact absurd (congrArg Lexeme.kind hw) hword
  · rename_i hlexeme
    split at h
    · rename_i w after hw
      obtain ⟨ht, rfl⟩ := Prod.mk.inj h
      obtain ⟨n, rfl, -, hpos⟩ := readWord_ok hw
      rw [← Except.ok.inj ht]
      refine ⟨n, ?_, rfl, by simp [Token.kind, Lexeme.kind], Cursor.take_offset_advance _ n, rfl,
        rfl, ?_⟩
      · cases hcons : s.cursor.rest with
        | nil => exact absurd hcons hne
        | cons x u =>
          -- A word takes something because no break stands where it begins.
          rw [hcons] at hblank hlexeme
          exact hpos x u hcons (isBreak_eq_false hblank hlexeme)
      · intro v hv
        exact Lexeme.word.inj hv ▸ hw
    · exact absurd (Prod.mk.inj h).1 (by simp)

/-- Reading the next token: at the end the end token, and before it a token behind the blanks. -/
theorem next_ok {limits : Limits} {s s' : Scanner} {t : Token} (h : s.next limits = (.ok t, s')) :
    (s.cursor.skipBlanks.rest = [] ∧ t = .eof s.cursor.skipBlanks.position ∧
      s' = { s with cursor := s.cursor.skipBlanks }) ∨
    ∃ n, 0 < n ∧ s.cursor.skipBlanks.rest ≠ [] ∧
      s' = { s with cursor := s.cursor.skipBlanks.advance n, count := s.count + 1 } ∧
      t.kind ≠ .eof ∧ t.text = s.cursor.skipBlanks.rest.take n ∧
      t.start = s.cursor.skipBlanks.position ∧ t.stop = s'.cursor.position ∧
      ∀ w, t.lexeme = .word w →
        readWord limits.nesting s.depth {} s.cursor.skipBlanks = .ok (w, s'.cursor) := by
  unfold next at h
  split at h
  · exact absurd (Prod.mk.inj h).1 (by simp)
  · dsimp only at h
    split at h
    · rename_i hrest
      obtain ⟨ht, rfl⟩ := Prod.mk.inj h
      exact .inl ⟨List.isEmpty_iff.mp hrest, (Except.ok.inj ht).symm, rfl⟩
    · rename_i hrest
      have hne : s.cursor.skipBlanks.rest ≠ [] := fun hnil => hrest (List.isEmpty_iff.mpr hnil)
      split at h
      · exact absurd (Prod.mk.inj h).1 (by simp)
      · obtain ⟨n, hpos, rfl, hread⟩ := readToken_ok hne (Cursor.blankStep_skipBlanks s.cursor) h
        exact .inr ⟨n, hpos, hne, rfl, hread⟩

/-- Reading what stands at the cursor. -/
theorem next_of_blankStep {limits : Limits} {s : Scanner} (hsize : s.size ≤ limits.inputSize)
    (hcount : (s.count + 1 : Nat) ≤ limits.tokens) (hne : s.cursor.rest ≠ [])
    (hblank : Cursor.blankStep s.cursor.rest = 0) :
    s.next limits = { s with count := s.count + 1 }.readToken limits := by
  have hskip := Cursor.skipBlanks_eq_self hblank
  rw [next, if_neg (Int.not_lt.mpr hsize)]
  dsimp only
  rw [hskip, if_neg (fun hempty => hne (List.isEmpty_iff.mp hempty)),
    if_neg (Int.not_lt.mpr hcount)]

theorem next_lexeme {limits : Limits} {s : Scanner} {lexeme : Lexeme} {n : Nat}
    (hsize : s.size ≤ limits.inputSize) (hcount : (s.count + 1 : Nat) ≤ limits.tokens)
    (hne : s.cursor.rest ≠ []) (hblank : Cursor.blankStep s.cursor.rest = 0)
    (hlexeme : leadingLexeme? s.cursor.rest = some (lexeme, n)) :
    s.next limits =
      (.ok ⟨lexeme, s.cursor.rest.take ((s.cursor.advance n).offset - s.cursor.offset),
        s.cursor.position, (s.cursor.advance n).position⟩,
        { s with cursor := s.cursor.advance n, count := s.count + 1 }) := by
  rw [next_of_blankStep hsize hcount hne hblank]
  unfold readToken
  dsimp only
  rw [hlexeme]

theorem next_word {limits : Limits} {s : Scanner} {w : Word} {after : Cursor}
    (hsize : s.size ≤ limits.inputSize) (hcount : (s.count + 1 : Nat) ≤ limits.tokens)
    (hne : s.cursor.rest ≠ []) (hblank : Cursor.blankStep s.cursor.rest = 0)
    (hlexeme : leadingLexeme? s.cursor.rest = none)
    (hw : readWord limits.nesting s.depth {} s.cursor = .ok (w, after)) :
    s.next limits =
      (.ok ⟨.word w, s.cursor.rest.take (after.offset - s.cursor.offset), s.cursor.position,
        after.position⟩, { s with cursor := after, count := s.count + 1 }) := by
  rw [next_of_blankStep hsize hcount hne hblank]
  unfold readToken
  dsimp only
  rw [hlexeme]
  dsimp only
  rw [hw]

theorem next_end_of_skipBlanks {limits : Limits} {s : Scanner} (hsize : s.size ≤ limits.inputSize)
    (hrest : s.cursor.skipBlanks.rest = []) :
    s.next limits = (.ok (.eof s.cursor.skipBlanks.position),
      { s with cursor := s.cursor.skipBlanks }) := by
  rw [next, if_neg (Int.not_lt.mpr hsize)]
  dsimp only
  rw [hrest]
  rfl

theorem next_end {limits : Limits} {s : Scanner} (hsize : s.size ≤ limits.inputSize)
    (hrest : s.cursor.rest = []) : s.next limits = (.ok (.eof s.cursor.position), s) := by
  have hskip := Cursor.skipBlanks_of_nil hrest
  rw [next_end_of_skipBlanks hsize (hskip.symm ▸ hrest), hskip]

theorem next_of_size_lt {limits : Limits} {s : Scanner} (hsize : limits.inputSize < s.size) :
    s.next limits = (.error ⟨.inputTooLarge s.size limits.inputSize, .start⟩, s) := by
  rw [next, if_pos hsize]

theorem next_of_tokens_lt {limits : Limits} {s : Scanner} (hsize : s.size ≤ limits.inputSize)
    (hcount : limits.tokens < (s.count + 1 : Nat)) (hne : s.cursor.rest ≠ [])
    (hblank : Cursor.blankStep s.cursor.rest = 0) :
    s.next limits = (.error ⟨.tooManyTokens limits.tokens, s.cursor.position⟩,
      { s with count := s.count + 1 }) := by
  have hskip := Cursor.skipBlanks_eq_self hblank
  rw [next, if_neg (Int.not_lt.mpr hsize)]
  dsimp only
  rw [hskip, if_neg (fun hempty => hne (List.isEmpty_iff.mp hempty)), if_pos hcount]

/-- Reading a token uses up text, unless it is the end token. -/
theorem length_next_lt {limits : Limits} {s s' : Scanner} {t : Token}
    (h : s.next limits = (.ok t, s')) :
    s'.cursor.rest.length + [t].countP (·.kind != .eof) ≤ s.cursor.rest.length := by
  have hblanks := Cursor.length_skipBlanks_le s.cursor
  rcases next_ok h with ⟨-, rfl, rfl⟩ | ⟨n, hn, hne, rfl, heof, -⟩
  · exact hblanks
  · have hpos := List.length_pos_iff.mpr hne
    have hcount : [t].countP (·.kind != .eof) = 1 := by simp [heof]
    show (s.cursor.skipBlanks.advance n).rest.length + _ ≤ _
    rw [Cursor.rest_advance, List.length_drop, hcount]
    omega

theorem length_next_lt_of_ne_eof {limits : Limits} {s s' : Scanner} {t : Token}
    (h : s.next limits = (.ok t, s')) (ht : t.kind ≠ .eof) :
    s'.cursor.rest.length < s.cursor.rest.length := by
  have hlength := length_next_lt h
  have hcount : [t].countP (·.kind != .eof) = 1 := by simp [ht]
  omega

/-! ## Tokens in a row -/

/-- The scanner hands out these tokens one after the other. -/
inductive Yields (limits : Limits) : Scanner → List Token → Scanner → Prop
  | nil (s : Scanner) : Yields limits s [] s
  | cons {s s' s'' : Scanner} {t : Token} {ts : List Token} (h : s.next limits = (.ok t, s'))
      (hrest : Yields limits s' ts s'') : Yields limits s (t :: ts) s''

section

variable {limits : Limits} {s s' s'' : Scanner} {t : Token} {ts us : List Token}

theorem Yields.append (h : Yields limits s ts s') (h' : Yields limits s' us s'') :
    Yields limits s (ts ++ us) s'' := by
  induction h with
  | nil => exact h'
  | cons hnext _ ih => exact .cons hnext (ih h')

theorem Yields.single (h : s.next limits = (.ok t, s')) : Yields limits s [t] s' :=
  .cons h (.nil s')

theorem Yields.length_le (h : Yields limits s ts s') :
    s'.cursor.rest.length + ts.countP (·.kind != .eof) ≤ s.cursor.rest.length := by
  induction h with
  | nil => exact Nat.le_refl _
  | @cons s s₁ s₂ t ts hnext _ ih =>
    have hfirst := length_next_lt hnext
    rw [← List.singleton_append, List.countP_append]
    omega

theorem Yields.exists_next (h : Yields limits s ts s') (ht : t ∈ ts) :
    ∃ s₁ s₂ : Scanner, s₁.next limits = (.ok t, s₂) := by
  induction h with
  | nil => exact absurd ht (by simp)
  | cons hnext _ ih =>
    rcases List.mem_cons.mp ht with rfl | ht
    · exact ⟨_, _, hnext⟩
    · exact ih ht

/-- The literal at the start of a word stands at the start of the word's text. -/
def Spelled (t : Token) : Prop :=
  ∀ text parts, t.lexeme = .word (.literal text :: parts) → text <+: t.text

theorem spelled_of_next (h : s.next limits = (.ok t, s')) : Spelled t := by
  intro text parts hlex
  rcases next_ok h with ⟨-, rfl, -⟩ | ⟨n, -, -, rfl, -, htext, -, -, hword⟩
  · exact absurd hlex (by simp [Token.eof])
  · obtain ⟨m, hm, hleads, -⟩ := readWord_ok (hword _ hlex)
    rw [htext, Cursor.take_of_advance_eq hm]
    exact hleads text parts rfl

theorem Yields.spelled (h : Yields limits s ts s') : ∀ t ∈ ts, Spelled t := by
  intro t ht
  obtain ⟨s₁, s₂, hnext⟩ := h.exists_next ht
  exact spelled_of_next hnext

/-- A row of tokens up to an end token is what the scanner's list of tokens is. -/
theorem Yields.tokensUpTo {e : Token} {more : List Token} {n : Nat}
    (h : Yields limits s (ts ++ e :: more) s') (hts : ∀ t ∈ ts, t.kind ≠ .eof)
    (he : e.kind = .eof) (hn : s.cursor.rest.length ≤ n) :
    s.tokensUpTo limits n = .ok (ts ++ [e]) := by
  induction ts generalizing s n with
  | nil =>
    cases h with
    | cons hnext _ =>
      cases n with
      | zero =>
        show (s.next limits).1.map ([·]) = _
        rw [hnext]
        rfl
      | succ n =>
        rw [Scanner.tokensUpTo, hnext]
        show (if e.kind = .eof then _ else _) = _
        rw [if_pos he]
        rfl
  | cons t ts ih =>
    cases h with
    | @cons _ s₁ _ _ _ hnext hrest =>
      have ht : t.kind ≠ .eof := hts t List.mem_cons_self
      have hlt := length_next_lt_of_ne_eof hnext ht
      cases n with
      -- A token in front of the end token takes text, so there is a round for each.
      | zero => omega
      | succ n =>
        have hmore := ih hrest (fun u hu => hts u (List.mem_cons_of_mem t hu))
          (show s₁.cursor.rest.length ≤ n by omega)
        rw [Scanner.tokensUpTo, hnext]
        show (if t.kind = .eof then _ else _) = _
        rw [if_neg ht, hmore]
        rfl

theorem yields_of_tokensUpTo {n : Nat} (h : s.tokensUpTo limits n = .ok ts) :
    ∃ s', Yields limits s ts s' := by
  induction n generalizing s ts with
  | zero =>
    obtain ⟨t, ht, rfl⟩ := exceptMap_eq_ok (show (s.next limits).1.map ([·]) = .ok ts from h)
    exact ⟨_, .single (Prod.ext ht rfl)⟩
  | succ n ih =>
    rw [Scanner.tokensUpTo] at h
    split at h
    · exact absurd h (by simp)
    · rename_i t s₁ hnext
      split at h
      · rw [← Except.ok.inj h]
        exact ⟨_, .single hnext⟩
      · obtain ⟨rest, hrest, rfl⟩ := exceptMap_eq_ok h
        obtain ⟨s', hs'⟩ := ih hrest
        exact ⟨s', .cons hnext hs'⟩

/-- Of two rows of tokens from one scanner, the longer begins with the shorter. -/
theorem Yields.split {s₁ s₂ : Scanner} (h : Yields limits s us s₁) (h' : Yields limits s ts s₂)
    (hle : us.length ≤ ts.length) : ∃ more, ts = us ++ more ∧ Yields limits s₁ more s₂ := by
  induction h generalizing ts with
  | nil => exact ⟨ts, rfl, h'⟩
  | cons hnext _ ih =>
    cases h' with
    | nil => exact absurd hle (by simp)
    | cons hnext' hrest' =>
      obtain ⟨ht, rfl⟩ := Prod.mk.inj (hnext.symm.trans hnext')
      obtain rfl := Except.ok.inj ht
      obtain ⟨more, rfl, hmore⟩ := ih hrest' (Nat.le_of_succ_le_succ hle)
      exact ⟨more, rfl, hmore⟩

/-- The end token is handed out again and again. -/
theorem next_of_eof (h : s.next limits = (.ok t, s')) (ht : t.kind = .eof) :
    s'.next limits = (.ok t, s') := by
  have hsize : s.size ≤ limits.inputSize := by
    by_contra hlt
    rw [next_of_size_lt (Int.not_le.mp hlt)] at h
    exact absurd (Prod.mk.inj h).1 (by simp)
  rcases next_ok h with ⟨hrest, rfl, rfl⟩ | ⟨n, -, -, -, hkind, -⟩
  · exact next_end hsize hrest
  · exact absurd ht hkind

/-- The list of tokens ends with the end token, behind which there are more end tokens. -/
theorem yields_replicate_of_tokensUpTo {n : Nat} (h : s.tokensUpTo limits n = .ok ts)
    (hn : s.cursor.rest.length ≤ n) : ∃ init e, ts = init ++ [e] ∧ e.kind = .eof ∧
      ∀ k, ∃ s', Yields limits s (ts ++ List.replicate k e) s' := by
  have hends : ∃ init e s', ts = init ++ [e] ∧ e.kind = .eof ∧ Yields limits s ts s' ∧
      s'.next limits = (.ok e, s') := by
    induction n generalizing s ts with
    | zero =>
      obtain ⟨t, ht, rfl⟩ := exceptMap_eq_ok (show (s.next limits).1.map ([·]) = .ok ts from h)
      have hnext : s.next limits = (.ok t, (s.next limits).2) := Prod.ext ht rfl
      have heof : t.kind = .eof := by
        by_contra hkind
        have hlt := length_next_lt_of_ne_eof hnext hkind
        omega
      exact ⟨[], t, _, rfl, heof, .single hnext, next_of_eof hnext heof⟩
    | succ n ih =>
      rw [Scanner.tokensUpTo] at h
      split at h
      · exact absurd h (by simp)
      · rename_i t s₁ hnext
        split at h
        · rename_i heof
          rw [← Except.ok.inj h]
          exact ⟨[], t, s₁, rfl, heof, .single hnext, next_of_eof hnext heof⟩
        · rename_i hkind
          have hlt := length_next_lt_of_ne_eof hnext hkind
          obtain ⟨rest, hrest, rfl⟩ := exceptMap_eq_ok h
          obtain ⟨init, e, s', rfl, heof, hyields, hrepeat⟩ := ih hrest (by omega)
          exact ⟨t :: init, e, s', rfl, heof, .cons hnext hyields, hrepeat⟩
  obtain ⟨init, e, s', hts, heof, hyields, hrepeat⟩ := hends
  refine ⟨init, e, hts, heof, fun k => ⟨s', hyields.append ?_⟩⟩
  induction k with
  | zero => exact .nil s'
  | succ k ih => exact .cons hrepeat ih

/-- However often the scanner is asked, it hands out no token that is not in its list. -/
theorem Yields.subset_of_tokensUpTo {n : Nat} (h : Yields limits s us s')
    (hts : s.tokensUpTo limits n = .ok ts) (hn : s.cursor.rest.length ≤ n) : us ⊆ ts := by
  obtain ⟨init, e, rfl, -, hmore⟩ := yields_replicate_of_tokensUpTo hts hn
  obtain ⟨s₂, hs₂⟩ := hmore us.length
  obtain ⟨more, heq, -⟩ := h.split hs₂ (by simp; omega)
  intro t ht
  have hmem : t ∈ init ++ [e] ++ List.replicate us.length e := heq ▸ List.mem_append_left more ht
  rcases List.mem_append.mp hmem with hmem | hmem
  · exact hmem
  · rw [List.eq_of_mem_replicate hmem]
    simp

end

end Scanner

end EnvScript
