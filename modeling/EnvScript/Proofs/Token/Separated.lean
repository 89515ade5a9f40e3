import EnvScript.Proofs.Token.Stream
import EnvScript.Proofs.Word.Moved
import EnvScript.Proofs.Word.Spelled

/-!
# Tokens with separators between them

Separators stand between the words of a script. Whichever stands in front of a word, the scanner
hands out the tokens of the separator and then the word.
-/

namespace EnvScript

variable {limits : Limits} {limit limit' : Int} {x : Char} {t u v w : Text} {word : Word}

/-! ## Where a name begins -/

theorem isBreak_of_isNameStart (h : isNameStart x = true) : isBreak x = false :=
  (begins_of_isNameChar (isNameChar_of_isNameStart h)).isBreak

/-- The digits come before the letters and the underscore. -/
theorem isDigit_of_isNameStart (h : isNameStart x = true) : x.isDigit = false := by
  rw [← Bool.not_eq_true]
  intro hdigit
  have hle : x.val ≤ '9'.val := of_decide_eq_true (Bool.and_eq_true_iff.mp hdigit).2
  have hge : 'A'.val ≤ x.val := by
    rcases Bool.or_eq_true_iff.mp h with halpha | hunderscore
    · rcases Bool.or_eq_true_iff.mp halpha with hupper | hlower
      · exact (of_decide_eq_true hupper).1
      · have hlower : 'a'.val ≤ x.val :=
          of_decide_eq_true (Bool.and_eq_true_iff.mp hlower).1
        exact UInt32.le_trans (by decide) hlower
    · rw [beq_iff_eq.mp hunderscore]
      decide
  exact absurd (UInt32.le_trans hge hle) (by decide)

/-- Every operator begins with a character that ends a word. -/
theorem leading?_of_isBreak_eq_false (h : isBreak x = false) (t : Text) :
    Operator.leading? (x :: t) = none := by
  have hbreaks : ∀ o ∈ Operator.longestFirst, o.text.head?.any isBreak = true := by decide
  refine List.find?_eq_none.mpr fun o ho hprefix => ?_
  have hbreak := hbreaks o ho
  obtain ⟨u, hu⟩ := List.isPrefixOf_iff_prefix.mp hprefix
  cases htext : o.text with
  | nil =>
    rw [htext] at hbreak
    exact absurd hbreak (by simp)
  | cons y text =>
    rw [htext] at hbreak hu
    obtain ⟨rfl, -⟩ := List.cons.inj hu
    have hy : isBreak y = true := hbreak
    rw [h] at hy
    exact absurd hy (by simp)

/-- Where a name begins there is no token other than a word. -/
theorem leadingLexeme?_of_isNameStart (h : isNameStart x = true) (t : Text) :
    Scanner.leadingLexeme? (x :: t) = none := by
  have hne : ∀ {y : Char}, isNameStart y = false → x ≠ y := by
    rintro y hy rfl
    exact absurd (h.symm.trans hy) (by simp)
  have hbang : Scanner.startsBang (x :: t) = false := by
    have hx : x ≠ '!' := hne (by decide)
    unfold Scanner.startsBang
    split <;> simp_all
  have hnumber : Scanner.ioNumberLength? (x :: t) = none := by
    unfold Scanner.ioNumberLength?
    rw [List.takeWhile_cons_of_neg (by simp [isDigit_of_isNameStart h])]
  have hnewline : x ≠ '\n' := hne (by decide)
  unfold Scanner.leadingLexeme?
  rw [if_neg (by simpa using hnewline), leading?_of_isBreak_eq_false (isBreak_of_isNameStart h),
    hbang, hnumber]
  rfl

theorem blankStep_of_isNameStart (h : isNameStart x = true) (t : Text) :
    Cursor.blankStep (x :: t) = 0 := by
  unfold Cursor.blankStep
  split
  case h_6 => rfl
  -- Blanks, continuations and comments begin with characters that begin no name.
  all_goals
    rename_i heq
    obtain ⟨rfl, -⟩ := List.cons.inj heq
    exact absurd h (by decide)

/-! ## Separators and words -/

/-- What stands around an operator between two pipelines. -/
inductive Layout where
  | tight
  | spaced
  | broken

/-- What may stand between two assignments. -/
inductive Separator where
  | space
  | tab
  | semi
  | newline
  | connective (c : Connective) (layout : Layout)

namespace Separator

def text : Separator → Text
  | .space => [' ']
  | .tab => ['\t']
  | .semi => [';']
  | .newline => ['\n']
  | .connective c .tight => c.text
  | .connective c .spaced => ' ' :: (c.text ++ [' '])
  | .connective c .broken => c.text ++ ['\n']

/-- What the tokens of a separator are. -/
def lexemes : Separator → List Lexeme
  | .space | .tab => []
  | .semi => [.operator .semi]
  | .newline => [.newline]
  | .connective c .tight | .connective c .spaced => [.operator (.connective c)]
  | .connective c .broken => [.operator (.connective c), .newline]

theorem startsSeam (separator : Separator) (t : Text) : StartsSeam (separator.text ++ t) := by
  have hconnective : ∀ (c : Connective) (u : Text), StartsSeam (c.text ++ u) := by
    intro c u y hy
    cases c <;> (obtain rfl := Option.some.inj hy; decide)
  rcases separator with _ | _ | _ | _ | ⟨c, _ | _ | _⟩
  case tight => exact hconnective c t
  case broken => exact List.append_assoc .. ▸ hconnective c _
  all_goals
    intro y hy
    obtain rfl := Option.some.inj hy
    decide

end Separator

/-- In front of a newline the text is this word, which begins with a name. -/
structure WordText (limit : Int) (w : Text) (word : Word) : Prop where
  starts : ∃ x t, w = x :: t ∧ isNameStart x = true
  read : ∃ (c : Cursor) (u : Text), c.rest = w ++ '\n' :: u ∧
    readWord limit 0 {} c = .ok (word, c.advance w.length)

/-- The word is read wherever its text stands in front of a seam. -/
theorem WordText.readWord {c : Cursor} (h : WordText limit w word) (hlimit : limit ≤ limit')
    (hv : StartsSeam v) (hc : c.rest = w ++ v) :
    EnvScript.readWord limit' 0 {} c = .ok (word, c.advance w.length) := by
  obtain ⟨c', u, hc', hread⟩ := h.read
  exact readWord_moved hlimit (endsAlike_newline hv) rfl hc' hc hread

theorem WordText.mono (h : WordText limit w word) (hlimit : limit ≤ limit') :
    WordText limit' w word := by
  obtain ⟨c, u, hc, -⟩ := h.read
  have hseam : StartsSeam ('\n' :: u) := by
    intro y hy
    obtain rfl := Option.some.inj hy
    decide
  exact ⟨h.starts, c, u, hc, h.readWord hlimit hseam hc⟩

namespace Scanner

/-! ## One token in front of a text -/

/-- The scanner stands in front of the text `t`, with nothing open and room for all its tokens. -/
structure Facing (limits : Limits) (t : Text) (s : Scanner) : Prop where
  rest : s.cursor.rest = t
  depth : s.depth = 0
  size : s.size ≤ limits.inputSize
  count : (s.count + t.length : Nat) ≤ limits.tokens

variable {s : Scanner}

theorem facing_ofText (hsize : t.length ≤ limits.inputSize) (htokens : t.length ≤ limits.tokens) :
    (Scanner.ofText t).Facing limits t :=
  ⟨rfl, rfl, hsize, by simpa [ofText] using htokens⟩

/-- The scanner behind a token with the text `t`. -/
theorem Facing.advance (h : s.Facing limits (t ++ u)) (ht : t ≠ []) :
    Facing limits u { s with cursor := s.cursor.advance t.length, count := s.count + 1 } := by
  have hpos := List.length_pos_iff.mpr ht
  have hcount := h.count
  rw [List.length_append] at hcount
  refine ⟨?_, h.depth, h.size, ?_⟩
  · rw [Cursor.rest_advance, h.rest, List.drop_left]
  · dsimp only
    omega

theorem Facing.count_succ (h : s.Facing limits t) (ht : t ≠ []) :
    (s.count + 1 : Nat) ≤ limits.tokens := by
  have hpos := List.length_pos_iff.mpr ht
  have hcount := h.count
  omega

theorem Facing.next_lexeme {lexeme : Lexeme} (h : s.Facing limits (t ++ u)) (ht : t ≠ [])
    (hblank : Cursor.blankStep (t ++ u) = 0)
    (hlexeme : leadingLexeme? (t ++ u) = some (lexeme, t.length)) :
    ∃ token s', s.next limits = (.ok token, s') ∧ token.lexeme = lexeme ∧ s'.Facing limits u := by
  have hne : t ++ u ≠ [] := List.append_ne_nil_of_left_ne_nil ht u
  rw [← h.rest] at hblank hlexeme hne
  have hcount := h.count_succ (h.rest ▸ hne)
  refine ⟨_, _, Scanner.next_lexeme h.size hcount hne hblank hlexeme, rfl, ?_⟩
  exact h.advance ht

/-- A word that begins where no other token does. -/
theorem Facing.next_of_readWord (h : s.Facing limits (w ++ v)) (hw : w ≠ [])
    (hblank : Cursor.blankStep (w ++ v) = 0) (hlexeme : leadingLexeme? (w ++ v) = none)
    (hread : EnvScript.readWord limits.nesting 0 {} s.cursor =
      .ok (word, s.cursor.advance w.length)) :
    ∃ token s', s.next limits = (.ok token, s') ∧ token.lexeme = .word word ∧
      s'.Facing limits v := by
  have hne : w ++ v ≠ [] := List.append_ne_nil_of_left_ne_nil hw v
  rw [← h.rest] at hblank hlexeme hne
  have hcount := h.count_succ (h.rest ▸ hne)
  rw [← h.depth] at hread
  refine ⟨_, _, Scanner.next_word h.size hcount hne hblank hlexeme hread, rfl, ?_⟩
  exact h.advance hw

theorem Facing.next_word (h : s.Facing limits (w ++ v)) (hw : WordText limits.nesting w word)
    (hv : StartsSeam v) :
    ∃ token s', s.next limits = (.ok token, s') ∧ token.lexeme = .word word ∧
      s'.Facing limits v := by
  have hread := hw.readWord (Int.le_refl _) hv h.rest
  obtain ⟨x, t, rfl, hx⟩ := hw.starts
  exact h.next_of_readWord (List.cons_ne_nil x t) (blankStep_of_isNameStart hx _)
    (leadingLexeme?_of_isNameStart hx _) hread

/-- The text of a token is what it takes off. -/
theorem Facing.text_eq {token : Token} {s' : Scanner} (h : s.Facing limits (w ++ v)) (hw : w ≠ [])
    (hblank : Cursor.blankStep (w ++ v) = 0) (hnext : s.next limits = (.ok token, s'))
    (h' : s'.Facing limits v) : token.text = w := by
  rw [← h.rest] at hblank
  have hskip := Cursor.skipBlanks_eq_self hblank
  rcases next_ok hnext with ⟨hend, -⟩ | ⟨n, -, -, rfl, -, htext, -⟩
  · rw [hskip, h.rest] at hend
    exact absurd (List.append_eq_nil_iff.mp hend).1 hw
  · have hdrop : (w ++ v).drop n = v := by
      rw [← h.rest, ← hskip, ← Cursor.rest_advance]
      exact h'.rest
    rw [htext, hskip, h.rest]
    have hwhole := List.take_append_drop n (w ++ v)
    rw [hdrop] at hwhole
    exact List.append_cancel_right hwhole

/-- A blank in front of a token is skipped. -/
theorem Facing.next_blank (h : s.Facing limits (x :: t)) (hx : Cursor.blankStep (x :: t) = 1) :
    ∃ s₁ : Scanner, s₁.Facing limits t ∧ s.next limits = s₁.next limits := by
  have hcount := h.count
  rw [List.length_cons] at hcount
  refine ⟨{ s with cursor := s.cursor.advance 1 }, ⟨?_, h.depth, h.size, ?_⟩, ?_⟩
  · rw [Cursor.rest_advance, h.rest]
    rfl
  · dsimp only
    omega
  · have hskip : s.cursor.skipBlanks = (s.cursor.advance 1).skipBlanks := by
      rw [Cursor.skipBlanks, h.rest, hx, if_neg Nat.one_ne_zero]
    unfold next
    rw [if_neg (Int.not_lt.mpr h.size), if_neg (Int.not_lt.mpr h.size), hskip]

theorem Facing.next_blanks {g : Text} (h : s.Facing limits (g ++ t))
    (hg : ∀ x ∈ g, x ∈ Cursor.blanks) :
    ∃ s₁ : Scanner, s₁.Facing limits t ∧ s.next limits = s₁.next limits := by
  induction g generalizing s with
  | nil => exact ⟨s, h, rfl⟩
  | cons x g ih =>
    obtain ⟨hx, hg⟩ := List.forall_mem_cons.mp hg
    obtain ⟨s₁, h₁, hnext₁⟩ := Facing.next_blank h (Cursor.blankStep_of_mem_blanks hx (g ++ t))
    obtain ⟨s₂, h₂, hnext₂⟩ := ih h₁ hg
    exact ⟨s₂, h₂, hnext₁.trans hnext₂⟩

theorem Facing.next_end (h : s.Facing limits []) :
    ∃ e s', s.next limits = (.ok e, s') ∧ e.lexeme = .eof :=
  ⟨_, _, Scanner.next_end h.size h.rest, rfl⟩

/-! ## A separator in front of a word -/

theorem Facing.next_connective {c : Connective} (h : s.Facing limits (c.text ++ u)) :
    ∃ token s', s.next limits = (.ok token, s') ∧ token.lexeme = .operator (.connective c) ∧
      s'.Facing limits u := by
  cases c <;> exact h.next_lexeme (List.cons_ne_nil _ _) rfl rfl

theorem Facing.next_newline (h : s.Facing limits ('\n' :: u)) :
    ∃ token s', s.next limits = (.ok token, s') ∧ token.lexeme = .newline ∧ s'.Facing limits u :=
  h.next_lexeme (t := ['\n']) (List.cons_ne_nil _ _) rfl rfl

/-- In front of a name a semicolon is not the first of two. -/
theorem Facing.next_semi (h : s.Facing limits (';' :: x :: t)) (hx : isNameStart x = true) :
    ∃ token s', s.next limits = (.ok token, s') ∧ token.lexeme = .operator .semi ∧
      s'.Facing limits (x :: t) := by
  have hne : ';' ≠ x := by
    rintro rfl
    exact absurd hx (by decide)
  have hleading : Operator.leading? (';' :: x :: t) = some .semi := by
    simp [Operator.leading?, Operator.longestFirst, Operator.text, Redirect.text, Connective.text,
      List.isPrefixOf, hne]
  refine h.next_lexeme (t := [';']) (List.cons_ne_nil _ _) rfl ?_
  show leadingLexeme? (';' :: x :: t) = _
  unfold leadingLexeme?
  rw [hleading]
  rfl

/-- The scanner hands out the tokens of a separator and the word behind it. -/
theorem Facing.yields_separator (separator : Separator) (hw : WordText limits.nesting w word)
    (hv : StartsSeam v) (h : s.Facing limits (separator.text ++ (w ++ v))) :
    ∃ ts token s', Yields limits s (ts ++ [token]) s' ∧ ts.map (·.lexeme) = separator.lexemes ∧
      token.lexeme = .word word ∧ s'.Facing limits v := by
  -- A blank, if there is one, and the word.
  have hword : ∀ {s₁ : Scanner} {x : Char}, s₁.Facing limits (x :: (w ++ v)) →
      (∀ u, Cursor.blankStep (x :: u) = 1) → ∃ token s', s₁.next limits = (.ok token, s') ∧
        token.lexeme = .word word ∧ s'.Facing limits v := by
    intro s₁ x h₁ hx
    obtain ⟨s₂, h₂, hnext⟩ := h₁.next_blank (hx _)
    rw [hnext]
    exact h₂.next_word hw hv
  cases separator with
  | space =>
    obtain ⟨token, s', hnext, hlexeme, h'⟩ := hword h fun _ => rfl
    exact ⟨[], token, s', .single hnext, rfl, hlexeme, h'⟩
  | tab =>
    obtain ⟨token, s', hnext, hlexeme, h'⟩ := hword h fun _ => rfl
    exact ⟨[], token, s', .single hnext, rfl, hlexeme, h'⟩
  | semi =>
    obtain ⟨x, t, rfl, hx⟩ := hw.starts
    obtain ⟨semi, s₁, hsemi, hlexeme, h₁⟩ := Facing.next_semi h hx
    obtain ⟨token, s', hnext, htoken, h'⟩ := h₁.next_word hw hv
    exact ⟨[semi], token, s', .cons hsemi (.single hnext), congrArg ([·]) hlexeme, htoken, h'⟩
  | newline =>
    have h : s.Facing limits ('\n' :: (w ++ v)) := h
    obtain ⟨newline, s₁, hnewline, hlexeme, h₁⟩ := h.next_newline
    obtain ⟨token, s', hnext, htoken, h'⟩ := h₁.next_word hw hv
    exact ⟨[newline], token, s', .cons hnewline (.single hnext), congrArg ([·]) hlexeme, htoken, h'⟩
  | connective c layout =>
    cases layout with
    | tight =>
      have h : s.Facing limits (c.text ++ (w ++ v)) := h
      obtain ⟨operator, s₁, hoperator, hlexeme, h₁⟩ := h.next_connective
      obtain ⟨token, s', hnext, htoken, h'⟩ := h₁.next_word hw hv
      exact ⟨[operator], token, s', .cons hoperator (.single hnext), congrArg ([·]) hlexeme, htoken,
        h'⟩
    | spaced =>
      have h : s.Facing limits (' ' :: (c.text ++ [' '] ++ (w ++ v))) := h
      obtain ⟨s₀, h₀, hskip⟩ := h.next_blank rfl
      rw [List.append_assoc] at h₀
      obtain ⟨operator, s₁, hoperator, hlexeme, h₁⟩ := h₀.next_connective
      obtain ⟨token, s', hnext, htoken, h'⟩ := hword h₁ fun _ => rfl
      exact ⟨[operator], token, s', .cons (hskip.trans hoperator) (.single hnext),
        congrArg ([·]) hlexeme, htoken, h'⟩
    | broken =>
      have h : s.Facing limits (c.text ++ ['\n'] ++ (w ++ v)) := h
      rw [List.append_assoc, List.singleton_append] at h
      obtain ⟨operator, s₁, hoperator, hlexeme, h₁⟩ := h.next_connective
      obtain ⟨newline, s₂, hnewline, hlexeme', h₂⟩ := h₁.next_newline
      obtain ⟨token, s', hnext, htoken, h'⟩ := h₂.next_word hw hv
      refine ⟨[operator, newline], token, s', .cons hoperator (.cons hnewline (.single hnext)), ?_,
        htoken, h'⟩
      rw [List.map_cons, List.map_singleton, hlexeme, hlexeme']
      rfl

end Scanner

end EnvScript
