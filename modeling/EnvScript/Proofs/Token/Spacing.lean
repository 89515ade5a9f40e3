import EnvScript.Proofs.Token.Partition
import EnvScript.Proofs.Token.Separated

/-!
# What stands between tokens

Where something stands between two tokens, other blanks may stand there as well, and the tokens are
the same. Of what follows a token only the first character matters to it, and a space and a tab mean
what any gap means that begins there.
-/

namespace EnvScript

variable {limits : Limits} {limit : Int} {base : Nat} {a : Assembly} {c after : Cursor} {x : Char}
  {t u v v' w g g' : Text} {n : Nat} {word : Word}

/-! ## What follows a token -/

/-- Two texts that are the same to a token in front of them: they begin with the same character, or
with a gap and with a space or a tab. -/
inductive LedAlike (v v' : Text) : Prop
  | same (h : v.head? = v'.head?)
  | blank {x : Char} {u : Text} (hv : Cursor.blankStep v ≠ 0) (hv' : v' = x :: u)
    (hx : x = ' ' ∨ x = '\t')

/-- The characters that a gap begins with. -/
theorem head?_of_blankStep (h : Cursor.blankStep v ≠ 0) :
    ∃ x u, v = x :: u ∧ x ∈ [' ', '\t', '\r', '\\', '#'] := by
  fun_cases Cursor.blankStep v with
  | case1 => exact ⟨_, _, rfl, by decide⟩
  | case2 => exact ⟨_, _, rfl, by decide⟩
  | case3 => exact ⟨_, _, rfl, by decide⟩
  | case4 => exact ⟨_, _, rfl, by decide⟩
  | case5 => exact ⟨_, _, rfl, by decide⟩
  | case6 v hspace htab hreturn hnewline hcomment =>
    exact absurd (Cursor.blankStep.eq_6 v hspace htab hreturn hnewline hcomment) h

/-- Whatever holds of the first character and of blanks. -/
theorem LedAlike.head {P : Option Char → Prop} (h : LedAlike v v') (hspace : P (some ' '))
    (htab : P (some '\t')) (hv : P v.head?) : P v'.head? := by
  cases h with
  | same h => exact h ▸ hv
  | blank _ hv' hx =>
    subst hv'
    rcases hx with rfl | rfl
    · exact hspace
    · exact htab

/-- In front of a word's end the gap begins with a space or a tab as well. -/
theorem LedAlike.head_iff {P : Option Char → Prop} (h : LedAlike v v')
    (hbreak : ∀ y ∈ v.head?, isBreak y = true) (hP : P (some ' ') ↔ P (some '\t')) :
    P v.head? ↔ P v'.head? := by
  cases h with
  | same h => rw [h]
  | blank hv hv' hx =>
    obtain ⟨y, u, rfl, hy⟩ := head?_of_blankStep hv
    have hblank : ∀ y ∈ [' ', '\t', '\r', '\\', '#'], isBreak y = true → y = ' ' ∨ y = '\t' :=
      forall_mem_of_all (by decide)
    subst hv'
    rcases hblank y hy (hbreak y rfl) with rfl | rfl <;> rcases hx with rfl | rfl
    · rfl
    · exact hP
    · exact hP.symm
    · rfl

theorem LedAlike.endsAlike (h : LedAlike v v') (hbreak : ∀ y ∈ v.head?, isBreak y = true) :
    EndsAlike v v' := by
  have hends : ∀ y ∈ v'.head?, isBreak y = true :=
    h.head (P := fun o => ∀ y ∈ o, isBreak y = true) (by simp; decide) (by simp; decide) hbreak
  have hnewline : v.head? = some '\n' ↔ v'.head? = some '\n' :=
    h.head_iff (P := (· = some '\n')) hbreak (by decide)
  have hparen : v.head? = some '(' ↔ v'.head? = some '(' :=
    h.head_iff (P := (· = some '(')) hbreak (by decide)
  have hnil : v.head? = none ↔ v'.head? = none :=
    h.head_iff (P := (· = none)) hbreak (by decide)
  cases v with
  | nil =>
    obtain rfl := List.head?_eq_none_iff.mp (hnil.mp rfl)
    exact ⟨fun _ h => h, fun _ _ _ => rfl, hends⟩
  | cons y v =>
    cases v' with
    | nil => exact absurd (hnil.mpr rfl) (by simp)
    | cons y' v' =>
      apply endsAlike_break (mem_breaks_iff.mpr (hbreak y rfl)) (mem_breaks_iff.mpr (hends y' rfl))
      · simpa using hnewline.mpr
      · simpa using hparen

/-- A word ends at the end or in front of a break. -/
theorem isBreak_of_readWord (h : readWord limit base a c = .ok (word, after)) :
    ∀ y ∈ after.rest.head?, isBreak y = true := by
  fun_induction readWord limit base a c with
  | case1 a c hrest hstack =>
    obtain ⟨-, rfl⟩ := Prod.mk.inj (Except.ok.inj h)
    simp [hrest]
  | case3 a c x t hrest hbreak =>
    obtain ⟨-, rfl⟩ := Prod.mk.inj (Except.ok.inj h)
    intro y hy
    rw [hrest] at hy
    exact Option.some.inj hy ▸ (Bool.and_eq_true_iff.mp hbreak).2
  | case5 a c depth x t hrest hbreak deeper hdeep piece n hpiece ih => exact ih h
  | _ => exact absurd h (by simp)

/-! ## Where a token begins -/

theorem blankStep_cons_eq_zero_iff :
    Cursor.blankStep (x :: t) = 0 ↔
      x ∉ [' ', '\t', '\r', '#'] ∧ (x = '\\' → t.head? ≠ some '\n') := by
  constructor
  · intro h
    constructor
    · intro hx
      simp only [List.mem_cons, List.not_mem_nil, or_false] at hx
      rcases hx with rfl | rfl | rfl | rfl <;> simp [Cursor.blankStep] at h
    · rintro rfl ht
      obtain ⟨u, rfl⟩ := List.head?_eq_some_iff.mp ht
      simp [Cursor.blankStep] at h
  · rintro ⟨hx, hslash⟩
    unfold Cursor.blankStep
    split <;> simp_all

/-- No gap comes to begin where a token does. -/
theorem LedAlike.blankStep (h : LedAlike v v') (hw : w ≠ [])
    (hblank : Cursor.blankStep (w ++ v) = 0) : Cursor.blankStep (w ++ v') = 0 := by
  obtain ⟨x, w, rfl⟩ := List.exists_cons_of_ne_nil hw
  rw [List.cons_append, blankStep_cons_eq_zero_iff] at hblank ⊢
  obtain ⟨hx, hslash⟩ := hblank
  apply And.intro hx
  intro hx
  cases w with
  | nil =>
    exact h.head (P := (· ≠ some '\n')) (by decide) (by decide) (hslash hx)
  | cons y w => exact hslash hx

/-! ## Tokens other than words -/

/-- An operator is read where no longer one begins. -/
theorem leading?_text_append_iff (o : Operator) (v : Text) :
    Operator.leading? (o.text ++ v) = some o ↔
      ∀ x ∈ v.head?, o.text ++ [x] ∉ Operator.longestFirst.map (·.text) := by
  cases v with
  | nil =>
    have hends : ∀ o ∈ Operator.longestFirst, Operator.leading? (o.text ++ []) = some o := by
      decide
    simpa using hends o (Operator.mem_longestFirst o)
  | cons x v =>
    rcases o with c | _ | _ | _ | _ | _ | _ | r
    case connective => cases c <;> simp [Operator.leading?, Operator.longestFirst, Operator.text,
      Redirect.text, Connective.text, List.isPrefixOf, @eq_comm _ x]
    case redirect =>
      cases r
      case input =>
        simp [Operator.leading?, Operator.longestFirst, Operator.text, Redirect.text,
          Connective.text, List.isPrefixOf, @eq_comm _ x]
        tauto
      all_goals simp [Operator.leading?, Operator.longestFirst, Operator.text, Redirect.text,
        Connective.text, List.isPrefixOf, @eq_comm _ x]
    all_goals simp [Operator.leading?, Operator.longestFirst, Operator.text, Redirect.text,
      Connective.text, List.isPrefixOf, @eq_comm _ x]

theorem LedAlike.leading? {o : Operator} (h : LedAlike v v')
    (ho : Operator.leading? (o.text ++ v) = some o) :
    Operator.leading? (o.text ++ v') = some o := by
  have hblank : ∀ x ∈ [' ', '\t'], ∀ o ∈ Operator.longestFirst,
      o.text ++ [x] ∉ Operator.longestFirst.map (·.text) :=
    forall_mem_of_all (by decide)
  have hmem := Operator.mem_longestFirst o
  rw [leading?_text_append_iff] at ho ⊢
  apply h.head (P := fun y => ∀ x ∈ y, o.text ++ [x] ∉ Operator.longestFirst.map (·.text)) _ _ ho
  · intro x hx
    exact Option.some.inj hx ▸ hblank ' ' (by simp) o hmem
  · intro x hx
    exact Option.some.inj hx ▸ hblank '\t' (by simp) o hmem

theorem startsBang_cons_iff :
    Scanner.startsBang (x :: t) = true ↔
      x = '!' ∧ t.head? ∈ [none, some ' ', some '\t', some '\n'] := by
  by_cases hx : x = '!'
  · subst hx
    cases t <;> simp [Scanner.startsBang]
  · refine iff_of_false ?_ (fun h => hx h.1)
    unfold Scanner.startsBang
    split <;> simp_all

/-- Digits and behind them a `<` or a `>`. -/
theorem ioNumberLength?_eq_some_iff :
    Scanner.ioNumberLength? t = some n ↔
      ∃ d x u, t = d ++ x :: u ∧ d.length = n ∧ d ≠ [] ∧ (∀ y ∈ d, y.isDigit = true) ∧
        (x = '<' ∨ x = '>') := by
  constructor
  · intro h
    unfold Scanner.ioNumberLength? at h
    split at h
    · rename_i y d x u hdigits hrest
      split at h
      · rename_i hx
        refine ⟨y :: d, x, u, ?_, Option.some.inj h, List.cons_ne_nil y d, ?_, hx⟩
        · rw [← hdigits, ← hrest, List.takeWhile_append_dropWhile]
        · intro z hz
          exact List.mem_takeWhile_imp (hdigits ▸ hz)
      · exact absurd h (by simp)
    · exact absurd h (by simp)
  · rintro ⟨d, x, u, rfl, rfl, hne, hdigits, hx⟩
    obtain ⟨y, d, rfl⟩ := List.exists_cons_of_ne_nil hne
    have hdigit : x.isDigit = false := by rcases hx with rfl | rfl <;> decide
    have htake : (y :: d ++ x :: u).takeWhile Char.isDigit = y :: d := by
      rw [List.takeWhile_append_of_pos hdigits, List.takeWhile_cons_of_neg (by simp [hdigit]),
        List.append_nil]
    have hdrop : (y :: d ++ x :: u).dropWhile Char.isDigit = x :: u := by
      rw [List.dropWhile_append_of_pos hdigits, List.dropWhile_cons_of_neg (by simp [hdigit])]
    unfold Scanner.ioNumberLength?
    rw [htake, hdrop]
    exact if_pos hx

/-- Where a word could go on there is no newline and no operator. -/
theorem leadingLexeme?_cons (hx : isBreak x = false) :
    Scanner.leadingLexeme? (x :: t) =
      if Scanner.startsBang (x :: t) then some (.bang, 1)
      else (Scanner.ioNumberLength? (x :: t)).map fun n => (.ioNumber, n) := by
  have hnewline : x ≠ '\n' := by
    rintro rfl
    exact absurd hx (by decide)
  unfold Scanner.leadingLexeme?
  rw [if_neg (by simpa using hnewline), leading?_of_isBreak_eq_false hx]

theorem isBreak_of_isDigit (hx : x.isDigit = true) : isBreak x = false := by
  have hbreaks : ∀ x ∈ breaks, x.isDigit = false := forall_mem_of_all (by decide)
  rw [Bool.eq_false_iff]
  intro hbreak
  rw [hbreaks x (mem_breaks_iff.mpr hbreak)] at hx
  exact absurd hx (by simp)

/-- A token other than a word is read alike. -/
theorem LedAlike.leadingLexeme? {lexeme : Lexeme} (h : LedAlike v v')
    (hlexeme : Scanner.leadingLexeme? (w ++ v) = some (lexeme, w.length)) :
    Scanner.leadingLexeme? (w ++ v') = some (lexeme, w.length) := by
  have hw : w ≠ [] := List.length_pos_iff.mp (Scanner.leadingLexeme?_pos hlexeme).1
  have hhead : (w ++ v').head? = (w ++ v).head? := by
    rw [List.head?_append_of_ne_nil w hw, List.head?_append_of_ne_nil w hw]
  unfold Scanner.leadingLexeme? at hlexeme
  split at hlexeme
  · rename_i hnewline
    unfold Scanner.leadingLexeme?
    rw [if_pos (hhead.trans hnewline), hlexeme]
  rename_i hnewline
  split at hlexeme
  · rename_i o ho
    obtain ⟨rfl, hlength⟩ := Prod.mk.inj (Option.some.inj hlexeme)
    have hprefix : o.text <+: w ++ v := by
      have hfound := List.find?_some (show Operator.longestFirst.find? _ = some o from ho)
      exact List.isPrefixOf_iff_prefix.mp hfound
    obtain rfl : o.text = w := by
      rw [List.prefix_iff_eq_take.mp hprefix, hlength, List.take_left]
    unfold Scanner.leadingLexeme?
    rw [if_neg (hhead ▸ hnewline), h.leading? ho]
  · split at hlexeme
    · rename_i hbang
      obtain ⟨rfl, hlength⟩ := Prod.mk.inj (Option.some.inj hlexeme)
      obtain ⟨x, rfl⟩ := List.length_eq_one_iff.mp hlength.symm
      obtain ⟨rfl, hv⟩ := startsBang_cons_iff.mp hbang
      have hbang' : Scanner.startsBang ('!' :: v') = true := by
        apply startsBang_cons_iff.mpr ⟨rfl, _⟩
        exact h.head (P := (· ∈ [none, some ' ', some '\t', some '\n'])) (by decide) (by decide) hv
      show Scanner.leadingLexeme? ('!' :: v') = _
      rw [leadingLexeme?_cons (by decide), if_pos hbang']
      rfl
    · obtain ⟨n, hn, heq⟩ := Option.map_eq_some_iff.mp hlexeme
      obtain ⟨rfl, rfl⟩ := Prod.mk.inj heq
      obtain ⟨d, x, u, heq, hlength, hne, hdigits, hx⟩ := ioNumberLength?_eq_some_iff.mp hn
      obtain ⟨rfl, rfl⟩ := List.append_inj heq hlength.symm
      -- No gap begins with the redirection.
      obtain ⟨u', rfl⟩ : ∃ u', v' = x :: u' := by
        cases h with
        | same h => exact List.head?_eq_some_iff.mp (h.symm.trans rfl)
        | blank hv =>
          obtain ⟨y, _, hy, hmem⟩ := head?_of_blankStep hv
          obtain ⟨rfl, -⟩ := List.cons.inj hy
          rcases hx with rfl | rfl <;> exact absurd hmem (by decide)
      have hn' := ioNumberLength?_eq_some_iff.mpr ⟨w, x, u', rfl, rfl, hne, hdigits, hx⟩
      obtain ⟨y, w, rfl⟩ := List.exists_cons_of_ne_nil hne
      have hy : y.isDigit = true := hdigits y List.mem_cons_self
      have hbang : Scanner.startsBang (y :: (w ++ x :: u')) ≠ true := by
        intro hbang
        obtain ⟨rfl, -⟩ := startsBang_cons_iff.mp hbang
        exact absurd hy (by decide)
      rw [List.cons_append] at hn' ⊢
      rw [leadingLexeme?_cons (isBreak_of_isDigit hy), if_neg hbang, hn']
      rfl

theorem LedAlike.ioNumberLength? (h : LedAlike v v') (hbreak : ∀ y ∈ v.head?, isBreak y = true)
    (hn : Scanner.ioNumberLength? (w ++ v') = some n) :
    Scanner.ioNumberLength? (w ++ v) = some n := by
  rw [ioNumberLength?_eq_some_iff] at hn ⊢
  obtain ⟨d, x, u, heq, hlength, hne, hdigits, hx⟩ := hn
  -- Right behind the digits the redirection is the same.
  have hbehind : w = d → v' = x :: u → ∃ u, w ++ v = d ++ x :: u := by
    rintro rfl rfl
    have hblank : some ' ' = some x ↔ some '\t' = some x := by rcases hx with rfl | rfl <;> decide
    obtain ⟨u', rfl⟩ := List.head?_eq_some_iff.mp
      ((h.head_iff (P := (· = some x)) hbreak hblank).mpr rfl)
    exact ⟨u', rfl⟩
  have hfront : ∃ u, w ++ v = d ++ x :: u := by
    rcases List.append_eq_append_iff.mp heq with ⟨e, hd, hv'⟩ | ⟨e, hw, hu⟩
    · cases e with
      | nil => exact hbehind (by rw [hd, List.append_nil]) hv'
      | cons y e =>
        -- A digit would go on the word.
        have hy := (h.endsAlike hbreak).ends y (hv' ▸ rfl)
        rw [isBreak_of_isDigit (hdigits y (by simp [hd]))] at hy
        exact absurd hy (by simp)
    · cases e with
      | nil => exact hbehind (by rw [hw, List.append_nil]) hu.symm
      | cons y e =>
        obtain ⟨rfl, -⟩ := List.cons.inj hu
        exact ⟨e ++ v, by rw [hw, List.append_assoc, List.cons_append]⟩
  obtain ⟨u', hu'⟩ := hfront
  exact ⟨d, x, u', hu', hlength, hne, hdigits, hx⟩

/-- Where a word is read, no other token comes to begin. -/
theorem LedAlike.leadingLexeme?_eq_none (h : LedAlike v v')
    (hbreak : ∀ y ∈ v.head?, isBreak y = true) (hx : isBreak x = false)
    (hnone : Scanner.leadingLexeme? (x :: (w ++ v)) = none) :
    Scanner.leadingLexeme? (x :: (w ++ v')) = none := by
  have hhead : ∀ {P : Option Char → Prop}, (P (some ' ') ↔ P (some '\t')) →
      (P (w ++ v).head? ↔ P (w ++ v').head?) := by
    intro P hP
    cases w with
    | nil => exact h.head_iff hbreak hP
    | cons y w => rfl
  rw [leadingLexeme?_cons hx] at hnone ⊢
  split at hnone
  · exact absurd hnone (by simp)
  · rename_i hbang
    have hbang' : ¬ Scanner.startsBang (x :: (w ++ v')) = true := by
      rw [startsBang_cons_iff] at hbang ⊢
      rwa [← hhead (P := (· ∈ [none, some ' ', some '\t', some '\n'])) (by decide)]
    rw [if_neg hbang']
    rw [Option.map_eq_none_iff, Option.eq_none_iff_forall_ne_some] at hnone ⊢
    intro n hn
    exact hnone n (h.ioNumberLength? (w := x :: w) hbreak hn)

/-! ## One token -/

theorem Cursor.advance_length_take (n : Nat) (c : Cursor) :
    c.advance (c.rest.take n).length = c.advance n := by
  induction n generalizing c with
  | zero => rfl
  | succ n ih =>
    obtain ⟨rest, offset, position⟩ := c
    cases rest with
    | nil => rfl
    | cons x t => exact ih ⟨t, offset + 1, position.next x⟩

theorem Cursor.skipBlanks_skipBlanks (c : Cursor) : c.skipBlanks.skipBlanks = c.skipBlanks :=
  skipBlanks_eq_self (blankStep_skipBlanks c)

namespace Scanner

variable {s s' s₁ : Scanner} {token : Token}

theorem next_skipBlanks (hsize : s.size ≤ limits.inputSize) :
    { s with cursor := s.cursor.skipBlanks }.next limits = s.next limits := by
  unfold next
  rw [if_neg (Int.not_lt.mpr hsize), if_neg (Int.not_lt.mpr hsize)]
  dsimp only
  rw [Cursor.skipBlanks_skipBlanks]

/-- A token before the end is read behind the blanks, and there is room for it. -/
theorem readToken_of_next (h : s.next limits = (.ok token, s₁)) (heof : token.kind ≠ .eof) :
    (s.count + 1 : Nat) ≤ limits.tokens ∧
      { s with cursor := s.cursor.skipBlanks, count := s.count + 1 }.readToken limits =
        (.ok token, s₁) := by
  unfold next at h
  split at h
  · exact absurd (Prod.mk.inj h).1 (by simp)
  · dsimp only at h
    split at h
    · exact absurd (Except.ok.inj (Prod.mk.inj h).1 ▸ rfl) heof
    · split at h
      · exact absurd (Prod.mk.inj h).1 (by simp)
      · rename_i hcount
        exact ⟨Int.not_lt.mp hcount, h⟩

theorem readToken_cases (h : s.readToken limits = (.ok token, s₁)) :
    (∃ n, leadingLexeme? s.cursor.rest = some (token.lexeme, n) ∧
        s₁.cursor = s.cursor.advance n) ∨
      leadingLexeme? s.cursor.rest = none ∧ ∃ w, token.lexeme = .word w := by
  unfold readToken at h
  dsimp only at h
  split at h
  · rename_i lexeme n hlexeme
    obtain ⟨htoken, rfl⟩ := Prod.mk.inj h
    exact .inl ⟨n, Except.ok.inj htoken ▸ hlexeme, rfl⟩
  · rename_i hlexeme
    split at h
    · obtain ⟨htoken, -⟩ := Prod.mk.inj h
      exact .inr ⟨hlexeme, _, congrArg Token.lexeme (Except.ok.inj htoken).symm⟩
    · exact absurd (Prod.mk.inj h).1 (by simp)

/-- A token is read wherever its text stands in front of what leads alike. -/
theorem readToken_moved (s' : Scanner) (h : s.readToken limits = (.ok token, s₁))
    (hne : s.cursor.rest ≠ []) (hblank : Cursor.blankStep s.cursor.rest = 0)
    (hdepth : s'.depth = s.depth) (hrest : s'.cursor.rest = token.text ++ v')
    (hled : LedAlike s₁.cursor.rest v') :
    ∃ token', s'.readToken limits =
        (.ok token', { s' with cursor := s'.cursor.advance token.text.length }) ∧
      token'.lexeme = token.lexeme ∧ token'.text = token.text := by
  obtain ⟨n, hn, rfl, -, htext, -, -, hword⟩ := readToken_ok hne hblank h
  have hsplit : s.cursor.rest = token.text ++ (s.cursor.advance n).rest := by
    rw [htext, Cursor.rest_advance, List.take_append_drop]
  have hadvance : s.cursor.advance token.text.length = s.cursor.advance n := by
    rw [htext, Cursor.advance_length_take]
  have hslice : s'.cursor.rest.take
      ((s'.cursor.advance token.text.length).offset - s'.cursor.offset) = token.text := by
    rw [Cursor.take_offset_advance, hrest, List.take_left]
  rcases readToken_cases h with ⟨m, hlexeme, hm⟩ | ⟨hnone, w, hw⟩
  · have hlength : token.text.length = m := by
      rw [htext, Cursor.take_of_advance_eq hm, List.length_take,
        Nat.min_eq_left (length_of_leadingLexeme? hlexeme)]
    have hlexeme' := hled.leadingLexeme? (hsplit ▸ hlength ▸ hlexeme)
    refine ⟨⟨token.lexeme, _, s'.cursor.position,
      (s'.cursor.advance token.text.length).position⟩, ?_, rfl, hslice⟩
    unfold readToken
    dsimp only
    rw [hrest, hlexeme', ← hrest]
  · have hwtext : token.text ≠ [] := by
      rw [htext, Ne, List.take_eq_nil_iff, not_or]
      exact ⟨Nat.ne_of_gt hn, hne⟩
    have hread := hword w hw
    have hbreak := isBreak_of_readWord hread
    have hnone' : leadingLexeme? s'.cursor.rest = none := by
      obtain ⟨x, t, ht⟩ := List.exists_cons_of_ne_nil hwtext
      rw [hsplit, ht, List.cons_append] at hblank hnone
      rw [hrest, ht]
      exact hled.leadingLexeme?_eq_none hbreak (isBreak_eq_false hblank hnone) hnone
    have hread' := readWord_moved (b := {}) (Int.le_refl _) (hled.endsAlike hbreak) rfl hsplit hrest
      (hadvance ▸ hread)
    rw [← hdepth] at hread'
    refine ⟨⟨.word w, _, s'.cursor.position,
      (s'.cursor.advance token.text.length).position⟩, ?_, hw.symm, hslice⟩
    unfold readToken
    dsimp only
    rw [hnone']
    dsimp only
    rw [hread']

/-- Two scanners that have handed out as many tokens, with as much open. -/
structure Abreast (limits : Limits) (s s' : Scanner) : Prop where
  depth : s'.depth = s.depth
  count : s'.count = s.count
  size : s'.size ≤ limits.inputSize

/-- A token is handed out wherever its text stands behind a gap, in front of what leads alike. -/
theorem Abreast.next (hs : Abreast limits s s') (h : s.next limits = (.ok token, s₁))
    (hrest : s'.cursor.rest = g ++ (token.text ++ v')) (hgap : Gap (token.text ++ v') g)
    (hled : LedAlike s₁.cursor.rest v') (hend : token.kind = .eof → v' = []) :
    ∃ token' s₁', s'.next limits = (.ok token', s₁') ∧ token'.lexeme = token.lexeme ∧
      token'.text = token.text ∧ s₁'.cursor.rest = v' ∧ Abreast limits s₁ s₁' := by
  rcases next_ok h with ⟨hnil, rfl, rfl⟩ | ⟨n, hn, hne, rfl, heof, htext, -⟩
  · obtain rfl := hend rfl
    have hrest' : s'.cursor.skipBlanks.rest = [] := by
      rw [hgap.skipBlanks rfl hrest, Cursor.rest_advance, hrest]
      exact List.drop_left
    exact ⟨_, _, next_end_of_skipBlanks hs.size hrest', rfl, rfl, hrest', hs.depth, hs.count,
      hs.size⟩
  · obtain ⟨hcount, hread⟩ := readToken_of_next h heof
    have hblank := Cursor.blankStep_skipBlanks s.cursor
    have hwtext : token.text ≠ [] := by
      rw [htext, Ne, List.take_eq_nil_iff, not_or]
      exact ⟨Nat.ne_of_gt hn, hne⟩
    have hblank' : Cursor.blankStep (token.text ++ v') = 0 := by
      apply hled.blankStep hwtext
      rwa [htext, Cursor.rest_advance, List.take_append_drop]
    have hskip : s'.cursor.skipBlanks.rest = token.text ++ v' := by
      rw [hgap.skipBlanks hblank' hrest, Cursor.rest_advance, hrest]
      exact List.drop_left
    obtain ⟨token', hread', hlexeme, htext'⟩ := readToken_moved
      { s' with cursor := s'.cursor.skipBlanks, count := s'.count + 1 } hread hne hblank hs.depth
      hskip hled
    refine ⟨token', ⟨s'.cursor.skipBlanks.advance token.text.length, s'.depth, s'.count + 1,
      s'.size⟩, ?_, hlexeme, htext', ?_, ?_⟩
    · have hcount' : (s'.count + 1 : Nat) ≤ limits.tokens := hs.count ▸ hcount
      have hne' : s'.cursor.skipBlanks.rest ≠ [] := by
        rw [hskip]
        exact List.append_ne_nil_of_left_ne_nil hwtext v'
      have hblanks := Cursor.blankStep_skipBlanks s'.cursor
      rw [← next_skipBlanks hs.size]
      rw [next_of_blankStep (s := { s' with cursor := s'.cursor.skipBlanks }) hs.size hcount' hne'
        hblanks]
      exact hread'
    · show (s'.cursor.skipBlanks.advance token.text.length).rest = v'
      rw [Cursor.rest_advance, hskip, List.drop_left]
    · exact ⟨hs.depth, congrArg (· + 1) hs.count, hs.size⟩

end Scanner

/-! ## Other gaps -/

/-- Spaces, tabs and escaped newlines, and at the end a comment if the place allows one. -/
inductive Filler (allows : Prop) : Text → Prop
  | nil : Filler allows []
  | blank {x : Char} {g : Text} (hx : x = ' ' ∨ x = '\t') (h : Filler allows g) :
      Filler allows (x :: g)
  | escapedNewline {g : Text} (h : Filler allows g) : Filler allows ('\\' :: '\n' :: g)
  | comment {g : Text} (hplace : allows) (hg : '\n' ∉ g) : Filler allows ('#' :: g)

/-- What may stand in front of the token in place of the gap `old`: the gap itself, and unless it is
empty any filler that begins with a space or a tab. A comment may stand in front of a newline and at
the end. -/
inductive Respaced (token : Token) (old : Text) : Text → Prop
  | same : Respaced token old old
  | filled {x : Char} {g : Text} (hold : old ≠ []) (hx : x = ' ' ∨ x = '\t')
      (hg : Filler (token.kind = .newline ∨ token.kind = .eof) g) : Respaced token old (x :: g)

/-- The tokens with these gaps in front of them. -/
def laidOut (gaps : List Text) (tokens : List Token) : Text :=
  (List.zipWith (· ++ ·) gaps (tokens.map (·.text))).flatten

theorem Filler.gap {allows : Prop} (h : Filler allows g)
    (hplace : allows → ∀ x ∈ v.head?, x = '\n') : Gap v g := by
  induction h with
  | nil => exact .nil
  | blank hx _ ih => exact .blank (by tauto) ih
  | escapedNewline _ ih => exact .escapedNewline ih
  | comment hallows hg => exact .comment hg (hplace hallows)

theorem Gap.mono (h : Gap v g) (hhead : v.head? = v'.head?) : Gap v' g := by
  induction h with
  | nil => exact .nil
  | blank hx _ ih => exact .blank hx ih
  | escapedNewline _ ih => exact .escapedNewline ih
  | comment hg hbehind => exact .comment hg (hhead ▸ hbehind)

theorem Gap.blankStep_ne_zero (h : Gap v g) (hg : g ≠ []) : Cursor.blankStep (g ++ v) ≠ 0 := by
  cases h with
  | nil => exact absurd rfl hg
  | blank hx _ => rcases hx with rfl | rfl | rfl <;> exact Nat.one_ne_zero
  | escapedNewline _ => exact Nat.succ_ne_zero 1
  | comment _ _ => exact Nat.succ_ne_zero _

section

variable {token : Token}

theorem Respaced.gap (h : Respaced token g g') (hgap : Gap v g) (hhead : v.head? = v'.head?)
    (hcomment : token.kind = .newline ∨ token.kind = .eof → ∀ x ∈ v'.head?, x = '\n') :
    Gap v' g' := by
  cases h with
  | same => exact hgap.mono hhead
  | filled _ hx hg => exact .blank (by tauto) (hg.gap hcomment)

theorem Respaced.ledAlike (h : Respaced token g g') (hgap : Gap v g) (hhead : v.head? = v'.head?) :
    LedAlike (g ++ v) (g' ++ v') := by
  cases h with
  | same =>
    apply LedAlike.same
    cases g with
    | nil => exact hhead
    | cons x g => rfl
  | filled hold hx _ => exact .blank (hgap.blankStep_ne_zero hold) rfl hx

end

/-! ## All tokens -/

/-- These gaps may stand in front of the tokens of the text, from the offset `n` on. -/
def Respacing (text : Text) (n : Nat) (tokens : List Token) (gs : List Text) : Prop :=
  List.Forall₂ (fun p g => Respaced p.1 p.2 g) (tokens.zip (gaps text n tokens)) gs

section

variable {text : Text} {token : Token} {tokens : List Token} {gs : List Text} {s s' s₁ : Scanner}

theorem laidOut_cons (g : Text) (gs : List Text) (token : Token) (tokens : List Token) :
    laidOut (g :: gs) (token :: tokens) = g ++ (token.text ++ laidOut gs tokens) := by
  simp [laidOut]

theorem Respacing.exists_cons (h : Respacing text n (token :: tokens) gs) :
    ∃ g gs', gs = g :: gs' ∧
      Respaced token (text.extract n (token.start.offsetIn text)) g ∧
      Respacing text (token.stop.offsetIn text) tokens gs' := by
  cases h with
  | cons hg hgs => exact ⟨_, _, rfl, hg, hgs⟩

theorem Respacing.eq_nil (h : Respacing text n [] gs) : gs = [] := by
  cases h with
  | nil => rfl

theorem Token.Stands.drop_eq (h : token.Stands text n) :
    text.drop n = text.extract n (token.start.offsetIn text) ++
      (token.text ++ text.drop (token.stop.offsetIn text)) := by
  rw [h.text_eq, extract_append_drop text h.start_le_stop, extract_append_drop text h.le_start]

theorem Token.Stands.gap_eq (h : token.Stands text n) :
    Gap (token.text ++ text.drop (token.stop.offsetIn text))
      (text.extract n (token.start.offsetIn text)) := by
  rw [h.text_eq, extract_append_drop text h.start_le_stop]
  exact h.gap

/-- What is left of the text and what is laid out begin alike for the token in front of them. -/
theorem Tiling.ledAlike (h : Tiling text n tokens) (hgs : Respacing text n tokens gs) :
    LedAlike (text.drop n) (laidOut gs tokens) := by
  cases h with
  | @last _ e h heof htext hend =>
    obtain ⟨g, gs, rfl, hg, hnil⟩ := hgs.exists_cons
    obtain rfl := hnil.eq_nil
    have hstop : text.drop (e.stop.offsetIn text) = [] :=
      List.drop_eq_nil_of_le (hend ▸ h.start_le_stop)
    rw [laidOut_cons, h.drop_eq]
    apply hg.ledAlike h.gap_eq
    rw [htext, hstop]
    rfl
  | @cons _ t ts h heof htext hts =>
    obtain ⟨g, gs, rfl, hg, -⟩ := hgs.exists_cons
    rw [laidOut_cons, h.drop_eq]
    apply hg.ledAlike h.gap_eq
    rw [List.head?_append_of_ne_nil t.text htext, List.head?_append_of_ne_nil t.text htext]

theorem Scanner.text_of_newline (h : s.next limits = (.ok token, s₁))
    (hkind : token.kind = .newline) : token.text = ['\n'] := by
  have heof : token.kind ≠ .eof := by simp [hkind]
  rcases next_ok h with ⟨-, rfl, -⟩ | ⟨n, -, -, rfl, -, htext, -⟩
  · exact absurd rfl heof
  obtain ⟨-, hread⟩ := readToken_of_next h heof
  rcases readToken_cases hread with ⟨m, hlexeme, hm⟩ | ⟨-, w, hw⟩
  · rw [htext, Cursor.take_of_advance_eq hm]
    dsimp only at hlexeme
    unfold leadingLexeme? at hlexeme
    split at hlexeme
    · rename_i hnewline
      obtain ⟨u, hu⟩ := List.head?_eq_some_iff.mp hnewline
      obtain ⟨-, rfl⟩ := Prod.mk.inj (Option.some.inj hlexeme)
      rw [hu]
      rfl
    · have hother : ∀ {lexeme : Lexeme} {k : Nat}, some (lexeme, k) = some (token.lexeme, m) →
          lexeme.kind = .newline := by
        intro lexeme k heq
        rw [(Prod.mk.inj (Option.some.inj heq)).1]
        exact hkind
      split at hlexeme
      · exact absurd (hother hlexeme) (by simp [Lexeme.kind])
      · split at hlexeme
        · exact absurd (hother hlexeme) (by decide)
        · obtain ⟨k, -, heq⟩ := Option.map_eq_some_iff.mp hlexeme
          exact absurd (hother (congrArg some heq)) (by decide)
  · rw [Token.kind, hw] at hkind
    exact absurd hkind (by simp [Lexeme.kind])

/-- The scanner hands out the same tokens from the text with other gaps. -/
theorem Tiling.yields_laidOut {sₑ : Scanner} (h : Tiling text n tokens)
    (hat : s.cursor.At text) (hn : s.cursor.offset = n)
    (hyields : Scanner.Yields limits s tokens sₑ) (hs : Scanner.Abreast limits s s')
    (hgs : Respacing text n tokens gs) (hrest : s'.cursor.rest = laidOut gs tokens) :
    ∃ tokens' s₁, Scanner.Yields limits s' tokens' s₁ ∧
      tokens'.map (fun t => (t.lexeme, t.text)) = tokens.map (fun t => (t.lexeme, t.text)) := by
  induction h generalizing s s' gs with
  | @last n e h heof htext hend =>
    obtain ⟨g, gs, rfl, hg, hnil⟩ := hgs.exists_cons
    obtain rfl := hnil.eq_nil
    cases hyields with
    | @cons _ s₁ _ _ _ hnext _ =>
      obtain ⟨-, hat₁, hoffset, -⟩ := Scanner.stands_next hat hnext
      have hstop : text.drop (e.stop.offsetIn text) = [] :=
        List.drop_eq_nil_of_le (hend ▸ h.start_le_stop)
      have hgap : Gap (e.text ++ []) g := by
        apply hg.gap h.gap_eq
        · rw [hstop]
        · rw [htext]
          simp
      have hled : LedAlike s₁.cursor.rest [] := by
        rw [hat₁.rest_eq, hoffset, hstop]
        exact .same rfl
      obtain ⟨e', s₁', hnext', hlexeme, htext', -⟩ :=
        hs.next hnext (laidOut_cons g [] e [] ▸ hrest) hgap hled fun _ => rfl
      exact ⟨[e'], s₁', .single hnext', by rw [List.map_singleton, hlexeme, htext']; rfl⟩
  | @cons n t ts h heof htext hts ih =>
    obtain ⟨g, gs, rfl, hg, hgs⟩ := hgs.exists_cons
    rw [laidOut_cons] at hrest
    cases hyields with
    | @cons _ s₁ _ _ _ hnext hyields =>
      obtain ⟨-, hat₁, hoffset, -⟩ := Scanner.stands_next hat hnext
      have hgap : Gap (t.text ++ laidOut gs ts) g := by
        apply hg.gap h.gap_eq
        · rw [List.head?_append_of_ne_nil t.text htext, List.head?_append_of_ne_nil t.text htext]
        · intro hcomment
          rw [Scanner.text_of_newline hnext (hcomment.resolve_right heof)]
          simp
      have hled : LedAlike s₁.cursor.rest (laidOut gs ts) := by
        rw [hat₁.rest_eq, hoffset]
        exact hts.ledAlike hgs
      obtain ⟨t', s₁', hnext', hlexeme, htext', hrest', hs'⟩ :=
        hs.next hnext hrest hgap hled fun h => absurd h heof
      obtain ⟨ts', s₂, hyields', hmap⟩ := ih hat₁ hoffset hyields hs' hgs hrest'
      refine ⟨t' :: ts', s₂, .cons hnext' hyields', ?_⟩
      rw [List.map_cons, List.map_cons, hlexeme, htext', hmap]

end

/-- Other gaps between the tokens of a text, none where there was none, change the positions of its
tokens and nothing else. -/
theorem tokenize_laidOut {text : Text} {tokens : List Token} {gs : List Text}
    (h : tokenize limits text = .ok tokens) (hgs : Respacing text 0 tokens gs)
    (hsize : (laidOut gs tokens).length ≤ limits.inputSize) :
    ∃ tokens', tokenize limits (laidOut gs tokens) = .ok tokens' ∧
      tokens'.map (fun t => (t.lexeme, t.text)) = tokens.map (fun t => (t.lexeme, t.text)) := by
  have htiling : Tiling text 0 tokens :=
    Scanner.tiling_of_tokensUpTo (s := .ofText text) (Cursor.at_ofText text) (Nat.le_refl _) h
  obtain ⟨sₑ, hyields⟩ := Scanner.yields_of_tokensUpTo h
  have hs : Scanner.Abreast limits (.ofText text) (.ofText (laidOut gs tokens)) :=
    ⟨rfl, rfl, hsize⟩
  obtain ⟨tokens', s₁, hyields', hmap⟩ :=
    htiling.yields_laidOut (Cursor.at_ofText text) rfl hyields hs hgs rfl
  refine ⟨tokens', ?_, hmap⟩
  -- The last token, and no other, is the end token here as well.
  obtain ⟨ts, e, rfl, heof, -, -, hts⟩ := htiling.ends
  rw [List.map_append] at hmap
  obtain ⟨ts', es, rfl, hts', hes⟩ := List.map_eq_append_iff.mp hmap
  obtain ⟨e', rfl, he'⟩ := List.map_eq_singleton_iff.mp hes
  have hkinds : ∀ t' ∈ ts', t'.kind ≠ .eof := by
    intro t' ht'
    have hmem : (t'.lexeme, t'.text) ∈ ts.map (fun t => (t.lexeme, t.text)) :=
      hts' ▸ List.mem_map_of_mem ht'
    obtain ⟨t, ht, heq⟩ := List.mem_map.mp hmem
    have hkind : t'.kind = t.kind := congrArg Lexeme.kind (Prod.mk.inj heq).1.symm
    exact hkind ▸ (hts t ht).1
  have hend : e'.kind = .eof := (congrArg Lexeme.kind (Prod.mk.inj he').1).trans heof
  exact hyields'.tokensUpTo hkinds hend (Nat.le_refl _)

/-- A `!`, a number in front of a redirection, and gaps with an escaped newline, a comment and a
carriage return. -/
theorem laidOut_of_bang_and_number : ∃ tokens gs,
    tokenize {} "! A # x\n2> \\\nf \r".toList = .ok tokens ∧
      gs = [[], "\t\\\n".toList, [' '], [], [], ['\t'], " \t#y".toList] ∧
      Respacing "! A # x\n2> \\\nf \r".toList 0 tokens gs ∧
      laidOut gs tokens = "!\t\\\nA \n2>\tf \t#y".toList ∧
      (laidOut gs tokens).length ≤ ({} : Limits).inputSize ∧
      ∃ tokens', tokenize {} (laidOut gs tokens) = .ok tokens' ∧
        tokens'.map (fun t => (t.lexeme, t.text)) = tokens.map (fun t => (t.lexeme, t.text)) := by
  have h : tokenize {} "! A # x\n2> \\\nf \r".toList = .ok
      [⟨.bang, ['!'], ⟨1, 1⟩, ⟨1, 2⟩⟩, ⟨.word [.literal ['A']], ['A'], ⟨1, 3⟩, ⟨1, 4⟩⟩,
        ⟨.newline, ['\n'], ⟨1, 8⟩, ⟨2, 1⟩⟩, ⟨.ioNumber, ['2'], ⟨2, 1⟩, ⟨2, 2⟩⟩,
        ⟨.operator (.redirect .output), ['>'], ⟨2, 2⟩, ⟨2, 3⟩⟩,
        ⟨.word [.literal ['f']], ['f'], ⟨3, 1⟩, ⟨3, 2⟩⟩, .eof ⟨3, 4⟩] := by
    with_unfolding_all rfl
  have hgs : Respacing "! A # x\n2> \\\nf \r".toList 0
      [⟨.bang, ['!'], ⟨1, 1⟩, ⟨1, 2⟩⟩, ⟨.word [.literal ['A']], ['A'], ⟨1, 3⟩, ⟨1, 4⟩⟩,
        ⟨.newline, ['\n'], ⟨1, 8⟩, ⟨2, 1⟩⟩, ⟨.ioNumber, ['2'], ⟨2, 1⟩, ⟨2, 2⟩⟩,
        ⟨.operator (.redirect .output), ['>'], ⟨2, 2⟩, ⟨2, 3⟩⟩,
        ⟨.word [.literal ['f']], ['f'], ⟨3, 1⟩, ⟨3, 2⟩⟩, .eof ⟨3, 4⟩]
      [[], "\t\\\n".toList, [' '], [], [], ['\t'], " \t#y".toList] := by
    apply List.Forall₂.cons .same
    apply List.Forall₂.cons (.filled (by decide) (.inr rfl) (.escapedNewline .nil))
    apply List.Forall₂.cons (.filled (by decide) (.inl rfl) .nil)
    apply List.Forall₂.cons .same
    apply List.Forall₂.cons .same
    apply List.Forall₂.cons (.filled (by decide) (.inr rfl) .nil)
    apply List.Forall₂.cons _ .nil
    exact .filled (by decide) (.inl rfl) (.blank (.inr rfl) (.comment (.inr rfl) (by decide)))
  exact ⟨_, _, h, rfl, hgs, by decide, by decide, tokenize_laidOut h hgs (by decide)⟩

end EnvScript
