import EnvScript.Proofs.Word.Spelled

/-!
# Quoting styles

There are four ways to write a plain text in a word: in single quotes, in double quotes with a
backslash before the signs that have a meaning there, with a backslash before every character, and
bare, where no character has a meaning. Whatever the styles, texts written side by side spell what
they are together.
-/

namespace EnvScript

inductive QuotingStyle where
  | single
  | double
  | escaped
  | bare
  deriving DecidableEq, Repr

/-- The characters before which double quotes need a backslash. -/
def needsEscape (x : Char) : Bool := "\\$`\"".toList.contains x

def doubleQuoted (x : Char) : Text := if needsEscape x then ['\\', x] else [x]

namespace QuotingStyle

/-- What can be written in the style. -/
def Allows : QuotingStyle → Text → Prop
  | .single, t => '\'' ∉ t
  | .double, _ => True
  | .escaped, t => '\n' ∉ t
  | .bare, t => ∀ x ∈ t, isSafe x = true

def render : QuotingStyle → Text → Text
  | .single, t => '\'' :: (t ++ ['\''])
  | .double, t => '"' :: (t.flatMap doubleQuoted ++ ['"'])
  | .escaped, t => t.flatMap (['\\', ·])
  | .bare, t => t

instance : DecidableRel Allows := fun style t =>
  match style with
  | .single => inferInstanceAs (Decidable ('\'' ∉ t))
  | .double => inferInstanceAs (Decidable True)
  | .escaped => inferInstanceAs (Decidable ('\n' ∉ t))
  | .bare => decidable_of_iff (t.all isSafe = true) List.all_eq_true

end QuotingStyle

/-- A text with a style in which it can be written. -/
structure Quotation where
  style : QuotingStyle
  text : Text
  allowed : style.Allows text

def Quotation.rendering (q : Quotation) : Text := q.style.render q.text

variable {x : Char} {s t u v : Text} {c : Cursor} {limit : Int} {base : Nat} {d e : Draft}

/-! ## Drafts with a value -/

theorem expandWord_append (limits : Limits) (context : Context) (w w' : Word) :
    expandWord limits context (w ++ w') = (expandWord limits context w).bind fun v =>
      (expandWord limits context w').map (v ++ ·) := by
  induction w with
  | nil =>
    rw [List.nil_append, expandWord]
    cases expandWord limits context w' <;> rfl
  | cons part parts ih =>
    rw [List.cons_append, expandWord, expandWord, ih]
    cases expandPart limits context part with
    | error e => rfl
    | ok y =>
      cases expandWord limits context parts with
      | error e => rfl
      | ok v =>
        cases expandWord limits context w' with
        | error e => rfl
        | ok v' => exact congrArg Except.ok (List.append_assoc y v v').symm

/-- No context and no limit changes the value of what has been read. -/
def Draft.Denotes (d : Draft) (v : Text) : Prop :=
  ∀ limits context, expandWord limits context d.word = .ok v

theorem Draft.word_eq (d : Draft) : d.word = d.parts.reverse ++ literals d.text.reverse :=
  d.closed_eq

theorem Draft.denotes_nil : Draft.Denotes {} [] := fun _ _ => expandWord.eq_1 _ _

theorem Draft.Denotes.addText (h : d.Denotes v) (x : Char) : (d.addText x).Denotes (v ++ [x]) := by
  intro limits context
  have hliterals : ∀ t, expandWord limits context (literals t) = .ok t := fun t => by
    rw [← List.append_nil (literals t), expandWord_literals, expandWord]
    exact congrArg Except.ok (List.append_nil t)
  have hvalue := h limits context
  rw [Draft.word_eq, expandWord_append, hliterals] at hvalue ⊢
  cases hparts : expandWord limits context d.parts.reverse with
  | error e => exact absurd (hparts ▸ hvalue) (by simp [Except.bind])
  | ok y =>
    rw [hparts] at hvalue
    obtain rfl := Except.ok.inj hvalue
    show (expandWord limits context d.parts.reverse).bind _ = _
    rw [hparts]
    simp [Except.bind, Except.map, Draft.addText]

theorem Draft.Denotes.addPart {p : Part} {y : Text} (h : d.Denotes v)
    (hp : ∀ limits context, expandPart limits context p = .ok y) :
    (d.addPart p).Denotes (v ++ y) := by
  intro limits context
  have hword : (d.addPart p).word = d.word ++ [p] := by
    simp [Draft.word, Draft.addPart, Draft.closed]
  rw [hword, expandWord_append, h limits context, expandWord, hp, expandWord]
  simp [Except.bind, Except.map, bind, pure, Except.pure]

/-! ## Inside of double quotes -/

/-- The draft after one more character, which was escaped if it has to be. -/
def Draft.quote (d : Draft) (x : Char) : Draft :=
  if needsEscape x then d.addPart (.escaped [x]) else d.addText x

theorem Draft.Denotes.quote (h : d.Denotes v) (x : Char) : (d.quote x).Denotes (v ++ [x]) := by
  unfold Draft.quote
  split
  · rename_i hx
    have hnewline : x ≠ '\n' := by
      rintro rfl
      exact absurd hx (by decide)
    have hvalue : escapedText [x] = [x] := if_neg (by simpa using hnewline)
    exact h.addPart fun limits context => by rw [expandPart, hvalue]
  · exact h.addText x

theorem Draft.Denotes.foldl_quote (h : d.Denotes v) (s : Text) :
    (s.foldl Draft.quote d).Denotes (v ++ s) := by
  induction s generalizing d v with
  | nil => rwa [List.append_nil]
  | cons x s ih =>
    have hrest := ih (h.quote x)
    rwa [List.append_assoc] at hrest

theorem isQuotedEscape_of_needsEscape (hx : needsEscape x = true) : isQuotedEscape x = true := by
  have hsub : ∀ y ∈ "\\$`\"".toList, isQuotedEscape y = true :=
    List.all_eq_true.mp (by decide)
  exact hsub x (List.contains_iff_mem.mp hx)

theorem readPiece_quote_escaped (hx : needsEscape x = true) (tilde : Bool) :
    readPiece .quote tilde '\\' (x :: t) = .ok (.part (.escaped [x]), 1) := by
  rw [readPiece, if_neg (by decide), if_neg (by decide)]
  show (if isQuotedEscape x then _ else _) = _
  rw [if_pos (isQuotedEscape_of_needsEscape hx)]
  rfl

theorem readPiece_opensQuote (tilde : Bool) :
    readPiece .word tilde '"' t = .ok (.opens .quote, 0) := by
  cases tilde <;> rfl

theorem readPiece_quote_closes (tilde : Bool) :
    readPiece .quote tilde '"' t = .ok (.closes, 0) := rfl

theorem ne_of_not_needsEscape (hx : ¬needsEscape x = true) {y : Char}
    (hy : needsEscape y = true) : x ≠ y := by
  rintro rfl
  exact hx hy

theorem readPiece_quote_plain (hx : ¬needsEscape x = true) (tilde : Bool) :
    readPiece .quote tilde x t = .ok (.plain x, 0) := by
  have hne {y : Char} := ne_of_not_needsEscape hx (y := y)
  rw [readPiece, if_neg (hne (by decide)), if_neg (hne (by decide))]
  show readQuoted x t = _
  unfold readQuoted
  rw [if_neg (hne (by decide)), if_neg (hne (by decide))]
  rfl

/-- One character in double quotes, with its backslash if it has one. -/
theorem readWord_doubleQuoted_char {p : Position} (hc : c.rest = doubleQuoted x ++ t) :
    readWord limit base ⟨d, [⟨.quote, p, e⟩]⟩ c =
      readWord limit base ⟨d.quote x, [⟨.quote, p, e⟩]⟩ (c.advance (doubleQuoted x).length) := by
  by_cases hx : needsEscape x = true
  · rw [doubleQuoted, if_pos hx] at hc ⊢
    rw [Draft.quote, if_pos hx]
    exact (readWord_of_readPiece hc (readPiece_quote_escaped hx _) rfl
      (fun hnests => absurd hnests (by simp [nests])) rfl).trans rfl
  · have hnests : nests .quote x t = false := by
      rw [nests, beq_eq_false_iff_ne.mpr (ne_of_not_needsEscape hx (y := '"') (by decide)),
        beq_eq_false_iff_ne.mpr (ne_of_not_needsEscape hx (y := '$') (by decide))]
      rfl
    rw [doubleQuoted, if_neg hx] at hc ⊢
    rw [Draft.quote, if_neg hx]
    exact (readWord_of_readPiece hc (readPiece_quote_plain hx _) rfl
      (fun h => absurd (hnests.symm.trans h) (by simp)) rfl).trans rfl

/-- What stands between double quotes, up to the closing one, is one part. The induction is on its
characters. -/
theorem readWord_doubleQuoted {p : Position} (hc : c.rest = s.flatMap doubleQuoted ++ '"' :: u) :
    readWord limit base ⟨d, [⟨.quote, p, e⟩]⟩ c =
      readWord limit base ⟨e.addPart (.double (s.foldl Draft.quote d).word), []⟩
        (c.advance ((s.flatMap doubleQuoted).length + 1)) := by
  induction s generalizing c d with
  | nil =>
    exact (readWord_of_readPiece hc (readPiece_quote_closes _) rfl
      (fun hnests => absurd hnests (by simp [nests])) rfl).trans rfl
  | cons x s ih =>
    rw [List.flatMap_cons, List.append_assoc] at hc
    have hrest : (c.advance (doubleQuoted x).length).rest = s.flatMap doubleQuoted ++ '"' :: u := by
      rw [Cursor.rest_advance, hc, List.drop_left]
    rw [readWord_doubleQuoted_char hc, ih hrest, Cursor.advance_advance, List.flatMap_cons,
      List.length_append, Nat.add_assoc]
    rfl

/-- A part in double quotes is one level deeper than the word. -/
theorem readsAs_double (hlimit : (base : Int) + 1 ≤ limit) (s : Text) :
    ReadsAs limit base ('"' :: (s.flatMap doubleQuoted ++ ['"']))
      (.double (s.foldl Draft.quote {}).word) := by
  intro d c u hc
  have hopen : readWord limit base ⟨d, []⟩ c =
      readWord limit base ⟨{}, [⟨.quote, c.position, d⟩]⟩ (c.advance 1) :=
    readWord_of_readPiece hc (readPiece_opensQuote _) rfl (fun _ => by simpa using hlimit) rfl
  have hrest : (c.advance 1).rest = s.flatMap doubleQuoted ++ '"' :: u := by
    rw [Cursor.rest_advance, hc]
    simp
  rw [hopen, readWord_doubleQuoted hrest, Cursor.advance_advance, List.length_cons,
    List.length_append, List.length_singleton, Nat.add_comm]

/-! ## Quotations side by side -/

theorem spells_double (hlimit : (base : Int) + 1 ≤ limit) (s : Text) :
    Spells limit base ('"' :: (s.flatMap doubleQuoted ++ ['"'])) s := by
  have hvalue := Draft.denotes_nil.foldl_quote s
  have h := Spells.part (readsAs_double hlimit s) (y := s)
    (fun limits context => (expandPart.eq_4 limits context _).trans (hvalue limits context)) .nil
  rwa [List.append_nil, List.append_nil] at h

theorem spells_allEscaped (hs : '\n' ∉ s) : Spells limit base (s.flatMap (['\\', ·])) s := by
  induction s with
  | nil => exact .nil
  | cons x s ih =>
    obtain ⟨hx, hs⟩ := not_or.mp (List.mem_cons.not.mp hs)
    exact (spells_escaped (Ne.symm hx)).append (ih hs)

theorem Quotation.spells (hlimit : (base : Int) + 1 ≤ limit) (q : Quotation) :
    Spells limit base q.rendering q.text := by
  obtain ⟨style, text, allowed⟩ := q
  cases style with
  | single => exact spells_single allowed
  | double => exact spells_double hlimit text
  | escaped => exact spells_allEscaped allowed
  | bare => exact spells_of_isSafe allowed

theorem spells_quotations (hlimit : (base : Int) + 1 ≤ limit) (pieces : List Quotation) :
    Spells limit base (pieces.flatMap Quotation.rendering) (pieces.flatMap Quotation.text) := by
  induction pieces with
  | nil => exact .nil
  | cons q pieces ih => exact (q.spells hlimit).append ih

end EnvScript
