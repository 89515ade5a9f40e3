import EnvScript.Proofs.Script.Nested
import EnvScript.Proofs.Token.Positions
import EnvScript.Proofs.Token.Spacing

/-!
# Compound commands up to their closing words

A compound command on a line of its own is one statement, and the script goes on behind its newline,
exactly if a `;` stands in front of each closing word. Two opening parentheses, blanks between them
or not, begin an arithmetic command.
-/

namespace EnvScript

variable {limits limits' : Limits} {limit : Int} {x : Char} {w text v further : Text}
  {ws : List Text} {s s' : Scanner} {p q : Parser}

/-- An operator where no longer one begins. -/
theorem Scanner.leadingLexeme?_text {o : Operator}
    (hv : ∀ x ∈ v.head?, o.text ++ [x] ∉ Operator.longestFirst.map (·.text)) :
    leadingLexeme? (o.text ++ v) = some (.operator o, o.text.length) := by
  have hstarts : ∀ o ∈ Operator.longestFirst, o.text ≠ [] ∧ o.text.head? ≠ some '\n' := by decide
  obtain ⟨hne, hnewline⟩ := hstarts o (Operator.mem_longestFirst o)
  unfold leadingLexeme?
  rw [List.head?_append_of_ne_nil _ hne, if_neg hnewline, (leading?_text_append_iff o v).mpr hv]

/-! ## The tokens of the words -/

namespace Nested

/-- The braces and the reserved words. -/
def keywords : List Text :=
  [['{'], ['}'], "if".toList, "then".toList, "fi".toList, "while".toList, "do".toList,
    "done".toList]

/-- The words of compound commands other than assignments. -/
def fixedWords : List Text := signs.map Prod.fst ++ keywords

def IsWord (w : Text) : Prop := w ∈ fixedWords ∨ IsAssignment w

mutual

theorem Compound.isWord (c : Compound) : ∀ w ∈ c.words, IsWord w := by
  cases c with
  | braceGroup body =>
    simp only [Compound.words, List.forall_mem_cons, List.forall_mem_append]
    exact ⟨.inl (by decide), body.isWord, .inl (by decide), by simp⟩
  | subshell body =>
    simp only [Compound.words, List.forall_mem_cons, List.forall_mem_append]
    exact ⟨.inl (by decide), body.isWord, .inl (by decide), by simp⟩
  | ifClause condition consequence =>
    simp only [Compound.words, List.forall_mem_cons, List.forall_mem_append]
    exact ⟨.inl (by decide), condition.isWord, .inl (by decide), consequence.isWord,
      .inl (by decide), by simp⟩
  | whileLoop condition body =>
    simp only [Compound.words, List.forall_mem_cons, List.forall_mem_append]
    exact ⟨.inl (by decide), condition.isWord, .inl (by decide), body.isWord, .inl (by decide),
      by simp⟩

theorem Body.isWord (body : Body) : ∀ w ∈ body.words, IsWord w := by
  cases body with
  | item i =>
    simp only [Body.words, List.forall_mem_cons, List.forall_mem_append]
    exact ⟨i.isWord, .inl (by decide), by simp⟩
  | bare c => exact c.isWord
  | cons i rest =>
    simp only [Body.words, List.forall_mem_cons, List.forall_mem_append]
    exact ⟨i.isWord, .inl (by decide), rest.isWord⟩

theorem Item.isWord (i : Item) : ∀ w ∈ i.words, IsWord w := by
  cases i with
  | assignment w hw => exact List.forall_mem_singleton.mpr (.inr hw)
  | compound c => exact c.isWord

end

/-- The words can be read under a limit of their nesting. -/
def Readable (limit : Int) (w : Text) : Prop :=
  w ∈ fixedWords ∨ IsAssignment w ∧ ∃ word, WordText limit w word

theorem Readable.mono {limit' : Int} (h : Readable limit w) (hlimit : limit ≤ limit') :
    Readable limit' w := by
  refine h.imp id ?_
  rintro ⟨hassignment, word, hword⟩
  exact ⟨hassignment, word, hword.mono hlimit⟩

theorem exists_readable (h : ∀ w ∈ ws, IsWord w) : ∃ limit, ∀ w ∈ ws, Readable limit w := by
  induction ws with
  | nil => exact ⟨0, by simp⟩
  | cons w ws ih =>
    obtain ⟨hw, hws⟩ := List.forall_mem_cons.mp h
    obtain ⟨limit, hlimit⟩ := ih hws
    rcases hw with hw | hw
    · exact ⟨limit, List.forall_mem_cons.mpr ⟨.inl hw, hlimit⟩⟩
    · obtain ⟨limit', a, word, hword, -⟩ := hw.exists_text
      refine ⟨max limit limit', List.forall_mem_cons.mpr ⟨?_, fun v hv => ?_⟩⟩
      · exact .inr ⟨hw, word, hword.mono (Int.le_max_right _ _)⟩
      · exact (hlimit v hv).mono (Int.le_max_left _ _)

/-! ## One token -/

/-- What may follow a word. -/
def StartsBlank (v : Text) : Prop := ∀ x ∈ v.head?, x ∈ [' ', '\t', '\n']

theorem StartsBlank.startsSeam (h : StartsBlank v) : StartsSeam v := by
  have hseams : ∀ x ∈ [' ', '\t', '\n'], x ∈ seams := forall_mem_of_all (by decide)
  exact fun x hx => hseams x (h x hx)

/-- The scanner hands out the token of the word and stands in front of `v`. -/
def Hands (limits : Limits) (s : Scanner) (w v : Text) : Prop :=
  ∃ t s', s.next limits = (.ok t, s') ∧ (token w).Like t ∧ s'.Facing limits v

theorem hands_of_next {lexeme : Lexeme} (h : s.Facing limits (w ++ v)) (hw : w ≠ [])
    (hblank : Cursor.blankStep (w ++ v) = 0) (hkind : lexeme.kind = (token w).kind)
    (hnext : ∃ t s', s.next limits = (.ok t, s') ∧ t.lexeme = lexeme ∧ s'.Facing limits v) :
    Hands limits s w v := by
  obtain ⟨t, s', hnext, hlexeme, h'⟩ := hnext
  exact ⟨t, s', hnext, ⟨(congrArg Lexeme.kind hlexeme).trans hkind,
    h.text_eq hw hblank hnext h'⟩, h'⟩

/-- An operator of one character in front of a blank. -/
theorem hands_sign {o : Operator} (ho : (w, o) ∈ signs) (hv : StartsBlank v)
    (h : s.Facing limits (w ++ v)) : Hands limits s w v := by
  have hlonger : ∀ x ∈ [' ', '\t', '\n'], ∀ p ∈ signs,
      p.2.text ++ [x] ∉ Operator.longestFirst.map (·.text) := forall_mem_of_all (by decide)
  have hlexeme := Scanner.leadingLexeme?_text fun x hx => hlonger x (hv x hx) _ ho
  simp only [signs, List.mem_cons, List.not_mem_nil, or_false, Prod.mk.injEq] at ho
  rcases ho with ⟨rfl, rfl⟩ | ⟨rfl, rfl⟩ | ⟨rfl, rfl⟩ <;>
    exact hands_of_next h (by decide) rfl rfl (h.next_lexeme (by decide) rfl hlexeme)

theorem char_of_mem_keywords (hw : w ∈ keywords) (hx : x ∈ w) :
    x = '{' ∨ x = '}' ∨ isNameStart x = true := by
  have hchars : ∀ x ∈ keywords.flatten, x = '{' ∨ x = '}' ∨ isNameStart x = true :=
    forall_mem_of_all (by decide)
  exact hchars x (List.mem_flatten.mpr ⟨w, hw, hx⟩)

theorem begins_of_mem_keywords (hw : w ∈ keywords) (hx : x ∈ w) : Begins x [] (.plain x) := by
  rcases char_of_mem_keywords hw hx with rfl | rfl | hx
  · exact ⟨rfl, fun _ => rfl, fun _ _ => rfl⟩
  · exact ⟨rfl, fun _ => rfl, fun _ _ => rfl⟩
  · exact begins_of_isNameChar (isNameChar_of_isNameStart hx)

/-- A brace or a reserved word in front of a blank. -/
theorem hands_keyword (hw : w ∈ keywords) (hv : StartsBlank v) (h : s.Facing limits (w ++ v)) :
    Hands limits s w v := by
  have hwords : ∀ w ∈ keywords, w ≠ [] ∧ signs.lookup w = none := forall_mem_of_all (by decide)
  obtain ⟨hne, hlookup⟩ := hwords w hw
  obtain ⟨x, u, rfl⟩ := List.exists_cons_of_ne_nil hne
  obtain ⟨hblank, hlexeme⟩ : Cursor.blankStep (x :: (u ++ v)) = 0 ∧
      Scanner.leadingLexeme? (x :: (u ++ v)) = none := by
    rcases char_of_mem_keywords hw List.mem_cons_self with rfl | rfl | hx
    · exact ⟨rfl, rfl⟩
    · exact ⟨rfl, rfl⟩
    · exact ⟨blankStep_of_isNameStart hx _, leadingLexeme?_of_isNameStart hx _⟩
  have hread : ∃ word, readWord limits.nesting 0 {} s.cursor =
      .ok (word, s.cursor.advance (x :: u).length) := by
    have hrest : (s.cursor.advance (x :: u).length).rest = v := by
      rw [Cursor.rest_advance, h.rest, List.drop_left]
    exact ⟨_, (readWord_of_plain (fun _ => begins_of_mem_keywords hw) h.rest {}).trans
      (readWord_of_startsSeam hv.startsSeam hrest _)⟩
  obtain ⟨word, hread⟩ := hread
  have hkind : (Lexeme.word word).kind = (token (x :: u)).kind := by
    unfold token
    rw [hlookup]
    rfl
  exact hands_of_next h hne hblank hkind (h.next_of_readWord hne hblank hlexeme hread)

/-- A word in front of a blank. -/
theorem hands_word (hw : Readable limits.nesting w) (hv : StartsBlank v)
    (h : s.Facing limits (w ++ v)) : Hands limits s w v := by
  rcases hw with hw | ⟨hassignment, word, hword⟩
  · rcases List.mem_append.mp hw with hw | hw
    · obtain ⟨⟨w, o⟩, ho, rfl⟩ := List.mem_map.mp hw
      exact hands_sign ho hv h
    · exact hands_keyword hw hv h
  · have hkind : (Lexeme.word word).kind = (token w).kind := by
      unfold token
      rw [lookup_signs hassignment]
      rfl
    have hnext := h.next_word hword hv.startsSeam
    obtain ⟨x, u, rfl, hx⟩ := hword.starts
    exact hands_of_next h (List.cons_ne_nil x u) (blankStep_of_isNameStart hx _) hkind hnext

/-! ## The tokens of the text -/

/-- A text of these words with spaces and tabs between them. -/
inductive Spaced : List Text → Text → Prop
  | single (w : Text) : Spaced [w] w
  | cons (w : Text) {g text : Text} {ws : List Text} (hne : g ≠ [])
      (hg : ∀ x ∈ g, x = ' ' ∨ x = '\t') (h : Spaced ws text) : Spaced (w :: ws) (w ++ (g ++ text))

theorem spaced_intercalate (w : Text) (ws : List Text) :
    Spaced (w :: ws) ([' '].intercalate (w :: ws)) := by
  induction ws generalizing w with
  | nil => exact List.intercalate_singleton ▸ .single w
  | cons v ws ih =>
    rw [List.intercalate_cons_cons, List.append_assoc]
    exact .cons w (by simp) (by simp) (ih v)

theorem Spaced.length_le (h : Spaced ws text) : ws.length ≤ text.length + 1 := by
  induction h with
  | single w => exact Nat.succ_le_succ (Nat.zero_le _)
  | cons w hne _ _ ih =>
    have hpos := List.length_pos_iff.mpr hne
    simp only [List.length_cons, List.length_append]
    omega

/-- The scanner skips what stands in front of the words and hands out their tokens. The induction is
on the words. -/
theorem Spaced.exists_yields (h : Spaced ws text) {g : Text} (hg : ∀ x ∈ g, x ∈ Cursor.blanks)
    (hws : ∀ w ∈ ws, Readable limits.nesting w) (hv : StartsBlank v)
    (hs : s.Facing limits (g ++ (text ++ v))) :
    ∃ ts s', s.Yields limits ts s' ∧ List.Forall₂ Token.Like (ws.map token) ts ∧
      s'.Facing limits v := by
  obtain ⟨s₀, hs₀, hskip⟩ := hs.next_blanks hg
  induction h generalizing s g s₀ with
  | single w =>
    obtain ⟨t, s', hnext, ht, hs'⟩ := hands_word (hws w List.mem_cons_self) hv hs₀
    exact ⟨[t], s', .single (hskip.trans hnext), .cons ht .nil, hs'⟩
  | @cons w g' text ws hne hg' _ ih =>
    obtain ⟨hw, hws⟩ := List.forall_mem_cons.mp hws
    have hblanks : ∀ x ∈ g', x ∈ Cursor.blanks := by
      intro x hx
      rcases hg' x hx with rfl | rfl <;> decide
    have hgap : StartsBlank (g' ++ (text ++ v)) := by
      intro x hx
      rw [List.head?_append_of_ne_nil g' hne] at hx
      rcases hg' x (List.mem_of_mem_head? hx) with rfl | rfl <;> decide
    rw [List.append_assoc, List.append_assoc] at hs₀
    obtain ⟨t, s₁, hnext, ht, hs₁⟩ := hands_word hw hgap hs₀
    obtain ⟨s₂, hs₂, hskip₂⟩ := hs₁.next_blanks hblanks
    obtain ⟨ts, s', hts, hlike, hs'⟩ := ih hblanks hws hs₁ s₂ hs₂ hskip₂
    exact ⟨t :: ts, s', .cons (hskip.trans hnext) hts, .cons ht hlike, hs'⟩

/-! ## The opener -/

/-- What the compound command is taken for. A subshell that begins with another one is taken for an
arithmetic command. -/
def Compound.readKind : Compound → CompoundKind
  | .subshell body => if body.words.head? = some ['('] then .arithmetic else .subshell
  | c => c.kind

theorem Compound.closer_readKind (c : Compound) : c.readKind.closer = c.kind.closer := by
  cases c with
  | subshell body =>
    show CompoundKind.closer (if body.words.head? = some ['('] then _ else _) = [')']
    split <;> rfl
  | _ => rfl

theorem Body.words_ne_nil (body : Body) : body.words ≠ [] := by
  cases body with
  | item i => exact List.append_ne_nil_of_right_ne_nil _ (List.cons_ne_nil _ _)
  | bare c => cases c <;> exact List.cons_ne_nil _ _
  | cons i rest => exact List.append_ne_nil_of_right_ne_nil _ (List.cons_ne_nil _ _)

theorem kind_token_eq_leftParen_iff : (token w).kind = .operator .leftParen ↔ w = ['('] := by
  constructor
  · intro h
    have hall : ∀ p ∈ signs, Kind.operator p.2 = .operator .leftParen → p.1 = ['('] :=
      forall_mem_of_all (by decide)
    unfold token at h
    cases hlookup : signs.lookup w with
    | none =>
      rw [hlookup] at h
      exact Kind.noConfusion h
    | some o =>
      rw [hlookup] at h
      exact hall _ (mem_of_lookup hlookup) h
  · rintro rfl
    rfl

/-- The first two words say what the compound command is. -/
theorem Compound.exists_words (c : Compound) : ∃ first second rest,
    c.words = first :: second :: rest ∧ Parse.startsCompound (token first) = true ∧
      openedKind? (token first) (token second) = some c.readKind := by
  cases c with
  | braceGroup body =>
    obtain ⟨w, ws, hw⟩ := List.exists_cons_of_ne_nil body.words_ne_nil
    refine ⟨['{'], w, ws ++ [['}']], ?_, rfl, rfl⟩
    rw [words, hw]
    rfl
  | subshell body =>
    obtain ⟨w, ws, hw⟩ := List.exists_cons_of_ne_nil body.words_ne_nil
    refine ⟨['('], w, ws ++ [[')']], ?_, rfl, ?_⟩
    · rw [words, hw]
      rfl
    · show some (if (token w).kind = .operator .leftParen then _ else _) = _
      simp only [readKind, hw, List.head?_cons, Option.some.injEq, kind_token_eq_leftParen_iff]
  | ifClause condition consequence =>
    obtain ⟨w, ws, hw⟩ := List.exists_cons_of_ne_nil condition.words_ne_nil
    refine ⟨"if".toList, w, ws ++ "then".toList :: (consequence.words ++ ["fi".toList]), ?_, rfl,
      rfl⟩
    rw [words, hw]
    rfl
  | whileLoop condition body =>
    obtain ⟨w, ws, hw⟩ := List.exists_cons_of_ne_nil condition.words_ne_nil
    refine ⟨"while".toList, w, ws ++ "do".toList :: (body.words ++ ["done".toList]), ?_, rfl, rfl⟩
    rw [words, hw]
    rfl

/-- The tokens of a compound command are an opener, a token that decides between the parentheses,
and those that close what has been opened if the compound command is punctuated. -/
theorem Compound.exists_tokens {c : Compound} {ts : List Token}
    (h : List.Forall₂ Token.Like (c.words.map token) ts) :
    ∃ t u body, ts = t :: u :: body ∧ Parse.startsCompound t = true ∧
      openedKind? t u = some c.readKind ∧ ∃ extra, (extra = [] ↔ c.Punctuated) ∧
        Passes ([c.readKind.closer], true) (u :: body) (extra, false) := by
  obtain ⟨first, second, rest, hwords, hstart, hkind⟩ := c.exists_words
  obtain ⟨extra, -, hP, hpasses⟩ := c.leaves [] (by simp [Awaits])
  rw [hwords, List.append_nil, ← c.closer_readKind] at hpasses
  rw [hwords] at h
  obtain ⟨t, us, ht, hlike, rfl⟩ := List.forall₂_cons_left_iff.mp h
  have hpasses := hpasses.congr hlike
  obtain ⟨u, body, hu, -, rfl⟩ := List.forall₂_cons_left_iff.mp hlike
  exact ⟨t, u, body, rfl, ht.startsCompound_eq.trans hstart, (ht.openedKind?_eq hu).trans hkind,
    extra, hP, hpasses⟩

end Nested

/-! ## Limits that are not reached -/

/-- Under tighter limits, if none of them is reached, the first statement is read alike. -/
theorem Parse.statement?_of_tighter {script : Text} (hlimits : limits'.Tighter limits)
    (hwithin : ∀ e q, statement? limits' (.ofText script) = .error e q → e.isLimit = false) :
    (∃ r p q m, statement? limits (.ofText script) = .ok r p ∧
        statement? limits' (.ofText script) = .ok r q ∧ p.Within 0 [] m q) ∨
      ∃ e p e' q, statement? limits (.ofText script) = .error e p ∧
        statement? limits' (.ofText script) = .error e' q := by
  have hwhole := Parser.within_ofText (.inl rfl : Apart script [])
  rw [List.append_nil] at hwhole
  -- No text comes behind the script.
  rcases (Coupling.ofPart 0 [] _ hlimits).alike_statement? hwhole with
    halike | ⟨_, _, _, htail, -⟩
  · unfold Coupling.Alike at halike
    generalize hx : statement? limits (.ofText script) = x at halike
    generalize hy : statement? limits' (.ofText script) = y at halike hwithin
    cases halike with
    | ok hs =>
      obtain ⟨rfl, -, hstate | ⟨-, -, htail, -⟩⟩ := hs
      · exact .inl ⟨_, _, _, _, rfl, rfl, hstate⟩
      · exact absurd rfl (htail (.oversizedNumeral ⟨0⟩))
    | failed => exact .inr ⟨_, _, _, _, rfl, rfl⟩
    | gaveUp htail => exact absurd rfl htail
    | stopped hlimit =>
      exact absurd ((hwithin _ _ rfl).symm.trans hlimit) (by simp)
  · exact absurd rfl (htail (.oversizedNumeral ⟨0⟩))

/-! ## The statement -/

/-- The parser has taken off the tokens of the text `passed` and is in front of `further`. -/
structure Parser.Resumes (p : Parser) (passed further : Text) : Prop where
  ahead : p.ahead = []
  rest : p.scanner.cursor.rest = further
  position : p.scanner.cursor.position = Position.start.after passed
  depth : p.scanner.depth = 0

theorem Cursor.At.position_of_rest {c : Cursor} {passed : Text} (h : c.At (passed ++ c.rest)) :
    c.position = Position.start.after passed := by
  have hlength := congrArg List.length h.rest_eq
  have hle := h.le
  rw [List.length_drop] at hlength
  rw [List.length_append] at hlength hle
  have hoffset : c.offset = passed.length := by omega
  rw [h.position_eq, hoffset, List.take_left]

/-- With nothing behind the script, both parsers have come to the same place. -/
theorem Parser.Within.resumes_iff {m : Nat} {passed : Text} (h : p.Within 0 [] m q) :
    p.Resumes passed further ↔ q.Resumes passed further := by
  obtain ⟨hahead, -, -⟩ := h
  obtain ⟨s, ts, last, iterations⟩ := p
  obtain ⟨s', ts', last', iterations'⟩ := q
  dsimp only at hahead
  cases hahead with
  | inside hts hs =>
    have hrest : s'.cursor.rest = s.cursor.rest := hs.cursor.rest.trans (List.append_nil _)
    have hposition : s'.cursor.position = s.cursor.position := hs.cursor.position
    have hempty : ts = [] ↔ ts' = [] := by
      cases hts <;> simp
    constructor
    · rintro ⟨rfl, hrest', hposition', -⟩
      exact ⟨hempty.mp rfl, hrest.trans hrest', hposition.trans hposition', hs.depth'⟩
    · rintro ⟨rfl, hrest', hposition', -⟩
      exact ⟨hempty.mpr rfl, hrest.symm.trans hrest', hposition.symm.trans hposition', hs.depth⟩
  | crossed htail => exact absurd htail (by simp)

theorem Parser.Resumes.unread_eq {passed : Text} (h : p.Resumes passed further) :
    p.unread = further.length := by
  rw [unread, h.ahead, h.rest]
  rfl

namespace Nested

open Parse

theorem startsBlank_newline (t : Text) : StartsBlank ('\n' :: t) := by
  intro x hx
  obtain rfl := Option.some.inj hx
  decide

/-- Under limits with room for all of it, a compound command is read to its end if it is punctuated,
and what is read goes on behind the newline otherwise. -/
theorem Compound.statement?_of_room (limits : Limits) (c : Compound) (further : Text)
    (h : Spaced c.words text) : ∃ room, limits.Tighter room ∧
      (c.Punctuated → ∃ p, statement? room (.ofText (text ++ '\n' :: further)) =
          .ok (some (.ofCompound c.readKind)) p ∧ p.Resumes (text ++ ['\n']) further) ∧
      (¬ c.Punctuated → ∀ r p, statement? room (.ofText (text ++ '\n' :: further)) = .ok r p →
        p.unread < further.length) := by
  obtain ⟨limit, hreadable⟩ := exists_readable c.isWord
  let script := text ++ '\n' :: further
  let room := limits.raised script.length limit
  have hroom := fun l : Int => Int.le_max_right l script.length
  have hs : Scanner.Facing room script (.ofText script) :=
    Scanner.facing_ofText (hroom _) (hroom _)
  obtain ⟨ts, s₁, hts, hlike, hs₁⟩ := h.exists_yields (g := []) (by simp)
    (fun w hw => (hreadable w hw).mono (Int.le_max_right _ _)) (startsBlank_newline _) hs
  obtain ⟨newline, s₂, hnewline, hlexeme, hs₂⟩ := hs₁.next_newline
  have hyields := hts.append (.single hnewline)
  have hat : s₂.cursor.At ((text ++ ['\n']) ++ s₂.cursor.rest) := by
    rw [hs₂.rest, List.append_assoc]
    exact ((Scanner.from_ofText room script).yields hyields).1.cursor
  have hrounds : ((Parser.ofText script).iterations + (ts ++ [newline]).length : Nat) ≤
      room.iterations := by
    have hwords := h.length_le
    have hlength := hlike.length_eq
    have hiterations : (3 * (script.length + 1) : Nat) ≤ room.iterations := Int.le_max_right _ _
    have hscript : script.length = text.length + (further.length + 1) := List.length_append
    have hzero : (Parser.ofText script).iterations = 0 := rfl
    rw [List.length_map] at hlength
    rw [List.length_append, List.length_singleton]
    omega
  have hfaces : (Parser.ofText script).Faces room (ts ++ [newline]) s₂ := ⟨_, hyields, rfl⟩
  have hkind : newline.kind = .newline := congrArg Lexeme.kind hlexeme
  obtain ⟨t, u, body, rfl, hstart, hopened, extra, hP, hpasses⟩ := exists_tokens hlike
  refine ⟨room, limits.tighter_raised _ _, fun hc => ?_, fun hc r p hread => ?_⟩
  · obtain rfl := hP.mpr hc
    have hends := ends_statement?_closed (E := fun _ => False) hstart hopened hpasses hkind hfaces
      (by simp at hrounds ⊢; omega)
    obtain ⟨r, p, hread, rfl, us, hus, hnil⟩ := hends.exists_ok
    obtain ⟨hahead, rfl⟩ := List.append_eq_nil_iff.mp hnil
    cases hus
    exact ⟨p, hread, hahead, hs₂.rest, hat.position_of_rest, hs₂.depth⟩
  -- The newline closes nothing.
  · have hextra : extra ≠ [] := fun hnil => hc (hP.mp hnil)
    have hopen : closersAfter extra false newline ≠ [] := by
      intro hnil
      have hseparator := isSeparator_of_closersAfter hextra hnil
      unfold Token.isSeparator at hseparator
      rw [hlexeme] at hseparator
      exact absurd hseparator (by simp)
    have hall := hpasses.append (.single hextra (t := newline) (hkind ▸ by simp))
    have hends := ends_statement?_open hstart hopened hall hopen hfaces hrounds
    exact hs₂.rest ▸ hends.ok hread

section

variable {c : Compound}

/-- What is read under limits that are not reached is read under limits with room for it. -/
theorem Compound.statement?_of_punctuated (hspaced : Spaced c.words text) (hc : c.Punctuated)
    (hwithin : ∀ e p, statement? limits (.ofText (text ++ '\n' :: further)) = .error e p →
      e.isLimit = false) :
    ∃ p, statement? limits (.ofText (text ++ '\n' :: further)) =
      .ok (some (.ofCompound c.readKind)) p ∧ p.Resumes (text ++ ['\n']) further := by
  obtain ⟨room, hroom, hclosed, -⟩ := c.statement?_of_room limits further hspaced
  obtain ⟨p, hread, hresumes⟩ := hclosed hc
  rcases statement?_of_tighter hroom hwithin with
    ⟨r, p', q, m, hread', hread'', hsame⟩ | ⟨e, p', e', q, hfail, -⟩
  · obtain ⟨rfl, rfl⟩ := EStateM.Result.ok.inj (hread.symm.trans hread')
    exact ⟨q, hread'', hsame.resumes_iff.mp hresumes⟩
  · exact absurd (hread.symm.trans hfail) (by simp)

theorem Compound.punctuated_of_resumes {r : Option Statement} (hspaced : Spaced c.words text)
    (hread : statement? limits (.ofText (text ++ '\n' :: further)) = .ok r p)
    (hresumes : p.Resumes (text ++ ['\n']) further) : c.Punctuated := by
  obtain ⟨room, hroom, -, hopen⟩ := c.statement?_of_room limits further hspaced
  by_contra hc
  have hwithin : ∀ e q, statement? limits (.ofText (text ++ '\n' :: further)) = .error e q →
      e.isLimit = false :=
    fun e q hfail => absurd (hread.symm.trans hfail) (by simp)
  rcases statement?_of_tighter hroom hwithin with
    ⟨r', p', q, m, hread', hread'', hsame⟩ | ⟨e, p', e', q, -, hfail⟩
  · obtain ⟨rfl, rfl⟩ := EStateM.Result.ok.inj (hread.symm.trans hread'')
    have hunread := (hsame.resumes_iff.mpr hresumes).unread_eq
    exact absurd hunread (Nat.ne_of_lt (hopen hc _ _ hread'))
  · exact absurd (hread.symm.trans hfail) (by simp)

end

/-- A compound command on a line of its own. If no limit is reached, it is one statement, and the
parser goes on behind its newline, exactly if a `;` stands in front of each `}`, `fi` and `done`.
The kind is then that of the opener, except that two opening parentheses, though blanks stand
between them, make it arithmetic. -/
theorem read_compound_iff (limits : Limits) (c : Compound) (kind : CompoundKind)
    (text further : Text) (hspaced : Spaced c.words text)
    (hwithin : ∀ e p, statement? limits (.ofText (text ++ '\n' :: further)) = .error e p →
      e.isLimit = false) :
    (∃ p, statement? limits (.ofText (text ++ '\n' :: further)) =
        .ok (some (.ofCompound kind)) p ∧ p.Resumes (text ++ ['\n']) further) ↔
      c.Punctuated ∧ kind = c.readKind := by
  constructor
  · rintro ⟨p, hread, hresumes⟩
    have hc := Compound.punctuated_of_resumes hspaced hread hresumes
    obtain ⟨q, hread', -⟩ := Compound.statement?_of_punctuated hspaced hc hwithin
    have hstatement := (EStateM.Result.ok.inj (hread.symm.trans hread')).1
    exact ⟨hc, by simpa [Statement.ofCompound] using hstatement⟩
  · rintro ⟨hc, rfl⟩
    exact Compound.statement?_of_punctuated hspaced hc hwithin

def failure? {α : Type} : EStateM.Result ReadError Parser α → Option ReadError
  | .ok _ _ => none
  | .error e _ => some e

theorem failure?_eq_some_iff {α : Type} {r : EStateM.Result ReadError Parser α} {e : ReadError} :
    failure? r = some e ↔ ∃ p, r = .error e p := by
  cases r <;> simp [failure?]

theorem isLimit_of_failure?_eq_none {α : Type} {r : EStateM.Result ReadError Parser α}
    (h : failure? r = none) (e : ReadError) (p : Parser) (hfail : r = .error e p) :
    e.isLimit = false :=
  absurd (h.symm.trans (failure?_eq_some_iff.mpr ⟨p, hfail⟩)) (by simp)

/-- A loop over a group, with a conditional in a subshell. -/
theorem read_loop_over_group : ∃ p,
    statement? {} (.ofText ("while { A=1 ; } ; do ( if A=1 ; then B=2 ; fi ) ; done".toList ++
        '\n' :: "C=3".toList)) = .ok (some (.ofCompound .whileLoop)) p ∧
      p.Resumes ("while { A=1 ; } ; do ( if A=1 ; then B=2 ; fi ) ; done".toList ++ ['\n'])
        "C=3".toList := by
  have hA : IsAssignment "A=1".toList := isAssignment_of_tokenize {} (by decide +kernel)
  have hB : IsAssignment "B=2".toList := isAssignment_of_tokenize {} (by decide +kernel)
  refine (read_compound_iff {}
    (.whileLoop (.item (.compound (.braceGroup (.item (.assignment _ hA)))))
      (.item (.compound (.subshell (.bare (.ifClause (.item (.assignment _ hA))
        (.item (.assignment _ hB))))))))
    .whileLoop "while { A=1 ; } ; do ( if A=1 ; then B=2 ; fi ) ; done".toList "C=3".toList
    (spaced_intercalate "while".toList _) ?_).mpr ⟨?_, rfl⟩
  · exact isLimit_of_failure?_eq_none (by decide +kernel)
  · simp [Compound.Punctuated, Body.Punctuated, Item.Punctuated, Body.endsInSemi]

/-- Behind the `}` of the inner group the outer one is not closed, and two parentheses with a blank
between them are arithmetic. -/
theorem unread_group_in_group :
    (∃ c : Compound, c.kind = .braceGroup ∧ Spaced c.words "{ { A=1 ; } }".toList ∧
      ∃ p, statement? {} (.ofText ("{ { A=1 ; } }".toList ++ '\n' :: "B=2".toList)) =
        .error (.malformed ⟨.unfinishedCompound .braceGroup, ⟨2, 4⟩⟩) p) ∧
    ∃ c : Compound, c.kind = .subshell ∧ Spaced c.words "( ( A=1 ; ) )".toList ∧
      ∃ p, statement? {} (.ofText ("( ( A=1 ; ) )".toList ++ '\n' :: "B=2".toList)) =
        .ok (some (.ofCompound .arithmetic)) p := by
  have hA : IsAssignment "A=1".toList := isAssignment_of_tokenize {} (by decide +kernel)
  constructor
  · refine ⟨.braceGroup (.bare (.braceGroup (.item (.assignment _ hA)))), rfl,
      spaced_intercalate ['{'] _, ?_⟩
    exact failure?_eq_some_iff.mp (by decide +kernel)
  · let c : Compound := .subshell (.bare (.subshell (.item (.assignment _ hA))))
    have hspaced : Spaced c.words "( ( A=1 ; ) )".toList := spaced_intercalate ['('] _
    have hc : c.Punctuated := by simp [c, Compound.Punctuated, Body.Punctuated, Item.Punctuated]
    have hreads : failure? (statement? {}
        (.ofText ("( ( A=1 ; ) )".toList ++ '\n' :: "B=2".toList))) = none := by decide +kernel
    obtain ⟨p, hread, -⟩ :=
      Compound.statement?_of_punctuated hspaced hc (isLimit_of_failure?_eq_none hreads)
    exact ⟨c, rfl, hspaced, p, hread⟩

end Nested

end EnvScript
