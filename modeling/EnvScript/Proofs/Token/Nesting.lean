import EnvScript.Proofs.Token.Resumed

/-!
# How deep words are nested

Double quotes and expansions go one level deeper each, and only so many levels may be open at a
time. The levels that are open are those of the constructs on the stack, which is what a count comes
to that is raised at each opening mark and lowered at each closing one (`Scanner.nextCounting`). A
word has no level left open, so the next word has all of them again.
-/

namespace EnvScript

/-! ## Levels of a word -/

/-- A double quote or an expansion, which is one level deeper than what it stands in. -/
def Part.deepens : Part → Bool
  | .double _ | .substitution .. | .specless .. | .unsupported .. => true
  | _ => false

/-- What stands directly inside of a part. -/
def Part.inside : Part → Word
  | .double parts => parts
  | .substitution _ _ raw => raw
  | _ => []

/-- From a word down: a part of it, a part inside of that one, and so on. -/
inductive Word.Path : Word → List Part → Prop
  | nil (w : Word) : Word.Path w []
  | cons {w : Word} {p : Part} {path : List Part} (hp : p ∈ w) (h : Word.Path p.inside path) :
      Word.Path w (p :: path)

/-- No path of the word goes through more than `n` double quotes and expansions. -/
def Word.NestsWithin (w : Word) (n : Nat) : Prop :=
  ∀ path, w.Path path → path.countP Part.deepens ≤ n

variable {limit : Int} {base n : Nat} {a : Assembly} {c after : Cursor} {w : Word} {p : Part}
  {x : Char} {t : Text} {place : Place} {piece : Piece} {limits : Limits} {s s' : Scanner}

theorem nestsWithin_nil (n : Nat) : Word.NestsWithin [] n := by
  intro path h
  cases h with
  | nil => exact Nat.zero_le n
  | cons hp _ => exact absurd hp List.not_mem_nil

theorem nestsWithin_cons_iff :
    Word.NestsWithin (p :: w) n ↔ Word.NestsWithin [p] n ∧ w.NestsWithin n := by
  constructor
  · intro h
    refine ⟨fun path hpath => h path ?_, fun path hpath => h path ?_⟩
    · cases hpath with
      | nil => exact .nil _
      | cons hq hpath => exact .cons (List.mem_singleton.mp hq ▸ List.mem_cons_self) hpath
    · cases hpath with
      | nil => exact .nil _
      | cons hq hpath => exact .cons (List.mem_cons_of_mem p hq) hpath
  · rintro ⟨hp, hw⟩ path hpath
    cases hpath with
    | nil => exact Nat.zero_le n
    | @cons _ q path hq hpath =>
      rcases List.mem_cons.mp hq with rfl | hq
      · exact hp _ (.cons List.mem_cons_self hpath)
      · exact hw _ (.cons hq hpath)

theorem Word.NestsWithin.reverse (h : w.NestsWithin n) : Word.NestsWithin w.reverse n := by
  intro path hpath
  cases hpath with
  | nil => exact Nat.zero_le n
  | cons hq hpath => exact h _ (.cons (List.mem_reverse.mp hq) hpath)

/-- A part that is read as one piece has no level of its own and none inside. -/
theorem nestsWithin_single (hdeepens : p.deepens = false) (hinside : p.inside = []) (n : Nat) :
    Word.NestsWithin [p] n := by
  intro path hpath
  cases hpath with
  | nil => exact Nat.zero_le n
  | @cons _ q path hq hpath =>
    obtain rfl := List.mem_singleton.mp hq
    rw [hinside] at hpath
    rw [List.countP_cons_of_neg (by simp [hdeepens])]
    exact nestsWithin_nil n path hpath

/-- What is closed is one level more than what is inside of it. -/
theorem nestsWithin_close (o : Opening) (h : w.NestsWithin n) :
    Word.NestsWithin [o.close w] (n + 1) := by
  have hinside : Word.NestsWithin (o.close w).inside n := by
    cases o with
    | quote => exact h
    | operand p op =>
      cases w with
      | nil => exact nestsWithin_nil n
      | cons part w => exact h
    | ignored p operator => exact nestsWithin_nil n
  intro path hpath
  cases hpath with
  | nil => exact Nat.zero_le _
  | @cons _ q path hq hpath =>
    obtain rfl := List.mem_singleton.mp hq
    have hle := hinside path hpath
    have hcons := List.countP_cons (p := Part.deepens) (a := o.close w) (l := path)
    split at hcons <;> omega

theorem Draft.nestsWithin_closed {d : Draft} (h : Word.NestsWithin d.parts n) :
    Word.NestsWithin d.closed n := by
  obtain ⟨parts, _ | ⟨x, text⟩⟩ := d
  · exact h
  · exact nestsWithin_cons_iff.mpr ⟨nestsWithin_single rfl rfl n, h⟩

/-! ## Pieces that go deeper -/

/-- What a piece is by whether it goes a level deeper: an opening does so, a plain character and a
closing mark do not, and a part that is read at once has no level when it has been read. -/
def Piece.Levels (nested : Bool) : Piece → Prop
  | .opens _ => nested = true
  | .part p => p.deepens = false ∧ p.inside = []
  | .plain _ | .closes => nested = false

theorem Piece.IsCommon.levels (h : piece.IsCommon) : piece.Levels true := by
  unfold IsCommon at h
  split at h
  case h_5 => exact h.elim
  case h_4 => rfl
  all_goals exact ⟨rfl, rfl⟩

theorem levels_of_part {nested : Bool} {m : Nat} (hdeepens : p.deepens = false)
    (hinside : p.inside = []) (h : Reading.taking m (.part p) = .ok (piece, n)) :
    piece.Levels nested := by
  obtain ⟨rfl, -⟩ := Prod.mk.inj (Except.ok.inj h)
  exact ⟨hdeepens, hinside⟩

theorem levels_of_plain {nested : Bool} {m : Nat} {c : Char} (hnested : nested = false)
    (h : Reading.taking m (.plain c) = .ok (piece, n)) : piece.Levels nested := by
  obtain ⟨rfl, -⟩ := Prod.mk.inj (Except.ok.inj h)
  exact hnested

theorem levels_readDollar (h : readDollar t = .ok (piece, n)) :
    piece.Levels (nests place '$' t) := by
  unfold readDollar at h
  split at h
  · exact ((isCommon_readBraced _).shift 1 _ _ h).levels
  · split at h
    · exact levels_of_part rfl rfl h
    · exact absurd h (by simp)
  · split at h
    · exact levels_of_part rfl rfl h
    · exact absurd h (by simp)
  · rename_i hbrace _ _
    have hnested : nests place '$' t = false := by
      cases t with
      | nil => rfl
      | cons y t =>
        have hy : y ≠ '{' := by
          rintro rfl
          exact hbrace t rfl
        simp [nests, hy]
    split at h
    · exact levels_of_part rfl rfl h
    · split at h
      · exact levels_of_part rfl rfl h
      · exact levels_of_plain hnested h
    · exact levels_of_plain hnested h

/-- Inside of double quotes a quote closes them, and nothing but a `$` goes deeper. -/
theorem levels_readQuoted (hx : x ≠ '$') (h : readQuoted x t = .ok (piece, n)) :
    piece.Levels (nests .quote x t) := by
  have hnested : nests .quote x t = false := by simp [nests, hx]
  unfold readQuoted at h
  split at h
  · obtain ⟨rfl, -⟩ := Prod.mk.inj (Except.ok.inj h)
    exact hnested
  · split at h
    · split at h
      · split at h
        · exact levels_of_part rfl rfl h
        · exact levels_of_plain hnested h
      · exact levels_of_plain hnested h
    · exact levels_of_plain hnested h

theorem levels_readUnquoted (hplace : place ≠ .quote) (hx : x ≠ '$')
    (h : readUnquoted x t = .ok (piece, n)) : piece.Levels (nests place x t) := by
  have hnested : x ≠ '"' → nests place x t = false := fun hquote => by simp [nests, hx, hquote]
  unfold readUnquoted at h
  split at h
  next hbackslash =>
    split at h
    · exact levels_of_part rfl rfl h
    · exact levels_of_plain (hnested (by rw [hbackslash]; decide)) h
  next =>
    split at h
    · unfold readSingle at h
      dsimp only at h
      split at h
      · exact levels_of_part rfl rfl h
      · exact absurd h (by simp)
    · split at h
      next hquote =>
        obtain ⟨rfl, -⟩ := Prod.mk.inj (Except.ok.inj h)
        show nests place x t = true
        simp [nests, hquote, hplace]
      next hquote => exact levels_of_plain (hnested hquote) h

theorem levels_readPiece {tilde : Bool} (h : readPiece place tilde x t = .ok (piece, n)) :
    piece.Levels (nests place x t) := by
  unfold readPiece at h
  split at h
  next hx =>
    subst hx
    exact levels_readDollar h
  next hx =>
    split at h
    · unfold readBackquote at h
      split at h
      · exact levels_of_part rfl rfl h
      · exact absurd h (by simp)
    · split at h
      · exact levels_readQuoted hx h
      · split at h
        next hbrace =>
          obtain ⟨rfl, -⟩ := Prod.mk.inj (Except.ok.inj h)
          show nests .operand x t = false
          simp [nests, hbrace]
        next => exact levels_readUnquoted (by simp) hx h
      · split at h
        · exact levels_of_part rfl rfl h
        · split at h
          · exact levels_of_part rfl rfl h
          · split at h
            · exact levels_of_part rfl rfl h
            · exact levels_readUnquoted (by simp) hx h

/-! ## Words in the making -/

/-- The levels that may still be opened inside of `height` open constructs. -/
def levelsLeft (limit : Int) (base height : Nat) : Nat := (limit - (base + height : Nat)).toNat

/-- Each draft nests within the levels that are left where it stands, and what is open has been
opened within the limit. -/
inductive Assembly.NestsWithin (limit : Int) (base : Nat) : Assembly → Prop
  | word {d : Draft} (h : Word.NestsWithin d.parts (levelsLeft limit base 0)) :
      Assembly.NestsWithin limit base ⟨d, []⟩
  | inside {d : Draft} {s : Suspended} {stack : List Suspended}
      (h : Word.NestsWithin d.parts (levelsLeft limit base (stack.length + 1)))
      (hopen : (base + stack.length + 1 : Nat) ≤ limit)
      (houter : Assembly.NestsWithin limit base ⟨s.outer, stack⟩) :
      Assembly.NestsWithin limit base ⟨d, s :: stack⟩

namespace Assembly.NestsWithin

variable {d : Draft}

theorem draft (h : a.NestsWithin limit base) :
    Word.NestsWithin a.draft.parts (levelsLeft limit base a.stack.length) := by
  cases h with
  | word h => exact h
  | inside h _ _ => exact h

theorem withDraft (h : a.NestsWithin limit base)
    (hd : Word.NestsWithin d.parts (levelsLeft limit base a.stack.length)) :
    Assembly.NestsWithin limit base ⟨d, a.stack⟩ := by
  cases h with
  | word _ => exact .word hd
  | inside _ hopen houter => exact .inside hd hopen houter

theorem addPart (h : a.NestsWithin limit base)
    (hp : Word.NestsWithin [p] (levelsLeft limit base a.stack.length)) :
    Assembly.NestsWithin limit base ⟨a.draft.addPart p, a.stack⟩ :=
  h.withDraft (nestsWithin_cons_iff.mpr ⟨hp, Draft.nestsWithin_closed h.draft⟩)

theorem add (h : a.NestsWithin limit base) {nested : Bool} (hpiece : piece.Levels nested)
    (hnested : nested = true → (base + a.stack.length + 1 : Nat) ≤ limit) (p : Position) :
    (a.add p piece).NestsWithin limit base := by
  cases piece with
  | plain c => exact h.withDraft h.draft
  | part part => exact h.addPart (nestsWithin_single hpiece.1 hpiece.2 _)
  | opens o => exact .inside (nestsWithin_nil _) (hnested hpiece) h
  | closes =>
    cases h with
    | word h => exact .word h
    | @inside d s stack h hopen houter =>
      -- The level that is closed was one of those left where the construct began.
      have hclose := nestsWithin_close s.opening (Draft.nestsWithin_closed h).reverse
      have hleft : levelsLeft limit base (stack.length + 1) + 1 =
          levelsLeft limit base stack.length := by
        unfold levelsLeft
        omega
      exact houter.addPart (hleft ▸ hclose)

theorem word_nestsWithin (h : a.NestsWithin limit base) (hstack : a.stack = []) :
    a.draft.word.NestsWithin (levelsLeft limit base 0) := by
  have hdraft := h.draft
  rw [hstack] at hdraft
  exact (Draft.nestsWithin_closed hdraft).reverse

end Assembly.NestsWithin

/-- A word nests within the levels that are left where it begins. -/
theorem readWord_nestsWithin (h : readWord limit base a c = .ok (w, after))
    (ha : a.NestsWithin limit base) : w.NestsWithin (levelsLeft limit base 0) := by
  fun_induction readWord limit base a c with
  | case1 a c hrest hstack =>
    obtain ⟨rfl, -⟩ := Prod.mk.inj (Except.ok.inj h)
    exact ha.word_nestsWithin hstack
  | case2 => exact absurd h (by simp)
  | case3 a c x t hrest hbreak =>
    obtain ⟨rfl, -⟩ := Prod.mk.inj (Except.ok.inj h)
    exact ha.word_nestsWithin (List.isEmpty_iff.mp (Bool.and_eq_true_iff.mp hbreak).1)
  | case4 => exact absurd h (by simp)
  | case5 a c depth x t hrest hbreak deeper hdeep piece n hpiece ih =>
    refine ih h (ha.add (levels_readPiece hpiece) (fun hnested => ?_) c.position)
    have hdeeper : deeper = true := hnested
    simp only [hdeeper, Bool.true_and, decide_eq_true_eq, Int.not_lt] at hdeep
    exact hdeep
  | case6 => exact absurd h (by simp)

/-! ## Words that are nested too deep -/

section

variable {fault : Fault} {r : Reading} {k : Nat}

/-- Something in a word is wrong, with no limit for a reason. -/
def Fault.OfWord : Fault → Prop
  | .unterminated _ | .missingParameterName | .unexpectedOperator _ => True
  | _ => False

theorem Fault.OfWord.isMissing (h : fault.OfWord) : fault.isMissing = false := by
  cases fault <;> first | exact h.elim | rfl

theorem exists_of_shift_misplaced (h : r.shift k = .error (.misplaced fault n)) :
    ∃ m, r = .error (.misplaced fault m) := by
  match r with
  | .ok (p, m) => exact absurd h (by simp [Reading.shift])
  | .error (.unclosed construct) => exact absurd h (by simp [Reading.shift])
  | .error (.misplaced fault' m) =>
    simp only [Reading.shift, Except.error.injEq, Flaw.misplaced.injEq] at h
    exact ⟨m, by rw [h.1]⟩

theorem ofWord_of_missingParameter (h : missingParameter t = .error (.misplaced fault n)) :
    fault.OfWord := by
  unfold missingParameter at h
  split at h
  · exact absurd h (by simp)
  · cases h
    trivial

theorem ofWord_of_readOperator {p : Parameter}
    (h : readOperator p t = .error (.misplaced fault n)) : fault.OfWord := by
  unfold readOperator at h
  split at h
  case h_7 =>
    split at h
    · exact absurd h (by simp [Reading.taking])
    · split at h
      · exact absurd h (by simp [Reading.taking])
      · cases h
        trivial
  case h_5 => split at h <;> exact absurd h (by simp [Reading.taking])
  all_goals exact absurd h (by simp [Reading.taking])

theorem ofWord_of_readBraced (h : readBraced t = .error (.misplaced fault n)) :
    fault.OfWord := by
  unfold readBraced at h
  split at h
  · exact ofWord_of_missingParameter h
  · split at h
    · split at h
      · exact absurd h (by simp [Reading.taking])
      · obtain ⟨m, h⟩ := exists_of_shift_misplaced h
        exact ofWord_of_missingParameter h
    · split at h
      · obtain ⟨m, h⟩ := exists_of_shift_misplaced h
        exact ofWord_of_readOperator h
      · exact ofWord_of_missingParameter h

theorem ofWord_of_readDollar (h : readDollar t = .error (.misplaced fault n)) :
    fault.OfWord := by
  unfold readDollar at h
  split at h
  · obtain ⟨m, h⟩ := exists_of_shift_misplaced h
    exact ofWord_of_readBraced h
  · split at h <;> exact absurd h (by simp [Reading.taking])
  · split at h <;> exact absurd h (by simp [Reading.taking])
  · split at h
    · exact absurd h (by simp [Reading.taking])
    · split at h <;> exact absurd h (by simp [Reading.taking])
    · exact absurd h (by simp [Reading.taking])

theorem readQuoted_ne_misplaced (x : Char) (t : Text) (fault : Fault) (n : Nat) :
    readQuoted x t ≠ .error (.misplaced fault n) := by
  unfold readQuoted
  split
  · simp [Reading.taking]
  · split
    · split
      · split <;> simp [Reading.taking]
      · simp [Reading.taking]
    · simp [Reading.taking]

theorem readUnquoted_ne_misplaced (x : Char) (t : Text) (fault : Fault) (n : Nat) :
    readUnquoted x t ≠ .error (.misplaced fault n) := by
  unfold readUnquoted
  split
  · split <;> simp [Reading.taking]
  · split
    · unfold readSingle
      dsimp only
      split <;> simp [Reading.taking]
    · split <;> simp [Reading.taking]

/-- Something is misplaced only behind a `$`. -/
theorem ofWord_of_readPiece {tilde : Bool}
    (h : readPiece place tilde x t = .error (.misplaced fault n)) : fault.OfWord := by
  unfold readPiece at h
  split at h
  · exact ofWord_of_readDollar h
  · split at h
    · unfold readBackquote at h
      split at h <;> exact absurd h (by simp [Reading.taking])
    · split at h
      · exact absurd h (readQuoted_ne_misplaced x t fault n)
      · split at h
        · exact absurd h (by simp [Reading.taking])
        · exact absurd h (readUnquoted_ne_misplaced x t fault n)
      · split at h
        · exact absurd h (by simp [Reading.taking])
        · split at h
          · exact absurd h (by simp [Reading.taking])
          · split at h
            · exact absurd h (by simp [readTilde, Reading.taking])
            · exact absurd h (readUnquoted_ne_misplaced x t fault n)

end

/-- A word is refused at a level beyond the limit or for a fault of its own. -/
theorem fault_of_readWord {halt : Halt} (h : readWord limit base a c = .error halt) :
    halt.error.fault = .nestingTooDeep ∧ limit < halt.depth ∨ halt.error.fault.OfWord := by
  fun_induction readWord limit base a c with
  | case2 =>
    obtain rfl := Except.error.inj h
    exact .inr trivial
  | case4 a c depth x t hrest hbreak deeper hdeep =>
    obtain rfl := Except.error.inj h
    exact .inl ⟨rfl, of_decide_eq_true (Bool.and_eq_true_iff.mp hdeep).2⟩
  | case5 a c depth x t hrest hbreak deeper hdeep piece n hpiece ih => exact ih h
  | case6 a c depth x t hrest hbreak deeper hdeep flaw hpiece =>
    obtain rfl := Except.error.inj h
    cases flaw with
    | unclosed construct => exact .inr trivial
    | misplaced fault taken => exact .inr (ofWord_of_readPiece hpiece)
  | _ => exact absurd h (by simp)

/-! ## Counting levels -/

/-- The level behind a piece that is read at the level `entered`, one deeper if it is `nested`. What
is opened stays open, and what is closed or read at once is left again. -/
def Piece.levelBehind (nested : Bool) (entered : Nat) : Piece → Nat
  | .opens _ => entered
  | .closes => entered - 1
  | .plain _ | .part _ => if nested then entered - 1 else entered

/-- Reads on to the end of the word with a count of the levels, which is `level` at the cursor, and
says what the count is at the end. -/
def readWordCounting (limit : Int) (level : Nat) (a : Assembly) (c : Cursor) :
    Except Halt (Word × Cursor × Nat) :=
  match _h : c.rest with
  | [] =>
    match a.stack with
    | [] => .ok (a.draft.word, c, level)
    | s :: _ => .error ⟨⟨.unterminated s.opening.construct, s.start⟩, c, level⟩
  | x :: t =>
    if a.stack.isEmpty && isBreak x then .ok (a.draft.word, c, level)
    else
      let nested := nests a.place x t
      let entered := if nested then level + 1 else level
      if nested && limit < entered then .error ⟨⟨.nestingTooDeep, c.position⟩, c, entered⟩
      else
        match readPiece a.place a.draft.allowsTilde x t with
        | .ok (piece, n) =>
          readWordCounting limit (piece.levelBehind nested entered) (a.add c.position piece)
            (c.advance (n + 1))
        | .error flaw => .error (.ofFlaw c entered flaw)
termination_by c.rest.length
decreasing_by
  rw [Cursor.rest_advance, _h, List.drop_succ_cons, List.length_drop, List.length_cons]
  omega

/-- The count goes up and down with the height of the stack. -/
theorem levelBehind_eq {nested : Bool} (hlevels : piece.Levels nested)
    (hfits : piece.Fits a.place x n) (p : Position) :
    piece.levelBehind nested (if nested then base + a.stack.length + 1 else base + a.stack.length) =
      base + (a.add p piece).stack.length := by
  cases piece with
  | plain y => cases nested <;> rfl
  | part part => cases nested <;> rfl
  | opens o =>
    obtain rfl : nested = true := hlevels
    rfl
  | closes =>
    obtain rfl : nested = false := hlevels
    obtain ⟨draft, stack⟩ := a
    cases stack with
    | nil => exact absurd rfl hfits
    | cons s stack => rfl

/-- Only a piece that goes deeper can go too deep. -/
theorem tooDeep_eq (limit : Int) (nested : Bool) (level : Nat) :
    (nested && decide (limit < (if nested then level + 1 else level : Nat))) =
      (nested && decide (limit < level + 1)) := by
  cases nested <;> rfl

theorem readWordCounting_eq (limit : Int) (base : Nat) (a : Assembly) (c : Cursor) :
    readWordCounting limit (base + a.stack.length) a c =
      (readWord limit base a c).map fun (w, after) => (w, after, base) := by
  fun_induction readWord limit base a c with
  | case1 a c hrest hstack =>
    rw [readWordCounting, hrest]
    dsimp only
    rw [hstack]
    rfl
  | case2 a c depth hrest o stack hstack =>
    rw [readWordCounting, hrest]
    simp only [hstack, depth]
    rfl
  | case3 a c x t hrest hbreak =>
    rw [readWordCounting, hrest]
    dsimp only
    rw [if_pos hbreak, List.isEmpty_iff.mp (Bool.and_eq_true_iff.mp hbreak).1]
    rfl
  | case4 a c depth x t hrest hbreak deeper hdeep =>
    have hdeeper : nests a.place x t = true := (Bool.and_eq_true_iff.mp hdeep).1
    rw [readWordCounting, hrest]
    dsimp only
    rw [if_neg hbreak, tooDeep_eq, if_pos hdeep, if_pos hdeeper]
    rfl
  | case5 a c depth x t hrest hbreak deeper hdeep piece n hpiece ih =>
    rw [readWordCounting, hrest]
    dsimp only
    rw [if_neg hbreak, tooDeep_eq, if_neg hdeep, hpiece]
    dsimp only
    rw [levelBehind_eq (levels_readPiece hpiece) (fits_readPiece hpiece)]
    exact ih
  | case6 a c depth x t hrest hbreak deeper hdeep flaw hpiece =>
    rw [readWordCounting, hrest]
    dsimp only
    rw [if_neg hbreak, tooDeep_eq, if_neg hdeep, hpiece]
    rfl

/-! ## One call -/

namespace Scanner

/-- Reads a token with a count of the levels, and goes on with what the count is behind it. -/
def readTokenCounting (limits : Limits) (s : Scanner) : Except SyntaxError Token × Scanner :=
  let token (lexeme : Lexeme) (after : Cursor) : Token :=
    ⟨lexeme, s.cursor.rest.take (after.offset - s.cursor.offset), s.cursor.position,
      after.position⟩
  match leadingLexeme? s.cursor.rest with
  | some (lexeme, n) =>
    let after := s.cursor.advance n
    (.ok (token lexeme after), { s with cursor := after })
  | none =>
    match readWordCounting limits.nesting s.depth {} s.cursor with
    | .ok (word, after, level) =>
      (.ok (token (.word word) after), { s with cursor := after, depth := level })
    | .error halt => (.error halt.error, { s with cursor := halt.cursor, depth := halt.depth })

/-- Reads the next token with a count of the levels. -/
def nextCounting (limits : Limits) (s : Scanner) : Except SyntaxError Token × Scanner :=
  if limits.inputSize < s.size then
    (.error ⟨.inputTooLarge s.size limits.inputSize, .start⟩, s)
  else
    let s := { s with cursor := s.cursor.skipBlanks }
    if s.cursor.rest.isEmpty then (.ok (.eof s.cursor.position), s)
    else
      let s := { s with count := s.count + 1 }
      if limits.tokens < s.count then
        (.error ⟨.tooManyTokens limits.tokens, s.cursor.position⟩, s)
      else s.readTokenCounting limits

theorem readTokenCounting_eq (limits : Limits) (s : Scanner) :
    s.readTokenCounting limits = s.readToken limits := by
  have hword := readWordCounting_eq limits.nesting s.depth {} s.cursor
  unfold readTokenCounting readToken
  dsimp only
  cases leadingLexeme? s.cursor.rest with
  | some found => rfl
  | none =>
    dsimp only
    rw [show readWordCounting limits.nesting s.depth {} s.cursor = _ from hword]
    cases readWord limits.nesting s.depth {} s.cursor <;> rfl

/-- A count that is raised and lowered is that of the constructs on the stack, and where a token has
been read it is what it was before. -/
theorem nextCounting_eq (limits : Limits) (s : Scanner) :
    s.nextCounting limits = s.next limits := by
  unfold nextCounting next
  simp only [readTokenCounting_eq]

/-- Where a token has been read, the levels are those there were, and a word nests within them. -/
theorem depth_of_next_ok {token : Token} (h : s.next limits = (.ok token, s')) :
    s'.depth = s.depth ∧
      ∀ w, token.lexeme = .word w → w.NestsWithin (limits.nesting - s.depth).toNat := by
  rcases next_ok h with ⟨-, rfl, rfl⟩ | ⟨n, -, -, rfl, -, -, -, -, hread⟩
  · exact ⟨rfl, fun w hw => absurd hw (by simp [Token.eof])⟩
  · exact ⟨rfl, fun w hw => readWord_nestsWithin (hread w hw) (.word (nestsWithin_nil _))⟩

/-- What a call that fails comes to: the text is too long, there are too many tokens, or a word is
refused. -/
theorem next_error {e : SyntaxError} (h : s.next limits = (.error e, s')) :
    (e.fault = .inputTooLarge s.size limits.inputSize ∧ s' = s) ∨
      (e.fault = .tooManyTokens limits.tokens ∧
        s' = { s with cursor := s.cursor.skipBlanks, count := s.count + 1 }) ∨
      ∃ halt, readWord limits.nesting s.depth {} s.cursor.skipBlanks = .error halt ∧
        e = halt.error ∧
        s' = { s with cursor := halt.cursor, depth := halt.depth, count := s.count + 1 } := by
  unfold next at h
  split at h
  · cases h
    exact .inl ⟨rfl, rfl⟩
  · dsimp only at h
    split at h
    · exact absurd (Prod.mk.inj h).1 (by simp)
    · split at h
      · cases h
        exact .inr (.inl ⟨rfl, rfl⟩)
      · unfold readToken at h
        dsimp only at h
        split at h
        · exact absurd (Prod.mk.inj h).1 (by simp)
        · split at h
          · exact absurd (Prod.mk.inj h).1 (by simp)
          · rename_i halt hword
            cases h
            exact .inr (.inr ⟨halt, hword, rfl, rfl⟩)

/-- The faults that the scanner reports: the limits of its own, and what is wrong in a word. -/
theorem fault_of_next_error {e : SyntaxError} (h : s.next limits = (.error e, s')) :
    e.fault = .inputTooLarge s.size limits.inputSize ∨ e.fault = .tooManyTokens limits.tokens ∨
      (e.fault = .nestingTooDeep ∧ limits.nesting < s'.depth) ∨ e.fault.OfWord := by
  rcases next_error h with ⟨he, -⟩ | ⟨he, -⟩ | ⟨halt, hword, rfl, rfl⟩
  · exact .inl he
  · exact .inr (.inl he)
  · exact .inr (.inr (fault_of_readWord hword))

/-- What the scanner reports is about the text. -/
theorem isMissing_of_next_error {e : SyntaxError} (h : s.next limits = (.error e, s')) :
    e.fault.isMissing = false := by
  rcases fault_of_next_error h with he | he | ⟨he, -⟩ | hword
  · exact he ▸ rfl
  · exact he ▸ rfl
  · exact he ▸ rfl
  · exact hword.isMissing

theorem lt_depth_of_next_error {e : SyntaxError} (h : s.next limits = (.error e, s'))
    (hfault : e.fault = .nestingTooDeep) : limits.nesting < s'.depth := by
  rcases fault_of_next_error h with he | he | ⟨-, hlt⟩ | hword
  · exact absurd (he.symm.trans hfault) (by simp)
  · exact absurd (he.symm.trans hfault) (by simp)
  · exact hlt
  · exact (hfault ▸ hword : Fault.OfWord .nestingTooDeep).elim

/-! ## Calls in a row -/

theorem depth_after (text : Text) (n : Nat)
    (h : ∀ m < n, ∃ t, (((ofText text).after limits m).next limits).1 = .ok t) :
    ((ofText text).after limits n).depth = 0 := by
  induction n with
  | zero => rfl
  | succ n ih =>
    obtain ⟨t, ht⟩ := h n (Nat.lt_succ_self n)
    have hdepth := (depth_of_next_ok (Prod.ext ht rfl)).1
    exact hdepth.trans (ih fun m hm => h m (Nat.lt_succ_of_lt hm))

theorem readToken_of_count (limits : Limits) (s : Scanner) (k : Nat) :
    ({ s with count := k }.readToken limits).1 = (s.readToken limits).1 := by
  unfold readToken
  dsimp only
  split
  · rfl
  · split <;> rfl

/-- The number of tokens that have been read matters only where it is too large. -/
theorem next_of_count (limits : Limits) (s : Scanner) :
    (s.next limits).1 = ({ s with count := 0 }.next limits).1 ∨
      ∃ p, (s.next limits).1 = .error ⟨.tooManyTokens limits.tokens, p⟩ := by
  unfold next
  dsimp only
  split
  · exact .inl rfl
  · split
    · exact .inl rfl
    · split
      · exact .inr ⟨_, rfl⟩
      · rename_i hcount
        have hfirst : ¬ limits.tokens < (0 + 1 : Nat) := by omega
        rw [if_neg hfirst]
        have hcounted := readToken_of_count limits { s with cursor := s.cursor.skipBlanks }
        exact .inl ((hcounted (s.count + 1)).trans (hcounted (0 + 1)).symm)

/-- The levels that are open go up and down like a count, and with a token they are back where they
were: its word nests within the levels that were left, and where a word is refused, more are open
than may be. After calls that gave tokens, the next call gives what it would give if the text began
there, unless there are too many tokens. -/
theorem next_nesting (limits : Limits) :
    (∀ s : Scanner, s.nextCounting limits = s.next limits ∧
      (∀ token s', s.next limits = (.ok token, s') → s'.depth = s.depth ∧
        ∀ w, token.lexeme = .word w → w.NestsWithin (limits.nesting - s.depth).toNat) ∧
      ∀ e s', s.next limits = (.error e, s') → e.fault = .nestingTooDeep →
        limits.nesting < s'.depth) ∧
    ∀ text n, (∀ m < n, ∃ t, (((ofText text).after limits m).next limits).1 = .ok t) →
      let s := (ofText text).after limits n
      s.depth = 0 ∧
        ((s.next limits).1 = ({ ofText text with cursor := s.cursor }.next limits).1 ∨
          ∃ p, (s.next limits).1 = .error ⟨.tooManyTokens limits.tokens, p⟩) := by
  refine ⟨fun s => ⟨nextCounting_eq limits s, fun _ _ => depth_of_next_ok,
    fun _ _ => lt_depth_of_next_error⟩, fun text n h => ?_⟩
  have hdepth := depth_after text n h
  have hsize := size_after limits text n
  intro s
  have hfresh : { s with count := 0 } = { ofText text with cursor := s.cursor } := by
    show Scanner.mk s.cursor s.depth 0 s.size = ⟨s.cursor, 0, 0, text.length⟩
    rw [show s.depth = 0 from hdepth, show s.size = text.length from hsize]
  exact ⟨hdepth, hfresh ▸ next_of_count limits s⟩

/-- With one level to open, a second quoted word has it again, and an expansion inside of it is one
too many. -/
theorem nesting_of_second_word :
    let s := (ofText "\"a\" \"$\x7bB\x7d\"".toList).after { nesting := 1 } 1
    s.depth = 0 ∧ ∃ e s', s.next { nesting := 1 } = (.error e, s') ∧
      e.fault = .nestingTooDeep ∧ 1 < s'.depth := by
  intro s
  have hfirst : ∀ m < 1, ∃ t, (((ofText "\"a\" \"$\x7bB\x7d\"".toList).after
      { nesting := 1 } m).next { nesting := 1 }).1 = .ok t := by
    intro m hm
    obtain rfl := Nat.lt_one_iff.mp hm
    exact ⟨⟨.word [.double [.literal ['a']]], "\"a\"".toList, ⟨1, 1⟩, ⟨1, 4⟩⟩,
      by with_unfolding_all rfl⟩
  have hsecond : (s.next { nesting := 1 }).1 = .error ⟨.nestingTooDeep, ⟨1, 6⟩⟩ := by
    with_unfolding_all rfl
  obtain ⟨hcalls, hruns⟩ := next_nesting { nesting := 1 }
  exact ⟨(hruns _ 1 hfirst).1, _, _, Prod.ext hsecond rfl, rfl,
    Int.ofNat_lt.mp ((hcalls s).2.2 _ _ (Prod.ext hsecond rfl) rfl)⟩

end Scanner

end EnvScript
