import EnvScript.Proofs.Token.Positions
import EnvScript.Proofs.Word.Moved

/-!
# The scanner after errors

The scanner can be called again after an error and at the end of the text. However often it is
called, its cursor is at an offset of the text and never goes back. It steps over no character that
is not there: `Scanner.next?` gives up where a character is missing, and it never does.
-/

namespace EnvScript

variable {limits : Limits} {text t : Text} {n : Nat} {c d : Cursor} {s : Scanner}

/-! ## Steps over characters that are there -/

namespace Cursor

/-- Steps over `n` characters, if there are as many. -/
def advance? : Nat → Cursor → Option Cursor
  | 0, c => some c
  | n + 1, c =>
    match c.rest with
    | [] => none
    | x :: t => advance? n ⟨t, c.offset + 1, c.position.next x⟩

theorem advance?_eq_some_iff : c.advance? n = some d ↔ n ≤ c.rest.length ∧ c.advance n = d := by
  induction n generalizing c with
  | zero => simp [advance?, advance]
  | succ n ih =>
    obtain ⟨rest, offset, position⟩ := c
    cases rest with
    | nil => simp [advance?]
    | cons x t =>
      show advance? n _ = some d ↔ _
      rw [ih, List.length_cons, Nat.add_le_add_iff_right]
      rfl

theorem advance?_of_le (h : n ≤ c.rest.length) : c.advance? n = some (c.advance n) :=
  advance?_eq_some_iff.mpr ⟨h, rfl⟩

theorem length_lt_of_advance? (h : c.advance? n = some d) (hn : n ≠ 0) :
    d.rest.length < c.rest.length := by
  obtain ⟨hle, rfl⟩ := advance?_eq_some_iff.mp h
  rw [rest_advance, List.length_drop]
  omega

/-- Skips blanks by steps over characters that are there. -/
def skipBlanks? (c : Cursor) : Option Cursor :=
  if _hblank : blankStep c.rest = 0 then some c
  else
    match _h : c.advance? (blankStep c.rest) with
    | none => none
    | some d => d.skipBlanks?
termination_by c.rest.length
decreasing_by exact length_lt_of_advance? _h _hblank

theorem skipBlanks?_eq (c : Cursor) : c.skipBlanks? = some c.skipBlanks := by
  fun_induction skipBlanks c with
  | case1 c hblank => rw [skipBlanks?, dif_pos hblank]
  | case2 c hblank ih =>
    rw [skipBlanks?, dif_neg hblank]
    split
    · rename_i hnone
      rw [advance?_of_le (blankStep_le _)] at hnone
      exact absurd hnone (by simp)
    · rename_i d hsome
      obtain ⟨-, rfl⟩ := advance?_eq_some_iff.mp hsome
      exact ih

end Cursor

/-! ## Words -/

/-- What is misplaced is not farther on than there is text. -/
def Reading.ReportsIn (r : Reading) (t : Text) : Prop :=
  ∀ fault n, r = .error (.misplaced fault n) → n ≤ t.length

theorem reportsIn_taking (k : Nat) (p : Piece) : (Reading.taking k p).ReportsIn t :=
  fun _ _ h => absurd h (by simp [Reading.taking])

theorem reportsIn_unclosed (construct : Construct) :
    Reading.ReportsIn (.error (.unclosed construct)) t :=
  fun _ _ h => absurd h (by simp)

theorem reportsIn_misplaced (fault : Fault) :
    Reading.ReportsIn (.error (.misplaced fault 0)) t := by
  intro fault' n h
  simp only [Except.error.injEq, Flaw.misplaced.injEq] at h
  omega

theorem Reading.ReportsIn.shift {r : Reading} {k : Nat} (h : r.ReportsIn (t.drop k))
    (hk : k ≤ t.length) : (r.shift k).ReportsIn t := by
  intro fault n hr
  match r, h with
  | .ok (p, m), _ => exact absurd hr (by simp [Reading.shift])
  | .error (.unclosed c), _ => exact absurd hr (by simp [Reading.shift])
  | .error (.misplaced fault' m), h =>
    have hle := h fault' m rfl
    simp only [Reading.shift, Except.error.injEq, Flaw.misplaced.injEq] at hr
    rw [List.length_drop] at hle
    omega

theorem reportsIn_missingParameter (u : Text) : (missingParameter u).ReportsIn t := by
  unfold missingParameter
  split
  · exact reportsIn_unclosed _
  · exact reportsIn_misplaced _

theorem reportsIn_readOperator (p : Parameter) (u : Text) : (readOperator p u).ReportsIn t := by
  unfold readOperator
  split
  · exact reportsIn_unclosed _
  · exact reportsIn_taking _ _
  · exact reportsIn_taking _ _
  · exact reportsIn_taking _ _
  · split <;> exact reportsIn_taking _ _
  · exact reportsIn_taking _ _
  · split
    · exact reportsIn_taking _ _
    · split
      · exact reportsIn_taking _ _
      · exact reportsIn_misplaced _

theorem reportsIn_readBraced (t : Text) : (readBraced t).ReportsIn t := by
  unfold readBraced
  split
  · exact reportsIn_missingParameter _
  · split
    · split
      · exact reportsIn_taking _ _
      · exact (reportsIn_missingParameter _).shift (by simp)
    · split
      · rename_i hparam
        exact (reportsIn_readOperator _ _).shift (length_of_leadingParameter? hparam)
      · exact reportsIn_missingParameter _

theorem reportsIn_readDollar (t : Text) : (readDollar t).ReportsIn t := by
  unfold readDollar
  split
  · rename_i u
    exact Reading.ReportsIn.shift (t := '{' :: u) (reportsIn_readBraced u) (by simp)
  · split
    · exact reportsIn_taking _ _
    · exact reportsIn_unclosed _
  · split
    · exact reportsIn_taking _ _
    · exact reportsIn_unclosed _
  · split
    · exact reportsIn_taking _ _
    · split <;> exact reportsIn_taking _ _
    · exact reportsIn_taking _ _

/-- Without a `$` the only flaw is that a construct is not closed. -/
theorem reportsIn_readUnquoted (x : Char) (u : Text) : (readUnquoted x u).ReportsIn t := by
  unfold readUnquoted
  split
  · split <;> exact reportsIn_taking _ _
  · split
    · unfold readSingle
      dsimp only
      split
      · exact reportsIn_taking _ _
      · exact reportsIn_unclosed _
    · split <;> exact reportsIn_taking _ _

theorem reportsIn_readQuoted (x : Char) (u : Text) : (readQuoted x u).ReportsIn t := by
  unfold readQuoted
  split
  · exact reportsIn_taking _ _
  · split
    · split
      · split <;> exact reportsIn_taking _ _
      · exact reportsIn_taking _ _
    · exact reportsIn_taking _ _

theorem reportsIn_readPiece (place : Place) (tilde : Bool) (x : Char) (t : Text) :
    (readPiece place tilde x t).ReportsIn t := by
  unfold readPiece
  split
  · exact reportsIn_readDollar t
  · split
    · unfold readBackquote
      split
      · exact reportsIn_taking _ _
      · exact reportsIn_unclosed _
    · split
      · exact reportsIn_readQuoted x t
      · split
        · exact reportsIn_taking _ _
        · exact reportsIn_readUnquoted x t
      · split
        · exact reportsIn_taking _ _
        · split
          · exact reportsIn_taking _ _
          · split
            · exact reportsIn_taking _ _
            · exact reportsIn_readUnquoted x t

/-- The error of a flawed piece, reached by steps over characters that are there. -/
def Halt.ofFlaw? (c : Cursor) (depth : Nat) : Flaw → Option Halt
  | .unclosed construct =>
    (c.advance? c.rest.length).map (⟨⟨.unterminated construct, c.position⟩, ·, depth⟩)
  | .misplaced fault taken =>
    (c.advance? (taken + 1)).map fun d => ⟨⟨fault, d.position⟩, d, depth⟩

/-- Reads on to the end of the word by steps over characters that are there. -/
def readWord? (limit : Int) (base : Nat) (a : Assembly) (c : Cursor) :
    Option (Except Halt (Word × Cursor)) :=
  let depth := base + a.stack.length
  match c.rest with
  | [] =>
    match a.stack with
    | [] => some (.ok (a.draft.word, c))
    | s :: _ => some (.error ⟨⟨.unterminated s.opening.construct, s.start⟩, c, depth⟩)
  | x :: t =>
    if a.stack.isEmpty && isBreak x then some (.ok (a.draft.word, c))
    else
      let deeper := nests a.place x t
      if deeper && limit < depth + 1 then
        some (.error ⟨⟨.nestingTooDeep, c.position⟩, c, depth + 1⟩)
      else
        match readPiece a.place a.draft.allowsTilde x t with
        | .ok (piece, n) =>
          match _h : c.advance? (n + 1) with
          | none => none
          | some d => readWord? limit base (a.add c.position piece) d
        | .error flaw => (Halt.ofFlaw? c (if deeper then depth + 1 else depth) flaw).map .error
termination_by c.rest.length
decreasing_by exact Cursor.length_lt_of_advance? _h (Nat.succ_ne_zero n)

theorem Halt.ofFlaw?_eq {x : Char} {place : Place} {tilde : Bool} {flaw : Flaw}
    (hc : c.rest = x :: t) (hflaw : readPiece place tilde x t = .error flaw) (depth : Nat) :
    Halt.ofFlaw? c depth flaw = some (.ofFlaw c depth flaw) := by
  cases flaw with
  | unclosed construct =>
    rw [ofFlaw?, Cursor.advance?_of_le (Nat.le_refl _)]
    rfl
  | misplaced fault taken =>
    have hle := reportsIn_readPiece place tilde x t fault taken hflaw
    have hlength : taken + 1 ≤ c.rest.length := by
      rw [hc, List.length_cons]
      omega
    rw [ofFlaw?, Cursor.advance?_of_le hlength]
    rfl

theorem readWord?_eq (limit : Int) (base : Nat) (a : Assembly) (c : Cursor) :
    readWord? limit base a c = some (readWord limit base a c) := by
  fun_induction readWord limit base a c with
  | case1 a c hrest hstack =>
    rw [readWord?, hrest]
    dsimp only
    rw [hstack]
  | case2 a c depth hrest o stack hstack =>
    rw [readWord?, hrest]
    simp only [hstack, depth]
  | case3 a c x t hrest hbreak =>
    rw [readWord?, hrest]
    dsimp only
    rw [if_pos hbreak]
  | case4 a c depth x t hrest hbreak deeper hdeep =>
    rw [readWord?, hrest]
    dsimp only
    rw [if_neg hbreak, if_pos hdeep]
  | case5 a c depth x t hrest hbreak deeper hdeep piece n hpiece ih =>
    have hle := fitsIn_readPiece _ _ x t piece n hpiece
    have hlength : n + 1 ≤ c.rest.length := by
      rw [hrest, List.length_cons]
      omega
    rw [readWord?, hrest]
    dsimp only
    rw [if_neg hbreak, if_neg hdeep, hpiece]
    dsimp only
    split
    · rename_i hnone
      rw [Cursor.advance?_of_le hlength] at hnone
      exact absurd hnone (by simp)
    · rename_i d hsome
      obtain ⟨-, rfl⟩ := Cursor.advance?_eq_some_iff.mp hsome
      exact ih
  | case6 a c depth x t hrest hbreak deeper hdeep flaw hpiece =>
    rw [readWord?, hrest]
    dsimp only
    rw [if_neg hbreak, if_neg hdeep, hpiece]
    dsimp only
    rw [Halt.ofFlaw?_eq hrest hpiece]
    rfl

/-- An error leaves the cursor on the way to the end. -/
theorem exists_advance_of_readWord_error {limit : Int} {base : Nat} {a : Assembly} {halt : Halt}
    (h : readWord limit base a c = .error halt) : ∃ n, halt.cursor = c.advance n := by
  fun_induction readWord limit base a c with
  | case2 =>
    obtain rfl := Except.error.inj h
    exact ⟨0, rfl⟩
  | case4 =>
    obtain rfl := Except.error.inj h
    exact ⟨0, rfl⟩
  | case5 a c depth x t hrest hbreak deeper hdeep piece n hpiece ih =>
    obtain ⟨m, hm⟩ := ih h
    exact ⟨n + 1 + m, by rw [hm, Cursor.advance_advance]⟩
  | case6 a c depth x t hrest hbreak deeper hdeep flaw hpiece =>
    obtain rfl := Except.error.inj h
    cases flaw with
    | unclosed construct => exact ⟨_, rfl⟩
    | misplaced fault taken => exact ⟨_, rfl⟩
  | _ => exact absurd h (by simp)

/-! ## One call -/

namespace Scanner

/-- Reads a token by steps over characters that are there. -/
def readToken? (limits : Limits) (s : Scanner) : Option (Except SyntaxError Token × Scanner) :=
  let token (lexeme : Lexeme) (after : Cursor) : Token :=
    ⟨lexeme, s.cursor.rest.take (after.offset - s.cursor.offset), s.cursor.position,
      after.position⟩
  match leadingLexeme? s.cursor.rest with
  | some (lexeme, n) =>
    (s.cursor.advance? n).map fun after => (.ok (token lexeme after), { s with cursor := after })
  | none =>
    (readWord? limits.nesting s.depth {} s.cursor).map fun
      | .ok (word, after) => (.ok (token (.word word) after), { s with cursor := after })
      | .error halt => (.error halt.error, { s with cursor := halt.cursor, depth := halt.depth })

/-- Reads the next token by steps over characters that are there. -/
def next? (limits : Limits) (s : Scanner) : Option (Except SyntaxError Token × Scanner) :=
  if limits.inputSize < s.size then
    some (.error ⟨.inputTooLarge s.size limits.inputSize, .start⟩, s)
  else
    s.cursor.skipBlanks?.bind fun cursor =>
      let s := { s with cursor }
      if s.cursor.rest.isEmpty then some (.ok (.eof s.cursor.position), s)
      else
        let s := { s with count := s.count + 1 }
        if limits.tokens < s.count then
          some (.error ⟨.tooManyTokens limits.tokens, s.cursor.position⟩, s)
        else s.readToken? limits

theorem readToken?_eq (limits : Limits) (s : Scanner) :
    s.readToken? limits = some (s.readToken limits) := by
  unfold readToken? readToken
  dsimp only
  cases hlexeme : leadingLexeme? s.cursor.rest with
  | none =>
    dsimp only
    rw [readWord?_eq]
    cases readWord limits.nesting s.depth {} s.cursor <;> rfl
  | some found =>
    dsimp only
    rw [Cursor.advance?_of_le (length_of_leadingLexeme? hlexeme)]
    rfl

theorem next?_eq (limits : Limits) (s : Scanner) : s.next? limits = some (s.next limits) := by
  unfold next? next
  rw [Cursor.skipBlanks?_eq, Option.bind_some]
  dsimp only
  split
  · rfl
  · split
    · rfl
    · split
      · rfl
      · exact readToken?_eq limits _

theorem exists_advance_readToken (limits : Limits) (s : Scanner) :
    ∃ n, (s.readToken limits).2.cursor = s.cursor.advance n := by
  unfold readToken
  dsimp only
  split
  · exact ⟨_, rfl⟩
  · split
    · rename_i hword
      exact exists_advance_of_readWord hword
    · rename_i hword
      exact exists_advance_of_readWord_error hword

theorem exists_advance_next (limits : Limits) (s : Scanner) :
    ∃ n, (s.next limits).2.cursor = s.cursor.advance n := by
  obtain ⟨m, hm⟩ := s.cursor.exists_advance_skipBlanks
  unfold next
  split
  · exact ⟨0, rfl⟩
  · dsimp only
    split
    · exact ⟨m, hm⟩
    · split
      · exact ⟨m, hm⟩
      · obtain ⟨n, hn⟩ := exists_advance_readToken limits
          { s with cursor := s.cursor.skipBlanks, count := s.count + 1 }
        exact ⟨m + n, by rw [hn, hm, Cursor.advance_advance]⟩

theorem size_of_next (limits : Limits) (s : Scanner) : (s.next limits).2.size = s.size := by
  unfold next
  split
  · rfl
  · dsimp only
    split
    · rfl
    · split
      · rfl
      · exact readToken_size limits _

/-- The end token comes exactly where nothing but blanks is left of a text that is not too large. -/
theorem next_eof_iff :
    (∃ t, (s.next limits).1 = .ok t ∧ t.kind = .eof) ↔
      s.size ≤ limits.inputSize ∧ s.cursor.skipBlanks.rest = [] := by
  constructor
  · intro ⟨t, ht, heof⟩
    have hnext : s.next limits = (.ok t, (s.next limits).2) := Prod.ext ht rfl
    apply And.intro (size_next hnext).2
    rcases next_ok hnext with ⟨hrest, -⟩ | ⟨n, -, -, -, hkind, -⟩
    · exact hrest
    · exact absurd heof hkind
  · intro ⟨hsize, hrest⟩
    exact ⟨_, congrArg Prod.fst (next_end_of_skipBlanks hsize hrest), rfl⟩

/-! ## Calls in a row -/

/-- The scanner after `n` calls, whatever they gave. -/
def after (limits : Limits) (s : Scanner) : Nat → Scanner
  | 0 => s
  | n + 1 => ((s.after limits n).next limits).2

theorem at_next (hat : s.cursor.At text) : (s.next limits).2.cursor.At text := by
  obtain ⟨n, hn⟩ := exists_advance_next limits s
  exact hn ▸ hat.advance n

theorem at_after (limits : Limits) (text : Text) (n : Nat) :
    ((ofText text).after limits n).cursor.At text := by
  induction n with
  | zero => exact Cursor.at_ofText text
  | succ n ih => exact at_next ih

theorem size_after (limits : Limits) (text : Text) (n : Nat) :
    ((ofText text).after limits n).size = text.length := by
  induction n with
  | zero => rfl
  | succ n ih => exact (size_of_next limits _).trans ih

theorem offset_lt_next (hat : s.cursor.At text) {token : Token}
    (htoken : (s.next limits).1 = .ok token) (heof : token.kind ≠ .eof) :
    s.cursor.offset < (s.next limits).2.cursor.offset := by
  have hlength : (s.next limits).2.cursor.rest.length < s.cursor.rest.length :=
    length_next_lt_of_ne_eof (Prod.ext htoken rfl) heof
  have hat' : (s.next limits).2.cursor.At text := at_next hat
  have hle := hat'.le
  rw [hat.rest_eq, hat'.rest_eq, List.length_drop, List.length_drop] at hlength
  omega

/-- However often the scanner has been called: the next call steps over no character that is not
there, it leaves the cursor at an offset of the text with that offset's position, from which the
offset can be counted, and it does not go back. A token takes a character at least, and the end
token comes exactly where nothing but blanks, escaped newlines and a comment is left. -/
theorem next_keeps_to_text (limits : Limits) (text : Text) (n : Nat) :
    let s := (ofText text).after limits n
    let r := s.next limits
    s.next? limits = some r ∧ r.2.cursor.At text ∧
      r.2.cursor.position.offsetIn text = r.2.cursor.offset ∧
      s.cursor.offset ≤ r.2.cursor.offset ∧
      (∀ token, r.1 = .ok token → token.kind ≠ .eof → s.cursor.offset < r.2.cursor.offset) ∧
      ((∃ token, r.1 = .ok token ∧ token.kind = .eof) ↔
        text.length ≤ limits.inputSize ∧ Gap [] (text.drop s.cursor.offset)) := by
  have hat := at_after limits text n
  have hsize := size_after limits text n
  generalize (ofText text).after limits n = s at hat hsize
  intro s r
  have hprogress : s.cursor.offset ≤ r.2.cursor.offset := by
    obtain ⟨m, hm⟩ := exists_advance_next limits s
    exact hm ▸ s.cursor.offset_le_advance m
  have hend : (∃ token, r.1 = .ok token ∧ token.kind = .eof) ↔
      text.length ≤ limits.inputSize ∧ Gap [] (text.drop s.cursor.offset) := by
    rw [next_eof_iff, hsize, ← hat.rest_eq, Cursor.rest_skipBlanks_eq_nil_iff]
  exact ⟨next?_eq limits s, at_next hat, (at_next hat).offsetIn, hprogress,
    fun _ => offset_lt_next hat, hend⟩

/-- An error in a parameter inside of double quotes leaves the cursor in the middle of the word and
two levels open. The call after it reads on from there. -/
theorem next_after_nested_error :
    let text := "X=1\nA=\"$\x7bB.\x7d C".toList
    let s := (ofText text).after {} 3
    (((ofText text).after {} 2).next {}).1.map Token.text =
        .error ⟨.unexpectedOperator '.', ⟨2, 7⟩⟩ ∧
      s.depth = 2 ∧ s.cursor.offset = 10 ∧ s.next? {} = some (s.next {}) ∧
      (∃ token, (s.next {}).1 = .ok token ∧ token.text = ['.', '\x7d']) ∧
      (s.next {}).2.cursor.At text ∧ (s.next {}).2.cursor.position = ⟨2, 9⟩ ∧
      Position.offsetIn ⟨2, 9⟩ text = (s.next {}).2.cursor.offset ∧
      10 < (s.next {}).2.cursor.offset := by
  -- What the calls come to, but for the token, which is not compared as a whole.
  have hcalls :
      let s := ofText "X=1\nA=\"$\x7bB.\x7d C".toList
      ((s.after {} 2).next {}).1.map Token.text = .error ⟨.unexpectedOperator '.', ⟨2, 7⟩⟩ ∧
        (s.after {} 3).depth = 2 ∧ (s.after {} 3).cursor.offset = 10 ∧
        ((s.after {} 3).next {}).1.map (fun token => (token.text, token.kind)) =
          .ok (['.', '\x7d'], .word) ∧
        ((s.after {} 3).next {}).2.cursor.position = ⟨2, 9⟩ := by
    decide +kernel
  obtain ⟨herror, hdepth, hoffset, hread, hposition⟩ := hcalls
  obtain ⟨token, htoken, heq⟩ := exceptMap_eq_ok hread
  obtain ⟨htext, hkind⟩ := Prod.mk.inj heq
  obtain ⟨hchecked, hat, hcounted, -, hforward, -⟩ :=
    next_keeps_to_text {} "X=1\nA=\"$\x7bB.\x7d C".toList 3
  refine ⟨herror, hdepth, hoffset, hchecked, ⟨token, htoken, htext⟩, hat, hposition, ?_, ?_⟩
  · rw [← hposition]
    exact hcounted
  · rw [← hoffset]
    exact hforward token htoken (by rw [hkind]; decide)

end Scanner

end EnvScript
