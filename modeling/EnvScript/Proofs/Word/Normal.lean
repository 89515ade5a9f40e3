import EnvScript.Proofs.Expansion.Errors
import EnvScript.Proofs.Token.Stream
import EnvScript.Proofs.Word.Within
import Mathlib.Data.List.Chain

/-!
# Words in normal form

Every word that is read is in normal form: no literal is empty or stands next to another one, an
escape holds one character, and inside of quotes and operands only such parts stand as are read
there. The normal form of what has been read so far is kept by every piece, with one exception: a
backslash at the end of an operand that is never closed, after which no word is read any more.
-/

namespace EnvScript

/-! ## Normal forms -/

def Part.isLiteral : Part → Bool
  | .literal _ => true
  | _ => false

/-- What a part holds, wherever it stands. -/
def Part.Formed : Part → Prop
  | .literal t => t ≠ []
  | .escaped t => ∃ c, t = [c]
  | .glob t => t ∈ [['*'], ['?'], ['['], [']']]
  | _ => True

/-- The characters that are never plain in an operand. -/
def operandSigns : List Char := ['\\', '\'', '"', '`', '}']

/-- The part may stand directly at the place. -/
def Place.Admits : Place → Part → Prop
  | .word, _ => True
  | .quote, .literal _ | .quote, .parameter _ | .quote, .substitution .. | .quote, .specless ..
  | .quote, .unsupported .. | .quote, .command .. | .quote, .arithmetic _ => True
  | .quote, .escaped t => t ∈ [['$'], ['`'], ['"'], ['\\'], ['\n']]
  | .quote, _ => False
  | .operand, .literal t => ∀ c ∈ t, c ∉ operandSigns
  | .operand, .glob _ | .operand, .colon | .operand, .tilde _ => False
  | .operand, _ => True

/-- The parts that stand directly in the word at `place` are in normal form. -/
structure Word.NormalAt (place : Place) (w : Word) : Prop where
  formed : ∀ p ∈ w, p.Formed
  admitted : ∀ p ∈ w, place.Admits p
  separated : w.IsChain fun p q => ¬ (p.isLiteral = true ∧ q.isLiteral = true)

/-- What the part encloses is in normal form. -/
def Part.NormalInside : Part → Prop
  | .double parts => Word.NormalAt .quote parts
  | .substitution _ _ raw => raw ≠ [] ∧ Word.NormalAt .operand raw
  | _ => True

/-- The word at `place` is in normal form, and so is what any part encloses, at any depth. -/
structure Word.Normal (place : Place) (w : Word) : Prop extends Word.NormalAt place w where
  inside : ∀ p : Part, p.Occurs w → p.NormalInside

/-- The part alone, with all that is inside of it, is in normal form. -/
structure Part.NormalAt (place : Place) (p : Part) : Prop where
  formed : p.Formed
  admitted : place.Admits p
  inside : ∀ q : Part, q.Occurs [p] → q.NormalInside

/-- The part has other parts inside. -/
def Part.encloses : Part → Bool
  | .double _ | .substitution .. => true
  | _ => false

theorem Part.normalAt_of_not_encloses {place : Place} {p : Part} (h : p.encloses = false)
    (hformed : p.Formed) (hadmitted : place.Admits p) : p.NormalAt place := by
  refine ⟨hformed, hadmitted, fun q hq => ?_⟩
  rcases Part.occurs_single_iff.mp hq with rfl | ⟨parts, rfl, -⟩ | ⟨r, op, raw, rfl, -⟩
  · cases q with
    | double parts => exact absurd h (by simp [encloses])
    | substitution r op raw => exact absurd h (by simp [encloses])
    | _ => trivial
  · exact absurd h (by simp [encloses])
  · exact absurd h (by simp [encloses])

namespace Word

variable {place : Place} {p : Part} {w : Word}

theorem normal_nil : Word.Normal place [] :=
  ⟨⟨by simp, by simp, .nil⟩, fun p h => absurd h p.not_occurs_nil⟩

theorem Normal.cons (hp : p.NormalAt place) (hw : w.Normal place)
    (hhead : ∀ q ∈ w.head?, ¬ (p.isLiteral = true ∧ q.isLiteral = true)) :
    Word.Normal place (p :: w) where
  formed := List.forall_mem_cons.mpr ⟨hp.formed, hw.formed⟩
  admitted := List.forall_mem_cons.mpr ⟨hp.admitted, hw.admitted⟩
  separated := List.isChain_cons.mpr ⟨hhead, hw.separated⟩
  inside q hq := (Part.occurs_cons_iff.mp hq).elim (hp.inside q) (hw.inside q)

theorem Normal.reverse (h : w.Normal place) : Word.Normal place w.reverse where
  formed p hp := h.formed p (List.mem_reverse.mp hp)
  admitted p hp := h.admitted p (List.mem_reverse.mp hp)
  separated := List.isChain_reverse.mpr (h.separated.imp fun _ _ hpq hqp => hpq hqp.symm)
  inside p hp := h.inside p (hp.mono fun _ => List.mem_reverse.mp)

end Word

/-! ## Words in the making -/

/-- The draft at `place` is in normal form. Its last part is no literal, since the literal text
behind it would have become one with it. -/
structure Draft.Normal (place : Place) (d : Draft) : Prop where
  parts : Word.Normal place d.parts
  ended : ∀ p ∈ d.parts.head?, p.isLiteral = false
  plain : place = .operand → ∀ c ∈ d.text, c ∉ operandSigns

namespace Draft

variable {place : Place} {d : Draft}

theorem normal_empty : Draft.Normal place {} := ⟨Word.normal_nil, by simp, by simp⟩

theorem Normal.addText (h : d.Normal place) {c : Char} (hc : place = .operand → c ∉ operandSigns) :
    (d.addText c).Normal place :=
  ⟨h.parts, h.ended, fun hplace => List.forall_mem_cons.mpr ⟨hc hplace, h.plain hplace⟩⟩

theorem Normal.closed (h : d.Normal place) : Word.Normal place d.closed := by
  obtain ⟨parts, text⟩ := d
  cases text with
  | nil => exact h.parts
  | cons c text =>
    have hadmitted : place.Admits (.literal (c :: text).reverse) := by
      cases place with
      | word => trivial
      | quote => trivial
      | operand => exact fun x hx => h.plain rfl x (List.mem_reverse.mp hx)
    have hliteral := Part.normalAt_of_not_encloses rfl (by simp [Part.Formed]) hadmitted
    -- The literal text becomes a part behind one that is no literal.
    refine .cons hliteral h.parts fun q hq hboth => ?_
    rw [h.ended q hq] at hboth
    exact absurd hboth.2 (by simp)

theorem Normal.word (h : d.Normal place) : Word.Normal place d.word := h.closed.reverse

theorem Normal.addPart (h : d.Normal place) {p : Part} (hp : p.NormalAt place)
    (hliteral : p.isLiteral = false) : (d.addPart p).Normal place := by
  refine ⟨.cons hp h.closed fun q _ hboth => ?_, fun q hq => ?_, by simp [Draft.addPart]⟩
  · rw [hliteral] at hboth
    exact absurd hboth.1 (by simp)
  · exact Option.some.inj hq ▸ hliteral

end Draft

/-- What has been opened at `place` becomes a part in normal form once it is closed. -/
theorem Opening.normalAt_close {o : Opening} {place : Place} {w : Word}
    (ho : o = .quote → place ≠ .quote) (hw : w.Normal o.place) : (o.close w).NormalAt place := by
  -- Of the places only quotes refuse a part that is closed, and this part is another quote.
  cases o with
  | quote =>
    refine ⟨trivial, ?_, fun q hq => ?_⟩
    · cases place with
      | quote => exact absurd rfl (ho rfl)
      | _ => trivial
    · rcases Part.occurs_single_iff.mp hq with rfl | ⟨parts, h, hparts⟩ | ⟨p, op, raw, h, -⟩
      · exact hw.toNormalAt
      · exact hw.inside q (Part.double.inj h ▸ hparts)
      · exact absurd h (by simp [Opening.close])
  | operand p op =>
    cases w with
    | nil => exact Part.normalAt_of_not_encloses rfl trivial (by cases place <;> trivial)
    | cons part w =>
      refine ⟨trivial, by cases place <;> trivial, fun q hq => ?_⟩
      rcases Part.occurs_single_iff.mp hq with rfl | ⟨parts, h, -⟩ | ⟨p, op, raw, h, hraw⟩
      · exact ⟨by simp, hw.toNormalAt⟩
      · exact absurd h (by simp [Opening.close])
      · exact hw.inside q ((Part.substitution.inj h).2.2 ▸ hraw)
  | ignored p operator =>
    exact Part.normalAt_of_not_encloses rfl trivial (by cases place <;> trivial)

theorem Opening.isLiteral_close (o : Opening) (w : Word) : (o.close w).isLiteral = false := by
  cases o with
  | operand p op => cases w <;> rfl
  | _ => rfl

/-- The drafts are in normal form where they stand, and no quote is directly inside of another. -/
inductive Assembly.Normal : Assembly → Prop
  | word {d : Draft} (h : d.Normal .word) : Assembly.Normal ⟨d, []⟩
  | inside {d : Draft} {s : Suspended} {stack : List Suspended} (h : d.Normal s.opening.place)
      (hquote : s.opening = .quote → (Assembly.mk s.outer stack).place ≠ .quote)
      (houter : Assembly.Normal ⟨s.outer, stack⟩) : Assembly.Normal ⟨d, s :: stack⟩

/-- A piece that keeps the normal form at `place`. -/
def Piece.NormalAt (place : Place) : Piece → Prop
  | .plain c => place = .operand → c ∉ operandSigns
  | .part p => p.NormalAt place ∧ p.isLiteral = false
  | .opens o => o = .quote → place ≠ .quote
  | .closes => place ≠ .word

namespace Assembly.Normal

variable {a : Assembly} {d : Draft}

theorem draft (h : a.Normal) : a.draft.Normal a.place := by
  cases h with
  | word h => exact h
  | inside h _ _ => exact h

theorem withDraft (h : a.Normal) (hd : d.Normal a.place) : Assembly.Normal ⟨d, a.stack⟩ := by
  cases h with
  | word _ => exact .word hd
  | inside _ hquote houter => exact .inside hd hquote houter

theorem add (h : a.Normal) {piece : Piece} (hpiece : piece.NormalAt a.place) (p : Position) :
    (a.add p piece).Normal := by
  cases piece with
  | plain c => exact h.withDraft (h.draft.addText hpiece)
  | part part => exact h.withDraft (h.draft.addPart hpiece.1 hpiece.2)
  | opens o => exact .inside Draft.normal_empty hpiece h
  | closes =>
    cases h with
    | word _ => exact absurd rfl hpiece
    | inside hd hquote houter =>
      -- What is closed goes to the draft around it, as a part that is no literal.
      have hclose := Opening.normalAt_close hquote hd.word
      exact houter.withDraft (houter.draft.addPart hclose (Opening.isLiteral_close _ _))

theorem normal_word (h : a.Normal) (hstack : a.stack = []) : a.draft.word.Normal .word := by
  have hplace : a.place = .word := by rw [Assembly.place, hstack]
  exact (hplace ▸ h.draft).word

end Assembly.Normal

/-! ## Pieces -/

section

variable {place : Place} {x : Char} {t : Text} {piece : Piece} {n : Nat}

theorem Piece.IsCommon.normalAt (h : piece.IsCommon) : piece.NormalAt place := by
  unfold IsCommon at h
  split at h
  case h_5 => exact h.elim
  case h_4 => exact fun ho => absurd ho h
  all_goals
    exact ⟨Part.normalAt_of_not_encloses rfl trivial (by cases place <;> trivial), rfl⟩

theorem normalAt_of_part {p : Part} {m : Nat} (h : Reading.taking m (.part p) = .ok (piece, n))
    (hencloses : p.encloses = false) (hliteral : p.isLiteral = false) (hformed : p.Formed)
    (hadmitted : place.Admits p) : piece.NormalAt place := by
  obtain ⟨rfl, -⟩ := Prod.mk.inj (Except.ok.inj h)
  exact ⟨Part.normalAt_of_not_encloses hencloses hformed hadmitted, hliteral⟩

theorem normalAt_readDollar (h : readDollar t = .ok (piece, n)) : piece.NormalAt place := by
  rcases isCommon_readDollar h with hcommon | ⟨rfl, -⟩
  · exact hcommon.normalAt
  · exact fun _ => by decide

theorem mem_of_isQuotedEscape {d : Char} (h : isQuotedEscape d = true) :
    [d] ∈ [['$'], ['`'], ['"'], ['\\'], ['\n']] := by
  have hd := List.contains_iff_mem.mp h
  exact List.mem_map_of_mem (f := fun c => [c]) hd

theorem normalAt_readQuoted (h : readQuoted x t = .ok (piece, n)) : piece.NormalAt .quote := by
  have hplain : ∀ c, Reading.taking 0 (.plain c) = .ok (piece, n) → piece.NormalAt .quote := by
    intro c h
    obtain ⟨rfl, -⟩ := Prod.mk.inj (Except.ok.inj h)
    exact fun hplace => Place.noConfusion hplace
  unfold readQuoted at h
  split at h
  · obtain ⟨rfl, -⟩ := Prod.mk.inj (Except.ok.inj h)
    exact fun hplace => Place.noConfusion hplace
  · split at h
    · split at h
      · rename_i d t
        split at h
        next hescape =>
          exact normalAt_of_part h rfl rfl ⟨d, rfl⟩ (mem_of_isQuotedEscape hescape)
        next => exact hplain _ h
      · exact hplain _ h
    · exact hplain _ h

/-- A backslash at the end is the one sign that is plain in an operand. -/
theorem normalAt_readUnquoted (hplace : place ≠ .quote) (hbackquote : x ≠ '`')
    (hbrace : place = .operand → x ≠ '}') (h : readUnquoted x t = .ok (piece, n)) :
    piece.NormalAt place ∨ t = [] ∧ piece = .plain '\\' := by
  -- Outside of quotes there are two places, and what is read here may stand at both.
  have hadmits : ∀ p, Place.word.Admits p → Place.operand.Admits p → place.Admits p := by
    intro p hword hoperand
    cases place with
    | word => exact hword
    | quote => exact absurd rfl hplace
    | operand => exact hoperand
  unfold readUnquoted at h
  split at h
  · split at h
    · rename_i d t
      exact .inl (normalAt_of_part h rfl rfl ⟨d, rfl⟩ (hadmits _ trivial trivial))
    · obtain ⟨rfl, -⟩ := Prod.mk.inj (Except.ok.inj h)
      exact .inr ⟨rfl, rfl⟩
  · rename_i hbackslash
    refine .inl ?_
    split at h
    · unfold readSingle at h
      dsimp only at h
      split at h
      · exact normalAt_of_part h rfl rfl trivial (hadmits _ trivial trivial)
      · exact absurd h (by simp)
    · rename_i hsingle
      split at h
      · obtain ⟨rfl, -⟩ := Prod.mk.inj (Except.ok.inj h)
        exact fun _ => hplace
      · rename_i hdouble
        obtain ⟨rfl, -⟩ := Prod.mk.inj (Except.ok.inj h)
        intro hoperand
        simp [operandSigns, hbackslash, hsingle, hdouble, hbackquote, hbrace hoperand]

theorem normalAt_readPiece {tilde : Bool} (h : readPiece place tilde x t = .ok (piece, n)) :
    piece.NormalAt place ∨ place = .operand ∧ t = [] ∧ piece = .plain '\\' := by
  unfold readPiece at h
  split at h
  · exact .inl (normalAt_readDollar h)
  · split at h
    · exact .inl (isCommon_readBackquote t _ _ h).normalAt
    · rename_i hbackquote
      split at h
      · exact .inl (normalAt_readQuoted h)
      · split at h
        · obtain ⟨rfl, -⟩ := Prod.mk.inj (Except.ok.inj h)
          exact .inl fun hplace => Place.noConfusion hplace
        next hbrace =>
          exact (normalAt_readUnquoted (by simp) hbackquote (fun _ => hbrace) h).imp_right
            fun hend => ⟨rfl, hend⟩
      · refine .inl ?_
        split at h
        next hglob =>
          exact normalAt_of_part h rfl rfl
            (List.mem_map_of_mem (f := fun c => [c]) (List.contains_iff_mem.mp hglob)) trivial
        next =>
          split at h
          · exact normalAt_of_part h rfl rfl trivial trivial
          · split at h
            · exact normalAt_of_part h rfl rfl trivial trivial
            · have hunquoted : piece.NormalAt .word ∨ t = [] ∧ piece = .plain '\\' :=
                normalAt_readUnquoted (by simp) hbackquote (by simp) h
              rcases hunquoted with h | ⟨-, rfl⟩
              · exact h
              · exact fun hplace => Place.noConfusion hplace

end

/-! ## Reading on -/

theorem Assembly.stack_ne_nil {a : Assembly} (h : a.place ≠ .word) : a.stack ≠ [] :=
  fun hstack => h (by rw [Assembly.place, hstack])

theorem readWord_normal {limit : Int} {base : Nat} {a : Assembly} {c after : Cursor} {w : Word}
    (h : readWord limit base a c = .ok (w, after)) (ha : a.Normal) : w.Normal .word := by
  fun_induction readWord limit base a c with
  | case1 a c hrest hstack =>
    obtain ⟨rfl, -⟩ := Prod.mk.inj (Except.ok.inj h)
    exact ha.normal_word hstack
  | case2 => exact absurd h (by simp)
  | case3 a c x t hrest hbreak =>
    obtain ⟨rfl, -⟩ := Prod.mk.inj (Except.ok.inj h)
    exact ha.normal_word (List.isEmpty_iff.mp (Bool.and_eq_true_iff.mp hbreak).1)
  | case4 => exact absurd h (by simp)
  | case5 a c depth x t hrest hbreak deeper hdeep piece n hpiece ih =>
    rcases normalAt_readPiece hpiece with hnormal | ⟨hplace, rfl, rfl⟩
    · exact ih h (ha.add hnormal c.position)
    · -- The text ends inside of the operand, which is an error.
      have hend : (c.advance (n + 1)).rest = [] := by
        rw [Cursor.rest_advance, hrest]
        simp
      have hstack := a.stack_ne_nil (by rw [hplace]; simp)
      rw [readWord_nil hend] at h
      split at h
      · rename_i hnil
        exact absurd hnil hstack
      · exact absurd h (by simp)
  | case6 => exact absurd h (by simp)

/-- Every word that the scanner builds is in normal form, at every depth. -/
theorem tokenize_normal {limits : Limits} {text : Text} {tokens : List Token}
    (h : tokenize limits text = .ok tokens) {t : Token} (ht : t ∈ tokens) {w : Word}
    (hw : t.lexeme = .word w) : w.Normal .word := by
  obtain ⟨s, hyields⟩ := Scanner.yields_of_tokensUpTo h
  obtain ⟨s₁, s₂, hnext⟩ := hyields.exists_next ht
  rcases Scanner.next_ok hnext with ⟨-, rfl, -⟩ | ⟨n, -, -, rfl, -, htext, -, -, hread⟩
  · exact absurd hw (by simp [Token.eof])
  · exact readWord_normal (hread w hw) (.word Draft.normal_empty)

/-- An operand with quotes and an escape in it, inside of a double quote. -/
theorem normal_of_quoted_operand :
    tokenize {} "A=\\*?\"$\\\"$\x7b1/'\x7d'\\\x7d\"b\"/]:\x7d\"".toList = .ok
        [⟨.word [.literal "A=".toList, .escaped ['*'], .glob ['?'],
          .double [.literal ['$'], .escaped ['"'], .substitution (.special ['1']) .replace
            [.single ['}'], .escaped ['}'], .double [.literal ['b']], .literal "/]:".toList]]],
          "A=\\*?\"$\\\"$\x7b1/'\x7d'\\\x7d\"b\"/]:\x7d\"".toList, ⟨1, 1⟩, ⟨1, 27⟩⟩,
          .eof ⟨1, 27⟩] ∧
      Word.Normal .word [.literal "A=".toList, .escaped ['*'], .glob ['?'],
        .double [.literal ['$'], .escaped ['"'], .substitution (.special ['1']) .replace
          [.single ['}'], .escaped ['}'], .double [.literal ['b']], .literal "/]:".toList]]] := by
  have h : tokenize {} "A=\\*?\"$\\\"$\x7b1/'\x7d'\\\x7d\"b\"/]:\x7d\"".toList = .ok
      [⟨.word [.literal "A=".toList, .escaped ['*'], .glob ['?'],
        .double [.literal ['$'], .escaped ['"'], .substitution (.special ['1']) .replace
          [.single ['}'], .escaped ['}'], .double [.literal ['b']], .literal "/]:".toList]]],
        "A=\\*?\"$\\\"$\x7b1/'\x7d'\\\x7d\"b\"/]:\x7d\"".toList, ⟨1, 1⟩, ⟨1, 27⟩⟩,
        .eof ⟨1, 27⟩] := by
    with_unfolding_all rfl
  exact ⟨h, tokenize_normal h List.mem_cons_self rfl⟩

end EnvScript
