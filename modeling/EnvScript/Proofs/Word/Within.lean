import EnvScript.Proofs.Word.Leading
import EnvScript.Proofs.Word.Seam

/-!
# Words in a part of a text

A word that is read in a part of a text is read in the whole text too, further down and with more
text behind it. A newline that follows the part ends a word as the end of the part does.
-/

namespace EnvScript

/-! ## Places in a part -/

/-- The position `k` lines further down. -/
def Position.down (k : Nat) (p : Position) : Position := ⟨p.line + k, p.col⟩

theorem Position.next_down (k : Nat) (p : Position) (c : Char) :
    (p.down k).next c = (p.next c).down k := by
  unfold Position.next Position.down
  split
  · rw [Nat.add_right_comm]
  · rfl

theorem Position.after_down (k : Nat) (p : Position) (t : Text) :
    (p.down k).after t = (p.after t).down k := by
  induction t generalizing p with
  | nil => rfl
  | cons c t ih => rw [Position.after_cons, Position.after_cons, Position.next_down, ih]

def SyntaxError.down (k : Nat) (e : SyntaxError) : SyntaxError := ⟨e.fault, e.position.down k⟩

/-- A cursor `d` in a text that has `k` lines and then the text of `c` in it, with `tail` behind. -/
structure Cursor.Within (k : Nat) (tail : Text) (c d : Cursor) : Prop where
  rest : d.rest = c.rest ++ tail
  position : d.position = c.position.down k

/-- The text `tail` does not run into `t`: there is none, or it begins with a newline that no
backslash at the end of `t` takes. -/
def Apart (t tail : Text) : Prop :=
  tail = [] ∨ (∃ u, tail = '\n' :: u) ∧ t.getLast? ≠ some '\\'

theorem Apart.drop {t tail : Text} (h : Apart t tail) (n : Nat) : Apart (t.drop n) tail := by
  refine h.imp_right fun ⟨htail, hlast⟩ => ⟨htail, ?_⟩
  rw [List.getLast?_drop]
  split
  · simp
  · exact hlast

variable {k : Nat} {tail : Text} {c d : Cursor}

theorem Cursor.Within.advance (h : c.Within k tail d) {n : Nat} (hn : n ≤ c.rest.length) :
    (c.advance n).Within k tail (d.advance n) := by
  refine ⟨?_, ?_⟩
  · rw [Cursor.rest_advance, Cursor.rest_advance, h.rest, List.drop_append_of_le_length hn]
  · rw [Cursor.position_advance, Cursor.position_advance, h.rest, h.position,
      List.take_append_of_le_length hn, Position.after_down]

/-! ## Reading on -/

def Assembly.down (k : Nat) (a : Assembly) : Assembly :=
  { a with stack := a.stack.map fun s => { s with start := s.start.down k } }

theorem Assembly.place_down (a : Assembly) : (a.down k).place = a.place := by
  obtain ⟨draft, _ | ⟨s, stack⟩⟩ := a <;> rfl

theorem Assembly.add_down (a : Assembly) (p : Position) (piece : Piece) :
    (a.down k).add (p.down k) piece = (a.add p piece).down k := by
  obtain ⟨draft, _ | ⟨s, stack⟩⟩ := a <;> cases piece <;> rfl

theorem Assembly.length_down (a : Assembly) : (a.down k).stack.length = a.stack.length :=
  List.length_map _

theorem Assembly.isEmpty_down (a : Assembly) : (a.down k).stack.isEmpty = a.stack.isEmpty := by
  rw [Assembly.down, List.isEmpty_map]

theorem readWord_nil {limit : Int} {base : Nat} {a : Assembly} (h : c.rest = []) :
    readWord limit base a c =
      match a.stack with
      | [] => .ok (a.draft.word, c)
      | s :: _ =>
        .error ⟨⟨.unterminated s.opening.construct, s.start⟩, c, base + a.stack.length⟩ := by
  rw [readWord]
  split
  · rfl
  · rename_i hcons
    rw [h] at hcons
    exact absurd hcons (by simp)

theorem readWord_cons {limit : Int} {base : Nat} {a : Assembly} {x : Char} {t : Text}
    (h : c.rest = x :: t) :
    readWord limit base a c =
      if a.stack.isEmpty && isBreak x then .ok (a.draft.word, c)
      else if nests a.place x t && limit < base + a.stack.length + 1 then
        .error ⟨⟨.nestingTooDeep, c.position⟩, c, base + a.stack.length + 1⟩
      else
        match readPiece a.place a.draft.allowsTilde x t with
        | .ok (piece, n) => readWord limit base (a.add c.position piece) (c.advance (n + 1))
        | .error flaw =>
          .error (.ofFlaw c (if nests a.place x t then base + a.stack.length + 1
            else base + a.stack.length) flaw) := by
  conv => lhs; rw [readWord]
  split
  · rename_i hnil
    rw [h] at hnil
    exact absurd hnil (by simp)
  · rename_i x' t' hcons
    rw [h] at hcons
    obtain ⟨rfl, rfl⟩ := List.cons.inj hcons
    rfl

/-- A piece that can be read is taken in, unless a break ends the word or the limit is reached. -/
theorem readWord_of_readPiece {limit : Int} {base : Nat} {a : Assembly} {place : Place} {x : Char}
    {t : Text} {piece : Piece} {n : Nat} (hc : c.rest = x :: t)
    (hread : readPiece place a.draft.allowsTilde x t = .ok (piece, n))
    (hbreak : (a.stack.isEmpty && isBreak x) = false)
    (hdepth : nests place x t = true → (base : Int) + a.stack.length + 1 ≤ limit)
    (hplace : a.place = place) :
    readWord limit base a c = readWord limit base (a.add c.position piece) (c.advance (n + 1)) := by
  have hshallow : (nests place x t && decide (limit < base + a.stack.length + 1)) = false := by
    cases hnests : nests place x t with
    | false => rfl
    | true => exact decide_eq_false (Int.not_lt.mpr (hdepth hnests))
  rw [readWord_cons hc, hbreak, if_neg Bool.false_ne_true, hplace, hshallow,
    if_neg Bool.false_ne_true, hread]

/-- What reading a word from `c` and from `d` may come to. -/
inductive ReadAlike (k : Nat) (tail : Text) (c d : Cursor) :
    Except Halt (Word × Cursor) → Except Halt (Word × Cursor) → Prop
  | ok (w : Word) (n : Nat) (hn : n ≤ c.rest.length) :
      ReadAlike k tail c d (.ok (w, c.advance n)) (.ok (w, d.advance n))
  | failed {halt halt' : Halt} (h : halt'.error = halt.error.down k) :
      ReadAlike k tail c d (.error halt) (.error halt')
  /-- The end of the part is where the one word fails, and the other goes on there. -/
  | cut {halt : Halt} {y : Except Halt (Word × Cursor)} (h : tail ≠ []) :
      ReadAlike k tail c d (.error halt) y
  | tooDeep {x : Except Halt (Word × Cursor)} {halt : Halt}
      (h : halt.error.fault = .nestingTooDeep) : ReadAlike k tail c d x (.error halt)

variable {limit limit' : Int} {base : Nat} {a : Assembly}

/-- At the end of the part a word ends, unless something is still open. -/
theorem readAlike_nil (h : c.Within k tail d) (hapart : Apart c.rest tail) (hrest : c.rest = []) :
    ReadAlike k tail c d (readWord limit base a c) (readWord limit' base (a.down k) d) := by
  have hd : d.rest = tail := by rw [h.rest, hrest, List.nil_append]
  rw [readWord_nil hrest]
  rcases hapart with rfl | ⟨⟨u, rfl⟩, -⟩
  · rw [readWord_nil hd]
    obtain ⟨draft, _ | ⟨s, stack⟩⟩ := a
    · exact .ok _ 0 (Nat.zero_le _)
    · exact .failed rfl
  · obtain ⟨draft, _ | ⟨s, stack⟩⟩ := a
    -- The newline ends the word.
    · rw [readWord_cons hd]
      exact .ok _ 0 (Nat.zero_le _)
    · exact .cut (by simp)

theorem readPiece_append {place : Place} {tilde : Bool} {x : Char} {t : Text} {piece : Piece}
    {n : Nat} (hapart : Apart (x :: t) tail)
    (h : readPiece place tilde x t = .ok (piece, n)) :
    readPiece place tilde x (t ++ tail) = .ok (piece, n) := by
  rcases hapart with rfl | ⟨⟨u, rfl⟩, hlast⟩
  · rw [List.append_nil, h]
  · have hslash : x = '\\' → t ≠ [] := by
      rintro rfl rfl
      exact hlast rfl
    have hparen : x = '$' → '\n' = '(' → t ≠ [] ∧ t ≠ ['('] := fun _ h => absurd h (by decide)
    apply (agreeUpTo_readPiece (by decide) place tilde hslash hparen u piece n _).mpr h
    exact fitsIn_readPiece place tilde x t piece n h

theorem nests_append {x : Char} {t : Text} (hapart : Apart (x :: t) tail) (place : Place) :
    nests place x (t ++ tail) = nests place x t := by
  rcases hapart with rfl | ⟨⟨u, rfl⟩, -⟩
  · rw [List.append_nil]
  · exact nests_append_break (by decide) place x t u

theorem error_ofFlaw_down (h : c.Within k [] d) (depth depth' : Nat) (flaw : Flaw) :
    (Halt.ofFlaw d depth' flaw).error = (Halt.ofFlaw c depth flaw).error.down k := by
  have hrest : d.rest = c.rest := by rw [h.rest, List.append_nil]
  cases flaw with
  | unclosed construct => exact congrArg (SyntaxError.mk _) h.position
  | misplaced fault taken =>
    refine congrArg (SyntaxError.mk _) ?_
    show (d.advance (taken + 1)).position = ((c.advance (taken + 1)).position).down k
    rw [Cursor.position_advance, Cursor.position_advance, h.position, hrest, Position.after_down]

/-- The induction is on what is left of the part. -/
theorem readAlike_readWord (hlimit : limit' ≤ limit) (h : c.Within k tail d)
    (hapart : Apart c.rest tail) :
    ReadAlike k tail c d (readWord limit base a c) (readWord limit' base (a.down k) d) := by
  generalize hn : c.rest.length = n
  induction n using Nat.strongRecOn generalizing a c d with
  | ind n ih =>
    cases hrest : c.rest with
    | nil => exact readAlike_nil h hapart hrest
    | cons x t =>
      have hd : d.rest = x :: (t ++ tail) := by rw [h.rest, hrest, List.cons_append]
      rw [hrest] at hapart
      rw [readWord_cons hrest, readWord_cons hd, nests_append hapart, a.isEmpty_down,
        a.place_down, a.length_down]
      by_cases hbreak : (a.stack.isEmpty && isBreak x) = true
      · rw [if_pos hbreak, if_pos hbreak]
        exact .ok _ 0 (Nat.zero_le _)
      rw [if_neg hbreak, if_neg hbreak]
      by_cases hdeep : (nests a.place x t && limit' < base + a.stack.length + 1) = true
      · rw [if_pos hdeep]
        exact .tooDeep rfl
      have hdeep' : ¬ (nests a.place x t && limit < base + a.stack.length + 1) = true := by
        simp only [Bool.and_eq_true, decide_eq_true_eq, not_and, Int.not_lt] at hdeep ⊢
        exact fun hnests => Int.le_trans (hdeep hnests) hlimit
      rw [if_neg hdeep, if_neg hdeep']
      cases hpiece : readPiece a.place a.draft.allowsTilde x t with
      | error flaw =>
        -- What comes behind the part may close what is open in it.
        by_cases htail : tail = []
        · subst htail
          have hpiece' : readPiece a.place (a.down k).draft.allowsTilde x (t ++ []) =
              .error flaw := by
            rw [List.append_nil]
            exact hpiece
          rw [hpiece']
          exact .failed (error_ofFlaw_down h _ _ flaw)
        · exact .cut htail
      | ok reading =>
        obtain ⟨piece, m⟩ := reading
        have hpiece' : readPiece a.place (a.down k).draft.allowsTilde x (t ++ tail) =
            .ok (piece, m) := readPiece_append hapart hpiece
        have hm : m + 1 ≤ c.rest.length := by
          rw [hrest]
          exact Nat.succ_le_succ (fitsIn_readPiece _ _ _ _ _ _ hpiece)
        rw [hpiece']
        dsimp only
        rw [h.position, a.add_down]
        have hnext := h.advance hm
        have hlength : (c.advance (m + 1)).rest.length < n := by
          rw [Cursor.rest_advance, List.length_drop]
          omega
        have hapart' : Apart (c.advance (m + 1)).rest tail := by
          rw [Cursor.rest_advance, hrest]
          exact hapart.drop _
        have hrec := ih _ hlength (a := a.add c.position piece) hnext hapart' rfl
        generalize readWord limit base (a.add c.position piece) (c.advance (m + 1)) = r at hrec ⊢
        generalize readWord limit' base ((a.add c.position piece).down k) (d.advance (m + 1)) = r'
          at hrec ⊢
        cases hrec with
        | ok w m' hm' =>
          rw [Cursor.advance_advance, Cursor.advance_advance]
          refine .ok w _ ?_
          rw [Cursor.rest_advance, List.length_drop] at hm'
          omega
        | failed herror => exact .failed herror
        | cut htail => exact .cut htail
        | tooDeep hfault => exact .tooDeep hfault

end EnvScript
