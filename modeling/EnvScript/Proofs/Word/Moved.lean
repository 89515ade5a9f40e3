import EnvScript.Proofs.Word.Within

/-!
# Words in other places

A word is read alike wherever it stands, and whatever break ends it. Its pieces are those of its
text alone: none of them goes beyond the place where the word ends.
-/

namespace EnvScript

variable {limit limit' : Int} {base : Nat} {a b : Assembly} {c d after : Cursor} {x y y' : Char}
  {t u u' v v' : Text} {piece : Piece} {w : Word} {n : Nat}

/-! ## One piece -/

/-- The breaks that are no part of what a `$` introduces: all but the opening parenthesis. -/
def seams : List Char := " \t\n|&;<>)".toList

theorem mem_breaks_of_mem_seams (hy : y ∈ seams) : y ∈ breaks := by
  have hbreaks : ∀ y ∈ seams, y ∈ breaks := forall_mem_of_all (by decide)
  exact hbreaks y hy

/-- The text ends, or a seam begins it. -/
def StartsSeam (v : Text) : Prop := ∀ y ∈ v.head?, y ∈ seams

/-- It makes no difference to the pieces of a word whether `v` or `v'` follows them, and the word
ends in front of `v'`. -/
structure EndsAlike (v v' : Text) : Prop where
  piece {place : Place} {tilde : Bool} {x : Char} {t : Text} {piece : Piece} {n : Nat}
    (hn : n ≤ t.length) (h : readPiece place tilde x (t ++ v) = .ok (piece, n)) :
    readPiece place tilde x (t ++ v') = .ok (piece, n)
  nests (place : Place) (x : Char) (t : Text) : nests place x (t ++ v') = nests place x (t ++ v)
  ends : ∀ y ∈ v'.head?, isBreak y = true

/-- A backslash takes the newline that follows it. -/
theorem readPiece_backslash_newline (place : Place) (tilde : Bool) (u : Text) :
    readPiece place tilde '\\' ('\n' :: u) = .ok (.part (.escaped ['\n']), 1) := by
  cases place <;> cases tilde <;> rfl

theorem nests_moved (hy : y ∈ breaks) (hv : ∀ y ∈ v.head?, y ∈ breaks) (place : Place) (x : Char)
    (t u : Text) : nests place x (t ++ v) = nests place x (t ++ y :: u) := by
  rw [nests_append_break hy]
  cases v with
  | nil => rw [List.append_nil]
  | cons y v => rw [nests_append_break (hv y rfl)]

/-- A piece that ends in front of a newline is read alike in front of any seam. -/
theorem endsAlike_newline (hv : StartsSeam v) : EndsAlike ('\n' :: u) v where
  piece {place tilde x t piece n} hn h := by
    have hx : x = '\\' → t ≠ [] := by
      rintro rfl rfl
      rw [List.nil_append, readPiece_backslash_newline] at h
      obtain ⟨-, rfl⟩ := Prod.mk.inj (Except.ok.inj h)
      exact absurd hn (by simp)
    have hseams : ∀ y ∈ seams, y ≠ '(' := forall_mem_of_all (by decide)
    have halone := (agreeUpTo_readPiece (by decide) place tilde hx
      (fun _ h => absurd h (by decide)) u piece n hn).mp h
    cases v with
    | nil => rwa [List.append_nil]
    | cons y v =>
      exact (agreeUpTo_readPiece (mem_breaks_of_mem_seams (hv y rfl)) place tilde hx
        (fun _ h => absurd h (hseams y (hv y rfl))) v piece n hn).mpr halone
  nests place x t :=
    nests_moved (by decide) (fun y hy => mem_breaks_of_mem_seams (hv y hy)) place x t u
  ends y hy := mem_breaks_iff.mp (mem_breaks_of_mem_seams (hv y hy))

/-- In front of a parenthesis a `$` takes it, and never stands for itself. -/
theorem readDollar_parenthesis (hn : n ≤ t.length) (ht : t = [] ∨ t = ['(']) :
    readDollar (t ++ '(' :: u) ≠ .ok (piece, n) := by
  intro h
  rcases ht with rfl | rfl
  · by_cases hopen : u.head? = some '('
    · obtain ⟨u, rfl⟩ := List.head?_eq_some_iff.mp hopen
      rw [List.nil_append, readDollar_parens] at h
      split at h
      · obtain ⟨-, rfl⟩ := Prod.mk.inj (Except.ok.inj h)
        exact absurd hn (by simp)
      · exact absurd h (by simp)
    · rw [List.nil_append, readDollar_paren hopen] at h
      split at h
      · obtain ⟨-, rfl⟩ := Prod.mk.inj (Except.ok.inj h)
        exact absurd hn (by simp)
      · exact absurd h (by simp)
  · rw [List.singleton_append, readDollar_parens] at h
    split at h
    · obtain ⟨-, rfl⟩ := Prod.mk.inj (Except.ok.inj h)
      exact absurd hn (by simp)
    · exact absurd h (by simp)

/-- A backslash right in front of a break is a plain character only inside of quotes, where it is
one in front of any break but a newline. -/
theorem readPiece_backslash {place : Place} {tilde : Bool} (hy' : y' ∈ breaks)
    (hnewline : y' = '\n' → y = '\n')
    (h : readPiece place tilde '\\' (y :: u) = .ok (piece, 0)) :
    readPiece place tilde '\\' (y' :: u') = .ok (piece, 0) := by
  have hescape : ∀ y ∈ breaks, y ≠ '\n' → isQuotedEscape y = false := forall_mem_of_all (by decide)
  cases place with
  | quote =>
    have hread : ∀ (y : Char) (u : Text), readPiece .quote tilde '\\' (y :: u) =
        if isQuotedEscape y then .taking 1 (.part (.escaped [y])) else .taking 0 (.plain '\\') :=
      fun _ _ => rfl
    have hne : y' ≠ '\n' := by
      intro heq
      rw [hnewline heq, readPiece_backslash_newline] at h
      exact absurd (Prod.mk.inj (Except.ok.inj h)).2 (by simp)
    rw [hread] at h
    rw [hread, hescape y' hy' hne]
    split at h
    · exact absurd (Prod.mk.inj (Except.ok.inj h)).2 (by simp)
    · exact h
  | operand => exact absurd (Prod.mk.inj (Except.ok.inj h)).2 (by simp)
  | word => exact absurd (Prod.mk.inj (Except.ok.inj h)).2 (by cases tilde <;> simp)

/-- Any break ends a word as another does, if both are newlines or neither is, and both are opening
parentheses or neither is. -/
theorem endsAlike_break (hy : y ∈ breaks) (hy' : y' ∈ breaks) (hnewline : y' = '\n' → y = '\n')
    (hparen : y = '(' ↔ y' = '(') : EndsAlike (y :: u) (y' :: u') where
  piece {place tilde x t piece n} hn h := by
    by_cases hslash : x = '\\' ∧ t = []
    · obtain ⟨rfl, rfl⟩ := hslash
      obtain rfl := Nat.le_zero.mp hn
      exact readPiece_backslash hy' hnewline h
    have hx : x = '\\' → t ≠ [] := fun hx ht => hslash ⟨hx, ht⟩
    have hopen : x = '$' → y = '(' → t ≠ [] ∧ t ≠ ['('] := by
      rintro rfl rfl
      rw [← not_or]
      exact fun ht => readDollar_parenthesis hn ht h
    have halone := (agreeUpTo_readPiece hy place tilde hx hopen u piece n hn).mp h
    exact (agreeUpTo_readPiece hy' place tilde hx (fun hx h => hopen hx (hparen.mpr h)) u' piece n
      hn).mpr halone
  nests place x t := nests_moved hy (by simpa using hy') place x t u
  ends z hz := mem_breaks_iff.mp (Option.some.inj hz ▸ hy')

/-! ## The whole word -/

/-- All of an assembly but the places where its open constructs began. -/
def Assembly.unplaced (a : Assembly) : Draft × List (Opening × Draft) :=
  (a.draft, a.stack.map fun s => (s.opening, s.outer))

theorem Assembly.unplaced_add (h : a.unplaced = b.unplaced) (p q : Position) (piece : Piece) :
    (a.add p piece).unplaced = (b.add q piece).unplaced := by
  obtain ⟨draft, stack⟩ := a
  obtain ⟨draft', stack'⟩ := b
  obtain ⟨rfl, hstack⟩ := Prod.mk.inj h
  cases piece with
  | plain c => exact congrArg (draft.addText c, ·) hstack
  | part p => exact congrArg (draft.addPart p, ·) hstack
  | opens o => exact congrArg (({} : Draft), (o, draft) :: ·) hstack
  | closes =>
    cases stack with
    | nil =>
      obtain rfl := List.map_eq_nil_iff.mp hstack.symm
      rfl
    | cons s stack =>
      obtain ⟨s', stack', rfl, hs, hstack⟩ := List.map_eq_cons_iff.mp hstack.symm
      obtain ⟨hopening, houter⟩ := Prod.mk.inj hs
      show (s.outer.addPart _, _) = (s'.outer.addPart _, _)
      rw [hopening, houter]
      exact congrArg _ hstack.symm

theorem Assembly.place_of_unplaced (h : a.unplaced = b.unplaced) : a.place = b.place := by
  obtain ⟨draft, stack⟩ := a
  obtain ⟨draft', stack'⟩ := b
  obtain ⟨-, hstack⟩ := Prod.mk.inj h
  cases stack with
  | nil =>
    obtain rfl := List.map_eq_nil_iff.mp hstack.symm
    rfl
  | cons s stack =>
    obtain ⟨s', stack', rfl, hs, -⟩ := List.map_eq_cons_iff.mp hstack.symm
    exact congrArg Opening.place (Prod.mk.inj hs).1.symm

theorem Assembly.length_of_unplaced (h : a.unplaced = b.unplaced) :
    b.stack.length = a.stack.length := by
  simpa using congrArg List.length (Prod.mk.inj h).2.symm

theorem Assembly.isEmpty_of_unplaced (h : a.unplaced = b.unplaced) :
    b.stack.isEmpty = a.stack.isEmpty := by
  simpa using congrArg List.isEmpty (Prod.mk.inj h).2.symm

theorem exists_advance_of_readWord (h : readWord limit base a c = .ok (w, after)) :
    ∃ n, after = c.advance n := by
  fun_induction readWord limit base a c with
  | case1 => exact ⟨0, (Prod.mk.inj (Except.ok.inj h)).2.symm⟩
  | case3 => exact ⟨0, (Prod.mk.inj (Except.ok.inj h)).2.symm⟩
  | case5 _ _ _ _ _ _ _ _ _ _ _ _ ih =>
    obtain ⟨m, rfl⟩ := ih h
    exact ⟨_, Cursor.advance_advance _ _ _⟩
  | _ => exact absurd h (by simp)

/-- A word that is read from a text ends at once, or begins with a piece. -/
theorem readWord_cons_ok (hc : c.rest = x :: t) (h : readWord limit base a c = .ok (w, after)) :
    (a.stack = [] ∧ w = a.draft.word ∧ after = c) ∨
      ∃ piece n m, (a.stack.isEmpty && isBreak x) = false ∧
        (nests a.place x t = true → (base : Int) + a.stack.length + 1 ≤ limit) ∧
        readPiece a.place a.draft.allowsTilde x t = .ok (piece, n) ∧
        readWord limit base (a.add c.position piece) (c.advance (n + 1)) = .ok (w, after) ∧
        after = c.advance (n + 1 + m) := by
  rw [readWord_cons hc] at h
  split at h
  · rename_i hbreak
    obtain ⟨rfl, rfl⟩ := Prod.mk.inj (Except.ok.inj h)
    exact .inl ⟨List.isEmpty_iff.mp (Bool.and_eq_true_iff.mp hbreak).1, rfl, rfl⟩
  · rename_i hbreak
    split at h
    · exact absurd h (by simp)
    · rename_i hdeep
      split at h
      · rename_i piece n hpiece
        obtain ⟨m, hm⟩ := exists_advance_of_readWord h
        refine .inr ⟨piece, n, m, Bool.eq_false_iff.mpr hbreak, fun hnests => ?_, hpiece, h, ?_⟩
        · simpa [hnests] using hdeep
        · rw [hm, Cursor.advance_advance]
      · exact absurd h (by simp)

theorem length_of_advance_eq {i j : Nat} (h : c.advance i = c.advance j) :
    c.rest.length - i = c.rest.length - j := by
  rw [← List.length_drop, ← List.length_drop, ← Cursor.rest_advance, ← Cursor.rest_advance, h]

/-- A word that ends where the reading goes on from has nothing open. -/
theorem readWord_eq_self (h : readWord limit base a c = .ok (w, c)) :
    a.stack = [] ∧ w = a.draft.word := by
  cases hc : c.rest with
  | nil =>
    rw [readWord_nil hc] at h
    split at h
    · rename_i hstack
      exact ⟨hstack, (Prod.mk.inj (Except.ok.inj h)).1.symm⟩
    · exact absurd h (by simp)
  | cons x t =>
    rcases readWord_cons_ok hc h with ⟨hstack, hw, -⟩ | ⟨piece, n, m, -, -, -, -, hafter⟩
    · exact ⟨hstack, hw⟩
    · -- A piece would have moved the cursor on.
      have hlength := length_of_advance_eq (i := 0) hafter
      rw [hc, List.length_cons] at hlength
      omega

/-- Where the text of the word ends, nothing is open, and the break ends the word. -/
theorem readWord_of_ends (hv : ∀ y ∈ v.head?, isBreak y = true) (hd : d.rest = v) (draft : Draft) :
    readWord limit base ⟨draft, []⟩ d = .ok (draft.word, d) := by
  cases v with
  | nil => rw [readWord_nil hd]
  | cons y v =>
    rw [readWord_cons hd, hv y rfl]
    rfl

theorem readWord_of_startsSeam (hv : StartsSeam v) (hd : d.rest = v) (draft : Draft) :
    readWord limit base ⟨draft, []⟩ d = .ok (draft.word, d) :=
  readWord_of_ends (fun y hy => mem_breaks_iff.mp (mem_breaks_of_mem_seams (hv y hy))) hd draft

/-- A word is read wherever its text stands in front of what ends it alike. The induction is on the
text, of which a piece never takes more than there is. -/
theorem readWord_moved (hlimit : limit ≤ limit') (hv : EndsAlike v v')
    (hab : a.unplaced = b.unplaced) (hc : c.rest = t ++ v) (hd : d.rest = t ++ v')
    (h : readWord limit base a c = .ok (w, c.advance t.length)) :
    readWord limit' base b d = .ok (w, d.advance t.length) := by
  generalize hk : t.length = k
  induction k using Nat.strongRecOn generalizing t a b c d with
  | ind k ih =>
    cases t with
    | nil =>
      obtain ⟨hstack, rfl⟩ := readWord_eq_self h
      obtain ⟨draft, stack⟩ := a
      obtain ⟨draft', stack'⟩ := b
      obtain ⟨rfl, hstacks⟩ := Prod.mk.inj hab
      obtain rfl : stack = [] := hstack
      obtain rfl := List.map_eq_nil_iff.mp hstacks.symm
      rw [← hk]
      exact readWord_of_ends hv.ends hd draft
    | cons x t =>
      have hlength : c.rest.length = t.length + 1 + v.length := by
        rw [hc, List.length_append, List.length_cons]
      rw [List.length_cons] at hk h
      rcases readWord_cons_ok hc h with ⟨-, -, hafter⟩ |
        ⟨piece, n, m, hbreak, hdepth, hpiece, hrest, hafter⟩
      · have := length_of_advance_eq (j := 0) hafter
        omega
      have hle : n ≤ t.length := by
        have hfits := fitsIn_readPiece _ _ x (t ++ v) piece n hpiece
        have := length_of_advance_eq hafter
        rw [List.length_append] at hfits
        omega
      have hdraft : a.draft = b.draft := congrArg Prod.fst hab
      have hpiece' : readPiece a.place b.draft.allowsTilde x (t ++ v') = .ok (piece, n) :=
        hdraft ▸ hv.piece hle hpiece
      have hdepth' : nests a.place x (t ++ v') = true →
          (base : Int) + b.stack.length + 1 ≤ limit' := by
        rw [Assembly.length_of_unplaced hab, hv.nests a.place x t]
        exact fun hnests => Int.le_trans (hdepth hnests) hlimit
      rw [readWord_of_readPiece hd hpiece' (Assembly.isEmpty_of_unplaced hab ▸ hbreak) hdepth'
        (Assembly.place_of_unplaced hab).symm]
      -- What is left of the text comes behind the same pieces.
      have hleft : ∀ {e : Cursor} {r : Text}, e.rest = x :: t ++ r →
          (e.advance (n + 1)).rest = t.drop n ++ r := by
        intro e r he
        rw [Cursor.rest_advance, he, List.cons_append, List.drop_succ_cons,
          List.drop_append_of_le_length hle]
      have hdrop : (t.drop n).length = t.length - n := List.length_drop
      have hstop : ∀ e : Cursor, (e.advance (n + 1)).advance (t.drop n).length =
          e.advance (t.length + 1) := by
        intro e
        rw [Cursor.advance_advance, show n + 1 + (t.drop n).length = t.length + 1 by omega]
      rw [← hstop c] at hrest
      rw [← hk, ← hstop d]
      exact ih _ (by omega) (Assembly.unplaced_add hab _ _ piece) (hleft hc) (hleft hd) hrest rfl

end EnvScript
