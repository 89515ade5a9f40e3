import EnvScript.Command.Parser
import EnvScript.Expansion
import EnvScript.Proofs.Success
import EnvScript.Proofs.Word.Moved
import EnvScript.Text.Quoted

/-!
# Words that spell a value

Plain characters, colons, escaped characters and single quotes have a value that no context and no
limit changes. `Spells t v` says that the text `t` is made of these and has the value `v`, and then
the word read from `t` expands to `v`. The text of a quoted value spells that value.
-/

namespace EnvScript

variable {x : Char} {s t u v name : Text} {p : Part} {piece : Piece} {c : Cursor} {limit : Int}
  {base : Nat}

/-! ## Pieces outside of quotes -/

/-- Outside of quotes a piece that begins with `x` takes the text `t` behind it, whatever comes
next. -/
structure Begins (x : Char) (t : Text) (piece : Piece) : Prop where
  isBreak : isBreak x = false
  nests (u : Text) : nests .word x (t ++ u) = false
  read (tilde : Bool) (u : Text) : readPiece .word tilde x (t ++ u) = .ok (piece, t.length)

theorem Begins.readWord (h : Begins x t piece) (hc : c.rest = x :: (t ++ u)) (d : Draft) :
    readWord limit base ⟨d, []⟩ c =
      EnvScript.readWord limit base (Assembly.add ⟨d, []⟩ c.position piece)
        (c.advance (t.length + 1)) :=
  readWord_of_readPiece hc (h.read _ u) h.isBreak
    (fun hnests => absurd ((h.nests u).symm.trans hnests) (by simp)) rfl

theorem ne_of_isSafe {y : Char} (hx : isSafe x = true) (hy : isSafe y = false) : x ≠ y := by
  rintro rfl
  exact absurd (hx.symm.trans hy) (by simp)

theorem contains_of_isSafe {l : List Char} (hx : isSafe x = true) (hl : l.any isSafe = false) :
    l.contains x = false := by
  rw [← Bool.not_eq_true, List.contains_iff_mem]
  intro hmem
  have hany : l.any isSafe = true := List.any_eq_true.mpr ⟨x, hmem, hx⟩
  exact absurd (hl.symm.trans hany) (by simp)

theorem begins_of_isSafe (hx : isSafe x = true) (hcolon : x ≠ ':') : Begins x [] (.plain x) := by
  have hdollar := ne_of_isSafe hx (show isSafe '$' = false by decide)
  have hquote := ne_of_isSafe hx (show isSafe '"' = false by decide)
  refine ⟨contains_of_isSafe hx (by decide), fun u => ?_, fun tilde u => ?_⟩
  · rw [nests, beq_eq_false_iff_ne.mpr hdollar, beq_eq_false_iff_ne.mpr hquote]
    rfl
  · have hwildcard : isWildcard x = false := contains_of_isSafe hx (by decide)
    have htilde := ne_of_isSafe hx (show isSafe '~' = false by decide)
    rw [readPiece, if_neg hdollar, if_neg (ne_of_isSafe hx (by decide)), hwildcard,
      if_neg Bool.false_ne_true, if_neg hcolon, if_neg fun h => htilde h.1]
    unfold readUnquoted
    rw [if_neg (ne_of_isSafe hx (by decide)), if_neg (ne_of_isSafe hx (by decide)),
      if_neg hquote]
    rfl

theorem begins_colon : Begins ':' [] (.part .colon) :=
  ⟨by decide, fun _ => rfl, fun _ _ => rfl⟩

theorem begins_escaped (x : Char) : Begins '\\' [x] (.part (.escaped [x])) :=
  ⟨by decide, fun _ => rfl, fun tilde _ => by cases tilde <;> rfl⟩

theorem begins_single (hs : '\'' ∉ s) : Begins '\'' (s ++ ['\'']) (.part (.single s)) := by
  refine ⟨by decide, fun _ => rfl, fun tilde u => ?_⟩
  have htake : (s ++ ['\''] ++ u).takeWhile (· != '\'') = s := by
    rw [List.append_assoc, List.takeWhile_append_of_pos]
    · simp
    · intro y hy
      have hne : y ≠ '\'' := by
        rintro rfl
        exact hs hy
      simpa using hne
  have hsingle : readSingle (s ++ ['\''] ++ u) = .ok (.part (.single s), (s ++ ['\'']).length) := by
    unfold readSingle
    rw [htake]
    simp [Reading.taking]
  cases tilde <;> exact hsingle

/-! ## Reading what spells a value -/

/-- Wherever a word goes on outside of quotes, the text adds this part to it. -/
def ReadsAs (limit : Int) (base : Nat) (t : Text) (p : Part) : Prop :=
  ∀ (d : Draft) (c : Cursor) (u : Text), c.rest = t ++ u →
    readWord limit base ⟨d, []⟩ c = readWord limit base ⟨d.addPart p, []⟩ (c.advance t.length)

theorem Begins.readsAs (h : Begins x t (.part p)) : ReadsAs limit base (x :: t) p :=
  fun d _ _ hc => h.readWord hc d

/-- The text is made of plain characters and of parts whose value is known, and has this value. -/
inductive Spells (limit : Int) (base : Nat) : Text → Text → Prop
  | nil : Spells limit base [] []
  | plain {x : Char} {t v : Text} (hx : Begins x [] (.plain x)) (h : Spells limit base t v) :
      Spells limit base (x :: t) (x :: v)
  | part {t u y v : Text} {p : Part} (ht : ReadsAs limit base t p)
      (hp : ∀ limits context, expandPart limits context p = .ok y) (h : Spells limit base u v) :
      Spells limit base (t ++ u) (y ++ v)

theorem Spells.append {w : Text} (h : Spells limit base t v) (h' : Spells limit base u w) :
    Spells limit base (t ++ u) (v ++ w) := by
  induction h with
  | nil => exact h'
  | plain hx _ ih => exact .plain hx ih
  | part ht hp _ ih =>
    rw [List.append_assoc, List.append_assoc]
    exact .part ht hp ih

/-- A literal part, where there is any text for it. -/
def literals (t : Text) : Word := if t = [] then [] else [.literal t]

theorem expandWord_literals (limits : Limits) (context : Context) (t : Text) (w : Word) :
    expandWord limits context (literals t ++ w) = (expandWord limits context w).map (t ++ ·) := by
  unfold literals
  split
  · rename_i ht
    rw [ht, List.nil_append]
    cases expandWord limits context w <;> rfl
  · rw [List.singleton_append, expandWord, expandPart]
    cases expandWord limits context w <;> rfl

theorem Draft.closed_eq (d : Draft) :
    d.closed.reverse = d.parts.reverse ++ literals d.text.reverse := by
  obtain ⟨parts, _ | ⟨x, text⟩⟩ := d
  · simp [Draft.closed, literals]
  · simp [Draft.closed, literals]

theorem readWord_of_plain (ht : ∀ x ∈ t, Begins x [] (.plain x)) (hc : c.rest = t ++ u)
    (d : Draft) :
    readWord limit base ⟨d, []⟩ c =
      readWord limit base ⟨⟨d.parts, t.reverse ++ d.text⟩, []⟩ (c.advance t.length) := by
  induction t generalizing c d with
  | nil => rfl
  | cons x t ih =>
    obtain ⟨hx, ht⟩ := List.forall_mem_cons.mp ht
    have hrest : (c.advance 1).rest = t ++ u := by
      rw [Cursor.rest_advance, hc]
      rfl
    rw [hx.readWord (u := t ++ u) hc]
    show readWord limit base ⟨d.addText x, []⟩ (c.advance 1) = _
    rw [ih ht hrest, Cursor.advance_advance, List.reverse_cons, List.append_assoc, List.length_cons,
      Nat.add_comm]
    rfl

/-- In front of a seam the text goes on the literal that has been begun, as far as `front`, and then
come the parts of `rest`. The induction is on the pieces of the text. -/
theorem readWord_of_spells (h : Spells limit base t v) (hs : StartsSeam s) (hc : c.rest = t ++ s)
    (d : Draft) :
    ∃ front rest, readWord limit base ⟨d, []⟩ c =
        .ok (d.parts.reverse ++ literals (d.text.reverse ++ front) ++ rest, c.advance t.length) ∧
      (∀ limits context, expandWord limits context (literals front ++ rest) = .ok v) ∧
      (t ≠ [] → literals front ++ rest ≠ []) := by
  induction h generalizing c d with
  | nil =>
    refine ⟨[], [], ?_, fun limits context => ?_, fun h => absurd rfl h⟩
    · rw [readWord_of_startsSeam hs hc, List.append_nil, List.append_nil, ← d.closed_eq]
      rfl
    · exact expandWord.eq_1 limits context
  | @plain x t v hx h ih =>
    have hrest : (c.advance 1).rest = t ++ s := by
      rw [Cursor.rest_advance, hc]
      rfl
    obtain ⟨front, rest, hword, hvalue, -⟩ := ih hrest (d.addText x)
    refine ⟨x :: front, rest, ?_, fun limits context => ?_, fun _ => by simp [literals]⟩
    · refine (hx.readWord (u := t ++ s) hc d).trans (hword.trans ?_)
      rw [Cursor.advance_advance, Nat.add_comm]
      simp [Draft.addText]
    · have hvalue := hvalue limits context
      rw [expandWord_literals] at hvalue ⊢
      obtain ⟨y, hy, rfl⟩ := exceptMap_eq_ok hvalue
      rw [hy]
      rfl
  | @part t u y v p ht hp h ih =>
    -- The part ends the literal, and what comes next begins one of its own.
    rw [List.append_assoc] at hc
    have hrest : (c.advance t.length).rest = u ++ s := by
      rw [Cursor.rest_advance, hc, List.drop_left]
    obtain ⟨front, rest, hword, hvalue, -⟩ := ih hrest (d.addPart p)
    refine ⟨[], p :: (literals front ++ rest), ?_, fun limits context => ?_, fun _ => by simp⟩
    · refine (ht d c (u ++ s) hc).trans (hword.trans ?_)
      rw [Cursor.advance_advance, List.length_append, Draft.addPart, List.reverse_cons,
        d.closed_eq]
      simp
    · rw [expandWord_literals, expandWord, hp, hvalue]
      rfl

/-! ## Assignments -/

theorem splitAssignment_append (hname : isName name = true) (v : Text) :
    splitAssignment (name ++ '=' :: v) = some (name, v) := by
  cases name with
  | nil => exact absurd hname (by simp [isName])
  | cons x name =>
    obtain ⟨hx, hall⟩ := Bool.and_eq_true_iff.mp hname
    have htake : (name ++ '=' :: v).takeWhile isNameChar = name := by
      rw [List.takeWhile_append_of_pos (List.all_eq_true.mp hall)]
      simp [isNameChar]
    have hleading : leadingName (x :: (name ++ '=' :: v)) = x :: name := by
      rw [leadingName, if_pos hx, htake]
    unfold splitAssignment
    rw [List.cons_append, hleading]
    simp

theorem isSafe_of_isNameChar (h : isNameChar x = true) : isSafe x = true := by
  unfold isNameChar at h
  unfold isSafe
  rcases Bool.or_eq_true_iff.mp h with h | h
  · rw [h]
    rfl
  · rw [beq_iff_eq.mp h]
    decide

theorem begins_of_isNameChar (h : isNameChar x = true) : Begins x [] (.plain x) := by
  refine begins_of_isSafe (isSafe_of_isNameChar h) ?_
  rintro rfl
  exact absurd h (by decide)

theorem isNameChar_of_isName (hname : isName name = true) : ∀ x ∈ name, isNameChar x = true := by
  cases name with
  | nil => simp
  | cons x name =>
    obtain ⟨hx, hall⟩ := Bool.and_eq_true_iff.mp hname
    exact List.forall_mem_cons.mpr ⟨isNameChar_of_isNameStart hx, List.all_eq_true.mp hall⟩

/-- The word `NAME=…` with a text that spells a value is the assignment of that value. -/
theorem readWord_assignment (hname : isName name = true) (h : Spells limit base t v)
    (ht : t ≠ []) (hs : StartsSeam s) :
    ∃ w after value, readWord limit base {} (.ofText (name ++ '=' :: (t ++ s))) = .ok (w, after) ∧
      after.rest = s ∧ w.assignment? = some (name, some value) ∧
      ∀ limits context, expandWord limits context value = .ok v := by
  have hplain : ∀ x ∈ name ++ ['='], Begins x [] (.plain x) := by
    intro x hx
    rcases List.mem_append.mp hx with hx | hx
    · exact begins_of_isNameChar (isNameChar_of_isName hname x hx)
    · obtain rfl := List.mem_singleton.mp hx
      exact begins_of_isSafe (by decide) (by decide)
  have hstart : (Cursor.ofText (name ++ '=' :: (t ++ s))).rest = name ++ ['='] ++ (t ++ s) := by
    rw [List.append_assoc]
    rfl
  have hrest : ((Cursor.ofText (name ++ '=' :: (t ++ s))).advance (name ++ ['=']).length).rest =
      t ++ s := by
    rw [Cursor.rest_advance, hstart, List.drop_left]
  obtain ⟨front, rest, hword, hvalue, hne⟩ :=
    readWord_of_spells h hs hrest ⟨[], (name ++ ['=']).reverse ++ []⟩
  refine ⟨_, _, literals front ++ rest, (readWord_of_plain hplain hstart {}).trans hword, ?_, ?_,
    hvalue⟩
  · rw [Cursor.rest_advance, hrest, List.drop_left]
  · have hliterals : literals (name ++ '=' :: front) = [.literal (name ++ '=' :: front)] := by
      simp [literals]
    have htext : ((name ++ ['=']).reverse ++ []).reverse ++ front = name ++ '=' :: front := by simp
    show Word.assignment? (literals (((name ++ ['=']).reverse ++ []).reverse ++ front) ++ rest) = _
    rw [htext, hliterals, List.singleton_append]
    unfold Word.assignment?
    dsimp only
    rw [splitAssignment_append hname]
    cases front with
    | cons x front => simp [literals]
    | nil =>
      cases rest with
      | cons p rest => simp [literals]
      | nil => exact absurd rfl (hne ht)

/-! ## Quoted values -/

theorem spells_of_isSafe (ht : ∀ x ∈ t, isSafe x = true) : Spells limit base t t := by
  induction t with
  | nil => exact .nil
  | cons x t ih =>
    obtain ⟨hx, hrest⟩ := List.forall_mem_cons.mp ht
    by_cases hcolon : x = ':'
    · subst hcolon
      exact .part begins_colon.readsAs (fun limits context => by rw [expandPart]) (ih hrest)
    · exact .plain (begins_of_isSafe hx hcolon) (ih hrest)

/-- A character in single quotes. A single quote ends them, stands escaped, and begins them
again. -/
def singleQuoted (x : Char) : Text := if x = '\'' then "'\\''".toList else [x]

theorem flatMap_singleQuoted (hs : '\'' ∉ s) : s.flatMap singleQuoted = s := by
  induction s with
  | nil => rfl
  | cons x s ih =>
    obtain ⟨hx, hs⟩ := not_or.mp (List.mem_cons.not.mp hs)
    rw [List.flatMap_cons, ih hs, singleQuoted, if_neg (Ne.symm hx), List.singleton_append]

theorem spells_single (hs : '\'' ∉ s) :
    Spells limit base ('\'' :: (s ++ ['\''])) s := by
  have h : Spells limit base ('\'' :: (s ++ ['\'']) ++ []) (s ++ []) :=
    .part (begins_single hs).readsAs (fun limits context => by rw [expandPart]) .nil
  rwa [List.append_nil, List.append_nil] at h

theorem spells_escaped (hx : x ≠ '\n') : Spells limit base ['\\', x] [x] := by
  have hvalue : escapedText [x] = [x] := if_neg (by simpa using hx)
  exact .part (begins_escaped x).readsAs
    (fun limits context => by rw [expandPart, hvalue]) .nil

/-- The induction is on the single quotes of the text, each of which is a part of its own. -/
theorem spells_singleQuoted (v : Text) :
    Spells limit base ('\'' :: (v.flatMap singleQuoted ++ ['\''])) v := by
  generalize hn : v.length = n
  induction n using Nat.strongRecOn generalizing v with
  | ind n ih =>
    by_cases hquote : '\'' ∈ v
    · obtain ⟨s, w, rfl, hs⟩ := List.eq_append_cons_of_mem hquote
      have hlength : w.length < n := by
        rw [← hn, List.length_append, List.length_cons]
        omega
      have hescaped : Spells limit base ['\\', '\''] ['\''] := spells_escaped (by decide)
      have hrest := hescaped.append (ih w.length hlength w rfl)
      have htext : '\'' :: ((s ++ '\'' :: w).flatMap singleQuoted ++ ['\'']) =
          '\'' :: (s ++ ['\'']) ++
            (['\\', '\''] ++ ('\'' :: (w.flatMap singleQuoted ++ ['\'']))) := by
        rw [List.flatMap_append, flatMap_singleQuoted hs, List.flatMap_cons]
        simp [singleQuoted]
      rw [htext]
      exact (spells_single hs).append hrest
    · rw [flatMap_singleQuoted hquote]
      exact spells_single hquote

theorem spells_quoteValue (v : Text) : Spells limit base (quoteValue v) v := by
  unfold quoteValue
  split
  · rename_i hsafe
    exact spells_of_isSafe (List.all_eq_true.mp (Bool.and_eq_true_iff.mp hsafe).2)
  · exact spells_singleQuoted v

end EnvScript
