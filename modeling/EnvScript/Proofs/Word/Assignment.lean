import EnvScript.Proofs.Command.Accepted
import EnvScript.Proofs.Word.Normal
import EnvScript.Proofs.Word.Rendering
import EnvScript.Proofs.Word.Spelled

/-!
# Assignments by their text and by their parts

Whether a word is an assignment can be told from the text it was read from and from its first part.
The two agree, since a name and a `=` are plain characters: no part but a literal is written with
one of them in front, and in a word in normal form no literal follows another.
-/

namespace EnvScript

variable {x : Char} {s t u v name front : Text} {p : Part} {w parts : Word} {a : Assignment}

/-! ## Names in front of a text -/

theorem splitAssignment_eq_some_iff :
    splitAssignment t = some (name, v) ↔ isName name = true ∧ t = name ++ '=' :: v := by
  constructor
  · intro h
    refine ⟨isName_of_splitAssignment h, ?_⟩
    unfold splitAssignment at h
    split at h
    · rename_i x rest value hname hvalue
      obtain ⟨rfl, rfl⟩ := Prod.mk.inj (Option.some.inj h)
      rw [← hname, ← hvalue, leadingName_append_drop]
    · exact absurd h (by simp)
  · rintro ⟨hname, rfl⟩
    exact splitAssignment_append hname v

/-- The value behind `NAME=`, of which nothing may be left. -/
def valueOf (w : Word) : Option Word := if w = [] then none else some w

theorem assignment?_literal (hname : isName name = true) (front : Text) (parts : Word) :
    Word.assignment? (.literal (name ++ '=' :: front) :: parts) =
      some (name, valueOf (literals front ++ parts)) := by
  unfold Word.assignment?
  dsimp only
  rw [splitAssignment_append hname]
  cases front with
  | nil => cases parts <;> rfl
  | cons x front => rfl

theorem assignment?_eq_some_iff :
    w.assignment? = some a ↔ ∃ front parts, isName a.1 = true ∧
      w = .literal (a.1 ++ '=' :: front) :: parts ∧ a.2 = valueOf (literals front ++ parts) := by
  constructor
  · intro h
    obtain ⟨text, parts, front, rfl, hsplit⟩ := Word.exists_split_of_assignment? h
    obtain ⟨hname, rfl⟩ := splitAssignment_eq_some_iff.mp hsplit
    rw [assignment?_literal hname] at h
    exact ⟨front, parts, hname, rfl, (congrArg Prod.snd (Option.some.inj h)).symm⟩
  · rintro ⟨front, parts, hname, rfl, hvalue⟩
    rw [assignment?_literal hname, ← hvalue]

/-! ## Plain characters in front of a word -/

/-- The characters of a name, and the `=` behind it. -/
def isAssignmentSign (x : Char) : Bool := isNameChar x || x == '='

/-- A part that is no literal is written with a mark in front. -/
theorem head_of_renders (h : p.Renders t) (hformed : p.Formed) (hliteral : p.isLiteral = false) :
    ∃ x u, t = x :: u ∧ isAssignmentSign x = false := by
  cases h with
  | literal t => exact absurd hliteral (by simp [Part.isLiteral])
  | glob t =>
    have hmarks : ∀ t ∈ [['*'], ['?'], ['['], [']']], ∃ x u, t = x :: u ∧
        isAssignmentSign x = false := by
      simp only [List.forall_mem_cons]
      exact ⟨⟨_, _, rfl, by decide⟩, ⟨_, _, rfl, by decide⟩, ⟨_, _, rfl, by decide⟩,
        ⟨_, _, rfl, by decide⟩, by simp⟩
    exact hmarks t hformed
  | _ => exact ⟨_, _, rfl, by decide⟩

theorem eq_nil_of_renders (h : Word.Renders w []) (hformed : ∀ p ∈ w, p.Formed) : w = [] := by
  generalize ht : ([] : Text) = t at h
  cases h with
  | nil => rfl
  | @cons p w s t hp hw =>
    obtain ⟨rfl, -⟩ := List.append_eq_nil_iff.mp ht.symm
    have hformedp := hformed p List.mem_cons_self
    cases hliteral : p.isLiteral with
    | false =>
      obtain ⟨x, u, hx, -⟩ := head_of_renders hp hformedp hliteral
      exact absurd hx (by simp)
    | true =>
      cases hp with
      | literal => exact absurd rfl hformedp
      | _ => exact absurd hliteral (by simp [Part.isLiteral])

/-- A word whose text begins with a plain character begins with a literal. -/
theorem exists_literal_cons (h : Word.Renders w (x :: t)) (hformed : ∀ p ∈ w, p.Formed)
    (hx : isAssignmentSign x = true) :
    ∃ s parts u, w = .literal s :: parts ∧ x :: t = s ++ u ∧ Word.Renders parts u := by
  generalize htext : x :: t = text at h
  cases h with
  | nil => exact absurd htext (by simp)
  | @cons p parts s u hp hparts =>
    have hformedp := hformed p List.mem_cons_self
    cases hliteral : p.isLiteral with
    | false =>
      obtain ⟨y, s, rfl, hy⟩ := head_of_renders hp hformedp hliteral
      rw [(List.cons.inj htext).1, hy] at hx
      exact absurd hx (by simp)
    | true =>
      cases hp with
      | literal => exact ⟨s, parts, u, rfl, rfl, hparts⟩
      | _ => exact absurd hliteral (by simp [Part.isLiteral])

/-- Plain characters in front of a word's text are in front of its first literal. -/
theorem exists_literal_append (hw : w.NormalAt .word) (h : Word.Renders w (u ++ v))
    (hu : ∀ x ∈ u, isAssignmentSign x = true) (hne : u ≠ []) :
    ∃ front parts t, w = .literal (u ++ front) :: parts ∧ v = front ++ t ∧
      Word.Renders parts t := by
  obtain ⟨x, u', rfl⟩ := List.exists_cons_of_ne_nil hne
  obtain ⟨s, parts, t, rfl, htext, hparts⟩ :=
    exists_literal_cons h hw.formed (hu x List.mem_cons_self)
  rcases List.append_eq_append_iff.mp (show x :: u' ++ v = s ++ t from htext) with
    ⟨front, rfl, rfl⟩ | ⟨more, hmore, rfl⟩
  · exact ⟨front, parts, t, rfl, rfl, hparts⟩
  · cases more with
    | nil => exact ⟨[], parts, v, by rw [hmore]; simp, rfl, hparts⟩
    | cons y more =>
      -- The literal ends too early, and what stands behind it would be another one.
      have hy : isAssignmentSign y = true := hu y (by rw [hmore]; simp)
      have hformed : ∀ p ∈ parts, p.Formed := fun p hp => hw.formed p (List.mem_cons_of_mem _ hp)
      obtain ⟨s', parts', t', rfl, -, -⟩ := exists_literal_cons hparts hformed hy
      exact absurd ⟨rfl, rfl⟩ (List.isChain_cons_cons.mp hw.separated).1

/-! ## The two tests -/

theorem exists_literal_of_splitAssignment (hw : w.NormalAt .word) (h : Word.Renders w t)
    (hsplit : splitAssignment t = some (name, v)) :
    ∃ front parts, isName name = true ∧ w = .literal (name ++ '=' :: front) :: parts := by
  obtain ⟨hname, rfl⟩ := splitAssignment_eq_some_iff.mp hsplit
  have hsigns : ∀ x ∈ name ++ ['='], isAssignmentSign x = true := by
    intro x hx
    rcases List.mem_append.mp hx with hx | hx
    · simp [isAssignmentSign, isNameChar_of_isName hname x hx]
    · simp [isAssignmentSign, List.mem_singleton.mp hx]
  rw [List.append_cons] at h
  obtain ⟨front, parts, -, rfl, -, -⟩ := exists_literal_append hw h hsigns (by simp)
  exact ⟨front, parts, hname, by simp⟩

theorem exists_split_of_literal (hname : isName name = true)
    (h : Word.Renders (.literal (name ++ '=' :: front) :: parts) t) :
    ∃ u, t = name ++ '=' :: (front ++ u) ∧ splitAssignment t = some (name, front ++ u) ∧
      Word.Renders parts u := by
  cases h with
  | @cons _ _ _ u hp hparts =>
    cases hp with
    | literal =>
      have htext : name ++ '=' :: front ++ u = name ++ '=' :: (front ++ u) := by simp
      exact ⟨u, htext, splitAssignment_eq_some_iff.mpr ⟨hname, htext⟩, hparts⟩

/-- Nothing is left of a word without `NAME=` where nothing is left of its text. -/
theorem valueOf_eq_none_iff (h : Word.Renders parts u) (hformed : ∀ p ∈ parts, p.Formed) :
    valueOf (literals front ++ parts) = none ↔ front ++ u = [] := by
  have hparts : parts = [] ↔ u = [] := by
    constructor
    · rintro rfl
      cases h
      rfl
    · rintro rfl
      exact eq_nil_of_renders h hformed
  simp [valueOf, literals, hparts]

/-! ## Tokens -/

/-- A word token has been read from its text, and its word is in normal form. -/
theorem renders_of_mem {limits : Limits} {text : Text} {tokens : List Token} {token : Token}
    (h : tokenize limits text = .ok tokens) (ht : token ∈ tokens) (hw : token.lexeme = .word w) :
    w.NormalAt .word ∧ Word.Renders w token.text := by
  obtain ⟨s, hyields⟩ := Scanner.yields_of_tokensUpTo h
  obtain ⟨s₁, s₂, hnext⟩ := hyields.exists_next ht
  rcases Scanner.next_ok hnext with ⟨-, rfl, -⟩ | ⟨n, -, -, rfl, -, htext, -, -, hread⟩
  · exact absurd hw (by simp [Token.eof])
  · obtain ⟨m, hm, hrenders⟩ := readWord_renders (hread w hw) [] Assembly.renders_empty
    rw [htext, Cursor.take_of_advance_eq hm]
    exact ⟨(readWord_normal (hread w hw) (.word Draft.normal_empty)).toNormalAt, hrenders⟩

/-- The text of a word begins with `NAME=` exactly if the word is an assignment by its parts. The
name is the same, a value is missing where the text ends behind the `=`, and otherwise it is the
word without `NAME=`. -/
theorem assignment?_iff_splitAssignment {limits : Limits} {text : Text} {tokens : List Token}
    (h : tokenize limits text = .ok tokens) {token : Token} (ht : token ∈ tokens)
    (hw : token.lexeme = .word w) :
    (w.assignment?.isSome = true ↔ (splitAssignment token.text).isSome = true) ∧
      ∀ name value, w.assignment? = some (name, value) →
        (∃ rest, splitAssignment token.text = some (name, rest)) ∧ isName name = true ∧
          (value = none ↔ token.text = name ++ ['=']) ∧
          ∀ v, value = some v → ∃ front parts, w = .literal (name ++ '=' :: front) :: parts ∧
            v = literals front ++ parts := by
  obtain ⟨hnormal, hrenders⟩ := renders_of_mem h ht hw
  refine ⟨⟨fun hsome => ?_, fun hsome => ?_⟩, fun name value hassign => ?_⟩
  · obtain ⟨⟨name, value⟩, hassign⟩ := Option.isSome_iff_exists.mp hsome
    obtain ⟨front, parts, hname, rfl, -⟩ := assignment?_eq_some_iff.mp hassign
    obtain ⟨u, -, hsplit, -⟩ := exists_split_of_literal hname hrenders
    exact Option.isSome_of_eq_some hsplit
  · obtain ⟨⟨name, v⟩, hsplit⟩ := Option.isSome_iff_exists.mp hsome
    obtain ⟨front, parts, hname, rfl⟩ := exists_literal_of_splitAssignment hnormal hrenders hsplit
    exact Option.isSome_of_eq_some (assignment?_literal hname front parts)
  · obtain ⟨front, parts, hname, rfl, hvalue⟩ := assignment?_eq_some_iff.mp hassign
    obtain ⟨u, htext, hsplit, hparts⟩ := exists_split_of_literal hname hrenders
    obtain rfl : value = valueOf (literals front ++ parts) := hvalue
    have hformed : ∀ p ∈ parts, p.Formed := fun p hp =>
      hnormal.formed p (List.mem_cons_of_mem _ hp)
    refine ⟨⟨_, hsplit⟩, hname, ?_, fun v hv => ⟨front, parts, rfl, ?_⟩⟩
    · rw [valueOf_eq_none_iff hparts hformed, htext]
      simp
    · exact (Option.some.inj (Option.ite_none_left_eq_some.mp hv).2).symm

/-- The literal goes on behind the `=`, and an escape and a quote stand behind it. -/
theorem assignment_of_escape_and_quote :
    tokenize {} "A1=b~\\ \"$C\"".toList = .ok
        [⟨.word [.literal "A1=b~".toList, .escaped [' '], .double [.parameter (.var ['C'])]],
          "A1=b~\\ \"$C\"".toList, ⟨1, 1⟩, ⟨1, 12⟩⟩, .eof ⟨1, 12⟩] ∧
      Word.assignment?
          [.literal "A1=b~".toList, .escaped [' '], .double [.parameter (.var ['C'])]] =
        some (['A', '1'], some [.literal ['b', '~'], .escaped [' '],
          .double [.parameter (.var ['C'])]]) ∧
      ∃ rest, splitAssignment "A1=b~\\ \"$C\"".toList = some (['A', '1'], rest) := by
  have h : tokenize {} "A1=b~\\ \"$C\"".toList = .ok
      [⟨.word [.literal "A1=b~".toList, .escaped [' '], .double [.parameter (.var ['C'])]],
        "A1=b~\\ \"$C\"".toList, ⟨1, 1⟩, ⟨1, 12⟩⟩, .eof ⟨1, 12⟩] := by
    with_unfolding_all rfl
  have hassign : Word.assignment? [.literal "A1=b~".toList, .escaped [' '],
      .double [.parameter (.var ['C'])]] =
        some (['A', '1'], some [.literal ['b', '~'], .escaped [' '],
          .double [.parameter (.var ['C'])]]) := by
    with_unfolding_all rfl
  exact ⟨h, hassign, ((assignment?_iff_splitAssignment h List.mem_cons_self rfl).2 _ _ hassign).1⟩

end EnvScript
