import EnvScript.Proofs.Script.Joined
import EnvScript.Proofs.Token.Separated

/-!
# Separators between assignments

Assignments in a script may share a command, be joined to a list, or be statements of their own. In
whichever way they are separated, the script does what they do one after the other.
-/

namespace EnvScript

/-- A text with separators between its words. -/
def separated (first : Text) (rest : List (Separator × Text)) : Text :=
  first ++ rest.flatMap fun (separator, w) => separator.text ++ w

/-- Under some limits the text with a newline behind it is the tokens of one word, which is an
assignment, of the newline and of the end. -/
def IsAssignment (w : Text) : Prop :=
  ∃ limits t newline e, tokenize limits (w ++ ['\n']) = .ok [t, newline, e] ∧ t.kind = .word ∧
    t.text = w ∧ t.assignment?.isSome ∧ newline.kind = .newline ∧ e.kind = .eof

variable {limits : Limits} {limit limit' : Int} {w first tail : Text} {c : Context}
  {a : Assignment} {as : List Assignment} {rest : List (Separator × Text)} {ts us : List Token}
  {t : Token} {s : Scanner}

/-! ## What a word assigns -/

/-- In front of a newline the text is a word with this assignment. -/
def AssignmentText (limit : Int) (w : Text) (a : Assignment) : Prop :=
  ∃ word, WordText limit w word ∧ word.assignment? = some a

theorem starts_of_splitAssignment {t : Text} {p : Text × Text} (h : splitAssignment t = some p) :
    ∃ x u, t = x :: u ∧ isNameStart x = true := by
  unfold splitAssignment at h
  split at h
  · rename_i x name value hname hvalue
    cases t with
    | nil => exact absurd hname (by simp [leadingName])
    | cons y u =>
      by_cases hy : isNameStart y = true
      · exact ⟨y, u, rfl, hy⟩
      · rw [leadingName, if_neg hy] at hname
        exact absurd hname (by simp)
  · exact absurd h (by simp)

theorem IsAssignment.exists_text (h : IsAssignment w) : ∃ limit a, AssignmentText limit w a := by
  obtain ⟨limits, t, newline, e, htokens, -, htext, hassignment, -⟩ := h
  obtain ⟨a, ha⟩ := Option.isSome_iff_exists.mp hassignment
  obtain ⟨word, hlexeme, hword⟩ := t.exists_word_of_assignment? ha
  obtain ⟨s', hyields⟩ := Scanner.yields_of_tokensUpTo htokens
  obtain ⟨x, u, rfl, hx⟩ : ∃ x u, w = x :: u ∧ isNameStart x = true := by
    obtain ⟨text, parts, value, rfl, hsplit⟩ := Word.exists_split_of_assignment? hword
    obtain ⟨x, u, rfl, hx⟩ := starts_of_splitAssignment hsplit
    obtain ⟨v, hv⟩ := hyields.spelled t List.mem_cons_self _ _ hlexeme
    exact ⟨x, u ++ v, htext ▸ hv.symm, hx⟩
  -- A name begins the text, so the word is read from its start on.
  have hskip : (Cursor.ofText (x :: u ++ ['\n'])).skipBlanks = .ofText (x :: u ++ ['\n']) :=
    Cursor.skipBlanks_eq_self (blankStep_of_isNameStart hx _)
  cases hyields with
  | cons hnext _ =>
    rcases Scanner.next_ok hnext with ⟨-, ht, -⟩ | ⟨n, -, -, rfl, -, htake, -, -, hread⟩
    · rw [ht] at hlexeme
      exact absurd hlexeme (by simp [Token.eof])
    · have hread : readWord limits.nesting 0 {} (Cursor.ofText (x :: u ++ ['\n'])).skipBlanks =
          .ok (word, (Cursor.ofText (x :: u ++ ['\n'])).skipBlanks.advance n) := hread word hlexeme
      have htake : t.text = (Cursor.ofText (x :: u ++ ['\n'])).skipBlanks.rest.take n := htake
      rw [hskip] at hread htake
      have hlength : n = (x :: u).length := by
        have hlength := congrArg List.length (htext.symm.trans htake)
        simp [Cursor.ofText] at hlength ⊢
        omega
      exact ⟨_, a, word, ⟨⟨x, u, rfl, hx⟩, _, [], rfl, hlength ▸ hread⟩, hword⟩

theorem isAssignment_of_tokenize (limits : Limits)
    (h : (tokenize limits (w ++ ['\n'])).map
        (·.map fun t => (t.kind, t.text, t.assignment?.isSome)) =
      .ok [(.word, w, true), (.newline, ['\n'], false), (.eof, [], false)]) :
    IsAssignment w := by
  obtain ⟨_, htokens, hs⟩ := exceptMap_eq_ok h
  obtain ⟨t, _, rfl, ht, hs⟩ := List.map_eq_cons_iff.mp hs
  obtain ⟨newline, _, rfl, hnewline, hs⟩ := List.map_eq_cons_iff.mp hs
  obtain ⟨e, _, rfl, he, hs⟩ := List.map_eq_cons_iff.mp hs
  obtain rfl := List.map_eq_nil_iff.mp hs
  obtain ⟨hkind, htext, hassignment⟩ := by simpa only [Prod.mk.injEq] using ht
  exact ⟨limits, t, newline, e, htokens, hkind, htext, hassignment, congrArg Prod.fst hnewline,
    congrArg Prod.fst he⟩

/-- All the words are assignments under one and the same limit. -/
theorem exists_forall₂_text {words : List Text} (h : ∀ w ∈ words, IsAssignment w) :
    ∃ limit as, List.Forall₂ (AssignmentText limit) words as := by
  induction words with
  | nil => exact ⟨0, [], .nil⟩
  | cons w words ih =>
    obtain ⟨hw, hwords⟩ := List.forall_mem_cons.mp h
    obtain ⟨limit, a, word, hword, ha⟩ := hw.exists_text
    obtain ⟨limit', as, has⟩ := ih hwords
    refine ⟨max limit limit', a :: as, .cons ⟨word, hword.mono (Int.le_max_left _ _), ha⟩ ?_⟩
    refine has.imp ?_
    rintro w b ⟨word, hword, hb⟩
    exact ⟨word, hword.mono (Int.le_max_right _ _), hb⟩

/-! ## The tokens of separated assignments -/

/-- The tokens go on any list to a row of the grammar. -/
def Grammar.Follows (ts : List Token) : Prop :=
  ∀ newlines ∈ Grammar.newlines, ∀ body ∈ Grammar.list, Grammar.Rows (newlines ++ (body ++ ts))

theorem Grammar.follows_end (ht : t.kind = .eof) : Follows [t] :=
  fun _ hnewlines _ hbody => .last hnewlines hbody ht

theorem Grammar.follows_newline {newline : Token} (hnewline : newline.kind = .newline)
    (ht : t.kind = .eof) : Follows [newline, t] :=
  fun _ hnewlines _ hbody =>
    .cons hnewlines hbody (.inr hnewline) (.done (Language.nil_mem_kstar _) ht)

/-- In front of an assignment every separator goes on the list or ends it. -/
theorem Grammar.Follows.separator {separator : Separator}
    (hus : us.map (·.lexeme) = separator.lexemes) (ht : t.assignment?.isSome) (h : Follows ts) :
    Follows (us ++ t :: ts) := by
  intro newlines hnewlines body hbody
  have hsingle : [t] ∈ command := mem_command_single ht
  -- Behind the end of the list the assignment begins another.
  have hends : ∀ {u}, u.kind = .operator .semi ∨ u.kind = .newline →
      Rows (newlines ++ (body ++ u :: t :: ts)) := fun hu =>
    .cons hnewlines hbody hu (h [] (Language.nil_mem_kstar _) [t] (mem_list_of_command hsingle))
  have hgoes : ∀ {u more c}, u.kind = .operator (.connective c) → more ∈ Grammar.newlines →
      Rows (newlines ++ (body ++ (u :: more ++ t :: ts))) := by
    intro u more c hu hmore
    simpa using h newlines hnewlines _ (mem_list_append hbody hu hmore hsingle)
  cases separator with
  | space =>
    obtain rfl := List.map_eq_nil_iff.mp hus
    simpa using h newlines hnewlines _ (mem_list_concat hbody ht)
  | tab =>
    obtain rfl := List.map_eq_nil_iff.mp hus
    simpa using h newlines hnewlines _ (mem_list_concat hbody ht)
  | semi =>
    obtain ⟨u, rfl, hu⟩ := List.map_eq_singleton_iff.mp hus
    exact hends (.inl (congrArg Lexeme.kind hu))
  | newline =>
    obtain ⟨u, rfl, hu⟩ := List.map_eq_singleton_iff.mp hus
    exact hends (.inr (congrArg Lexeme.kind hu))
  | connective c layout =>
    cases layout with
    | broken =>
      obtain ⟨u, more, rfl, hu, hmore⟩ := List.map_eq_cons_iff.mp hus
      obtain ⟨u', rfl, hu'⟩ := List.map_eq_singleton_iff.mp hmore
      exact hgoes (congrArg Lexeme.kind hu)
        (mem_kstar_single.mpr (List.forall_mem_singleton.mpr (congrArg Lexeme.kind hu')))
    | _ =>
      obtain ⟨u, rfl, hu⟩ := List.map_eq_singleton_iff.mp hus
      exact hgoes (congrArg Lexeme.kind hu) (Language.nil_mem_kstar _)

theorem Separator.filterMap_tokens {separator : Separator}
    (hus : us.map (·.lexeme) = separator.lexemes) : us.filterMap Token.assignment? = [] := by
  have hkinds : ∀ lexeme ∈ separator.lexemes, lexeme.kind ≠ .word := by
    rcases separator with _ | _ | _ | _ | ⟨c, _ | _ | _⟩ <;> simp [lexemes, Lexeme.kind]
  exact Grammar.filterMap_of_kind fun u hu =>
    hkinds u.lexeme (hus ▸ List.mem_map_of_mem hu)

theorem startsSeam_rest (htail : tail = [] ∨ tail = ['\n']) (rest : List (Separator × Text)) :
    StartsSeam ((rest.flatMap fun (separator, w) => separator.text ++ w) ++ tail) := by
  cases rest with
  | nil =>
    rcases htail with rfl | rfl
    · exact fun y hy => absurd hy (by simp)
    · exact Separator.newline.startsSeam []
  | cons p rest =>
    rw [List.flatMap_cons, List.append_assoc, List.append_assoc]
    exact p.1.startsSeam _

/-- The scanner hands out the words behind the first with all that stands between them. The
induction is on the words. -/
theorem exists_yields_rest (htail : tail = [] ∨ tail = ['\n'])
    (hrest : List.Forall₂ (AssignmentText limits.nesting) (rest.map Prod.snd) as)
    (h : s.Facing limits ((rest.flatMap fun (separator, w) => separator.text ++ w) ++ tail)) :
    ∃ ts s', s.Yields limits ts s' ∧ Grammar.Follows ts ∧ ts.filterMap Token.assignment? = as := by
  induction rest generalizing s as with
  | nil =>
    cases hrest
    rcases htail with rfl | rfl
    · obtain ⟨e, s', hend, he⟩ := h.next_end
      have hkind : e.kind = .eof := congrArg Lexeme.kind he
      exact ⟨[e], s', .single hend, Grammar.follows_end hkind,
        Grammar.filterMap_of_kind (List.forall_mem_singleton.mpr (by simp [hkind]))⟩
    · obtain ⟨newline, s₁, hnewline, hlexeme, h₁⟩ := h.next_newline
      obtain ⟨e, s', hend, he⟩ := h₁.next_end
      have hkind : e.kind = .eof := congrArg Lexeme.kind he
      have hnewlines : ∀ t ∈ [newline], t.kind = .newline :=
        List.forall_mem_singleton.mpr (congrArg Lexeme.kind hlexeme)
      exact ⟨[newline, e], s', .cons hnewline (.single hend),
        Grammar.follows_newline (congrArg Lexeme.kind hlexeme) hkind, filterMap_end hnewlines hkind⟩
  | cons p rest ih =>
    obtain ⟨separator, w⟩ := p
    cases hrest with
    | @cons _ a _ as hw hrest =>
      obtain ⟨word, hword, ha⟩ := hw
      rw [List.flatMap_cons, List.append_assoc, List.append_assoc] at h
      obtain ⟨us, t, s₁, hus, hlexemes, hlexeme, h₁⟩ :=
        h.yields_separator separator hword (startsSeam_rest htail rest)
      obtain ⟨ts, s', hts, hfollows, hassignments⟩ := ih hrest h₁
      have ht := (Token.assignment?_of_lexeme hlexeme).trans ha
      refine ⟨us ++ t :: ts, s', ?_, hfollows.separator hlexemes (by simp [ht]), ?_⟩
      · simpa using hus.append hts
      · rw [List.filterMap_append, Separator.filterMap_tokens hlexemes, List.nil_append,
          List.filterMap_cons_some ht, hassignments]

/-! ## The outcome -/

/-- Limits with room for a script of `n` characters that go `nesting` deep. -/
def Limits.raised (limits : Limits) (n : Nat) (nesting : Int) : Limits :=
  { limits with
    inputSize := max limits.inputSize n
    tokens := max limits.tokens n
    iterations := max limits.iterations (3 * (n + 1) : Nat)
    nesting := max limits.nesting nesting }

theorem Limits.tighter_raised (limits : Limits) (n : Nat) (nesting : Int) :
    limits.Tighter (limits.raised n nesting) :=
  ⟨Int.le_max_left _ _, Int.le_max_left _ _, Int.le_max_left _ _, Int.le_max_left _ _,
    Int.le_refl _⟩

theorem Outcome.Below.unplaced_eq {k : Nat} {o o' : Outcome} (h : o.Below k o') :
    o.unplaced = o'.unplaced := by
  cases h with
  | ok c => rfl
  | failed h c => exact congrArg (EStateM.Result.error · c) h.error.symm

/-- With room for it, the script does what its assignments do one after the other. -/
theorem unplaced_runScript_raised (limits : Limits) {n : Nat} (htail : tail = [] ∨ tail = ['\n'])
    (hwords : List.Forall₂ (AssignmentText limit) (first :: rest.map Prod.snd) as)
    (hn : (separated first rest ++ tail).length ≤ n) (c : Context) :
    (runScript (limits.raised n limit) (separated first rest ++ tail) c).unplaced =
      Eval.assignAll (limits.raised n limit) as c := by
  have hdeeper : ∀ w a, AssignmentText limit w a →
      AssignmentText (limits.raised n limit).nesting w a :=
    fun _ _ ⟨word, hword, ha⟩ => ⟨word, hword.mono (Int.le_max_right _ _), ha⟩
  rw [separated, List.append_assoc] at hn ⊢
  cases hwords with
  | @cons _ a _ as hfirst hrest =>
    obtain ⟨word, hword, ha⟩ := hdeeper _ _ hfirst
    have hroom := fun l : Int => Int.le_trans (Int.ofNat_le.mpr hn) (Int.le_max_right l n)
    have hfacing : Scanner.Facing (limits.raised n limit) _ (.ofText _) :=
      Scanner.facing_ofText (hroom _) (hroom _)
    obtain ⟨t, s₁, hnext, hlexeme, h₁⟩ := hfacing.next_word hword (startsSeam_rest htail rest)
    obtain ⟨ts, s', hts, hfollows, hassignments⟩ :=
      exists_yields_rest htail (hrest.imp hdeeper) h₁
    have ht := (Token.assignment?_of_lexeme hlexeme).trans ha
    have hrows : Grammar.Rows (t :: ts) := hfollows [] (Language.nil_mem_kstar _) [t]
      (Grammar.mem_list_of_command (Grammar.mem_command_single (by simp [ht])))
    have hyields := Scanner.Yields.cons hnext hts
    have hends : EndsWithin _ _ _ (Eval.assignAll _ _ c) := endsWithin_of_yields hrows hyields
    have hlength := hrows.length_le hyields
    rw [List.filterMap_cons_some ht, hassignments] at hends
    refine hends.unplaced_eq (Int.le_trans (Int.ofNat_le.mpr ?_) (Int.le_max_right _ _))
    omega

/-- Limits that are not reached do not matter. -/
theorem unplaced_runScript_separated {n : Nat} (htail : tail = [] ∨ tail = ['\n'])
    (hwords : List.Forall₂ (AssignmentText limit) (first :: rest.map Prod.snd) as)
    (hn : (separated first rest ++ tail).length ≤ n)
    (hwithin : (runScript limits (separated first rest ++ tail) c).WithinLimits) :
    (runScript limits (separated first rest ++ tail) c).unplaced =
      Eval.assignAll (limits.raised n limit) as c :=
  (runScript_of_tighter (limits.tighter_raised n limit) hwithin).unplaced_eq.symm.trans
    (unplaced_runScript_raised limits htail hwords hn c)

theorem separated_cons (separator : Separator) (w : Text) :
    separated first ((separator, w) :: rest) = first ++ (separator.text ++ separated w rest) := by
  rw [separated, separated, List.flatMap_cons, List.append_assoc]

theorem intercalate_newline (words : List Text) :
    ['\n'].intercalate (first :: words) = separated first (words.map (Separator.newline, ·)) := by
  induction words generalizing first with
  | nil => simp [separated]
  | cons w words ih =>
    rw [List.intercalate_cons_cons, ih, List.map_cons, separated_cons, List.append_assoc]
    rfl

theorem flatMap_newline (words : List Text) :
    (first :: words).flatMap (· ++ ['\n']) =
      separated first (words.map (Separator.newline, ·)) ++ ['\n'] := by
  induction words generalizing first with
  | nil => simp [separated]
  | cons w words ih =>
    rw [List.flatMap_cons, ih, List.map_cons, separated_cons]
    simp [Separator.text]

/-- Separators between assignments do not matter. Each of the words, with a newline behind it, is
read as one assignment. With whatever separators the words stand in a script, it comes to what the
script comes to that has them on lines of their own, except for the position of a failure, if
neither of the two reaches a limit. -/
theorem runScript_separated (limits : Limits) (context : Context) (first : Text)
    (rest : List (Separator × Text)) (lines : Text)
    (hwords : ∀ w ∈ first :: rest.map Prod.snd, IsAssignment w)
    (hlines : lines = ['\n'].intercalate (first :: rest.map Prod.snd) ∨
      lines = (first :: rest.map Prod.snd).flatMap (· ++ ['\n']))
    (hwithin : (runScript limits (separated first rest) context).WithinLimits)
    (hwithin' : (runScript limits lines context).WithinLimits) :
    (runScript limits (separated first rest) context).unplaced =
      (runScript limits lines context).unplaced := by
  obtain ⟨limit, as, has⟩ := exists_forall₂_text hwords
  obtain ⟨rest', tail, rfl, hrest', htail⟩ : ∃ rest' tail, lines = separated first rest' ++ tail ∧
      rest'.map Prod.snd = rest.map Prod.snd ∧ (tail = [] ∨ tail = ['\n']) := by
    refine ⟨(rest.map Prod.snd).map (Separator.newline, ·), ?_⟩
    rcases hlines with rfl | rfl
    · exact ⟨[], by rw [intercalate_newline, List.append_nil], by simp, .inl rfl⟩
    · exact ⟨['\n'], flatMap_newline _, by simp, .inr rfl⟩
  -- With room for both texts each of them does what the assignments do.
  rw [← List.append_nil (separated first rest)] at hwithin ⊢
  calc (runScript limits (separated first rest ++ []) context).unplaced
    _ = Eval.assignAll (limits.raised _ limit) as context :=
      unplaced_runScript_separated (.inl rfl) has (Nat.le_max_left _ _) hwithin
    _ = (runScript limits (separated first rest' ++ tail) context).unplaced :=
      (unplaced_runScript_separated htail (hrest' ▸ has) (Nat.le_max_right _ _) hwithin').symm

/-- An operator and a newline, then a blank: two assignments are stored and the third fails. -/
theorem separated_by_operator_and_blank :
    (runScript {} "A=1&&\nB=$A C=$X".toList .empty).unplaced =
        (runScript {} "A=1\nB=$A\nC=$X".toList .empty).unplaced ∧
      (runScript {} "A=1\nB=$A\nC=$X".toList .empty).unplaced =
        .error (.unsetVariable ['X']) (.ofPairs [(['A'], ['1']), (['B'], ['1'])]) := by
  have hline : ∀ w ∈ ["A=1".toList, "B=$A".toList, "C=$X".toList],
      (tokenize {} (w ++ ['\n'])).map (·.map fun t => (t.kind, t.text, t.assignment?.isSome)) =
        .ok [(.word, w, true), (.newline, ['\n'], false), (.eof, [], false)] := by decide +kernel
  have hwords : ∀ w ∈ ["A=1".toList, "B=$A".toList, "C=$X".toList], IsAssignment w :=
    fun w hw => isAssignment_of_tokenize {} (hline w hw)
  have hfailure : runScript {} "A=1\nB=$A\nC=$X".toList .empty =
      ⟨.error ⟨.unsetVariable ['X'], ⟨3, 5⟩⟩, .ofPairs [(['A'], ['1']), (['B'], ['1'])]⟩ :=
    Outcome.eq_mk (by decide +kernel) (by decide +kernel)
  refine ⟨?_, by rw [hfailure]; rfl⟩
  exact runScript_separated {} .empty "A=1".toList
    [(.connective .and .broken, "B=$A".toList), (.space, "C=$X".toList)] _ hwords (.inl (by decide))
    (by decide +kernel) (by decide +kernel)

end EnvScript
