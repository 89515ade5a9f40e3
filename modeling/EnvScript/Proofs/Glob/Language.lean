import EnvScript.Proofs.Glob.Longest
import EnvScript.Proofs.Glob.Regex

/-!
# The language of a pattern

`InLanguage` says item by item which texts a pattern stands for, from the text of the pattern alone.
A bracket expression stands for the characters that its translated class has under the reading rules
of regular expressions. Compiled patterns match exactly these texts, and of those at one place the
longest.
-/

namespace EnvScript

/-- The language of a pattern, read from left to right. -/
inductive InLanguage : Text → Text → Prop
  | nil : InLanguage [] []
  | star {p t : Text} (s : Text) (h : InLanguage p t) : InLanguage ('*' :: p) (s ++ t)
  | any {p t : Text} (c : Char) (h : InLanguage p t) : InLanguage ('?' :: p) (c :: t)
  | escaped {p t : Text} (c : Char) (h : InLanguage p t) : InLanguage ('\\' :: c :: p) (c :: t)
  /-- A backslash at the end of the pattern, which escapes nothing. -/
  | backslash : InLanguage ['\\'] ['\\']
  /-- One character of the class that the bracket expression is translated to. -/
  | bracket {p rest t : Text} {item : Item} {negated : Bool} {members : List Member} {c : Char}
      (hitem : readBracket p = .ok (item, rest))
      (hclass : Regex.readClass item.regex.tail = some (negated, members, []))
      (hc : members.any (·.contains c) ≠ negated) (h : InLanguage rest t) :
      InLanguage ('[' :: p) (c :: t)
  | plain {p t : Text} {c : Char} (hc : c ∉ ['*', '?', '\\', '[']) (h : InLanguage p t) :
      InLanguage (c :: p) (c :: t)

/-! ## Item by item -/

section

variable {p t : Text} {c : Char}

theorem inLanguage_star_iff : InLanguage ('*' :: p) t ↔ ∃ s u, t = s ++ u ∧ InLanguage p u := by
  constructor
  · intro h
    cases h with
    | star s h => exact ⟨s, _, rfl, h⟩
    | plain hc _ => exact absurd hc (by simp)
  · rintro ⟨s, u, rfl, h⟩
    exact .star s h

theorem inLanguage_any_iff : InLanguage ('?' :: p) t ↔ ∃ d u, t = d :: u ∧ InLanguage p u := by
  constructor
  · intro h
    cases h with
    | any d h => exact ⟨d, _, rfl, h⟩
    | plain hc _ => exact absurd hc (by simp)
  · rintro ⟨d, u, rfl, h⟩
    exact .any d h

theorem inLanguage_escaped_iff :
    InLanguage ('\\' :: c :: p) t ↔ ∃ u, t = c :: u ∧ InLanguage p u := by
  constructor
  · intro h
    cases h with
    | escaped _ h => exact ⟨_, rfl, h⟩
    | plain hc _ => exact absurd hc (by simp)
  · rintro ⟨u, rfl, h⟩
    exact .escaped c h

theorem inLanguage_bracket_iff {item : Item} {rest : Text} {negated : Bool} {members : List Member}
    (hitem : readBracket p = .ok (item, rest))
    (hclass : Regex.readClass item.regex.tail = some (negated, members, [])) :
    InLanguage ('[' :: p) t ↔
      ∃ d u, t = d :: u ∧ members.any (·.contains d) ≠ negated ∧ InLanguage rest u := by
  constructor
  · intro h
    cases h with
    | bracket hitem' hclass' hd h =>
      obtain ⟨rfl, rfl⟩ := Prod.mk.inj (Except.ok.inj (hitem.symm.trans hitem'))
      obtain ⟨rfl, rfl, -⟩ := by simpa using hclass.symm.trans hclass'
      exact ⟨_, _, rfl, hd, h⟩
    | plain hc _ => exact absurd hc (by simp)
  · rintro ⟨d, u, rfl, hd, h⟩
    exact .bracket hitem hclass hd h

/-- A character that begins no other item stands for itself, a backslash at the end as well. -/
theorem inLanguage_exactly_iff (hsigns : c ∉ ['*', '?', '[']) (hescape : c = '\\' → p = []) :
    InLanguage (c :: p) t ↔ ∃ u, t = c :: u ∧ InLanguage p u := by
  constructor
  · intro h
    cases h with
    | star => exact absurd hsigns (by simp)
    | any => exact absurd hsigns (by simp)
    | escaped => exact absurd (hescape rfl) (by simp)
    | backslash => exact ⟨[], rfl, .nil⟩
    | bracket => exact absurd hsigns (by simp)
    | plain _ h => exact ⟨_, rfl, h⟩
  · rintro ⟨u, rfl, h⟩
    by_cases hc : c = '\\'
    · obtain rfl := hescape hc
      cases h
      exact hc ▸ .backslash
    · refine .plain ?_ h
      simp only [List.mem_cons, List.not_mem_nil, or_false, not_or] at hsigns ⊢
      exact ⟨hsigns.1, hsigns.2.1, hc, hsigns.2.2⟩

theorem inLanguage_star_star : InLanguage ('*' :: '*' :: p) t ↔ InLanguage ('*' :: p) t := by
  constructor
  · intro h
    obtain ⟨s, u, rfl, hu⟩ := inLanguage_star_iff.mp h
    obtain ⟨s', u', rfl, hu'⟩ := inLanguage_star_iff.mp hu
    rw [← List.append_assoc]
    exact .star (s ++ s') hu'
  · intro h
    exact .star [] h

/-- Adjacent stars say no more than one. -/
theorem inLanguage_star_dropWhile :
    InLanguage ('*' :: p) t ↔ InLanguage ('*' :: p.dropWhile (· == '*')) t := by
  induction p with
  | nil => rfl
  | cons c p ih =>
    by_cases hc : c = '*'
    · subst hc
      rw [inLanguage_star_star, ih]
      rfl
    · rw [List.dropWhile_cons_of_neg (by simpa using hc)]

end

/-! ## Compiled patterns -/

theorem takes_run_iff (rest : Steps) (t : Text) :
    Takes (.run :: rest) t ↔ ∃ s u, t = s ++ u ∧ Takes rest u := by
  constructor
  · intro h
    cases h with
    | run s h => exact ⟨s, _, rfl, h⟩
    | char hc h => exact absurd hc Bool.false_ne_true
  · rintro ⟨s, u, rfl, h⟩
    exact .run s h

theorem takes_char_iff (step : Step) (rest : Steps) (t : Text) (hstep : step ≠ .run) :
    Takes (step :: rest) t ↔ ∃ c u, t = c :: u ∧ step.accepts c = true ∧ Takes rest u := by
  constructor
  · intro h
    cases h with
    | run s h => exact absurd rfl hstep
    | char hc h => exact ⟨_, _, rfl, hc, h⟩
  · rintro ⟨c, u, rfl, hc, h⟩
    exact .char hc h

theorem takes_exactly_iff (rest : Steps) (t : Text) (c : Char) :
    Takes (.exactly c :: rest) t ↔ ∃ u, t = c :: u ∧ Takes rest u := by
  rw [takes_char_iff _ rest t (by simp)]
  constructor
  · rintro ⟨d, u, rfl, hd, h⟩
    obtain rfl : d = c := by simpa [Step.accepts] using hd
    exact ⟨u, rfl, h⟩
  · rintro ⟨u, rfl, h⟩
    exact ⟨c, u, rfl, by simp [Step.accepts], h⟩

/-- A class is read to its end as the members it is written from. -/
theorem readClass_bracket {regex : Text} {index : Nat} (negated : Bool) {atoms : List Atom}
    {members : List Member} (h : membersOf regex index atoms = .ok members)
    (hlegible : LegibleMembers atoms) :
    Regex.readClass (Item.bracket negated atoms).regex.tail = some (negated, members, []) := by
  rw [← readClass_text regex index negated atoms members h hlegible []]
  cases negated <;> rfl

theorem legibleMembers_readItems {p : Text} {glob : Glob} (h : readItems p = .ok glob) :
    ∀ negated atoms, Item.bracket negated atoms ∈ glob → LegibleMembers atoms := by
  fun_induction readItems p generalizing glob with
  | case1 =>
    rw [← Except.ok.inj h]
    simp
  | case2 p ih | case3 p ih | case4 c p ih | case7 c p _ _ _ _ ih =>
    obtain ⟨rest, hrest, rfl⟩ := exceptMap_eq_ok h
    intro negated atoms hmem
    exact ih hrest negated atoms (by simpa using hmem)
  | case5 p item rest hitem ih =>
    obtain ⟨more, hmore, rfl⟩ := exceptMap_eq_ok h
    intro negated atoms hmem
    rcases List.mem_cons.mp hmem with hfirst | hlater
    · obtain ⟨negated', atoms', heq, hlegible⟩ := legibleMembers_readBracket hitem
      rw [heq] at hfirst
      exact (Item.bracket.inj hfirst).2 ▸ hlegible
    · exact ih hmore negated atoms hlater
  | case6 => exact absurd h (by simp)

/-- The steps of a pattern take exactly the texts of its language. -/
theorem takes_iff_inLanguage {p : Text} {glob : Glob} {steps : Steps} (h : readItems p = .ok glob)
    (hsteps : List.Forall₂ Item.CompilesTo glob steps) (t : Text) :
    Takes steps t ↔ InLanguage p t := by
  fun_induction readItems p generalizing glob steps t with
  | case1 =>
    rw [← Except.ok.inj h] at hsteps
    cases hsteps
    constructor
    · intro ht
      cases ht
      exact .nil
    · intro ht
      cases ht
      exact .nil
  | case2 p ih =>
    obtain ⟨rest, hrest, rfl⟩ := exceptMap_eq_ok h
    cases hsteps with
    | cons hstep hmore =>
      cases hstep
      -- The stars behind the first have been read with it.
      rw [takes_run_iff, inLanguage_star_dropWhile, inLanguage_star_iff]
      simp only [ih hrest hmore]
  | case3 p ih =>
    obtain ⟨rest, hrest, rfl⟩ := exceptMap_eq_ok h
    cases hsteps with
    | cons hstep hmore =>
      cases hstep
      rw [takes_char_iff _ _ _ (by simp), inLanguage_any_iff]
      simp only [ih hrest hmore, Step.accepts, true_and]
  | case4 c p ih =>
    obtain ⟨rest, hrest, rfl⟩ := exceptMap_eq_ok h
    cases hsteps with
    | cons hstep hmore =>
      cases hstep
      rw [takes_exactly_iff, inLanguage_escaped_iff]
      simp only [ih hrest hmore]
  | case5 p item rest hitem ih =>
    obtain ⟨more, hmore, rfl⟩ := exceptMap_eq_ok h
    obtain ⟨negated, atoms, rfl, hlegible⟩ := legibleMembers_readBracket hitem
    cases hsteps with
    | cons hstep hrest =>
      cases hstep with
      | bracket _ hmembers =>
        -- The members of a class are legible, so its text is read as just these.
        have hclass := readClass_bracket negated hmembers hlegible
        rw [takes_char_iff _ _ _ (by simp), inLanguage_bracket_iff hitem hclass]
        simp only [ih hmore hrest, Step.accepts, bne_iff_ne]
  | case6 => exact absurd h (by simp)
  | case7 c p hstar hany hescape hbracket ih =>
    obtain ⟨rest, hrest, rfl⟩ := exceptMap_eq_ok h
    cases hsteps with
    | cons hstep hmore =>
      cases hstep
      have hsigns : c ∉ ['*', '?', '['] := by
        simp only [List.mem_cons, List.not_mem_nil, or_false, not_or]
        exact ⟨hstar, hany, hbracket⟩
      -- Only the end of the pattern leaves a backslash to this case.
      have hend : c = '\\' → p = [] := by
        rintro rfl
        cases p with
        | nil => rfl
        | cons d p => exact absurd rfl (hescape d p rfl)
      rw [takes_exactly_iff, inLanguage_exactly_iff hsigns hend]
      simp only [ih hrest hmore]

theorem compilePattern_eq_ok {limit : Int} {pattern : Text} {steps : Steps}
    (h : compilePattern limit pattern = .ok steps) :
    ∃ glob, readItems pattern = .ok glob ∧ List.Forall₂ Item.CompilesTo glob steps := by
  obtain ⟨glob, hglob, h⟩ := exceptBind_eq_ok h
  refine ⟨glob, exceptMapError_eq_ok hglob, ?_⟩
  dsimp only at h
  split at h
  · exact absurd h (by simp [throw, throwThe, MonadExceptOf.throw])
  · exact forall₂_stepsOf _ _ _ _ (exceptMapError_eq_ok h)

/-! ## Matches -/

theorem getElem?_matchEnds (steps : Steps) (first start : Nat) (t : Text) (h : start ≤ t.length) :
    (matchEnds steps first t)[start]? =
      some ((matchLength steps (t.drop start)).map (first + start + ·)) := by
  induction t generalizing first start with
  | nil =>
    obtain rfl : start = 0 := Nat.le_zero.mp h
    rfl
  | cons c t ih =>
    cases start with
    | zero => rfl
    | succ start =>
      rw [matchEnds, List.getElem?_cons_succ, ih (first + 1) start (Nat.le_of_succ_le_succ h),
        List.drop_succ_cons]
      congr 2
      funext n
      omega

/-- A compiled pattern is what its regular expression says. At every place of a text it matches
exactly where some text from there on is in the language of the pattern, and it ends at the greatest
end of all these texts. -/
theorem compilePattern_longest_match {limit : Int} {pattern : Text} {steps : Steps}
    (h : compilePattern limit pattern = .ok steps) (text : Text) (start : Nat)
    (hstart : start ≤ text.length) :
    (∃ glob, Glob.ofPattern pattern = .ok glob ∧ Regex.read (Glob.regex glob) = some steps) ∧
    ∃ found, (matchEnds steps 0 text)[start]? = some found ∧
      found = (matchLength steps (text.drop start)).map (start + ·) ∧
      (found.isSome = true ↔
        ∃ e, start ≤ e ∧ e ≤ text.length ∧ InLanguage pattern (text.extract start e)) ∧
      ∀ e, found = some e →
        IsGreatest {e | start ≤ e ∧ e ≤ text.length ∧ InLanguage pattern (text.extract start e)}
          e := by
  obtain ⟨glob, hglob, hsteps⟩ := compilePattern_eq_ok h
  have hregex : Regex.read (Glob.regex glob) = some steps :=
    Regex.read_regex glob steps hsteps (legibleMembers_readItems hglob)
  have hofPattern : Glob.ofPattern pattern = .ok glob := by
    rw [Glob.ofPattern, hglob]
    rfl
  -- an end `e` of the text is an end `e - start` of what is left from `start` on
  have hlang : ∀ e, start ≤ e → (InLanguage pattern (text.extract start e) ↔
      Takes steps ((text.drop start).take (e - start))) := by
    intro e _
    rw [List.extract_eq_take_drop]
    exact (takes_iff_inLanguage hglob hsteps _).symm
  refine ⟨⟨glob, hofPattern, hregex⟩, _, ?_, rfl, ?_, ?_⟩
  · rw [getElem?_matchEnds steps 0 start text hstart, Nat.zero_add]
  · rw [Option.isSome_map, isSome_matchLength_iff]
    constructor
    -- A length `m` of a match from `start` on is the end `start + m`, and the other way round.
    · rintro ⟨m, hm, htakes⟩
      rw [List.length_drop] at hm
      refine ⟨start + m, by omega, by omega, (hlang _ (by omega)).mpr ?_⟩
      rwa [Nat.add_sub_cancel_left]
    · rintro ⟨e, hle, hlen, hin⟩
      refine ⟨e - start, ?_, (hlang e hle).mp hin⟩
      rw [List.length_drop]
      omega
  · intro e he
    obtain ⟨n, hn, rfl⟩ := Option.map_eq_some_iff.mp he
    obtain ⟨⟨hlen, htakes⟩, hmax⟩ := isGreatest_matchLength steps (text.drop start) n hn
    rw [List.length_drop] at hlen
    refine ⟨⟨by omega, by omega, (hlang _ (by omega)).mpr ?_⟩, ?_⟩
    · rwa [Nat.add_sub_cancel_left]
    · rintro e ⟨hle, hlen', hin⟩
      have hm : e - start ≤ n := hmax ⟨by rw [List.length_drop]; omega, (hlang e hle).mp hin⟩
      omega

theorem longest_match_of_two_runs :
    compilePattern 10000 "a*[b-d]*c?".toList =
        .ok [.exactly 'a', .run, .oneOf false [.range 'b' 'd'], .run, .exactly 'c', .any] ∧
      2 ≤ "xxabcdcac\ny".toList.length ∧
      IsGreatest {e | 2 ≤ e ∧ e ≤ "xxabcdcac\ny".toList.length ∧
        InLanguage "a*[b-d]*c?".toList ("xxabcdcac\ny".toList.extract 2 e)} 10 := by
  have hcompile : compilePattern 10000 "a*[b-d]*c?".toList =
      .ok [.exactly 'a', .run, .oneOf false [.range 'b' 'd'], .run, .exactly 'c', .any] := by
    decide +kernel
  obtain ⟨-, found, hfound, -, -, hgreatest⟩ :=
    compilePattern_longest_match hcompile "xxabcdcac\ny".toList 2 (by decide)
  refine ⟨hcompile, by decide, hgreatest 10 ?_⟩
  have hten : (matchEnds [.exactly 'a', .run, .oneOf false [.range 'b' 'd'], .run, .exactly 'c',
      .any] 0 "xxabcdcac\ny".toList)[2]? = some (some 10) := by decide +kernel
  exact Option.some.inj (hfound.symm.trans hten)

end EnvScript
