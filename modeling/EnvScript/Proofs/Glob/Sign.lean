import EnvScript.Proofs.Glob.NamedClass
import EnvScript.Proofs.Spec.Active

/-!
# The signs of a bracket expression

The text of a bracket expression as signs: characters, escaped characters and names of classes, up
to the bracket that closes it. `readBracket_eq_ok_iff` says that a bracket expression is read as the
atoms of its signs.
-/

namespace EnvScript

/-- What is written for a member of a bracket expression: a character, by itself or behind a
backslash, or the name of a class. -/
inductive Sign where
  | char (escaped : Bool) (c : Char)
  | named (k : NamedClass)
  deriving DecidableEq, Repr

/-- The signs in a text up to the bracket that closes the expression, and what is behind it. In
first place a closing bracket is a sign. -/
inductive Listed : Bool → Text → List Sign → Text → Prop
  | close (rest : Text) : Listed false (']' :: rest) [] rest
  | named {first : Bool} {t rest : Text} {signs : List Sign} (k : NamedClass)
      (h : Listed false t signs rest) :
      Listed first ('[' :: ':' :: (k.name ++ ':' :: ']' :: t)) (.named k :: signs) rest
  | escaped {first : Bool} {t rest : Text} {signs : List Sign} (c : Char)
      (h : Listed false t signs rest) : Listed first ('\\' :: c :: t) (.char true c :: signs) rest
  | plain {first : Bool} {c : Char} {t rest : Text} {signs : List Sign} (hescape : c ≠ '\\')
      (hclose : c = ']' → first = true)
      (hopen : c = '[' → ∀ name u, t ≠ ':' :: (name ++ ':' :: ']' :: u))
      (h : Listed false t signs rest) : Listed first (c :: t) (.char false c :: signs) rest

theorem Listed.char {first : Bool} {c : Char} {t rest : Text} {signs : List Sign}
    (hc : c ∉ ['\\', ']', '[']) (h : Listed false t signs rest) :
    Listed first (c :: t) (.char false c :: signs) rest := by
  simp only [List.mem_cons, List.not_mem_nil, or_false, not_or] at hc
  exact .plain hc.1 (fun h => absurd h hc.2.1) (fun h => absurd h hc.2.2) h

/-- The signs of a bracket expression behind its `[`, where a `!` or `^` in front takes the
complement. -/
inductive Bracketed : Text → Bool → List Sign → Text → Prop
  | complement {c : Char} {t rest : Text} {signs : List Sign} (hc : c = '!' ∨ c = '^')
      (h : Listed true t signs rest) : Bracketed (c :: t) true signs rest
  | plain {t rest : Text} {signs : List Sign} (hnot : t.head? ≠ some '!')
      (hcaret : t.head? ≠ some '^') (h : Listed true t signs rest) : Bracketed t false signs rest

/-! ## Signs as atoms -/

/-- A character as a member of a class. -/
def charAtom (escaped : Bool) (c : Char) : Atom := if escaped then .ofChar c else memberAtom c

def Sign.atoms : Sign → List Atom
  | .char escaped c => [charAtom escaped c]
  | .named k => k.atoms

section

variable {escaped : Bool} {c : Char}

@[simp] theorem char_charAtom (escaped : Bool) (c : Char) : (charAtom escaped c).char = c := by
  cases escaped
  · show (memberAtom c).char = c
    unfold memberAtom
    split <;> rfl
  · show (Atom.ofChar c).char = c
    unfold Atom.ofChar
    split <;> rfl

/-- Only a hyphen that is not escaped is written as one. -/
theorem charAtom_eq_hyphen (h : charAtom escaped c = .bare '-') : escaped = false ∧ c = '-' := by
  have hc : c = '-' := by
    rw [← char_charAtom escaped c, h]
    rfl
  subst hc
  cases escaped with
  | false => exact ⟨rfl, rfl⟩
  | true => exact absurd h (by decide)

end

/-! ## Reading the signs -/

section

variable {first : Bool} {c : Char} {t rest : Text} {atoms : List Atom} {signs : List Sign}

theorem splitClass_name (k : NamedClass) (t : Text) :
    splitClass (k.name ++ ':' :: ']' :: t) = some (k.name, t) := by
  cases k <;> rfl

theorem splitClass_eq_none_iff :
    splitClass t = none ↔ ∀ name u, t ≠ name ++ ':' :: ']' :: u := by
  constructor
  · intro h
    fun_induction splitClass t with
    | case1 => simp
    | case2 => exact absurd h (by simp)
    | case3 c t hclose ih =>
      have hnone := Option.map_eq_none_iff.mp h
      intro name u heq
      cases name with
      | nil =>
        obtain ⟨rfl, rfl⟩ := List.cons.inj heq
        exact hclose u rfl rfl
      | cons d name => exact ih hnone name u (List.cons.inj heq).2
  · intro h
    refine Option.eq_none_iff_forall_ne_some.mpr ?_
    rintro ⟨name, u⟩ hsplit
    exact h name u (append_of_splitClass hsplit)

/-- A bracket is itself where no class with a name begins. -/
theorem leadingClass?_eq_none_iff :
    leadingClass? c t = none ↔ (c = '[' → ∀ name u, t ≠ ':' :: (name ++ ':' :: ']' :: u)) := by
  constructor
  · rintro h rfl name u rfl
    exact splitClass_eq_none_iff.mp h name u rfl
  · intro h
    refine Option.eq_none_iff_forall_ne_some.mpr ?_
    rintro ⟨name, u⟩ hclass
    obtain ⟨v, hc, rfl, hsplit⟩ := leadingClass?_eq_some_iff.mp hclass
    exact h hc name u (congrArg (':' :: ·) (append_of_splitClass hsplit))

/-- What stands in front of the signs of a bracket expression and is read as one more of them. -/
theorem exists_sign_of_readMember (h : readMember c t = .ok (atoms, rest)) {rest' : Text}
    (hclose : c = ']' → first = true) (hsigns : Listed false rest signs rest') :
    ∃ sign : Sign, atoms = sign.atoms ∧ Listed first (c :: t) (sign :: signs) rest' := by
  cases hclass : leadingClass? c t with
  | some found =>
    obtain ⟨name, after⟩ := found
    obtain ⟨u, rfl, rfl, hsplit⟩ := leadingClass?_eq_some_iff.mp hclass
    unfold readMember at h
    rw [hclass] at h
    dsimp only at h
    split at h
    · rename_i atoms' hlookup
      obtain ⟨rfl, rfl⟩ := Prod.mk.inj (Except.ok.inj h)
      obtain ⟨k, rfl, rfl⟩ := NamedClass.exists_of_lookup hlookup
      rw [append_of_splitClass hsplit]
      exact ⟨.named k, rfl, .named k hsigns⟩
    · exact absurd h (by simp)
  | none =>
    by_cases hescape : c = '\\'
    · subst hescape
      unfold readMember at h
      rw [hclass] at h
      cases t with
      | nil =>
        -- Nothing is left to close the expression.
        obtain ⟨-, rfl⟩ := Prod.mk.inj (Except.ok.inj h)
        cases hsigns
      | cons d t =>
        obtain ⟨rfl, rfl⟩ := Prod.mk.inj (Except.ok.inj h)
        exact ⟨.char true d, rfl, .escaped d hsigns⟩
    · rw [readMember_of_plain hclass hescape] at h
      obtain ⟨rfl, rfl⟩ := Prod.mk.inj (Except.ok.inj h)
      exact ⟨.char false c, rfl,
        .plain hescape hclose (leadingClass?_eq_none_iff.mp hclass) hsigns⟩

theorem readMembers_of_readMember (hclose : c = ']' → first = true)
    (h : readMember c t = .ok (atoms, rest)) :
    readMembers first (c :: t) =
      (readMembers false rest).map fun (others, rest) => (atoms ++ others, rest) := by
  -- The bracket, if it is one, stands in first place.
  have hopen : ¬ (c = ']' ∧ first = false) := by
    rintro ⟨hc, hfirst⟩
    exact absurd ((hclose hc).symm.trans hfirst) (by simp)
  rw [readMembers, if_neg hopen]
  split
  · rename_i members' rest' heq
    obtain ⟨rfl, rfl⟩ := Prod.mk.inj (Except.ok.inj (h.symm.trans heq))
    rfl
  · rename_i fault heq
    exact absurd (h.symm.trans heq) (by simp)

/-- The members that are read are the atoms of the signs. -/
theorem readMembers_eq_ok_iff : readMembers first t = .ok (atoms, rest) ↔
    ∃ signs, Listed first t signs rest ∧ atoms = signs.flatMap Sign.atoms := by
  constructor
  · intro h
    fun_induction readMembers first t generalizing atoms with
    | case1 => exact absurd h (by simp)
    | case2 first c t hclose =>
      obtain ⟨rfl, rfl⟩ := hclose
      obtain ⟨rfl, rfl⟩ := Prod.mk.inj (Except.ok.inj h)
      exact ⟨[], .close t, rfl⟩
    | case3 first c t hclose members rest' hmember ih =>
      obtain ⟨⟨others, rest''⟩, hothers, heq⟩ := exceptMap_eq_ok h
      obtain ⟨rfl, rfl⟩ := Prod.mk.inj heq
      obtain ⟨signs, hsigns, rfl⟩ := ih hothers
      have hfirst : c = ']' → first = true := by
        intro hc
        by_contra hfirst
        exact hclose ⟨hc, by simpa using hfirst⟩
      obtain ⟨sign, rfl, hlisted⟩ := exists_sign_of_readMember hmember hfirst hsigns
      exact ⟨sign :: signs, hlisted, List.flatMap_cons.symm⟩
    | case4 => exact absurd h (by simp)
  · rintro ⟨signs, h, rfl⟩
    induction h with
    | close rest => rw [readMembers, if_pos ⟨rfl, rfl⟩, List.flatMap_nil]
    | @named first t rest signs k h ih =>
      have hmember : readMember '[' (':' :: (k.name ++ ':' :: ']' :: t)) = .ok (k.atoms, t) := by
        have hclass : leadingClass? '[' (':' :: (k.name ++ ':' :: ']' :: t)) = some (k.name, t) :=
          splitClass_name k t
        unfold readMember
        rw [hclass]
        dsimp only
        rw [k.lookup_name]
      rw [readMembers_of_readMember (by simp) hmember, ih]
      rfl
    | @escaped first t rest signs c h ih =>
      have hclass : leadingClass? '\\' (c :: t) = none :=
        leadingClass?_eq_none_iff.mpr fun hc => absurd hc (by decide)
      have hmember : readMember '\\' (c :: t) = .ok ([.ofChar c], t) := by
        unfold readMember
        rw [hclass]
        rfl
      rw [readMembers_of_readMember (by simp) hmember, ih]
      rfl
    | @plain first c t rest signs hescape hclose hopen h ih =>
      have hmember := readMember_of_plain (leadingClass?_eq_none_iff.mpr hopen) hescape
      rw [readMembers_of_readMember hclose hmember, ih]
      rfl

theorem map_readMembers_eq_ok_iff {negated : Bool} {item : Item} :
    (readMembers true t).map (fun (atoms, rest) => (Item.bracket negated atoms, rest)) =
      .ok (item, rest) ↔
    ∃ signs, Listed true t signs rest ∧ item = .bracket negated (signs.flatMap Sign.atoms) := by
  constructor
  · intro h
    obtain ⟨⟨atoms, rest'⟩, hatoms, heq⟩ := exceptMap_eq_ok h
    obtain ⟨rfl, rfl⟩ := Prod.mk.inj heq
    obtain ⟨signs, hsigns, rfl⟩ := readMembers_eq_ok_iff.mp hatoms
    exact ⟨signs, hsigns, rfl⟩
  · rintro ⟨signs, hsigns, rfl⟩
    rw [readMembers_eq_ok_iff.mpr ⟨signs, hsigns, rfl⟩]
    rfl

/-- What is read as a bracket expression is one, with the atoms of its signs. -/
theorem readBracket_eq_ok_iff {item : Item} : readBracket t = .ok (item, rest) ↔
    ∃ negated signs, Bracketed t negated signs rest ∧
      item = .bracket negated (signs.flatMap Sign.atoms) := by
  constructor
  · intro h
    unfold readBracket at h
    split at h
    · obtain ⟨signs, hsigns, rfl⟩ := map_readMembers_eq_ok_iff.mp h
      exact ⟨true, signs, .complement (.inl rfl) hsigns, rfl⟩
    · obtain ⟨signs, hsigns, rfl⟩ := map_readMembers_eq_ok_iff.mp h
      exact ⟨true, signs, .complement (.inr rfl) hsigns, rfl⟩
    · rename_i hnot hcaret
      obtain ⟨signs, hsigns, rfl⟩ := map_readMembers_eq_ok_iff.mp h
      refine ⟨false, signs, .plain ?_ ?_ hsigns, rfl⟩
      · intro hhead
        obtain ⟨u, rfl⟩ := List.head?_eq_some_iff.mp hhead
        exact hnot u rfl
      · intro hhead
        obtain ⟨u, rfl⟩ := List.head?_eq_some_iff.mp hhead
        exact hcaret u rfl
  · rintro ⟨negated, signs, h, rfl⟩
    cases h with
    | complement hc hsigns =>
      rcases hc with rfl | rfl
      · exact map_readMembers_eq_ok_iff.mpr ⟨signs, hsigns, rfl⟩
      · exact map_readMembers_eq_ok_iff.mpr ⟨signs, hsigns, rfl⟩
    | plain hnot hcaret hsigns =>
      unfold readBracket
      split
      · exact absurd rfl hnot
      · exact absurd rfl hcaret
      · exact map_readMembers_eq_ok_iff.mpr ⟨signs, hsigns, rfl⟩

end

end EnvScript
