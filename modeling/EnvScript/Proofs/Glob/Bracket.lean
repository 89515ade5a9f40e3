import EnvScript.Proofs.Glob.Sign
import EnvScript.Proofs.Replacement.Active

/-!
# Bracket expressions

What a bracket expression stands for: characters, ranges and classes, as its signs say from left to
right. Without a named class the translation to a regular expression keeps that meaning, and with
named classes it does so wherever no hyphen joins one of them to its neighbour.
-/

namespace EnvScript

inductive Content where
  | single (c : Char)
  | range (low high : Char)
  | named (k : NamedClass)
  deriving DecidableEq, Repr

/-- The characters that belong to a content. -/
def Content.Has (x : Char) : Content → Prop
  | .single c => x = c
  | .range low high => low ≤ x ∧ x ≤ high
  | .named k => k.contains x = true

/-- It is no range with its ends the wrong way round. -/
def Content.Ordered : Content → Prop
  | .range low high => low ≤ high
  | _ => True

/-- What signs stand for. A hyphen between two characters makes a range of them, unless it is
escaped, and what comes next starts afresh. -/
def contents : List Sign → List Content
  | [] => []
  | .char _ low :: .char false '-' :: .char _ high :: rest => .range low high :: contents rest
  | .char _ c :: rest => .single c :: contents rest
  | .named k :: rest => .named k :: contents rest

/-- A hyphen comes first, and is not the last sign. -/
def startsHyphen : List Sign → Bool
  | .char false '-' :: _ :: _ => true
  | _ => false

/-- Somewhere a hyphen between a class and its neighbour is in the place of a range. -/
def joins : List Sign → Bool
  | [] => false
  | .char _ _ :: .char false '-' :: .char _ _ :: rest => joins rest
  | .char _ _ :: rest => startsHyphen rest || joins rest
  | .named k :: rest => k.endsSingle && startsHyphen rest || joins rest

/-! ## Atoms of signs -/

def Content.members : Content → List Member
  | .single c => [.single c]
  | .range low high => [.range low high]
  | .named k => k.members

section

variable {signs : List Sign} {members : List Member}

theorem ne_hyphen_of_startsHyphen (h : startsHyphen signs = false) (b : Atom) (more : List Atom) :
    signs.flatMap Sign.atoms ≠ .bare '-' :: b :: more := by
  intro heq
  cases signs with
  | nil => exact absurd heq (by simp)
  | cons sign signs =>
    rw [List.flatMap_cons] at heq
    cases sign with
    | char escaped c =>
      obtain ⟨hc, hmore⟩ := List.cons.inj heq
      obtain ⟨rfl, rfl⟩ := charAtom_eq_hyphen hc
      cases signs with
      | nil => exact absurd hmore (by simp)
      | cons => exact absurd h (by simp [startsHyphen])
    | named k =>
      have hhead := k.head?_atoms
      have heq : k.atoms ++ signs.flatMap Sign.atoms = .bare '-' :: b :: more := heq
      cases hatoms : k.atoms with
      | nil =>
        rw [hatoms] at hhead
        exact absurd hhead (by simp)
      | cons a atoms =>
        rw [hatoms] at hhead heq
        obtain ⟨rfl, -⟩ := List.cons.inj heq
        exact absurd hhead (by simp)

/-- The atoms of signs make the members of what the signs stand for, if no range is reversed. The
induction follows the signs, as `contents` takes them together. -/
theorem grouped_flatMap_iff (h : joins signs = false) :
    Grouped (signs.flatMap Sign.atoms) members ↔
      (∀ content ∈ contents signs, content.Ordered) ∧
        members = (contents signs).flatMap Content.members := by
  fun_induction contents signs generalizing members with
  | case1 =>
    constructor
    · intro hgrouped
      cases hgrouped
      simp
    · rintro ⟨-, rfl⟩
      exact .nil
  | case2 e low e' high rest ih =>
    have hrest : joins rest = false := by rwa [joins] at h
    show Grouped (charAtom e low :: .bare '-' :: charAtom e' high :: rest.flatMap Sign.atoms)
      members ↔ _
    rw [grouped_range_iff]
    simp [ih hrest, Content.members, Content.Ordered, and_assoc]
  | case3 e c rest hrange ih =>
    rw [joins, Bool.or_eq_false_iff] at h
    · -- A hyphen comes next only if it is the last sign, and then it makes no range either.
      obtain ⟨hhyphen, hrest⟩ := h
      show Grouped (charAtom e c :: rest.flatMap Sign.atoms) members ↔ _
      rw [grouped_single_iff (ne_hyphen_of_startsHyphen hhyphen)]
      simp [ih hrest, Content.members, Content.Ordered]
    · exact hrange
  | case4 k rest ih =>
    rw [joins, Bool.or_eq_false_iff, Bool.and_eq_false_imp] at h
    obtain ⟨hhyphen, hrest⟩ := h
    show Grouped (k.atoms ++ rest.flatMap Sign.atoms) members ↔ _
    -- Behind a class that ends in a range a hyphen begins a member of its own.
    rw [k.grouped_atoms.append_iff k.getLast?_atoms fun c hc =>
      ne_hyphen_of_startsHyphen (hhyphen (NamedClass.endsSingle_of_getLast? hc))]
    simp [ih hrest, Content.members, Content.Ordered]

end

/-! ## The characters of a bracket expression -/

theorem Content.any_members_iff (content : Content) (x : Char) :
    content.members.any (·.contains x) = true ↔ content.Has x := by
  cases content with
  | single c => simp [members, Member.contains, Has]
  | range low high => simp [members, Member.contains, Has]
  | named k => rw [members, k.any_members, Has]

theorem any_flatMap_members_iff (all : List Content) (x : Char) :
    (all.flatMap Content.members).any (·.contains x) = true ↔ ∃ content ∈ all, content.Has x := by
  rw [List.any_flatMap, List.any_eq_true]
  simp only [Content.any_members_iff]

section

variable {limit : Int} {t rest : Text} {negated : Bool} {signs : List Sign} {steps : Steps}

theorem readItems_bracket {item : Item} (h : readBracket t = .ok (item, rest)) :
    readItems ('[' :: t) = (readItems rest).map (item :: ·) := by
  rw [readItems]
  split
  · rename_i item' rest' heq
    obtain ⟨rfl, rfl⟩ := Prod.mk.inj (Except.ok.inj (h.symm.trans heq))
    rfl
  · rename_i e heq
    exact absurd (h.symm.trans heq) (by simp)

/-- The step of a bracket expression takes the characters that it stands for, or else all others. -/
theorem accepts_of_grouped (hjoins : joins signs = false) {members : List Member}
    (h : Grouped (signs.flatMap Sign.atoms) members) (x : Char) :
    (Step.oneOf negated members).accepts x = true ↔
      ((∃ content ∈ contents signs, content.Has x) ↔ negated = false) := by
  obtain ⟨-, rfl⟩ := (grouped_flatMap_iff hjoins).mp h
  rw [← any_flatMap_members_iff]
  show (((contents signs).flatMap Content.members).any (·.contains x) != negated) = true ↔ _
  cases ((contents signs).flatMap Content.members).any (·.contains x) <;> cases negated <;> simp

/-- A pattern that begins with a bracket expression compiles to a step for it and more. -/
theorem exists_of_compilePattern_bracket (h : compilePattern limit ('[' :: t) = .ok steps)
    (hbracket : Bracketed t negated signs rest) :
    ∃ members more, steps = .oneOf negated members :: more ∧
      Grouped (signs.flatMap Sign.atoms) members ∧ (rest = [] → more = []) := by
  obtain ⟨glob, hglob, hsteps⟩ := compilePattern_eq_ok h
  rw [readItems_bracket (readBracket_eq_ok_iff.mpr ⟨negated, signs, hbracket, rfl⟩)] at hglob
  obtain ⟨items, hitems, rfl⟩ := exceptMap_eq_ok hglob
  cases hsteps with
  | cons hstep hmore =>
    cases hstep with
    | bracket _ hmembers =>
      refine ⟨_, _, rfl, grouped_of_membersOf hmembers, ?_⟩
      rintro rfl
      rw [readItems] at hitems
      obtain rfl := Except.ok.inj hitems
      cases hmore
      rfl

theorem joins_eq_false (h : ∀ k, .named k ∉ signs) : joins signs = false := by
  fun_induction joins signs with
  | case1 => rfl
  | case2 e low e' high rest ih => exact ih fun k hk => h k (by simp [hk])
  | case3 e c rest hrange ih =>
    have hhyphen : startsHyphen rest = false := by
      unfold startsHyphen
      split
      · rename_i b more
        cases b with
        | char e' high => exact absurd rfl (hrange e' high more)
        | named k => exact absurd (by simp) (h k)
      · rfl
    rw [hhyphen, ih fun k hk => h k (by simp [hk])]
    rfl
  | case4 k rest ih => exact absurd List.mem_cons_self (h k)

theorem Listed.not_named {first : Bool} (h : Listed first t signs rest)
    (hclass : ¬ "[:".toList <:+: t) (k : NamedClass) : .named k ∉ signs := by
  induction h with
  | close => simp
  -- The name of a class would begin with the two characters that are not in the text.
  | named k' _ _ => exact absurd ⟨[], _, rfl⟩ hclass
  | escaped c _ ih =>
    have hrest := ih fun h => hclass (h.trans ⟨['\\', c], [], by simp⟩)
    simpa using hrest
  | @plain _ c t _ _ _ _ _ _ ih =>
    have hrest := ih fun h => hclass (h.trans ⟨[c], [], by simp⟩)
    simpa using hrest

theorem Bracketed.joins_eq_false (h : Bracketed t negated signs rest)
    (hclass : ¬ "[:".toList <:+: t) : joins signs = false := by
  cases h with
  | @complement c t _ _ _ h =>
    exact EnvScript.joins_eq_false (h.not_named fun h => hclass (h.trans ⟨[c], [], by simp⟩))
  | plain _ _ h => exact EnvScript.joins_eq_false (h.not_named hclass)

/-- A pattern that is one bracket expression, and no longer than the limit, compiles if no range in
it is reversed. -/
theorem compilePattern_of_grouped {members : List Member} (hbracket : Bracketed t negated signs [])
    (hlimit : ∀ glob, Glob.ofPattern ('[' :: t) = .ok glob → (glob.regex.length : Int) ≤ limit)
    (h : Grouped (signs.flatMap Sign.atoms) members) :
    compilePattern limit ('[' :: t) = .ok [.oneOf negated members] := by
  have hitems : Glob.ofPattern ('[' :: t) =
      .ok [.bracket negated (signs.flatMap Sign.atoms)] := by
    rw [Glob.ofPattern, readItems_bracket (readBracket_eq_ok_iff.mpr ⟨_, _, hbracket, rfl⟩),
      readItems]
    rfl
  have hcompiles : (Item.bracket negated (signs.flatMap Sign.atoms)).CompilesTo
      (.oneOf negated members) := .bracket negated (h.membersOf [] 0)
  rw [compilePattern, hitems]
  show (if limit < (Glob.regex [_] : Text).length then _ else _) = _
  rw [if_neg (Int.not_lt.mpr (hlimit _ hitems)), stepsOf_of_forall₂ (.cons hcompiles .nil)]
  rfl

/-- One step of this kind takes one character. -/
theorem matchLength_oneOf_iff {members : List Member} {u : Text} {n : Nat} :
    matchLength [.oneOf negated members] u = some n ↔
      n = 1 ∧ ∃ x v, u = x :: v ∧ (Step.oneOf negated members).accepts x = true := by
  cases u with
  | nil => simp [matchLength]
  | cons x v =>
    rw [matchLength_cons_cons _ _ _ _ (by simp), matchLength]
    by_cases hx : (Step.oneOf negated members).accepts x = true
    · rw [if_pos hx, Option.map_some, Option.some_inj]
      constructor
      · rintro rfl
        exact ⟨rfl, x, v, rfl, hx⟩
      · rintro ⟨rfl, -⟩
        rfl
    · simp [hx]

end

/-! ## Without named classes -/

/-- Without a named class, a pattern that is one bracket expression compiles if and only if no range
in it is reversed, and then it matches just one character: one of those that the expression stands
for or, with the complement, one of all others. -/
theorem compilePattern_bracket {limit : Int} {t : Text} (hclass : ¬ "[:".toList <:+: t) :
    ((∃ item, readBracket t = .ok (item, [])) ↔ ∃ negated signs, Bracketed t negated signs []) ∧
    ∀ negated signs, Bracketed t negated signs [] →
      (∀ glob, Glob.ofPattern ('[' :: t) = .ok glob → (glob.regex.length : Int) ≤ limit) →
      ((∃ steps, compilePattern limit ('[' :: t) = .ok steps) ↔
        ∀ content ∈ contents signs, content.Ordered) ∧
      ∀ steps, compilePattern limit ('[' :: t) = .ok steps → ∀ u n,
        matchLength steps u = some n ↔ n = 1 ∧ ∃ x v, u = x :: v ∧
          ((∃ content ∈ contents signs, content.Has x) ↔ negated = false) := by
  refine ⟨?_, fun negated signs hbracket hlimit => ?_⟩
  · constructor
    · rintro ⟨item, h⟩
      obtain ⟨negated, signs, hbracket, -⟩ := readBracket_eq_ok_iff.mp h
      exact ⟨negated, signs, hbracket⟩
    · rintro ⟨negated, signs, hbracket⟩
      exact ⟨_, readBracket_eq_ok_iff.mpr ⟨negated, signs, hbracket, rfl⟩⟩
  · have hjoins := hbracket.joins_eq_false hclass
    refine ⟨?_, fun steps hsteps u n => ?_⟩
    · constructor
      · rintro ⟨steps, hsteps⟩
        obtain ⟨members, -, -, hgrouped, -⟩ := exists_of_compilePattern_bracket hsteps hbracket
        exact ((grouped_flatMap_iff hjoins).mp hgrouped).1
      · intro hordered
        exact ⟨_, compilePattern_of_grouped hbracket hlimit
          ((grouped_flatMap_iff hjoins).mpr ⟨hordered, rfl⟩)⟩
    · obtain ⟨members, more, rfl, hgrouped, hnil⟩ :=
        exists_of_compilePattern_bracket hsteps hbracket
      obtain rfl := hnil rfl
      rw [matchLength_oneOf_iff]
      simp only [accepts_of_grouped hjoins hgrouped]

/-- A bracket in first place, an escaped hyphen, a range that a hyphen follows, and a hyphen at the
end. -/
theorem bracket_of_hyphens :
    (∃ steps, compilePattern 10000 ('[' :: "!]\\-a-c-]".toList) = .ok steps ∧
      ∀ u n, matchLength steps u = some n ↔ n = 1 ∧ ∃ x v, u = x :: v ∧
        ((∃ content ∈ [Content.single ']', .single '-', .range 'a' 'c', .single '-'],
          content.Has x) ↔ true = false)) := by
  have hbracket : Bracketed "!]\\-a-c-]".toList true [.char false ']', .char true '-',
      .char false 'a', .char false '-', .char false 'c', .char false '-'] [] :=
    .complement (.inl rfl) <| .plain (by decide) (fun _ => rfl) (fun h => absurd h (by decide)) <|
      .escaped '-' <| .char (by decide) <| .char (by decide) <| .char (by decide) <|
      .char (by decide) <| .close []
  have hlimit : ∀ glob, Glob.ofPattern ('[' :: "!]\\-a-c-]".toList) = .ok glob →
      (glob.regex.length : Int) ≤ 10000 := by
    have hglob : Glob.ofPattern ('[' :: "!]\\-a-c-]".toList) = .ok [.bracket true
        [.escaped ']', .escaped '-', .bare 'a', .bare '-', .bare 'c', .bare '-']] := by
      decide +kernel
    intro glob h
    rw [← Except.ok.inj (hglob.symm.trans h)]
    decide
  have hclass : ¬ "[:".toList <:+: "!]\\-a-c-]".toList := fun h =>
    absurd (h.subset (show ':' ∈ "[:".toList by decide)) (by decide)
  obtain ⟨haccepted, hmatches⟩ := (compilePattern_bracket hclass).2 _ _ hbracket hlimit
  obtain ⟨steps, hsteps⟩ := haccepted.mpr (by
    show ∀ content ∈ [Content.single ']', .single '-', .range 'a' 'c', .single '-'],
      content.Ordered
    simp [Content.Ordered])
  exact ⟨steps, hsteps, hmatches steps hsteps⟩

/-! ## With named classes -/

/-- Where no hyphen joins a class to its neighbour, a bracket expression that is accepted takes the
characters of all that it names: of every class, of every range between two characters, and every
other character itself. A hyphen directly behind a class is then one of these. -/
theorem compilePattern_named_classes {limit : Int} {t : Text} {steps : Steps}
    (h : compilePattern limit ('[' :: t) = .ok steps) :
    (∃ negated signs rest, Bracketed t negated signs rest) ∧
    ∀ negated signs rest, Bracketed t negated signs rest → joins signs = false →
      ∃ members more, steps = .oneOf negated members :: more ∧ (rest = [] → more = []) ∧
        ∀ x, members.any (·.contains x) = true ↔ ∃ content ∈ contents signs, content.Has x := by
  constructor
  · obtain ⟨glob, hglob, -⟩ := compilePattern_eq_ok h
    obtain ⟨item, rest, hitem⟩ : ∃ item rest, readBracket t = .ok (item, rest) := by
      rw [readItems] at hglob
      split at hglob
      · rename_i item rest hitem
        exact ⟨item, rest, hitem⟩
      · exact absurd hglob (by simp)
    obtain ⟨negated, signs, hbracket, -⟩ := readBracket_eq_ok_iff.mp hitem
    exact ⟨negated, signs, rest, hbracket⟩
  · intro negated signs rest hbracket hjoins
    obtain ⟨members, more, rfl, hgrouped, hnil⟩ := exists_of_compilePattern_bracket h hbracket
    refine ⟨members, more, rfl, hnil, fun x => ?_⟩
    obtain ⟨-, rfl⟩ := (grouped_flatMap_iff hjoins).mp hgrouped
    exact any_flatMap_members_iff _ x

/-- A hyphen between a class that ends in a range and a character, and one at the end. -/
theorem classes_and_hyphens :
    ∃ members, compilePattern 10000 ('[' :: "[:digit:]-a[:space:]-]".toList) =
        .ok [.oneOf false members] ∧
      ∀ x, members.any (·.contains x) = true ↔
        ∃ content ∈ [Content.named .digit, .single '-', .single 'a', .named .space, .single '-'],
          content.Has x := by
  have hbracket : Bracketed "[:digit:]-a[:space:]-]".toList false
      [.named .digit, .char false '-', .char false 'a', .named .space, .char false '-'] [] :=
    .plain (by decide) (by decide) <| .named .digit <| .char (by decide) <| .char (by decide) <|
      .named .space <| .char (by decide) <| .close []
  have hsteps : compilePattern 10000 ('[' :: "[:digit:]-a[:space:]-]".toList) =
      .ok [.oneOf false (NamedClass.digit.members ++ [.single '-', .single 'a'] ++
        NamedClass.space.members ++ [.single '-'])] := by decide +kernel
  obtain ⟨members, more, heq, hnil, hmembers⟩ :=
    (compilePattern_named_classes hsteps).2 _ _ _ hbracket (by decide)
  rw [hnil rfl] at heq
  exact ⟨members, hsteps.trans (congrArg Except.ok heq), hmembers⟩

/-- Between a class that ends in a single character and another character a hyphen makes a range,
from the last character of the class on. -/
theorem hyphen_behind_space :
    compilePattern 10000 ('[' :: "[:space:]-a]".toList) = .ok [.oneOf false
        [.single ' ', .single '\t', .single '\n', .single '\r', .single '\x0c',
          .range '\x0b' 'a']] ∧
      Bracketed "[:space:]-a]".toList false
        [.named .space, .char false '-', .char false 'a'] [] ∧
      contents [.named .space, .char false '-', .char false 'a'] =
        [.named .space, .single '-', .single 'a'] ∧
      (Member.range '\x0b' 'a').contains '0' = true ∧
      ¬ ∃ content ∈ [Content.named .space, .single '-', .single 'a'], content.Has '0' := by
  refine ⟨by decide +kernel, ?_, rfl, by decide, ?_⟩
  · exact .plain (by decide) (by decide) <| .named .space <| .char (by decide) <|
      .char (by decide) <| .close []
  · simp [Content.Has, NamedClass.contains]

end EnvScript
