import EnvScript.Glob.Matcher
import EnvScript.Proofs.Success
import Mathlib.Data.List.Forall2

/-!
# Reading regular expressions

The rules by which a regular expression is read, as far as patterns translate to it: `.`, `.*`,
escaped and plain characters, and classes. The steps of a pattern are made from its items and never
from the text of its regular expression; `Regex.read_regex` says that reading that text gives the
same steps.
-/

namespace EnvScript

namespace Regex

/-! ## The rules -/

def hexValue? (c : Char) : Option Nat :=
  if '0' ≤ c ∧ c ≤ '9' then some (c.toNat - '0'.toNat)
  else if 'a' ≤ c ∧ c ≤ 'f' then some (c.toNat - 'a'.toNat + 10)
  else if 'A' ≤ c ∧ c ≤ 'F' then some (c.toNat - 'A'.toNat + 10)
  else none

/-- The letters that stand for control characters behind a backslash in a class. -/
def controlLetters : List (Char × Char) :=
  [('a', '\x07'), ('b', '\x08'), ('f', '\x0c'), ('n', '\n'), ('r', '\r'), ('t', '\t'),
    ('v', '\x0b')]

/-- Reads on after a backslash in a class. Other letters and digits than these have no meaning that
a translated pattern uses. -/
def readEscape : Text → Option (Char × Text)
  | 'x' :: a :: b :: t =>
    match hexValue? a, hexValue? b with
    | some m, some n => some (Char.ofNat (16 * m + n), t)
    | _, _ => none
  | c :: t =>
    match controlLetters.lookup c with
    | some d => some (d, t)
    | none => if c.isAlphanum then none else some (c, t)
  | [] => none

/-- The character that is written at the start of a text inside of a class. -/
def readChar : Text → Option (Char × Text)
  | '\\' :: t => readEscape t
  | c :: t => some (c, t)
  | [] => none

theorem length_of_readEscape {t rest : Text} {c : Char} (h : readEscape t = some (c, rest)) :
    rest.length < t.length := by
  unfold readEscape at h
  split at h
  · split at h
    · rw [← (Prod.mk.inj (Option.some.inj h)).2]
      simp only [List.length_cons]
      omega
    · exact absurd h (by simp)
  · split at h
    · rw [← (Prod.mk.inj (Option.some.inj h)).2]
      simp
    · split at h
      · exact absurd h (by simp)
      · rw [← (Prod.mk.inj (Option.some.inj h)).2]
        simp
  · exact absurd h (by simp)

theorem length_of_readChar {t rest : Text} {c : Char} (h : readChar t = some (c, rest)) :
    rest.length < t.length := by
  unfold readChar at h
  split at h
  · have := length_of_readEscape h
    rw [List.length_cons]
    omega
  · rw [← (Prod.mk.inj (Option.some.inj h)).2]
    simp
  · exact absurd h (by simp)

/-- Reads the members of a class up to its `]`, which is a member where it comes first. A `-` behind
a member makes a range, unless the class ends with it, and a range must not be reversed. -/
def readMembers (first : Bool) (t : Text) : Option (List Member × Text) :=
  if t.head? = some ']' ∧ first = false then some ([], t.tail)
  else
    match _h : readChar t with
    | none => none
    | some (low, u) =>
      if u.head? = some '-' then
        if u.tail.head? = some ']' then some ([.single low, .single '-'], u.tail.tail)
        else
          match _h' : readChar u.tail with
          | none => none
          | some (high, v) =>
            if high < low then none
            else (readMembers false v).map fun (members, rest) => (.range low high :: members, rest)
      else (readMembers false u).map fun (members, rest) => (.single low :: members, rest)
termination_by t.length
decreasing_by
  · have h1 := length_of_readChar _h
    have h2 := length_of_readChar _h'
    rw [List.length_tail] at h2
    omega
  · exact length_of_readChar _h

/-- Reads a class after its `[`. A `^` in front takes the complement. -/
def readClass : Text → Option (Bool × List Member × Text)
  | '^' :: t => (readMembers true t).map fun (members, rest) => (true, members, rest)
  | t => (readMembers true t).map fun (members, rest) => (false, members, rest)

/-- The characters that mean something outside of a class. -/
def isSpecial (c : Char) : Bool :=
  ['.', '\\', '[', '\x7b', '(', ')', '*', '+', '?', '^', '$', '|'].contains c

/-- Reads a character that stands for itself outside of a class. -/
def readLiteral : Text → Option (Char × Text)
  | '\\' :: c :: t => if c.isAlphanum then none else some (c, t)
  | c :: t => if isSpecial c then none else some (c, t)
  | [] => none

theorem length_of_readMembers {first : Bool} {t rest : Text} {members : List Member}
    (h : readMembers first t = some (members, rest)) : rest.length < t.length := by
  fun_induction readMembers first t generalizing members with
  | case1 first t ht =>
    obtain ⟨u, rfl⟩ := List.head?_eq_some_iff.mp ht.1
    rw [← (Prod.mk.inj (Option.some.inj h)).2]
    simp
  | case2 => exact absurd h (by simp)
  | case3 first t _ low u hlow =>
    have := length_of_readChar hlow
    rw [← (Prod.mk.inj (Option.some.inj h)).2, List.length_tail, List.length_tail]
    omega
  | case4 => exact absurd h (by simp)
  | case5 => exact absurd h (by simp)
  | case6 first t _ low u hlow _ _ high v hhigh _ ih =>
    obtain ⟨⟨ms, r⟩, hr, he⟩ := Option.map_eq_some_iff.mp h
    rw [(Prod.mk.inj he).2] at hr
    have hle := ih hr
    have h1 := length_of_readChar hlow
    have h2 := length_of_readChar hhigh
    rw [List.length_tail] at h2
    omega
  | case7 first t _ low u hlow _ ih =>
    obtain ⟨⟨ms, r⟩, hr, he⟩ := Option.map_eq_some_iff.mp h
    rw [(Prod.mk.inj he).2] at hr
    have hle := ih hr
    have h1 := length_of_readChar hlow
    omega

theorem length_of_readClass {t rest : Text} {negated : Bool} {members : List Member}
    (h : readClass t = some (negated, members, rest)) : rest.length < t.length := by
  unfold readClass at h
  split at h
  · obtain ⟨⟨ms, r⟩, hr, he⟩ := Option.map_eq_some_iff.mp h
    have := length_of_readMembers hr
    simp only [Prod.mk.injEq] at he
    rw [List.length_cons, ← he.2.2]
    omega
  · obtain ⟨⟨ms, r⟩, hr, he⟩ := Option.map_eq_some_iff.mp h
    have := length_of_readMembers hr
    simp only [Prod.mk.injEq] at he
    rw [← he.2.2]
    exact this

theorem length_of_readLiteral {t rest : Text} {c : Char} (h : readLiteral t = some (c, rest)) :
    rest.length < t.length := by
  unfold readLiteral at h
  split at h
  · split at h
    · exact absurd h (by simp)
    · rw [← (Prod.mk.inj (Option.some.inj h)).2]
      simp only [List.length_cons]
      omega
  · split at h
    · exact absurd h (by simp)
    · rw [← (Prod.mk.inj (Option.some.inj h)).2]
      simp
  · exact absurd h (by simp)

/-- Reads a regular expression, if it keeps to what patterns translate to. -/
def read (t : Text) : Option Steps :=
  match t with
  | [] => some []
  | '.' :: t =>
    if t.head? = some '*' then (read t.tail).map (.run :: ·) else (read t).map (.any :: ·)
  | '[' :: t =>
    match _h : readClass t with
    | none => none
    | some (negated, members, rest) => (read rest).map (.oneOf negated members :: ·)
  | c :: t =>
    match _h : readLiteral (c :: t) with
    | none => none
    | some (d, rest) => (read rest).map (.exactly d :: ·)
termination_by t.length
decreasing_by
  · rw [List.length_tail, List.length_cons]
    omega
  · simp
  · have := length_of_readClass _h
    rw [List.length_cons]
    omega
  · exact length_of_readLiteral _h

end Regex

/-! ## Written characters -/

namespace Atom

/-- The atom is read as its character. -/
def isLegible : Atom → Bool
  | .bare c => c != '\\' && c != ']'
  | .escaped c => !c.isAlphanum
  | .control letter c => Regex.controlLetters.lookup letter == some c
  | .code c => c.toNat < 256

theorem hexValue?_digitChar (n : Nat) (hn : n < 16) :
    Regex.hexValue? (Nat.digitChar n) = some n := by
  have h : ∀ m : Fin 16, Regex.hexValue? (Nat.digitChar m) = some m.val := by decide
  exact h ⟨n, hn⟩

theorem readEscape_cons (c : Char) (t : Text) (hc : c ≠ 'x') :
    Regex.readEscape (c :: t) =
      match Regex.controlLetters.lookup c with
      | some d => some (d, t)
      | none => if c.isAlphanum then none else some (c, t) := by
  unfold Regex.readEscape
  split
  · rename_i heq
    exact absurd (List.cons.inj heq).1 hc
  · rename_i heq
    obtain ⟨rfl, rfl⟩ := List.cons.inj heq
    rfl
  · rename_i heq
    exact absurd heq (by simp)

theorem lookup_controlLetters_of_not_isAlphanum (c : Char) (hc : c.isAlphanum = false) :
    Regex.controlLetters.lookup c = none := by
  rw [List.lookup_eq_none_iff]
  intro p hp
  have hletters : ∀ p ∈ Regex.controlLetters, p.1.isAlphanum = true := by decide
  have hne : c ≠ p.1 := by
    rintro rfl
    exact Bool.false_ne_true (hc ▸ hletters p hp)
  exact bne_iff_ne.mpr hne

theorem toNat_ofNat_hex (c : Char) : Char.ofNat (16 * (c.toNat / 16) + c.toNat % 16) = c := by
  rw [Nat.div_add_mod, Char.ofNat_toNat]

/-- Reading a legible atom gives its character back. -/
theorem readChar_text (a : Atom) (t : Text) (ha : a.isLegible = true) :
    Regex.readChar (a.text ++ t) = some (a.char, t) := by
  cases a with
  | bare c =>
    simp only [isLegible, Bool.and_eq_true, bne_iff_ne] at ha
    show Regex.readChar (c :: t) = some (c, t)
    unfold Regex.readChar
    split
    · rename_i heq
      exact absurd (List.cons.inj heq).1 ha.1
    · rename_i heq
      obtain ⟨rfl, rfl⟩ := List.cons.inj heq
      rfl
    · rename_i heq
      exact absurd heq (by simp)
  | escaped c =>
    have hc : c.isAlphanum = false := by simpa [isLegible] using ha
    have hx : c ≠ 'x' := by
      rintro rfl
      exact absurd hc (by decide)
    show Regex.readEscape (c :: t) = some (c, t)
    rw [readEscape_cons c t hx, lookup_controlLetters_of_not_isAlphanum c hc]
    simp only [hc, Bool.false_eq_true, if_false]
  | control letter c =>
    have hlookup : Regex.controlLetters.lookup letter = some c := by simpa [isLegible] using ha
    have hx : letter ≠ 'x' := by
      rintro rfl
      exact Option.some_ne_none c hlookup.symm
    show Regex.readEscape (letter :: t) = some (c, t)
    rw [readEscape_cons letter t hx, hlookup]
  | code c =>
    have hc : c.toNat < 256 := by simpa [isLegible] using ha
    show Regex.readEscape
      ('x' :: Nat.digitChar (c.toNat / 16) :: Nat.digitChar (c.toNat % 16) :: t) = some (c, t)
    simp only [Regex.readEscape, hexValue?_digitChar (c.toNat / 16) (by omega),
      hexValue?_digitChar (c.toNat % 16) (Nat.mod_lt _ (by decide))]
    rw [toNat_ofNat_hex]

/-- Only a bare atom begins with a character other than a backslash. -/
theorem eq_bare_of_head? (a : Atom) (t : Text) (x : Char) (hx : x ≠ '\\')
    (h : (a.text ++ t).head? = some x) : a = .bare x := by
  cases a with
  | bare c => exact congrArg Atom.bare (Option.some.inj h)
  | escaped c => exact absurd (Option.some.inj h).symm hx
  | control letter c => exact absurd (Option.some.inj h).symm hx
  | code c => exact absurd (Option.some.inj h).symm hx

theorem head?_text_ne_bracket (a : Atom) (t : Text) (ha : a.isLegible = true) :
    (a.text ++ t).head? ≠ some ']' := by
  intro h
  rw [eq_bare_of_head? a t ']' (by decide) h] at ha
  exact absurd ha (by decide)

end Atom

/-! ## Classes -/

namespace Regex

variable {t u : Text} {low high : Char}

/-- A member that no hyphen follows. -/
theorem readMembers_single (first : Bool) (ht : t.head? ≠ some ']')
    (hlow : readChar t = some (low, u)) (hu : u.head? ≠ some '-') :
    readMembers first t =
      (readMembers false u).map fun (members, rest) => (.single low :: members, rest) := by
  rw [readMembers, if_neg (fun h => ht h.1)]
  split
  · rename_i heq
    rw [hlow] at heq
    exact absurd heq (by simp)
  · rename_i heq
    rw [hlow] at heq
    obtain ⟨rfl, rfl⟩ := Prod.mk.inj (Option.some.inj heq)
    rw [if_neg hu]

/-- A member that a hyphen follows, with which the class ends. -/
theorem readMembers_hyphen (first : Bool) (rest : Text) (ht : t.head? ≠ some ']')
    (hlow : readChar t = some (low, '-' :: ']' :: rest)) :
    readMembers first t = some ([.single low, .single '-'], rest) := by
  rw [readMembers, if_neg (fun h => ht h.1)]
  split
  · rename_i heq
    rw [hlow] at heq
    exact absurd heq (by simp)
  · rename_i heq
    rw [hlow] at heq
    obtain ⟨rfl, rfl⟩ := Prod.mk.inj (Option.some.inj heq)
    rfl

theorem readMembers_range (first : Bool) (v : Text) (ht : t.head? ≠ some ']')
    (hlow : readChar t = some (low, '-' :: u)) (hu : u.head? ≠ some ']')
    (hhigh : readChar u = some (high, v)) (hle : ¬ high < low) :
    readMembers first t =
      (readMembers false v).map fun (members, rest) => (.range low high :: members, rest) := by
  rw [readMembers, if_neg (fun h => ht h.1)]
  split
  · rename_i heq
    rw [hlow] at heq
    exact absurd heq (by simp)
  · rename_i heq
    rw [hlow] at heq
    obtain ⟨rfl, rfl⟩ := Prod.mk.inj (Option.some.inj heq)
    rw [if_pos (show ('-' :: u).head? = some '-' from rfl),
      if_neg (show ('-' :: u).tail.head? ≠ some ']' from hu)]
    split
    · rename_i heq'
      rw [List.tail_cons, hhigh] at heq'
      exact absurd heq' (by simp)
    · rename_i heq'
      rw [List.tail_cons, hhigh] at heq'
      obtain ⟨rfl, rfl⟩ := Prod.mk.inj (Option.some.inj heq')
      rw [if_neg hle]

end Regex

/-- The written members of a class are read as the members that they make. -/
theorem readMembers_flatMap_text (regex : Text) (index : Nat) (atoms : List Atom)
    (members : List Member) (h : membersOf regex index atoms = .ok members)
    (hlegible : ∀ a ∈ atoms, a.isLegible = true) (first : Bool) (hfirst : first = true → atoms ≠ [])
    (rest : Text) :
    Regex.readMembers first (atoms.flatMap Atom.text ++ ']' :: rest) = some (members, rest) := by
  fun_induction membersOf regex index atoms generalizing first members with
  | case1 =>
    have hf : first = false := by
      cases first with
      | false => rfl
      | true => exact absurd rfl (hfirst rfl)
    rw [Regex.readMembers, if_pos ⟨rfl, hf⟩, ← Except.ok.inj h]
    rfl
  | case2 => exact absurd h (by simp)
  | case3 index a b more stop hlt ih =>
    obtain ⟨others, hothers, rfl⟩ := exceptMap_eq_ok h
    have ha := hlegible a (by simp)
    have hb := hlegible b (by simp)
    have hmore := ih others hothers (fun x hx => hlegible x (by simp [hx])) false (by simp)
    simp only [List.flatMap_cons, List.append_assoc]
    show Regex.readMembers first
      (a.text ++ '-' :: (b.text ++ (more.flatMap Atom.text ++ ']' :: rest))) = _
    rw [Regex.readMembers_range first _ (Atom.head?_text_ne_bracket a _ ha)
      (Atom.readChar_text a _ ha) (Atom.head?_text_ne_bracket b _ hb) (Atom.readChar_text b _ hb)
      hlt, hmore]
    rfl
  | case4 index a more hmore ih =>
    obtain ⟨others, hothers, rfl⟩ := exceptMap_eq_ok h
    have ha := hlegible a (by simp)
    simp only [List.flatMap_cons, List.append_assoc]
    -- A single member, so a hyphen behind it can only be the last of the class.
    by_cases hlast : more = [.bare '-']
    · -- the hyphen is the last member, and no range
      subst hlast
      rw [← Except.ok.inj hothers]
      exact Regex.readMembers_hyphen first rest (Atom.head?_text_ne_bracket a _ ha)
        (Atom.readChar_text a _ ha)
    · have hhead : (more.flatMap Atom.text ++ ']' :: rest).head? ≠ some '-' := by
        cases more with
        | nil => exact fun h => absurd (Option.some.inj h) (by decide)
        | cons x more =>
          intro hx
          rw [List.flatMap_cons, List.append_assoc] at hx
          have hbare := Atom.eq_bare_of_head? x _ '-' (by decide) hx
          subst hbare
          cases more with
          | nil => exact hlast rfl
          | cons y more => exact hmore y more rfl
      rw [Regex.readMembers_single first (Atom.head?_text_ne_bracket a _ ha)
        (Atom.readChar_text a _ ha) hhead,
        ih others hothers (fun x hx => hlegible x (by simp [hx])) false (by simp)]
      rfl

/-! ## Patterns -/

/-- A character that is escaped exactly where it is among `active`. -/
theorem isLegible_escaped_or_bare (active : Text) (c : Char)
    (hactive : active.all (!·.isAlphanum) = true)
    (hsigns : ['\\', ']', '^'].all active.contains = true) :
    (if active.contains c = true then Atom.escaped c else .bare c).isLegible = true ∧
      (if active.contains c = true then Atom.escaped c else .bare c) ≠ .bare '^' := by
  split
  next hc =>
    have hfalse : c.isAlphanum = false := by
      simpa using List.all_eq_true.mp hactive c (List.contains_iff_mem.mp hc)
    exact ⟨by simp [Atom.isLegible, hfalse], by simp⟩
  next hc =>
    -- A bare character is none of the signs that mean something in a class.
    have hne : ∀ d ∈ ['\\', ']', '^'], c ≠ d := by
      rintro d hd rfl
      exact hc (List.all_eq_true.mp hsigns c hd)
    refine ⟨?_, fun h => hne '^' (by simp) (Atom.bare.inj h)⟩
    simp [Atom.isLegible, hne '\\' (by simp), hne ']' (by simp)]

theorem isLegible_ofChar (c : Char) :
    (Atom.ofChar c).isLegible = true ∧ Atom.ofChar c ≠ .bare '^' :=
  isLegible_escaped_or_bare _ c (by decide) (by decide)

theorem isLegible_memberAtom (c : Char) :
    (memberAtom c).isLegible = true ∧ memberAtom c ≠ .bare '^' :=
  isLegible_escaped_or_bare _ c (by decide) (by decide)

/-- Atoms that can be read as members of a class, and can begin one. -/
def LegibleMembers (atoms : List Atom) : Prop :=
  (∀ a ∈ atoms, a.isLegible = true) ∧ ∃ a more, atoms = a :: more ∧ a ≠ .bare '^'

theorem legibleMembers_singleton (a : Atom) (h : a.isLegible = true ∧ a ≠ .bare '^') :
    LegibleMembers [a] :=
  ⟨fun _ hb => List.mem_singleton.mp hb ▸ h.1, a, [], rfl, h.2⟩

theorem LegibleMembers.append {atoms others : List Atom} (h : LegibleMembers atoms)
    (hothers : ∀ a ∈ others, a.isLegible = true) : LegibleMembers (atoms ++ others) := by
  obtain ⟨hall, a, more, rfl, ha⟩ := h
  refine ⟨fun b hb => ?_, a, more ++ others, rfl, ha⟩
  exact (List.mem_append.mp hb).elim (hall b) (hothers b)

theorem legibleMembers_namedClasses (name : Text) (atoms : List Atom)
    (h : namedClasses.lookup name = some atoms) : LegibleMembers atoms := by
  have hall : ∀ e ∈ namedClasses, (∀ a ∈ e.2, a.isLegible = true) ∧
      e.2.head?.any (· != .bare '^') = true := by decide
  obtain ⟨hlegible, hhead⟩ := hall (name, atoms) (mem_of_lookup h)
  cases atoms with
  | nil => exact absurd hhead Bool.false_ne_true
  | cons a more => exact ⟨hlegible, a, more, rfl, by simpa using hhead⟩

theorem legibleMembers_readMember {c : Char} {t rest : Text} {atoms : List Atom}
    (h : readMember c t = .ok (atoms, rest)) : LegibleMembers atoms := by
  unfold readMember at h
  split at h
  · split at h
    · rename_i hlookup
      rw [← (Prod.mk.inj (Except.ok.inj h)).1]
      exact legibleMembers_namedClasses _ _ hlookup
    · exact absurd h (by simp)
  · split at h
    · rw [← (Prod.mk.inj (Except.ok.inj h)).1]
      exact legibleMembers_singleton _ (isLegible_ofChar _)
    · rw [← (Prod.mk.inj (Except.ok.inj h)).1]
      exact legibleMembers_singleton _ (isLegible_memberAtom _)

theorem isLegible_readMembers {first : Bool} {t rest : Text} {atoms : List Atom}
    (h : readMembers first t = .ok (atoms, rest)) :
    (∀ a ∈ atoms, a.isLegible = true) ∧ (first = true → LegibleMembers atoms) := by
  fun_induction readMembers first t generalizing atoms with
  | case1 => exact absurd h (by simp)
  | case2 first c t hc =>
    rw [← (Prod.mk.inj (Except.ok.inj h)).1]
    exact ⟨by simp, fun hfirst => absurd (hc.2 ▸ hfirst) (by decide)⟩
  | case3 first c t _ members rest' hmember ih =>
    obtain ⟨⟨others, r⟩, hothers, he⟩ := exceptMap_eq_ok h
    rw [(Prod.mk.inj he).2] at hothers
    have happend := (legibleMembers_readMember hmember).append (ih hothers).1
    rw [← (Prod.mk.inj he).1]
    exact ⟨happend.1, fun _ => happend⟩
  | case4 => exact absurd h (by simp)

theorem legibleMembers_map_readMembers {t rest : Text} {item : Item} {negated : Bool}
    (h : (readMembers true t).map (fun (atoms, rest) => (Item.bracket negated atoms, rest)) =
      .ok (item, rest)) :
    ∃ negated atoms, item = .bracket negated atoms ∧ LegibleMembers atoms := by
  obtain ⟨⟨atoms, r⟩, hatoms, he⟩ := exceptMap_eq_ok h
  exact ⟨negated, atoms, (Prod.mk.inj he).1.symm, (isLegible_readMembers hatoms).2 rfl⟩

/-- The members of every class that is read from a pattern are legible. -/
theorem legibleMembers_readBracket {t rest : Text} {item : Item}
    (h : readBracket t = .ok (item, rest)) :
    ∃ negated atoms, item = .bracket negated atoms ∧ LegibleMembers atoms := by
  unfold readBracket at h
  split at h
  · exact legibleMembers_map_readMembers h
  · exact legibleMembers_map_readMembers h
  · exact legibleMembers_map_readMembers h

/-- The text of a class, after its `[`, is read as the members it is written from. -/
theorem readClass_text (regex : Text) (index : Nat) (negated : Bool) (atoms : List Atom)
    (members : List Member) (h : membersOf regex index atoms = .ok members)
    (hlegible : LegibleMembers atoms) (rest : Text) :
    Regex.readClass ((bracketHead negated).tail ++ (atoms.flatMap Atom.text ++ ']' :: rest)) =
      some (negated, members, rest) := by
  obtain ⟨hall, a, more, hatoms, ha⟩ := hlegible
  have hmembers := readMembers_flatMap_text regex index atoms members h hall true
    (by rw [hatoms]; simp) rest
  cases negated with
  | true =>
    show (Regex.readMembers true (atoms.flatMap Atom.text ++ ']' :: rest)).map _ = _
    rw [hmembers]
    rfl
  | false =>
    show Regex.readClass (atoms.flatMap Atom.text ++ ']' :: rest) = _
    unfold Regex.readClass
    split
    · rename_i u heq
      rw [hatoms, List.flatMap_cons, List.append_assoc] at heq
      -- Without a complement the class must not begin with a bare `^`.
      exact absurd (Atom.eq_bare_of_head? a _ '^' (by decide) (by rw [heq]; rfl)) ha
    · rw [hmembers]
      rfl

/-- The step that an item is compiled to. -/
inductive Item.CompilesTo : Item → Step → Prop
  | run : CompilesTo .run .run
  | any : CompilesTo .any .any
  | exactly (c : Char) : CompilesTo (.exactly c) (.exactly c)
  | bracket {regex : Text} {index : Nat} {atoms : List Atom} {members : List Member}
      (negated : Bool) (h : membersOf regex index atoms = .ok members) :
      CompilesTo (.bracket negated atoms) (.oneOf negated members)

theorem forall₂_stepsOf (regex : Text) (index : Nat) (glob : Glob) (steps : Steps)
    (h : stepsOf regex index glob = .ok steps) : List.Forall₂ Item.CompilesTo glob steps := by
  induction glob generalizing index steps with
  | nil =>
    rw [← Except.ok.inj h]
    exact .nil
  | cons item glob ih =>
    -- All items go on in the same way; `x` is what the item is compiled to.
    have key : ∀ x : Except ReversedRange Step, (∀ step, x = .ok step → item.CompilesTo step) →
        (do return (← x) :: (← stepsOf regex (index + item.regex.length) glob)) = .ok steps →
        List.Forall₂ Item.CompilesTo (item :: glob) steps := by
      intro x hx hbind
      obtain ⟨step, hstep, hbind⟩ := exceptBind_eq_ok hbind
      obtain ⟨more, hmore, hbind⟩ := exceptBind_eq_ok hbind
      rw [← Except.ok.inj hbind]
      exact .cons (hx step hstep) (ih _ more hmore)
    cases item with
    | run => exact key (.ok .run) (fun step hstep => Except.ok.inj hstep ▸ .run) h
    | any => exact key (.ok .any) (fun step hstep => Except.ok.inj hstep ▸ .any) h
    | exactly c =>
      exact key (.ok (.exactly c)) (fun step hstep => Except.ok.inj hstep ▸ .exactly c) h
    | bracket negated atoms =>
      refine key _ (fun step hstep => ?_) h
      obtain ⟨members, hmembers, rfl⟩ := exceptMap_eq_ok hstep
      exact .bracket negated hmembers

/-- A character outside of a class is written so that it stands for itself. -/
theorem readLiteral_ofChar (c : Char) (t : Text) :
    Regex.readLiteral ((Atom.ofChar c).text ++ t) = some (c, t) := by
  unfold Atom.ofChar
  split
  next hc =>
    have hmeta : "()[]\x7b\x7d?*+-|^$\\.&~# \t\n\r\x0b\x0c".toList.all
        (!·.isAlphanum) = true := by decide
    have hfalse : c.isAlphanum = false := by
      simpa using List.all_eq_true.mp hmeta c (List.contains_iff_mem.mp hc)
    show (if c.isAlphanum = true then none else some (c, t)) = some (c, t)
    rw [hfalse, if_neg (by decide)]
  next hc =>
    have hspecial : ['.', '\\', '[', '\x7b', '(', ')', '*', '+', '?', '^', '$', '|'].all
        isMeta = true := by decide
    have hnot : Regex.isSpecial c = false :=
      Bool.eq_false_iff.mpr fun h =>
        hc (List.all_eq_true.mp hspecial c (List.contains_iff_mem.mp h))
    show Regex.readLiteral (c :: t) = some (c, t)
    unfold Regex.readLiteral
    split
    · rename_i heq
      rw [(List.cons.inj heq).1] at hnot
      exact absurd hnot (by decide)
    · rename_i heq
      obtain ⟨rfl, rfl⟩ := List.cons.inj heq
      rw [hnot, if_neg (by decide)]
    · rename_i heq
      exact absurd heq (by simp)

/-- A written character is no sign that begins another item. -/
theorem head?_ofChar (c x : Char) (t : Text) (hx : isMeta x = true) (hb : x ≠ '\\') :
    ((Atom.ofChar c).text ++ t).head? ≠ some x := by
  intro h
  have hbare := Atom.eq_bare_of_head? (Atom.ofChar c) t x hb h
  unfold Atom.ofChar at hbare
  split at hbare
  · exact absurd hbare (by simp)
  · rename_i hc
    exact hc (Atom.bare.inj hbare ▸ hx)

/-- The text of an item does not go on with the star of a run. -/
theorem head?_regex_ne_star (glob : Glob) : glob.regex.head? ≠ some '*' := by
  cases glob with
  | nil => simp [Glob.regex]
  | cons item glob =>
    cases item with
    | run => simp [Glob.regex, Item.regex]
    | any => simp [Glob.regex, Item.regex]
    | exactly c => exact head?_ofChar c '*' _ (by decide) (by decide)
    | bracket negated atoms => cases negated <;> simp [Glob.regex, Item.regex, bracketHead]

theorem Regex.read_ofChar (c : Char) (t : Text) :
    Regex.read ((Atom.ofChar c).text ++ t) = (Regex.read t).map (.exactly c :: ·) := by
  have hliteral := readLiteral_ofChar c t
  -- The written character is none of the signs with which the other items begin.
  cases htext : (Atom.ofChar c).text ++ t with
  | nil =>
    rw [htext] at hliteral
    exact absurd hliteral (by simp [Regex.readLiteral])
  | cons d u =>
    have hdot : d ≠ '.' := by
      rintro rfl
      exact head?_ofChar c '.' _ (by decide) (by decide) (by rw [htext]; rfl)
    have hbracket : d ≠ '[' := by
      rintro rfl
      exact head?_ofChar c '[' _ (by decide) (by decide) (by rw [htext]; rfl)
    rw [htext] at hliteral
    conv => lhs; unfold Regex.read
    split
    · rename_i heq
      exact absurd heq (by simp)
    · rename_i heq
      exact absurd (List.cons.inj heq).1 hdot
    · rename_i heq
      exact absurd (List.cons.inj heq).1 hbracket
    · rename_i heq
      obtain ⟨rfl, rfl⟩ := List.cons.inj heq
      split
      · rename_i heq'
        rw [hliteral] at heq'
        exact absurd heq' (by simp)
      · rename_i heq'
        rw [hliteral] at heq'
        obtain ⟨rfl, rfl⟩ := Prod.mk.inj (Option.some.inj heq')
        rfl

theorem Regex.read_bracket {t rest : Text} {negated : Bool} {members : List Member}
    (h : Regex.readClass t = some (negated, members, rest)) :
    Regex.read ('[' :: t) = (Regex.read rest).map (.oneOf negated members :: ·) := by
  rw [Regex.read]
  split
  · rename_i heq
    rw [h] at heq
    exact absurd heq (by simp)
  · rename_i heq
    rw [h] at heq
    obtain ⟨rfl, rfl, rfl⟩ := by simpa using heq
    rfl

/-- The regular expression of a pattern is read as the steps of the pattern. -/
theorem Regex.read_regex (glob : Glob) (steps : Steps)
    (h : List.Forall₂ Item.CompilesTo glob steps)
    (hlegible : ∀ negated atoms, Item.bracket negated atoms ∈ glob → LegibleMembers atoms) :
    Regex.read (Glob.regex glob) = some steps := by
  induction h with
  | nil =>
    show Regex.read [] = some []
    rw [Regex.read]
  | @cons item step glob steps hitem hglob ih =>
    have hrest := ih fun negated atoms hmem =>
      hlegible negated atoms (List.mem_cons_of_mem _ hmem)
    cases hitem with
    | run =>
      show Regex.read ('.' :: '*' :: Glob.regex glob) = _
      rw [Regex.read, if_pos (show ('*' :: Glob.regex glob).head? = some '*' from rfl),
        List.tail_cons, hrest]
      rfl
    | any =>
      show Regex.read ('.' :: Glob.regex glob) = _
      rw [Regex.read, if_neg (head?_regex_ne_star glob), hrest]
      rfl
    | exactly c =>
      show Regex.read ((Atom.ofChar c).text ++ Glob.regex glob) = _
      rw [Regex.read_ofChar, hrest]
      rfl
    | @bracket regex index atoms members negated hmembers =>
      have hclass := readClass_text regex index negated atoms members hmembers
        (hlegible negated atoms List.mem_cons_self) (Glob.regex glob)
      have htext : Glob.regex (Item.bracket negated atoms :: glob) =
          '[' :: ((bracketHead negated).tail ++
            (atoms.flatMap Atom.text ++ ']' :: Glob.regex glob)) := by
        cases negated <;> simp [Glob.regex, Item.regex, bracketHead]
      rw [htext, Regex.read_bracket hclass, hrest]
      rfl

end EnvScript
