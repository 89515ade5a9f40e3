import EnvScript.Proofs.Glob.Regex
import Mathlib.Data.List.Basic

/-!
# Named classes

The classes that a bracket expression can name, by the characters in them and by the atoms that they
are translated to. `Grouped` says which members a row of atoms makes, wherever it stands.
-/

namespace EnvScript

/-! ## The characters of a class -/

inductive NamedClass where
  | alpha | digit | alnum | upper | lower | space | blank | punct | graph | print | cntrl | xdigit
  deriving DecidableEq, Repr

namespace NamedClass

def name : NamedClass → Text
  | alpha => "alpha".toList
  | digit => "digit".toList
  | alnum => "alnum".toList
  | upper => "upper".toList
  | lower => "lower".toList
  | space => "space".toList
  | blank => "blank".toList
  | punct => "punct".toList
  | graph => "graph".toList
  | print => "print".toList
  | cntrl => "cntrl".toList
  | xdigit => "xdigit".toList

def isGraphic (x : Char) : Bool := '!' ≤ x && x ≤ '~'

/-- The characters of a class, all of them from the ASCII set. -/
def contains : NamedClass → Char → Bool
  | alpha, x => x.isAlpha
  | digit, x => x.isDigit
  | alnum, x => x.isAlphanum
  | upper, x => x.isUpper
  | lower, x => x.isLower
  | space, x => " \t\n\r\x0b\x0c".toList.contains x
  | blank, x => " \t".toList.contains x
  | punct, x => isGraphic x && !x.isAlphanum
  | graph, x => isGraphic x
  | print, x => x == ' ' || isGraphic x
  | cntrl, x => x < ' ' || x == '\x7f'
  | xdigit, x => x.isDigit || 'a' ≤ x && x ≤ 'f' || 'A' ≤ x && x ≤ 'F'

end NamedClass

/-- The translation of the class ends in a single character, not in a range. -/
def NamedClass.endsSingle : NamedClass → Bool
  | .space | .blank | .punct | .cntrl => true
  | _ => false

/-! ## Members of a row of atoms -/

/-- The members that atoms make, wherever they stand in a regular expression. -/
inductive Grouped : List Atom → List Member → Prop
  | nil : Grouped [] []
  | range {a b : Atom} {atoms : List Atom} {members : List Member} (hle : a.char ≤ b.char)
      (h : Grouped atoms members) :
      Grouped (a :: .bare '-' :: b :: atoms) (.range a.char b.char :: members)
  | single {a : Atom} {atoms : List Atom} {members : List Member}
      (hsingle : ∀ b more, atoms ≠ .bare '-' :: b :: more) (h : Grouped atoms members) :
      Grouped (a :: atoms) (.single a.char :: members)

section

variable {a b : Atom} {atoms more : List Atom} {members others : List Member} {regex : Text}
  {index : Nat}

theorem grouped_of_membersOf (h : membersOf regex index atoms = .ok members) :
    Grouped atoms members := by
  fun_induction membersOf regex index atoms generalizing members with
  | case1 =>
    rw [← Except.ok.inj h]
    exact .nil
  | case2 => exact absurd h (by simp)
  | case3 index a b rest stop hordered =>
    rename_i ih
    obtain ⟨others, hothers, rfl⟩ := exceptMap_eq_ok h
    exact .range (Char.not_lt.mp hordered) (ih hothers)
  | case4 index a rest hsingle ih =>
    obtain ⟨others, hothers, rfl⟩ := exceptMap_eq_ok h
    exact .single hsingle (ih hothers)

theorem Grouped.membersOf (h : Grouped atoms members) (regex : Text) (index : Nat) :
    membersOf regex index atoms = .ok members := by
  induction h generalizing index with
  | nil => rfl
  | range hle _ ih =>
    rw [EnvScript.membersOf]
    dsimp only
    rw [if_neg (Char.not_lt.mpr hle), ih]
    rfl
  | single hsingle _ ih =>
    rw [EnvScript.membersOf, ih]
    · rfl
    · exact hsingle

theorem grouped_range_iff : Grouped (a :: .bare '-' :: b :: atoms) members ↔
    a.char ≤ b.char ∧ ∃ others, Grouped atoms others ∧
      members = .range a.char b.char :: others := by
  constructor
  · intro h
    cases h with
    | range hle h => exact ⟨hle, _, h, rfl⟩
    | single hsingle _ => exact absurd rfl (hsingle b atoms)
  · rintro ⟨hle, others, h, rfl⟩
    exact .range hle h

theorem grouped_single_iff (hsingle : ∀ b more, atoms ≠ .bare '-' :: b :: more) :
    Grouped (a :: atoms) members ↔ ∃ others, Grouped atoms others ∧
      members = .single a.char :: others := by
  constructor
  · intro h
    cases h with
    | range _ _ => exact absurd rfl (hsingle _ _)
    | single _ h => exact ⟨_, h, rfl⟩
  · rintro ⟨others, h, rfl⟩
    exact .single hsingle h

/-- Atoms keep their members in front of others, if they do not end in a hyphen and none joins their
last character to what comes next. -/
theorem Grouped.append_iff {as : List Atom} {ms : List Member} (h : Grouped as ms)
    (hlast : as.getLast? ≠ some (.bare '-'))
    (hmore : ∀ c, ms.getLast? = some (.single c) → ∀ b rest, more ≠ .bare '-' :: b :: rest) :
    Grouped (as ++ more) members ↔ ∃ others, Grouped more others ∧ members = ms ++ others := by
  induction h generalizing members with
  | nil => simp
  | @range a b as ms hle _ ih =>
    have hlast' : as.getLast? ≠ some (.bare '-') := fun h =>
      hlast (List.mem_getLast?_cons (List.mem_getLast?_cons (List.mem_getLast?_cons h)))
    rw [List.cons_append, List.cons_append, List.cons_append, grouped_range_iff]
    simp only [ih hlast' fun c hc => hmore c (List.mem_getLast?_cons hc), hle, true_and]
    constructor
    · rintro ⟨_, ⟨others, hothers, rfl⟩, rfl⟩
      exact ⟨others, hothers, rfl⟩
    · rintro ⟨others, hothers, rfl⟩
      exact ⟨_, ⟨others, hothers, rfl⟩, rfl⟩
  | @single a as ms hsingle h ih =>
    -- The only hyphen that could come next is one of `more`, or the last of the atoms.
    have hsingle' : ∀ b rest, as ++ more ≠ .bare '-' :: b :: rest := by
      intro b rest heq
      rcases as with _ | ⟨x, _ | ⟨y, as⟩⟩
      · cases h
        exact hmore a.char rfl b rest heq
      · obtain ⟨rfl, -⟩ := List.cons.inj heq
        exact hlast rfl
      · obtain ⟨rfl, -⟩ := List.cons.inj heq
        exact hsingle y as rfl
    rw [List.cons_append, grouped_single_iff hsingle']
    simp only [ih (fun h => hlast (List.mem_getLast?_cons h))
      fun c hc => hmore c (List.mem_getLast?_cons hc)]
    constructor
    · rintro ⟨_, ⟨others, hothers, rfl⟩, rfl⟩
      exact ⟨others, hothers, rfl⟩
    · rintro ⟨others, hothers, rfl⟩
      exact ⟨_, ⟨others, hothers, rfl⟩, rfl⟩

/-- Members go no further than the characters of the atoms. -/
theorem Grouped.toNat_lt {x : Char} {n : Nat} (h : Grouped atoms members)
    (hatoms : ∀ a ∈ atoms, a.char.toNat < n) (hx : members.any (·.contains x) = true) :
    x.toNat < n := by
  induction h with
  | nil => exact absurd hx (by simp)
  | @range a b atoms members _ _ ih =>
    rw [List.any_cons, Bool.or_eq_true] at hx
    rcases hx with hrange | hothers
    · have hle : x ≤ b.char := of_decide_eq_true (Bool.and_eq_true_iff.mp hrange).2
      exact Nat.lt_of_le_of_lt (Char.le_def.mp hle) (hatoms b (by simp))
    · exact ih (fun a ha => hatoms a (by simp [ha])) hothers
  | @single a atoms members _ _ ih =>
    rw [List.any_cons, Bool.or_eq_true] at hx
    rcases hx with hsingle | hothers
    · rw [beq_iff_eq.mp hsingle]
      exact hatoms a List.mem_cons_self
    · exact ih (fun a ha => hatoms a (List.mem_cons_of_mem _ ha)) hothers

end

/-! ## The translation of a class -/

/-- The atoms that a class is translated to. -/
def NamedClass.atoms (k : NamedClass) : List Atom := (namedClasses.lookup k.name).getD []

/-- The members that these make. -/
def NamedClass.members (k : NamedClass) : List Member :=
  match membersOf [] 0 k.atoms with
  | .ok members => members
  | .error _ => []

namespace NamedClass

theorem lookup_name (k : NamedClass) : namedClasses.lookup k.name = some k.atoms := by
  cases k <;> rfl

theorem exists_of_lookup {name : Text} {atoms : List Atom}
    (h : namedClasses.lookup name = some atoms) :
    ∃ k : NamedClass, name = k.name ∧ atoms = k.atoms := by
  have hname : name ∈ [alpha, digit, alnum, upper, lower, space, blank, punct, graph, print, cntrl,
      xdigit].map NamedClass.name := by
    have hall : ∀ e ∈ namedClasses, e.1 ∈ [alpha, digit, alnum, upper, lower, space, blank, punct,
      graph, print, cntrl, xdigit].map NamedClass.name := by decide
    exact hall (name, atoms) (mem_of_lookup h)
  obtain ⟨k, -, rfl⟩ := List.mem_map.mp hname
  exact ⟨k, rfl, Option.some.inj (h.symm.trans k.lookup_name)⟩

theorem grouped_atoms (k : NamedClass) : Grouped k.atoms k.members := by
  have hmembers : membersOf [] 0 k.atoms = .ok k.members := by cases k <;> rfl
  exact grouped_of_membersOf hmembers

theorem getLast?_atoms (k : NamedClass) : k.atoms.getLast? ≠ some (.bare '-') := by
  cases k <;> decide

theorem head?_atoms (k : NamedClass) : k.atoms.head?.any (· != .bare '-') = true := by
  cases k <;> decide

theorem exists_range_of_endsSingle {k : NamedClass} (h : k.endsSingle = false) :
    ∃ low high, k.members.getLast? = some (.range low high) := by
  cases k <;> first | exact ⟨_, _, rfl⟩ | exact absurd h (by decide)

theorem endsSingle_of_getLast? {k : NamedClass} {c : Char}
    (h : k.members.getLast? = some (.single c)) : k.endsSingle = true := by
  rw [← Bool.not_eq_false]
  intro hends
  obtain ⟨low, high, hlast⟩ := exists_range_of_endsSingle hends
  exact absurd (h.symm.trans hlast) (by simp)

variable {x : Char}

theorem toNat_lt_of_isAlphanum (h : x.isAlphanum = true) : x.toNat < 128 := by
  have hle : x ≤ 'Z' ∨ x ≤ 'z' ∨ x ≤ '9' := by
    rcases Bool.or_eq_true_iff.mp h with halpha | hdigit
    · rcases Bool.or_eq_true_iff.mp halpha with hupper | hlower
      · exact .inl (of_decide_eq_true hupper).2
      · exact .inr (.inl (of_decide_eq_true (Bool.and_eq_true_iff.mp hlower).2))
    · exact .inr (.inr (of_decide_eq_true (Bool.and_eq_true_iff.mp hdigit).2))
  rcases hle with hle | hle | hle <;> exact Nat.lt_of_le_of_lt (Char.le_def.mp hle) (by decide)

theorem toNat_lt_of_isGraphic (h : isGraphic x = true) : x.toNat < 128 := by
  have hle : x ≤ '~' := of_decide_eq_true (Bool.and_eq_true_iff.mp h).2
  exact Nat.lt_of_le_of_lt (Char.le_def.mp hle) (by decide)

/-- All classes are parts of the ASCII set. -/
theorem toNat_lt_of_contains {k : NamedClass} (h : k.contains x = true) : x.toNat < 128 := by
  have hlist : ∀ l : Text, (∀ y ∈ l, y.toNat < 128) → l.contains x = true → x.toNat < 128 :=
    fun l hl hx => hl x (List.contains_iff_mem.mp hx)
  cases k with
  | alpha => exact toNat_lt_of_isAlphanum (Bool.or_eq_true_iff.mpr (.inl h))
  | digit => exact toNat_lt_of_isAlphanum (Bool.or_eq_true_iff.mpr (.inr h))
  | alnum => exact toNat_lt_of_isAlphanum h
  | upper =>
    exact toNat_lt_of_isAlphanum
      (Bool.or_eq_true_iff.mpr (.inl (Bool.or_eq_true_iff.mpr (.inl h))))
  | lower =>
    exact toNat_lt_of_isAlphanum
      (Bool.or_eq_true_iff.mpr (.inl (Bool.or_eq_true_iff.mpr (.inr h))))
  | space => exact hlist _ (forall_mem_of_all (by decide)) h
  | blank => exact hlist _ (forall_mem_of_all (by decide)) h
  | punct => exact toNat_lt_of_isGraphic (Bool.and_eq_true_iff.mp h).1
  | graph => exact toNat_lt_of_isGraphic h
  | print =>
    rcases Bool.or_eq_true_iff.mp h with hspace | hgraphic
    · rw [beq_iff_eq.mp hspace]
      decide
    · exact toNat_lt_of_isGraphic hgraphic
  | cntrl =>
    rcases Bool.or_eq_true_iff.mp h with hlt | hdelete
    · have hlt : x < ' ' := of_decide_eq_true hlt
      exact Nat.lt_of_lt_of_le (Char.lt_def.mp hlt) (by decide)
    · rw [beq_iff_eq.mp hdelete]
      decide
  | xdigit =>
    have hle : x ≤ '9' ∨ x ≤ 'f' ∨ x ≤ 'F' := by
      simp only [contains, Char.isDigit, Bool.or_eq_true, Bool.and_eq_true, decide_eq_true_eq] at h
      exact (or_assoc.mp h).imp And.right (Or.imp And.right And.right)
    rcases hle with hle | hle | hle <;> exact Nat.lt_of_le_of_lt (Char.le_def.mp hle) (by decide)

theorem toNat_lt_of_members {k : NamedClass} (h : k.members.any (·.contains x) = true) :
    x.toNat < 128 :=
  k.grouped_atoms.toNat_lt (by cases k <;> decide) h

/-- The members that a class is translated to are its characters. -/
theorem any_members (k : NamedClass) (x : Char) :
    k.members.any (·.contains x) = k.contains x := by
  -- Up to the bound there are few enough characters to go through, and beyond it there are none.
  by_cases hx : x.toNat < 128
  · have hall : ∀ n : Fin 128, k.members.any (·.contains (Char.ofNat n)) =
        k.contains (Char.ofNat n) := by
      cases k <;> decide +kernel
    have hchar := hall ⟨x.toNat, hx⟩
    rwa [Char.ofNat_toNat] at hchar
  · rw [Bool.eq_false_iff.mpr fun h => hx (toNat_lt_of_members h),
      Bool.eq_false_iff.mpr fun h => hx (toNat_lt_of_contains h)]

end NamedClass

end EnvScript
