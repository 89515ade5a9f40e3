import EnvScript.EvalError
import EnvScript.Glob

/-!
# Reading glob patterns

`*` is any run of characters, `?` any one, a backslash makes the next character stand for itself,
and `[…]` is one character of a set. In the set, `!` or `^` at the front takes the complement, a `]`
that comes first is a member, and `[:name:]` stands for the members of a named class.
-/

namespace EnvScript

def rangeAtoms (low high : Char) : List Atom := [.bare low, .bare '-', .bare high]

def namedClasses : List (Text × List Atom) :=
  [("alpha".toList, rangeAtoms 'a' 'z' ++ rangeAtoms 'A' 'Z'),
    ("digit".toList, rangeAtoms '0' '9'),
    ("alnum".toList, rangeAtoms 'a' 'z' ++ rangeAtoms 'A' 'Z' ++ rangeAtoms '0' '9'),
    ("upper".toList, rangeAtoms 'A' 'Z'),
    ("lower".toList, rangeAtoms 'a' 'z'),
    ("space".toList,
      [.bare ' ', .control 't' '\t', .control 'n' '\n', .control 'r' '\r', .control 'f' '\x0c',
        .control 'v' '\x0b']),
    ("blank".toList, [.bare ' ', .control 't' '\t']),
    ("punct".toList,
      [.bare '!', .escaped '"'] ++ "#$%&'()*+,".toList.map .bare ++ [.escaped '-'] ++
        "./:;<=>?@".toList.map .bare ++ [.escaped '[', .escaped '\\', .escaped ']'] ++
        "^_`\x7b|\x7d~".toList.map .bare),
    ("graph".toList, rangeAtoms '!' '~'),
    ("print".toList, rangeAtoms ' ' '~'),
    ("cntrl".toList, [.code '\x00', .bare '-', .code '\x1f', .code '\x7f']),
    ("xdigit".toList, rangeAtoms '0' '9' ++ rangeAtoms 'a' 'f' ++ rangeAtoms 'A' 'F')]

/-- Splits a text at its first `:]`. -/
def splitClass : Text → Option (Text × Text)
  | [] => none
  | ':' :: ']' :: t => some ([], t)
  | c :: t => (splitClass t).map fun (name, rest) => (c :: name, rest)

theorem length_of_splitClass {t name rest : Text} (h : splitClass t = some (name, rest)) :
    rest.length < t.length := by
  fun_induction splitClass t generalizing name with
  | case1 => simp at h
  | case2 t =>
    simp only [Option.some.injEq, Prod.mk.injEq] at h
    simp only [← h.2, List.length_cons]
    omega
  | case3 c t _ ih =>
    obtain ⟨⟨n, r⟩, hs, he⟩ := Option.map_eq_some_iff.mp h
    simp only [Prod.mk.injEq] at he
    have := ih (he.2 ▸ hs)
    simp only [List.length_cons]
    omega

/-- The name of the class `[:name:]` that stands at `c :: t`, and what follows it. -/
def leadingClass? (c : Char) (t : Text) : Option (Text × Text) :=
  match t with
  | ':' :: t => if c = '[' then splitClass t else none
  | _ => none

theorem length_of_leadingClass? {c : Char} {t name rest : Text}
    (h : leadingClass? c t = some (name, rest)) : rest.length < t.length := by
  unfold leadingClass? at h
  split at h
  · split at h
    · have := length_of_splitClass h
      simp only [List.length_cons]
      omega
    · simp at h
  · simp at h

inductive BracketFault where
  | unterminated
  | unknownClass (name : Text)
  deriving DecidableEq, Repr

/-- A character of a bracket expression that stands for itself; a hyphen may make a range. -/
def memberAtom (c : Char) : Atom :=
  if "\\[]^".toList.contains c then .escaped c else .bare c

/-- Reads the member that begins with `c`, and what follows it in `t`. -/
def readMember (c : Char) (t : Text) : Except BracketFault (List Atom × Text) :=
  match leadingClass? c t with
  | some (name, rest) =>
    match namedClasses.lookup name with
    | some atoms => .ok (atoms, rest)
    | none => .error (.unknownClass name)
  | none =>
    match c, t with
    | '\\', d :: t => .ok ([.ofChar d], t)
    | c, t => .ok ([memberAtom c], t)

theorem length_of_readMember {c : Char} {t : Text} {members : List Atom} {rest : Text}
    (h : readMember c t = .ok (members, rest)) : rest.length ≤ t.length := by
  unfold readMember at h
  split at h
  · rename_i hc
    split at h
    · have := length_of_leadingClass? hc
      simp only [Except.ok.injEq, Prod.mk.injEq] at h
      rw [← h.2]
      omega
    · simp at h
  · split at h
    · simp only [Except.ok.injEq, Prod.mk.injEq] at h
      simp [← h.2]
    · simp only [Except.ok.injEq, Prod.mk.injEq] at h
      simp [← h.2]

/-- Reads the members up to the closing bracket, and what follows it. -/
def readMembers (first : Bool) (t : Text) : Except BracketFault (List Atom × Text) :=
  match t with
  | [] => .error .unterminated
  | c :: t =>
    if c = ']' ∧ first = false then .ok ([], t)
    else
      match _h : readMember c t with
      | .ok (members, rest) =>
        (readMembers false rest).map fun (others, rest) => (members ++ others, rest)
      | .error fault => .error fault
termination_by t.length
decreasing_by
  have := length_of_readMember _h
  simp only [List.length_cons]
  omega

theorem length_of_readMembers {first : Bool} {t : Text} {members : List Atom} {rest : Text}
    (h : readMembers first t = .ok (members, rest)) : rest.length < t.length := by
  fun_induction readMembers first t generalizing members with
  | case1 => simp at h
  | case2 =>
    simp only [Except.ok.injEq, Prod.mk.injEq] at h
    simp [h.2]
  | case3 first c t _ members' rest' hm ih =>
    cases hr : readMembers false rest' with
    | error e => simp [hr, Except.map] at h
    | ok r =>
      simp only [hr, Except.map, Except.ok.injEq, Prod.mk.injEq] at h
      have h1 := @ih r.1 (by rw [hr, ← h.2])
      have h2 := length_of_readMember hm
      simp only [List.length_cons]
      omega
  | case4 => simp at h

/-- Reads a bracket expression after its `[`. -/
def readBracket : Text → Except BracketFault (Item × Text)
  | '!' :: t | '^' :: t => (readMembers true t).map fun (members, rest) =>
    (.bracket true members, rest)
  | t => (readMembers true t).map fun (members, rest) => (.bracket false members, rest)

theorem length_of_readBracket {t : Text} {item : Item} {rest : Text}
    (h : readBracket t = .ok (item, rest)) : rest.length < t.length := by
  have key : ∀ {u : Text} {negated : Bool},
      (readMembers true u).map (fun (members, rest) => (Item.bracket negated members, rest)) =
        .ok (item, rest) → rest.length < u.length := by
    intro u negated hu
    cases hr : readMembers true u with
    | error e => simp [hr, Except.map] at hu
    | ok r =>
      simp only [hr, Except.map, Except.ok.injEq, Prod.mk.injEq] at hu
      exact @length_of_readMembers true u r.1 rest (by rw [hr, ← hu.2])
  unfold readBracket at h
  split at h
  · have := key h
    simp only [List.length_cons]
    omega
  · have := key h
    simp only [List.length_cons]
    omega
  · exact key h

/-- Reads the items of a pattern. Adjacent `*` are one item. -/
def readItems (t : Text) : Except BracketFault Glob :=
  match t with
  | [] => .ok []
  | '*' :: t => (readItems (t.dropWhile (· == '*'))).map (.run :: ·)
  | '?' :: t => (readItems t).map (.any :: ·)
  | '\\' :: c :: t => (readItems t).map (.exactly c :: ·)
  | '[' :: t =>
    match _h : readBracket t with
    | .ok (item, rest) => (readItems rest).map (item :: ·)
    | .error e => .error e
  | c :: t => (readItems t).map (.exactly c :: ·)
termination_by t.length
decreasing_by
  · have := (List.dropWhile_suffix (· == '*') (l := t)).length_le
    simp only [List.length_cons]
    omega
  · simp
  · simp only [List.length_cons]
    omega
  · have := length_of_readBracket _h
    simp only [List.length_cons]
    omega
  · simp

/-- The error for a fault in a pattern. -/
def BracketFault.error (pattern : Text) : BracketFault → EvalError
  | .unterminated => .unterminatedBracket pattern
  | .unknownClass name => .unknownClass ("[:".toList ++ name ++ ":]".toList) pattern

def Glob.ofPattern (pattern : Text) : Except EvalError Glob :=
  (readItems pattern).mapError (BracketFault.error pattern)

end EnvScript
