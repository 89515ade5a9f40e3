import EnvScript.Proofs.Glob.Language
import EnvScript.Proofs.Replacement.Literal

/-!
# Replacing the texts of a language

`ReplacedIn` says what it is to replace the texts of a language in a text: from the left, at each
place the longest, without overlap, and never the empty text. It knows nothing of scanning.
`replacedIn_replaceMatches` says that scanning with steps does just that.
-/

namespace EnvScript

/-- Of the non-empty texts of `L` that stand in `u ++ m ++ v`, none begins in front of `m`, and none
that begins where `m` does is longer. -/
structure FirstIn (L : Text → Prop) (u m v : Text) : Prop where
  mem : L m
  ne_nil : m ≠ []
  leftmost : ∀ u' m' v', u ++ m ++ v = u' ++ m' ++ v' → L m' → m' ≠ [] → u.length ≤ u'.length
  longest : ∀ m' v', m ++ v = m' ++ v' → L m' → m'.length ≤ m.length

/-- The second text is the first with `r` in the place of the texts of `L`, everywhere or only of
the first of them. -/
inductive ReplacedIn (L : Text → Prop) (r : Text) : Bool → Text → Text → Prop
  | absent (all : Bool) {t : Text} (h : ∀ m, m <:+: t → L m → m = []) : ReplacedIn L r all t t
  | first {u m v : Text} (h : FirstIn L u m v) : ReplacedIn L r false (u ++ m ++ v) (u ++ r ++ v)
  | all {u m v w : Text} (h : FirstIn L u m v) (hrest : ReplacedIn L r true v w) :
      ReplacedIn L r true (u ++ m ++ v) (u ++ r ++ w)

section

variable {L : Text → Prop} {r t w : Text} {all : Bool}

theorem FirstIn.unique {u m v u' m' v' : Text} (h : FirstIn L u m v) (h' : FirstIn L u' m' v')
    (heq : u ++ m ++ v = u' ++ m' ++ v') : u = u' ∧ m = m' ∧ v = v' := by
  have hlen : u.length = u'.length :=
    Nat.le_antisymm (h.leftmost u' m' v' heq h'.mem h'.ne_nil)
      (h'.leftmost u m v heq.symm h.mem h.ne_nil)
  rw [List.append_assoc, List.append_assoc] at heq
  have hu := List.append_inj heq hlen
  -- From the same place on, either is as long as the other.
  have hm : m.length = m'.length :=
    Nat.le_antisymm (h'.longest m v hu.2.symm h.mem) (h.longest m' v' hu.2 h'.mem)
  have hmv := List.append_inj hu.2 hm
  exact ⟨hu.1, hmv.1, hmv.2⟩

/-- There is one way to replace the texts of a language. -/
theorem ReplacedIn.functional {w' : Text} (h : ReplacedIn L r all t w)
    (h' : ReplacedIn L r all t w') : w = w' := by
  have hoccurs : ∀ {u m v : Text}, FirstIn L u m v →
      ¬ ∀ m', m' <:+: u ++ m ++ v → L m' → m' = [] := by
    intro u m v hfirst habsent
    exact hfirst.ne_nil (habsent m ⟨u, v, rfl⟩ hfirst.mem)
  induction h generalizing w' with
  | absent all habsent =>
    cases h' with
    | absent => rfl
    | first hfirst => exact absurd habsent (hoccurs hfirst)
    | all hfirst => exact absurd habsent (hoccurs hfirst)
  | @first u m v hfirst =>
    generalize ht : u ++ m ++ v = t at h'
    cases h' with
    | absent _ habsent => exact absurd (ht ▸ habsent) (hoccurs hfirst)
    | first hfirst' =>
      obtain ⟨rfl, rfl, rfl⟩ := hfirst.unique hfirst' ht
      rfl
  | @all u m v w hfirst _ ih =>
    generalize ht : u ++ m ++ v = t at h'
    cases h' with
    | absent _ habsent => exact absurd (ht ▸ habsent) (hoccurs hfirst)
    | all hfirst' hrest' =>
      obtain ⟨rfl, rfl, rfl⟩ := hfirst.unique hfirst' ht
      rw [ih hrest']

/-! ## Scanning -/

/-- A character at which no text of the language begins does not matter for those behind it. -/
theorem FirstIn.cons {u m v : Text} {c : Char} (h : FirstIn L u m v)
    (hc : ∀ m', m' <+: c :: (u ++ m ++ v) → L m' → m' = []) : FirstIn L (c :: u) m v := by
  refine ⟨h.mem, h.ne_nil, ?_, h.longest⟩
  intro u' m' v' heq hm' hne
  cases u' with
  | nil =>
    have hstarts : m' <+: c :: (u ++ m ++ v) := ⟨v', heq.symm⟩
    exact absurd (hc m' hstarts hm') hne
  | cons d u' =>
    have hle := h.leftmost u' m' v' (List.cons.inj heq).2 hm' hne
    rw [List.length_cons, List.length_cons]
    omega

theorem ReplacedIn.cons {c : Char} (h : ReplacedIn L r all t w)
    (hc : ∀ m, m <+: c :: t → L m → m = []) : ReplacedIn L r all (c :: t) (c :: w) := by
  cases h with
  | absent _ habsent =>
    refine .absent all ?_
    intro m hm hL
    rcases List.infix_cons_iff.mp hm with hstarts | hlater
    · exact hc m hstarts hL
    · exact habsent m hlater hL
  | first hfirst => exact .first (hfirst.cons hc)
  | all hfirst hrest => exact .all (hfirst.cons hc) hrest

/-- The longest match at the front of a text is the first text of the language in it. -/
theorem firstIn_take {steps : Steps} {n : Nat} (h : matchLength steps t = some (n + 1)) :
    FirstIn (Takes steps) [] (t.take (n + 1)) (t.drop (n + 1)) := by
  obtain ⟨⟨hlen, htakes⟩, hmax⟩ := isGreatest_matchLength steps t (n + 1) h
  have hpos : (t.take (n + 1)).length = n + 1 := by
    rw [List.length_take]
    omega
  refine ⟨htakes, ?_, fun _ _ _ _ _ _ => Nat.zero_le _, ?_⟩
  · apply List.ne_nil_of_length_pos
    omega
  · intro m' v' heq hm'
    rw [List.take_append_drop] at heq
    have hle : m'.length ≤ t.length := by
      rw [heq, List.length_append]
      omega
    have htake : t.take m'.length = m' := by
      rw [heq, List.take_left]
    rw [hpos]
    exact hmax ⟨hle, htake.symm ▸ hm'⟩

/-- Where the steps match nothing or the empty text, no other text of theirs begins. -/
theorem eq_nil_of_matchLength {steps : Steps} (h : ∀ n, matchLength steps t ≠ some (n + 1))
    {m : Text} (hm : m <+: t) (htakes : Takes steps m) : m = [] := by
  obtain ⟨v, rfl⟩ := hm
  obtain ⟨n, hn, hle⟩ := matchLength_of_takes steps m v htakes
  cases n with
  | zero => exact List.eq_nil_of_length_eq_zero (Nat.le_zero.mp hle)
  | succ n => exact absurd hn (h n)

theorem replacedIn_replaceMatches (steps : Steps) (r : Text) (all : Bool) (t : Text) :
    ReplacedIn (Takes steps) r all t (replaceMatches steps r all t) := by
  fun_induction replaceMatches steps r all t with
  | case1 =>
    refine .absent all ?_
    intro m hm _
    exact List.infix_nil.mp hm
  | case2 c t n hmatch ih =>
    have hfirst := firstIn_take hmatch
    have htext : c :: t = [] ++ (c :: t).take (n + 1) ++ t.drop n := by
      rw [List.nil_append, ← List.drop_succ_cons, List.take_append_drop]
    rw [htext]
    cases all with
    | false => exact .first hfirst
    | true => exact .all hfirst ih
  | case3 c t hmatch ih =>
    refine ih.cons ?_
    intro m hm htakes
    exact eq_nil_of_matchLength hmatch hm htakes

end

end EnvScript
