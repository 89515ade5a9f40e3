import EnvScript.Proofs.Spec.Escape

/-!
# Replacing a text

`Replaced` says what it is to replace a text by another, from the left and without overlap, and has
no pattern in it. `replaced_replace` says that a spec of two escaped texts does just that.
-/

namespace EnvScript

/-- Between `u` and `v` stands the first of all occurrences of `p`. -/
def Leftmost (p u v : Text) : Prop :=
  ∀ u' v', u ++ p ++ v = u' ++ p ++ v' → u.length ≤ u'.length

/-- The second text is the first with `p` replaced by `r`, everywhere or only where it first
occurs. -/
inductive Replaced (p r : Text) : Bool → Text → Text → Prop
  | absent (all : Bool) {t : Text} (h : ¬ p <:+: t) : Replaced p r all t t
  | first {u v : Text} (h : Leftmost p u v) : Replaced p r false (u ++ p ++ v) (u ++ r ++ v)
  | all {u v w : Text} (h : Leftmost p u v) (hrest : Replaced p r true v w) :
      Replaced p r true (u ++ p ++ v) (u ++ r ++ w)

theorem Leftmost.unique {p u v u' v' : Text} (h : Leftmost p u v) (h' : Leftmost p u' v')
    (heq : u ++ p ++ v = u' ++ p ++ v') : u = u' ∧ v = v' := by
  have hlen : u.length = u'.length := Nat.le_antisymm (h u' v' heq) (h' u v heq.symm)
  rw [List.append_assoc, List.append_assoc] at heq
  obtain ⟨hu, hv⟩ := List.append_inj heq hlen
  exact ⟨hu, List.append_cancel_left hv⟩

/-- There is one way to replace. -/
theorem Replaced.unique {p r t w w' : Text} {all : Bool} (h : Replaced p r all t w)
    (h' : Replaced p r all t w') : w = w' := by
  have hoccurs : ∀ u v : Text, p <:+: u ++ p ++ v := fun u v => ⟨u, v, rfl⟩
  induction h generalizing w' with
  | absent all habsent =>
    cases h' with
    | absent => rfl
    | first => exact absurd (hoccurs _ _) habsent
    | all => exact absurd (hoccurs _ _) habsent
  | @first u v hleft =>
    generalize ht : u ++ p ++ v = t at h'
    cases h' with
    | absent _ habsent => exact absurd (ht ▸ hoccurs u v) habsent
    | first hleft' =>
      obtain ⟨rfl, rfl⟩ := hleft.unique hleft' ht
      rfl
  | @all u v w hleft _ ih =>
    generalize ht : u ++ p ++ v = t at h'
    cases h' with
    | absent _ habsent => exact absurd (ht ▸ hoccurs u v) habsent
    | all hleft' hrest' =>
      obtain ⟨rfl, rfl⟩ := hleft.unique hleft' ht
      rw [ih hrest']

/-! ## Scanning -/

theorem leftmost_nil (p v : Text) : Leftmost p [] v := fun _ _ _ => Nat.zero_le _

/-- What stands in front of no occurrence keeps the occurrences behind it in their order. -/
theorem Leftmost.cons {p u v : Text} {c : Char} (h : Leftmost p u v)
    (hc : ¬ p <+: c :: (u ++ p ++ v)) : Leftmost p (c :: u) v := by
  intro u' v' heq
  cases u' with
  | nil =>
    rw [List.nil_append] at heq
    exact absurd ⟨v', heq.symm⟩ hc
  | cons d u' =>
    have := h u' v' (List.cons.inj heq).2
    rw [List.length_cons, List.length_cons]
    omega

theorem Replaced.cons {p r t w : Text} {all : Bool} {c : Char} (h : Replaced p r all t w)
    (hc : ¬ p <+: c :: t) : Replaced p r all (c :: t) (c :: w) := by
  cases h with
  | absent _ habsent =>
    refine .absent all fun hoccurs => ?_
    exact (List.infix_cons_iff.mp hoccurs).elim hc habsent
  | first hleft => exact .first (hleft.cons hc)
  | all hleft hrest => exact .all (hleft.cons hc) hrest

/-- The steps of a text without wildcards replace that text. -/
theorem replaced_replaceMatches (p r : Text) (hp : p ≠ []) (all : Bool) (t : Text) :
    Replaced p r all t (replaceMatches (p.map .exactly) r all t) := by
  fun_induction replaceMatches (p.map .exactly) r all t with
  | case1 => exact .absent all (by simpa using hp)
  | case2 c t n hmatch ih =>
    rw [matchLength_map_exactly] at hmatch
    split at hmatch
    next hstarts =>
      -- The scan stands at the first occurrence, so what is in front of it here is empty.
      have hlen : p.length = n + 1 := Option.some.inj hmatch
      have htext : c :: t = [] ++ p ++ t.drop n := by
        have hdrop : (c :: t).drop p.length = t.drop n := by rw [hlen, List.drop_succ_cons]
        rw [List.nil_append, ← hdrop]
        exact (List.prefix_iff_eq_append.mp hstarts).symm
      rw [htext]
      cases all with
      | false => exact .first (leftmost_nil p _)
      | true => exact .all (leftmost_nil p _) ih
    next => exact absurd hmatch (by simp)
  | case3 c t hmatch ih =>
    -- No occurrence begins here: there the steps would have matched.
    refine ih.cons fun hstarts => ?_
    have hpos : p.length = p.length - 1 + 1 := by
      have := List.length_pos_iff.mpr hp
      omega
    refine hmatch (p.length - 1) ?_
    rw [matchLength_map_exactly, if_pos hstarts, Nat.succ_eq_add_one, ← hpos]

/-- A spec of two escaped texts replaces the one by the other. -/
theorem replaced_replace (limits : Limits) (o p r : Text) (hp : p ≠ []) (all : Bool)
    (hlimit : ((Glob.regex (p.map .exactly)).length : Int) ≤ limits.pattern) :
    ∃ w, Spec.replace limits o (Spec.escape p ++ '/' :: Spec.escape r) all = .ok w ∧
      Replaced p r all o w := by
  refine ⟨replaceMatches (p.map .exactly) r all o, ?_, replaced_replaceMatches p r hp all o⟩
  rw [Spec.replace, Spec.split_escape_append '/' p _ (by decide) (by decide)]
  show (if (Spec.escape p).isEmpty = true then _ else _) = _
  rw [if_neg (by simpa using Spec.escape_ne_nil hp), compilePattern_escape limits.pattern p hlimit,
    Spec.unescape_escape]
  rfl

end EnvScript
