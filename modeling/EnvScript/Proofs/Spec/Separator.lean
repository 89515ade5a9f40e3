import EnvScript.Proofs.Spec.Active
import Mathlib.Algebra.Ring.Parity
import Mathlib.Data.List.Induction

/-!
# Where a spec splits

A separator is escaped if an odd number of backslashes stands directly in front of it: these are
taken in pairs from the left, and one is left over. A spec splits at the first separator that is not
escaped in this sense, which speaks only of what stands in front of it.
-/

namespace EnvScript.Spec

variable {separator : Char} {spec left right : Text}

/-- The number of backslashes that a text ends with. -/
def closingBackslashes (t : Text) : Nat := (t.reverse.takeWhile (· == '\\')).length

theorem closingBackslashes_concat (t : Text) (c : Char) :
    closingBackslashes (t ++ [c]) = if c = '\\' then closingBackslashes t + 1 else 0 := by
  unfold closingBackslashes
  rw [List.reverse_append, List.reverse_singleton, List.singleton_append, List.takeWhile_cons]
  by_cases hc : c = '\\'
  · rw [if_pos (beq_iff_eq.mpr hc), if_pos hc, List.length_cons]
  · rw [if_neg (mt beq_iff_eq.mp hc), if_neg hc, List.length_nil]

/-- A backslash at the end escapes what follows, unless it is escaped itself. -/
theorem endsEscaping_concat_iff (t : Text) (c : Char) :
    endsEscaping (t ++ [c]) = true ↔ c = '\\' ∧ ¬ endsEscaping t = true := by
  fun_induction endsEscaping t with
  | case1 =>
    by_cases hc : c = '\\'
    · subst hc
      decide
    · rw [List.nil_append, endsEscaping_cons hc]
      simp [endsEscaping, hc]
  | case2 =>
    show endsEscaping [] = true ↔ _
    simp [endsEscaping]
  | case3 d t ih => exact ih
  | case4 d t hd ih => rw [List.cons_append, endsEscaping_cons hd, ih]

/-- Taking the backslashes in pairs from the left leaves one over where their number is odd. -/
theorem endsEscaping_iff_odd (t : Text) : endsEscaping t = true ↔ Odd (closingBackslashes t) := by
  induction t using List.reverseRecOn with
  | nil => decide
  | append_singleton t c ih =>
    rw [endsEscaping_concat_iff, closingBackslashes_concat, ih]
    by_cases hc : c = '\\'
    · rw [if_pos hc, Nat.odd_add_one]
      simp [hc]
    · rw [if_neg hc]
      simp [hc]

/-! ## The first separator that is not escaped -/

/-- A spec splits at a separator that is not escaped, and so does what is in front of it. -/
theorem append_of_split (h : split separator spec = some (left, right)) :
    spec = left ++ separator :: right ∧ endsEscaping left = false := by
  fun_induction split separator spec generalizing left with
  | case1 => exact absurd h (by simp)
  | case2 => exact absurd h (by simp)
  | case3 c t ih =>
    obtain ⟨⟨left', right'⟩, hsplit, heq⟩ := Option.map_eq_some_iff.mp h
    obtain ⟨rfl, rfl⟩ := Prod.mk.inj heq
    obtain ⟨rfl, hends⟩ := ih hsplit
    exact ⟨rfl, hends⟩
  | case4 t =>
    obtain ⟨rfl, rfl⟩ := Prod.mk.inj (Option.some.inj h)
    exact ⟨rfl, rfl⟩
  | case5 c t hc _ ih =>
    obtain ⟨⟨left', right'⟩, hsplit, heq⟩ := Option.map_eq_some_iff.mp h
    obtain ⟨rfl, rfl⟩ := Prod.mk.inj heq
    obtain ⟨rfl, hends⟩ := ih hsplit
    exact ⟨rfl, (endsEscaping_cons hc left').trans hends⟩

/-- A separator that is not escaped is found, unless another one comes before it. -/
theorem exists_split (hseparator : separator ≠ '\\') (hends : endsEscaping left = false)
    (right : Text) : ∃ left' right',
      split separator (left ++ separator :: right) = some (left', right') ∧
        left'.length ≤ left.length := by
  fun_induction endsEscaping left with
  | case1 =>
    refine ⟨[], right, ?_, Nat.le_refl 0⟩
    rw [List.nil_append, split_cons separator separator right hseparator, if_pos rfl]
  | case2 => exact absurd hends (by simp)
  | case3 c t ih =>
    obtain ⟨left', right', hsplit, hle⟩ := ih hends
    refine ⟨'\\' :: c :: left', right', ?_, by simpa using hle⟩
    show (split separator (t ++ separator :: right)).map _ = _
    rw [hsplit]
    rfl
  | case4 c t hc ih =>
    obtain ⟨left', right', hsplit, hle⟩ := ih hends
    rw [List.cons_append, split_cons separator c _ hc]
    by_cases heq : c = separator
    · exact ⟨[], _, if_pos heq, Nat.zero_le _⟩
    · refine ⟨c :: left', right', ?_, by simpa using hle⟩
      rw [if_neg heq, hsplit]
      rfl

theorem split_eq_none_iff (hseparator : separator ≠ '\\') :
    split separator spec = none ↔
      ∀ left right, spec = left ++ separator :: right → endsEscaping left = true := by
  constructor
  · rintro hnone left right rfl
    by_contra hends
    obtain ⟨left', right', hsplit, -⟩ :=
      exists_split hseparator (Bool.eq_false_iff.mpr hends) right
    exact absurd (hnone.symm.trans hsplit) (by simp)
  · intro hall
    refine Option.eq_none_iff_forall_ne_some.mpr fun ⟨left, right⟩ hsplit => ?_
    obtain ⟨hspec, hends⟩ := append_of_split hsplit
    exact absurd (hends.symm.trans (hall left right hspec)) (by simp)

theorem split_eq_some_iff (hseparator : separator ≠ '\\') :
    split separator spec = some (left, right) ↔
      spec = left ++ separator :: right ∧ endsEscaping left = false ∧
        ∀ left' right', spec = left' ++ separator :: right' → left'.length < left.length →
          endsEscaping left' = true := by
  constructor
  · intro hsplit
    obtain ⟨hspec, hends⟩ := append_of_split hsplit
    refine ⟨hspec, hends, fun left' right' hspec' hlt => ?_⟩
    by_contra hends'
    obtain ⟨first, rest, hfirst, hle⟩ :=
      exists_split hseparator (Bool.eq_false_iff.mpr hends') right'
    rw [← hspec', hsplit] at hfirst
    obtain ⟨rfl, -⟩ := Prod.mk.inj (Option.some.inj hfirst)
    omega
  · rintro ⟨rfl, hends, hfirst⟩
    obtain ⟨left', right', hsplit, hle⟩ := exists_split hseparator hends right
    obtain ⟨hspec, hends'⟩ := append_of_split hsplit
    -- The split is not in front of this place, where every separator is escaped.
    have hlength : left.length = left'.length := by
      refine Nat.le_antisymm (Nat.not_lt.mp fun hlt => ?_) hle
      exact absurd (hends'.symm.trans (hfirst left' right' hspec hlt)) (by simp)
    obtain ⟨rfl, htail⟩ := List.append_inj hspec hlength
    obtain rfl := (List.cons.inj htail).2
    exact hsplit

/-- A spec does not split where every separator stands behind an odd number of backslashes, and
otherwise it splits at the first that stands behind an even number. Escaped text has no such
separator of its own, and unescaping gives the text back. -/
theorem split_at_parity (hseparator : separator ≠ '\\') :
    (∀ spec, split separator spec = none ↔
      ∀ left right, spec = left ++ separator :: right → Odd (closingBackslashes left)) ∧
    (∀ spec left right, split separator spec = some (left, right) ↔
      spec = left ++ separator :: right ∧ Even (closingBackslashes left) ∧
        ∀ left' right', spec = left' ++ separator :: right' → left'.length < left.length →
          Odd (closingBackslashes left')) ∧
    (separator = '/' ∨ separator = ':' → ∀ s t,
      split separator (escape s ++ separator :: t) = some (escape s, t)) ∧
    ∀ s, unescape (escape s) = s := by
  have hodd : ∀ t, Odd (closingBackslashes t) ↔ endsEscaping t = true :=
    fun t => (endsEscaping_iff_odd t).symm
  have heven : ∀ t, Even (closingBackslashes t) ↔ endsEscaping t = false := fun t => by
    rw [← Nat.not_odd_iff_even, hodd, Bool.not_eq_true]
  simp only [hodd, heven]
  refine ⟨fun _ => split_eq_none_iff hseparator, fun _ _ _ => split_eq_some_iff hseparator,
    fun hslash s t => split_escape_append separator s t ?_ hseparator, unescape_escape⟩
  rcases hslash with rfl | rfl <;> decide

/-- Of three colons the first is escaped, and the second stands behind an escaped backslash. -/
theorem parity_of_three_colons :
    ':' ≠ '\\' ∧ split ':' "1\\:\\\\:2:3".toList = some ("1\\:\\\\".toList, "2:3".toList) ∧
      Even (closingBackslashes "1\\:\\\\".toList) ∧
      ∀ left right, "1\\:\\\\:2:3".toList = left ++ ':' :: right → left.length < 5 →
        Odd (closingBackslashes left) := by
  have hsplit : split ':' "1\\:\\\\:2:3".toList = some ("1\\:\\\\".toList, "2:3".toList) := by
    decide
  exact ⟨by decide, hsplit, (((split_at_parity (by decide)).2.1 _ _ _).mp hsplit).2⟩

end EnvScript.Spec
