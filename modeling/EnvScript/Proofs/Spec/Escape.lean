import EnvScript.Replacement
import EnvScript.Proofs.Success

/-!
# Escaped text in a spec

Escaping takes the meaning from every character of a text: a spec splits behind the escaped text and
never inside of it, a pattern made of it stands for the text alone, and unescaping gives the text
back.
-/

namespace EnvScript.Spec

theorem escape_cons (c : Char) (s : Text) :
    escape (c :: s) = (if isActive c = true then ['\\', c] else [c]) ++ escape s :=
  List.flatMap_cons

theorem ne_backslash_of_not_isActive {c : Char} (hc : ¬ isActive c = true) : c ≠ '\\' := by
  rintro rfl
  exact hc (by decide)

theorem split_cons (separator c : Char) (t : Text) (hc : c ≠ '\\') :
    split separator (c :: t) =
      if c = separator then some ([], t)
      else (split separator t).map fun (left, right) => (c :: left, right) := by
  conv => lhs; unfold split
  split
  · rename_i heq
    exact absurd heq (by simp)
  · rename_i heq
    exact absurd (List.cons.inj heq).1 hc
  · rename_i heq
    obtain ⟨rfl, rfl⟩ := List.cons.inj heq
    rfl

/-- A spec splits right behind an escaped text that a separator follows. -/
theorem split_escape_append (separator : Char) (s t : Text) (hactive : isActive separator = true)
    (hseparator : separator ≠ '\\') :
    split separator (escape s ++ separator :: t) = some (escape s, t) := by
  induction s with
  | nil =>
    show split separator (separator :: t) = some ([], t)
    rw [split_cons separator separator t hseparator, if_pos rfl]
  | cons c s ih =>
    rw [escape_cons, List.append_assoc]
    by_cases hc : isActive c = true
    · rw [if_pos hc]
      show (split separator (escape s ++ separator :: t)).map _ = _
      rw [ih]
      rfl
    -- A separator would have been escaped.
    · have hne : c ≠ separator := by
        rintro rfl
        exact hc hactive
      rw [if_neg hc, List.singleton_append,
        split_cons separator c _ (ne_backslash_of_not_isActive hc), if_neg hne, ih]
      rfl

theorem unescape_cons (c : Char) (t : Text) (hc : c ≠ '\\') :
    unescape (c :: t) = c :: unescape t := by
  conv => lhs; unfold unescape
  split
  · rename_i heq
    exact absurd (List.cons.inj heq).1 hc
  · rename_i heq
    obtain ⟨rfl, rfl⟩ := List.cons.inj heq
    rfl
  · rename_i heq
    exact absurd heq (by simp)

theorem unescape_escape (s : Text) : unescape (escape s) = s := by
  induction s with
  | nil => rfl
  | cons c s ih =>
    rw [escape_cons]
    by_cases hc : isActive c = true
    · rw [if_pos hc]
      show c :: unescape (escape s) = c :: s
      rw [ih]
    · rw [if_neg hc, List.singleton_append, unescape_cons c _ (ne_backslash_of_not_isActive hc), ih]

theorem escape_ne_nil {s : Text} (hs : s ≠ []) : escape s ≠ [] := by
  cases s with
  | nil => exact absurd rfl hs
  | cons c s =>
    rw [escape_cons]
    split <;> simp

end EnvScript.Spec

namespace EnvScript

/-! ## Patterns of escaped text -/

theorem readItems_cons (c : Char) (t : Text) (hc : c ∉ ['*', '?', '\\', '[']) :
    readItems (c :: t) = (readItems t).map (.exactly c :: ·) := by
  rw [readItems]
  · rintro rfl
    exact hc (by simp)
  · rintro rfl
    exact hc (by simp)
  · rintro d u rfl
    exact absurd hc (by simp)
  · rintro rfl
    exact hc (by simp)

/-- An escaped text has no wildcard: as a pattern it is read character by character. -/
theorem readItems_escape (s : Text) : readItems (Spec.escape s) = .ok (s.map .exactly) := by
  induction s with
  | nil =>
    show readItems [] = .ok []
    rw [readItems]
  | cons c s ih =>
    rw [Spec.escape_cons]
    by_cases hc : Spec.isActive c = true
    · rw [if_pos hc]
      show readItems ('\\' :: c :: Spec.escape s) = _
      rw [readItems, ih]
      rfl
    -- A wildcard would have been escaped.
    · have hplain : c ∉ ['*', '?', '\\', '['] := by
        intro hmem
        have hall : ['*', '?', '\\', '['].all Spec.isActive = true := by decide
        exact hc (List.all_eq_true.mp hall c hmem)
      rw [if_neg hc, List.singleton_append, readItems_cons c _ hplain, ih]
      rfl

theorem ofPattern_escape (s : Text) : Glob.ofPattern (Spec.escape s) = .ok (s.map .exactly) := by
  rw [Glob.ofPattern, readItems_escape]
  rfl

theorem stepsOf_map_exactly (regex : Text) (index : Nat) (s : Text) :
    stepsOf regex index (s.map .exactly) = .ok (s.map .exactly) := by
  induction s generalizing index with
  | nil => rfl
  | cons c s ih =>
    rw [List.map_cons, stepsOf, ih]
    rfl

theorem compilePattern_escape (limit : Int) (s : Text)
    (hlimit : ((Glob.regex (s.map .exactly)).length : Int) ≤ limit) :
    compilePattern limit (Spec.escape s) = .ok (s.map .exactly) := by
  rw [compilePattern, ofPattern_escape]
  show (if limit < ((Glob.regex (s.map .exactly)).length : Int) then _ else _) = _
  rw [if_neg (Int.not_lt.mpr hlimit), stepsOf_map_exactly]
  rfl

/-- The steps of a text without wildcards match that text and nothing else. -/
theorem matchLength_map_exactly (s t : Text) :
    matchLength (s.map .exactly) t = if s <+: t then some s.length else none := by
  induction s generalizing t with
  | nil => rw [if_pos (List.nil_prefix)]; rfl
  | cons c s ih =>
    cases t with
    | nil => rw [if_neg (by simp)]; rfl
    | cons d t =>
      show (if (d == c) = true then (matchLength (s.map .exactly) t).map (· + 1) else none) = _
      rw [ih]
      by_cases hd : d = c
      · subst hd
        by_cases hs : s <+: t
        · rw [if_pos (by simp), if_pos hs, if_pos (List.cons_prefix_cons.mpr ⟨rfl, hs⟩)]
          rfl
        · rw [if_pos (by simp), if_neg hs, if_neg (fun h => hs (List.cons_prefix_cons.mp h).2)]
          rfl
      · rw [if_neg (by simpa using hd), if_neg (fun h => hd (List.cons_prefix_cons.mp h).1.symm)]

end EnvScript
