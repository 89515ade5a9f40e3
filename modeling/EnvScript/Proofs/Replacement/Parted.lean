import EnvScript.Proofs.Glob.Language
import EnvScript.Proofs.Replacement.Literal

/-!
# A text parted at its matches

`Parted` takes a text apart into matches and what stands in front of them, with no order of search.
There is one way to do so, and a replacement puts other text in the place of the matches.
-/

namespace EnvScript

/-- No match begins inside of `u` where `rest` follows it. -/
def Unmatched (steps : Steps) (u rest : Text) : Prop :=
  ∀ v w, u = v ++ w → w ≠ [] → matchLength steps (w ++ rest) = none

/-- The text is the matches of the steps in it, each behind the text that is skipped to get there,
and then the text `last`. -/
inductive Parted (steps : Steps) : List (Text × Text) → Text → Text → Prop
  | last {u : Text} (hu : Unmatched steps u []) : Parted steps [] u u
  | cons {u m t last : Text} {parts : List (Text × Text)} (hu : Unmatched steps u (m ++ t))
      (hne : m ≠ []) (hm : matchLength steps (m ++ t) = some m.length)
      (h : Parted steps parts last t) : Parted steps ((u, m) :: parts) last (u ++ (m ++ t))

/-- The text that has these parts. -/
def joined (parts : List (Text × Text)) (last : Text) : Text :=
  parts.flatMap (fun (u, m) => u ++ m) ++ last

/-- The same with `r` in the place of every match. -/
def joinedWith (r : Text) (parts : List (Text × Text)) (last : Text) : Text :=
  parts.flatMap (fun (u, _) => u ++ r) ++ last

/-- The same with `r` in the place of the first match. -/
def joinedWithFirst (r : Text) : List (Text × Text) → Text → Text
  | [], last => last
  | (u, _) :: parts, last => u ++ r ++ joined parts last

variable {steps : Steps} {parts parts' : List (Text × Text)} {last last' t u rest : Text}

/-! ## One way to part a text -/

theorem Parted.joined_eq (h : Parted steps parts last t) : joined parts last = t := by
  induction h with
  | last => rfl
  | @cons u m t last parts _ _ _ _ ih =>
    rw [← ih, joined, joined, List.flatMap_cons, List.append_assoc, List.append_assoc]

/-- No part goes further than to the next match. -/
theorem Unmatched.stops_at_match {m t v : Text}
    (hm : matchLength steps (m ++ t) = some m.length) (h : Unmatched steps u rest)
    (heq : u ++ rest = v ++ (m ++ t)) : u <+: v := by
  rcases List.append_eq_append_iff.mp heq with ⟨w, rfl, -⟩ | ⟨w, rfl, hw⟩
  · exact List.prefix_append u w
  · -- `u` goes on behind `v` with `w`, where the match begins
    by_cases hnil : w = []
    · simp [hnil]
    · have hnone := h v w rfl hnil
      rw [← hw, hm] at hnone
      exact absurd hnone (by simp)

/-- There is at most one way to part a text. -/
theorem Parted.unique (h : Parted steps parts last t) (h' : Parted steps parts' last' t) :
    parts = parts' ∧ last = last' := by
  induction h generalizing parts' with
  | @last u hu =>
    cases h' with
    | last => exact ⟨rfl, rfl⟩
    | @cons u' m' t' _ _ hu' hne' hm' _ =>
      -- A match in what has none.
      have hne : m' ++ t' ≠ [] := List.append_ne_nil_of_left_ne_nil hne' t'
      have hnone := hu u' (m' ++ t') rfl hne
      rw [List.append_nil, hm'] at hnone
      exact absurd hnone (by simp)
  | @cons u m t last parts hu hne hm _ ih =>
    generalize ht : u ++ (m ++ t) = text at h'
    cases h' with
    | last hu' =>
      have hnone := hu' u (m ++ t) ht.symm (List.append_ne_nil_of_left_ne_nil hne t)
      rw [List.append_nil, hm] at hnone
      exact absurd hnone (by simp)
    | @cons u' m' t' _ _ hu' hne' hm' h' =>
      have hu : u = u' :=
        (hu.stops_at_match hm' ht).eq_of_length_le (hu'.stops_at_match hm ht.symm).length_le
      subst hu
      have hmt := List.append_cancel_left ht
      rw [← hmt, hm] at hm'
      obtain ⟨rfl, rfl⟩ := List.append_inj hmt (Option.some.inj hm')
      obtain ⟨rfl, rfl⟩ := ih h'
      exact ⟨rfl, rfl⟩

/-! ## Matches are not empty -/

/-- Steps that take the empty text are runs and take every text. -/
theorem Takes.of_nil (h : Takes steps []) (hne : steps ≠ []) (t : Text) : Takes steps t := by
  generalize hs : ([] : Text) = s at h
  induction h generalizing t with
  | nil => exact absurd rfl hne
  | @run rest s' s _ ih =>
    obtain ⟨rfl, rfl⟩ := List.append_eq_nil_iff.mp hs.symm
    rw [← List.append_nil t]
    cases rest with
    | nil => exact .run t .nil
    | cons step rest => exact .run t (ih (List.cons_ne_nil step rest) [] rfl)
  | char => exact absurd hs (by simp)

/-- In front of the end of a text, steps that match take a character. -/
theorem matchLength_pos {n : Nat} (hne : steps ≠ []) (ht : t ≠ [])
    (h : matchLength steps t = some n) : 0 < n := by
  obtain ⟨⟨-, htakes⟩, hmax⟩ := isGreatest_matchLength steps t n h
  refine Nat.pos_of_ne_zero ?_
  rintro rfl
  have hpos := List.length_pos_iff.mpr ht
  have hall : Takes steps (t.take t.length) := Takes.of_nil htakes hne _
  have hle : t.length ≤ 0 := hmax ⟨Nat.le_refl _, hall⟩
  omega

theorem readItems_ne_nil {p : Text} {glob : Glob} (hp : p ≠ []) (h : readItems p = .ok glob) :
    glob ≠ [] := by
  have hmap : ∀ {x : Except BracketFault Glob} {item : Item},
      x.map (item :: ·) = .ok glob → glob ≠ [] := by
    intro x item hx
    obtain ⟨more, -, rfl⟩ := exceptMap_eq_ok hx
    exact List.cons_ne_nil item more
  unfold readItems at h
  split at h
  · exact absurd rfl hp
  · exact hmap h
  · exact hmap h
  · exact hmap h
  · split at h
    · exact hmap h
    · exact absurd h (by simp)
  · exact hmap h

theorem compilePattern_ne_nil {limit : Int} {pattern : Text} (hpattern : pattern ≠ [])
    (h : compilePattern limit pattern = .ok steps) : steps ≠ [] := by
  obtain ⟨glob, hglob, hsteps⟩ := compilePattern_eq_ok h
  rintro rfl
  cases hsteps
  exact readItems_ne_nil hpattern hglob rfl

/-! ## Scanning -/

theorem unmatched_nil (steps : Steps) (rest : Text) : Unmatched steps [] rest := by
  intro v w hvw hw
  exact absurd (List.append_eq_nil_iff.mp hvw.symm).2 hw

theorem unmatched_cons_iff {c : Char} : Unmatched steps (c :: u) rest ↔
    matchLength steps (c :: (u ++ rest)) = none ∧ Unmatched steps u rest := by
  constructor
  · intro h
    refine ⟨h [] (c :: u) rfl (List.cons_ne_nil c u), ?_⟩
    rintro v w rfl hw
    exact h (c :: v) w rfl hw
  · rintro ⟨hc, h⟩ v w hvw hw
    cases v with
    | nil =>
      obtain rfl : c :: u = w := hvw
      exact hc
    | cons d v => exact h v w (List.cons.inj hvw).2 hw

/-- A text can be parted at the matches, if none of them is empty. The induction follows the
scan. -/
theorem exists_parted (hne : steps ≠ []) (t : Text) : ∃ parts last, Parted steps parts last t := by
  fun_induction replaceMatches steps [] true t with
  | case1 => exact ⟨[], [], .last (unmatched_nil steps [])⟩
  | case2 c t n hmatch ih =>
    obtain ⟨parts, last, h⟩ := ih
    obtain ⟨⟨hlen, -⟩, -⟩ := isGreatest_matchLength steps (c :: t) (n + 1) hmatch
    rw [List.length_cons] at hlen
    have hm : matchLength steps (c :: t.take n ++ t.drop n) = some (c :: t.take n).length := by
      rw [List.cons_append, List.take_append_drop, hmatch, List.length_cons, List.length_take]
      congr 1
      omega
    have hparted := Parted.cons (unmatched_nil steps _) (List.cons_ne_nil c _) hm h
    rw [List.nil_append, List.cons_append, List.take_append_drop] at hparted
    exact ⟨_, _, hparted⟩
  | case3 c t hmatch ih =>
    have hnone : matchLength steps (c :: t) = none := by
      cases hm : matchLength steps (c :: t) with
      | none => rfl
      | some n =>
        have hpos := matchLength_pos hne (List.cons_ne_nil c t) hm
        obtain ⟨m, rfl⟩ := Nat.exists_eq_add_one.mpr hpos
        exact (hmatch m hm).elim
    obtain ⟨parts, last, h⟩ := ih
    -- The character belongs to what is skipped.
    cases h with
    | last hu =>
      refine ⟨[], c :: t, .last (unmatched_cons_iff.mpr ⟨?_, hu⟩)⟩
      rwa [List.append_nil]
    | @cons u m t' _ parts hu hm_ne hm h =>
      exact ⟨(c :: u, m) :: parts, last, .cons (unmatched_cons_iff.mpr ⟨hnone, hu⟩) hm_ne hm h⟩

theorem replaceMatches_append (r : Text) (all : Bool) (hu : Unmatched steps u rest) :
    replaceMatches steps r all (u ++ rest) = u ++ replaceMatches steps r all rest := by
  induction u with
  | nil => rfl
  | cons c u ih =>
    obtain ⟨hc, hu⟩ := unmatched_cons_iff.mp hu
    rw [List.cons_append, replaceMatches, hc]
    exact congrArg (c :: ·) (ih hu)

theorem replaceMatches_of_match {m : Text} (r : Text) (all : Bool) (hne : m ≠ [])
    (hm : matchLength steps (m ++ t) = some m.length) :
    replaceMatches steps r all (m ++ t) =
      r ++ if all then replaceMatches steps r all t else t := by
  obtain ⟨c, m, rfl⟩ := List.exists_cons_of_ne_nil hne
  rw [List.cons_append, List.length_cons] at hm
  rw [List.cons_append, replaceMatches, hm]
  show (r ++ if all = true then replaceMatches steps r all ((m ++ t).drop m.length)
    else (m ++ t).drop m.length) = _
  rw [List.drop_left]

/-- All matches give way to the replacement. -/
theorem Parted.replaceMatches_all (h : Parted steps parts last t) (r : Text) :
    replaceMatches steps r true t = joinedWith r parts last := by
  induction h with
  | @last u hu =>
    have hscan := replaceMatches_append r true hu
    rw [List.append_nil] at hscan
    rw [hscan, replaceMatches, List.append_nil]
    rfl
  | cons hu hne hm _ ih =>
    rw [replaceMatches_append r true hu, replaceMatches_of_match r true hne hm, if_pos rfl, ih,
      joinedWith, joinedWith, List.flatMap_cons, List.append_assoc, List.append_assoc]

/-- The first match gives way to the replacement, and what is behind it stays. -/
theorem Parted.replaceMatches_first (h : Parted steps parts last t) (r : Text) :
    replaceMatches steps r false t = joinedWithFirst r parts last := by
  cases h with
  | last hu =>
    have hscan := replaceMatches_append r false hu
    rw [List.append_nil] at hscan
    rw [hscan, replaceMatches, List.append_nil]
    rfl
  | cons hu hne hm h =>
    rw [replaceMatches_append r false hu, replaceMatches_of_match r false hne hm,
      if_neg Bool.false_ne_true, joinedWithFirst, h.joined_eq, List.append_assoc]

/-- A replace spec with a pattern parts the text at the matches of the pattern, in the one way there
is. With every match, or with the first, it puts the replacement in its place and leaves the rest as
it was. Every match in front of the end takes a character. -/
theorem replace_parted {limits : Limits} {origin spec pattern replacement : Text}
    (hspec : Spec.split '/' spec = some (pattern, replacement)) (hpattern : pattern ≠ [])
    (hsteps : compilePattern limits.pattern pattern = .ok steps) :
    (∃! parted : List (Text × Text) × Text, Parted steps parted.1 parted.2 origin) ∧
    (∀ parts last, Parted steps parts last origin →
      origin = joined parts last ∧
      Spec.replace limits origin spec true =
        .ok (joinedWith (Spec.unescape replacement) parts last) ∧
      Spec.replace limits origin spec false =
        .ok (joinedWithFirst (Spec.unescape replacement) parts last)) ∧
    ∀ start n, start < origin.length → matchLength steps (origin.drop start) = some n → 0 < n := by
  have hne := compilePattern_ne_nil hpattern hsteps
  have hreplace : ∀ all, Spec.replace limits origin spec all =
      .ok (replaceMatches steps (Spec.unescape replacement) all origin) := by
    intro all
    rw [Spec.replace, hspec]
    dsimp only
    rw [if_neg (by simpa using hpattern), hsteps]
    rfl
  refine ⟨?_, fun parts last h => ⟨h.joined_eq.symm, ?_, ?_⟩, fun start n hstart hmatch => ?_⟩
  · obtain ⟨parts, last, h⟩ := exists_parted hne origin
    refine ⟨(parts, last), h, ?_⟩
    rintro ⟨parts', last'⟩ h'
    obtain ⟨rfl, rfl⟩ := h'.unique h
    rfl
  · rw [hreplace, h.replaceMatches_all]
  · rw [hreplace, h.replaceMatches_first]
  · refine matchLength_pos hne ?_ hmatch
    rw [ne_eq, List.drop_eq_nil_iff]
    omega

/-- Two matches that touch, and one at the end. -/
theorem replaced_touching_matches :
    Spec.replace {} "aaaxxay".toList "a?/\\/".toList true = .ok "//x/".toList ∧
      Spec.replace {} "aaaxxay".toList "a?/\\/".toList false = .ok "/axxay".toList := by
  have hspec : Spec.split '/' "a?/\\/".toList = some ("a?".toList, "\\/".toList) := by decide
  have hsteps : compilePattern ({} : Limits).pattern "a?".toList = .ok [.exactly 'a', .any] := by
    decide +kernel
  have hparted : Parted [.exactly 'a', .any]
      [([], "aa".toList), ([], "ax".toList), (['x'], "ay".toList)] [] "aaaxxay".toList := by
    have hx : Unmatched [.exactly 'a', .any] ['x'] "ay".toList :=
      unmatched_cons_iff.mpr ⟨rfl, unmatched_nil _ _⟩
    exact .cons (unmatched_nil _ _) (by decide) rfl <| .cons (unmatched_nil _ _) (by decide) rfl <|
      .cons hx (by decide) rfl <| .last (unmatched_nil _ _)
  exact ((replace_parted hspec (by decide) hsteps).2.1 _ _ hparted).2

end EnvScript
