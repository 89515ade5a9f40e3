import EnvScript.Proofs.Glob.NamedClass
import EnvScript.Proofs.Replacement.Language
import EnvScript.Proofs.Spec.Active

/-!
# Replacing active text that literal text follows

The pattern of a replacement may begin with text whose wildcards count and go on with escaped text.
It then matches what the one matches, followed by the other.
-/

namespace EnvScript

/-! ## Steps -/

/-- Where the members of a class stand matters for the report of a reversed range only. -/
theorem membersOf_elsewhere {regex : Text} {index : Nat} {atoms : List Atom}
    {members : List Member} (h : membersOf regex index atoms = .ok members) (regex' : Text)
    (index' : Nat) : membersOf regex' index' atoms = .ok members :=
  (grouped_of_membersOf h).membersOf regex' index'

theorem Item.CompilesTo.stepsOf_cons {item : Item} {step : Step} (h : item.CompilesTo step)
    (regex : Text) (index : Nat) (glob : Glob) :
    stepsOf regex index (item :: glob) =
      (stepsOf regex (index + item.regex.length) glob).map (step :: ·) := by
  cases h with
  | run => rfl
  | any => rfl
  | exactly => rfl
  | bracket negated hmembers =>
    rw [stepsOf, membersOf_elsewhere hmembers]
    rfl

theorem stepsOf_of_forall₂ {glob : Glob} {steps : Steps}
    (h : List.Forall₂ Item.CompilesTo glob steps) (regex : Text) (index : Nat) :
    stepsOf regex index glob = .ok steps := by
  induction h generalizing index with
  | nil => rfl
  | cons hstep _ ih =>
    rw [hstep.stepsOf_cons, ih]
    rfl

theorem forall₂_map_exactly (s : Text) :
    List.Forall₂ Item.CompilesTo (s.map .exactly) (s.map .exactly) := by
  induction s with
  | nil => exact .nil
  | cons c s ih => exact .cons (.exactly c) ih

/-- Steps that a text follows take what the steps take, followed by that text. -/
theorem takes_append_exactly (steps : Steps) (s t : Text) :
    Takes (steps ++ s.map .exactly) t ↔ ∃ u, Takes steps u ∧ t = u ++ s := by
  induction steps generalizing t with
  | nil =>
    rw [List.nil_append]
    constructor
    · intro h
      refine ⟨[], .nil, ?_⟩
      induction s generalizing t with
      | nil =>
        cases h
        rfl
      | cons c s ih =>
        rw [List.map_cons, takes_exactly_iff] at h
        obtain ⟨t, rfl, ht⟩ := h
        rw [ih t ht]
        rfl
    · rintro ⟨u, hu, rfl⟩
      cases hu
      induction s with
      | nil => exact .nil
      | cons c s ih => exact (takes_exactly_iff _ _ c).mpr ⟨_, rfl, ih⟩
  | cons step steps ih =>
    rw [List.cons_append]
    constructor
    · intro h
      cases h with
      | run r h =>
        obtain ⟨u, hu, rfl⟩ := (ih _).mp h
        exact ⟨r ++ u, .run r hu, (List.append_assoc ..).symm⟩
      | char hc h =>
        obtain ⟨u, hu, rfl⟩ := (ih _).mp h
        exact ⟨_, .char hc hu, rfl⟩
    · rintro ⟨u, hu, rfl⟩
      cases hu with
      | run r hu =>
        rw [List.append_assoc]
        exact .run r ((ih _).mpr ⟨_, hu, rfl⟩)
      | char hc hu => exact .char hc ((ih _).mpr ⟨_, hu, rfl⟩)

/-! ## The replacement -/

section

variable {limits : Limits} {v q : Text}

/-- The texts that the wildcards of `v` match, each followed by `q`. -/
def FollowedBy (v q : Text) (t : Text) : Prop := ∃ a, InLanguage v a ∧ t = a ++ q

theorem compilePattern_append_escape {limit : Int} {steps : Steps}
    (h : compilePattern limit v = .ok steps) (hends : Spec.endsEscaping v = false)
    (hlimit : ∀ g, Glob.ofPattern (v ++ Spec.escape q) = .ok g →
      (g.regex.length : Int) ≤ limits.pattern) :
    compilePattern limits.pattern (v ++ Spec.escape q) = .ok (steps ++ q.map .exactly) := by
  obtain ⟨glob, hglob, hsteps⟩ := compilePattern_eq_ok h
  have hitems : Glob.ofPattern (v ++ Spec.escape q) = .ok (glob ++ q.map .exactly) := by
    rw [Glob.ofPattern, readItems_append_escape hglob hends]
    rfl
  have hall := List.rel_append hsteps (forall₂_map_exactly q)
  rw [compilePattern, hitems]
  show (if limits.pattern < ((Glob.regex (glob ++ q.map .exactly)).length : Int) then _ else _) = _
  rw [if_neg (Int.not_lt.mpr (hlimit _ hitems)), stepsOf_of_forall₂ hall]
  rfl

theorem replaced_append_escape {limit : Int} {steps : Steps} (o r : Text) (hne : v ≠ [])
    (hslash : '/' ∉ v) (h : compilePattern limit v = .ok steps)
    (hends : Spec.endsEscaping v = false)
    (hlimit : ∀ g, Glob.ofPattern (v ++ Spec.escape q) = .ok g →
      (g.regex.length : Int) ≤ limits.pattern) :
    ∃ w, Spec.replace limits o (v ++ Spec.escape q ++ '/' :: Spec.escape r) true = .ok w ∧
      ReplacedIn (FollowedBy v q) r true o w := by
  obtain ⟨glob, hglob, hsteps⟩ := compilePattern_eq_ok h
  have hlanguage : Takes (steps ++ q.map .exactly) = FollowedBy v q := by
    funext t
    rw [takes_append_exactly]
    simp only [takes_iff_inLanguage hglob hsteps]
    rfl
  have hreplaced := replacedIn_replaceMatches (steps ++ q.map .exactly) r true o
  rw [hlanguage] at hreplaced
  refine ⟨_, ?_, hreplaced⟩
  have hsplit : Spec.split '/' (v ++ Spec.escape q ++ '/' :: Spec.escape r) =
      some (v ++ Spec.escape q, Spec.escape r) := by
    rw [List.append_assoc, Spec.split_append hslash hends,
      Spec.split_escape_append '/' q _ (by decide) (by decide)]
    rfl
  rw [Spec.replace, hsplit]
  dsimp only
  rw [if_neg (by simp [hne]), compilePattern_append_escape h hends hlimit, Spec.unescape_escape]
  rfl

end

end EnvScript
