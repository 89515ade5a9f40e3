import EnvScript.Proofs.Expansion.Errors
import EnvScript.Proofs.Spec.Escape

/-!
# Words as specs

A word is expanded in two ways, to the text it stands for and to a spec. Both ways fail alike. In a
spec a backslash stands in front of what is quoted or escaped in the word, and with these
backslashes taken off, the spec is the text, unless an unquoted part has brought in a backslash.
-/

namespace EnvScript

/-! ## The text of a spec -/

/-- Unescaping turns the spec into the text, whatever follows it. -/
def Spec.StandsFor (spec text : Text) : Prop :=
  ∀ t, Spec.unescape (spec ++ t) = text ++ Spec.unescape t

namespace Spec

variable {spec spec' text text' s : Text}

theorem StandsFor.unescape (h : StandsFor spec text) : Spec.unescape spec = text := by
  have hnil := h []
  rwa [List.append_nil, show Spec.unescape [] = [] from rfl, List.append_nil] at hnil

theorem standsFor_nil : StandsFor [] [] := fun _ => rfl

theorem StandsFor.append (h : StandsFor spec text) (h' : StandsFor spec' text') :
    StandsFor (spec ++ spec') (text ++ text') := by
  intro t
  rw [List.append_assoc, h, h', List.append_assoc]

/-- A backslash escapes the character behind it and nothing more. -/
theorem standsFor_backslash (x : Char) : StandsFor ['\\', x] [x] := fun _ => rfl

theorem standsFor_plain {x : Char} (hx : x ≠ '\\') : StandsFor [x] [x] :=
  fun t => unescape_cons x t hx

theorem standsFor_self (h : '\\' ∉ s) : StandsFor s s := by
  induction s with
  | nil => exact standsFor_nil
  | cons x s ih =>
    have hx : x ≠ '\\' := (List.ne_of_not_mem_cons h).symm
    exact (standsFor_plain hx).append (ih (List.not_mem_of_not_mem_cons h))

theorem standsFor_escape (s : Text) : StandsFor (escape s) s := by
  induction s with
  | nil => exact standsFor_nil
  | cons x s ih =>
    have hhead : StandsFor (if isActive x = true then ['\\', x] else [x]) [x] := by
      by_cases hx : isActive x = true
      · rw [if_pos hx]
        exact standsFor_backslash x
      · rw [if_neg hx]
        exact standsFor_plain (ne_backslash_of_not_isActive hx)
    rw [escape_cons]
    exact hhead.append ih

end Spec

theorem standsFor_escapedSpec {t : Text} (ht : t.length = 1) :
    Spec.StandsFor (escapedSpec t) (escapedText t) := by
  obtain ⟨x, rfl⟩ := List.length_eq_one_iff.mp ht
  unfold escapedSpec escapedText
  split
  · exact Spec.standsFor_nil
  · exact Spec.standsFor_backslash x

/-! ## Two computations that fail alike -/

/-- Both computations fail with the same error, or they give results that `R` relates. -/
inductive FailAlike (R : Text → Text → Prop) : Except EvalError Text → Except EvalError Text → Prop
  | ok {a b : Text} (h : R a b) : FailAlike R (.ok a) (.ok b)
  | error (e : EvalError) : FailAlike R (.error e) (.error e)

section

variable {R R' R'' : Text → Text → Prop} {x y x' y' : Except EvalError Text}

theorem FailAlike.mono (h : FailAlike R x y) (hR : ∀ a b, R a b → R' a b) : FailAlike R' x y := by
  cases h with
  | ok h => exact .ok (hR _ _ h)
  | error e => exact .error e

theorem failAlike_map {f : Text → Text} (h : ∀ a, x = .ok a → R (f a) a) :
    FailAlike R (x.map f) x := by
  cases x with
  | ok a => exact .ok (h a rfl)
  | error e => exact .error e

/-- The results of two computations in a row, one behind the other. -/
theorem FailAlike.append (h : FailAlike R x y) (h' : FailAlike R' x' y')
    (hR : ∀ a b a' b', R a b → R' a' b' → R'' (a ++ a') (b ++ b')) :
    FailAlike R'' (do return (← x) ++ (← x')) (do return (← y) ++ (← y')) := by
  cases h with
  | error e => exact .error e
  | ok h =>
    cases h' with
    | error e => exact .error e
    | ok h' => exact .ok (hR _ _ _ _ h h')

theorem FailAlike.error_iff (h : FailAlike R x y) (e : EvalError) :
    x = .error e ↔ y = .error e := by
  cases h with
  | ok h => simp
  | error e' => rfl

theorem FailAlike.map_eq {f : Text → Text} (h : FailAlike (fun a b => f a = b) x y) :
    x.map f = y := by
  cases h with
  | ok h => exact congrArg Except.ok h
  | error e => rfl

end

/-! ## The two expansions -/

/-- Neither the text of the part nor its value has a backslash. -/
def Part.BringsNoBackslash (limits : Limits) (c : Context) (part : Part) : Prop :=
  match part with
  | .literal text => '\\' ∉ text
  | .parameter _ | .substitution .. => ∀ value, expandPart limits c part = .ok value → '\\' ∉ value
  | _ => True

/-- Whatever the word has escaped, at any depth, is one character. -/
def Word.EscapesSingly (w : Word) : Prop := ∀ t, (Part.escaped t).Occurs w → t.length = 1

section

variable {limits : Limits} {c : Context} {quoted : Bool} {part : Part} {w parts : Word}

theorem escapesSingly_cons_iff :
    Word.EscapesSingly (part :: w) ↔ Word.EscapesSingly [part] ∧ Word.EscapesSingly w := by
  unfold Word.EscapesSingly
  rw [← forall_and]
  exact forall_congr' fun t => (imp_congr_left Part.occurs_cons_iff).trans or_imp

theorem Word.EscapesSingly.of_double (h : Word.EscapesSingly [.double parts]) :
    Word.EscapesSingly parts :=
  fun t ht => h t (.double List.mem_cons_self ht)

/-- What is quoted is escaped in the spec, and what is not has no backslash. -/
theorem standsFor_quotedSpec {s : Text} (h : quoted = true ∨ '\\' ∉ s) :
    Spec.StandsFor (quotedSpec quoted s) s := by
  cases quoted with
  | true => exact Spec.standsFor_escape s
  | false => exact Spec.standsFor_self (h.resolve_left Bool.false_ne_true)

/-- The spec of a substitution's value is that value, quoted or not. -/
theorem expandSpecPart_substitution (p : Parameter) (op : Operation) (raw : Word) :
    expandSpecPart limits c quoted (.substitution p op raw) =
      (expandPart limits c (.substitution p op raw)).map (quotedSpec quoted) := by
  rw [expandSpecPart, expandPart]
  cases p.origin c with
  | error e => rfl
  | ok origin =>
    cases expandSpec limits c false raw with
    | error e => rfl
    | ok spec => rfl

/-- What makes the spec of a part stand for the part's text. -/
def Part.Unescapes (limits : Limits) (c : Context) (quoted : Bool) (part : Part)
    (spec text : Text) : Prop :=
  Word.EscapesSingly [part] → (quoted = true ∨ part.BringsNoBackslash limits c) →
    Spec.StandsFor spec text

mutual

theorem failAlike_expandSpecPart (limits : Limits) (c : Context) (quoted : Bool) : (part : Part) →
    FailAlike (part.Unescapes limits c quoted) (expandSpecPart limits c quoted part)
      (expandPart limits c part)
  | .literal text => by
    rw [expandSpecPart, expandPart]
    exact .ok fun _ hbare => standsFor_quotedSpec hbare
  | .single text => by
    rw [expandSpecPart, expandPart]
    exact .ok fun _ _ => Spec.standsFor_escape text
  | .escaped text => by
    rw [expandSpecPart, expandPart]
    apply FailAlike.ok
    intro hescapes _
    exact standsFor_escapedSpec (hescapes text (.here List.mem_cons_self))
  | .double parts => by
    rw [expandSpecPart, expandPart]
    apply (failAlike_expandSpec limits c true parts).mono
    intro spec text h hescapes _
    exact h hescapes.of_double (.inl rfl)
  | .colon => by
    rw [expandSpecPart, expandPart]
    exact .ok fun _ _ => Spec.standsFor_plain (by decide)
  | .parameter p => by
    rw [expandSpecPart, expandPart]
    apply failAlike_map
    intro value hvalue _ hbare
    exact standsFor_quotedSpec (hbare.imp_right fun h => h value (by rw [expandPart, hvalue]))
  | .substitution p op raw => by
    rw [expandSpecPart_substitution]
    apply failAlike_map
    intro value hvalue _ hbare
    exact standsFor_quotedSpec (hbare.imp_right fun h => h value hvalue)
  | .specless p op => by
    rw [expandSpecPart, expandPart]
    cases p.origin c with
    | error e => exact .error e
    | ok origin => exact .error .missingSpec
  | .unsupported .. | .glob _ | .tilde _ | .command .. | .arithmetic _ => by
    rw [expandSpecPart, expandPart]
    exact .error _

theorem failAlike_expandSpec (limits : Limits) (c : Context) (quoted : Bool) : (w : List Part) →
    FailAlike (fun spec text => Word.EscapesSingly w →
        (quoted = true ∨ ∀ part ∈ w, part.BringsNoBackslash limits c) → Spec.StandsFor spec text)
      (expandSpec limits c quoted w) (expandWord limits c w)
  | [] => by
    rw [expandSpec, expandWord]
    exact .ok fun _ _ => Spec.standsFor_nil
  | part :: parts => by
    rw [expandSpec, expandWord]
    apply (failAlike_expandSpecPart limits c quoted part).append
      (failAlike_expandSpec limits c quoted parts)
    intro spec text spec' text' h h' hescapes hbare
    obtain ⟨hpart, hparts⟩ := escapesSingly_cons_iff.mp hescapes
    have hbare' := hbare.imp_right List.forall_mem_cons.mp
    exact (h hpart (hbare'.imp_right And.left)).append (h' hparts (hbare'.imp_right And.right))

end

end

/-- The two expansions of a word fail alike. A spec of a word without unquoted backslashes is the
text of the word once the backslashes are taken off. -/
theorem expandSpec_unescapes (limits : Limits) (c : Context) (w : Word) :
    (∀ e, expandSpec limits c false w = .error e ↔ expandWord limits c w = .error e) ∧
      (w.EscapesSingly → (∀ part ∈ w, part.BringsNoBackslash limits c) →
        (expandSpec limits c false w).map Spec.unescape = expandWord limits c w) := by
  have halike := failAlike_expandSpec limits c false w
  constructor
  · exact halike.error_iff
  · intro hescapes hbare
    apply FailAlike.map_eq
    apply halike.mono
    intro spec text h
    exact (h hescapes (.inr hbare)).unescape

/-- An escaped separator, a quoted wildcard in a variable, and a substitution outside of quotes. -/
theorem unescaped_wildcard_and_separator : ∃ w : Word,
    w = [.escaped ['/'], .double [.parameter (.var ['Q'])],
        .substitution (.var ['Q']) .replace [.literal "x/:".toList]] ∧
      w.EscapesSingly ∧
      expandSpec {} (.ofPairs [(['Q'], "*x".toList)]) false w = .ok "\\/\\*x*:".toList ∧
      expandWord {} (.ofPairs [(['Q'], "*x".toList)]) w = .ok "/*x*:".toList ∧
      (expandSpec {} (.ofPairs [(['Q'], "*x".toList)]) false w).map Spec.unescape =
        expandWord {} (.ofPairs [(['Q'], "*x".toList)]) w := by
  have hescapes : Word.EscapesSingly [.escaped ['/'], .double [.parameter (.var ['Q'])],
      .substitution (.var ['Q']) .replace [.literal "x/:".toList]] := by
    apply escapesSingly_cons_iff.mpr ⟨?_, escapesSingly_cons_iff.mpr ⟨?_, ?_⟩⟩
    · intro t ht
      simp [Part.occurs_single_iff] at ht
      exact ht ▸ rfl
    · intro t ht
      simp [Part.occurs_single_iff] at ht
    · intro t ht
      simp only [Part.occurs_single_iff] at ht
      rcases ht with h | ⟨_, h, _⟩ | ⟨_, _, _, h, hocc⟩
      · cases h
      · cases h
      · cases h
        simp [Part.occurs_single_iff] at hocc
  have hvalue : expandPart {} (.ofPairs [(['Q'], "*x".toList)])
      (.substitution (.var ['Q']) .replace [.literal "x/:".toList]) = .ok "*:".toList := by
    with_unfolding_all rfl
  refine ⟨_, rfl, hescapes, by with_unfolding_all rfl, by with_unfolding_all rfl, ?_⟩
  apply (expandSpec_unescapes _ _ _).2 hescapes
  intro part hpart
  simp only [List.mem_cons, List.not_mem_nil, or_false] at hpart
  rcases hpart with rfl | rfl | rfl
  · trivial
  · trivial
  · intro value h
    rw [hvalue] at h
    exact Except.ok.inj h ▸ by decide

end EnvScript
