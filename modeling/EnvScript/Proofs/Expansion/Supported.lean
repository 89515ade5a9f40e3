import EnvScript.Proofs.Expansion.Errors
import Mathlib.Data.List.Infix

/-!
# Words that can be expanded

A word has a value only if nothing in it, however deep inside of quotes and specs, is one of the
constructs that are always refused, and every parameter in it is a variable that is set. Of such a
word only an operation can make the expansion fail, by what it finds in its spec.
-/

namespace EnvScript

/-- The parts that are refused wherever they stand. -/
def Part.isRefused : Part → Bool
  | .glob _ | .tilde _ | .command .. | .arithmetic _ | .unsupported .. | .specless .. => true
  | _ => false

/-- The parameter whose value the part asks for. -/
def Part.parameter? : Part → Option Parameter
  | .parameter p | .substitution p _ _ | .specless p _ | .unsupported p _ => some p
  | _ => none

/-- The parameter is a variable that has a value. -/
def Parameter.IsSet (c : Context) (p : Parameter) : Prop :=
  ∃ name value, p = .var name ∧ c.get? name = some value

def Part.Supported (c : Context) (q : Part) : Prop :=
  q.isRefused = false ∧ ∀ p, q.parameter? = some p → p.IsSet c

/-- Every part of the word is supported, at any depth. -/
def Word.Supported (c : Context) (w : Word) : Prop := ∀ q : Part, q.Occurs w → q.Supported c

/-! ## What a computation requires -/

/-- The computation fails without `S`, and with it only because of what a spec says. -/
structure Requires {α : Type} (x : Except EvalError α) (S : Prop) : Prop where
  of_ok : ∀ a, x = .ok a → S
  errs : S → Errs x fun e => e.IsOfSpec ∨ ∃ n, e = .oversizedNumeral n

section

variable {α β : Type} {x : Except EvalError α} {S S' : Prop}

theorem requires_ok (a : α) (h : S) : Requires (.ok a) S := ⟨fun _ _ => h, fun _ => errs_ok a⟩

theorem requires_error (e : EvalError) (h : ¬ S) : Requires (.error e : Except EvalError α) S :=
  ⟨fun _ heq => absurd heq (by simp), fun hS => absurd hS h⟩

theorem Requires.congr (h : Requires x S) (hS : S ↔ S') : Requires x S' :=
  ⟨fun a ha => hS.mp (h.of_ok a ha), fun hS' => h.errs (hS.mpr hS')⟩

theorem Requires.bind {f : α → Except EvalError β} (h : Requires x S)
    (hf : ∀ a, Requires (f a) S') : Requires (x >>= f) (S ∧ S') := by
  constructor
  · intro b hb
    obtain ⟨a, ha, hfa⟩ := exceptBind_eq_ok hb
    exact ⟨h.of_ok a ha, (hf a).of_ok b hfa⟩
  · rintro ⟨hS, hS'⟩
    exact (h.errs hS).bind fun a _ => (hf a).errs hS'

theorem Requires.map (h : Requires x S) (f : α → β) : Requires (x.map f) S := by
  constructor
  · intro b hb
    obtain ⟨a, ha, -⟩ := exceptMap_eq_ok hb
    exact h.of_ok a ha
  · exact fun hS => (h.errs hS).map f

end

section

variable {limits : Limits} {c : Context}

theorem isSet_var_iff {name : Text} :
    (Parameter.var name).IsSet c ↔ ∃ value, c.get? name = some value := by
  simp [Parameter.IsSet]

theorem not_isSet_special (symbol : Text) : ¬ (Parameter.special symbol).IsSet c := by
  simp [Parameter.IsSet]

theorem requires_value (p : Parameter) : Requires (p.value c) (p.IsSet c) := by
  cases p with
  | special symbol => exact requires_error _ (not_isSet_special symbol)
  | var name =>
    rw [Parameter.value, isSet_var_iff]
    cases hname : c.get? name with
    | some value => exact requires_ok value ⟨value, rfl⟩
    | none => exact requires_error _ (by simp)

theorem requires_origin (p : Parameter) : Requires (p.origin c) (p.IsSet c) := by
  cases p with
  | special symbol => exact requires_error _ (not_isSet_special symbol)
  | var name =>
    rw [Parameter.origin, isSet_var_iff]
    cases hname : c.get? name with
    | some value => exact requires_ok value ⟨value, rfl⟩
    | none => exact requires_error _ (by simp)

theorem requires_apply (origin spec : Text) (op : Operation) :
    Requires (op.apply limits origin spec) True := by
  refine ⟨fun _ _ => trivial, fun _ => ?_⟩
  cases op with
  | replace => exact (errs_replace origin spec false).mono fun _ => .inl
  | replaceAll => exact (errs_replace origin spec true).mono fun _ => .inl
  | substring =>
    refine (errs_substring origin spec).mono fun e he => he.imp_right ?_
    rintro ⟨n, he, -⟩
    exact ⟨n, he⟩

/-! ## Supported words -/

theorem supported_nil : Word.Supported c [] := fun q hq => absurd hq q.not_occurs_nil

theorem supported_cons_iff {part : Part} {w : Word} :
    Word.Supported c (part :: w) ↔ Word.Supported c [part] ∧ Word.Supported c w := by
  unfold Word.Supported
  rw [← forall_and]
  exact forall_congr' fun q => (imp_congr_left Part.occurs_cons_iff).trans or_imp

/-- A part without other parts inside. -/
theorem supported_single_iff {part : Part} (hdouble : ∀ parts, part ≠ .double parts)
    (hoperand : ∀ p op raw, part ≠ .substitution p op raw) :
    Word.Supported c [part] ↔ part.Supported c := by
  unfold Word.Supported
  simp only [Part.occurs_single_iff, hdouble, hoperand, false_and, exists_false, or_false,
    forall_eq]

theorem supported_double_iff {parts : Word} :
    Word.Supported c [.double parts] ↔ Word.Supported c parts := by
  have hself : (Part.double parts).Supported c :=
    ⟨rfl, fun p hp => absurd hp (by simp [Part.parameter?])⟩
  unfold Word.Supported
  simp [Part.occurs_single_iff, or_imp, forall_and, hself]

theorem supported_substitution_iff {p : Parameter} {op : Operation} {raw : Word} :
    Word.Supported c [.substitution p op raw] ↔ p.IsSet c ∧ Word.Supported c raw := by
  have hself : (Part.substitution p op raw).Supported c ↔ p.IsSet c := by
    simp [Part.Supported, Part.isRefused, Part.parameter?]
  unfold Word.Supported
  simp [Part.occurs_single_iff, or_imp, forall_and, hself]

theorem not_supported_of_isRefused {part : Part} (h : part.isRefused = true) :
    ¬ Word.Supported c [part] := by
  intro hsupported
  rw [(hsupported part (.here List.mem_cons_self)).1] at h
  exact absurd h (by decide)

/-! ## Expansions -/

/-- A substitution needs its variable and what its spec needs. -/
theorem requires_substitution (p : Parameter) (op : Operation) (raw : Word)
    (hraw : Requires (expandSpec limits c false raw) (Word.Supported c raw))
    {f : Text → Text → Except EvalError Text}
    (hf : ∀ origin spec, Requires (f origin spec) True) :
    Requires (do
        let origin ← p.origin c
        let spec ← expandSpec limits c false raw
        f origin spec)
      (Word.Supported c [.substitution p op raw]) := by
  have hspec : ∀ origin, Requires (do
      let spec ← expandSpec limits c false raw
      f origin spec) (Word.Supported c raw ∧ True) :=
    fun origin => hraw.bind fun spec => hf origin spec
  refine ((requires_origin p).bind hspec).congr ?_
  rw [supported_substitution_iff, and_true]

theorem requires_specless (p : Parameter) (op : Operation) :
    Requires (do
        discard (p.origin c)
        throw EvalError.missingSpec : Except EvalError Text)
      (Word.Supported c [.specless p op]) := by
  have hrefused : ∀ _ : Unit, Requires (throw .missingSpec : Except EvalError Text) False :=
    fun _ => requires_error _ id
  refine (((requires_origin p).map _).bind hrefused).congr ?_
  exact ⟨fun h => h.2.elim, fun h => absurd h (not_supported_of_isRefused rfl)⟩

mutual

theorem requires_expandPart (limits : Limits) (c : Context) :
    (part : Part) → Requires (expandPart limits c part) (Word.Supported c [part])
  | .literal _ | .single _ | .escaped _ | .colon => by
    rw [expandPart, supported_single_iff (by simp) (by simp)]
    exact requires_ok _ ⟨rfl, fun _ hp => absurd hp (by simp [Part.parameter?])⟩
  | .unsupported .. | .glob _ | .tilde _ | .command .. | .arithmetic _ => by
    rw [expandPart]
    exact requires_error _ (not_supported_of_isRefused rfl)
  | .parameter p => by
    rw [expandPart, supported_single_iff (by simp) (by simp)]
    exact (requires_value p).congr (by simp [Part.Supported, Part.isRefused, Part.parameter?])
  | .specless p op => by
    rw [expandPart]
    exact requires_specless p op
  | .double parts => by
    rw [expandPart, supported_double_iff]
    exact requires_expandWord limits c parts
  | .substitution p op raw => by
    rw [expandPart]
    exact requires_substitution p op raw (requires_expandSpec limits c false raw) fun origin spec =>
      requires_apply origin spec op

theorem requires_expandWord (limits : Limits) (c : Context) :
    (w : List Part) → Requires (expandWord limits c w) (Word.Supported c w)
  | [] => by
    rw [expandWord]
    exact requires_ok [] supported_nil
  | part :: parts => by
    rw [expandWord, supported_cons_iff]
    refine (requires_expandPart limits c part).bind fun text => ?_
    exact (requires_expandWord limits c parts).map (text ++ ·)

theorem requires_expandSpecPart (limits : Limits) (c : Context) (quoted : Bool) :
    (part : Part) →
      Requires (expandSpecPart limits c quoted part) (Word.Supported c [part])
  | .literal _ | .single _ | .escaped _ | .colon => by
    rw [expandSpecPart, supported_single_iff (by simp) (by simp)]
    exact requires_ok _ ⟨rfl, fun _ hp => absurd hp (by simp [Part.parameter?])⟩
  | .unsupported .. | .glob _ | .tilde _ | .command .. | .arithmetic _ => by
    rw [expandSpecPart]
    exact requires_error _ (not_supported_of_isRefused rfl)
  | .parameter p => by
    rw [expandSpecPart, supported_single_iff (by simp) (by simp)]
    refine ((requires_value p).map _).congr ?_
    simp [Part.Supported, Part.isRefused, Part.parameter?]
  | .specless p op => by
    rw [expandSpecPart]
    exact requires_specless p op
  | .double parts => by
    rw [expandSpecPart, supported_double_iff]
    exact requires_expandSpec limits c true parts
  | .substitution p op raw => by
    rw [expandSpecPart]
    exact requires_substitution p op raw (requires_expandSpec limits c false raw) fun origin spec =>
      (requires_apply origin spec op).map _

theorem requires_expandSpec (limits : Limits) (c : Context) (quoted : Bool) :
    (w : List Part) → Requires (expandSpec limits c quoted w) (Word.Supported c w)
  | [] => by
    rw [expandSpec]
    exact requires_ok [] supported_nil
  | part :: parts => by
    rw [expandSpec, supported_cons_iff]
    refine (requires_expandSpecPart limits c quoted part).bind fun text => ?_
    exact (requires_expandSpec limits c quoted parts).map (text ++ ·)

end

end

/-- A word has a value only if everything in it is supported, and of a word in which everything is
supported only an operation can make the expansion fail: its spec is malformed, its pattern is, or
its numeral is too long to be read. -/
theorem expandWord_supported (limits : Limits) (c : Context) (w : Word) :
    (∀ text, expandWord limits c w = .ok text → w.Supported c) ∧
      (w.Supported c → ∀ e, expandWord limits c w = .error e →
        e.category = some .substitution ∨ e.category = some .glob ∨ e.category = some .regex ∨
          ∃ n, e = .oversizedNumeral n) := by
  have hrequires := requires_expandWord limits c w
  refine ⟨hrequires.of_ok, fun hsupported e he => ?_⟩
  rcases hrequires.errs hsupported e he with (h | h | h) | h
  · exact .inl h
  · exact .inr (.inl h)
  · exact .inr (.inr (.inl h))
  · exact .inr (.inr (.inr h))

/-- A word whose pattern is a variable in quotes has a value. Without the quotes the variable is a
bracket that is never closed, though everything in the word is supported. -/
theorem supported_pattern_variable :
    (expandWord {} (.ofPairs [(['A'], "a[b".toList), (['B'], ['['])])
        [.double [.substitution (.var ['A']) .replaceAll
          [.double [.parameter (.var ['B'])], .literal "/x".toList]]] = .ok "axb".toList ∧
      Word.Supported (.ofPairs [(['A'], "a[b".toList), (['B'], ['['])])
        [.double [.substitution (.var ['A']) .replaceAll
          [.double [.parameter (.var ['B'])], .literal "/x".toList]]]) ∧
    Word.Supported (.ofPairs [(['A'], "a[b".toList), (['B'], ['['])])
      [.substitution (.var ['A']) .replaceAll [.parameter (.var ['B']), .literal "/x".toList]] ∧
    expandWord {} (.ofPairs [(['A'], "a[b".toList), (['B'], ['['])])
      [.substitution (.var ['A']) .replaceAll [.parameter (.var ['B']), .literal "/x".toList]] =
        .error (.unterminatedBracket ['[']) ∧
    ∃ category ∈ [Category.substitution, .glob, .regex],
      (EvalError.unterminatedBracket ['[']).category = some category := by
  have hvalue : expandWord {} (.ofPairs [(['A'], "a[b".toList), (['B'], ['['])])
      [.double [.substitution (.var ['A']) .replaceAll
        [.double [.parameter (.var ['B'])], .literal "/x".toList]]] = .ok "axb".toList := by
    decide +kernel
  have herror : expandWord {} (.ofPairs [(['A'], "a[b".toList), (['B'], ['['])])
      [.substitution (.var ['A']) .replaceAll [.parameter (.var ['B']), .literal "/x".toList]] =
        .error (.unterminatedBracket ['[']) := by decide +kernel
  have hsupported : Word.Supported (.ofPairs [(['A'], "a[b".toList), (['B'], ['['])])
      [.substitution (.var ['A']) .replaceAll [.parameter (.var ['B']), .literal "/x".toList]] := by
    rw [supported_substitution_iff, supported_cons_iff, supported_single_iff (by simp) (by simp),
      supported_single_iff (by simp) (by simp)]
    refine ⟨isSet_var_iff.mpr ⟨"a[b".toList, by decide +kernel⟩, ⟨rfl, ?_⟩, rfl, ?_⟩
    · rintro p hp
      obtain rfl := Option.some.inj hp
      exact isSet_var_iff.mpr ⟨['['], by decide +kernel⟩
    · exact fun p hp => absurd hp (by simp [Part.parameter?])
  refine ⟨⟨hvalue, (expandWord_supported _ _ _).1 _ hvalue⟩, hsupported, herror, ?_⟩
  rcases (expandWord_supported _ _ _).2 hsupported _ herror with h | h | h | ⟨n, h⟩
  · exact ⟨_, by simp, h⟩
  · exact ⟨_, by simp, h⟩
  · exact ⟨_, by simp, h⟩
  · exact absurd h (by simp)

end EnvScript
