import EnvScript.Proofs.Evaluation

/-!
# Errors of an evaluation

An error of an evaluation has a category, unless a substring operation has been given a numeral that
is too long to be read. `Oversized` tells where in a word such an operation stands.
-/

namespace EnvScript

/-! ## Computations and their errors -/

/-- An error of the computation is one of `E`. -/
def Errs {α : Type} (x : Except EvalError α) (E : EvalError → Prop) : Prop :=
  ∀ e, x = .error e → E e

section

variable {α β ε : Type} {x : Except EvalError α} {E E' : EvalError → Prop}

theorem errs_ok (a : α) : Errs (.ok a) E := fun _ h => absurd h (by simp)

theorem errs_error {e : EvalError} (h : E e) : Errs (.error e : Except EvalError α) E :=
  fun _ heq => Except.error.inj heq ▸ h

theorem Errs.mono (h : Errs x E) (hE : ∀ e, E e → E' e) : Errs x E' :=
  fun e he => hE e (h e he)

theorem Errs.bind {f : α → Except EvalError β} (h : Errs x E)
    (hf : ∀ a, x = .ok a → Errs (f a) E) : Errs (x >>= f) E := by
  cases x with
  | error e => exact errs_error (h e rfl)
  | ok a => exact hf a rfl

theorem Errs.map (h : Errs x E) (f : α → β) : Errs (x.map f) E := by
  cases x with
  | error e => exact errs_error (h e rfl)
  | ok a => exact errs_ok _

theorem errs_mapError {f : ε → EvalError} (y : Except ε α) (h : ∀ e, E (f e)) :
    Errs (y.mapError f) E := by
  cases y with
  | error e => exact errs_error (h e)
  | ok a => exact errs_ok a

end

/-- What an operation may report of the spec that it is given. -/
def EvalError.IsOfSpec (e : EvalError) : Prop :=
  e.category = some .substitution ∨ e.category = some .glob ∨ e.category = some .regex

theorem EvalError.IsOfSpec.isSome_category {e : EvalError} (h : e.IsOfSpec) :
    e.category.isSome = true := by
  rcases h with h | h | h <;> rw [h] <;> rfl

/-! ## Where numerals are read -/

/-- The part is one of the word's, or it stands inside of one, at any depth. -/
inductive Part.Occurs (q : Part) : Word → Prop
  | here {w : Word} (h : q ∈ w) : Occurs q w
  | double {w parts : Word} (h : .double parts ∈ w) (hq : Occurs q parts) : Occurs q w
  | operand {w raw : Word} {p : Parameter} {op : Operation} (h : .substitution p op raw ∈ w)
      (hq : Occurs q raw) : Occurs q w

theorem Part.Occurs.mono {q : Part} {w w' : Word} (h : q.Occurs w) (hw : w ⊆ w') :
    q.Occurs w' := by
  cases h with
  | here h => exact .here (hw h)
  | double h hq => exact .double (hw h) hq
  | operand h hq => exact .operand (hw h) hq

theorem Part.not_occurs_nil (q : Part) : ¬ q.Occurs [] := by
  intro h
  cases h with
  | here h => exact List.not_mem_nil h
  | double h _ => exact List.not_mem_nil h
  | operand h _ => exact List.not_mem_nil h

theorem Part.occurs_cons_iff {q part : Part} {w : Word} :
    q.Occurs (part :: w) ↔ q.Occurs [part] ∨ q.Occurs w := by
  constructor
  · intro h
    cases h with
    | here h => exact (List.mem_cons.mp h).imp (fun h => .here (List.mem_singleton.mpr h)) .here
    | double h hq =>
      exact (List.mem_cons.mp h).imp (fun h => .double (List.mem_singleton.mpr h) hq)
        (.double · hq)
    | operand h hq =>
      exact (List.mem_cons.mp h).imp (fun h => .operand (List.mem_singleton.mpr h) hq)
        (.operand · hq)
  · rintro (h | h)
    · exact h.mono (List.cons_subset_cons part (List.nil_subset w))
    · exact h.mono (List.subset_cons_self part w)

/-- What occurs in a part that has no other parts inside is the part itself. -/
theorem Part.occurs_single_iff {q part : Part} :
    q.Occurs [part] ↔ q = part ∨ (∃ parts, part = .double parts ∧ q.Occurs parts) ∨
      ∃ p op raw, part = .substitution p op raw ∧ q.Occurs raw := by
  constructor
  · intro h
    cases h with
    | here h => exact .inl (List.mem_singleton.mp h)
    | double h hq => exact .inr (.inl ⟨_, (List.mem_singleton.mp h).symm, hq⟩)
    | operand h hq => exact .inr (.inr ⟨_, _, _, (List.mem_singleton.mp h).symm, hq⟩)
  · rintro (rfl | ⟨parts, rfl, hq⟩ | ⟨p, op, raw, rfl, hq⟩)
    · exact .here List.mem_cons_self
    · exact .double List.mem_cons_self hq
    · exact .operand List.mem_cons_self hq

/-- The offset and the length of a substring spec, if it has one. -/
def Spec.fields (spec : Text) : List Text :=
  match Spec.split ':' spec with
  | none => [spec]
  | some (offset, length) => [offset, length]

/-- The text is a numeral of more digits than can be read. -/
def IsOversized (t : Text) (n : OversizedNumeral) : Prop :=
  ∃ m, Numeral.ofText? (trim t) = some m ∧ m.digits.length = n.digits ∧ Numeral.maxDigits < n.digits

/-- The spec of a substring operation somewhere in the word has a numeral that is too long. -/
def Word.Oversized (limits : Limits) (c : Context) (w : Word) (n : OversizedNumeral) : Prop :=
  ∃ p raw spec, (Part.substitution p .substring raw).Occurs w ∧
    expandSpec limits c false raw = .ok spec ∧ ∃ t ∈ Spec.fields spec, IsOversized t n

/-- The error has a category, or it is that of a numeral in the word that is too long. -/
def Word.Reports (limits : Limits) (c : Context) (w : Word) (e : EvalError) : Prop :=
  e.category.isSome = true ∨ ∃ n, e = .oversizedNumeral n ∧ w.Oversized limits c n

section

variable {limits : Limits} {c : Context} {e : EvalError} {n : OversizedNumeral}

/-- What occurs in `w` occurs in `w'`. -/
theorem Word.Reports.mono {w w' : Word} (h : w.Reports limits c e)
    (hw : ∀ q : Part, q.Occurs w → q.Occurs w') : w'.Reports limits c e := by
  rcases h with hcategory | ⟨n, he, p, raw, spec, hoccurs, hspec⟩
  · exact .inl hcategory
  · exact .inr ⟨n, he, p, raw, spec, hw _ hoccurs, hspec⟩

/-! ## Expansions -/

theorem errs_value (p : Parameter) : Errs (p.value c) fun e => e.category.isSome = true := by
  cases p with
  | special symbol => exact errs_error rfl
  | var name =>
    rw [Parameter.value]
    split
    · exact errs_ok _
    · exact errs_error rfl

theorem errs_origin (p : Parameter) : Errs (p.origin c) fun e => e.category.isSome = true := by
  cases p with
  | special symbol => exact errs_error rfl
  | var name =>
    rw [Parameter.origin]
    split
    · exact errs_ok _
    · exact errs_error rfl

theorem errs_compilePattern (limit : Int) (pattern : Text) :
    Errs (compilePattern limit pattern) EvalError.IsOfSpec := by
  refine Errs.bind (errs_mapError _ fun fault => ?_) fun glob _ => ?_
  · cases fault <;> exact .inr (.inl rfl)
  · dsimp only
    split
    · exact errs_error (.inr (.inr rfl))
    · exact errs_mapError _ fun _ => .inr (.inr rfl)

theorem errs_replace (origin spec : Text) (all : Bool) :
    Errs (Spec.replace limits origin spec all) EvalError.IsOfSpec := by
  unfold Spec.replace
  split
  · exact errs_error (.inl rfl)
  · split
    · exact errs_ok _
    · exact (errs_compilePattern _ _).map _

theorem Numeral.natural_eq_error {digits : Text} {n : OversizedNumeral}
    (h : natural digits = .error n) : digits.length = n.digits ∧ maxDigits < n.digits := by
  unfold natural at h
  split at h
  · rename_i hdigits
    obtain rfl := Except.error.inj h
    exact ⟨rfl, hdigits⟩
  · exact absurd h (by simp)

theorem Numeral.value_eq_error {m : Numeral} (h : m.value = .error n) :
    natural m.digits = .error n := by
  unfold value at h
  generalize natural m.digits = x at h ⊢
  cases x with
  | error k => split at h <;> exact congrArg _ (Except.error.inj h)
  | ok k =>
    split at h
    · have h : Except.ok (-(k : Int)) = Except.error n := h
      exact absurd h (by simp)
    · have h : Except.ok (k : Int) = Except.error n := h
      exact absurd h (by simp)

theorem errs_readInteger {invalid : Text → EvalError}
    (hinvalid : ∀ t, (invalid t).IsOfSpec) (t : Text) :
    Errs (readInteger invalid t) fun e =>
      e.IsOfSpec ∨ ∃ n, e = .oversizedNumeral n ∧ IsOversized t n := by
  unfold readInteger
  split
  · exact errs_error (.inl (hinvalid t))
  · rename_i m hm
    intro e he
    cases hvalue : m.value with
    | error n =>
      rw [hvalue] at he
      obtain rfl := Except.error.inj he
      exact .inr ⟨n, rfl, m, hm, Numeral.natural_eq_error (Numeral.value_eq_error hvalue)⟩
    | ok value =>
      rw [hvalue] at he
      have he : Except.ok value = Except.error e := he
      exact absurd he (by simp)

theorem errs_substring (origin spec : Text) :
    Errs (Spec.substring origin spec) fun e => e.IsOfSpec ∨
      ∃ n, e = .oversizedNumeral n ∧ ∃ t ∈ Spec.fields spec, IsOversized t n := by
  have hfield : ∀ {invalid : Text → EvalError} {t : Text},
      (∀ t, (invalid t).IsOfSpec) → t ∈ Spec.fields spec →
      Errs (readInteger invalid t) fun e => e.IsOfSpec ∨
        ∃ n, e = .oversizedNumeral n ∧ ∃ t ∈ Spec.fields spec, IsOversized t n := by
    intro invalid t hinvalid ht
    refine (errs_readInteger hinvalid t).mono fun e he => he.imp_right ?_
    rintro ⟨n, rfl, hn⟩
    exact ⟨n, rfl, t, ht, hn⟩
  unfold Spec.substring
  cases hsplit : Spec.split ':' spec with
  | none =>
    have hfields : Spec.fields spec = [spec] := by rw [Spec.fields, hsplit]
    exact (hfield (fun _ => .inl rfl) (by simp [hfields])).bind fun _ _ => errs_ok _
  | some sides =>
    obtain ⟨offset, length⟩ := sides
    have hfields : Spec.fields spec = [offset, length] := by rw [Spec.fields, hsplit]
    refine (hfield (fun _ => .inl rfl) (by simp [hfields])).bind fun _ _ => ?_
    exact (hfield (fun _ => .inl rfl) (by simp [hfields])).bind fun _ _ => errs_ok _

/-- A substitution reports what its operand does, and what its operation makes of the spec. -/
theorem errs_substitution (p : Parameter) (op : Operation) (raw : Word)
    (hraw : Errs (expandSpec limits c false raw) (Word.Reports limits c raw))
    {f : Text → Text → Except EvalError Text}
    (hf : ∀ origin spec E, Errs (op.apply limits origin spec) E → Errs (f origin spec) E) :
    Errs (do
        let origin ← p.origin c
        let spec ← expandSpec limits c false raw
        f origin spec)
      (Word.Reports limits c [.substitution p op raw]) := by
  refine ((errs_origin p).mono fun _ => .inl).bind fun origin _ => ?_
  -- What occurs in the operand occurs in the word, one level deeper.
  have hoperand : Errs (expandSpec limits c false raw)
      (Word.Reports limits c [.substitution p op raw]) :=
    hraw.mono fun e he => he.mono fun q hq => .operand List.mem_cons_self hq
  refine hoperand.bind fun spec hspec => hf origin spec _ ?_
  cases op with
  | replace => exact (errs_replace origin spec false).mono fun _ he => .inl he.isSome_category
  | replaceAll => exact (errs_replace origin spec true).mono fun _ he => .inl he.isSome_category
  | substring =>
    refine (errs_substring origin spec).mono fun e he =>
      he.imp EvalError.IsOfSpec.isSome_category ?_
    rintro ⟨n, rfl, hn⟩
    exact ⟨n, rfl, p, raw, spec, .here List.mem_cons_self, hspec, hn⟩

theorem errs_specless (p : Parameter) {w : Word} :
    Errs (do
        discard (p.origin c)
        throw EvalError.missingSpec : Except EvalError Text) (Word.Reports limits c w) := by
  refine Errs.bind (((errs_origin p).mono fun _ => .inl).map _) fun _ _ => ?_
  exact errs_error (.inl rfl)

mutual

theorem errs_expandPart (limits : Limits) (c : Context) :
    (part : Part) → Errs (expandPart limits c part) (Word.Reports limits c [part])
  | .literal _ | .single _ | .escaped _ | .colon => by
    rw [expandPart]
    exact errs_ok _
  | .unsupported .. | .glob _ | .tilde _ | .command .. | .arithmetic _ => by
    rw [expandPart]
    exact errs_error (.inl rfl)
  | .parameter p => by
    rw [expandPart]
    exact (errs_value p).mono fun _ => .inl
  | .specless p _ => by
    rw [expandPart]
    exact errs_specless p
  | .double parts => by
    rw [expandPart]
    exact (errs_expandWord limits c parts).mono fun e he =>
      he.mono fun q hq => .double List.mem_cons_self hq
  | .substitution p op raw => by
    rw [expandPart]
    exact errs_substitution p op raw (errs_expandSpec limits c false raw) fun _ _ _ h => h

theorem errs_expandWord (limits : Limits) (c : Context) :
    (w : List Part) → Errs (expandWord limits c w) (Word.Reports limits c w)
  | [] => by
    rw [expandWord]
    exact errs_ok _
  | part :: parts => by
    rw [expandWord]
    have hpart := (errs_expandPart limits c part).mono fun e he =>
      he.mono fun q hq => hq.mono (List.cons_subset_cons part (List.nil_subset parts))
    have hparts := (errs_expandWord limits c parts).mono fun e he =>
      he.mono fun q hq => hq.mono (List.subset_cons_self part parts)
    exact hpart.bind fun _ _ => hparts.bind fun _ _ => errs_ok _

theorem errs_expandSpecPart (limits : Limits) (c : Context) (quoted : Bool) :
    (part : Part) → Errs (expandSpecPart limits c quoted part) (Word.Reports limits c [part])
  | .literal _ | .single _ | .escaped _ | .colon => by
    rw [expandSpecPart]
    exact errs_ok _
  | .unsupported .. | .glob _ | .tilde _ | .command .. | .arithmetic _ => by
    rw [expandSpecPart]
    exact errs_error (.inl rfl)
  | .parameter p => by
    rw [expandSpecPart]
    exact ((errs_value p).mono fun _ => .inl).map _
  | .specless p _ => by
    rw [expandSpecPart]
    exact errs_specless p
  | .double parts => by
    rw [expandSpecPart]
    exact (errs_expandSpec limits c true parts).mono fun e he =>
      he.mono fun q hq => .double List.mem_cons_self hq
  | .substitution p op raw => by
    rw [expandSpecPart]
    exact errs_substitution p op raw (errs_expandSpec limits c false raw) fun _ _ _ h => h.map _

theorem errs_expandSpec (limits : Limits) (c : Context) (quoted : Bool) :
    (parts : List Part) →
      Errs (expandSpec limits c quoted parts) (Word.Reports limits c parts)
  | [] => by
    rw [expandSpec]
    exact errs_ok _
  | part :: parts => by
    rw [expandSpec]
    have hpart := (errs_expandSpecPart limits c quoted part).mono fun e he =>
      he.mono fun q hq => hq.mono (List.cons_subset_cons part (List.nil_subset parts))
    have hparts := (errs_expandSpec limits c quoted parts).mono fun e he =>
      he.mono fun q hq => hq.mono (List.subset_cons_self part parts)
    exact hpart.bind fun _ _ => hparts.bind fun _ _ => errs_ok _

end

/-! ## Statements -/

namespace Eval

/-- An error of the evaluation, with the context that it leaves, is one of `E`. -/
def Errs (m : Eval Unit) (E : EvalError → Context → Prop) : Prop :=
  ∀ c e c', m c = .error e c' → E e c'

variable {m : Eval Unit} {E : EvalError → Context → Prop}

end Eval

end

end EnvScript
