import EnvScript.Proofs.Evaluation

/-!
# Evaluation under tighter limits

Of the limits only the one on patterns bears on an evaluation, and only by stopping it: under a
tighter limit an evaluation gives what it gave before, or it fails because a pattern is too big.
-/

namespace EnvScript

/-! ## Expansions -/

/-- The result `y` under a tighter limit is `x`, unless that limit has stopped it. -/
def SameOrTooBig {α : Type} (x y : Except EvalError α) : Prop :=
  y = .error .patternTooBig ∨ y = x

section

variable {α β : Type} {x y : Except EvalError α}

theorem SameOrTooBig.refl (x : Except EvalError α) : SameOrTooBig x x := .inr rfl

theorem SameOrTooBig.bind {f g : α → Except EvalError β} (h : SameOrTooBig x y)
    (hf : ∀ a, SameOrTooBig (f a) (g a)) : SameOrTooBig (x >>= f) (y >>= g) := by
  rcases h with rfl | rfl
  · exact .inl rfl
  · cases y with
    | error e => exact .refl _
    | ok a => exact hf a

theorem SameOrTooBig.map (h : SameOrTooBig x y) (f : α → β) :
    SameOrTooBig (x.map f) (y.map f) := by
  rcases h with rfl | rfl
  · exact .inl rfl
  · exact .refl _

end

variable {limits limits' : Limits}

theorem sameOrTooBig_compilePattern {limit limit' : Int} (h : limit' ≤ limit) (pattern : Text) :
    SameOrTooBig (compilePattern limit pattern) (compilePattern limit' pattern) := by
  refine (SameOrTooBig.refl (Glob.ofPattern pattern)).bind fun glob => ?_
  dsimp only
  split
  · split
    · exact .refl _
    · omega
  · split
    · exact .inl rfl
    · exact .refl _

theorem sameOrTooBig_replace (h : limits'.pattern ≤ limits.pattern) (origin spec : Text)
    (all : Bool) :
    SameOrTooBig (Spec.replace limits origin spec all) (Spec.replace limits' origin spec all) := by
  unfold Spec.replace
  split
  · exact .refl _
  · split
    · exact .refl _
    · exact (sameOrTooBig_compilePattern h _).map _

theorem sameOrTooBig_apply (h : limits'.pattern ≤ limits.pattern) (origin spec : Text)
    (op : Operation) :
    SameOrTooBig (op.apply limits origin spec) (op.apply limits' origin spec) := by
  cases op with
  | replace => exact sameOrTooBig_replace h origin spec false
  | replaceAll => exact sameOrTooBig_replace h origin spec true
  | substring => exact .refl _

mutual

theorem sameOrTooBig_expandPart (h : limits'.pattern ≤ limits.pattern) (c : Context) :
    (part : Part) → SameOrTooBig (expandPart limits c part) (expandPart limits' c part)
  | .literal _ | .single _ | .escaped _ | .colon | .parameter _ | .specless .. | .unsupported ..
  | .glob _ | .tilde _ | .command .. | .arithmetic _ => by
    rw [expandPart, expandPart]
    exact .refl _
  | .double parts => by
    rw [expandPart, expandPart]
    exact sameOrTooBig_expandWord h c parts
  | .substitution p op raw => by
    rw [expandPart, expandPart]
    refine (SameOrTooBig.refl (p.origin c)).bind fun origin => ?_
    exact (sameOrTooBig_expandSpec h c false raw).bind fun spec =>
      sameOrTooBig_apply h origin spec op

theorem sameOrTooBig_expandWord (h : limits'.pattern ≤ limits.pattern) (c : Context) :
    (w : List Part) → SameOrTooBig (expandWord limits c w) (expandWord limits' c w)
  | [] => by
    rw [expandWord, expandWord]
    exact .refl _
  | part :: parts => by
    rw [expandWord, expandWord]
    exact (sameOrTooBig_expandPart h c part).bind fun _ =>
      (sameOrTooBig_expandWord h c parts).bind fun _ => .refl _

theorem sameOrTooBig_expandSpecPart (h : limits'.pattern ≤ limits.pattern) (c : Context)
    (quoted : Bool) : (part : Part) →
      SameOrTooBig (expandSpecPart limits c quoted part) (expandSpecPart limits' c quoted part)
  | .literal _ | .single _ | .escaped _ | .colon | .parameter _ | .specless .. | .unsupported ..
  | .glob _ | .tilde _ | .command .. | .arithmetic _ => by
    rw [expandSpecPart, expandSpecPart]
    exact .refl _
  | .double parts => by
    rw [expandSpecPart, expandSpecPart]
    exact sameOrTooBig_expandSpec h c true parts
  | .substitution p op raw => by
    rw [expandSpecPart, expandSpecPart]
    refine (SameOrTooBig.refl (p.origin c)).bind fun origin => ?_
    exact (sameOrTooBig_expandSpec h c false raw).bind fun spec =>
      (sameOrTooBig_apply h origin spec op).map _

theorem sameOrTooBig_expandSpec (h : limits'.pattern ≤ limits.pattern) (c : Context)
    (quoted : Bool) : (parts : List Part) →
      SameOrTooBig (expandSpec limits c quoted parts) (expandSpec limits' c quoted parts)
  | [] => by
    rw [expandSpec, expandSpec]
    exact .refl _
  | part :: parts => by
    rw [expandSpec, expandSpec]
    exact (sameOrTooBig_expandSpecPart h c quoted part).bind fun _ =>
      (sameOrTooBig_expandSpec h c quoted parts).bind fun _ => .refl _

end

/-! ## Statements -/

namespace Eval

/-- The evaluation `m'` under a tighter limit ends as `m`, unless that limit stops it. -/
def Narrowed (m m' : Eval Unit) (c : Context) : Prop :=
  (∃ c', m' c = .error .patternTooBig c') ∨ m' c = m c

variable {c : Context}

theorem Narrowed.refl (m : Eval Unit) (c : Context) : Narrowed m m c := .inr rfl

theorem Narrowed.bind {m m' n n' : Eval Unit} (h : Narrowed m m' c)
    (hn : ∀ c', Narrowed n n' c') : Narrowed (m >>= fun _ => n) (m' >>= fun _ => n') c := by
  show (∃ c', EStateM.bind m' (fun _ => n') c = .error .patternTooBig c') ∨
    EStateM.bind m' (fun _ => n') c = EStateM.bind m (fun _ => n) c
  unfold EStateM.bind
  rcases h with ⟨c', hc'⟩ | h
  · rw [hc']
    exact .inl ⟨c', rfl⟩
  · rw [h]
    split
    · exact hn _
    · exact .inr rfl

theorem narrowed_forM {α : Type} {f f' : α → Eval Unit} (h : ∀ a c, Narrowed (f a) (f' a) c)
    (as : List α) (c : Context) : Narrowed (as.forM f) (as.forM f') c := by
  induction as generalizing c with
  | nil => exact .refl _ c
  | cons a as ih => exact (h a c).bind ih

theorem narrowed_assign (h : limits'.pattern ≤ limits.pattern) (name : Text)
    (value : Option Word) (c : Context) :
    Narrowed (assign limits name value) (assign limits' name value) c := by
  cases value with
  | none => exact .refl _ c
  | some word =>
    unfold Narrowed
    rw [assign_some, assign_some]
    rcases sameOrTooBig_expandWord h c word with hbig | hsame
    · rw [hbig]
      exact .inl ⟨c, rfl⟩
    · rw [hsame]
      exact .inr rfl

theorem narrowed_command (h : limits'.pattern ≤ limits.pattern) (command : Command)
    (c : Context) : Narrowed (Eval.command limits command) (Eval.command limits' command) c := by
  cases command with
  | compound kind => exact .refl _ c
  | function name body => exact .refl _ c
  | simple bindings arguments =>
    have hbinding : ∀ b c, Narrowed (binding limits b) (binding limits' b) c := by
      intro b c
      cases b with
      | redirect r => exact .refl _ c
      | assign name value => exact narrowed_assign h name value c
    rw [Eval.command, Eval.command]
    split
    · exact .refl _ c
    · split
      · exact .refl _ c
      · exact narrowed_forM hbinding bindings c

theorem narrowed_statement (h : limits'.pattern ≤ limits.pattern) (s : Statement)
    (c : Context) : Narrowed (statement limits s) (statement limits' s) c := by
  unfold statement
  split
  · exact .refl _ c
  · refine narrowed_forM (fun p c => ?_) s.pipelines c
    unfold pipeline
    split
    · exact .refl _ c
    · split
      · exact narrowed_command h _ c
      · exact .refl _ c

end Eval

end EnvScript
