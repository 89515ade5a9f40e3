import EnvScript.Proofs.Evaluation
import EnvScript.Proofs.Expansion.Supported

/-!
# What an evaluation depends on

A word has the same value, or fails in the same way, in any two contexts that agree on the variables
it mentions. An evaluation therefore makes the same assignments in both, with the same values, and
the contexts go on agreeing.
-/

namespace EnvScript

/-- The word asks for the value of the variable, at any depth. -/
def Word.Mentions (w : Word) (name : Text) : Prop :=
  ∃ q : Part, q.Occurs w ∧ q.parameter? = some (.var name)

theorem mentions_cons_iff {part : Part} {w : Word} {name : Text} :
    Word.Mentions (part :: w) name ↔ Word.Mentions [part] name ∨ Word.Mentions w name := by
  simp only [Word.Mentions, Part.occurs_cons_iff (w := w), or_and_right, exists_or]

/-- A part mentions its own variable and what is mentioned inside of it. -/
theorem mentions_single_iff {part : Part} {name : Text} :
    Word.Mentions [part] name ↔ part.parameter? = some (.var name) ∨
      (∃ parts, part = .double parts ∧ Word.Mentions parts name) ∨
      ∃ p op raw, part = .substitution p op raw ∧ Word.Mentions raw name := by
  constructor
  · rintro ⟨q, hq, hname⟩
    rcases Part.occurs_single_iff.mp hq with rfl | ⟨parts, rfl, hin⟩ | ⟨p, op, raw, rfl, hin⟩
    · exact .inl hname
    · exact .inr (.inl ⟨parts, rfl, q, hin, hname⟩)
    · exact .inr (.inr ⟨p, op, raw, rfl, q, hin, hname⟩)
  · rintro (hname | ⟨parts, rfl, q, hq, hname⟩ | ⟨p, op, raw, rfl, q, hq, hname⟩)
    · exact ⟨part, .here List.mem_cons_self, hname⟩
    · exact ⟨q, .double List.mem_cons_self hq, hname⟩
    · exact ⟨q, .operand List.mem_cons_self hq, hname⟩

theorem not_mentions_literal (t name : Text) : ¬ Word.Mentions [.literal t] name := by
  simp [mentions_single_iff, Part.parameter?]

namespace Context

/-- The variables in `S` are unset in both contexts, or have the same value. -/
def AgreeOn (S : Text → Prop) (c c' : Context) : Prop := ∀ name, S name → c.get? name = c'.get? name

variable {S T : Text → Prop} {c c' : Context}

theorem AgreeOn.mono (h : AgreeOn S c c') (hT : ∀ name, T name → S name) : AgreeOn T c c' :=
  fun name hname => h name (hT name hname)

theorem AgreeOn.set (h : AgreeOn S c c') (name value : Text) :
    AgreeOn S (c.set name value) (c'.set name value) := by
  intro x hx
  rw [get?_set, get?_set, h x hx]

theorem AgreeOn.assign (h : AgreeOn S c c') (pairs : List (Text × Text)) :
    AgreeOn S (c.assign pairs) (c'.assign pairs) := by
  induction pairs generalizing c c' with
  | nil => exact h
  | cons pair pairs ih => exact ih (h.set pair.1 pair.2)

end Context

open Context

/-! ## Expansions -/

section

variable {c c' : Context}

theorem agreeOn_cons {part : Part} {w : Word} (h : AgreeOn (Word.Mentions (part :: w)) c c') :
    AgreeOn (Word.Mentions [part]) c c' ∧ AgreeOn (Word.Mentions w) c c' :=
  ⟨h.mono fun _ hname => mentions_cons_iff.mpr (.inl hname),
    h.mono fun _ hname => mentions_cons_iff.mpr (.inr hname)⟩

theorem agreeOn_double {parts : Word} (h : AgreeOn (Word.Mentions [.double parts]) c c') :
    AgreeOn (Word.Mentions parts) c c' :=
  h.mono fun _ hname => mentions_single_iff.mpr (.inr (.inl ⟨_, rfl, hname⟩))

theorem agreeOn_operand {p : Parameter} {op : Operation} {raw : Word}
    (h : AgreeOn (Word.Mentions [.substitution p op raw]) c c') :
    AgreeOn (Word.Mentions raw) c c' :=
  h.mono fun _ hname => mentions_single_iff.mpr (.inr (.inr ⟨_, _, _, rfl, hname⟩))

/-- The variable of a part itself. -/
theorem agreeOn_parameter {part : Part} {p : Parameter} (hp : part.parameter? = some p)
    (h : AgreeOn (Word.Mentions [part]) c c') : AgreeOn (fun name => p = .var name) c c' :=
  h.mono fun _ hname => mentions_single_iff.mpr (.inl (hname ▸ hp))

theorem value_congr {p : Parameter} (h : AgreeOn (fun name => p = .var name) c c') :
    p.value c = p.value c' := by
  cases p with
  | special symbol => rfl
  | var name => rw [Parameter.value, Parameter.value, h name rfl]

theorem origin_congr {p : Parameter} (h : AgreeOn (fun name => p = .var name) c c') :
    p.origin c = p.origin c' := by
  cases p with
  | special symbol => rfl
  | var name => rw [Parameter.origin, Parameter.origin, h name rfl]

mutual

theorem expandPart_congr (limits : Limits) (part : Part)
    (h : AgreeOn (Word.Mentions [part]) c c') :
    expandPart limits c part = expandPart limits c' part := by
  cases part with
  | double parts =>
    rw [expandPart, expandPart]
    exact expandWord_congr limits parts (agreeOn_double h)
  | parameter p =>
    rw [expandPart, expandPart]
    exact value_congr (agreeOn_parameter rfl h)
  | substitution p op raw =>
    rw [expandPart, expandPart, origin_congr (agreeOn_parameter rfl h),
      expandSpec_congr limits false raw (agreeOn_operand h)]
  | specless p op => rw [expandPart, expandPart, origin_congr (agreeOn_parameter rfl h)]
  | _ => rw [expandPart, expandPart]

theorem expandWord_congr (limits : Limits) (w : List Part) (h : AgreeOn (Word.Mentions w) c c') :
    expandWord limits c w = expandWord limits c' w := by
  cases w with
  | nil => rw [expandWord, expandWord]
  | cons part parts =>
    rw [expandWord, expandWord, expandPart_congr limits part (agreeOn_cons h).1,
      expandWord_congr limits parts (agreeOn_cons h).2]

theorem expandSpecPart_congr (limits : Limits) (quoted : Bool) (part : Part)
    (h : AgreeOn (Word.Mentions [part]) c c') :
    expandSpecPart limits c quoted part = expandSpecPart limits c' quoted part := by
  cases part with
  | double parts =>
    rw [expandSpecPart, expandSpecPart]
    exact expandSpec_congr limits true parts (agreeOn_double h)
  | parameter p => rw [expandSpecPart, expandSpecPart, value_congr (agreeOn_parameter rfl h)]
  | substitution p op raw =>
    rw [expandSpecPart, expandSpecPart, origin_congr (agreeOn_parameter rfl h),
      expandSpec_congr limits false raw (agreeOn_operand h)]
  | specless p op => rw [expandSpecPart, expandSpecPart, origin_congr (agreeOn_parameter rfl h)]
  | _ => rw [expandSpecPart, expandSpecPart]

theorem expandSpec_congr (limits : Limits) (quoted : Bool) (w : List Part)
    (h : AgreeOn (Word.Mentions w) c c') :
    expandSpec limits c quoted w = expandSpec limits c' quoted w := by
  cases w with
  | nil => rw [expandSpec, expandSpec]
  | cons part parts =>
    rw [expandSpec, expandSpec, expandSpecPart_congr limits quoted part (agreeOn_cons h).1,
      expandSpec_congr limits quoted parts (agreeOn_cons h).2]

end

end

/-! ## Assignments -/

/-- The value of one of the assignments mentions the variable. -/
def MentionedIn (as : List Assignment) (name : Text) : Prop :=
  ∃ a ∈ as, ∃ w, a.2 = some w ∧ w.Mentions name

/-- The value of an assignment that the statement may come to mentions the variable. -/
def Statement.Mentions (s : Statement) (name : Text) : Prop :=
  ∃ p ∈ s.pipelines, ∃ as, p.assignments? = some as ∧ MentionedIn as name

theorem MentionedIn.mono {as bs : List Assignment} {name : Text} (h : MentionedIn as name)
    (hsub : as ⊆ bs) : MentionedIn bs name := by
  obtain ⟨a, ha, hw⟩ := h
  exact ⟨a, hsub ha, hw⟩

theorem MentionedIn.of_flatten {s : Statement} {ps : List Pipeline}
    {done : List (List Assignment)} {name : Text} (h : MentionedIn done.flatten name)
    (hdone : ps.mapM Pipeline.assignments? = some done) (hsub : ps ⊆ s.pipelines) :
    s.Mentions name := by
  obtain ⟨a, ha, hw⟩ := h
  obtain ⟨as, has, ha⟩ := List.mem_flatten.mp ha
  have hmem : some as ∈ ps.map Pipeline.assignments? :=
    mapM_eq_some_iff.mp hdone ▸ List.mem_map_of_mem has
  obtain ⟨p, hp, hpas⟩ := List.mem_map.mp hmem
  exact ⟨p, hsub hp, as, hpas, a, ha, hw⟩

theorem MentionedIn.of_assignments? {s : Statement} {as : List Assignment} {name : Text}
    (h : MentionedIn as name) (has : s.assignments? = some as) : s.Mentions name := by
  rw [Statement.assignments?] at has
  split at has
  · exact absurd has (by simp)
  · obtain ⟨done, hdone, rfl⟩ := Option.map_eq_some_iff.mp has
    exact h.of_flatten hdone (List.Subset.refl _)

/-- What a failing statement has stored is its own. -/
theorem MentionedIn.of_stopsAfter {limits : Limits} {c : Context} {s : Statement}
    {before : List Assignment} {name : Text} (h : MentionedIn before name)
    (hstops : s.StopsAfter limits c before) : s.Mentions name := by
  cases hstops with
  | background _ =>
    obtain ⟨a, ha, -⟩ := h
    exact absurd ha List.not_mem_nil
  | @pipeline ps qs p done d rest hbackground hpipelines hdone hstored hrest =>
    obtain ⟨a, ha, hw⟩ := h
    rcases List.mem_append.mp ha with ha | ha
    · refine MentionedIn.of_flatten ⟨a, ha, hw⟩ hdone ?_
      rw [hpipelines]
      exact List.subset_append_left ps (p :: qs)
    · generalize has : p.assignments? = as at hrest
      cases hrest with
      | refused => exact absurd ha List.not_mem_nil
      | @failing as rest hstops =>
        obtain ⟨b, after, d', rfl, -, -⟩ := hstops
        have hp : p ∈ s.pipelines := hpipelines ▸ List.mem_append_right ps List.mem_cons_self
        exact ⟨p, hp, _, has, a, List.mem_append_left _ ha, hw⟩

namespace Context

variable {limits : Limits} {S : Text → Prop} {c c' : Context} {a : Assignment}
  {as before : List Assignment}

/-- Both contexts store the assignment, with the same value, or neither does. -/
theorem store?_congr (a : Assignment) (h : AgreeOn (MentionedIn [a]) c c') :
    c.store? limits a = none ∧ c'.store? limits a = none ∨
      ∃ value, c.store? limits a = some (c.set a.1 value) ∧
        c'.store? limits a = some (c'.set a.1 value) := by
  obtain ⟨name, value⟩ := a
  cases value with
  | none => exact .inl ⟨rfl, rfl⟩
  | some w =>
    have hword := expandWord_congr limits w
      (h.mono fun _ hname => ⟨_, List.mem_cons_self, w, rfl, hname⟩)
    rw [store?, store?, ← hword]
    cases expandWord limits c w with
    | error e => exact .inl ⟨rfl, rfl⟩
    | ok value => exact .inr ⟨value, rfl, rfl⟩

theorem storeAll?_congr (hS : ∀ name, MentionedIn as name → S name) (h : AgreeOn S c c') :
    c.storeAll? limits as = none ∧ c'.storeAll? limits as = none ∨
      ∃ pairs, pairs.map Prod.fst = as.map Prod.fst ∧
        c.storeAll? limits as = some (c.assign pairs) ∧
        c'.storeAll? limits as = some (c'.assign pairs) := by
  induction as generalizing c c' with
  | nil => exact .inr ⟨[], rfl, rfl, rfl⟩
  | cons a as ih =>
    have hfirst := h.mono fun name hname =>
      hS name (MentionedIn.mono hname (List.cons_subset_cons a (List.nil_subset as)))
    rw [storeAll?_cons, storeAll?_cons]
    rcases store?_congr a hfirst with ⟨hc, hc'⟩ | ⟨value, hc, hc'⟩
    · rw [hc, hc']
      exact .inl ⟨rfl, rfl⟩
    · rw [hc, hc']
      have hmore := ih (fun name hname => hS name (hname.mono (List.subset_cons_self a as)))
        (h.set a.1 value)
      refine hmore.imp_right ?_
      rintro ⟨pairs, hnames, hd, hd'⟩
      exact ⟨(a.1, value) :: pairs, congrArg (a.1 :: ·) hnames, hd, hd'⟩

/-- Storing leaves contexts that agree, and gives the names that are assigned. -/
theorem exists_storeAll?_of_agreeOn {d : Context} (hS : ∀ name, MentionedIn as name → S name)
    (h : AgreeOn S c c') (hd : c.storeAll? limits as = some d) :
    ∃ pairs, pairs.map Prod.fst = as.map Prod.fst ∧ d = c.assign pairs ∧
      c'.storeAll? limits as = some (c'.assign pairs) := by
  have hboth : c.storeAll? limits as = none ∧ _ ∨ _ := storeAll?_congr hS h
  rcases hboth with ⟨hnone, -⟩ | ⟨pairs, hnames, hsome, hsome'⟩
  · exact absurd (hnone.symm.trans hd) (by simp)
  · exact ⟨pairs, hnames, Option.some.inj (hd.symm.trans hsome), hsome'⟩

theorem StopsIn.congr (h : c.StopsIn limits as before)
    (hS : ∀ name, MentionedIn as name → S name) (hagree : AgreeOn S c c') :
    c'.StopsIn limits as before := by
  obtain ⟨a, after, d, rfl, hd, ha⟩ := h
  have hbefore : ∀ name, MentionedIn before name → S name := fun name hname =>
    hS name (hname.mono (List.subset_append_left before (a :: after)))
  obtain ⟨pairs, -, rfl, hd'⟩ := exists_storeAll?_of_agreeOn hbefore hagree hd
  refine ⟨a, after, _, rfl, hd', ?_⟩
  have hlast : ∀ name, MentionedIn [a] name → S name := fun name hname =>
    hS name (hname.mono (by simp))
  rcases store?_congr a ((hagree.assign pairs).mono hlast) with ⟨-, hnone⟩ | ⟨value, hsome, -⟩
  · exact hnone
  · exact absurd (ha.symm.trans hsome) (by simp)

end Context

section

variable {limits : Limits} {S : Text → Prop} {c c' : Context} {before : List Assignment}
  {s : Statement}

theorem Context.StopsAfter.congr {as : Option (List Assignment)} (h : c.StopsAfter limits as before)
    (hS : ∀ as', as = some as' → ∀ name, MentionedIn as' name → S name)
    (hagree : AgreeOn S c c') : c'.StopsAfter limits as before := by
  cases h with
  | refused => exact .refused
  | failing h => exact .failing (h.congr (hS _ rfl) hagree)

/-- A statement that fails stores the same before it does. -/
theorem Statement.StopsAfter.congr (h : s.StopsAfter limits c before)
    (hagree : AgreeOn s.Mentions c c') : s.StopsAfter limits c' before := by
  cases h with
  | background h => exact .background h
  | @pipeline ps qs p done d before hbackground hpipelines hdone hstored hstops =>
    have hflatten : ∀ name, MentionedIn done.flatten name → s.Mentions name := fun name hname =>
      hname.of_flatten hdone (hpipelines ▸ List.subset_append_left ps (p :: qs))
    obtain ⟨pairs, -, rfl, hstored'⟩ := exists_storeAll?_of_agreeOn hflatten hagree hstored
    have hp : p ∈ s.pipelines := hpipelines ▸ List.mem_append_right ps List.mem_cons_self
    exact .pipeline hbackground hpipelines hdone hstored'
      (hstops.congr (fun as has _ hname => ⟨p, hp, as, has, hname⟩) (hagree.assign pairs))

end

/-! ## Evaluations -/

namespace Eval

variable {limits : Limits} {S : Text → Prop} {m n : Eval Unit} {c c' : Context}

/-- The same result, with contexts that agree. -/
inductive SameResult (S : Text → Prop) :
    EStateM.Result EvalError Context Unit → EStateM.Result EvalError Context Unit → Prop
  | ok {d d' : Context} (h : AgreeOn S d d') : SameResult S (.ok () d) (.ok () d')
  | error (e : EvalError) {d d' : Context} (h : AgreeOn S d d') :
      SameResult S (.error e d) (.error e d')

/-- The computation gives the same result in contexts that agree, and leaves them agreeing. -/
def Respects (S : Text → Prop) (m : Eval Unit) : Prop :=
  ∀ c c', AgreeOn S c c' → SameResult S (m c) (m c')

theorem respects_throw (e : EvalError) : Respects S (throw e) := fun _ _ h => .error e h

theorem Respects.bind (hm : Respects S m) (hn : Respects S n) :
    Respects S (m >>= fun _ => n) := by
  intro c c' h
  show SameResult S (EStateM.bind m (fun _ => n) c) (EStateM.bind m (fun _ => n) c')
  unfold EStateM.bind
  have hfirst := hm c c' h
  generalize m c = r at hfirst ⊢
  generalize m c' = r' at hfirst ⊢
  cases hfirst with
  | ok h' => exact hn _ _ h'
  | error e h' => exact .error e h'

theorem respects_forM {α : Type} {f : α → Eval Unit} {as : List α}
    (h : ∀ a ∈ as, Respects S (f a)) : Respects S (as.forM f) := by
  induction as with
  | nil => exact fun _ _ h => .ok h
  | cons a as ih =>
    exact (h a List.mem_cons_self).bind (ih fun b hb => h b (List.mem_cons_of_mem a hb))

theorem respects_assign {a : Assignment} (hS : ∀ name, MentionedIn [a] name → S name) :
    Respects S (assign limits a.1 a.2) := by
  obtain ⟨name, value⟩ := a
  cases value with
  | none => exact respects_throw _
  | some w =>
    intro c c' h
    have hword := expandWord_congr limits w
      (h.mono fun x hx => hS x ⟨_, List.mem_cons_self, w, rfl, hx⟩)
    rw [assign_some, assign_some, ← hword]
    cases expandWord limits c w with
    | ok value => exact .ok (h.set name value)
    | error e => exact .error e h

theorem respects_command {command : Command}
    (hS : ∀ as, command.assignments? = some as → ∀ name, MentionedIn as name → S name) :
    Respects S (Eval.command limits command) := by
  cases command with
  | compound kind => exact respects_throw _
  | function name body => exact respects_throw _
  | simple bindings arguments =>
    cases arguments with
    | cons argument arguments => exact respects_throw _
    | nil =>
      show Respects S (if bindings.any (·.isRedirect) then throw .redirects
        else bindings.forM (binding limits))
      split
      · exact respects_throw _
      · rename_i hany
        obtain ⟨as, has⟩ := exists_map_assignment? (Bool.eq_false_iff.mpr hany)
        rw [forM_binding has]
        refine respects_forM fun a ha => respects_assign fun name hname => ?_
        exact hS as (mapM_eq_some_iff.mpr has) name
          (hname.mono (List.cons_subset.mpr ⟨ha, List.nil_subset as⟩))

theorem respects_pipeline {p : Pipeline}
    (hS : ∀ as, p.assignments? = some as → ∀ name, MentionedIn as name → S name) :
    Respects S (pipeline limits p) := by
  cases hpipe : p.isPipe with
  | true =>
    rw [pipeline, if_pos hpipe]
    exact respects_throw _
  | false =>
    obtain ⟨command, rfl⟩ := eq_single_of_isPipe hpipe
    rw [pipeline_single]
    exact respects_command hS

theorem respects_statement (s : Statement) : Respects s.Mentions (statement limits s) := by
  unfold statement
  split
  · exact respects_throw _
  · refine respects_forM fun p hp => respects_pipeline fun as has name hname => ?_
    exact ⟨p, hp, as, has, hname⟩

end Eval

end EnvScript
