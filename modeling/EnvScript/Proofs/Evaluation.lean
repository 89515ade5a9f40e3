import EnvScript.Evaluation
import EnvScript.Proofs.Success

/-!
# What an evaluation leaves behind

A command, pipeline or statement that consists of assignments alone has a list of them, in the order
in which they are written; anything else has none and is refused. An evaluation that succeeds has
stored the whole list, and one that fails a beginning of it, which `StopsAfter` tells from the
syntax tree and the context.
-/

namespace EnvScript

/-- A name with its value, which may be missing. -/
abbrev Assignment := Text × Option Word

def Binding.assignment? : Binding → Option Assignment
  | .assign name value => some (name, value)
  | .redirect _ => none

/-- The assignments of a command that has neither a word nor a redirection. -/
def Command.assignments? : Command → Option (List Assignment)
  | .simple bindings [] => bindings.mapM Binding.assignment?
  | _ => none

/-- The assignments of a pipeline that is a single command and not negated. -/
def Pipeline.assignments? : Pipeline → Option (List Assignment)
  | ⟨[command], false⟩ => command.assignments?
  | _ => none

/-- The assignments of a list that does not run in the background. -/
def Statement.assignments? (s : Statement) : Option (List Assignment) :=
  if s.background then none else (s.pipelines.mapM Pipeline.assignments?).map List.flatten

/-! ## Storing -/

namespace Context

variable {limits : Limits} {c c' : Context} {a : Assignment} {as bs before : List Assignment}

/-- The context after an assignment, if the value is there and can be expanded. -/
def store? (limits : Limits) (c : Context) : Assignment → Option Context
  | (_, none) => none
  | (name, some word) =>
    match expandWord limits c word with
    | .ok value => some (c.set name value)
    | .error _ => none

/-- The context after several assignments, each of which sees what those before it have stored. -/
def storeAll? (limits : Limits) (c : Context) (as : List Assignment) : Option Context :=
  as.foldlM (store? limits) c

/-- Of the assignments `as` those in `before` can be stored, and the one behind them cannot. -/
def StopsIn (limits : Limits) (c : Context) (as before : List Assignment) : Prop :=
  ∃ a after c', as = before ++ a :: after ∧ c.storeAll? limits before = some c' ∧
    c'.store? limits a = none

theorem storeAll?_cons :
    c.storeAll? limits (a :: as) = (c.store? limits a).bind fun c' => c'.storeAll? limits as :=
  List.foldlM_cons

theorem storeAll?_append :
    c.storeAll? limits (as ++ bs) =
      (c.storeAll? limits as).bind fun c' => c'.storeAll? limits bs :=
  List.foldlM_append

theorem StopsIn.storeAll?_eq_none (h : c.StopsIn limits as before) (bs : List Assignment) :
    c.storeAll? limits (as ++ bs) = none := by
  obtain ⟨a, after, c', rfl, hbefore, ha⟩ := h
  rw [List.append_assoc, storeAll?_append, hbefore]
  show c'.storeAll? limits (a :: (after ++ bs)) = none
  rw [storeAll?_cons, ha]
  rfl

theorem store?_names (h : c.store? limits a = some c') :
    c'.names = c.names ∨ c'.names = c.names ++ [a.1] := by
  obtain ⟨name, value⟩ := a
  cases value with
  | none => exact absurd h (by simp [store?])
  | some word =>
    rw [store?] at h
    split at h
    · rw [← Option.some.inj h, names_set]
      split
      · exact .inl rfl
      · exact .inr rfl
    · exact absurd h (by simp)

/-- Storing keeps the names there are in their places and adds only names that are assigned. -/
theorem storeAll?_names (h : c.storeAll? limits as = some c') :
    ∃ added, c'.names = c.names ++ added ∧ added ⊆ as.map Prod.fst := by
  induction as generalizing c with
  | nil =>
    cases h
    exact ⟨[], (List.append_nil _).symm, List.nil_subset _⟩
  | cons a as ih =>
    rw [storeAll?_cons] at h
    obtain ⟨c₁, ha, has⟩ := Option.bind_eq_some_iff.mp h
    obtain ⟨added, hadded, hsub⟩ := ih has
    rcases store?_names ha with heq | heq
    · exact ⟨added, heq ▸ hadded, List.Subset.trans hsub (List.subset_cons_self _ _)⟩
    · refine ⟨a.1 :: added, ?_, List.cons_subset_cons _ hsub⟩
      rw [hadded, heq, List.append_assoc]
      rfl

end Context

/-! ## Where an evaluation stops -/

/-- What a command or a pipeline with these assignments has stored when its evaluation fails in the
context `c`. Where there are none it is refused before anything is stored. -/
inductive Context.StopsAfter (limits : Limits) (c : Context) :
    Option (List Assignment) → List Assignment → Prop
  | refused : StopsAfter limits c none []
  | failing {as before : List Assignment} (h : c.StopsIn limits as before) :
    StopsAfter limits c (some as) before

/-- What a list of pipelines has stored when its evaluation fails in the context `c`. -/
inductive Statement.StopsAfter (limits : Limits) (s : Statement) (c : Context) :
    List Assignment → Prop
  | background (h : s.background = true) : StopsAfter limits s c []
  | pipeline {ps qs : List Pipeline} {p : Pipeline} {done : List (List Assignment)} {c' : Context}
    {before : List Assignment} (hbackground : s.background = false)
    (hpipelines : s.pipelines = ps ++ p :: qs) (hdone : ps.mapM Pipeline.assignments? = some done)
    (hstored : c.storeAll? limits done.flatten = some c')
    (hstops : c'.StopsAfter limits p.assignments? before) :
    StopsAfter limits s c (done.flatten ++ before)

/-! ## What an evaluation has stored -/

namespace Eval

variable {limits : Limits} {m m' : Eval Unit} {c : Context} {as : Option (List Assignment)}
  {stops : List Assignment → Prop}

/-- The computation stores all the assignments, or it fails after some of which `stops` holds. -/
def Stores (limits : Limits) (m : Eval Unit) (c : Context) (as : Option (List Assignment))
    (stops : List Assignment → Prop) : Prop :=
  match m c with
  | .ok _ c' => ∃ as', as = some as' ∧ c.storeAll? limits as' = some c'
  | .error _ c' => ∃ before, stops before ∧ c.storeAll? limits before = some c'

theorem stores_throw {e : EvalError} (h : stops []) : Stores limits (throw e) c as stops :=
  ⟨[], h, rfl⟩

theorem Stores.mono {stops' : List Assignment → Prop} (h : Stores limits m c as stops)
    (hstops : ∀ before, stops before → stops' before) : Stores limits m c as stops' := by
  unfold Stores at *
  split at h
  · exact h
  · obtain ⟨before, hbefore, hc'⟩ := h
    exact ⟨before, hstops before hbefore, hc'⟩

theorem assign_some (limits : Limits) (name : Text) (word : Word) (c : Context) :
    assign limits name (some word) c =
      match expandWord limits c word with
      | .ok value => .ok () (c.set name value)
      | .error e => .error e c := by
  show (match expandWord limits c word with
    | .ok value => modify (·.set name value)
    | .error e => throw e : Eval Unit) c = _
  cases expandWord limits c word <;> rfl

theorem stores_assign (a : Assignment) (c : Context) :
    Stores limits (assign limits a.1 a.2) c (some [a]) (c.StopsIn limits [a]) := by
  obtain ⟨name, value⟩ := a
  cases value with
  | none => exact ⟨[], ⟨_, [], c, rfl, rfl, rfl⟩, rfl⟩
  | some word =>
    unfold Stores
    rw [assign_some]
    cases hword : expandWord limits c word with
    | ok value =>
      refine ⟨_, rfl, ?_⟩
      rw [Context.storeAll?_cons, Context.store?, hword]
      rfl
    | error e =>
      refine ⟨[], ⟨_, [], c, rfl, rfl, ?_⟩, rfl⟩
      rw [Context.store?, hword]

section

variable {α : Type} {f : α → Eval Unit} {g : α → Option (List Assignment)}
  {stopsAt : α → Context → List Assignment → Prop} {x : α} {xs : List α} {before : List Assignment}

/-- Of computations in a row the first have stored all that `g` gives for them, and the next one
stops. -/
def StopsAmong (limits : Limits) (g : α → Option (List Assignment))
    (stopsAt : α → Context → List Assignment → Prop) (xs : List α) (c : Context)
    (before : List Assignment) : Prop :=
  ∃ ys x zs done c' rest, xs = ys ++ x :: zs ∧ ys.mapM g = some done ∧
    c.storeAll? limits done.flatten = some c' ∧ stopsAt x c' rest ∧ before = done.flatten ++ rest

theorem StopsAmong.head (h : stopsAt x c before) :
    StopsAmong limits g stopsAt (x :: xs) c before :=
  ⟨[], x, xs, [], c, before, rfl, rfl, rfl, h, rfl⟩

theorem StopsAmong.cons {as : List Assignment} {c₁ : Context} (has : g x = some as)
    (hc₁ : c.storeAll? limits as = some c₁) (h : StopsAmong limits g stopsAt xs c₁ before) :
    StopsAmong limits g stopsAt (x :: xs) c (as ++ before) := by
  obtain ⟨ys, y, zs, done, c₂, rest, rfl, hdone, hc₂, hrest, rfl⟩ := h
  refine ⟨x :: ys, y, zs, as :: done, c₂, rest, rfl, ?_, ?_, hrest, (List.append_assoc _ _ _).symm⟩
  · rw [List.mapM_cons, has, hdone]
    rfl
  · rw [List.flatten_cons, Context.storeAll?_append, hc₁]
    exact hc₂

/-- Computations in a row, of which each stores the assignments that `g` gives for it. -/
theorem stores_forM (h : ∀ x c, Stores limits (f x) c (g x) (stopsAt x c)) (xs : List α)
    (c : Context) :
    Stores limits (xs.forM f) c ((xs.mapM g).map List.flatten)
      (StopsAmong limits g stopsAt xs c) := by
  induction xs generalizing c with
  | nil => exact ⟨[], rfl, rfl⟩
  | cons x xs ih =>
    have hx := h x c
    unfold Stores at hx ⊢
    show match EStateM.bind (f x) (fun _ => xs.forM f) c with | .ok _ c' => _ | .error _ c' => _
    unfold EStateM.bind
    -- Either the first computation fails, or what the others do decides.
    split at hx
    · rename_i c₁ hfx
      obtain ⟨as, has, hc₁⟩ := hx
      rw [hfx]
      have hxs := ih c₁
      unfold Stores at hxs
      show match xs.forM f c₁ with | .ok _ c' => _ | .error _ c' => _
      split at hxs
      · rename_i c' hforM
        obtain ⟨bs, hbs, hc'⟩ := hxs
        obtain ⟨bss, hbss, rfl⟩ := Option.map_eq_some_iff.mp hbs
        rw [hforM]
        refine ⟨as ++ bss.flatten, ?_, ?_⟩
        · rw [List.mapM_cons, has, hbss]
          rfl
        · rw [Context.storeAll?_append, hc₁]
          exact hc'
      · rename_i e c' hforM
        obtain ⟨before, hbefore, hc'⟩ := hxs
        rw [hforM]
        refine ⟨as ++ before, hbefore.cons has hc₁, ?_⟩
        rw [Context.storeAll?_append, hc₁]
        exact hc'
    · rename_i e c' hfx
      obtain ⟨before, hbefore, hc'⟩ := hx
      rw [hfx]
      exact ⟨before, .head hbefore, hc'⟩

end

/-- The assignments one after the other, up to the first that fails. -/
def assignAll (limits : Limits) (as : List Assignment) : Eval Unit :=
  as.forM fun a => assign limits a.1 a.2

theorem assignAll_append (limits : Limits) (as bs : List Assignment) :
    assignAll limits (as ++ bs) = (do assignAll limits as; assignAll limits bs) :=
  List.forM_append

theorem forM_binding {bindings : List Binding} {as : List Assignment}
    (h : bindings.map Binding.assignment? = as.map some) :
    bindings.forM (binding limits) = assignAll limits as := by
  induction bindings generalizing as with
  | nil =>
    cases as with
    | nil => rfl
    | cons a as => exact absurd h (by simp)
  | cons b bindings ih =>
    cases as with
    | nil => exact absurd h (by simp)
    | cons a as =>
      obtain ⟨hb, hbs⟩ := List.cons.inj h
      cases b with
      | redirect r => exact absurd hb (by simp [Binding.assignment?])
      | assign name value =>
        rw [← Option.some.inj hb]
        show (do binding limits _; bindings.forM _) = do assign limits name value; as.forM _
        rw [ih hbs]
        rfl

theorem stores_assignAll (as : List Assignment) (c : Context) :
    Stores limits (assignAll limits as) c (some as) (c.StopsIn limits as) := by
  -- Each assignment is a computation whose list has that one element.
  have hsingles : ∀ bs : List Assignment, bs.mapM (fun a => some [a]) = some (bs.map ([·])) := by
    intro bs
    rw [mapM_eq_some_iff, List.map_map]
    rfl
  have hflatten : ∀ bs : List Assignment, (bs.map ([·])).flatten = bs := List.flatMap_singleton'
  have hforM : Stores limits (assignAll limits as) c _ _ :=
    stores_forM (g := fun a => some [a]) stores_assign as c
  rw [hsingles, Option.map_some, hflatten] at hforM
  refine hforM.mono ?_
  rintro _ ⟨ys, a, zs, done, c₁, rest, rfl, hdone, hc₁, ⟨b, after, c₂, heq, hrest, hb⟩, rfl⟩
  rw [hsingles] at hdone
  cases rest with
  | cons d rest =>
    -- An assignment that fails has stored nothing.
    exact absurd (congrArg List.length heq) (by simp)
  | nil =>
    obtain ⟨rfl, rfl⟩ := List.cons.inj heq
    cases hrest
    rw [← Option.some.inj hdone, hflatten] at hc₁ ⊢
    rw [List.append_nil]
    exact ⟨a, zs, c₁, rfl, hc₁, hb⟩

theorem assignAll_of_storeAll? {as : List Assignment} {c' : Context}
    (h : c.storeAll? limits as = some c') : assignAll limits as c = .ok () c' := by
  have hstores : Stores limits (assignAll limits as) c _ _ := stores_assignAll as c
  unfold Stores at hstores
  split at hstores
  · rename_i c₁ hc₁
    obtain ⟨as', has, hall⟩ := hstores
    obtain rfl := Option.some.inj has
    rw [hc₁, Option.some.inj (hall.symm.trans h)]
  · obtain ⟨before, hstops, -⟩ := hstores
    have hnone := hstops.storeAll?_eq_none []
    rw [List.append_nil, h] at hnone
    exact absurd hnone (by simp)

theorem mapM_assignment?_of_any {bindings : List Binding}
    (h : bindings.any (·.isRedirect) = true) : bindings.mapM Binding.assignment? = none := by
  obtain ⟨b, hb, hredirect⟩ := List.any_eq_true.mp h
  cases hmapM : bindings.mapM Binding.assignment? with
  | none => rfl
  | some as =>
    have hnone : b.assignment? = none := by
      cases b with
      | assign name value => exact absurd hredirect (by simp [Binding.isRedirect])
      | redirect r => rfl
    have hmem := List.mem_map_of_mem (f := Binding.assignment?) hb
    rw [mapM_eq_some_iff.mp hmapM, hnone] at hmem
    exact absurd hmem (by simp)

theorem exists_map_assignment? {bindings : List Binding}
    (h : bindings.any (·.isRedirect) = false) :
    ∃ as : List Assignment, bindings.map Binding.assignment? = as.map some := by
  induction bindings with
  | nil => exact ⟨[], rfl⟩
  | cons b bindings ih =>
    obtain ⟨hb, hbs⟩ := Bool.or_eq_false_iff.mp h
    obtain ⟨as, has⟩ := ih hbs
    cases b with
    | redirect r => exact absurd hb (by simp [Binding.isRedirect])
    | assign name value => exact ⟨(name, value) :: as, congrArg (some (name, value) :: ·) has⟩

theorem stores_command (command : Command) (c : Context) :
    Stores limits (Eval.command limits command) c command.assignments?
      (c.StopsAfter limits command.assignments?) := by
  cases command with
  | compound kind => exact stores_throw .refused
  | function name body => exact stores_throw .refused
  | simple bindings arguments =>
    cases arguments with
    | cons argument arguments => exact stores_throw .refused
    | nil =>
      show Stores limits (if bindings.any (·.isRedirect) then throw .redirects
        else bindings.forM (binding limits)) c (bindings.mapM Binding.assignment?)
        (c.StopsAfter limits (bindings.mapM Binding.assignment?))
      split
      -- One redirection is enough: the assignments in front of it are not stored either.
      · rename_i hany
        rw [mapM_assignment?_of_any hany]
        exact stores_throw .refused
      · rename_i hany
        obtain ⟨as, has⟩ := exists_map_assignment? (Bool.eq_false_iff.mpr hany)
        rw [mapM_eq_some_iff.mpr has, forM_binding has]
        exact (stores_assignAll as c).mono fun _ h => .failing h

theorem eq_single_of_isPipe {p : Pipeline} (h : p.isPipe = false) :
    ∃ command, p = ⟨[command], false⟩ := by
  obtain ⟨commands, negated⟩ := p
  obtain ⟨rfl, hlength⟩ := Bool.or_eq_false_iff.mp h
  obtain ⟨command, rfl⟩ := List.length_eq_one_iff.mp (by simpa using hlength)
  exact ⟨command, rfl⟩

theorem assignments?_of_isPipe {p : Pipeline} (h : p.isPipe = true) : p.assignments? = none := by
  unfold Pipeline.assignments?
  split
  · exact absurd h (by simp [Pipeline.isPipe])
  · rfl

theorem pipeline_single (command : Command) :
    pipeline limits ⟨[command], false⟩ = Eval.command limits command := by
  have hpipe : ¬ (Pipeline.isPipe ⟨[command], false⟩) := by simp [Pipeline.isPipe]
  rw [pipeline, if_neg hpipe]

theorem stores_pipeline (p : Pipeline) (c : Context) :
    Stores limits (pipeline limits p) c p.assignments? (c.StopsAfter limits p.assignments?) := by
  cases hpipe : p.isPipe with
  | true =>
    rw [pipeline, if_pos hpipe, assignments?_of_isPipe hpipe]
    exact stores_throw .refused
  | false =>
    obtain ⟨command, rfl⟩ := eq_single_of_isPipe hpipe
    rw [pipeline_single]
    exact stores_command command c

theorem stores_statement (s : Statement) (c : Context) :
    Stores limits (statement limits s) c s.assignments? (s.StopsAfter limits c) := by
  unfold statement Statement.assignments?
  split
  · rename_i hbackground
    exact stores_throw (.background hbackground)
  · rename_i hbackground
    refine (stores_forM stores_pipeline s.pipelines c).mono ?_
    rintro _ ⟨ps, p, qs, done, c', rest, hpipelines, hdone, hc', hstops, rfl⟩
    exact .pipeline (Bool.eq_false_iff.mpr hbackground) hpipelines hdone hc' hstops

/-! ## Evaluating assignments alone -/

theorem command_eq_assignAll {command : Command} {as : List Assignment}
    (h : command.assignments? = some as) : Eval.command limits command = assignAll limits as := by
  unfold Command.assignments? at h
  split at h
  · rename_i bindings
    have hany : ¬ bindings.any (·.isRedirect) = true := by
      intro hany
      rw [mapM_assignment?_of_any hany] at h
      exact absurd h (by simp)
    show (if bindings.any (·.isRedirect) then throw .redirects
      else bindings.forM (binding limits)) = _
    rw [if_neg hany]
    exact forM_binding (mapM_eq_some_iff.mp h)
  · exact absurd h (by simp)

theorem pipeline_eq_assignAll {p : Pipeline} {as : List Assignment}
    (h : p.assignments? = some as) : pipeline limits p = assignAll limits as := by
  cases hpipe : p.isPipe with
  | true =>
    rw [assignments?_of_isPipe hpipe] at h
    exact absurd h (by simp)
  | false =>
    obtain ⟨command, rfl⟩ := eq_single_of_isPipe hpipe
    rw [pipeline_single]
    exact command_eq_assignAll h

theorem forM_pipeline {ps : List Pipeline} {done : List (List Assignment)}
    (h : ps.mapM Pipeline.assignments? = some done) :
    ps.forM (pipeline limits) = assignAll limits done.flatten := by
  induction ps generalizing done with
  | nil =>
    cases h
    rfl
  | cons p ps ih =>
    obtain ⟨as, rest, rfl, has, hrest⟩ := mapM_cons_eq_some_iff.mp h
    rw [List.flatten_cons, assignAll_append, ← ih hrest, ← pipeline_eq_assignAll has]
    rfl

theorem mapM_of_assignments? {s : Statement} {as : List Assignment}
    (h : s.assignments? = some as) :
    s.background = false ∧
      ∃ done, s.pipelines.mapM Pipeline.assignments? = some done ∧ as = done.flatten := by
  unfold Statement.assignments? at h
  split at h
  · exact absurd h (by simp)
  · rename_i hbackground
    obtain ⟨done, hdone, rfl⟩ := Option.map_eq_some_iff.mp h
    exact ⟨Bool.eq_false_iff.mpr hbackground, done, hdone, rfl⟩

/-- How a list groups its assignments to pipelines and commands does not matter. -/
theorem statement_eq_assignAll {s : Statement} {as : List Assignment}
    (h : s.assignments? = some as) : statement limits s = assignAll limits as := by
  obtain ⟨hbackground, done, hdone, rfl⟩ := mapM_of_assignments? h
  rw [statement, hbackground, if_neg Bool.false_ne_true]
  exact forM_pipeline hdone

/-- Where the evaluation of a list stops, its assignments cannot all be stored. -/
theorem storeAll?_of_stopsAfter {s : Statement} {before as : List Assignment}
    (h : s.StopsAfter limits c before) (has : s.assignments? = some as) :
    c.storeAll? limits as = none := by
  cases h with
  | background hbackground =>
    rw [Statement.assignments?, if_pos hbackground] at has
    exact absurd has (by simp)
  | @pipeline ps qs p done c' before hbackground hpipelines hdone hstored hstops =>
    rw [Statement.assignments?, if_neg (Bool.eq_false_iff.mp hbackground), hpipelines] at has
    obtain ⟨all, hall, rfl⟩ := Option.map_eq_some_iff.mp has
    -- The pipelines in front of the failing one have the same assignments either way.
    obtain ⟨done', more, rfl, hdone', hmore⟩ := mapM_append_eq_some_iff.mp hall
    obtain rfl := Option.some.inj (hdone.symm.trans hdone')
    obtain ⟨first, rest, rfl, hfirst, -⟩ := mapM_cons_eq_some_iff.mp hmore
    rw [hfirst] at hstops
    cases hstops with
    | failing hstopsIn =>
      rw [List.flatten_append, Context.storeAll?_append, hstored]
      exact hstopsIn.storeAll?_eq_none rest.flatten

theorem statement_eq_ok_iff {s : Statement} {c' : Context} :
    statement limits s c = .ok () c' ↔
      ∃ as, s.assignments? = some as ∧ c.storeAll? limits as = some c' := by
  have hstores : Stores limits (statement limits s) c _ _ := stores_statement s c
  unfold Stores at hstores
  split at hstores
  · rename_i c₁ hc₁
    obtain ⟨as, has, hall⟩ := hstores
    constructor
    · rintro h
      cases hc₁.symm.trans h
      exact ⟨as, has, hall⟩
    · rintro ⟨as', has', hall'⟩
      rw [has] at has'
      rw [Option.some.inj has', hall'] at hall
      rw [hc₁, Option.some.inj hall]
  · rename_i e c₁ hc₁
    obtain ⟨before, hstops, -⟩ := hstores
    constructor
    · intro h
      exact absurd (hc₁.symm.trans h) (by simp)
    · rintro ⟨as, has, hall⟩
      -- The failure says where the assignments cannot be stored.
      rw [storeAll?_of_stopsAfter hstops has] at hall
      exact absurd hall (by simp)

end Eval

/-! ## What a failing evaluation has stored is determined -/

section

variable {limits : Limits} {c : Context} {s : Statement} {before before' : List Assignment}

theorem Context.StopsIn.of_cons {a : Assignment} {as : List Assignment}
    (h : c.StopsIn limits (a :: as) before) :
    c.store? limits a = none ∧ before = [] ∨
      ∃ d rest, c.store? limits a = some d ∧ before = a :: rest ∧ d.StopsIn limits as rest := by
  obtain ⟨b, after, d, heq, hd, hb⟩ := h
  cases before with
  | nil =>
    obtain ⟨rfl, -⟩ := List.cons.inj heq
    cases hd
    exact .inl ⟨hb, rfl⟩
  | cons a' rest =>
    obtain ⟨rfl, rfl⟩ := List.cons.inj heq
    obtain ⟨d₁, ha, hrest⟩ := Option.bind_eq_some_iff.mp (Context.storeAll?_cons ▸ hd)
    exact .inr ⟨d₁, rest, ha, rfl, b, after, d, rfl, hrest, hb⟩

theorem Context.StopsIn.unique {as : List Assignment} (h : c.StopsIn limits as before)
    (h' : c.StopsIn limits as before') : before = before' := by
  induction as generalizing c before before' with
  | nil =>
    obtain ⟨a, after, d, heq, -⟩ := h
    exact absurd heq (by simp)
  | cons a as ih =>
    rcases h.of_cons with ⟨ha, rfl⟩ | ⟨d, rest, ha, rfl, hrest⟩
    · rcases h'.of_cons with ⟨-, rfl⟩ | ⟨d', rest', ha', -, -⟩
      · rfl
      · exact absurd (ha.symm.trans ha') (by simp)
    · rcases h'.of_cons with ⟨ha', -⟩ | ⟨d', rest', ha', rfl, hrest'⟩
      · exact absurd (ha'.symm.trans ha) (by simp)
      · obtain rfl := Option.some.inj (ha.symm.trans ha')
        exact congrArg (a :: ·) (ih hrest hrest')

theorem Context.StopsAfter.unique {as : Option (List Assignment)}
    (h : c.StopsAfter limits as before) (h' : c.StopsAfter limits as before') :
    before = before' := by
  cases h with
  | refused =>
    cases h'
    rfl
  | failing h =>
    cases h' with
    | failing h' => exact h.unique h'

section

variable {α : Type} {g : α → Option (List Assignment)}
  {stopsAt : α → Context → List Assignment → Prop} {x : α} {xs : List α}

theorem Eval.StopsAmong.of_cons (h : StopsAmong limits g stopsAt (x :: xs) c before) :
    stopsAt x c before ∨ ∃ as d rest, g x = some as ∧ c.storeAll? limits as = some d ∧
      before = as ++ rest ∧ StopsAmong limits g stopsAt xs d rest := by
  obtain ⟨ys, y, zs, done, d, rest, heq, hdone, hd, hstops, rfl⟩ := h
  cases ys with
  | nil =>
    obtain ⟨rfl, -⟩ := List.cons.inj heq
    cases hdone
    cases hd
    exact .inl hstops
  | cons y' ys =>
    obtain ⟨rfl, rfl⟩ := List.cons.inj heq
    obtain ⟨as, done', rfl, has, hdone'⟩ := mapM_cons_eq_some_iff.mp hdone
    rw [List.flatten_cons, Context.storeAll?_append] at hd
    obtain ⟨d₁, hd₁, hrest⟩ := Option.bind_eq_some_iff.mp hd
    exact .inr ⟨as, d₁, done'.flatten ++ rest, has, hd₁, List.append_assoc _ _ _,
      ys, y, zs, done', d, rest, rfl, hdone', hrest, hstops, rfl⟩

theorem Eval.StopsAmong.unique (h : StopsAmong limits g stopsAt xs c before)
    (h' : StopsAmong limits g stopsAt xs c before')
    (hunique : ∀ x c b b', stopsAt x c b → stopsAt x c b' → b = b')
    (hnone : ∀ x c b as, stopsAt x c b → g x = some as → c.storeAll? limits as = none) :
    before = before' := by
  induction xs generalizing c before before' with
  | nil =>
    obtain ⟨ys, y, zs, done, d, rest, heq, -⟩ := h
    exact absurd heq (by simp)
  | cons x xs ih =>
    rcases h.of_cons with hx | ⟨as, d, rest, has, hd, rfl, hrest⟩
    · rcases h'.of_cons with hx' | ⟨as', d', rest', has', hd', -, -⟩
      · exact hunique x c _ _ hx hx'
      · exact absurd ((hnone x c _ as' hx has').symm.trans hd') (by simp)
    · rcases h'.of_cons with hx' | ⟨as', d', rest', has', hd', rfl, hrest'⟩
      · exact absurd ((hnone x c _ as hx' has).symm.trans hd) (by simp)
      · obtain rfl := Option.some.inj (has.symm.trans has')
        obtain rfl := Option.some.inj (hd.symm.trans hd')
        exact congrArg (as ++ ·) (ih hrest hrest')

end

theorem Statement.StopsAfter.among (h : s.StopsAfter limits c before)
    (hbackground : s.background = false) :
    Eval.StopsAmong limits Pipeline.assignments?
      (fun p c => c.StopsAfter limits p.assignments?) s.pipelines c before := by
  cases h with
  | background h => exact absurd (h.symm.trans hbackground) (by simp)
  | pipeline _ hpipelines hdone hstored hstops =>
    exact ⟨_, _, _, _, _, _, hpipelines, hdone, hstored, hstops, rfl⟩

/-- What a failing evaluation has stored is determined by the statement and the context. -/
theorem Statement.StopsAfter.unique (h : s.StopsAfter limits c before)
    (h' : s.StopsAfter limits c before') : before = before' := by
  cases hbackground : s.background with
  | false =>
    refine (h.among hbackground).unique (h'.among hbackground)
      (fun _ _ _ _ => Context.StopsAfter.unique) ?_
    intro p d b as hstops has
    rw [has] at hstops
    cases hstops with
    | failing hstops => simpa using hstops.storeAll?_eq_none []
  | true =>
    cases h with
    | pipeline h _ _ _ _ => exact absurd (h.symm.trans hbackground) (by simp)
    | background _ =>
      cases h' with
      | pipeline h' _ _ _ _ => exact absurd (h'.symm.trans hbackground) (by simp)
      | background _ => rfl

end

end EnvScript
