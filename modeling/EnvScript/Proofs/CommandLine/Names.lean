import EnvScript.CommandLine
import EnvScript.Proofs.Script.Failure

/-!
# The names in a printed context

A run of the command line begins with an empty context and adds variables under names only, those
given as arguments and those that the files assign.
-/

namespace EnvScript

variable {limits : Limits} {script : Text} {c c' : Context} {argv : List Text} {folder : Folder}
  {stdin : List UInt8}

/-- Every variable of the context has a name that a script can write. -/
def Context.Named (c : Context) : Prop := ∀ name ∈ c.names, isName name = true

theorem Context.named_empty : empty.Named := by
  intro name hname
  exact absurd hname List.not_mem_nil

theorem Context.Named.set {name : Text} (h : c.Named) (hname : isName name = true) (value : Text) :
    (c.set name value).Named := by
  intro x hx
  rw [names_set] at hx
  split at hx
  · exact h x hx
  · rcases List.mem_append.mp hx with hx | hx
    · exact h x hx
    · rw [List.mem_singleton.mp hx]
      exact hname

/-- What a script adds to a context are names, whether it succeeds or fails. -/
theorem Context.Named.runScript (h : c.Named) (limits : Limits) (script : Text) :
    (EnvScript.runScript limits script c).context.Named := by
  obtain ⟨as, p, c₁, hran, hends⟩ : ∃ as p c₁, Ran limits (.ofText script) c as p c₁ ∧ _ :=
    runStatements_stores (Nat.lt_succ_self script.length)
  have hnamed : ∀ {bs ts c'}, c.storeAll? limits bs = some c' → bs.map some <+: wordAssignments ts →
      c'.Named := by
    intro bs ts c' hstored hbs name hname
    by_cases hmem : name ∈ c.names
    · exact h name hmem
    · exact (names_of_storeAll? hstored hbs).2 name hname hmem
  obtain ⟨ts, -, hts⟩ := hran.took
  have hstored := hran.storeAll?
  rcases hends with hok | ⟨f, before, c', herror, hstops, hbefore⟩
  · have hcontext : (EnvScript.runScript limits script c).context = c₁ :=
      congrArg Outcome.context hok
    have hstarts : as.map some <+: wordAssignments ts := hts ▸ List.prefix_refl (as.map some)
    rw [hcontext]
    exact hnamed hstored hstarts
  · have hcontext : (EnvScript.runScript limits script c).context = c' :=
      congrArg Outcome.context herror
    obtain ⟨us, -, -, hus⟩ := hstops.took
    rw [hcontext]
    refine @hnamed (as ++ before) (ts ++ us) c' ?_ ?_
    · rw [Context.storeAll?_append, hstored]
      exact hbefore
    · rw [List.map_append, wordAssignments_append, hts]
      exact (List.prefix_append_right_inj _).mpr hus

namespace CommandLine

/-- The computation gives a result of which `Q` holds, or it ends the run with nothing printed. -/
def Gives {α : Type} (x : Except Exit α) (Q : α → Prop) : Prop :=
  match x with
  | .ok a => Q a
  | .error exit => ∀ c json, exit ≠ .printed c json

section

variable {α β ε : Type} {x : Except Exit α} {Q : α → Prop} {R : β → Prop}

theorem Gives.bind {f : α → Except Exit β} (h : Gives x Q) (hf : ∀ a, Q a → Gives (f a) R) :
    Gives (x >>= f) R := by
  cases x with
  | ok a => exact hf a h
  | error exit => exact h

theorem gives_mapError {f : ε → Exit} (y : Except ε α) (hf : ∀ e c json, f e ≠ .printed c json) :
    Gives (y.mapError f) fun _ => True := by
  cases y with
  | ok a => trivial
  | error e => exact hf e

theorem gives_foldlM {f : α → β → Except Exit α} (hf : ∀ a b, Q a → Gives (f a b) Q)
    (bs : List β) {a : α} (ha : Q a) : Gives (bs.foldlM f a) Q := by
  induction bs generalizing a with
  | nil => exact ha
  | cons b bs ih =>
    rw [List.foldlM_cons]
    exact (hf a b ha).bind fun a' ha' => ih ha'

end

theorem gives_initialContext (items : List Text) : Gives (initialContext items) Context.Named := by
  refine gives_foldlM (fun c item hc => ?_) items Context.named_empty
  split
  · split
    · rename_i hname
      exact hc.set hname _
    · exact fun _ _ => Exit.noConfusion
  · exact fun _ _ => Exit.noConfusion

theorem gives_evaluateFile (path : Text) (content : Except FileError (List UInt8)) (hc : c.Named) :
    Gives (evaluateFile path content c) Context.Named := by
  refine (gives_mapError content fun _ _ _ => Exit.noConfusion).bind fun bytes _ => ?_
  refine (gives_mapError (Utf8.decode bytes) fun _ _ _ => Exit.noConfusion).bind fun script _ => ?_
  dsimp only
  split
  · exact hc.runScript _ _
  · exact fun _ _ => Exit.noConfusion

theorem gives_evaluateFiles (paths : List Text) (hc : c.Named) :
    Gives (evaluateFiles folder stdin paths c) Context.Named := by
  induction paths generalizing stdin c with
  | nil => exact hc
  | cons path paths ih =>
    rw [evaluateFiles]
    split
    · exact (gives_evaluateFile path _ hc).bind fun c' hc' => ih hc'
    · exact (gives_evaluateFile path _ hc).bind fun c' hc' => ih hc'

theorem gives_prepare (argv : List Text) : Gives (prepare argv) fun r => r.2.Named := by
  refine (gives_mapError (Arguments.ofList argv) fun e _ _ => ?_).bind fun a _ => ?_
  · cases e <;> exact Exit.noConfusion
  · exact (gives_initialContext a.assignments).bind fun _ hc => hc

theorem gives_printed (argv : List Text) (folder : Folder) (stdin : List UInt8) :
    Gives (do
        let (a, context) ← prepare argv
        return Exit.printed (← evaluateFiles folder stdin (paths a) context) a.json)
      fun exit => ∀ c json, exit = .printed c json → c.Named := by
  refine (gives_prepare argv).bind fun r hr => ?_
  refine (gives_evaluateFiles (paths r.1) hr).bind fun c₁ hc₁ => ?_
  intro c json hprinted
  obtain ⟨rfl, -⟩ := Exit.printed.inj hprinted
  exact hc₁

/-- What a run prints can be written in a script. -/
theorem named_of_run_eq_printed {json : Bool} (h : run argv folder stdin = .printed c json) :
    c.Named := by
  have hgives := gives_printed argv folder stdin
  unfold run at h
  unfold Gives at hgives
  split at hgives
  · rename_i exit hexit
    rw [hexit] at h
    exact hgives c json h
  · rename_i exit hexit
    rw [hexit] at h
    exact absurd h (hgives c json)

end CommandLine

end EnvScript
