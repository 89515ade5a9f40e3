import EnvScript.Proofs.Command.Parser
import Mathlib.Computability.Language

/-!
# The grammar of scripts of assignments

The rows of tokens of which a script of assignments consists, as a regular language:

    script  := NEWLINE* (list (';' | NEWLINE) NEWLINE*)* list? END
    list    := command (('&&' | '||') NEWLINE* command)*
    command := assignment+

What the parser reads as assignments alone belongs to it.
-/

namespace EnvScript

open scoped Computability

/-- The rows of a single token with the property `P`. -/
def single (P : Token → Prop) : Language Token := {ts | ∃ t, P t ∧ ts = [t]}

namespace Grammar

def newlines : Language Token := (single fun t => t.kind = .newline)∗

def assignment : Language Token := single fun t => t.assignment?.isSome

def command : Language Token := assignment * assignment∗

def connective : Language Token := single fun t => ∃ c, t.kind = .operator (.connective c)

def list : Language Token := command * (connective * newlines * command)∗

def separator : Language Token := single fun t => t.kind = .operator .semi ∨ t.kind = .newline

def script : Language Token :=
  newlines * (list * separator * newlines)∗ * (1 + list) * single fun t => t.kind = .eof

end Grammar

/-- What the words among the tokens are as assignments. -/
def wordAssignments (ts : List Token) : List (Option Assignment) :=
  (ts.filter (·.kind == .word)).map Token.assignment?

theorem wordAssignments_append (ts us : List Token) :
    wordAssignments (ts ++ us) = wordAssignments ts ++ wordAssignments us := by
  rw [wordAssignments, List.filter_append, List.map_append]
  rfl

theorem mem_kstar_single {P : Token → Prop} {ts : List Token} :
    ts ∈ (single P)∗ ↔ ∀ t ∈ ts, P t := by
  rw [Language.mem_kstar]
  constructor
  · rintro ⟨rows, rfl, hrows⟩ t ht
    obtain ⟨row, hrow, ht⟩ := List.mem_flatten.mp ht
    obtain ⟨u, hu, rfl⟩ := hrows row hrow
    exact List.mem_singleton.mp ht ▸ hu
  · intro h
    refine ⟨ts.map ([·]), (List.flatMap_singleton' ts).symm, ?_⟩
    intro row hrow
    obtain ⟨t, ht, rfl⟩ := List.mem_map.mp hrow
    exact ⟨t, h t ht, rfl⟩

theorem append_mem_kstar {l : Language Token} {x y : List Token} (hx : x ∈ l) (hy : y ∈ l∗) :
    x ++ y ∈ l∗ := by
  obtain ⟨rows, rfl, hrows⟩ := Language.mem_kstar.mp hy
  exact Language.mem_kstar.mpr ⟨x :: rows, rfl, List.forall_mem_cons.mpr ⟨hx, hrows⟩⟩

theorem kstar_append_mem {l : Language Token} {x y : List Token} (hx : x ∈ l∗) (hy : y ∈ l) :
    x ++ y ∈ l∗ := by
  obtain ⟨rows, rfl, hrows⟩ := Language.mem_kstar.mp hx
  refine Language.mem_kstar.mpr ⟨rows ++ [y], by simp, ?_⟩
  intro row hrow
  rcases List.mem_append.mp hrow with hrow | hrow
  · exact hrows row hrow
  · exact List.mem_singleton.mp hrow ▸ hy

namespace Grammar

variable {ts us : List Token} {t : Token}

theorem mem_command : ts ∈ command ↔ ts ≠ [] ∧ ∀ t ∈ ts, t.assignment?.isSome := by
  constructor
  · rintro ⟨_, ⟨t, ht, rfl⟩, us, hus, rfl⟩
    exact ⟨List.cons_ne_nil t us, List.forall_mem_cons.mpr ⟨ht, mem_kstar_single.mp hus⟩⟩
  · rintro ⟨hne, hts⟩
    obtain ⟨t, us, rfl⟩ := List.exists_cons_of_ne_nil hne
    obtain ⟨ht, hus⟩ := List.forall_mem_cons.mp hts
    exact ⟨[t], ⟨t, ht, rfl⟩, us, mem_kstar_single.mpr hus, rfl⟩

theorem mem_command_single (ht : t.assignment?.isSome) : [t] ∈ command :=
  mem_command.mpr ⟨List.cons_ne_nil t [], List.forall_mem_singleton.mpr ht⟩

theorem mem_list_of_command (h : ts ∈ command) : ts ∈ list :=
  ⟨ts, h, [], Language.nil_mem_kstar _, List.append_nil ts⟩

/-- A list goes on with an operator, newlines and a command: one more turn of the star. -/
theorem mem_list_append {newlines : List Token} {c : Connective} (hts : ts ∈ list)
    (ht : t.kind = .operator (.connective c)) (hnewlines : newlines ∈ Grammar.newlines)
    (hus : us ∈ command) : ts ++ (t :: newlines ++ us) ∈ list := by
  obtain ⟨first, hfirst, rest, hrest, rfl⟩ := hts
  refine ⟨first, hfirst, rest ++ (t :: newlines ++ us), kstar_append_mem hrest ?_, ?_⟩
  · exact ⟨t :: newlines, ⟨[t], ⟨t, ⟨c, ht⟩, rfl⟩, newlines, hnewlines, rfl⟩, us, hus, rfl⟩
  · exact (List.append_assoc _ _ _).symm

/-- The last command of a list goes on with an assignment. -/
theorem mem_list_concat (hts : ts ∈ list) (ht : t.assignment?.isSome) : ts ++ [t] ∈ list := by
  have hcommand : ∀ {ws}, ws ∈ command → ws ++ [t] ∈ command := by
    intro ws hws
    refine mem_command.mpr ⟨by simp, fun u hu => ?_⟩
    rcases List.mem_append.mp hu with hu | hu
    · exact (mem_command.mp hws).2 u hu
    · exact List.mem_singleton.mp hu ▸ ht
  obtain ⟨first, hfirst, _, hstar, rfl⟩ := hts
  obtain ⟨rows, rfl, hrows⟩ := Language.mem_kstar.mp hstar
  rcases List.eq_nil_or_concat rows with rfl | ⟨before, row, rfl⟩
  · simpa using mem_list_of_command (hcommand hfirst)
  · obtain ⟨_, ⟨_, ⟨operator, ⟨c, hc⟩, rfl⟩, newlines, hnewlines, rfl⟩, ws, hws, rfl⟩ :=
      hrows row (by simp)
    have hbefore : first ++ before.flatten ∈ list :=
      ⟨first, hfirst, _, Language.mem_kstar.mpr ⟨before, rfl, fun r hr => hrows r (by simp [hr])⟩,
        rfl⟩
    simpa using mem_list_append hbefore hc hnewlines (hcommand hws)

/-! ## What has been read as assignments -/

theorem filterMap_assignment? {as : List Assignment}
    (h : ts.map Token.assignment? = as.map some) : ts.filterMap Token.assignment? = as := by
  have hid := congrArg (List.filterMap id) h
  simpa [List.filterMap_map] using hid

theorem mem_command_of_wording {as : List Assignment} (h : Wording ts (some as)) :
    ts ∈ command := by
  obtain ⟨hcloses, hmap⟩ := h
  obtain ⟨t, ht, -⟩ := hcloses.exists_token
  refine mem_command.mpr ⟨List.ne_nil_of_mem ht, ?_⟩
  intro u hu
  have hmem := List.mem_map_of_mem (f := Token.assignment?) hu
  rw [hmap as rfl] at hmem
  obtain ⟨a, -, ha⟩ := List.mem_map.mp hmem
  exact Option.isSome_iff_exists.mpr ⟨a, ha.symm⟩

/-- A token other than a word is no assignment. -/
theorem assignment?_eq_none (h : t.kind ≠ .word) : t.assignment? = none := by
  unfold Token.assignment?
  split
  · rename_i w hw
    exact absurd (by rw [Token.kind, hw]; rfl) h
  · rfl

theorem filterMap_of_kind (h : ∀ t ∈ ts, t.kind ≠ .word) :
    ts.filterMap Token.assignment? = [] :=
  List.filterMap_eq_nil_iff.mpr fun t ht => assignment?_eq_none (h t ht)

/-- Pipelines that consist of assignments are read from a list of the grammar. -/
theorem mem_list_of_chained {ps : List Pipeline} {done : List (List Assignment)}
    (h : Chained ts ps) (hps : ps.mapM Pipeline.assignments? = some done) :
    ts ∈ list ∧ ts.filterMap Token.assignment? = done.flatten := by
  induction h generalizing done with
  | @one ts p h =>
    obtain ⟨as, _, rfl, has, hnil⟩ := mapM_cons_eq_some_iff.mp hps
    cases hnil
    rw [has] at h
    refine ⟨mem_list_of_command (mem_command_of_wording h), ?_⟩
    rw [filterMap_assignment? (h.map_assignment? as rfl)]
    exact (List.append_nil as).symm
  | @snoc ts newlines us ps c t p h ht hnewlines hp ih =>
    obtain ⟨done', last, rfl, hdone', hlast⟩ := mapM_append_eq_some_iff.mp hps
    obtain ⟨as, _, rfl, has, hnil⟩ := mapM_cons_eq_some_iff.mp hlast
    cases hnil
    obtain ⟨hlist, hfilter⟩ := ih hdone'
    rw [has] at hp
    constructor
    · exact mem_list_append hlist ht (mem_kstar_single.mpr hnewlines) (mem_command_of_wording hp)
    · have hnone : (t :: newlines).filterMap Token.assignment? = [] := by
        refine filterMap_of_kind (List.forall_mem_cons.mpr ⟨?_, fun u hu => ?_⟩)
        · rw [ht]
          exact Kind.noConfusion
        · rw [hnewlines u hu]
          exact Kind.noConfusion
      rw [List.filterMap_append, List.filterMap_append, hfilter, hnone,
        filterMap_assignment? (hp.map_assignment? as rfl), List.flatten_append]
      simp

/-! ## Statement by statement -/

/-- The rows of the grammar as they are read, with the newlines in front of each statement. -/
inductive Rows : List Token → Prop
  | done {newlines : List Token} {e : Token} (hnewlines : newlines ∈ Grammar.newlines)
    (he : e.kind = .eof) : Rows (newlines ++ [e])
  | last {newlines body : List Token} {e : Token} (hnewlines : newlines ∈ Grammar.newlines)
    (hbody : body ∈ list) (he : e.kind = .eof) : Rows (newlines ++ (body ++ [e]))
  | cons {newlines body rest : List Token} {t : Token} (hnewlines : newlines ∈ Grammar.newlines)
    (hbody : body ∈ list) (ht : t.kind = .operator .semi ∨ t.kind = .newline) (hrest : Rows rest) :
    Rows (newlines ++ (body ++ t :: rest))

theorem rows_of_statements {statements : List (List Token)} {newlines last : List Token} {e : Token}
    (hnewlines : newlines ∈ Grammar.newlines)
    (hstatements : ∀ s ∈ statements, s ∈ list * separator * Grammar.newlines)
    (hlast : last ∈ 1 + list) (he : e.kind = .eof) :
    Rows (newlines ++ (statements.flatten ++ (last ++ [e]))) := by
  induction statements generalizing newlines with
  | nil =>
    rcases hlast with hnil | hlist
    · rw [show last = [] from hnil]
      exact .done hnewlines he
    · exact .last hnewlines hlist he
  | cons s statements ih =>
    obtain ⟨hs, hothers⟩ := List.forall_mem_cons.mp hstatements
    obtain ⟨_, ⟨body, hbody, _, ⟨t, ht, rfl⟩, rfl⟩, more, hmore, rfl⟩ := hs
    -- The newlines behind a separator are those in front of the next statement.
    have hrows := Rows.cons hnewlines hbody ht (ih hmore hothers)
    simpa using hrows

theorem mem_script_iff : ts ∈ script ↔ Rows ts := by
  constructor
  · rintro ⟨_, ⟨_, ⟨newlines, hnewlines, _, hstar, rfl⟩, last, hlast, rfl⟩, _, ⟨e, he, rfl⟩, rfl⟩
    obtain ⟨statements, rfl, hstatements⟩ := Language.mem_kstar.mp hstar
    simpa using rows_of_statements hnewlines hstatements hlast he
  · intro h
    induction h with
    | @done newlines e hnewlines he =>
      refine ⟨newlines, ⟨newlines, ⟨newlines, hnewlines, [], Language.nil_mem_kstar _, ?_⟩, [],
        .inl rfl, ?_⟩, [e], ⟨e, he, rfl⟩, rfl⟩
      · simp
      · simp
    | @last newlines body e hnewlines hbody he =>
      refine ⟨newlines ++ body, ⟨newlines, ⟨newlines, hnewlines, [], Language.nil_mem_kstar _, ?_⟩,
        body, .inr hbody, rfl⟩, [e], ⟨e, he, rfl⟩, ?_⟩
      · simp
      · simp
    | @cons newlines body rest t hnewlines hbody ht hrest ih =>
      obtain ⟨_, ⟨_, ⟨more, hmore, statements, hstatements, rfl⟩, last, hlast, rfl⟩, _,
        ⟨e, he, rfl⟩, rfl⟩ := ih
      -- And the other way round: what comes in front of the rest ends the first statement.
      have hstatement : body ++ [t] ++ more ∈ list * separator * Grammar.newlines :=
        ⟨_, ⟨body, hbody, [t], ⟨t, ht, rfl⟩, rfl⟩, more, hmore, rfl⟩
      refine ⟨_, ⟨_, ⟨newlines, hnewlines, _, append_mem_kstar hstatement hstatements, rfl⟩, last,
        hlast, rfl⟩, [e], ⟨e, he, rfl⟩, ?_⟩
      simp

/-! ## The tokens of a row -/

theorem mem_list_token (h : ts ∈ list) :
    ∀ t ∈ ts,
      t.assignment?.isSome ∨ t.kind = .newline ∨ ∃ c, t.kind = .operator (.connective c) := by
  obtain ⟨first, hfirst, _, hstar, rfl⟩ := h
  obtain ⟨rows, rfl, hrows⟩ := Language.mem_kstar.mp hstar
  intro t ht
  rcases List.mem_append.mp ht with ht | ht
  · exact .inl ((mem_command.mp hfirst).2 t ht)
  · obtain ⟨row, hrow, ht⟩ := List.mem_flatten.mp ht
    obtain ⟨_, ⟨_, ⟨c, hc, rfl⟩, more, hmore, rfl⟩, ws, hws, rfl⟩ := hrows row hrow
    rcases List.mem_append.mp ht with ht | ht
    · rcases List.mem_append.mp ht with ht | ht
      · exact .inr (.inr (List.mem_singleton.mp ht ▸ hc))
      · exact .inr (.inl (mem_kstar_single.mp hmore t ht))
    · exact .inl ((mem_command.mp hws).2 t ht)

/-- In front of the end token there are assignments, separators and operators between pipelines. -/
theorem Rows.exists_end (h : Rows ts) :
    ∃ us e, ts = us ++ [e] ∧ e.kind = .eof ∧ ∀ t ∈ us, t.assignment?.isSome ∨ t.kind = .newline ∨
      t.kind = .operator .semi ∨ ∃ c, t.kind = .operator (.connective c) := by
  induction h with
  | @done newlines e hnewlines he =>
    exact ⟨newlines, e, rfl, he, fun t ht => .inr (.inl (mem_kstar_single.mp hnewlines t ht))⟩
  | @last newlines body e hnewlines hbody he =>
    refine ⟨newlines ++ body, e, by simp, he, fun t ht => ?_⟩
    rcases List.mem_append.mp ht with ht | ht
    · exact .inr (.inl (mem_kstar_single.mp hnewlines t ht))
    · have := mem_list_token hbody t ht
      tauto
  | @cons newlines body rest t hnewlines hbody ht hrest ih =>
    obtain ⟨us, e, rfl, he, hus⟩ := ih
    refine ⟨newlines ++ (body ++ t :: us), e, by simp, he, fun u hu => ?_⟩
    rcases List.mem_append.mp hu with hu | hu
    · exact .inr (.inl (mem_kstar_single.mp hnewlines u hu))
    · rcases List.mem_append.mp hu with hu | hu
      · have := mem_list_token hbody u hu
        tauto
      · rcases List.mem_cons.mp hu with rfl | hu
        · tauto
        · exact hus u hu

theorem wordAssignments_of_forall (hall : ∀ t ∈ ts, t.kind = .word → t.assignment?.isSome) :
    wordAssignments ts = (ts.filterMap Token.assignment?).map some := by
  unfold wordAssignments
  induction ts with
  | nil => rfl
  | cons t ts ih =>
    obtain ⟨ht, hts⟩ := List.forall_mem_cons.mp hall
    by_cases hword : t.kind = .word
    · obtain ⟨a, ha⟩ := Option.isSome_iff_exists.mp (ht hword)
      rw [List.filter_cons_of_pos (by simpa using hword), List.filterMap_cons_some ha,
        List.map_cons, List.map_cons, ih hts, ha]
    · rw [List.filter_cons_of_neg (by simpa using hword),
        List.filterMap_cons_none (assignment?_eq_none hword), ih hts]

/-- The words of a row are all its assignments. -/
theorem Rows.wordAssignments_eq (h : Rows ts) :
    wordAssignments ts = (ts.filterMap Token.assignment?).map some := by
  refine wordAssignments_of_forall ?_
  obtain ⟨us, e, rfl, he, hus⟩ := h.exists_end
  intro t ht hword
  -- Of the tokens of a row only assignments are words.
  rcases List.mem_append.mp ht with ht | ht
  · rcases hus t ht with h | h | h | ⟨c, h⟩
    · exact h
    all_goals
      rw [h] at hword
      exact absurd hword (by simp)
  · rw [List.mem_singleton.mp ht, he] at hword
    exact absurd hword (by simp)

theorem wordAssignments_list (h : ts ∈ list) :
    wordAssignments ts = (ts.filterMap Token.assignment?).map some := by
  refine wordAssignments_of_forall fun t ht hword => ?_
  rcases mem_list_token h t ht with h | h | ⟨c, h⟩
  · exact h
  all_goals
    rw [h] at hword
    exact absurd hword (by simp)

end Grammar

end EnvScript
