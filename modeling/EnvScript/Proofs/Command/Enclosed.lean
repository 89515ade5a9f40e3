import EnvScript.Proofs.Command.Head
import EnvScript.Proofs.Command.Parser
import Mathlib.Data.List.Forall2

/-!
# Statements that are compound commands

A compound command is passed token by token up to the one that closes it. If its tokens close all
that they open, the statement ends in front of what comes behind them. If they leave something open,
the statement ends further on or not at all.
-/

namespace EnvScript

variable {limits : Limits} {p : Parser} {t t' u : Token} {ts us body : List Token} {s : Scanner}
  {state state' : List Text × Bool} {commandStart : Bool} {kind : CompoundKind} {n : Nat}

/-- A statement of one compound command. -/
def Statement.ofCompound (kind : CompoundKind) : Statement :=
  ⟨[⟨[.compound kind], false⟩], [], false⟩

/-! ## Passing tokens -/

theorem Passes.append {state'' : List Text × Bool} (h : Passes state ts state')
    (h' : Passes state' us state'') : Passes state (ts ++ us) state'' := by
  induction h with
  | nil => exact h'
  | cons hclosers ht _ ih => exact .cons hclosers ht (ih h')

theorem Passes.single {closers : List Text} (hclosers : closers ≠ []) (ht : t.kind ≠ .eof) :
    Passes (closers, commandStart) [t] (closersAfter closers commandStart t, t.startsCommand) :=
  .cons hclosers ht (.nil _)

/-- Two tokens that are the same inside a compound command. -/
structure Token.Like (t t' : Token) : Prop where
  kind : t'.kind = t.kind
  text : t'.text = t.text

theorem Token.Like.step (h : t.Like t') (closers : List Text) (commandStart : Bool) :
    closersAfter closers commandStart t' = closersAfter closers commandStart t ∧
      t'.startsCommand = t.startsCommand := by
  obtain ⟨hkind, htext⟩ := h
  obtain ⟨lexeme, text, start, stop⟩ := t
  obtain ⟨lexeme', text', start', stop'⟩ := t'
  obtain rfl : text' = text := htext
  have hkind : lexeme'.kind = lexeme.kind := hkind
  cases lexeme <;> cases lexeme' <;> first
    | exact Kind.noConfusion hkind
    | exact ⟨rfl, rfl⟩
    | (obtain rfl := Kind.operator.inj hkind; exact ⟨rfl, rfl⟩)

theorem Passes.congr (h : Passes state ts state') (hts : List.Forall₂ Token.Like ts us) :
    Passes state us state' := by
  induction h generalizing us with
  | nil state =>
    cases hts
    exact .nil state
  | @cons closers commandStart t ts state' hclosers ht _ ih =>
    cases hts with
    | @cons _ t' _ us hlike hts =>
      obtain ⟨hstep, hstart⟩ := hlike.step closers commandStart
      apply Passes.cons hclosers (hlike.kind ▸ ht)
      rw [hstep, hstart]
      exact ih hts

/-- The kind of a compound command that begins with `t` and `u`. -/
def openedKind? (t u : Token) : Option CompoundKind :=
  if t.kind = .operator .leftParen then
    some (if u.kind = .operator .leftParen then .arithmetic else .subshell)
  else CompoundKind.ofOpener? t.text

theorem Token.Like.startsCompound_eq (h : t.Like t') :
    Parse.startsCompound t' = Parse.startsCompound t := by
  unfold Parse.startsCompound
  rw [h.kind, h.text]

theorem Token.Like.openedKind?_eq {u' : Token} (h : t.Like t') (hu : u.Like u') :
    openedKind? t' u' = openedKind? t u := by
  unfold openedKind?
  rw [h.kind, h.text, hu.kind]

namespace Parse

variable {α β : Type} {m : Parse α} {Q : CompoundKind → Parser → Prop} {E : ReadError → Prop}

theorem ends_countRound (hp : p.Faces limits ts s)
    (hrounds : (p.iterations + 1 : Nat) ≤ limits.iterations) :
    Ends (countRound limits) p
      (fun _ p' => p'.Faces limits ts s ∧ p'.iterations = p.iterations + 1) E := by
  unfold Ends
  rw [countRound_of_le hrounds]
  exact ⟨hp, rfl⟩

/-- One round of the loop for each of the tokens. The induction is on the tokens. -/
theorem ends_compoundRounds (h : Passes state ts state') (hp : p.Faces limits (ts ++ us) s)
    (hrounds : (p.iterations + ts.length : Nat) ≤ limits.iterations)
    (hrest : ∀ p', p'.Faces limits us s → p'.iterations = p.iterations + ts.length →
      Ends (repeatUpTo limits (compoundStep limits kind) n state') p' Q E) :
    Ends (repeatUpTo limits (compoundStep limits kind) (ts.length + n) state) p Q E := by
  induction h generalizing p with
  | nil state =>
    rw [List.length_nil, Nat.zero_add]
    exact hrest p hp rfl
  | @cons closers commandStart t ts state' hclosers ht _ ih =>
    obtain ⟨closer, closers, rfl⟩ := List.exists_cons_of_ne_nil hclosers
    rw [List.length_cons] at hrounds hrest ⊢
    rw [Nat.add_right_comm]
    have hstep : Ends (compoundStep limits kind (closer :: closers, commandStart)) p
        (fun r p' => r = .inl (closersAfter (closer :: closers) commandStart t, t.startsCommand) ∧
          p'.Faces limits (ts ++ us) s ∧ p'.iterations = p.iterations + 1) E := by
      rw [compoundStep_cons]
      refine Ends.bind (ends_countRound hp (by omega)) ?_
      rintro _ p₁ ⟨hp₁, hrounds₁⟩
      refine Ends.bind (ends_advance hp₁) ?_
      rintro _ p₂ ⟨rfl, hp₂, hrounds₂⟩
      rw [if_neg ht]
      exact ends_pure ⟨rfl, hp₂, hrounds₂.trans hrounds₁⟩
    refine Ends.bind hstep ?_
    rintro _ p₁ ⟨rfl, hp₁, hrounds₁⟩
    apply ih hp₁ (by omega)
    intro p' hp' hrounds'
    exact hrest p' hp' (by omega)

/-- A compound command whose first tokens lead to `state` goes on from there. -/
theorem ends_compound (hkind : openedKind? t u = some kind)
    (h : Passes ([kind.closer], true) (u :: body) state)
    (hp : p.Faces limits (t :: u :: (body ++ us)) s)
    (hrounds : (p.iterations + (u :: body).length : Nat) ≤ limits.iterations)
    (hrest : ∀ n p', p'.Faces limits us s → p'.iterations = p.iterations + (u :: body).length →
      Ends (repeatUpTo limits (compoundStep limits kind) (n + 1) state) p' Q E) :
    Ends (compound limits) p Q E := by
  refine Ends.bind (ends_advance hp) ?_
  rintro t p₁ ⟨rfl, hp₁, hrounds₁⟩
  have hopened : Ends (compoundKind limits t) p₁ (fun k p' => k = kind ∧
      p'.Faces limits (u :: (body ++ us)) s ∧ p'.iterations = p₁.iterations) E := by
    unfold openedKind? at hkind
    unfold compoundKind
    split at hkind
    · rename_i hparen
      rw [if_pos hparen]
      refine Ends.bind (ends_check hp₁ _) ?_
      rintro _ p₂ ⟨rfl, hp₂, hrounds₂⟩
      obtain rfl := Option.some.inj hkind
      by_cases hu : u.kind = .operator .leftParen
      · rw [if_pos (beq_iff_eq.mpr hu), if_pos hu]
        exact ends_pure ⟨rfl, hp₂, hrounds₂⟩
      · rw [if_neg (fun h => hu (beq_iff_eq.mp h)), if_neg hu]
        exact ends_pure ⟨rfl, hp₂, hrounds₂⟩
    · rename_i hparen
      rw [if_neg hparen, hkind]
      exact ends_pure ⟨rfl, hp₁, rfl⟩
  refine Ends.bind hopened ?_
  rintro kind p₂ ⟨rfl, hp₂, hrounds₂⟩
  -- The rounds that may still be counted are as many as the tokens, or more.
  obtain ⟨n, hn⟩ : ∃ n, (limits.iterations - p₂.iterations).toNat + 1 =
      (u :: body).length + (n + 1) :=
    ⟨(limits.iterations - p₂.iterations).toNat - (u :: body).length, by omega⟩
  show Ends (repeatUpTo limits _ ((limits.iterations - p₂.iterations).toNat + 1)
    ([kind.closer], true)) p₂ Q E
  rw [hn]
  apply ends_compoundRounds h hp₂ (by omega)
  intro p' hp' hrounds'
  exact hrest n p' hp' (by omega)

/-! ## In front of the command -/

theorem kind_of_startsCompound (ht : startsCompound t = true) :
    t.kind ≠ .newline ∧ t.kind ≠ .eof ∧ t.kind ≠ .bang := by
  have hne : ∀ k ∈ [Kind.newline, .eof, .bang], t.kind ≠ k := by
    intro k hk heq
    rw [startsCompound, heq] at ht
    simp only [List.mem_cons, List.not_mem_nil, or_false] at hk
    rcases hk with rfl | rfl | rfl <;> exact absurd ht (by simp)
  exact ⟨hne _ (by simp), hne _ (by simp), hne _ (by simp)⟩

/-- A loop that ends in its first round. -/
theorem ends_loop_of_inr {step : α → Parse (α ⊕ β)} {a : α} {R : β → Parser → Prop}
    (h : Ends (step a) p (fun r p' => ∃ b, r = .inr b ∧ R b p') E) :
    Ends (loop limits step a) p R E := by
  show Ends (repeatUpTo limits step (_ + 1) a) p R E
  refine Ends.bind h ?_
  rintro _ p' ⟨b, rfl, hb⟩
  exact ends_pure hb

theorem ends_skipNewlines (ht : t.kind ≠ .newline) (hp : p.Faces limits (t :: ts) s) :
    Ends (skipNewlines limits) p
      (fun _ p' => p'.Faces limits (t :: ts) s ∧ p'.iterations = p.iterations) E := by
  apply ends_loop_of_inr
  refine Ends.bind (ends_accept_none hp (by simpa using ht)) ?_
  rintro _ p' ⟨rfl, hp'⟩
  exact ends_pure ⟨(), rfl, hp'⟩

theorem ends_command {R : Command → Parser → Prop} (ht : startsCompound t = true)
    (hp : p.Faces limits (t :: ts) s) (hrounds : (p.iterations + 1 : Nat) ≤ limits.iterations)
    (h : ∀ p', p'.Faces limits (t :: ts) s → p'.iterations = p.iterations + 1 →
      Ends (compound limits) p' (fun kind p'' => R (.compound kind) p'') E) :
    Ends (command limits) p R E := by
  refine Ends.bind (ends_countRound hp hrounds) ?_
  rintro _ p₁ ⟨hp₁, hrounds₁⟩
  refine Ends.bind (ends_peek hp₁ (n := 0) rfl) ?_
  rintro t p₂ ⟨rfl, hp₂, -, hrounds₂⟩
  rw [if_pos ht]
  refine Ends.bind (h p₂ hp₂ (hrounds₂.trans hrounds₁)) ?_
  intro kind p₃ hR
  exact ends_pure hR

/-! ## What is read when the tokens close all that they open -/

section

variable {newline : Token} (ht : startsCompound t = true) (hkind : openedKind? t u = some kind)
  (h : Passes ([kind.closer], true) (u :: body) ([], commandStart))

include ht hkind h

/-- The command ends behind the last of the tokens. -/
theorem ends_command_closed (hp : p.Faces limits (t :: u :: (body ++ us)) s)
    (hrounds : (p.iterations + (t :: u :: body).length : Nat) ≤ limits.iterations) :
    Ends (command limits) p (fun c p' => c = .compound kind ∧ p'.Faces limits us s) E := by
  rw [List.length_cons] at hrounds
  apply ends_command ht hp (by omega)
  intro p₁ hp₁ hrounds₁
  apply ends_compound hkind h hp₁ (by omega)
  intro n p₂ hp₂ _
  exact ends_pure ⟨rfl, hp₂⟩

theorem ends_pipeline_closed (hnewline : newline.kind = .newline)
    (hp : p.Faces limits (t :: u :: (body ++ [newline])) s)
    (hrounds : (p.iterations + (t :: u :: body).length : Nat) ≤ limits.iterations) :
    Ends (pipeline limits) p
      (fun q p' => q = ⟨[.compound kind], false⟩ ∧ p'.Faces limits [newline] s) E := by
  refine Ends.bind (ends_accept_none hp (by simpa using (kind_of_startsCompound ht).2.2)) ?_
  rintro _ p₁ ⟨rfl, hp₁, hrounds₁⟩
  refine Ends.bind (ends_command_closed ht hkind h hp₁ (by omega)) ?_
  rintro _ p₂ ⟨rfl, hp₂⟩
  apply ends_loop_of_inr
  refine Ends.bind (ends_accept_none hp₂ (by simp [hnewline])) ?_
  rintro _ p₃ ⟨rfl, hp₃, -⟩
  exact ends_pure ⟨_, rfl, rfl, hp₃⟩

theorem ends_list_closed (hnewline : newline.kind = .newline)
    (hp : p.Faces limits (t :: u :: (body ++ [newline])) s)
    (hrounds : (p.iterations + (t :: u :: body).length : Nat) ≤ limits.iterations) :
    Ends (list limits) p
      (fun r p' => r = .ofCompound kind ∧ p'.Faces limits [newline] s) E := by
  refine Ends.bind (ends_pipeline_closed ht hkind h hnewline hp hrounds) ?_
  rintro _ p₁ ⟨rfl, hp₁⟩
  apply ends_loop_of_inr
  refine Ends.bind (ends_accept_none hp₁ (by simp [hnewline])) ?_
  rintro _ p₂ ⟨rfl, hp₂, -⟩
  exact ends_pure ⟨_, rfl, rfl, hp₂⟩

/-- In front of a newline the statement is the compound command, and the newline is taken off. -/
theorem ends_statement?_closed (hnewline : newline.kind = .newline)
    (hp : p.Faces limits (t :: u :: (body ++ [newline])) s)
    (hrounds : (p.iterations + (t :: u :: body).length : Nat) ≤ limits.iterations) :
    Ends (statement? limits) p
      (fun r p' => r = some (.ofCompound kind) ∧ p'.Faces limits [] s) E := by
  obtain ⟨hstart, hend, -⟩ := kind_of_startsCompound ht
  refine Ends.bind (ends_skipNewlines hstart hp) ?_
  rintro _ p₁ ⟨hp₁, hrounds₁⟩
  refine Ends.bind (ends_check hp₁ .eof) ?_
  rintro _ p₂ ⟨rfl, hp₂, hrounds₂⟩
  rw [if_neg (fun heof => hend (beq_iff_eq.mp heof))]
  refine Ends.bind (ends_list_closed ht hkind h hnewline hp₂ (by omega)) ?_
  rintro _ p₃ ⟨rfl, hp₃⟩
  refine Ends.bind (ends_accept_none hp₃ (by simp [hnewline])) ?_
  rintro _ p₄ ⟨rfl, hp₄, -⟩
  rw [if_neg (by simp)]
  refine Ends.bind (ends_accept_some hp₄ (by simp [hnewline])) ?_
  rintro _ p₅ ⟨rfl, hp₅, -⟩
  rw [if_pos Option.isSome_some]
  exact ends_pure ⟨rfl, hp₅⟩

end

/-! ## What is read when they leave something open -/

theorem Reads.unread_lt {R : List Token → α → Parser → Prop} (h : Reads limits m p R)
    (hp : p.unread < n) : Ends m p (fun _ p' => p'.unread < n) fun _ => True := by
  refine Ends.mono h ?_
  rintro a p' ⟨ts, hts, -⟩
  have hle := hts.unread_le
  omega

section

variable (ht : startsCompound t = true) (hkind : openedKind? t u = some kind)
  (h : Passes ([kind.closer], true) (u :: body) state) (hopen : state.1 ≠ [])

include ht hkind h hopen

/-- The command takes off one more token at least. -/
theorem ends_command_open (hp : p.Faces limits (t :: u :: body) s)
    (hrounds : (p.iterations + (t :: u :: body).length : Nat) ≤ limits.iterations) :
    Ends (command limits) p (fun _ p' => p'.unread < s.cursor.rest.length) fun _ => True := by
  rw [List.length_cons] at hrounds
  apply ends_command ht hp (by omega)
  intro p₁ hp₁ hrounds₁
  have hp₁' : p₁.Faces limits (t :: u :: (body ++ [])) s := by rwa [List.append_nil]
  apply ends_compound hkind h hp₁' (by omega)
  rintro n p₂ ⟨us, hus, hnil⟩ -
  obtain ⟨hahead, rfl⟩ := List.append_eq_nil_iff.mp hnil
  have hunread : p₂.unread = s.cursor.rest.length := by
    cases hus
    rw [Parser.unread, hahead]
    rfl
  refine Ends.mono (reads_compoundRounds (n + 1) state) ?_
  rintro k p₃ ⟨ts, hts, -, b, hpasses⟩
  have hle := hts.unread_le
  cases hpasses with
  | nil => exact absurd rfl hopen
  | @cons _ _ v ts _ _ hv _ =>
    have hcount : 0 < (v :: ts).countP (·.kind != .eof) :=
      List.countP_pos_iff.mpr ⟨v, List.mem_cons_self, by simpa using hv⟩
    omega

theorem ends_pipeline_open (hp : p.Faces limits (t :: u :: body) s)
    (hrounds : (p.iterations + (t :: u :: body).length : Nat) ≤ limits.iterations) :
    Ends (pipeline limits) p (fun _ p' => p'.unread < s.cursor.rest.length) fun _ => True := by
  refine Ends.bind (ends_accept_none hp (by simpa using (kind_of_startsCompound ht).2.2)) ?_
  rintro _ p₁ ⟨rfl, hp₁, hrounds₁⟩
  refine Ends.bind (ends_command_open ht hkind h hopen hp₁ (by omega)) ?_
  intro first p₂ hp₂
  refine Reads.unread_lt (reads_loop (S := fun _ _ _ => True) (fun _ _ _ => True) trivial ?_) hp₂
  intro _ commands p₃ _ _
  refine (reads_accept _).bind ?_
  intro _ pipe p₄ _ _
  cases pipe with
  | none => exact reads_pure trivial
  | some _ =>
    refine reads_skipNewlines.bind ?_
    intro _ _ p₅ _ _
    refine reads_command.bind ?_
    intro _ _ p₆ _ _
    exact reads_pure trivial

theorem ends_list_open (hp : p.Faces limits (t :: u :: body) s)
    (hrounds : (p.iterations + (t :: u :: body).length : Nat) ≤ limits.iterations) :
    Ends (list limits) p (fun _ p' => p'.unread < s.cursor.rest.length) fun _ => True := by
  refine Ends.bind (ends_pipeline_open ht hkind h hopen hp hrounds) ?_
  intro first p₁ hp₁
  refine Reads.unread_lt (reads_loop (S := fun _ _ _ => True) (fun _ _ _ => True) trivial ?_) hp₁
  rintro _ ⟨pipelines, connectives⟩ p₂ _ _
  refine (reads_accept _).bind ?_
  intro _ connective p₃ _ _
  cases connective with
  | none => exact reads_pure trivial
  | some _ =>
    refine reads_skipNewlines.bind ?_
    intro _ _ p₄ _ _
    refine reads_pipeline.bind ?_
    intro _ _ p₅ _ _
    exact reads_pure trivial

/-- A statement of tokens that leave something open ends further on, if it ends. -/
theorem ends_statement?_open (hp : p.Faces limits (t :: u :: body) s)
    (hrounds : (p.iterations + (t :: u :: body).length : Nat) ≤ limits.iterations) :
    Ends (statement? limits) p (fun _ p' => p'.unread < s.cursor.rest.length) fun _ => True := by
  obtain ⟨hstart, hend, -⟩ := kind_of_startsCompound ht
  refine Ends.bind (ends_skipNewlines hstart hp) ?_
  rintro _ p₁ ⟨hp₁, hrounds₁⟩
  refine Ends.bind (ends_check hp₁ .eof) ?_
  rintro _ p₂ ⟨rfl, hp₂, hrounds₂⟩
  rw [if_neg (fun heof => hend (beq_iff_eq.mp heof))]
  refine Ends.bind (ends_list_open ht hkind h hopen hp₂ (by omega)) ?_
  intro r p₃ hp₃
  refine Ends.bind (Reads.unread_lt (reads_accept _) hp₃) ?_
  intro amp p₄ hp₄
  split
  · exact ends_pure hp₄
  · refine Ends.bind (Reads.unread_lt (reads_accept _) hp₄) ?_
    intro separator p₅ hp₅
    split
    · exact ends_pure hp₅
    · refine Ends.bind (Reads.unread_lt (reads_check .eof) hp₅) ?_
      intro atEnd p₆ hp₆
      split
      · exact ends_pure hp₆
      · refine Ends.bind (Reads.unread_lt (reads_peek 0) hp₆) ?_
        intro v p₇ hp₇
        exact Ends.mono fails_unexpected fun _ _ hfalse => hfalse.elim

end

end Parse

end EnvScript
