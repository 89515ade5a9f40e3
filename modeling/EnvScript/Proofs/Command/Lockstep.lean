import EnvScript.Proofs.Command.Coupling
import EnvScript.Proofs.Command.Parser

/-!
# The grammar in lockstep

Every rule of the grammar does the same on both sides of a coupling. Only between statements can the
first parser come to the end of its text while the second goes on behind the seam.
-/

namespace EnvScript

namespace Coupling

open Parse

variable {γ δ : Type} {limits limits' : Limits} {C : Coupling limits limits'}
  {p p' q q' : Parser} {t t' : Token} {B : γ → Parser → δ → Parser → Prop}

/-! ## Commands -/

/-- Newlines are skipped alike, or the first parser ends at the seam. The second then is about to
skip newlines behind it. -/
theorem alike_skipNewlines (h : C.state p q) :
    C.Alike (skipNewlines limits) (skipNewlines limits') p q
        (fun _ p' _ q' => ∃ t t', C.Next t p' t' q' ∧ C.Matches t t') ∨
      ∃ p' q', skipNewlines limits p = .ok () p' ∧ p'.AtEnd ∧ C.last p'.last q'.last ∧
        (∀ e, C.gaveUp e) ∧ C.beyond q' ∧ skipNewlines limits' q = skipNewlines limits' q' := by
  -- The induction is on the rounds left to the second parser.
  generalize hn : (limits'.iterations - q.iterations).toNat = n
  induction n using Nat.strongRecOn generalizing p q with
  | ind n ih =>
    refine alike_of_peek h peeks_skipNewlines peeks_skipNewlines ?_
    intro t p₁ t' q₁ hnext hx hy
    have hx' := skipNewlines_of_peek hx
    have hy' := skipNewlines_of_peek hy
    unfold Alike
    rcases matches_or_seam hnext.token with hsame | ⟨hlexeme, hlexeme', hgave⟩
    · rw [hsame.kind] at hy'
      by_cases hkind : t.kind = .newline
      · rw [if_pos hkind] at hx' hy'
        rw [hx', hy']
        have htake := C.take hnext.state hnext.head hnext.head' hsame.lexeme
        by_cases hmany : limits'.iterations < ((q₁.take t').iterations + 1 : Nat)
        -- The second has no round left, and what the first does no longer counts.
        · refine .inl (alike_countRound htake peeks_skipNewlines fun hle => ?_)
          exact absurd hmany (Int.not_lt.mpr hle)
        · have hle' := Int.not_lt.mp hmany
          have hle : ((p₁.take t).iterations + 1 : Nat) ≤ limits.iterations := by
            have := C.rounds htake
            omega
          rw [bind_of_ok (countRound_of_le hle), bind_of_ok (countRound_of_le hle')]
          refine ih _ ?_ (C.count htake) rfl
          -- There is one round less to go.
          have hcounted : (q₁.take t').counted.iterations = q.iterations + 1 :=
            congrArg (· + 1) (head_of_peek hy).2
          have hle' : ((q₁.take t').counted.iterations : Int) ≤ limits'.iterations := hle'
          rw [hcounted] at hle' ⊢
          omega
      · rw [if_neg hkind] at hx' hy'
        rw [hx', hy']
        exact .inl (.ok ⟨t, t', hnext, hsame⟩)
    -- At the seam the second goes on skipping, and the first is done.
    · have hkind : t.kind = .eof := congrArg Lexeme.kind hlexeme
      have hkind' : t'.kind = .newline := congrArg Lexeme.kind hlexeme'
      rw [hkind, if_neg Kind.noConfusion] at hx'
      rw [hkind', if_pos rfl] at hy'
      have hbeyond := C.cross hnext.state hnext.head hnext.head' hlexeme hlexeme'
      have hlast : C.last p₁.last (q₁.take t').counted.last := hnext.last_take hlexeme'
      rcases @countRound_skipNewlines limits' (q₁.take t') with heq | ⟨pos, q₂, heq⟩
      · rw [heq] at hy'
        exact .inr ⟨p₁, _, hx', ⟨t, hnext.head, hkind⟩, hlast, hgave, C.beyond_count hbeyond, hy'⟩
      · rw [hy', heq]
        exact .inl (.stopped (C.tooMany pos))

/-- Where newlines are skipped in front of something that cannot be missing, the seam makes the
first parser fail. -/
theorem alike_skipNewlines_bind {f : Parse γ} {f' : Parse δ} (h : C.state p q)
    (hf : ∀ p' q', C.state p' q' → C.Alike f f' p' q' B)
    (hend : ∀ p' : Parser, p'.AtEnd → Fails f p') :
    C.Alike (skipNewlines limits >>= fun _ => f) (skipNewlines limits' >>= fun _ => f') p q B := by
  rcases alike_skipNewlines h with hskip | ⟨p₁, -, hskip, hatEnd, -, hgave, -⟩
  · refine hskip.bind ?_
    rintro _ p₁ _ q₁ ⟨t, t', hnext, -⟩
    exact hf p₁ q₁ hnext.state
  · exact alike_of_fails (fails_of_bind_ok hskip (hend p₁ hatEnd)) hgave

theorem alike_descriptor? {r r' : Option Token}
    (h : Option.Rel (fun t t' => C.Matches t t' ∧ t.kind ∈ [Kind.ioNumber]) r r')
    (hstate : C.state p q) : C.Alike (descriptor? r) (descriptor? r') p q C.Same := by
  cases h with
  | none => exact alike_pure ⟨rfl, hstate⟩
  | @some t t' ht =>
    obtain ⟨hsame, hkind⟩ := ht
    unfold descriptor?
    dsimp only
    rw [hsame.text]
    split
    · exact alike_pure ⟨rfl, hstate⟩
    · rename_i n hn
      exact alike_throw (C.oversized hsame.token (List.mem_singleton.mp hkind) hn)

theorem alike_redirection (h : C.state p q) :
    C.Alike (redirection limits) (redirection limits') p q C.Same := by
  refine (alike_accept [.ioNumber] (by decide) (by decide) h).bind ?_
  rintro r p₁ r' q₁ ⟨h₁, hr⟩
  refine (alike_descriptor? hr h₁).bind ?_
  rintro d p₂ _ q₂ ⟨rfl, h₂⟩
  refine (alike_advance h₂).bind ?_
  rintro t p₃ t' q₃ ⟨ht, h₃⟩
  rcases matches_or_seam ht with hsame | ⟨hlexeme, -, hgave⟩
  · rw [hsame.lexeme]
    split
    · rename_i o _
      refine (alike_peek_next (h₃ hsame)).bind ?_
      rintro u p₄ u' q₄ hnext
      rcases matches_or_seam hnext.token with hsame' | ⟨hlexeme, -, hgave⟩
      · rw [hsame'.lexeme]
        split
        · refine (alike_discard_advance hnext hsame').bind ?_
          rintro _ p₅ _ q₅ ⟨-, h₅⟩
          exact alike_pure ⟨rfl, h₅⟩
        · exact alike_fail hnext.token rfl
      · rw [hlexeme]
        exact alike_of_fails fails_throw hgave
    · exact alike_unexpected ht
  · rw [hlexeme]
    exact alike_of_fails fails_unexpected hgave

theorem alike_redirectionEntry (bindings : List Binding) (arguments : List Argument)
    (h : C.state p q) :
    C.Alike (redirectionEntry limits bindings arguments)
      (redirectionEntry limits' bindings arguments) p q C.Same := by
  refine (alike_redirection h).bind ?_
  rintro _ p₁ r q₁ ⟨rfl, h₁⟩
  split <;> exact alike_pure ⟨rfl, h₁⟩

theorem alike_simpleStep (entries : List Binding × List Argument) (h : C.state p q) :
    C.Alike (simpleStep limits entries) (simpleStep limits' entries) p q C.Same := by
  obtain ⟨bindings, arguments⟩ := entries
  refine alike_countRound h (peeks_peek _) fun _ => ?_
  refine (alike_peek_next (C.count h)).bind ?_
  intro t p₁ t' q₁ hnext
  rcases matches_or_seam hnext.token with hsame | ⟨hlexeme, hlexeme', -⟩
  · rw [hsame.lexeme]
    split
    · exact alike_redirectionEntry bindings arguments hnext.state
    · exact alike_redirectionEntry bindings arguments hnext.state
    · refine (alike_discard_advance hnext hsame).bind ?_
      rintro _ p₂ _ q₂ ⟨-, h₂⟩
      split
      · exact alike_pure ⟨rfl, h₂⟩
      · rename_i name value _
        refine (alike_peek_next h₂).bind ?_
        intro u p₃ u' q₃ hnext'
        refine alike_ite ?_ (fun _ => alike_fail hnext'.token rfl)
          fun _ => alike_pure ⟨rfl, hnext'.state⟩
        rw [kind_eq_iff hnext'.token (by decide) (by decide),
          C.adjacent hnext.token hsame.lexeme hnext'.token]
    · exact alike_pure ⟨rfl, hnext.state⟩
  -- Neither the end nor a newline is an entry.
  · rw [hlexeme, hlexeme']
    exact alike_pure ⟨rfl, hnext.state⟩

theorem alike_simpleCommand (h : C.state p q) :
    C.Alike (simpleCommand limits) (simpleCommand limits') p q C.Same := by
  refine (alike_loop h fun entries _ _ => alike_simpleStep entries).bind ?_
  rintro command p₁ _ q₁ ⟨rfl, h₁⟩
  refine (alike_peek_next h₁).bind ?_
  intro t p₂ t' q₂ hnext
  exact alike_ite (kind_eq_iff hnext.token (by decide) (by decide))
    (fun _ => alike_unexpected hnext.token) fun _ => alike_pure ⟨rfl, hnext.state⟩

/-! ### Compound commands -/

theorem matches_of_kind (h : C.token t t') (hkind : t.kind ≠ .eof) : C.Matches t t' := by
  refine (matches_or_seam h).resolve_right ?_
  rintro ⟨hlexeme, -, -⟩
  exact hkind (congrArg Lexeme.kind hlexeme)

theorem startsCompound_eq (h : C.token t t') : startsCompound t' = startsCompound t := by
  rcases matches_or_seam h with hsame | ⟨hlexeme, hlexeme', -⟩
  · rw [startsCompound, startsCompound, hsame.kind, hsame.text]
  · rw [startsCompound, startsCompound, Token.kind, Token.kind, hlexeme, hlexeme']
    rfl

theorem matches_of_startsCompound (h : C.token t t') (hcompound : startsCompound t = true) :
    C.Matches t t' := by
  refine matches_of_kind h ?_
  intro hkind
  rw [startsCompound, hkind] at hcompound
  exact absurd hcompound (by simp)

theorem alike_compoundStep (kind : CompoundKind) (inside : List Text × Bool) (h : C.state p q) :
    C.Alike (compoundStep limits kind inside) (compoundStep limits' kind inside) p q C.Same := by
  obtain ⟨_ | ⟨closer, closers⟩, commandStart⟩ := inside
  · exact alike_pure ⟨rfl, h⟩
  · rw [compoundStep_cons, compoundStep_cons]
    refine alike_countRound h peeks_advance.bind fun _ => ?_
    refine (alike_advance (C.count h)).bind ?_
    rintro t p₁ t' q₁ ⟨ht, h₁⟩
    rcases matches_or_seam ht with hsame | ⟨hlexeme, -, hgave⟩
    · have hclosers : closersAfter (closer :: closers) commandStart t' =
          closersAfter (closer :: closers) commandStart t := by
        unfold closersAfter
        rw [hsame.lexeme, hsame.text]
      have hstarts : t'.startsCommand = t.startsCommand := by
        unfold Token.startsCommand
        rw [hsame.lexeme, hsame.text]
      rw [hsame.kind, hclosers, hstarts]
      split
      · exact alike_fail ht rfl
      · exact alike_pure ⟨rfl, h₁ hsame⟩
    · have hkind : t.kind = .eof := congrArg Lexeme.kind hlexeme
      rw [hkind, if_pos rfl]
      exact alike_of_fails fails_throw hgave

theorem alike_compoundKind (hcompound : startsCompound t = true) (hsame : C.Matches t t')
    (h : C.state p q) :
    C.Alike (compoundKind limits t) (compoundKind limits' t') p q C.Same := by
  unfold compoundKind
  rw [hsame.kind, hsame.text]
  split
  · refine (alike_check h _).bind ?_
    rintro _ p₁ _ q₁ ⟨u, u', hnext, rfl, rfl⟩
    rw [beq_kind hnext.token (by decide) (by decide)]
    split <;> exact alike_pure ⟨rfl, hnext.state⟩
  -- A word that begins a compound command is one of those in the table.
  · rename_i hparen
    obtain ⟨kind, hkind⟩ := exists_ofOpener?_of_startsCompound hcompound hparen
    rw [hkind]
    exact alike_pure ⟨rfl, h⟩

theorem alike_compound (h : C.Next t p t' q) (hcompound : startsCompound t = true) :
    C.Alike (compound limits) (compound limits') p q C.Same := by
  have hsame : C.Matches t t' := matches_of_startsCompound h.token hcompound
  refine (alike_advance_next h hsame).bind ?_
  rintro _ p₁ _ q₁ ⟨rfl, rfl, -, h₁⟩
  refine (alike_compoundKind hcompound hsame h₁).bind ?_
  rintro kind p₂ _ q₂ ⟨rfl, h₂⟩
  exact alike_loop h₂ fun inside _ _ => alike_compoundStep _ inside

/-! ### Functions -/

/-- The next token is followed by a pair of parentheses. -/
def BeforeParens (p : Parser) : Prop :=
  ∃ t u v ts, p.ahead = t :: u :: v :: ts ∧ u.kind = .operator .leftParen ∧
    v.kind = .operator .rightParen

theorem alike_startsFunction (h : C.Next t p t' q) (hsame : C.Matches t t')
    (hkind : t.kind ≠ .eof) :
    C.Alike (startsFunction limits t) (startsFunction limits' t') p q fun b p' b' q' =>
      b' = b ∧ C.Next t p' t' q' ∧ (b = true → BeforeParens p') := by
  obtain ⟨ts, hts⟩ := List.head?_eq_some_iff.mp h.head
  obtain ⟨ts', hts'⟩ := List.head?_eq_some_iff.mp h.head'
  refine (alike_peek h.state (by simp [hts]) (by simpa [hts] using hkind)).bind ?_
  rintro u p₁ u' q₁ ⟨h₁, hu, ⟨more, hmore⟩, hget, ⟨more', hmore'⟩, -⟩
  rw [hts, List.cons_append] at hmore
  rw [hts', List.cons_append] at hmore'
  have hnext₁ : C.Next t p₁ t' q₁ := ⟨h₁, by rw [← hmore]; rfl, by rw [← hmore']; rfl⟩
  refine alike_ite (kind_eq_iff hu (by decide) (by decide)) (fun hparen => ?_)
    fun _ => alike_pure ⟨rfl, hnext₁, fun h => absurd h (by simp)⟩
  -- The second token is there too, and neither of the two is the end.
  obtain ⟨us, hus⟩ : ∃ us, p₁.ahead = t :: u :: us := by
    rw [← hmore] at hget ⊢
    obtain ⟨us, hus⟩ := List.head?_eq_some_iff.mp
      ((List.head?_eq_getElem? (l := ts ++ more)).trans hget)
    exact ⟨us, by rw [hus]⟩
  refine (alike_peek h₁ (by simp [hus]) (by simp [hus, hkind, hparen])).bind ?_
  rintro v p₂ v' q₂ ⟨h₂, hv, ⟨more, hmore⟩, hget₂, ⟨more', hmore₂'⟩, -⟩
  rw [hus, List.cons_append, List.cons_append] at hmore
  rw [← hmore', List.cons_append] at hmore₂'
  have hnext₂ : C.Next t p₂ t' q₂ := ⟨h₂, by rw [← hmore]; rfl, by rw [← hmore₂']; rfl⟩
  refine alike_ite (kind_eq_iff hv (by decide) (by decide)) (fun hparen' => ?_)
    fun _ => alike_pure ⟨rfl, hnext₂, fun h => absurd h (by simp)⟩
  refine alike_pure ⟨by rw [hsame.text], hnext₂, fun _ => ?_⟩
  rw [← hmore] at hget₂
  obtain ⟨vs, hvs⟩ := List.head?_eq_some_iff.mp
    ((List.head?_eq_getElem? (l := us ++ more)).trans hget₂)
  exact ⟨t, u, v, vs, by rw [← hmore, hvs], hparen, hparen'⟩

theorem exists_next (h : C.state p q) (ht : p.ahead.head? = some t) :
    ∃ t', C.Next t p t' q := by
  obtain ⟨ts, hts⟩ := List.head?_eq_some_iff.mp ht
  have hahead := C.ahead h
  rw [hts] at hahead
  generalize hus : q.ahead = us at hahead
  cases hahead with
  | @cons _ t' _ ts' _ _ => exact ⟨t', h, ht, by rw [hus]; rfl⟩

theorem alike_functionName (h : C.Next t p t' q) (hsame : C.Matches t t')
    (hparens : t.text ≠ "function".toList → BeforeParens p) :
    C.Alike (functionName limits) (functionName limits') p q C.Same := by
  unfold functionName
  refine Alike.bind (A := fun u p' u' q' => t = u ∧ t' = u' ∧ p = p' ∧ q = q') ?_ ?_
  · unfold Alike
    rw [peek_of_head h.head, peek_of_head h.head']
    exact .ok ⟨rfl, rfl, rfl, rfl⟩
  rintro _ _ _ _ ⟨rfl, rfl, rfl, rfl⟩
  refine alike_ite (by rw [hsame.text]) (fun _ => ?_) fun hname => ?_
  · refine (alike_discard_advance h hsame).bind ?_
    rintro _ p₁ _ q₁ ⟨-, h₁⟩
    refine (alike_peek_next h₁).bind ?_
    intro u p₂ u' q₂ hnext
    refine alike_ite (kind_eq_iff hnext.token (by decide) (by decide)) (fun hkind => ?_)
      fun _ => alike_fail hnext.token rfl
    have hsame' := matches_of_kind hnext.token (by rw [hkind]; decide)
    refine (alike_discard_advance hnext hsame').bind ?_
    rintro _ p₃ _ q₃ ⟨-, h₃⟩
    refine (alike_accept [.operator .leftParen] (by decide) (by decide) h₃).bind ?_
    rintro r p₄ r' q₄ ⟨h₄, hr⟩
    rw [hsame'.text]
    cases hr with
    | none => exact alike_pure ⟨rfl, h₄⟩
    | some _ =>
      refine (alike_accept [.operator .rightParen] (by decide) (by decide) h₄).bind ?_
      rintro r p₅ r' q₅ ⟨h₅, hr⟩
      cases hr with
      | none =>
        refine (alike_peek_next h₅).bind ?_
        intro v p₆ v' q₆ hnext'
        exact Alike.bind (alike_fail (A := fun _ _ _ _ => False) hnext'.token rfl)
          fun _ _ _ _ h => h.elim
      | some _ => exact alike_pure ⟨rfl, h₅⟩
  · obtain ⟨_, u, v, ts, hts, hu, hv⟩ := hparens hname
    refine (alike_advance_next h hsame).bind ?_
    rintro t _ t' q₁ ⟨rfl, rfl, rfl, h₁⟩
    have hahead : (p.take t).ahead = u :: v :: ts := congrArg List.tail hts
    obtain ⟨u', hnext⟩ := exists_next h₁ (congrArg List.head? hahead)
    have hsame' := matches_of_kind hnext.token (by rw [hu]; decide)
    refine (alike_discard_advance hnext hsame').bind ?_
    rintro _ _ _ q₂ ⟨rfl, h₂⟩
    have hahead' : ((p.take t).take u).ahead = v :: ts := congrArg List.tail hahead
    obtain ⟨v', hnext'⟩ := exists_next h₂ (congrArg List.head? hahead')
    have hsame'' := matches_of_kind hnext'.token (by rw [hv]; decide)
    refine (alike_discard_advance hnext' hsame'').bind ?_
    rintro _ p₃ _ q₃ ⟨-, h₃⟩
    exact alike_pure ⟨hsame.text, h₃⟩

theorem alike_functionDefinition (h : C.Next t p t' q) (hsame : C.Matches t t')
    (hparens : t.text ≠ "function".toList → BeforeParens p) :
    C.Alike (functionDefinition limits) (functionDefinition limits') p q C.Same := by
  refine (alike_functionName h hsame hparens).bind ?_
  rintro name p₁ _ q₁ ⟨rfl, h₁⟩
  refine alike_skipNewlines_bind h₁ ?_ ?_
  · intro p₂ q₂ h₂
    refine (alike_peek_next h₂).bind ?_
    intro u p₃ u' q₃ hnext
    refine alike_ite (by rw [startsCompound_eq hnext.token]) (fun hcompound => ?_)
      fun _ => alike_fail hnext.token rfl
    refine (alike_compound hnext hcompound).bind ?_
    rintro kind p₄ _ q₄ ⟨rfl, h₄⟩
    exact alike_pure ⟨rfl, h₄⟩
  · rintro p₂ ⟨e, he, hkind⟩
    refine fails_of_bind_ok (peek_of_head he) ?_
    have hcompound : startsCompound e = false := by
      rw [startsCompound, hkind]
      rfl
    rw [hcompound]
    exact fails_throw

/-! ### Commands, pipelines and lists -/

theorem alike_command (h : C.state p q) :
    C.Alike (command limits) (command limits') p q C.Same := by
  refine alike_countRound h (peeks_peek _) fun _ => ?_
  refine (alike_peek_next (C.count h)).bind ?_
  intro t p₁ t' q₁ hnext
  refine alike_ite (by rw [startsCompound_eq hnext.token]) (fun hcompound => ?_) fun _ => ?_
  · refine (alike_compound hnext hcompound).bind ?_
    rintro kind p₂ _ q₂ ⟨rfl, h₂⟩
    exact alike_pure ⟨rfl, h₂⟩
  rcases matches_or_seam hnext.token with hsame | ⟨hlexeme, hlexeme', hgave⟩
  · rw [hsame.lexeme]
    split
    · rename_i w hw
      have hkind : t.kind ≠ .eof := by
        rw [Token.kind, hw]
        exact Kind.noConfusion
      refine alike_ite (by rw [hsame.text]) (fun hname => ?_) fun hname => ?_
      · exact alike_functionDefinition hnext hsame fun hne => absurd hname hne
      · refine (alike_startsFunction hnext hsame hkind).bind ?_
        rintro isFunction p₂ _ q₂ ⟨rfl, hnext₂, hparens⟩
        split
        · rename_i hfunction
          exact alike_functionDefinition hnext₂ hsame fun _ => hparens hfunction
        · exact alike_simpleCommand hnext₂.state
    · exact alike_simpleCommand hnext.state
    · exact alike_simpleCommand hnext.state
    · exact alike_unexpected hnext.token
  · rw [hlexeme]
    exact alike_of_fails fails_unexpected hgave

theorem alike_pipeline (h : C.state p q) :
    C.Alike (pipeline limits) (pipeline limits') p q C.Same := by
  refine (alike_accept [.bang] (by decide) (by decide) h).bind ?_
  rintro bang p₁ bang' q₁ ⟨h₁, hbang⟩
  have hnegated : bang'.isSome = bang.isSome := by cases hbang <;> rfl
  rw [hnegated]
  refine (alike_command h₁).bind ?_
  rintro first p₂ _ q₂ ⟨rfl, h₂⟩
  refine alike_loop h₂ ?_
  intro commands p₃ q₃ h₃
  refine (alike_accept [.operator .pipe] (by decide) (by decide) h₃).bind ?_
  rintro r p₄ r' q₄ ⟨h₄, hr⟩
  cases hr with
  | none => exact alike_pure ⟨rfl, h₄⟩
  | some _ =>
    refine alike_skipNewlines_bind h₄ ?_ fun p' hend => (fails_command hend).bind
    intro p₅ q₅ h₅
    refine (alike_command h₅).bind ?_
    rintro command p₆ _ q₆ ⟨rfl, h₆⟩
    exact alike_pure ⟨rfl, h₆⟩

theorem alike_listStep (pipelines : List Pipeline × List Connective) (h : C.state p q) :
    C.Alike (listStep limits pipelines) (listStep limits' pipelines) p q C.Same := by
  obtain ⟨pipelines, connectives⟩ := pipelines
  refine (alike_accept [.operator (.connective .and), .operator (.connective .or)] (by decide)
    (by decide) h).bind ?_
  rintro r p₁ r' q₁ ⟨h₁, hr⟩
  cases hr with
  | none => exact alike_pure ⟨rfl, h₁⟩
  | @some t t' ht =>
    refine alike_skipNewlines_bind h₁ ?_ fun p' hend => (fails_pipeline hend).bind
    intro p₂ q₂ h₂
    refine (alike_pipeline h₂).bind ?_
    rintro pipeline p₃ _ q₃ ⟨rfl, h₃⟩
    exact alike_pure ⟨by rw [ht.1.kind], h₃⟩

theorem alike_list (h : C.state p q) : C.Alike (list limits) (list limits') p q C.Same := by
  refine (alike_pipeline h).bind ?_
  rintro first p₁ _ q₁ ⟨rfl, h₁⟩
  exact alike_loop h₁ fun pipelines _ _ => alike_listStep pipelines

variable (C) in
/-- Statements are read alike. The one that the text of the first ends with may be ended by the
newline at the seam in the second. -/
def Statements (r : Option Statement) (p : Parser) (r' : Option Statement) (q : Parser) : Prop :=
  r' = r ∧ C.last p.last q.last ∧
    (C.state p q ∨ r.isSome = true ∧ p.AtEnd ∧ (∀ e, C.gaveUp e) ∧ C.beyond q)

theorem Statements.of_state {r : Option Statement} (h : C.state p q) : C.Statements r p r q :=
  ⟨rfl, C.state_last h, .inl h⟩

/-- A list is ended alike, except that at the seam its end is the newline in the second. -/
theorem alike_statementEnd (s : Statement) (h : C.state p q) :
    C.Alike (do
        if (← accept limits [.operator .semi, .newline]).isSome then return some s
        else if ← check limits .eof then return some s
        else unexpected (← peek limits 0))
      (do
        if (← accept limits' [.operator .semi, .newline]).isSome then return some s
        else if ← check limits' .eof then return some s
        else unexpected (← peek limits' 0)) p q C.Statements := by
  refine (alike_of_peek (X := False) h (peeks_accept _ _).bind (peeks_accept _ _).bind
    fun t p₁ t' q₁ hnext hx hy => .inl ?_).resolve_right id
  have hx' := accept_of_peek hx (.operator .semi) [.newline]
  have hy' := accept_of_peek hy (.operator .semi) [.newline]
  unfold Alike
  rcases matches_or_seam hnext.token with hsame | ⟨hlexeme, hlexeme', hgave⟩
  · rw [hsame.kind] at hy'
    by_cases hkind : t.kind ∈ [Kind.operator .semi, .newline]
    · rw [if_pos hkind] at hx' hy'
      rw [bind_of_ok hx', bind_of_ok hy']
      exact .ok (.of_state (C.take hnext.state hnext.head hnext.head' hsame.lexeme))
    · rw [if_neg hkind] at hx' hy'
      rw [bind_of_ok hx', bind_of_ok hy']
      show Coupled _ _ ((check limits .eof >>= _) p₁) ((check limits' .eof >>= _) q₁)
      rw [bind_of_ok (check_of_head hnext.head _), bind_of_ok (check_of_head hnext.head' _),
        hsame.kind]
      split
      · exact .ok (.of_state hnext.state)
      · rw [bind_of_ok (peek_of_head hnext.head), bind_of_ok (peek_of_head hnext.head')]
        exact alike_unexpected hnext.token
  -- The first finds its end, and the second takes the newline to end the statement.
  · have hkind : t.kind = .eof := congrArg Lexeme.kind hlexeme
    have hkind' : t'.kind = .newline := congrArg Lexeme.kind hlexeme'
    rw [hkind, if_neg (by decide)] at hx'
    rw [hkind', if_pos (by decide)] at hy'
    rw [bind_of_ok hx', bind_of_ok hy']
    show Coupled _ _ ((check limits .eof >>= _) p₁) _
    rw [bind_of_ok (check_of_head hnext.head _), hkind]
    refine .ok ⟨rfl, hnext.last_take hlexeme', .inr ⟨rfl, ⟨t, hnext.head, hkind⟩, hgave, ?_⟩⟩
    exact C.cross hnext.state hnext.head hnext.head' hlexeme hlexeme'

/-- A statement is read alike on both sides, or the first parser is at its end and the second is
about to read a statement beyond it. -/
theorem alike_statement? (h : C.state p q) :
    C.Alike (statement? limits) (statement? limits') p q C.Statements ∨
      ∃ p' q', statement? limits p = .ok none p' ∧ (∀ e, C.gaveUp e) ∧ C.beyond q' ∧
        statement? limits' q = statement? limits' q' := by
  rcases alike_skipNewlines h with hskip | ⟨p₁, q₁, hskip, hatEnd, -, hgave, hbeyond, hskip'⟩
  · refine .inl (hskip.bind ?_)
    rintro _ p₁ _ q₁ ⟨t, t', hnext, hsame⟩
    unfold Alike
    rw [bind_of_ok (check_of_head hnext.head _), bind_of_ok (check_of_head hnext.head' _),
      hsame.kind]
    split
    · exact .ok (.of_state hnext.state)
    · refine (alike_list hnext.state).bind ?_
      rintro s p₂ _ q₂ ⟨rfl, h₂⟩
      refine (alike_accept [.operator .amp] (by decide) (by decide) h₂).bind ?_
      rintro amp p₃ amp' q₃ ⟨h₃, hamp⟩
      cases hamp with
      | some _ => exact alike_pure (.of_state h₃)
      | none => exact alike_statementEnd _ h₃
  · refine .inr ⟨p₁, q₁, ?_, hgave, hbeyond, ?_⟩
    · have hstatement : statement? limits p = statement? limits p₁ :=
        statement?_of_skipNewlines (hskip.trans (skipNewlines_of_atEnd hatEnd).symm)
      exact hstatement.trans (statement?_of_atEnd hatEnd)
    · exact statement?_of_skipNewlines hskip'

end Coupling

end EnvScript
