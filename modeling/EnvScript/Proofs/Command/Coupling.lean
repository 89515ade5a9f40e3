import EnvScript.Proofs.Command.Head
import Mathlib.Data.List.Forall2
import Mathlib.Data.Option.Basic

/-!
# Two parsers side by side

A `Coupling` relates two parsers that read tokens alike, each under limits of its own. Its laws are
about the steps on tokens, and every step of the parser then keeps to it: both sides give related
results, or both fail.

Three things may end the comparison. The second parser may reach one of its limits, a failure of the
first may count for nothing, and the second may go on where the text of the first ends: there the
end token stands beside a newline.
-/

namespace EnvScript

/-- How two parsers may fail side by side. -/
structure Failing where
  /-- Failures of the two parsers that belong together. -/
  failed : ReadError → ReadError → Prop
  /-- Failures of the first parser after which the second may do anything. -/
  gaveUp : ReadError → Prop
  /-- Failures of the second parser whatever the first does. -/
  stopped : ReadError → Prop

/-- The results of two computations on parsers, which are related by `A` if neither fails. -/
inductive Coupled (F : Failing) {α β : Type} (A : α → Parser → β → Parser → Prop) :
    EStateM.Result ReadError Parser α → EStateM.Result ReadError Parser β → Prop
  | ok {a : α} {b : β} {p q : Parser} (h : A a p b q) : Coupled F A (.ok a p) (.ok b q)
  | failed {e e' : ReadError} {p q : Parser} (h : F.failed e e') :
      Coupled F A (.error e p) (.error e' q)
  | gaveUp {e : ReadError} {p : Parser} {y : EStateM.Result ReadError Parser β}
      (h : F.gaveUp e) : Coupled F A (.error e p) y
  | stopped {e : ReadError} {q : Parser} {x : EStateM.Result ReadError Parser α}
      (h : F.stopped e) : Coupled F A x (.error e q)

/-- Two parsers side by side, under the limits `limits` and `limits'`. -/
structure Coupling (limits limits' : Limits) extends Failing where
  /-- The two parsers stand at corresponding places. -/
  state : Parser → Parser → Prop
  token : Token → Token → Prop
  last : Position → Position → Prop
  /-- The second parser has passed the place where the text of the first ends. -/
  beyond : Parser → Prop
  token_cases {t t' : Token} : token t t' → t'.lexeme = t.lexeme ∧ t'.text = t.text ∨
    t.lexeme = .eof ∧ t'.lexeme = .newline ∧ ∀ e, gaveUp e
  adjacent {t t' u u' : Token} : token t t' → t'.lexeme = t.lexeme → token u u' →
    (u'.start = t'.stop ↔ u.start = t.stop)
  fault {t t' : Token} : token t t' → ∀ fault : Fault, fault.isMissing = false →
    failed (.malformed ⟨fault, t.start⟩) (.malformed ⟨fault, t'.start⟩)
  oversized {t t' : Token} {n : OversizedNumeral} : token t t' → t.kind = .ioNumber →
    Numeral.natural t.text = .error n → failed (.oversizedNumeral n) (.oversizedNumeral n)
  tooMany (p : Position) : stopped (.malformed ⟨.tooManyIterations limits'.iterations, p⟩)
  ahead {p q : Parser} : state p q → List.Forall₂ token p.ahead q.ahead
  state_last {p q : Parser} : state p q → last p.last q.last
  rounds {p q : Parser} :
    state p q → limits'.iterations - q.iterations ≤ limits.iterations - p.iterations
  read {p q : Parser} : state p q → (∀ t ∈ p.ahead, t.kind ≠ .eof) →
    Coupled toFailing (fun _ p' _ q' => state p' q') (Parse.readAhead limits p)
      (Parse.readAhead limits' q)
  take {p q : Parser} {t t' : Token} : state p q → p.ahead.head? = some t →
    q.ahead.head? = some t' → t'.lexeme = t.lexeme → state (p.take t) (q.take t')
  cross {p q : Parser} {t t' : Token} : state p q → p.ahead.head? = some t →
    q.ahead.head? = some t' → t.lexeme = .eof → t'.lexeme = .newline → beyond (q.take t')
  count {p q : Parser} : state p q → state p.counted q.counted
  beyond_count {q : Parser} : beyond q → beyond q.counted

/-! ## Coupled computations -/

namespace Coupling

open Parse

variable {α β γ δ : Type} {limits limits' : Limits} (C : Coupling limits limits')
  {p p' q q' : Parser} {t t' : Token}

/-- From `p` and `q` two computations end in related results, or one of the failures that the
coupling allows. -/
def Alike (m : Parse α) (m' : Parse β) (p q : Parser) (A : α → Parser → β → Parser → Prop) : Prop :=
  Coupled C.toFailing A (m p) (m' q)

/-- Equal results and parsers at corresponding places. -/
def Same (a : α) (p : Parser) (b : α) (q : Parser) : Prop := b = a ∧ C.state p q

variable {C} {m : Parse α} {m' : Parse β} {A A' : α → Parser → β → Parser → Prop}
  {B : γ → Parser → δ → Parser → Prop}

theorem alike_pure {a : α} {b : β} (h : A a p b q) : C.Alike (pure a) (pure b) p q A := .ok h

theorem alike_throw {e e' : ReadError} (h : C.failed e e') :
    C.Alike (throw e : Parse α) (throw e' : Parse β) p q A := .failed h

theorem Alike.mono (h : C.Alike m m' p q A) (hA : ∀ a p' b q', A a p' b q' → A' a p' b q') :
    C.Alike m m' p q A' := by
  unfold Alike at h ⊢
  generalize m p = x at h ⊢
  generalize m' q = y at h ⊢
  cases h with
  | ok h => exact .ok (hA _ _ _ _ h)
  | failed h => exact .failed h
  | gaveUp h => exact .gaveUp h
  | stopped h => exact .stopped h

theorem Alike.bind {f : α → Parse γ} {f' : β → Parse δ} (h : C.Alike m m' p q A)
    (hf : ∀ a p' b q', A a p' b q' → C.Alike (f a) (f' b) p' q' B) :
    C.Alike (m >>= f) (m' >>= f') p q B := by
  unfold Alike at h ⊢
  generalize hx : m p = x at h
  generalize hy : m' q = y at h
  cases h with
  | ok h =>
    rw [bind_of_ok hx, bind_of_ok hy]
    exact hf _ _ _ _ h
  | failed h =>
    rw [bind_of_error hx, bind_of_error hy]
    exact .failed h
  | gaveUp h =>
    rw [bind_of_error hx]
    exact .gaveUp h
  | stopped h =>
    rw [bind_of_error hy]
    exact .stopped h

theorem Alike.map {f : α → γ} {f' : β → δ}
    (h : C.Alike m m' p q fun a p' b q' => B (f a) p' (f' b) q') :
    C.Alike (f <$> m) (f' <$> m') p q B := by
  show C.Alike (m >>= fun a => pure (f a)) (m' >>= fun b => pure (f' b)) p q B
  exact h.bind fun _ _ _ _ h => alike_pure h

theorem Alike.discard {B : PUnit → Parser → PUnit → Parser → Prop}
    (h : C.Alike m m' p q fun _ p' _ q' => B ⟨⟩ p' ⟨⟩ q') :
    C.Alike (Functor.discard m) (Functor.discard m') p q B := by
  show C.Alike ((fun _ => PUnit.unit) <$> m) ((fun _ => PUnit.unit) <$> m') p q B
  exact h.map

theorem alike_ite {P P' : Prop} [Decidable P] [Decidable P'] {n : Parse α} {n' : Parse β}
    (hiff : P' ↔ P) (hm : P → C.Alike m m' p q A) (hn : ¬ P → C.Alike n n' p q A) :
    C.Alike (if P then m else n) (if P' then m' else n') p q A := by
  by_cases h : P
  · rw [if_pos h, if_pos (hiff.mpr h)]
    exact hm h
  · rw [if_neg h, if_neg (fun h' => h (hiff.mp h'))]
    exact hn h

/-- The first fails where its failures count for nothing. -/
theorem alike_of_fails (h : Fails m p) (hgave : ∀ e, C.gaveUp e) : C.Alike m m' p q A := by
  obtain ⟨e, p', he⟩ := h.exists_error
  unfold Alike
  rw [he]
  exact .gaveUp (hgave e)

/-- The induction is on the rounds left to the second parser; the first has as many or more. -/
theorem alike_loop {step step' : α → Parse (α ⊕ γ)} {a : α} (h : C.state p q)
    (hstep : ∀ a p q, C.state p q → C.Alike (step a) (step' a) p q C.Same) :
    C.Alike (loop limits step a) (loop limits' step' a) p q C.Same := by
  have hrepeat : ∀ n k a p q, C.state p q →
      C.Alike (repeatUpTo limits step (n + k) a) (repeatUpTo limits' step' n a) p q C.Same := by
    intro n
    induction n with
    | zero => exact fun _ _ _ _ _ => .stopped (C.tooMany _)
    | succ n ih =>
      intro k a p q h
      rw [Nat.succ_add]
      refine (hstep a p q h).bind ?_
      rintro _ p' r q' ⟨rfl, h'⟩
      cases r with
      | inl a' => exact ih k a' p' q' h'
      | inr b => exact alike_pure ⟨rfl, h'⟩
  have hfuel := C.rounds h
  obtain ⟨k, hk⟩ : ∃ k, (limits.iterations - p.iterations).toNat + 1 =
      (limits'.iterations - q.iterations).toNat + 1 + k := Nat.exists_eq_add_of_le (by omega)
  show C.Alike (repeatUpTo limits step _ a) (repeatUpTo limits' step' _ a) p q C.Same
  rw [hk]
  exact hrepeat _ k a p q h

/-! ## Tokens -/

variable (C) in
/-- Corresponding tokens that are not the end of one text beside the newline in the other. -/
structure Matches (t t' : Token) : Prop where
  token : C.token t t'
  lexeme : t'.lexeme = t.lexeme
  text : t'.text = t.text

variable (C) in
/-- The next tokens of two parsers at corresponding places. -/
structure Next (t : Token) (p : Parser) (t' : Token) (q : Parser) : Prop where
  state : C.state p q
  head : p.ahead.head? = some t
  head' : q.ahead.head? = some t'

theorem Matches.kind (h : C.Matches t t') : t'.kind = t.kind :=
  congrArg Lexeme.kind h.lexeme

theorem matches_or_seam (h : C.token t t') :
    C.Matches t t' ∨ t.lexeme = .eof ∧ t'.lexeme = .newline ∧ ∀ e, C.gaveUp e := by
  rcases C.token_cases h with ⟨hlexeme, htext⟩ | hseam
  · exact .inl ⟨h, hlexeme, htext⟩
  · exact .inr hseam

theorem Next.token (h : C.Next t p t' q) : C.token t t' := by
  obtain ⟨ts, hts⟩ := List.head?_eq_some_iff.mp h.head
  obtain ⟨ts', hts'⟩ := List.head?_eq_some_iff.mp h.head'
  have hahead := C.ahead h.state
  rw [hts, hts'] at hahead
  cases hahead with
  | cons htoken _ => exact htoken

/-- A newline that is taken off does not count as the last token. -/
theorem Next.last_take (h : C.Next t p t' q) (hnewline : t'.lexeme = .newline) :
    C.last p.last (q.take t').last := by
  have hseparator : t'.isSeparator = true := by rw [Token.isSeparator, hnewline]
  show C.last p.last (if t'.isSeparator then q.last else t'.stop)
  rw [hseparator]
  exact C.state_last h.state

/-- The kinds other than those at the seam are the same on both sides. -/
theorem beq_kind (h : C.token t t') {k : Kind} (hnewline : k ≠ .newline) (heof : k ≠ .eof) :
    (t'.kind == k) = (t.kind == k) := by
  rcases matches_or_seam h with hsame | ⟨hlexeme, hlexeme', -⟩
  · rw [hsame.kind]
  · rw [Token.kind, Token.kind, hlexeme, hlexeme']
    exact (beq_eq_false_iff_ne.mpr hnewline.symm).trans (beq_eq_false_iff_ne.mpr heof.symm).symm

theorem kind_eq_iff (h : C.token t t') {k : Kind} (hnewline : k ≠ .newline) (heof : k ≠ .eof) :
    t'.kind = k ↔ t.kind = k := by
  rw [← beq_iff_eq, beq_kind h hnewline heof, beq_iff_eq]

theorem alike_readAhead (h : C.state p q) (hend : ∀ t ∈ p.ahead, t.kind ≠ .eof) :
    C.Alike (readAhead limits) (readAhead limits') p q fun t p' t' q' => C.state p' q' ∧
      p'.ahead = p.ahead ++ [t] ∧ q'.ahead = q.ahead ++ [t'] := by
  have hread := C.read h hend
  unfold Alike
  unfold readAhead at hread ⊢
  generalize p.scanner.next limits = r at hread ⊢
  generalize q.scanner.next limits' = r' at hread ⊢
  obtain ⟨e | t, s⟩ := r <;> obtain ⟨e' | t', s'⟩ := r'
  · cases hread with
    | failed h => exact .failed h
    | gaveUp h => exact .gaveUp h
    | stopped h => exact .stopped h
  · cases hread with
    | gaveUp h => exact .gaveUp h
  · cases hread with
    | stopped h => exact .stopped h
  · cases hread with
    | ok h => exact .ok ⟨h, rfl, rfl⟩

/-- Looking `n` places ahead, where the tokens in between are there and none is the end. -/
theorem alike_peek {n : Nat} (h : C.state p q) (hn : n ≤ p.ahead.length)
    (hend : ∀ t ∈ p.ahead.take n, t.kind ≠ .eof) :
    C.Alike (peek limits n) (peek limits' n) p q fun t p' t' q' => C.state p' q' ∧ C.token t t' ∧
      p.ahead <+: p'.ahead ∧ p'.ahead[n]? = some t ∧
      q.ahead <+: q'.ahead ∧ q'.ahead[n]? = some t' := by
  have hlength := (C.ahead h).length_eq
  unfold Alike peek
  by_cases hlt : n < p.ahead.length
  · have hlt' : n < q.ahead.length := hlength ▸ hlt
    have htoken := (C.ahead h).get hlt hlt'
    rw [List.getElem?_eq_getElem hlt, List.getElem?_eq_getElem hlt']
    exact .ok ⟨h, htoken, List.prefix_refl _, List.getElem?_eq_getElem hlt, List.prefix_refl _,
      List.getElem?_eq_getElem hlt'⟩
  · obtain rfl : n = p.ahead.length := Nat.le_antisymm hn (Nat.not_lt.mp hlt)
    rw [List.take_length] at hend
    rw [List.getElem?_eq_none (Nat.le_refl _), List.getElem?_eq_none (Nat.le_of_eq hlength.symm),
      Nat.sub_self, hlength, Nat.sub_self]
    refine Alike.mono (alike_readAhead h hend) ?_
    rintro t p' t' q' ⟨h', hp', hq'⟩
    have hahead := C.ahead h'
    rw [hp', hq'] at hahead
    have htoken : C.token t t' := by
      have hlast := List.forall₂_drop_append _ _ _ hahead
      rw [List.drop_left' hlength] at hlast
      cases hlast with
      | cons htoken _ => exact htoken
    have hget : ∀ (ts : List Token) (t : Token), (ts ++ [t])[ts.length]? = some t := by simp
    refine ⟨h', htoken, ⟨[t], hp'.symm⟩, ?_, ⟨[t'], hq'.symm⟩, ?_⟩
    · rw [hp', ← hlength]
      exact hget p.ahead t
    · rw [hq']
      exact hget q.ahead t'

theorem alike_peek_next (h : C.state p q) :
    C.Alike (peek limits 0) (peek limits' 0) p q C.Next := by
  refine (alike_peek h (Nat.zero_le _) (by simp)).mono ?_
  rintro t p' t' q' ⟨h', -, -, hp', -, hq'⟩
  exact ⟨h', List.head?_eq_getElem? ▸ hp', List.head?_eq_getElem? ▸ hq'⟩

/-- Computations that look at the next token first do the same, or `X` holds, if that is so once the
token is there. -/
theorem alike_of_peek {X : Prop} (h : C.state p q) (hm : Peeks limits m) (hm' : Peeks limits' m')
    (hnext : ∀ t p' t' q', C.Next t p' t' q' → peek limits 0 p = .ok t p' →
      peek limits' 0 q = .ok t' q' → C.Alike m m' p q A ∨ X) : C.Alike m m' p q A ∨ X := by
  have hpeek := alike_peek_next h
  unfold Alike at hpeek
  generalize hx : peek limits 0 p = x at hpeek
  generalize hy : peek limits' 0 q = y at hpeek
  cases hpeek with
  | ok h => exact hnext _ _ _ _ h hx hy
  | failed he =>
    refine .inl ?_
    unfold Alike
    rw [hm _ _ _ hx, hm' _ _ _ hy]
    exact .failed he
  | gaveUp he =>
    refine .inl ?_
    unfold Alike
    rw [hm _ _ _ hx]
    exact .gaveUp he
  | stopped he =>
    refine .inl ?_
    unfold Alike
    rw [hm' _ _ _ hy]
    exact .stopped he

/-- Counting a round before a computation that looks at the next token first. -/
theorem alike_countRound (h : C.state p q) (hpeeks : Peeks limits m)
    (hm : (q.iterations + 1 : Nat) ≤ limits'.iterations →
      C.Alike m m' p.counted q.counted A) :
    C.Alike (countRound limits >>= fun _ => m) (countRound limits' >>= fun _ => m') p q A := by
  have hrounds := C.rounds h
  unfold Alike
  by_cases hmany' : limits'.iterations < (q.iterations + 1 : Nat)
  -- Where the second parser has too many rounds, it still looks at the next token to say so.
  · have hpeek : C.Alike (peek limits 0) (peek limits' 0) p.counted q.counted C.Next :=
      alike_peek_next (C.count h)
    unfold Alike at hpeek
    generalize hx : peek limits 0 p.counted = x at hpeek
    generalize hy : peek limits' 0 q.counted = y at hpeek
    have hfail : ∀ e q', y = .error e q' →
        (countRound limits' >>= fun _ => m') q = .error e q' := by
      rintro e q' rfl
      refine bind_of_error ?_
      rw [countRound_of_lt hmany']
      exact bind_of_error hy
    have hfail' : ∀ e p', x = .error e p' →
        (countRound limits >>= fun _ => m) p = .error e p' := by
      rintro e p' rfl
      by_cases hmany : limits.iterations < (p.iterations + 1 : Nat)
      · refine bind_of_error ?_
        rw [countRound_of_lt hmany]
        exact bind_of_error hx
      · rw [bind_of_ok (countRound_of_le (Int.not_lt.mp hmany))]
        exact hpeeks _ _ _ hx
    cases hpeek with
    | @ok t t' _ q₁ _ =>
      have hstop : (countRound limits' >>= fun _ => m') q =
          .error (.malformed ⟨.tooManyIterations limits'.iterations, t'.start⟩) q₁ := by
        refine bind_of_error ?_
        rw [countRound_of_lt hmany']
        exact bind_of_ok hy
      rw [hstop]
      exact .stopped (C.tooMany _)
    | failed he =>
      rw [hfail _ _ rfl, hfail' _ _ rfl]
      exact .failed he
    | gaveUp he =>
      rw [hfail' _ _ rfl]
      exact .gaveUp he
    | stopped he =>
      rw [hfail _ _ rfl]
      exact .stopped he
  · have hle : (p.iterations + 1 : Nat) ≤ limits.iterations := by omega
    rw [bind_of_ok (countRound_of_le hle), bind_of_ok (countRound_of_le (Int.not_lt.mp hmany'))]
    exact hm (Int.not_lt.mp hmany')

/-- Taking off a token that is known and is not at the seam. -/
theorem alike_advance_next (h : C.Next t p t' q) (hsame : C.Matches t t') :
    C.Alike (advance limits) (advance limits') p q fun u p' u' q' =>
      u = t ∧ u' = t' ∧ p' = p.take t ∧ C.state p' q' := by
  unfold Alike
  rw [advance_of_head h.head, advance_of_head h.head']
  exact .ok ⟨rfl, rfl, rfl, C.take h.state h.head h.head' hsame.lexeme⟩

theorem alike_discard_advance (h : C.Next t p t' q) (hsame : C.Matches t t') :
    C.Alike (discard (advance limits)) (discard (advance limits')) p q fun _ p' _ q' =>
      p' = p.take t ∧ C.state p' q' :=
  Alike.discard ((alike_advance_next h hsame).mono fun _ _ _ _ h => h.2.2)

/-- Taking off whatever comes next. At the seam the parsers are no longer in step. -/
theorem alike_advance (h : C.state p q) :
    C.Alike (advance limits) (advance limits') p q fun t p' t' q' =>
      C.token t t' ∧ (C.Matches t t' → C.state p' q') := by
  rw [advance_eq, advance_eq]
  refine (alike_peek_next h).bind ?_
  intro t p₁ t' q₁ hnext
  refine .ok ⟨hnext.token, fun hsame => ?_⟩
  exact C.take hnext.state hnext.head hnext.head' hsame.lexeme

theorem alike_check (h : C.state p q) (k : Kind) :
    C.Alike (check limits k) (check limits' k) p q fun b p' b' q' =>
      ∃ t t', C.Next t p' t' q' ∧ b = (t.kind == k) ∧ b' = (t'.kind == k) := by
  refine (alike_peek_next h).bind ?_
  intro t p₁ t' q₁ hnext
  exact alike_pure ⟨t, t', hnext, rfl, rfl⟩

/-- Taking off an expected token that is neither a newline nor the end. -/
theorem alike_accept (kinds : List Kind) (hnewline : .newline ∉ kinds) (heof : .eof ∉ kinds)
    (h : C.state p q) :
    C.Alike (accept limits kinds) (accept limits' kinds) p q fun r p' r' q' =>
      C.state p' q' ∧ Option.Rel (fun t t' => C.Matches t t' ∧ t.kind ∈ kinds) r r' := by
  induction kinds generalizing p q with
  | nil => exact alike_pure ⟨h, .none⟩
  | cons k ks ih =>
    obtain ⟨hk, hks⟩ := not_or.mp (List.mem_cons.not.mp hnewline)
    obtain ⟨hk', hks'⟩ := not_or.mp (List.mem_cons.not.mp heof)
    refine (alike_check h k).bind ?_
    rintro _ p₁ _ q₁ ⟨t, t', hnext, rfl, rfl⟩
    rw [beq_kind hnext.token (Ne.symm hk) (Ne.symm hk')]
    by_cases hkind : t.kind = k
    · rw [beq_iff_eq.mpr hkind]
      have hsame : C.Matches t t' := by
        refine (matches_or_seam hnext.token).resolve_right ?_
        rintro ⟨hlexeme, -, -⟩
        rw [Token.kind, hlexeme] at hkind
        exact hk' hkind
      refine Alike.map ((alike_advance_next hnext hsame).mono ?_)
      rintro _ p₂ _ q₂ ⟨rfl, rfl, -, h₂⟩
      exact ⟨h₂, .some ⟨hsame, hkind ▸ List.mem_cons_self⟩⟩
    · rw [beq_eq_false_iff_ne.mpr hkind]
      refine (ih hks hks' hnext.state).mono ?_
      rintro r p₂ r' q₂ ⟨h₂, hr⟩
      refine ⟨h₂, ?_⟩
      cases hr with
      | none => exact .none
      | some ht => exact .some ⟨ht.1, List.mem_cons_of_mem k ht.2⟩

theorem alike_fail (h : C.token t t') {fault : Fault} (hfault : fault.isMissing = false) :
    C.Alike (fail fault t : Parse α) (fail fault t' : Parse β) p q A :=
  alike_throw (C.fault h fault hfault)

theorem alike_unexpected (h : C.token t t') :
    C.Alike (unexpected t : Parse α) (unexpected t' : Parse β) p q A := by
  rcases matches_or_seam h with hsame | ⟨-, -, hgave⟩
  · unfold unexpected
    rw [hsame.lexeme, hsame.text]
    split <;> exact alike_fail h rfl
  · exact alike_of_fails fails_unexpected hgave

end Coupling

end EnvScript
