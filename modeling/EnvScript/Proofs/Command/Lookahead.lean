import EnvScript.Command.Lookahead
import EnvScript.Proofs.Token.Stream

/-!
# Tokens taken off a parser

`Parser.Faces` and `Parser.Sees` say which tokens are to come, up to a place of the scanner or at
least, and `Parser.Took` which have been taken off, whether they were read ahead or not. Each step
on tokens has its laws for them: what it has taken when it succeeds, and that it does succeed where
the tokens to come are known.
-/

namespace EnvScript

namespace Parser

variable {limits : Limits} {p p' p'' q : Parser} {t u : Token} {ts us : List Token}

/-- The tokens to come begin with `ts`. -/
def Sees (limits : Limits) (p : Parser) (ts : List Token) : Prop :=
  ∃ us s', Scanner.Yields limits p.scanner us s' ∧ ts <+: p.ahead ++ us

/-- The tokens to come before the scanner gets to `s` are `ts`. -/
def Faces (limits : Limits) (p : Parser) (ts : List Token) (s : Scanner) : Prop :=
  ∃ us, Scanner.Yields limits p.scanner us s ∧ p.ahead ++ us = ts

theorem Faces.sees {s : Scanner} (h : p.Faces limits (ts ++ us) s) : p.Sees limits ts := by
  obtain ⟨xs, hxs, heq⟩ := h
  exact ⟨xs, s, hxs, us, heq.symm⟩

theorem Sees.exists_faces (h : p.Sees limits ts) : ∃ us s, p.Faces limits (ts ++ us) s := by
  obtain ⟨xs, s, hxs, us, hus⟩ := h
  exact ⟨us, s, xs, hxs, hus.symm⟩

/-- Where the last token that is no separator ends, and `l` without one. -/
def lastEnd (l : Position) (ts : List Token) : Position :=
  ts.foldl (fun l t => if t.isSeparator then l else t.stop) l

/-- The tokens `ts` have been taken off between `p` and `p'`. -/
def Took (limits : Limits) (p : Parser) (ts : List Token) (p' : Parser) : Prop :=
  ∃ us, Scanner.Yields limits p.scanner us p'.scanner ∧ p.ahead ++ us = ts ++ p'.ahead ∧
    p'.last = lastEnd p.last ts

theorem Took.refl (p : Parser) : p.Took limits [] p :=
  ⟨[], .nil _, List.append_nil _, rfl⟩

theorem Took.trans (h : p.Took limits ts p') (h' : p'.Took limits us p'') :
    p.Took limits (ts ++ us) p'' := by
  obtain ⟨xs, hxs, hts, hlast⟩ := h
  obtain ⟨ys, hys, hus, hlast'⟩ := h'
  refine ⟨xs ++ ys, hxs.append hys, ?_, ?_⟩
  · rw [← List.append_assoc, hts, List.append_assoc, hus, List.append_assoc]
  · rw [hlast', hlast, lastEnd, lastEnd, lastEnd, List.foldl_append]

theorem Took.sees (h : p.Took limits ts p') (h' : p'.Sees limits us) :
    p.Sees limits (ts ++ us) := by
  obtain ⟨xs, hxs, hts, -⟩ := h
  obtain ⟨ys, s', hys, hus⟩ := h'
  refine ⟨xs ++ ys, s', hxs.append hys, ?_⟩
  rw [← List.append_assoc, hts, List.append_assoc]
  exact (List.prefix_append_right_inj ts).mpr hus

theorem sees_of_head (h : p.ahead.head? = some t) : p.Sees limits [t] := by
  refine ⟨[], p.scanner, .nil _, ?_⟩
  obtain ⟨rest, hrest⟩ := List.head?_eq_some_iff.mp h
  rw [hrest, List.append_nil]
  exact ⟨rest, rfl⟩

/-- The next token stays the next one as long as none is taken off. -/
theorem Took.head_of_nil (h : p.Took limits [] p') (ht : p.ahead.head? = some t) :
    p'.ahead.head? = some t := by
  obtain ⟨us, -, hus, -⟩ := h
  obtain ⟨rest, hrest⟩ := List.head?_eq_some_iff.mp ht
  rw [hrest] at hus
  rw [← List.nil_append p'.ahead, ← hus]
  rfl

/-- The next token is the first to be taken off. -/
theorem Took.head_eq (h : p.Took limits (u :: us) p') (ht : p.ahead.head? = some t) : u = t := by
  obtain ⟨xs, -, hxs, -⟩ := h
  obtain ⟨rest, hrest⟩ := List.head?_eq_some_iff.mp ht
  rw [hrest] at hxs
  exact (List.cons.inj hxs).1.symm

theorem Sees.head_eq (h : p.Sees limits (u :: us)) (ht : p.ahead.head? = some t) : u = t := by
  obtain ⟨xs, s', -, more, hmore⟩ := h
  obtain ⟨rest, hrest⟩ := List.head?_eq_some_iff.mp ht
  rw [hrest] at hmore
  exact (List.cons.inj hmore).1

/-- The parser `q` is `p` with more tokens read ahead. -/
def ReadsOn (limits : Limits) (p q : Parser) : Prop :=
  ∃ us s, Scanner.Yields limits p.scanner us s ∧
    q = { p with scanner := s, ahead := p.ahead ++ us }

theorem ReadsOn.refl (p : Parser) : p.ReadsOn limits p :=
  ⟨[], p.scanner, .nil _, by rw [List.append_nil]⟩

theorem ReadsOn.iterations (h : p.ReadsOn limits q) : q.iterations = p.iterations := by
  obtain ⟨us, s, -, rfl⟩ := h
  rfl

theorem ReadsOn.last (h : p.ReadsOn limits q) : q.last = p.last := by
  obtain ⟨us, s, -, rfl⟩ := h
  rfl

/-! ## What is left to be read -/

/-- A bound on the number of tokens to come before the end. -/
def unread (p : Parser) : Nat :=
  p.scanner.cursor.rest.length + p.ahead.countP (·.kind != .eof)

theorem Took.unread_le (h : p.Took limits ts p') :
    p'.unread + ts.countP (·.kind != .eof) ≤ p.unread := by
  obtain ⟨us, hus, heq, -⟩ := h
  have hlength := hus.length_le
  have hcount := congrArg (List.countP (·.kind != .eof)) heq
  rw [List.countP_append, List.countP_append] at hcount
  unfold unread
  omega

end Parser

namespace Parse

/-! ## Computations on a parser -/

section

variable {α β : Type} {m : Parse α} {f : α → Parse β} {p : Parser} {Q Q' : α → Parser → Prop}
  {R : β → Parser → Prop} {E : ReadError → Prop}

/-- From `p` the computation ends as `Q` says, or with an error as `E` says. -/
def Ends (m : Parse α) (p : Parser) (Q : α → Parser → Prop) (E : ReadError → Prop) : Prop :=
  match m p with
  | .ok a p' => Q a p'
  | .error e _ => E e

theorem ends_pure {a : α} (h : Q a p) : Ends (pure a) p Q E := h

theorem ends_throw {e : ReadError} (h : E e) : Ends (throw e : Parse α) p Q E := h

theorem Ends.mono (h : Ends m p Q E) (hQ : ∀ a p', Q a p' → Q' a p') : Ends m p Q' E := by
  unfold Ends at *
  split at h
  · exact hQ _ _ h
  · exact h

theorem Ends.bind (h : Ends m p Q E) (hf : ∀ a p', Q a p' → Ends (f a) p' R E) :
    Ends (m >>= f) p R E := by
  unfold Ends at h
  show match EStateM.bind m f p with | .ok a p' => R a p' | .error e _ => E e
  unfold EStateM.bind
  split at h
  · rename_i a p' hm
    rw [hm]
    exact hf a p' h
  · rename_i e p' hm
    rw [hm]
    exact h

theorem Ends.discard {R : PUnit → Parser → Prop} (h : Ends m p (fun _ p' => R ⟨⟩ p') E) :
    Ends (discard m) p R E := by
  have hdiscard : Functor.discard m = m >>= fun _ => pure () := rfl
  rw [hdiscard]
  exact h.bind fun _ _ hR => hR

theorem Ends.map {g : α → β} (h : Ends m p (fun a p' => R (g a) p') E) : Ends (g <$> m) p R E := by
  have hmap : g <$> m = m >>= fun a => pure (g a) := rfl
  rw [hmap]
  exact h.bind fun _ _ hR => hR

theorem Ends.ok {a : α} {p' : Parser} (h : Ends m p Q E) (hm : m p = .ok a p') : Q a p' := by
  unfold Ends at h
  rw [hm] at h
  exact h

/-- If the computation succeeds from `p`, it ends as `Q` says. -/
abbrev Returns (m : Parse α) (p : Parser) (Q : α → Parser → Prop) : Prop :=
  Ends m p Q fun _ => True

/-- Whatever the first computation does, what is done with its result decides. -/
theorem returns_bind (hf : ∀ a p', Returns (f a) p' R) : Returns (m >>= f) p R := by
  refine Ends.bind (Q := fun _ _ => True) ?_ fun a p' _ => hf a p'
  unfold Ends
  split <;> trivial

theorem Ends.exists_ok (h : Ends m p Q fun _ => False) : ∃ a p', m p = .ok a p' ∧ Q a p' := by
  unfold Ends at h
  split at h
  · rename_i a p' hm
    exact ⟨a, p', hm, h⟩
  · exact h.elim

end

/-- A loop ends as its rounds do, if a bound that is reached may end it. -/
theorem ends_loop {α β : Type} {limits : Limits} {step : α → Parse (α ⊕ β)} {a : α} {p : Parser}
    {Q : β → Parser → Prop} {E : ReadError → Prop} (I : α → Parser → Prop)
    (hE : ∀ pos, E (.malformed ⟨.tooManyIterations limits.iterations, pos⟩)) (hI : I a p)
    (hstep : ∀ a p, I a p →
      Ends (step a) p (fun r p' => r.elim (fun a' => I a' p') (fun b => Q b p')) E) :
    Ends (loop limits step a) p Q E := by
  -- The induction is on the rounds that are left; none left is one of the errors of `E`.
  have hrepeat : ∀ n a p, I a p → Ends (repeatUpTo limits step n a) p Q E := by
    intro n
    induction n with
    | zero => exact fun _ _ _ => ends_throw (hE _)
    | succ n ih =>
      intro a p hI
      refine (hstep a p hI).bind ?_
      intro r p' hr
      cases r with
      | inl a' => exact ih a' p' hr
      | inr b => exact ends_pure hr
  exact hrepeat _ a p hI

/-! ## What has been taken off -/

section

variable {α β : Type} {limits : Limits} {m : Parse α} {f : α → Parse β} {p p' : Parser}
  {t : Token} {ts : List Token} {R R' : List Token → α → Parser → Prop}
  {S : List Token → β → Parser → Prop}

/-- If the computation succeeds, `R` relates what it has taken off, its result and the state after
it. -/
def Reads (limits : Limits) (m : Parse α) (p : Parser) (R : List Token → α → Parser → Prop) :
    Prop :=
  Ends m p (fun a p' => ∃ ts, p.Took limits ts p' ∧ R ts a p') fun _ => True

theorem reads_pure {a : α} (h : R [] a p) : Reads limits (pure a) p R :=
  ends_pure ⟨[], .refl p, h⟩

theorem reads_throw {e : ReadError} : Reads limits (throw e : Parse α) p R := ends_throw trivial

theorem reads_unexpected {t : Token} : Reads limits (unexpected t : Parse α) p R := by
  unfold unexpected
  split <;> exact reads_throw

theorem Reads.mono (h : Reads limits m p R)
    (hR : ∀ ts a p', p.Took limits ts p' → R ts a p' → R' ts a p') : Reads limits m p R' := by
  refine Ends.mono h ?_
  rintro a p' ⟨ts, hts, ha⟩
  exact ⟨ts, hts, hR ts a p' hts ha⟩

theorem Reads.bind (h : Reads limits m p R)
    (hf : ∀ ts a p', p.Took limits ts p' → R ts a p' →
      Reads limits (f a) p' fun us b p'' => S (ts ++ us) b p'') :
    Reads limits (m >>= f) p S := by
  refine Ends.bind h ?_
  rintro a p' ⟨ts, hts, ha⟩
  refine Ends.mono (hf ts a p' hts ha) ?_
  rintro b p'' ⟨us, hus, hb⟩
  exact ⟨ts ++ us, hts.trans hus, hb⟩

theorem reads_loop {step : α → Parse (α ⊕ β)} {a : α} (I : List Token → α → Parser → Prop)
    (hI : I [] a p)
    (hstep : ∀ ts a p', p.Took limits ts p' → I ts a p' →
      Reads limits (step a) p' fun us r p'' =>
        r.elim (fun a' => I (ts ++ us) a' p'') (fun b => S (ts ++ us) b p'')) :
    Reads limits (loop limits step a) p S := by
  refine ends_loop (fun a p' => ∃ ts, p.Took limits ts p' ∧ I ts a p') (fun _ => trivial)
    ⟨[], .refl p, hI⟩ ?_
  rintro a p' ⟨ts, hts, ha⟩
  refine Ends.mono (hstep ts a p' hts ha) ?_
  rintro r p'' ⟨us, hus, hr⟩
  cases r with
  | inl a' => exact ⟨ts ++ us, hts.trans hus, hr⟩
  | inr b => exact ⟨ts ++ us, hts.trans hus, hr⟩

/-- What reading further ahead comes to. -/
theorem readFurther_eq_ok {n : Nat} (h : readFurther limits n p = .ok t p') :
    ∃ us s, us.length = n + 1 ∧ us[n]? = some t ∧ Scanner.Yields limits p.scanner us s ∧
      p' = { p with scanner := s, ahead := p.ahead ++ us } := by
  induction n generalizing p with
  | zero =>
    rw [readFurther, readAhead] at h
    split at h
    · rename_i u s hnext
      cases h
      exact ⟨[t], s, rfl, rfl, .single hnext, rfl⟩
    · exact absurd h (by simp)
  | succ n ih =>
    change EStateM.bind (EStateM.map _ (readAhead limits)) (fun _ => readFurther limits n) p = _
      at h
    -- The first of the tokens goes behind those read ahead, the others behind it.
    rw [EStateM.bind, EStateM.map, readAhead] at h
    cases hnext : p.scanner.next limits with
    | mk r s =>
      rw [hnext] at h
      cases r with
      | error e => exact absurd h (by simp)
      | ok u =>
        obtain ⟨us, s', hlength, hget, hus, rfl⟩ := ih h
        refine ⟨u :: us, s', by rw [List.length_cons, hlength], hget, .cons hnext hus, ?_⟩
        rw [List.append_assoc]
        rfl

theorem readsOn_of_peek {n : Nat} (h : peek limits n p = .ok t p') :
    p.ReadsOn limits p' ∧ p'.ahead[n]? = some t := by
  rw [peek] at h
  split at h
  · rename_i u hu
    cases h
    exact ⟨.refl p, hu⟩
  · rename_i hnone
    have hle : p.ahead.length ≤ n := List.getElem?_eq_none_iff.mp hnone
    obtain ⟨us, s, hlength, hget, hus, rfl⟩ := readFurther_eq_ok h
    refine ⟨⟨us, s, hus, rfl⟩, ?_⟩
    rw [List.getElem?_append_right hle]
    exact hget

/-- A token is there to be taken off, since it is looked at first. -/
theorem advance_eq : advance limits = (do
    let t ← peek limits 0
    modify fun p =>
      { p with ahead := p.ahead.tail, last := if t.isSeparator then p.last else t.stop }
    return t) := by
  funext p
  show EStateM.bind (peek limits 0) _ p = EStateM.bind (peek limits 0) _ p
  unfold EStateM.bind
  cases hpeek : peek limits 0 p with
  | error e p' => rfl
  | ok t p' =>
    obtain ⟨-, hhead⟩ := readsOn_of_peek hpeek
    obtain ⟨rest, hrest⟩ := List.head?_eq_some_iff.mp (List.head?_eq_getElem? ▸ hhead)
    obtain ⟨scanner, ahead, last, iterations⟩ := p'
    obtain rfl : ahead = t :: rest := hrest
    rfl

theorem reads_peek (n : Nat) :
    Reads limits (peek limits n) p fun ts t p' => ts = [] ∧ p'.ahead[n]? = some t := by
  unfold Reads Ends
  cases hpeek : peek limits n p with
  | error e p' => trivial
  | ok t p' =>
    obtain ⟨⟨us, s, hus, rfl⟩, ht⟩ := readsOn_of_peek hpeek
    exact ⟨[], ⟨us, hus, rfl, rfl⟩, rfl, ht⟩

theorem reads_advance :
    Reads limits (advance limits) p fun ts t _ => ts = [t] := by
  rw [advance_eq]
  refine Ends.bind (reads_peek 0) ?_
  rintro t p' ⟨_, ⟨us, hus, heq, hlast⟩, rfl, ht⟩
  obtain ⟨rest, hrest⟩ := List.head?_eq_some_iff.mp (List.head?_eq_getElem? ▸ ht)
  refine ⟨[t], ⟨us, hus, ?_, ?_⟩, rfl⟩
  · show _ = [t] ++ p'.ahead.tail
    rw [heq, hrest]
    rfl
  · show (if t.isSeparator then p'.last else t.stop) = _
    rw [hlast]
    rfl

theorem reads_discard_advance :
    Reads limits (discard (advance limits)) p fun ts _ _ => ∃ t, ts = [t] :=
  Ends.discard (Reads.mono reads_advance fun _ t _ _ hts => ⟨t, hts⟩)

/-- What taking off an expected token comes to. -/
theorem reads_accept (kinds : List Kind) :
    Reads limits (accept limits kinds) p fun ts r _ =>
      r.elim (ts = []) (fun t => ts = [t] ∧ t.kind ∈ kinds) := by
  induction kinds generalizing p with
  | nil => exact reads_pure rfl
  | cons k ks ih =>
    unfold accept check
    refine Reads.bind (R := fun ts b p' => ts = [] ∧ ∃ t, p'.ahead[0]? = some t ∧ b = (t.kind == k))
      ?_ ?_
    · refine (reads_peek 0).bind ?_
      rintro _ t p' - ⟨rfl, ht⟩
      exact reads_pure ⟨rfl, t, ht, rfl⟩
    · rintro _ b p' - ⟨rfl, t, ht, rfl⟩
      split
      · rename_i hk
        refine Ends.map (Reads.mono reads_advance ?_)
        rintro _ u p'' htook rfl
        -- What is taken off is the token that was looked at.
        have hu : u = t := htook.head_eq (List.head?_eq_getElem? ▸ ht)
        exact ⟨rfl, List.mem_cons.mpr (.inl (hu ▸ beq_iff_eq.mp hk))⟩
      -- The token is left for the other kinds.
      · refine ih.mono ?_
        rintro ts r p'' - hr
        cases r with
        | none => exact hr
        | some u => exact ⟨hr.1, List.mem_cons_of_mem k hr.2⟩

theorem reads_countRound : Reads limits (countRound limits) p fun ts _ _ => ts = [] := by
  have hcount : (p.Took limits [] { p with iterations := p.iterations + 1 }) :=
    ⟨[], .nil _, List.append_nil _, rfl⟩
  unfold countRound
  refine Ends.bind (Q := fun _ p' => p' = { p with iterations := p.iterations + 1 }) rfl ?_
  rintro _ _ rfl
  refine Ends.bind (Q := fun _ p' => p' = { p with iterations := p.iterations + 1 }) rfl ?_
  rintro _ _ rfl
  split
  · refine Ends.bind (reads_peek 0) ?_
    rintro t p' -
    exact ends_throw trivial
  · exact ends_pure ⟨[], hcount, rfl⟩

end

/-! ## What is done with known tokens -/

section

variable {limits : Limits} {p : Parser} {t : Token} {ts : List Token} {s s' : Scanner}
  {E : ReadError → Prop}

theorem readFurther_of_yields {n : Nat} {us : List Token}
    (h : Scanner.Yields limits p.scanner us s') (ht : us[n]? = some t) :
    ∃ s, readFurther limits n p =
        .ok t { p with scanner := s, ahead := p.ahead ++ us.take (n + 1) } ∧
      Scanner.Yields limits s (us.drop (n + 1)) s' := by
  induction n generalizing p us with
  | zero =>
    cases h with
    | nil => exact absurd ht (by simp)
    | @cons _ s₁ _ u us hnext hrest =>
      cases ht
      refine ⟨s₁, ?_, hrest⟩
      rw [readFurther, readAhead, hnext]
      rfl
  | succ n ih =>
    cases h with
    | nil => exact absurd ht (by simp)
    | @cons _ s₁ _ u us hnext hrest =>
      obtain ⟨s, hs, hyields⟩ :=
        ih (p := { p with scanner := s₁, ahead := p.ahead ++ [u] }) hrest ht
      refine ⟨s, ?_, hyields⟩
      show EStateM.bind (EStateM.map _ (readAhead limits)) (fun _ => readFurther limits n) p = _
      rw [EStateM.bind, EStateM.map, readAhead, hnext]
      refine hs.trans ?_
      rw [List.append_assoc]
      rfl

/-- Looking at a known token. -/
theorem ends_peek {n : Nat} (hp : p.Faces limits ts s) (ht : ts[n]? = some t) :
    Ends (peek limits n) p (fun u p' => u = t ∧ p'.Faces limits ts s ∧ p'.ahead[n]? = some t ∧
      p'.iterations = p.iterations) E := by
  obtain ⟨us, hus, hts⟩ := hp
  rw [← hts] at ht
  unfold Ends
  cases hahead : p.ahead[n]? with
  | some u =>
    -- The token has been read ahead.
    have hu : u = t := by
      have hlt := (List.getElem?_eq_some_iff.mp hahead).1
      rw [List.getElem?_append_left hlt, hahead] at ht
      exact Option.some.inj ht
    rw [peek, hahead]
    exact ⟨hu, ⟨us, hus, hts⟩, hu ▸ hahead, rfl⟩
  | none =>
    -- The scanner has yet to hand the token out.
    have hle : p.ahead.length ≤ n := List.getElem?_eq_none_iff.mp hahead
    rw [List.getElem?_append_right hle] at ht
    obtain ⟨s₁, hs, hyields⟩ := readFurther_of_yields hus ht
    have hpeek : peek limits n p = readFurther limits (n - p.ahead.length) p := by
      rw [peek, hahead]
    rw [hpeek, hs]
    refine ⟨rfl, ⟨_, hyields, ?_⟩, ?_, rfl⟩
    · rw [← hts, List.append_assoc, List.take_append_drop]
    · rw [List.getElem?_append_right hle, List.getElem?_take_of_lt (Nat.lt_succ_self _)]
      exact ht

theorem ends_advance (hp : p.Faces limits (t :: ts) s) :
    Ends (advance limits) p
      (fun u p' => u = t ∧ p'.Faces limits ts s ∧ p'.iterations = p.iterations) E := by
  rw [advance_eq]
  refine Ends.bind (ends_peek hp rfl) ?_
  rintro _ p' ⟨rfl, ⟨us, hus, heq⟩, hhead, hrounds⟩
  refine ⟨rfl, ⟨us, hus, ?_⟩, hrounds⟩
  obtain ⟨rest, hrest⟩ := List.head?_eq_some_iff.mp (List.head?_eq_getElem? ▸ hhead)
  show p'.ahead.tail ++ us = ts
  rw [hrest] at heq ⊢
  exact (List.cons.inj heq).2

theorem ends_check (hp : p.Faces limits (t :: ts) s) (k : Kind) :
    Ends (check limits k) p (fun b p' => b = (t.kind == k) ∧ p'.Faces limits (t :: ts) s ∧
      p'.iterations = p.iterations) E := by
  refine Ends.bind (ends_peek hp (n := 0) rfl) ?_
  rintro _ p' ⟨rfl, hp', -, hrounds⟩
  exact ends_pure ⟨rfl, hp', hrounds⟩

theorem ends_accept_some {kinds : List Kind} (hp : p.Faces limits (t :: ts) s)
    (hk : t.kind ∈ kinds) :
    Ends (accept limits kinds) p
      (fun r p' => r = some t ∧ p'.Faces limits ts s ∧ p'.iterations = p.iterations) E := by
  induction kinds generalizing p with
  | nil => exact absurd hk List.not_mem_nil
  | cons k ks ih =>
    refine Ends.bind (ends_check hp k) ?_
    rintro _ p' ⟨rfl, hp', hrounds⟩
    rw [← hrounds]
    split
    · refine Ends.map (Ends.mono (ends_advance hp') ?_)
      rintro u p'' ⟨rfl, h⟩
      exact ⟨rfl, h⟩
    · rename_i hne
      rcases List.mem_cons.mp hk with heq | hmem
      · exact absurd (beq_iff_eq.mpr heq) hne
      · exact ih hp' hmem

theorem ends_accept_none {kinds : List Kind} (hp : p.Faces limits (t :: ts) s)
    (hk : t.kind ∉ kinds) :
    Ends (accept limits kinds) p
      (fun r p' => r = none ∧ p'.Faces limits (t :: ts) s ∧ p'.iterations = p.iterations) E := by
  induction kinds generalizing p with
  | nil => exact ends_pure ⟨rfl, hp, rfl⟩
  | cons k ks ih =>
    obtain ⟨hne, hmem⟩ := not_or.mp (List.mem_cons.not.mp hk)
    refine Ends.bind (ends_check hp k) ?_
    rintro _ p' ⟨rfl, hp', hrounds⟩
    rw [if_neg (fun heq => hne (beq_iff_eq.mp heq)), ← hrounds]
    exact ih hp' hmem

end

/-! ## What is given for known tokens -/

section

variable {α β : Type} {limits : Limits} {m : Parse α} {f : α → Parse β} {p : Parser} {t : Token}
  {ts us : List Token} {Q Q' : α → Prop} {R : β → Prop} {j k : Nat}

/-- The error of a script with too many rounds. -/
def TooManyRounds (limits : Limits) (e : ReadError) : Prop :=
  ∃ pos, e = .malformed ⟨.tooManyIterations limits.iterations, pos⟩

/-- The computation gives a result of which `Q` holds, with the tokens `ts` to come after it, and
counts at most `k` rounds, unless that many are too many. -/
def Gives (limits : Limits) (m : Parse α) (p : Parser) (Q : α → Prop) (ts : List Token) (k : Nat) :
    Prop :=
  Ends m p (fun a p' => Q a ∧ p'.Sees limits ts ∧ p'.iterations ≤ p.iterations + k)
    fun e => TooManyRounds limits e ∧ limits.iterations < p.iterations + k

theorem gives_pure {a : α} (ha : Q a) (hp : p.Sees limits ts) : Gives limits (pure a) p Q ts k :=
  ends_pure ⟨ha, hp, Nat.le_add_right _ _⟩

theorem Gives.mono (h : Gives limits m p Q ts j) (hQ : ∀ a, Q a → Q' a) (hk : j ≤ k) :
    Gives limits m p Q' ts k := by
  unfold Gives Ends at *
  split at h
  · obtain ⟨ha, hp, hrounds⟩ := h
    exact ⟨hQ _ ha, hp, by omega⟩
  · obtain ⟨he, hrounds⟩ := h
    exact ⟨he, by omega⟩

theorem Gives.bind (h : Gives limits m p Q ts k)
    (hf : ∀ a p', Q a → p'.Sees limits ts → Gives limits (f a) p' R us j) :
    Gives limits (m >>= f) p R us (j + k) := by
  -- Too many rounds for the first part are too many for both.
  have h : Ends m p (fun a p' => Q a ∧ p'.Sees limits ts ∧ p'.iterations ≤ p.iterations + k)
      fun e => TooManyRounds limits e ∧
        limits.iterations < (p.iterations : Int) + (j + k : Nat) := by
    unfold Gives Ends at *
    split at h
    · exact h
    · exact ⟨h.1, by omega⟩
  refine Ends.bind h ?_
  rintro a p' ⟨ha, hp, hrounds⟩
  have hfa := hf a p' ha hp
  unfold Gives Ends at *
  split at hfa
  · obtain ⟨hb, hp', hrounds'⟩ := hfa
    exact ⟨hb, hp', by omega⟩
  · obtain ⟨he, hrounds'⟩ := hfa
    exact ⟨he, by omega⟩

theorem Gives.bind_le {n : Nat} (j : Nat) (h : Gives limits m p Q ts k)
    (hf : ∀ a p', Q a → p'.Sees limits ts → Gives limits (f a) p' R us j) (hn : j + k ≤ n) :
    Gives limits (m >>= f) p R us n :=
  Gives.mono (h.bind hf) (fun _ hb => hb) hn

/-- A loop through states of which `I` holds, with the tokens to come and the rounds that are still
allowed. Every round either goes on to such a state, with fewer rounds to go, or ends the loop. -/
theorem gives_loop {step : α → Parse (α ⊕ β)} {a : α} (I : α → List Token → Nat → Prop)
    (hI : I a ts k) (hp : p.Sees limits ts)
    (hstep : ∀ a ts b p, I a ts b → p.Sees limits ts →
      (∃ us' j k, Gives limits (step a) p (fun r => ∃ a', r = .inl a' ∧ I a' us' j) us' k ∧
        0 < k ∧ j + k ≤ b) ∨
      Gives limits (step a) p (fun r => ∃ b, r = .inr b ∧ R b) us b) :
    Gives limits (loop limits step a) p R us k := by
  -- The rounds of the loop are bounded by those that may still be counted. A round that goes on
  -- uses up at least one, so the bound is only reached where the budget goes beyond the limit.
  have hrepeat : ∀ (n : Nat) a ts j p', I a ts j → p'.Sees limits ts →
      p'.iterations + j ≤ p.iterations + k → limits.iterations + j < p.iterations + k + n →
      Ends (repeatUpTo limits step n a) p'
        (fun b p'' => R b ∧ p''.Sees limits us ∧ p''.iterations ≤ p.iterations + k)
        fun e => TooManyRounds limits e ∧ limits.iterations < p.iterations + k := by
    intro n
    induction n with
    | zero =>
      intro a ts j p' _ _ _ hfuel
      exact ends_throw ⟨⟨_, rfl⟩, by omega⟩
    | succ n ih =>
      intro a ts j p' hI hp' hrounds hfuel
      rcases hstep a ts j p' hI hp' with ⟨us', j', k', hgives, hpos, hle⟩ | hgives
      · unfold Gives Ends at hgives
        refine Ends.bind (Q := fun r p'' => (∃ a', r = .inl a' ∧ I a' us' j') ∧
          p''.Sees limits us' ∧ p''.iterations ≤ p'.iterations + k') ?_ ?_
        · unfold Ends
          split at hgives
          · exact hgives
          · exact ⟨hgives.1, by omega⟩
        · rintro _ p'' ⟨⟨a', rfl, hI'⟩, hp'', hrounds'⟩
          exact ih a' us' j' p'' hI' hp'' (by omega) (by omega)
      · unfold Gives Ends at hgives
        refine Ends.bind (Q := fun r p'' => (∃ b, r = .inr b ∧ R b) ∧
          p''.Sees limits us ∧ p''.iterations ≤ p'.iterations + j) ?_ ?_
        · unfold Ends
          split at hgives
          · exact hgives
          · exact ⟨hgives.1, by omega⟩
        · rintro _ p'' ⟨⟨b, rfl, hb⟩, hp'', hrounds'⟩
          exact ends_pure ⟨hb, hp'', by omega⟩
  exact hrepeat _ a ts k p hI hp (Nat.le_refl _) (by omega)

/-- Where the computation is known to take tokens off, it gives its result for them. -/
theorem Gives.of_faces (hp : p.Sees limits ts)
    (h : ∀ more s, p.Faces limits (ts ++ more) s → Ends m p (fun a p' => Q a ∧
      p'.Faces limits (us ++ more) s ∧ p'.iterations = p.iterations) fun _ => False) :
    Gives limits m p Q us 0 := by
  obtain ⟨more, s, hfaces⟩ := hp.exists_faces
  have hends := h more s hfaces
  unfold Gives Ends at *
  split at hends
  · obtain ⟨ha, hp', hrounds⟩ := hends
    exact ⟨ha, hp'.sees, hrounds.le⟩
  · exact hends.elim

theorem gives_peek {n : Nat} (hp : p.Sees limits ts) (ht : ts[n]? = some t) :
    Gives limits (peek limits n) p (· = t) ts 0 := by
  refine Gives.of_faces hp fun more s hfaces => ?_
  have hlt := (List.getElem?_eq_some_iff.mp ht).1
  refine Ends.mono (ends_peek hfaces ((List.getElem?_append_left hlt).trans ht)) ?_
  exact fun _ _ h => ⟨h.1, h.2.1, h.2.2.2⟩

theorem gives_advance (hp : p.Sees limits (t :: ts)) :
    Gives limits (advance limits) p (· = t) ts 0 :=
  Gives.of_faces hp fun _ _ => ends_advance

theorem gives_discard_advance (hp : p.Sees limits (t :: ts)) :
    Gives limits (discard (advance limits)) p (fun _ => True) ts 0 :=
  Ends.discard (Gives.mono (gives_advance hp) (fun _ _ => trivial) (Nat.le_refl 0))

theorem gives_check (hp : p.Sees limits (t :: ts)) (k : Kind) :
    Gives limits (check limits k) p (· = (t.kind == k)) (t :: ts) 0 :=
  Gives.of_faces hp fun _ _ hfaces => ends_check hfaces k

theorem gives_accept_some {kinds : List Kind} (hp : p.Sees limits (t :: ts)) (hk : t.kind ∈ kinds) :
    Gives limits (accept limits kinds) p (· = some t) ts 0 :=
  Gives.of_faces hp fun _ _ hfaces => ends_accept_some hfaces hk

theorem gives_accept_none {kinds : List Kind} (hp : p.Sees limits (t :: ts)) (hk : t.kind ∉ kinds) :
    Gives limits (accept limits kinds) p (· = none) (t :: ts) 0 :=
  Gives.of_faces hp fun _ _ hfaces => ends_accept_none hfaces hk

theorem gives_countRound (hp : p.Sees limits ts) (hts : ts ≠ []) :
    Gives limits (countRound limits) p (fun _ => True) ts 1 := by
  obtain ⟨t, us, rfl⟩ := List.exists_cons_of_ne_nil hts
  have hcount : { p with iterations := p.iterations + 1 }.Sees limits (t :: us) := hp
  unfold countRound
  refine Ends.bind (Q := fun _ p' => p' = { p with iterations := p.iterations + 1 }) rfl ?_
  rintro _ _ rfl
  refine Ends.bind (Q := fun q p' => q = { p with iterations := p.iterations + 1 } ∧ p' = q)
    ⟨rfl, rfl⟩ ?_
  rintro _ _ ⟨rfl, rfl⟩
  split
  · rename_i hmany
    obtain ⟨more, s, hfaces⟩ := hcount.exists_faces
    refine Ends.bind (ends_peek hfaces (n := 0) rfl) ?_
    rintro u p' -
    exact ends_throw ⟨⟨u.start, rfl⟩, hmany⟩
  · exact ends_pure ⟨trivial, hcount, Nat.le_refl _⟩

end

end Parse

end EnvScript
