import EnvScript.Proofs.Command.Lockstep
import EnvScript.Proofs.Token.Within

/-!
# Statements in a part of a text

The parser of a part of a text and that of the whole, under tighter limits, are coupled. The parser
of the whole leaves the part when it takes off the newline behind it, and then it stands where the
parser of the text behind that newline begins.
-/

namespace EnvScript

def ReadError.down (k : Nat) : ReadError → ReadError
  | .malformed e => .malformed (e.down k)
  | .oversizedNumeral n => .oversizedNumeral n

def ReadError.isLimit : ReadError → Bool
  | .malformed e => e.fault.isLimit
  | .oversizedNumeral _ => false

/-- Where the last token ended, for as long as none has been taken off anywhere. -/
def Position.LastBelow (k : Nat) (l l' : Position) : Prop := l' = l.down k ∨ l = .start

/-- The tokens that have been read ahead in the part and in the whole, and the scanners behind them.
The last of the tokens may be the newline at which the scanner of the whole has left the part. -/
inductive AheadAlike (k : Nat) (tail : Text) (m : Nat) :
    List Token → Scanner → List Token → Scanner → Prop
  | inside {ts ts' : List Token} {s s' : Scanner} (hts : List.Forall₂ (Token.Below k tail) ts ts')
      (hs : s.Within k tail m s') : AheadAlike k tail m ts s ts' s'
  | crossed {u : Text} {m' : Nat} {ts ts' : List Token} {t t' : Token} {s s' : Scanner}
      (htail : tail = '\n' :: u) (hts : List.Forall₂ (Token.Below k tail) ts ts')
      (hend : ∀ t ∈ ts, t.kind ≠ .eof) (ht : t.lexeme = .eof) (ht' : t'.lexeme = .newline)
      (hstart : t'.start = t.start.down k) (hs : (Scanner.ofText u).Within m [] m' s') :
      AheadAlike k tail m (ts ++ [t]) s (ts' ++ [t']) s'

/-- A parser `p` of the part beside a parser `q` of the whole. -/
structure Parser.Within (k : Nat) (tail : Text) (m : Nat) (p q : Parser) : Prop where
  ahead : AheadAlike k tail m p.ahead p.scanner q.ahead q.scanner
  last : Position.LastBelow k p.last q.last
  iterations : p.iterations ≤ q.iterations

/-- The parser of the whole has passed the newline behind the part and nothing else. -/
def Parser.Beyond (tail : Text) (m : Nat) (q : Parser) : Prop :=
  q.ahead = [] ∧ ∃ u m', tail = '\n' :: u ∧ (Scanner.ofText u).Within m [] m' q.scanner

/-- Corresponding tokens, among them the end of the part and the newline behind it. -/
def Token.AtSeam (k : Nat) (tail : Text) (t t' : Token) : Prop :=
  t.Below k tail t' ∨
    tail ≠ [] ∧ t.lexeme = .eof ∧ t'.lexeme = .newline ∧ t'.start = t.start.down k

section

variable {k m : Nat} {tail : Text} {limits limits' : Limits} {p q : Parser} {t t' : Token}

theorem Position.down_inj {l l' : Position} : l.down k = l'.down k ↔ l = l' := by
  constructor
  · intro h
    obtain ⟨line, col⟩ := l
    obtain ⟨line', col'⟩ := l'
    obtain ⟨hline, rfl⟩ : line + k = line' + k ∧ col = col' := Position.mk.inj h
    rw [Nat.add_right_cancel hline]
  · rintro rfl
    rfl

theorem Token.AtSeam.start (h : t.AtSeam k tail t') : t'.start = t.start.down k := by
  rcases h with h | ⟨-, -, -, h⟩
  · exact h.start
  · exact h

theorem Token.AtSeam.below (h : t.AtSeam k tail t') (hlexeme : t'.lexeme = t.lexeme) :
    t.Below k tail t' := by
  rcases h with h | ⟨-, ht, ht', -⟩
  · exact h
  · rw [ht, ht'] at hlexeme
    exact absurd hlexeme (by simp)

theorem AheadAlike.forall₂ {ts ts' : List Token} {s s' : Scanner}
    (h : AheadAlike k tail m ts s ts' s') : List.Forall₂ (Token.AtSeam k tail) ts ts' := by
  cases h with
  | inside hts _ => exact hts.imp fun _ _ h => .inl h
  | crossed htail hts _ ht ht' hstart _ =>
    refine List.rel_append (hts.imp fun _ _ h => .inl h) (.cons (.inr ⟨?_, ht, ht', hstart⟩) .nil)
    rw [htail]
    simp

theorem Parser.Within.read (hlimits : limits'.Tighter limits) (h : p.Within k tail m q)
    (hend : ∀ t ∈ p.ahead, t.kind ≠ .eof) :
    Coupled ⟨fun e e' => e' = e.down k, fun _ => tail ≠ [], fun e => e.isLimit = true⟩
      (fun _ p' _ q' => p'.Within k tail m q') (Parse.readAhead limits p)
      (Parse.readAhead limits' q) := by
  obtain ⟨hahead, hlast, hiterations⟩ := h
  obtain ⟨s, ts, last, iterations⟩ := p
  obtain ⟨s', ts', last', iterations'⟩ := q
  cases hahead with
  | inside hts hs =>
    have hnext := nextAlike_next hlimits hs
    unfold Parse.readAhead
    dsimp only
    generalize s.next limits = r at hnext ⊢
    generalize s'.next limits' = r' at hnext ⊢
    cases hnext with
    | ok ht hs =>
      exact .ok ⟨.inside (List.rel_append hts (.cons ht .nil)) hs, hlast, hiterations⟩
    | seam htail ht ht' hstart hs =>
      exact .ok ⟨.crossed htail hts hend ht ht' hstart hs, hlast, hiterations⟩
    | failed h => exact .failed (congrArg ReadError.malformed h)
    | cut h => exact .gaveUp h
    | limit h => exact .stopped h
  | @crossed _ _ ts _ t _ _ _ _ _ _ ht _ _ _ =>
    have hmem : t ∈ ts ++ [t] := List.mem_append_right ts List.mem_cons_self
    exact absurd (congrArg Lexeme.kind ht) (hend t hmem)

theorem LastBelow.take {l l' : Position} (h : Position.LastBelow k l l') (ht : t.Below k tail t') :
    Position.LastBelow k (if t.isSeparator then l else t.stop)
      (if t'.isSeparator then l' else t'.stop) := by
  have hseparator : t'.isSeparator = t.isSeparator := by
    unfold Token.isSeparator
    rw [ht.lexeme]
  rw [hseparator]
  split
  · exact h
  · exact .inl ht.stop

theorem Parser.Within.take (h : p.Within k tail m q) (ht : p.ahead.head? = some t)
    (ht' : q.ahead.head? = some t') (hlexeme : t'.lexeme = t.lexeme) :
    (p.take t).Within k tail m (q.take t') := by
  obtain ⟨hahead, hlast, hiterations⟩ := h
  obtain ⟨s, ts, last, iterations⟩ := p
  obtain ⟨s', ts', last', iterations'⟩ := q
  dsimp only at hahead ht ht'
  cases hahead with
  | inside hts hs =>
    cases hts with
    | nil => exact absurd ht (by simp)
    | cons h hts =>
      obtain rfl := Option.some.inj ht
      obtain rfl := Option.some.inj ht'
      exact ⟨.inside hts hs, LastBelow.take hlast h, hiterations⟩
  | crossed htail hts hend heof hnewline hstart hs =>
    cases hts with
    | nil =>
      obtain rfl := Option.some.inj ht
      obtain rfl := Option.some.inj ht'
      rw [heof, hnewline] at hlexeme
      exact absurd hlexeme (by simp)
    | cons h hts =>
      obtain rfl := Option.some.inj ht
      obtain rfl := Option.some.inj ht'
      exact ⟨.crossed htail hts (fun t ht => hend t (List.mem_cons_of_mem _ ht)) heof hnewline
        hstart hs, LastBelow.take hlast h, hiterations⟩

theorem Parser.Within.cross (h : p.Within k tail m q) (ht : p.ahead.head? = some t)
    (ht' : q.ahead.head? = some t') (heof : t.lexeme = .eof) (hnewline : t'.lexeme = .newline) :
    (q.take t').Beyond tail m := by
  obtain ⟨hahead, -, -⟩ := h
  obtain ⟨s, ts, last, iterations⟩ := p
  obtain ⟨s', ts', last', iterations'⟩ := q
  dsimp only at hahead ht ht'
  -- A token of the part is not the end in the one and a newline in the other.
  have hbelow : ∀ {u u'}, u.Below k tail u' → some u = some t → some u' = some t' → False := by
    intro u u' h hu hu'
    have hlexeme := h.lexeme
    rw [Option.some.inj hu, Option.some.inj hu', heof, hnewline] at hlexeme
    exact absurd hlexeme (by simp)
  cases hahead with
  | inside hts _ =>
    cases hts with
    | nil => exact absurd ht (by simp)
    | cons h _ => exact (hbelow h ht ht').elim
  | crossed htail hts _ _ _ _ hs =>
    cases hts with
    | nil => exact ⟨rfl, _, _, htail, hs⟩
    | cons h _ => exact (hbelow h ht ht').elim

/-- The parsers of a part and of the whole keep in step. -/
def Coupling.ofPart (k : Nat) (tail : Text) (m : Nat) (hlimits : limits'.Tighter limits) :
    Coupling limits limits' where
  failed e e' := e' = e.down k
  gaveUp _ := tail ≠ []
  stopped e := e.isLimit = true
  state := Parser.Within k tail m
  token := Token.AtSeam k tail
  last := Position.LastBelow k
  beyond := Parser.Beyond tail m
  token_cases h := h.imp (fun h => ⟨h.lexeme, h.text⟩) fun h => ⟨h.2.1, h.2.2.1, fun _ => h.1⟩
  adjacent ht hlexeme hu := by
    rw [hu.start, (ht.below hlexeme).stop, Position.down_inj]
  fault ht fault _ := by
    rw [ht.start]
    rfl
  oversized _ _ _ := rfl
  tooMany _ := rfl
  ahead h := h.ahead.forall₂
  state_last h := h.last
  rounds h := by
    have := h.iterations
    have := hlimits.iterations
    omega
  read h hend := h.read hlimits hend
  take h ht ht' hlexeme := h.take ht ht' hlexeme
  cross h ht ht' heof hnewline := h.cross ht ht' heof hnewline
  count h := ⟨h.ahead, h.last, Nat.succ_le_succ h.iterations⟩
  beyond_count h := h

end

end EnvScript
