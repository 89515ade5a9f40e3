import EnvScript.Proofs.Token.Stream
import EnvScript.Proofs.Word.Rendering
import Mathlib.Data.List.TakeWhile

/-!
# The tokens partition the text

A position of a text is an offset into it. The tokens of a text stand in it one behind the other,
each with the text between its two ends, and with blanks between them (`Tiling`). Inside of a word,
the texts of its parts stand one behind the other.
-/

namespace EnvScript

/-! ## Offsets -/

/-- The number of characters up to the end of the `n`th newline. -/
def lineOffset : Nat → Text → Nat
  | 0, _ => 0
  | _ + 1, [] => 0
  | n + 1, c :: t => lineOffset (if c = '\n' then n else n + 1) t + 1

/-- The offset of a position: the lines before its own, and the characters before it in its own. -/
def Position.offsetIn (p : Position) (text : Text) : Nat :=
  lineOffset (p.line - 1) text + p.col - 1

section

variable {text s t : Text} {m n : Nat}

theorem lineOffset_cons_newline (n : Nat) (t : Text) :
    lineOffset (n + 1) ('\n' :: t) = lineOffset n t + 1 := rfl

theorem lineOffset_cons_of_ne {c : Char} (hc : c ≠ '\n') (n : Nat) (t : Text) :
    lineOffset (n + 1) (c :: t) = lineOffset (n + 1) t + 1 := by
  rw [lineOffset, if_neg hc]

/-- The columns start anew behind a newline, and go on from those of `p` where there is none. -/
theorem lineOffset_count (p : Position) (s t : Text) :
    lineOffset (s.count '\n') (s ++ t) + (p.after s).col =
      s.length + if s.count '\n' = 0 then p.col else 1 := by
  induction s generalizing p with
  | nil => simp [lineOffset]
  | cons c s ih =>
    have hmore := ih (p.next c)
    rw [Position.after_cons, List.cons_append, List.length_cons]
    by_cases hc : c = '\n'
    · subst hc
      have hcol : (p.next '\n').col = 1 := rfl
      rw [hcol, ite_self] at hmore
      rw [List.count_cons_self, lineOffset_cons_newline, if_neg (Nat.succ_ne_zero _)]
      omega
    · have hcol : (p.next c).col = p.col + 1 := by rw [Position.next, if_neg hc]
      rw [hcol] at hmore
      rw [List.count_cons_of_ne hc]
      cases hcount : s.count '\n' with
      | zero =>
        rw [hcount, if_pos rfl, lineOffset] at hmore
        rw [if_pos rfl, lineOffset]
        omega
      | succ k =>
        rw [hcount, if_neg (Nat.succ_ne_zero k)] at hmore
        rw [if_neg (Nat.succ_ne_zero k), lineOffset_cons_of_ne hc]
        omega

/-- The position behind a front of a text has the length of that front as its offset. -/
theorem offsetIn_after (s t : Text) : (Position.start.after s).offsetIn (s ++ t) = s.length := by
  have h := lineOffset_count .start s t
  have hline : (Position.start.after s).line - 1 = s.count '\n' := by
    rw [Position.line_after]
    exact Nat.add_sub_cancel_left 1 _
  rw [show Position.start.col = 1 from rfl, ite_self] at h
  rw [Position.offsetIn, hline, h, Nat.add_sub_cancel]

theorem Cursor.At.offsetIn {c : Cursor} (h : c.At text) : c.position.offsetIn text = c.offset := by
  have h' := offsetIn_after (text.take c.offset) (text.drop c.offset)
  rw [List.take_append_drop, ← h.position_eq, List.length_take, Nat.min_eq_left h.le] at h'
  exact h'

/-- What a cursor passes on its way is a slice of the text. -/
theorem Cursor.At.extract_advance {c : Cursor} (h : c.At text) (n : Nat) :
    text.extract c.offset (c.advance n).offset = c.rest.take n := by
  rw [List.extract_eq_take_drop, ← h.rest_eq, c.take_offset_advance]

theorem extract_append_drop (text : Text) {m n : Nat} (h : m ≤ n) :
    text.extract m n ++ text.drop n = text.drop m := by
  have hdrop : text.drop n = (text.drop m).drop (n - m) := by
    rw [List.drop_drop, Nat.add_sub_cancel' h]
  rw [List.extract_eq_take_drop, hdrop, List.take_append_drop]

end

/-! ## Gaps -/

/-- What may stand between two tokens, in front of `behind`. A comment goes up to the newline or
to the end, so it is the last of its gap. -/
inductive Gap (behind : Text) : Text → Prop
  | nil : Gap behind []
  | blank {x : Char} {g : Text} (hx : x = ' ' ∨ x = '\t' ∨ x = '\r') (h : Gap behind g) :
      Gap behind (x :: g)
  | escapedNewline {g : Text} (h : Gap behind g) : Gap behind ('\\' :: '\n' :: g)
  | comment {g : Text} (hg : '\n' ∉ g) (hbehind : ∀ x ∈ behind.head?, x = '\n') :
      Gap behind ('#' :: g)

/-- A newline that nothing escapes is no part of a gap. -/
theorem Gap.eq_nil {behind g : Text} (h : Gap behind g)
    (hhead : ∀ x ∈ (g ++ behind).head?, x = '\n') : g = [] := by
  cases h with
  | nil => rfl
  | blank hx h =>
    have hnewline := hhead _ rfl
    subst hnewline
    exact absurd hx (by decide)
  | escapedNewline h => exact absurd (hhead _ rfl) (by decide)
  | comment hg hbehind => exact absurd (hhead _ rfl) (by decide)

/-- A comment is the text up to a newline or the end, so no more of the gap follows it. -/
theorem Gap.ofComment {u g behind : Text}
    (hdrop : u.drop (u.takeWhile (· != '\n')).length = g ++ behind) (h : Gap behind g) :
    Gap behind ('#' :: u.takeWhile (· != '\n') ++ g) := by
  have hbehind : u.dropWhile (· != '\n') = g ++ behind := by
    rw [← hdrop]
    conv => rhs; arg 2; rw [← List.takeWhile_append_dropWhile (p := (· != '\n')) (l := u)]
    rw [List.drop_left]
  have hhead : ∀ x ∈ (g ++ behind).head?, x = '\n' := by
    intro x hx
    have hnot := List.head?_dropWhile_not (· != '\n') u
    rw [hbehind, Option.mem_def.mp hx] at hnot
    simpa using hnot
  obtain rfl := h.eq_nil hhead
  rw [List.append_nil]
  refine .comment (fun hmem => ?_) hhead
  simpa using List.mem_takeWhile_imp hmem

theorem Gap.blankStep {t g behind : Text} (ht : Cursor.blankStep t ≠ 0)
    (hdrop : t.drop (Cursor.blankStep t) = g ++ behind) (h : Gap behind g) :
    Gap behind (t.take (Cursor.blankStep t) ++ g) := by
  fun_cases Cursor.blankStep t with
  | case1 => exact .blank (by decide) h
  | case2 => exact .blank (by decide) h
  | case3 => exact .blank (by decide) h
  | case4 => exact .escapedNewline h
  | case5 u =>
    rw [Cursor.blankStep, List.drop_succ_cons] at hdrop
    rw [List.take_succ_cons,
      ← List.prefix_iff_eq_take.mp (List.takeWhile_prefix (· != '\n'))]
    exact .ofComment hdrop h
  | case6 t hspace htab hreturn hnewline hcomment =>
    exact absurd (Cursor.blankStep.eq_6 t hspace htab hreturn hnewline hcomment) ht

theorem Cursor.exists_gap (c : Cursor) :
    ∃ g, c.rest = g ++ c.skipBlanks.rest ∧ Gap c.skipBlanks.rest g := by
  fun_induction skipBlanks c with
  | case1 c h => exact ⟨[], rfl, .nil⟩
  | case2 c h ih =>
    obtain ⟨g, hg, hgap⟩ := ih
    rw [rest_advance] at hg
    exact ⟨_, by rw [List.append_assoc, ← hg, List.take_append_drop], hgap.blankStep h hg⟩

/-- All of a gap is skipped, and nothing behind it. -/
theorem Gap.skipBlanks {behind g : Text} (h : Gap behind g) (hbehind : Cursor.blankStep behind = 0)
    {c : Cursor} (hc : c.rest = g ++ behind) : c.skipBlanks = c.advance g.length := by
  have hstep : ∀ {c : Cursor} {t u : Text}, c.rest = t ++ u → Cursor.blankStep c.rest = t.length →
      t ≠ [] → c.skipBlanks = (c.advance t.length).skipBlanks ∧ (c.advance t.length).rest = u := by
    intro c t u hc hlength ht
    have hpos := List.length_pos_iff.mpr ht
    constructor
    · rw [Cursor.skipBlanks, hlength, if_neg (by omega)]
    · rw [Cursor.rest_advance, hc, List.drop_left]
  induction h generalizing c with
  | nil => exact Cursor.skipBlanks_eq_self (hc ▸ hbehind)
  | @blank x g hx h ih =>
    have hx : x ∈ Cursor.blanks := by rcases hx with rfl | rfl | rfl <;> decide
    obtain ⟨hskip, hrest⟩ := hstep (t := [x]) (u := g ++ behind) hc
      (hc ▸ Cursor.blankStep_of_mem_blanks hx _) (List.cons_ne_nil x [])
    rw [hskip, ih hrest, Cursor.advance_advance, List.length_cons, Nat.add_comm]
    rfl
  | @escapedNewline g h ih =>
    obtain ⟨hskip, hrest⟩ := hstep (t := ['\\', '\n']) (u := g ++ behind) hc (hc ▸ rfl)
      (List.cons_ne_nil _ _)
    rw [hskip, ih hrest, Cursor.advance_advance, List.length_cons, List.length_cons, Nat.add_comm]
    rfl
  | @comment g hg hhead =>
    have htake : (g ++ behind).takeWhile (· != '\n') = g := by
      have hall : ∀ x ∈ g, (x != '\n') = true :=
        fun x hx => bne_iff_ne.mpr (ne_of_mem_of_not_mem hx hg)
      rw [List.takeWhile_append_of_pos hall]
      cases behind with
      | nil => exact List.append_nil g
      | cons y behind =>
        rw [List.takeWhile_cons_of_neg (by simpa using hhead y rfl), List.append_nil]
    have hlength : Cursor.blankStep c.rest = ('#' :: g).length := by
      rw [hc]
      show ((g ++ behind).takeWhile (· != '\n')).length + 1 = _
      rw [htake]
      rfl
    obtain ⟨hskip, hrest⟩ := hstep (t := '#' :: g) hc hlength (List.cons_ne_nil _ _)
    rw [hskip, Cursor.skipBlanks_eq_self (hrest ▸ hbehind)]

/-- Nothing is left behind the blanks if there is only a gap. -/
theorem Cursor.rest_skipBlanks_eq_nil_iff {c : Cursor} :
    c.skipBlanks.rest = [] ↔ Gap [] c.rest := by
  constructor
  · intro hnil
    obtain ⟨g, hg, hgap⟩ := c.exists_gap
    rw [hnil, List.append_nil] at hg
    exact hg ▸ hnil ▸ hgap
  · intro h
    rw [h.skipBlanks rfl (List.append_nil _).symm, Cursor.rest_advance, List.drop_length]

/-! ## Tokens in a text -/

/-- From the offset `n` on, the token is the next one of the text. -/
structure Token.Stands (text : Text) (n : Nat) (t : Token) : Prop where
  le_start : n ≤ t.start.offsetIn text
  gap : Gap (text.drop (t.start.offsetIn text)) (text.extract n (t.start.offsetIn text))
  start_le_stop : t.start.offsetIn text ≤ t.stop.offsetIn text
  text_eq : t.text = text.extract (t.start.offsetIn text) (t.stop.offsetIn text)
  start_eq : t.start = Position.start.after (text.take (t.start.offsetIn text))
  stop_eq : t.stop = Position.start.after (text.take (t.stop.offsetIn text))

/-- The tokens stand one behind the other, from the offset `n` to the end of the text. -/
inductive Tiling (text : Text) : Nat → List Token → Prop
  | last {n : Nat} {e : Token} (h : e.Stands text n) (heof : e.kind = .eof) (htext : e.text = [])
      (hend : e.start.offsetIn text = text.length) : Tiling text n [e]
  | cons {n : Nat} {t : Token} {ts : List Token} (h : t.Stands text n) (heof : t.kind ≠ .eof)
      (htext : t.text ≠ []) (hts : Tiling text (t.stop.offsetIn text) ts) : Tiling text n (t :: ts)

section

variable {limits : Limits} {text : Text} {c : Cursor} {s s' : Scanner} {t : Token}
  {ts : List Token} {n : Nat}

theorem Cursor.At.skipBlanks (h : c.At text) : c.skipBlanks.At text := by
  obtain ⟨n, hn⟩ := c.exists_advance_skipBlanks
  exact hn ▸ h.advance n

theorem Cursor.At.gap_skipBlanks (h : c.At text) :
    c.offset ≤ c.skipBlanks.offset ∧
      Gap (text.drop c.skipBlanks.offset) (text.extract c.offset c.skipBlanks.offset) := by
  obtain ⟨n, hn⟩ := c.exists_advance_skipBlanks
  obtain ⟨g, hg, hgap⟩ := c.exists_gap
  have htake : c.rest.take n = g := by
    have hrest : c.rest.take n ++ c.skipBlanks.rest = g ++ c.skipBlanks.rest := by
      rw [← hg, hn, Cursor.rest_advance, List.take_append_drop]
    exact List.append_cancel_right hrest
  rw [← h.skipBlanks.rest_eq, hn, h.extract_advance n, htake, ← hn]
  refine ⟨?_, hgap⟩
  rw [hn, Cursor.offset_advance]
  exact Nat.le_add_right _ _

/-- A token of the `n` characters behind the blanks. -/
theorem Token.Stands.of_advance (h : c.At text) (n : Nat)
    (htext : t.text = c.skipBlanks.rest.take n) (hstart : t.start = c.skipBlanks.position)
    (hstop : t.stop = (c.skipBlanks.advance n).position) : t.Stands text c.offset := by
  have hblanks := h.skipBlanks
  have hafter := hblanks.advance n
  obtain ⟨hle, hgap⟩ := h.gap_skipBlanks
  have hstart' : t.start.offsetIn text = c.skipBlanks.offset := hstart ▸ hblanks.offsetIn
  have hstop' : t.stop.offsetIn text = (c.skipBlanks.advance n).offset := hstop ▸ hafter.offsetIn
  constructor
  · rw [hstart']
    exact hle
  · rw [hstart']
    exact hgap
  · rw [hstart', hstop', Cursor.offset_advance]
    exact Nat.le_add_right _ _
  · rw [hstart', hstop', hblanks.extract_advance]
    exact htext
  · rw [hstart', hstart]
    exact hblanks.position_eq
  · rw [hstop', hstop]
    exact hafter.position_eq

/-- One token: it stands where the scanner was, and the scanner goes on from its end. -/
theorem Scanner.stands_next (hat : s.cursor.At text) (h : s.next limits = (.ok t, s')) :
    t.Stands text s.cursor.offset ∧ s'.cursor.At text ∧
      s'.cursor.offset = t.stop.offsetIn text ∧
      (t.kind = .eof ∧ t.text = [] ∧ t.start.offsetIn text = text.length ∨
        t.kind ≠ .eof ∧ t.text ≠ []) := by
  have hblanks := hat.skipBlanks
  rcases next_ok h with ⟨hrest, rfl, rfl⟩ | ⟨n, hpos, hne, rfl, heof, htext, hstart, hstop, -⟩
  · refine ⟨.of_advance hat 0 rfl rfl rfl, hblanks, hblanks.offsetIn.symm, .inl ⟨rfl, rfl, ?_⟩⟩
    show s.cursor.skipBlanks.position.offsetIn text = text.length
    rw [hblanks.offsetIn]
    rw [hblanks.rest_eq] at hrest
    exact Nat.le_antisymm hblanks.le (List.drop_eq_nil_iff.mp hrest)
  · have hafter := hblanks.advance n
    refine ⟨.of_advance hat n htext hstart hstop, hafter, ?_, .inr ⟨heof, ?_⟩⟩
    · rw [hstop]
      exact hafter.offsetIn.symm
    · rw [htext, Ne, List.take_eq_nil_iff, not_or]
      exact ⟨Nat.ne_of_gt hpos, hne⟩

/-- All tokens: the scanner stops at the end token, as there is a round for each one before it. -/
theorem Scanner.tiling_of_tokensUpTo (hat : s.cursor.At text) (hn : s.cursor.rest.length ≤ n)
    (h : s.tokensUpTo limits n = .ok ts) : Tiling text s.cursor.offset ts := by
  induction n generalizing s ts with
  | zero =>
    obtain ⟨t, ht, rfl⟩ := exceptMap_eq_ok (show (s.next limits).1.map ([·]) = .ok ts from h)
    have hnext : s.next limits = (.ok t, (s.next limits).2) := Prod.ext ht rfl
    obtain ⟨hstands, -, -, ⟨heof, htext, hend⟩ | ⟨heof, -⟩⟩ := stands_next hat hnext
    · exact .last hstands heof htext hend
    · have hlt := length_next_lt_of_ne_eof hnext heof
      omega
  | succ n ih =>
    rw [tokensUpTo] at h
    split at h
    · exact absurd h (by simp)
    · rename_i t s' hnext
      obtain ⟨hstands, hat', hoffset, hkind⟩ := stands_next hat hnext
      split at h
      · rename_i heof
        obtain ⟨-, htext, hend⟩ := hkind.resolve_right fun h => h.1 heof
        rw [← Except.ok.inj h]
        exact .last hstands heof htext hend
      · rename_i heof
        obtain ⟨-, htext⟩ := hkind.resolve_left fun h => heof h.1
        obtain ⟨us, hus, rfl⟩ := exceptMap_eq_ok h
        have hlt := length_next_lt_of_ne_eof hnext heof
        exact .cons hstands heof htext (hoffset ▸ ih hat' (by omega) hus)

end

/-! ## The partition -/

/-- The text in front of each token, from the offset `n` on. -/
def gaps (text : Text) : Nat → List Token → List Text
  | _, [] => []
  | n, t :: ts => text.extract n (t.start.offsetIn text) :: gaps text (t.stop.offsetIn text) ts

/-- The tokens and the gaps in front of them make up the text. -/
structure Partition (text : Text) (tokens : List Token) : Prop where
  /-- One end token, the last, which stands at the end. The others have a text. -/
  ends : ∃ ts e, tokens = ts ++ [e] ∧ e.kind = .eof ∧ e.text = [] ∧
    e.start.offsetIn text = text.length ∧ ∀ t ∈ ts, t.kind ≠ .eof ∧ t.text ≠ []
  ordered : (tokens.flatMap fun t => [t.start.offsetIn text, t.stop.offsetIn text]).Pairwise (· ≤ ·)
  /-- Lines and columns count the newlines and characters in front. -/
  located : ∀ t ∈ tokens, ∀ p ∈ [t.start, t.stop],
    p = Position.start.after (text.take (p.offsetIn text))
  sliced : ∀ t ∈ tokens, t.text = text.extract (t.start.offsetIn text) (t.stop.offsetIn text)
  separated : List.Forall₂ (fun t gap => Gap (text.drop (t.start.offsetIn text)) gap) tokens
    (gaps text 0 tokens)
  whole : (List.zipWith (· ++ ·) (gaps text 0 tokens) (tokens.map (·.text))).flatten = text

namespace Tiling

variable {text : Text} {n : Nat} {tokens : List Token}

theorem stands (h : Tiling text n tokens) : ∀ t ∈ tokens, ∃ m, t.Stands text m := by
  induction h with
  | last h => exact List.forall_mem_singleton.mpr ⟨_, h⟩
  | cons h _ _ _ ih => exact List.forall_mem_cons.mpr ⟨⟨_, h⟩, ih⟩

theorem ends (h : Tiling text n tokens) :
    ∃ ts e, tokens = ts ++ [e] ∧ e.kind = .eof ∧ e.text = [] ∧
      e.start.offsetIn text = text.length ∧ ∀ t ∈ ts, t.kind ≠ .eof ∧ t.text ≠ [] := by
  induction h with
  | last h heof htext hend => exact ⟨[], _, rfl, heof, htext, hend, by simp⟩
  | cons h heof htext _ ih =>
    obtain ⟨ts, e, rfl, hrest⟩ := ih
    obtain ⟨heof', htext', hend, hts⟩ := hrest
    exact ⟨_ :: ts, e, rfl, heof', htext', hend, List.forall_mem_cons.mpr ⟨⟨heof, htext⟩, hts⟩⟩

theorem ordered (h : Tiling text n tokens) :
    (n :: tokens.flatMap fun t => [t.start.offsetIn text, t.stop.offsetIn text]).IsChain
      (· ≤ ·) := by
  induction h with
  | last h => exact .cons_cons h.le_start (.cons_cons h.start_le_stop (.singleton _))
  | cons h _ _ _ ih => exact .cons_cons h.le_start (.cons_cons h.start_le_stop ih)

theorem separated (h : Tiling text n tokens) :
    List.Forall₂ (fun t gap => Gap (text.drop (t.start.offsetIn text)) gap) tokens
      (gaps text n tokens) := by
  induction h with
  | last h => exact .cons h.gap .nil
  | cons h _ _ _ ih => exact .cons h.gap ih

theorem whole (h : Tiling text n tokens) :
    (List.zipWith (· ++ ·) (gaps text n tokens) (tokens.map (·.text))).flatten = text.drop n := by
  induction h with
  | last h _ htext hend =>
    have hrest := extract_append_drop text h.le_start
    rw [hend, List.drop_length, ← htext] at hrest
    rw [gaps, gaps, List.map_singleton, List.zipWith_cons_cons, List.zipWith_nil_left, hend,
      List.flatten_singleton]
    exact hrest
  | cons h _ _ _ ih =>
    rw [gaps, List.map_cons, List.zipWith_cons_cons, List.flatten_cons, ih, h.text_eq,
      List.append_assoc, extract_append_drop text h.start_le_stop,
      extract_append_drop text h.le_start]

end Tiling

/-- Where tokenizing succeeds, every character of the text is in one token or in one gap. -/
theorem tokenize_partition {limits : Limits} {text : Text} {tokens : List Token}
    (h : tokenize limits text = .ok tokens) : Partition text tokens := by
  have htiling : Tiling text 0 tokens :=
    Scanner.tiling_of_tokensUpTo (s := .ofText text) (Cursor.at_ofText text) (Nat.le_refl _) h
  exact {
    ends := htiling.ends
    ordered := (List.pairwise_cons.mp (List.isChain_iff_pairwise.mp htiling.ordered)).2
    located := fun t ht => by
      obtain ⟨m, hstands⟩ := htiling.stands t ht
      simpa using ⟨hstands.start_eq, hstands.stop_eq⟩
    sliced := fun t ht => (htiling.stands t ht).choose_spec.text_eq
    separated := htiling.separated
    whole := htiling.whole }

/-- A comment, an escaped newline between tokens, a newline inside a token and a carriage return. -/
theorem partition_of_continued_lines : ∃ tokens,
    tokenize {} " A=1 # B\n\\\n\tB=$(a\nb) \r".toList = .ok tokens ∧
      tokens.map (·.text) = ["A=1".toList, ['\n'], "B=$(a\nb)".toList, []] ∧
      gaps " A=1 # B\n\\\n\tB=$(a\nb) \r".toList 0 tokens =
        [[' '], " # B".toList, "\\\n\t".toList, " \r".toList] ∧
      Partition " A=1 # B\n\\\n\tB=$(a\nb) \r".toList tokens := by
  have htokens : (tokenize {} " A=1 # B\n\\\n\tB=$(a\nb) \r".toList).map (fun tokens =>
      (tokens.map (·.text), gaps " A=1 # B\n\\\n\tB=$(a\nb) \r".toList 0 tokens)) =
        .ok (["A=1".toList, ['\n'], "B=$(a\nb)".toList, []],
          [[' '], " # B".toList, "\\\n\t".toList, " \r".toList]) := by decide +kernel
  obtain ⟨tokens, h, heq⟩ := exceptMap_eq_ok htokens
  obtain ⟨htexts, hgaps⟩ := Prod.mk.inj heq
  exact ⟨tokens, h, htexts, hgaps, tokenize_partition h⟩

/-! ## Words -/

/-- The text of a word is that of its parts in order, whatever their marks and however deep. -/
theorem tokenize_renders {limits : Limits} {text : Text} {tokens : List Token}
    (h : tokenize limits text = .ok tokens) {t : Token} (ht : t ∈ tokens) {w : Word}
    (hw : t.lexeme = .word w) : Word.Renders w t.text := by
  obtain ⟨s, hyields⟩ := Scanner.yields_of_tokensUpTo h
  obtain ⟨s₁, s₂, hnext⟩ := hyields.exists_next ht
  rcases Scanner.next_ok hnext with ⟨-, rfl, -⟩ | ⟨n, -, -, rfl, -, htext, -, -, hread⟩
  · exact absurd hw (by simp [Token.eof])
  · obtain ⟨m, hm, hrenders⟩ := readWord_renders (hread w hw) [] Assembly.renders_empty
    rw [htext, Cursor.take_of_advance_eq hm]
    exact hrenders

/-- A home directory, an escaped blank and an operand inside of a double quote. -/
theorem renders_of_nested_operand :
    tokenize {} "A=~b\\ \"$C$\x7b1/'x'?/\\\x7dy\x7d\"".toList = .ok
        [⟨.word [.literal "A=".toList, .tilde (some ['b']), .escaped [' '],
          .double [.parameter (.var ['C']), .substitution (.special ['1']) .replace
            [.single ['x'], .literal "?/".toList, .escaped ['}'], .literal ['y']]]],
          "A=~b\\ \"$C$\x7b1/'x'?/\\\x7dy\x7d\"".toList, ⟨1, 1⟩, ⟨1, 24⟩⟩, .eof ⟨1, 24⟩] ∧
      Word.Renders [.literal "A=".toList, .tilde (some ['b']), .escaped [' '],
          .double [.parameter (.var ['C']), .substitution (.special ['1']) .replace
            [.single ['x'], .literal "?/".toList, .escaped ['}'], .literal ['y']]]]
        "A=~b\\ \"$C$\x7b1/'x'?/\\\x7dy\x7d\"".toList := by
  have h : tokenize {} "A=~b\\ \"$C$\x7b1/'x'?/\\\x7dy\x7d\"".toList = .ok
      [⟨.word [.literal "A=".toList, .tilde (some ['b']), .escaped [' '],
        .double [.parameter (.var ['C']), .substitution (.special ['1']) .replace
          [.single ['x'], .literal "?/".toList, .escaped ['}'], .literal ['y']]]],
        "A=~b\\ \"$C$\x7b1/'x'?/\\\x7dy\x7d\"".toList, ⟨1, 1⟩, ⟨1, 24⟩⟩, .eof ⟨1, 24⟩] := by
    with_unfolding_all rfl
  exact ⟨h, tokenize_renders h List.mem_cons_self rfl⟩

end EnvScript
