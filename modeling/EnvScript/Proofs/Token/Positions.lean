import EnvScript.Proofs.Token.Partition

/-!
# Positions that the scanner reports

Every position in a token or in an error of the scanner is that of an offset of the text, and none
lies before the place where the scanner began.
-/

namespace EnvScript

variable {limits : Limits} {text : Text} {m n : Nat} {p : Position} {c : Cursor}
  {s s' : Scanner} {t : Token} {ts : List Token} {e : SyntaxError}

/-- The position of an offset of the text, `n` or more. -/
def Position.From (text : Text) (n : Nat) (p : Position) : Prop :=
  ∃ k, n ≤ k ∧ k ≤ text.length ∧ p = Position.start.after (text.take k)

theorem Position.From.mono (h : p.From text n) (hm : m ≤ n) : p.From text m := by
  obtain ⟨k, hk, hle, heq⟩ := h
  exact ⟨k, Nat.le_trans hm hk, hle, heq⟩

/-- The offset is the one that the position has in the text. -/
theorem Position.From.offsetIn (h : p.From text n) :
    n ≤ p.offsetIn text ∧ p.offsetIn text ≤ text.length ∧
      p = Position.start.after (text.take (p.offsetIn text)) := by
  obtain ⟨k, hk, hle, rfl⟩ := h
  have hoffset := offsetIn_after (text.take k) (text.drop k)
  rw [List.take_append_drop, List.length_take, Nat.min_eq_left hle] at hoffset
  rw [hoffset]
  exact ⟨hk, hle, rfl⟩

theorem Position.from_start (text : Text) : Position.start.From text 0 :=
  ⟨0, Nat.le_refl 0, Nat.zero_le _, rfl⟩

namespace Cursor

theorem At.from_position (h : c.At text) (hn : n ≤ c.offset) : c.position.From text n :=
  ⟨c.offset, hn, h.le, h.position_eq⟩

theorem offset_le_advance (c : Cursor) (k : Nat) : c.offset ≤ (c.advance k).offset := by
  rw [offset_advance]
  exact Nat.le_add_right _ _

theorem offset_le_skipBlanks (c : Cursor) : c.offset ≤ c.skipBlanks.offset := by
  obtain ⟨k, hk⟩ := c.exists_advance_skipBlanks
  exact hk ▸ c.offset_le_advance k

end Cursor

/-! ## Words -/

/-- The constructs that are open after a piece began where the piece does, or were open before. -/
theorem Assembly.mem_stack_add {a : Assembly} {piece : Piece} {o : Suspended}
    (h : o ∈ (a.add p piece).stack) : o.start = p ∨ o ∈ a.stack := by
  obtain ⟨draft, stack⟩ := a
  cases piece with
  | plain x => exact .inr h
  | part q => exact .inr h
  | opens opening =>
    rcases List.mem_cons.mp h with rfl | h
    · exact .inl rfl
    · exact .inr h
  | closes =>
    cases stack with
    | nil => exact .inr h
    | cons o' stack => exact .inr (List.mem_cons_of_mem o' h)

theorem Halt.from_ofFlaw (hat : c.At text) (hn : n ≤ c.offset) (depth : Nat) (flaw : Flaw) :
    (Halt.ofFlaw c depth flaw).error.position.From text n := by
  cases flaw with
  | unclosed construct => exact hat.from_position hn
  | misplaced fault taken =>
    exact (hat.advance _).from_position (Nat.le_trans hn (c.offset_le_advance _))

/-- A word that cannot be read is reported where the cursor has come to, or where a construct that
is still open began. -/
theorem readWord_from {limit : Int} {base : Nat} {a : Assembly} {halt : Halt}
    (h : readWord limit base a c = .error halt) (hat : c.At text) (hn : n ≤ c.offset)
    (hstack : ∀ o ∈ a.stack, o.start.From text n) : halt.error.position.From text n := by
  fun_induction readWord limit base a c with
  | case1 => exact absurd h (by simp)
  | case2 a c depth hrest o stack hopen =>
    obtain rfl := Except.error.inj h
    exact hstack o (hopen ▸ List.mem_cons_self)
  | case3 => exact absurd h (by simp)
  | case4 a c depth x t hrest hbreak deeper hdeep =>
    obtain rfl := Except.error.inj h
    exact hat.from_position hn
  | case5 a c depth x t hrest hbreak deeper hdeep piece k hpiece ih =>
    refine ih h (hat.advance _) (Nat.le_trans hn (c.offset_le_advance _)) fun o ho => ?_
    rcases Assembly.mem_stack_add ho with hstart | ho
    · exact hstart ▸ hat.from_position hn
    · exact hstack o ho
  | case6 a c depth x t hrest hbreak deeper hdeep flaw hpiece =>
    obtain rfl := Except.error.inj h
    exact Halt.from_ofFlaw hat hn _ flaw

/-! ## Tokens -/

namespace Scanner

/-- The scanner has come to the offset `n` of the text or beyond it, and not beyond the start of a
text that is too large. -/
structure From (limits : Limits) (text : Text) (n : Nat) (s : Scanner) : Prop where
  cursor : s.cursor.At text
  le : n ≤ s.cursor.offset
  size : s.cursor.offset = 0 ∨ s.size ≤ limits.inputSize

theorem from_ofText (limits : Limits) (text : Text) : (ofText text).From limits text 0 :=
  ⟨Cursor.at_ofText text, Nat.le_refl 0, .inl rfl⟩

theorem readToken_size (limits : Limits) (s : Scanner) :
    (s.readToken limits).2.size = s.size := by
  unfold readToken
  dsimp only
  split
  · rfl
  · split <;> rfl

/-- Tokens are handed out only where the size of the text is allowed. -/
theorem size_next (h : s.next limits = (.ok t, s')) :
    s'.size = s.size ∧ s.size ≤ limits.inputSize := by
  rw [next] at h
  split at h
  · exact absurd (congrArg Prod.fst h) (by simp)
  · rename_i hsize
    refine ⟨?_, Int.not_lt.mp hsize⟩
    dsimp only at h
    split at h
    · rw [← (Prod.mk.inj h).2]
    · split at h
      · exact absurd (congrArg Prod.fst h) (by simp)
      · exact (congrArg (fun r => size r.2) h).symm.trans (readToken_size limits _)

theorem From.next_ok (hs : s.From limits text n) (h : s.next limits = (.ok t, s')) :
    t.start.From text n ∧ t.stop.From text n ∧ s'.From limits text n := by
  obtain ⟨hat, hle, -⟩ := hs
  obtain ⟨hstands, hat', hoffset, -⟩ := stands_next hat h
  obtain ⟨hsize, hinput⟩ := size_next h
  have hstop : t.stop.offsetIn text ≤ text.length := hoffset ▸ hat'.le
  have hstart := Nat.le_trans hle hstands.le_start
  have hlength := Nat.le_trans hstart hstands.start_le_stop
  refine ⟨⟨_, hstart, Nat.le_trans hstands.start_le_stop hstop, hstands.start_eq⟩,
    ⟨_, hlength, hstop, hstands.stop_eq⟩, hat', hoffset ▸ hlength, .inr (hsize ▸ hinput)⟩

theorem From.next_error (hs : s.From limits text n) (h : s.next limits = (.error e, s')) :
    e.position.From text n := by
  obtain ⟨hat, hle, hsize⟩ := hs
  rw [next] at h
  split at h
  · rename_i hlarge
    -- Only the first call can find out that the text is too large.
    obtain rfl := Except.error.inj (congrArg Prod.fst h)
    have hzero : n = 0 := by
      have := hsize.resolve_right (Int.not_le.mpr hlarge)
      omega
    exact hzero ▸ Position.from_start text
  · have hblanks := hat.skipBlanks
    have hle' := Nat.le_trans hle s.cursor.offset_le_skipBlanks
    dsimp only at h
    split at h
    · exact absurd (congrArg Prod.fst h) (by simp)
    · split at h
      · obtain rfl := Except.error.inj (congrArg Prod.fst h)
        exact hblanks.from_position hle'
      · unfold readToken at h
        dsimp only at h
        split at h
        · exact absurd (congrArg Prod.fst h) (by simp)
        · split at h
          · exact absurd (congrArg Prod.fst h) (by simp)
          · rename_i hword
            obtain rfl := Except.error.inj (congrArg Prod.fst h)
            exact readWord_from hword hblanks hle' (by simp)

/-! ## Tokens in a row -/

theorem Yields.of_append {us : List Token} {s'' : Scanner} (h : Yields limits s (ts ++ us) s'') :
    ∃ s', Yields limits s ts s' ∧ Yields limits s' us s'' := by
  induction ts generalizing s with
  | nil => exact ⟨s, .nil s, h⟩
  | cons t ts ih =>
    cases h with
    | cons hnext hrest =>
      obtain ⟨s', hts, hus⟩ := ih hrest
      exact ⟨s', .cons hnext hts, hus⟩

theorem From.yields (hs : s.From limits text n) (h : Yields limits s ts s') :
    s'.From limits text n ∧ ∀ t ∈ ts, t.start.From text n ∧ t.stop.From text n := by
  induction h with
  | nil => exact ⟨hs, by simp⟩
  | cons hnext _ ih =>
    obtain ⟨hstart, hstop, hs₁⟩ := hs.next_ok hnext
    obtain ⟨hs', hts⟩ := ih hs₁
    exact ⟨hs', List.forall_mem_cons.mpr ⟨⟨hstart, hstop⟩, hts⟩⟩

end Scanner

end EnvScript
