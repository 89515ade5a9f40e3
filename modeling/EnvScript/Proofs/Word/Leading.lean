import EnvScript.Proofs.Word.Piece
import Mathlib.Data.List.Infix

/-!
# The literal at the start of a word

The literal part that a word begins with is written at the start of the word's text, character by
character. What a token's text begins with can therefore be told from its word.
-/

namespace EnvScript

namespace Cursor

theorem advance_advance (m n : Nat) (c : Cursor) : (c.advance m).advance n = c.advance (m + n) := by
  induction m generalizing c with
  | zero => rw [Nat.zero_add]; rfl
  | succ m ih =>
    rw [Nat.succ_add]
    obtain ⟨rest, offset, position⟩ := c
    cases rest with
    | nil => cases n <;> rfl
    | cons x t => exact ih ⟨t, offset + 1, position.next x⟩

end Cursor

namespace Draft

/-- The literal text of the draft has been read from the front of `src`, if no part is in front of
it, and so has the first of the parts, if it is a literal. -/
def LeadsBy (d : Draft) (src : Text) : Prop :=
  (d.parts = [] → d.text.reverse <+: src) ∧
    ∀ t, d.parts.getLast? = some (.literal t) → t <+: src

theorem LeadsBy.mono {d : Draft} {src : Text} (h : d.LeadsBy src) (more : Text) :
    d.LeadsBy (src ++ more) :=
  ⟨fun hp => (h.1 hp).trans (List.prefix_append _ _),
    fun t ht => (h.2 t ht).trans (List.prefix_append _ _)⟩

theorem LeadsBy.closed {d : Draft} {src : Text} (h : d.LeadsBy src) :
    ∀ t, d.closed.getLast? = some (.literal t) → t <+: src := by
  obtain ⟨parts, text⟩ := d
  intro t ht
  cases text with
  | nil => exact h.2 t ht
  | cons c text =>
    cases parts with
    | nil =>
      rw [← Part.literal.inj (Option.some.inj ht)]
      exact h.1 rfl
    | cons p parts =>
      refine h.2 t ?_
      rw [← ht]
      exact (List.getLast?_cons_cons).symm

theorem LeadsBy.addPart {d : Draft} {src : Text} (h : d.LeadsBy src) (p : Part)
    (hp : ∀ t, p ≠ .literal t) : (d.addPart p).LeadsBy src := by
  refine ⟨fun hnil => absurd hnil (by simp [Draft.addPart]), fun t ht => ?_⟩
  cases hclosed : d.closed with
  | nil =>
    rw [Draft.addPart, hclosed] at ht
    exact absurd (Option.some.inj ht) (hp t)
  | cons q parts =>
    refine h.closed t ?_
    rw [Draft.addPart, hclosed] at ht
    rw [hclosed, ← ht]
    exact (List.getLast?_cons_cons).symm

end Draft

namespace Assembly

/-- The draft of the word itself, outside of all constructs that are still open. -/
def outermost (a : Assembly) : Draft :=
  match a.stack.getLast? with
  | none => a.draft
  | some s => s.outer

/-- The word in the making leads by the text `src` it was read from. -/
def LeadsBy (a : Assembly) (src : Text) : Prop :=
  a.outermost.LeadsBy src ∧
    (a.stack = [] → a.draft.parts = [] → a.draft.text.reverse = src)

end Assembly

theorem close_ne_literal (o : Opening) (parts : List Part) (t : Text) :
    o.close parts ≠ .literal t := by
  cases o with
  | quote => simp [Opening.close]
  | operand p op => cases parts <;> simp [Opening.close]
  | ignored p operator => simp [Opening.close]

/-! ## Reading on -/

theorem Assembly.outermost_cons (draft : Draft) (s : Suspended) (stack : List Suspended) :
    (Assembly.mk draft (s :: stack)).outermost = (Assembly.mk s.outer stack).outermost := by
  cases stack with
  | nil => rfl
  | cons s' stack =>
    unfold Assembly.outermost
    rw [List.getLast?_cons_cons]
    cases hlast : (s' :: stack).getLast? with
    | none => exact absurd hlast (by simp)
    | some t => rfl

/-- One piece more keeps the leading text at the front of what has been read. -/
theorem Assembly.LeadsBy.add {a : Assembly} {src : Text} (h : a.LeadsBy src) {x : Char} {n : Nat}
    {piece : Piece} (hfits : piece.Fits a.place x n) (p : Position) (more : Text)
    (hmore : more.length ≤ n) : (a.add p piece).LeadsBy (src ++ x :: more) := by
  obtain ⟨draft, stack⟩ := a
  obtain ⟨hout, hopen⟩ := h
  cases piece with
  | plain c =>
    obtain ⟨rfl, rfl⟩ := hfits
    obtain rfl : more = [] := List.length_eq_zero_iff.mp (Nat.le_zero.mp hmore)
    cases stack with
    | nil =>
      -- the only case in which the leading text grows
      have hgrow : draft.parts = [] → (c :: draft.text).reverse = src ++ [c] := by
        intro hparts
        rw [List.reverse_cons, hopen rfl hparts]
      exact ⟨⟨fun hparts => hgrow hparts ▸ List.prefix_refl _,
        fun t ht => (hout.2 t ht).trans (List.prefix_append _ _)⟩, fun _ => hgrow⟩
    | cons s stack =>
      refine ⟨?_, fun hnil => absurd hnil (by simp [Assembly.add])⟩
      show (Assembly.mk (draft.addText c) (s :: stack)).outermost.LeadsBy _
      rw [Assembly.outermost_cons] at hout ⊢
      exact hout.mono _
  | part part =>
    cases stack with
    | nil =>
      refine ⟨(hout.mono _).addPart part hfits, fun _ hnil => ?_⟩
      exact absurd hnil (by simp [Assembly.add, Draft.addPart])
    | cons s stack =>
      refine ⟨?_, fun hnil => absurd hnil (by simp [Assembly.add])⟩
      show (Assembly.mk (draft.addPart part) (s :: stack)).outermost.LeadsBy _
      rw [Assembly.outermost_cons] at hout ⊢
      exact hout.mono _
  | opens o =>
    refine ⟨?_, fun hnil => absurd hnil (by simp [Assembly.add])⟩
    show (Assembly.mk {} (⟨o, p, draft⟩ :: stack)).outermost.LeadsBy _
    rw [Assembly.outermost_cons]
    exact hout.mono _
  | closes =>
    cases stack with
    | nil => exact absurd rfl hfits
    | cons s stack =>
      rw [Assembly.outermost_cons] at hout
      cases stack with
      | nil =>
        refine ⟨(hout.mono _).addPart _ (close_ne_literal _ _), fun _ hnil => ?_⟩
        exact absurd hnil (by simp [Assembly.add, Draft.addPart])
      | cons s' stack =>
        refine ⟨?_, fun hnil => absurd hnil (by simp [Assembly.add])⟩
        show (Assembly.mk (s.outer.addPart _) (s' :: stack)).outermost.LeadsBy _
        rw [Assembly.outermost_cons] at hout ⊢
        exact hout.mono _

theorem leads_word {d : Draft} {src t : Text} {parts : List Part} (h : d.LeadsBy src)
    (hw : d.word = .literal t :: parts) : t <+: src := by
  refine h.closed t ?_
  rw [← List.head?_reverse]
  show d.word.head? = _
  rw [hw]
  rfl

/-- What reading on from `a` comes to: the cursor moves on over the text of the word, at whose front
the leading literal stands, and it does move where no break stands in its way. -/
theorem readWord_leads {limit : Int} {base : Nat} {a : Assembly} {c after : Cursor} {w : Word}
    (h : readWord limit base a c = .ok (w, after)) (src : Text) (ha : a.LeadsBy src) :
    ∃ n, after = c.advance n ∧
      (∀ t parts, w = .literal t :: parts → t <+: src ++ c.rest.take n) ∧
      ∀ x t, c.rest = x :: t → isBreak x = false → 0 < n := by
  fun_induction readWord limit base a c generalizing src with
  | case1 a c hrest hstack =>
    obtain ⟨rfl, rfl⟩ := Prod.mk.inj (Except.ok.inj h)
    have hdraft : a.outermost = a.draft := by rw [Assembly.outermost, hstack]; rfl
    refine ⟨0, rfl, fun t parts hw => ?_, fun x t hxt => ?_⟩
    · rw [List.take_zero, List.append_nil]
      exact leads_word (hdraft ▸ ha.1) hw
    · rw [hrest] at hxt
      exact absurd hxt (by simp)
  | case2 => exact absurd h (by simp)
  | case3 a c x t hrest hbreak =>
    obtain ⟨rfl, rfl⟩ := Prod.mk.inj (Except.ok.inj h)
    -- The word ends in front of a break, the one case in which nothing may have been taken.
    obtain ⟨hstack, hx⟩ := Bool.and_eq_true_iff.mp hbreak
    have hdraft : a.outermost = a.draft := by
      rw [Assembly.outermost, List.isEmpty_iff.mp hstack]
      rfl
    refine ⟨0, rfl, fun t parts hw => ?_, fun y u hyu hy => ?_⟩
    · rw [List.take_zero, List.append_nil]
      exact leads_word (hdraft ▸ ha.1) hw
    · rw [hrest] at hyu
      rw [← (List.cons.inj hyu).1, hx] at hy
      exact absurd hy (by decide)
  | case4 => exact absurd h (by simp)
  | case5 a c depth x t hrest hbreak deeper hdeep piece n hpiece ih =>
    -- The piece carries the invariant on, with its text behind what has been read before.
    have hadd := ha.add (fits_readPiece hpiece) c.position (t.take n) (List.length_take_le n t)
    obtain ⟨m, hafter, hleads, -⟩ := ih h _ hadd
    refine ⟨n + 1 + m, by rw [hafter, Cursor.advance_advance], fun u parts hw => ?_,
      fun _ _ _ _ => by omega⟩
    have htake : c.rest.take (n + 1 + m) =
        x :: t.take n ++ ((c.advance (n + 1)).rest.take m) := by
      rw [Cursor.rest_advance, List.take_add, hrest, List.take_succ_cons]
    rw [htake, ← List.append_assoc]
    exact hleads u parts hw
  | case6 => exact absurd h (by simp)

/-- A word that is read from the start: where the cursor comes to, and what its text begins with. -/
theorem readWord_ok {limit : Int} {base : Nat} {c after : Cursor} {w : Word}
    (h : readWord limit base {} c = .ok (w, after)) :
    ∃ n, after = c.advance n ∧ (∀ t parts, w = .literal t :: parts → t <+: c.rest.take n) ∧
      ∀ x t, c.rest = x :: t → isBreak x = false → 0 < n := by
  refine readWord_leads h [] ⟨⟨fun _ => List.prefix_refl _, fun t ht => ?_⟩, fun _ _ => rfl⟩
  exact absurd ht (by simp [Assembly.outermost])

end EnvScript
