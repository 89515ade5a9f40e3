import EnvScript.Word.Reader

/-!
# What a piece is read from

A plain piece is the character it is read from, a part that is read as one piece is never a literal,
and nothing is closed outside of quotes and operands. `Piece.Fits` says so, and every reader keeps
to it.
-/

namespace EnvScript

/-- What a piece may be that begins with `x` and takes `n` characters behind it. -/
def Piece.Fits (place : Place) (x : Char) (n : Nat) : Piece → Prop
  | .plain c => c = x ∧ n = 0
  | .part p => ∀ t, p ≠ .literal t
  | .opens _ => True
  | .closes => place ≠ .word

/-- A piece that may stand at every place: a parameter, an expansion of one, or what a shell would
compute. -/
def Piece.IsCommon : Piece → Prop
  | .part (.parameter _) | .part (.command ..) | .part (.arithmetic _) => True
  | .opens o => o ≠ .quote
  | _ => False

/-- The reading gives a common piece, if any. -/
def Reading.IsCommon (r : Reading) : Prop := ∀ piece n, r = .ok (piece, n) → piece.IsCommon

theorem isCommon_taking {piece : Piece} (h : piece.IsCommon) (n : Nat) :
    (Reading.taking n piece).IsCommon := by
  intro piece' m hr
  exact (Prod.mk.inj (Except.ok.inj hr)).1 ▸ h

theorem isCommon_error (flaw : Flaw) : Reading.IsCommon (.error flaw) :=
  fun _ _ h => absurd h (by simp)

theorem Reading.IsCommon.shift {r : Reading} (h : r.IsCommon) (k : Nat) : (r.shift k).IsCommon := by
  intro piece n hr
  match r, h with
  | .ok (p, m), h =>
    have hp : p = piece := (Prod.mk.inj (Except.ok.inj hr)).1
    exact hp ▸ h p m rfl
  | .error (.misplaced fault m), _ => exact absurd hr (by simp [Reading.shift])
  | .error (.unclosed c), _ => exact absurd hr (by simp [Reading.shift])

theorem isCommon_readOperator (p : Parameter) (t : Text) : (readOperator p t).IsCommon := by
  have hoperand : ∀ op, (Piece.opens (.operand p op)).IsCommon := fun op => by
    simp [Piece.IsCommon]
  have hignored : ∀ operator, (Piece.opens (.ignored p operator)).IsCommon := fun operator => by
    simp [Piece.IsCommon]
  unfold readOperator
  split
  · exact isCommon_error _
  · exact isCommon_taking (by trivial) 1
  · exact isCommon_taking (hoperand _) 2
  · exact isCommon_taking (hoperand _) 1
  · split
    · exact isCommon_taking (hignored _) 2
    · exact isCommon_taking (hoperand _) 1
  · exact isCommon_taking (hoperand _) 1
  · split
    · exact isCommon_taking (hignored _) 2
    · split
      · exact isCommon_taking (hignored _) 1
      · exact isCommon_error _

theorem isCommon_readBraced (t : Text) : (readBraced t).IsCommon := by
  unfold readBraced
  split
  · exact isCommon_error _
  · split
    · split
      · exact isCommon_taking (by simp [Piece.IsCommon]) _
      · exact Reading.IsCommon.shift (isCommon_error _) 1
    · split
      · exact (isCommon_readOperator _ _).shift _
      · exact isCommon_error _

/-- A `$` that introduces nothing is a plain character. -/
theorem isCommon_readDollar {t : Text} {piece : Piece} {n : Nat}
    (h : readDollar t = .ok (piece, n)) : piece.IsCommon ∨ piece = .plain '$' ∧ n = 0 := by
  have hplain : Reading.taking 0 (.plain '$') = .ok (piece, n) →
      piece.IsCommon ∨ piece = .plain '$' ∧ n = 0 := by
    intro h
    obtain ⟨rfl, rfl⟩ := Prod.mk.inj (Except.ok.inj h)
    exact .inr ⟨rfl, rfl⟩
  unfold readDollar at h
  split at h
  · exact .inl ((isCommon_readBraced _).shift 1 _ _ h)
  · split at h
    · exact .inl (isCommon_taking (by trivial) _ _ _ h)
    · exact absurd h (by simp)
  · split at h
    · exact .inl (isCommon_taking (by trivial) _ _ _ h)
    · exact absurd h (by simp)
  · split at h
    · exact .inl (isCommon_taking (by trivial) _ _ _ h)
    · split at h
      · exact .inl (isCommon_taking (by trivial) _ _ _ h)
      · exact hplain h
    · exact hplain h

theorem isCommon_readBackquote (t : Text) : (readBackquote t).IsCommon := by
  unfold readBackquote
  split
  · exact isCommon_taking (by trivial) _
  · exact isCommon_error _

section

variable {place : Place} {x : Char} {t : Text} {piece : Piece} {n : Nat}

theorem Piece.IsCommon.fits (h : piece.IsCommon) : piece.Fits place x n := by
  unfold IsCommon at h
  split at h
  case h_5 => exact h.elim
  case h_4 => trivial
  all_goals
    intro t
    simp

theorem fits_of_part (p : Part) (hp : ∀ t, p ≠ .literal t) (m : Nat)
    (h : Reading.taking m (.part p) = .ok (piece, n)) : piece.Fits place x n := by
  obtain ⟨rfl, -⟩ := Prod.mk.inj (Except.ok.inj h)
  exact hp

theorem fits_of_plain (h : Reading.taking 0 (.plain x) = .ok (piece, n)) :
    piece.Fits place x n := by
  obtain ⟨rfl, rfl⟩ := Prod.mk.inj (Except.ok.inj h)
  exact ⟨rfl, rfl⟩

theorem fits_readDollar (h : readDollar t = .ok (piece, n)) : piece.Fits place '$' n := by
  rcases isCommon_readDollar h with hcommon | ⟨rfl, rfl⟩
  · exact hcommon.fits
  · exact ⟨rfl, rfl⟩

theorem fits_readQuoted (h : readQuoted x t = .ok (piece, n)) : piece.Fits .quote x n := by
  unfold readQuoted at h
  split at h
  · obtain ⟨rfl, -⟩ := Prod.mk.inj (Except.ok.inj h)
    exact fun hplace => Place.noConfusion hplace
  · split at h
    next hx =>
      subst hx
      split at h
      · split at h
        · exact fits_of_part _ (by simp) _ h
        · exact fits_of_plain h
      · exact fits_of_plain h
    next => exact fits_of_plain h

theorem fits_readUnquoted (h : readUnquoted x t = .ok (piece, n)) : piece.Fits place x n := by
  unfold readUnquoted at h
  split at h
  next hx =>
    subst hx
    split at h
    · exact fits_of_part _ (by simp) _ h
    · exact fits_of_plain h
  next =>
    split at h
    · unfold readSingle at h
      dsimp only at h
      split at h
      · exact fits_of_part _ (by simp) _ h
      · exact absurd h (by simp)
    · split at h
      · obtain ⟨rfl, -⟩ := Prod.mk.inj (Except.ok.inj h)
        trivial
      · exact fits_of_plain h

theorem fits_readPiece {tilde : Bool} (h : readPiece place tilde x t = .ok (piece, n)) :
    piece.Fits place x n := by
  unfold readPiece at h
  split at h
  next hx => exact hx ▸ fits_readDollar h
  next =>
    split at h
    · exact (isCommon_readBackquote t _ _ h).fits
    · split at h
      · exact fits_readQuoted h
      · split at h
        · obtain ⟨rfl, -⟩ := Prod.mk.inj (Except.ok.inj h)
          exact fun hplace => Place.noConfusion hplace
        · exact fits_readUnquoted h
      · split at h
        · exact fits_of_part _ (by simp) _ h
        · split at h
          · exact fits_of_part _ (by simp) _ h
          · split at h
            · exact fits_of_part _ (by simp) _ h
            · exact fits_readUnquoted h

end

end EnvScript
