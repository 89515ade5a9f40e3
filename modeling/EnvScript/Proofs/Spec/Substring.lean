import EnvScript.Proofs.Expansion.Errors
import EnvScript.Proofs.Spec.Active
import Mathlib.Data.List.DropRight
import Mathlib.Data.Nat.Digits.Defs

/-!
# Substring specs

A spec is an offset, or an offset and a length, each of them an integer in decimal digits. What it
gives of a text depends on these integers alone and not on how they are written (`Slicing` says how
the slices fit together), and any other spec is refused.
-/

namespace EnvScript

/-! ## Integers in writing -/

/-- Decimal digits, any zeros in front, for a natural number. -/
def DigitsOf (digits : Text) (n : Nat) : Prop :=
  digits ≠ [] ∧ (∀ c ∈ digits, c.isDigit = true) ∧
    Nat.ofDigits 10 (digits.reverse.map Numeral.digitValue) = n

/-- The ways to write an integer with a sign or without one. -/
inductive WritesPlainly : Text → Int → Prop
  | bare {digits : Text} {n : Nat} (h : DigitsOf digits n) : WritesPlainly digits n
  | plus {digits : Text} {n : Nat} (h : DigitsOf digits n) : WritesPlainly ('+' :: digits) n
  | minus {digits : Text} {n : Nat} (h : DigitsOf digits n) : WritesPlainly ('-' :: digits) (-n)

/-- The text is a writing of the integer, with any blank space around it. -/
def Writes (t : Text) (k : Int) : Prop :=
  ∃ before numeral after, t = before ++ numeral ++ after ∧ WritesPlainly numeral k ∧
    (∀ c ∈ before, isBlank c = true) ∧ ∀ c ∈ after, isBlank c = true

section

variable {t numeral digits : Text} {k : Int} {n : Nat} {c : Char}

theorem toNat_of_isDigit (h : c.isDigit = true) : 48 ≤ c.toNat ∧ c.toNat ≤ 57 := by
  simp only [Char.isDigit, Bool.and_eq_true, decide_eq_true_eq, ge_iff_le, UInt32.le_iff_toNat_le]
    at h
  exact h

theorem isBlank_of_isDigit (h : c.isDigit = true) : isBlank c = false := by
  have hc := toNat_of_isDigit h
  simp only [isBlank, Bool.or_eq_false_iff, Bool.and_eq_false_iff, decide_eq_false_iff_not,
    beq_eq_false_iff_ne]
  omega

theorem Numeral.magnitude_eq (digits : Text) :
    magnitude digits = Nat.ofDigits 10 (digits.reverse.map digitValue) := by
  rw [Nat.ofDigits_eq_foldr, magnitude, List.foldr_map, ← List.foldl_eq_foldr_reverse]
  congr
  funext n c
  exact Nat.add_comm _ _

theorem ofDigits?_eq_some_iff {negative : Bool} {m : Numeral} :
    Numeral.ofDigits? negative digits = some m ↔
      m = ⟨negative, digits⟩ ∧ DigitsOf digits (Numeral.magnitude digits) := by
  unfold Numeral.ofDigits? DigitsOf
  rw [Option.ite_none_left_eq_some, ← Numeral.magnitude_eq]
  simp only [Bool.or_eq_true, List.isEmpty_iff, Bool.not_eq_true', not_or, Bool.not_eq_false,
    List.all_eq_true, Option.some.injEq, and_true]
  exact ⟨fun h => ⟨h.2.symm, h.1⟩, fun h => ⟨h.2, h.1.symm⟩⟩

theorem DigitsOf.magnitude_eq (h : DigitsOf digits n) : Numeral.magnitude digits = n :=
  (Numeral.magnitude_eq digits).trans h.2.2

/-- The integer that a numeral stands for, however many its digits are. -/
def Numeral.integer (m : Numeral) : Int :=
  if m.negative then -(magnitude m.digits : Int) else magnitude m.digits

theorem writesPlainly_iff :
    WritesPlainly t k ↔ ∃ m, Numeral.ofText? t = some m ∧ m.integer = k := by
  constructor
  · intro h
    have hplain : ∀ {negative : Bool} {digits : Text} {n : Nat}, DigitsOf digits n →
        Numeral.ofDigits? negative digits = some ⟨negative, digits⟩ := fun h =>
      ofDigits?_eq_some_iff.mpr ⟨rfl, h.magnitude_eq.symm ▸ h⟩
    cases h with
    | @bare _ n h =>
      refine ⟨⟨false, t⟩, ?_, congrArg Nat.cast h.magnitude_eq⟩
      -- A digit is no sign.
      unfold Numeral.ofText?
      split
      · exact absurd (h.2.1 '+' List.mem_cons_self) (by decide)
      · exact absurd (h.2.1 '-' List.mem_cons_self) (by decide)
      · exact hplain h
    | plus h => exact ⟨⟨false, _⟩, hplain h, congrArg Nat.cast h.magnitude_eq⟩
    | minus h =>
      exact ⟨⟨true, _⟩, hplain h, congrArg (fun n : Nat => -(n : Int)) h.magnitude_eq⟩
  · rintro ⟨m, hm, rfl⟩
    unfold Numeral.ofText? at hm
    split at hm
    · obtain ⟨rfl, h⟩ := ofDigits?_eq_some_iff.mp hm
      exact .plus h
    · obtain ⟨rfl, h⟩ := ofDigits?_eq_some_iff.mp hm
      exact .minus h
    · obtain ⟨rfl, h⟩ := ofDigits?_eq_some_iff.mp hm
      exact .bare h

/-! ## Blank space around an integer -/

theorem dropWhile_blanks {before : Text} (hbefore : ∀ c ∈ before, isBlank c = true)
    (hne : numeral ≠ []) (hnumeral : ∀ c ∈ numeral, isBlank c = false) (rest : Text) :
    (before ++ (numeral ++ rest)).dropWhile isBlank = numeral ++ rest := by
  rw [List.dropWhile_append_of_pos hbefore]
  obtain ⟨c, cs, rfl⟩ := List.exists_cons_of_ne_nil hne
  refine List.dropWhile_cons_of_neg ?_
  rw [hnumeral c List.mem_cons_self]
  exact Bool.false_ne_true

theorem trim_append {before after : Text} (hbefore : ∀ c ∈ before, isBlank c = true)
    (hafter : ∀ c ∈ after, isBlank c = true) (hne : numeral ≠ [])
    (hnumeral : ∀ c ∈ numeral, isBlank c = false) :
    trim (before ++ numeral ++ after) = numeral := by
  -- From the other end the blanks behind stand in front.
  have hreverse : (after.reverse ++ numeral.reverse).dropWhile isBlank = numeral.reverse := by
    have hdrop := dropWhile_blanks (fun c hc => hafter c (List.mem_reverse.mp hc))
      (mt List.reverse_eq_nil_iff.mp hne) (fun c hc => hnumeral c (List.mem_reverse.mp hc)) []
    rwa [List.append_nil] at hdrop
  rw [trim, List.append_assoc, dropWhile_blanks hbefore hne hnumeral, List.reverse_append, hreverse,
    List.reverse_reverse]

theorem exists_append_trim (t : Text) : ∃ before after, t = before ++ trim t ++ after ∧
    (∀ c ∈ before, isBlank c = true) ∧ ∀ c ∈ after, isBlank c = true := by
  have hrest := List.takeWhile_append_dropWhile (p := isBlank) (l := (t.dropWhile isBlank).reverse)
  refine ⟨t.takeWhile isBlank, ((t.dropWhile isBlank).reverse.takeWhile isBlank).reverse, ?_,
    fun c => List.mem_takeWhile_imp, fun c hc => List.mem_takeWhile_imp (List.mem_reverse.mp hc)⟩
  rw [trim, List.append_assoc, ← List.reverse_append, hrest, List.reverse_reverse,
    List.takeWhile_append_dropWhile]

theorem WritesPlainly.not_blank (h : WritesPlainly numeral k) :
    numeral ≠ [] ∧ ∀ c ∈ numeral, isBlank c = false := by
  have hdigits : ∀ {digits : Text} {n : Nat}, DigitsOf digits n →
      ∀ c ∈ digits, isBlank c = false := fun h c hc => isBlank_of_isDigit (h.2.1 c hc)
  cases h with
  | bare h => exact ⟨h.1, hdigits h⟩
  | plus h => exact ⟨List.cons_ne_nil _ _, List.forall_mem_cons.mpr ⟨by decide, hdigits h⟩⟩
  | minus h => exact ⟨List.cons_ne_nil _ _, List.forall_mem_cons.mpr ⟨by decide, hdigits h⟩⟩

theorem writes_iff : Writes t k ↔ WritesPlainly (trim t) k := by
  constructor
  · rintro ⟨before, numeral, after, rfl, h, hbefore, hafter⟩
    obtain ⟨hne, hnumeral⟩ := h.not_blank
    rwa [trim_append hbefore hafter hne hnumeral]
  · intro h
    obtain ⟨before, after, ht, hbefore, hafter⟩ := exists_append_trim t
    exact ⟨before, trim t, after, ht, h, hbefore, hafter⟩

/-- What stands beside the digits of an integer is blank space and a sign. -/
theorem Writes.chars (h : Writes t k) :
    ∀ c ∈ t, isBlank c = true ∨ c = '+' ∨ c = '-' ∨ c.isDigit = true := by
  obtain ⟨before, numeral, after, rfl, h, hbefore, hafter⟩ := h
  simp only [List.forall_mem_append]
  refine ⟨⟨fun c hc => .inl (hbefore c hc), ?_⟩, fun c hc => .inl (hafter c hc)⟩
  cases h with
  | bare h => exact fun c hc => .inr (.inr (.inr (h.2.1 c hc)))
  | plus h =>
    exact List.forall_mem_cons.mpr ⟨.inr (.inl rfl), fun c hc => .inr (.inr (.inr (h.2.1 c hc)))⟩
  | minus h =>
    exact List.forall_mem_cons.mpr
      ⟨.inr (.inr (.inl rfl)), fun c hc => .inr (.inr (.inr (h.2.1 c hc)))⟩

/-- The digits are all in the numeral. -/
theorem length_digits_le {m : Numeral} (hm : Numeral.ofText? (trim t) = some m) :
    m.digits.length ≤ t.countP Char.isDigit := by
  obtain ⟨before, after, ht, -⟩ := exists_append_trim t
  have hsuffix : m.digits <:+ trim t ∧ ∀ c ∈ m.digits, c.isDigit = true := by
    generalize trim t = numeral at hm
    unfold Numeral.ofText? at hm
    split at hm
    · obtain ⟨rfl, h⟩ := ofDigits?_eq_some_iff.mp hm
      exact ⟨List.suffix_cons _ _, h.2.1⟩
    · obtain ⟨rfl, h⟩ := ofDigits?_eq_some_iff.mp hm
      exact ⟨List.suffix_cons _ _, h.2.1⟩
    · obtain ⟨rfl, h⟩ := ofDigits?_eq_some_iff.mp hm
      exact ⟨List.suffix_refl _, h.2.1⟩
  have hinfix : m.digits <:+: t := hsuffix.1.isInfix.trans ⟨before, after, ht.symm⟩
  rw [← List.countP_eq_length.mpr hsuffix.2]
  exact hinfix.sublist.countP_le

end

/-! ## Reading a spec -/

section

variable {t u : Text} {k m : Int} {invalid : Text → EvalError}

theorem readInteger_of_writes (h : Writes t k)
    (hdigits : t.countP Char.isDigit ≤ Numeral.maxDigits) :
    readInteger invalid t = .ok k := by
  obtain ⟨m, hm, rfl⟩ := writesPlainly_iff.mp (writes_iff.mp h)
  have hlength := length_digits_le hm
  rw [readInteger, hm]
  show m.value.mapError _ = _
  rw [Numeral.value, Numeral.natural, if_neg (by omega)]
  rfl

theorem readInteger_of_not_writes (h : ∀ k, ¬ Writes t k) :
    readInteger invalid t = .error (invalid t) := by
  have hnone : Numeral.ofText? (trim t) = none := by
    cases hm : Numeral.ofText? (trim t) with
    | none => rfl
    | some m => exact absurd (writes_iff.mpr (writesPlainly_iff.mpr ⟨m, hm, rfl⟩)) (h _)
  rw [readInteger, hnone]

theorem Writes.not_mem {c : Char} (h : Writes t k) (hc : c = ':' ∨ c = '\\') : c ∉ t := by
  intro hmem
  rcases h.chars c hmem with h | h | h | h <;> rcases hc with rfl | rfl <;> revert h <;> decide

/-- An integer has no separator, so a spec that begins with one splits where a colon follows. -/
theorem Writes.split_append (h : Writes t k) (u : Text) :
    Spec.split ':' (t ++ u) =
      (Spec.split ':' u).map fun (left, right) => (t ++ left, right) := by
  have hends := Spec.endsEscaping_append (h.not_mem (.inr rfl)) []
  rw [List.append_nil] at hends
  exact Spec.split_append (h.not_mem (.inl rfl)) hends u

theorem substring_of_offset (o : Text) (h : Writes t k)
    (hdigits : t.countP Char.isDigit ≤ Numeral.maxDigits) :
    Spec.substring o t = .ok (slice o k none) := by
  have hsplit := h.split_append []
  rw [List.append_nil] at hsplit
  rw [Spec.substring, hsplit]
  show (readInteger .invalidOffset t >>= _) = _
  rw [readInteger_of_writes h hdigits]
  rfl

theorem substring_of_length (o : Text) (h : Writes t k) (hu : Writes u m)
    (hdigits : t.countP Char.isDigit ≤ Numeral.maxDigits)
    (hdigits' : u.countP Char.isDigit ≤ Numeral.maxDigits) :
    Spec.substring o (t ++ ':' :: u) = .ok (slice o k (some m)) := by
  have hsplit : Spec.split ':' (t ++ ':' :: u) = some (t, u) := by
    rw [h.split_append]
    show some (t ++ [], u) = some (t, u)
    rw [List.append_nil]
  rw [Spec.substring, hsplit]
  show (readInteger .invalidOffset t >>= _) = _
  rw [readInteger_of_writes h hdigits]
  show (readInteger .invalidLength u >>= _) = _
  rw [readInteger_of_writes hu hdigits']
  rfl

theorem substring_of_not_writes (o : Text) {spec : Text}
    (hwrites : ∃ t ∈ Spec.fields spec, ∀ k, ¬ Writes t k)
    (hdigits : ∀ t ∈ Spec.fields spec, ∀ k, Writes t k →
      t.countP Char.isDigit ≤ Numeral.maxDigits) :
    ∃ t ∈ Spec.fields spec, Spec.substring o spec = .error (.invalidOffset t) ∨
      Spec.substring o spec = .error (.invalidLength t) := by
  unfold Spec.fields at *
  unfold Spec.substring
  cases hsplit : Spec.split ':' spec with
  | none =>
    rw [hsplit] at hwrites
    obtain ⟨t, ht, hoffset⟩ := hwrites
    obtain rfl := List.mem_singleton.mp ht
    refine ⟨t, List.mem_singleton_self t, .inl ?_⟩
    show (readInteger .invalidOffset t >>= _) = _
    rw [readInteger_of_not_writes hoffset]
    rfl
  | some fields =>
    obtain ⟨offset, length⟩ := fields
    rw [hsplit] at hwrites hdigits
    by_cases hoffset : ∃ k, Writes offset k
    -- The offset is read first, so only with a good one is the length to blame.
    · obtain ⟨k, hk⟩ := hoffset
      have hlength : ∀ m, ¬ Writes length m := by
        obtain ⟨t, ht, hnot⟩ := hwrites
        rcases List.mem_pair.mp ht with rfl | rfl
        · exact absurd hk (hnot k)
        · exact hnot
      refine ⟨length, by simp, .inr ?_⟩
      show (readInteger .invalidOffset offset >>= _) = _
      rw [readInteger_of_writes hk (hdigits offset (by simp) k hk)]
      show (readInteger .invalidLength length >>= _) = _
      rw [readInteger_of_not_writes hlength]
      rfl
    · refine ⟨offset, by simp, .inl ?_⟩
      show (readInteger .invalidOffset offset >>= _) = _
      rw [readInteger_of_not_writes (not_exists.mp hoffset)]
      rfl

end

/-! ## Slices -/

/-- How the slices of a text fit together: `tail k` from the offset `k` on, and `part k m` of a
length `m` from there. -/
structure Slicing (o : Text) (tail : Int → Text) (part : Int → Int → Text) : Prop where
  tail_infix : ∀ k, tail k <:+: o
  part_infix : ∀ k m, part k m <:+: o
  rejoin : ∀ k : Int, 0 ≤ k → k ≤ o.length → part 0 k ++ tail k = o
  from_end : ∀ k : Int, 1 ≤ k → k ≤ o.length → tail (-k) = tail (o.length - k)
  part_of_le : ∀ k m : Int, 0 ≤ m → m ≤ (tail k).length → part k m = (tail k).take m.toNat
  part_of_not_le : ∀ k m : Int, ¬ (0 ≤ m ∧ m ≤ (tail k).length) → part k m = tail k
  outside : ∀ k : Int, o.length ≤ k ∨ k < -o.length → tail k = [] ∧ ∀ m, part k m = []

theorem slice_of_nonneg (o : Text) {k : Int} (hk : 0 ≤ k) : slice o k none = o.drop k.toNat := by
  unfold slice
  dsimp only
  rw [if_neg (Int.not_lt.mpr hk), if_neg (Int.not_lt.mpr hk)]

theorem slice_of_neg (o : Text) {k : Int} (hk : k < 0) (hle : -o.length ≤ k) :
    slice o k none = o.drop (k + o.length).toNat := by
  unfold slice
  dsimp only
  rw [if_pos hk, if_neg (by omega)]

theorem slice_of_lt (o : Text) {k : Int} (hk : k < -o.length) : slice o k none = [] := by
  unfold slice
  dsimp only
  rw [if_pos (show k < 0 by omega), if_pos (by omega)]

/-- A length below zero takes all that is left, and so does one that is too large. -/
theorem slice_some (o : Text) (k m : Int) :
    slice o k (some m) =
      if m < 0 then slice o k none else (slice o k none).take m.toNat := by
  unfold slice
  dsimp only
  generalize (if k < 0 then k + (o.length : Int) else k) = start
  split
  · rw [List.take_nil, ite_self]
  · rfl

theorem slicing_slice (o : Text) :
    Slicing o (fun k => slice o k none) (fun k m => slice o k (some m)) := by
  have htail : ∀ k, slice o k none <:+ o := by
    intro k
    by_cases hk : 0 ≤ k
    · rw [slice_of_nonneg o hk]
      exact List.drop_suffix _ _
    · by_cases hle : -(o.length : Int) ≤ k
      · rw [slice_of_neg o (by omega) hle]
        exact List.drop_suffix _ _
      · rw [slice_of_lt o (by omega)]
        exact List.nil_suffix
  -- A slice with a length is a beginning of the slice without one, which is an end of the text.
  have hpart : ∀ k m, slice o k (some m) <+: slice o k none := by
    intro k m
    rw [slice_some]
    split
    · exact List.prefix_refl _
    · exact List.take_prefix _ _
  have houtside : ∀ k : Int, o.length ≤ k ∨ k < -o.length → slice o k none = [] := by
    rintro k (hk | hk)
    · rw [slice_of_nonneg o (by omega)]
      exact List.drop_eq_nil_of_le (by omega)
    · exact slice_of_lt o hk
  refine ⟨fun k => (htail k).isInfix, fun k m => (hpart k m).isInfix.trans (htail k).isInfix,
    ?_, ?_, ?_, ?_, ?_⟩
  · intro k hk _
    show slice o 0 (some k) ++ slice o k none = o
    rw [slice_some, if_neg (by omega), slice_of_nonneg o (Int.le_refl 0), slice_of_nonneg o hk]
    exact List.take_append_drop _ _
  · intro k hk hle
    show slice o (-k) none = slice o (o.length - k) none
    rw [slice_of_neg o (by omega) (by omega), slice_of_nonneg o (by omega)]
    congr 2
    omega
  · intro k m hm _
    show slice o k (some m) = _
    rw [slice_some, if_neg (by omega)]
  · intro k m hm
    show slice o k (some m) = slice o k none
    rw [slice_some]
    split
    · rfl
    · have hlt : ((slice o k none).length : Int) < m := by
        by_contra hle
        exact hm ⟨by omega, by omega⟩
      exact List.take_of_length_le (by omega)
  · intro k hk
    refine ⟨houtside k hk, fun m => ?_⟩
    have hprefix := hpart k m
    rw [houtside k hk] at hprefix
    exact List.prefix_nil.mp hprefix

/-- A spec of an offset, or of an offset and a length, gives a slice of the text that depends on the
integers alone, and any other spec is refused. -/
theorem substring_slices (o : Text) :
    Slicing o (fun k => slice o k none) (fun k m => slice o k (some m)) ∧
      (∀ t k, Writes t k → t.countP Char.isDigit ≤ Numeral.maxDigits →
        Spec.substring o t = .ok (slice o k none)) ∧
      (∀ t k u m, Writes t k → Writes u m → t.countP Char.isDigit ≤ Numeral.maxDigits →
        u.countP Char.isDigit ≤ Numeral.maxDigits →
        Spec.substring o (t ++ ':' :: u) = .ok (slice o k (some m))) ∧
      ∀ spec, (∃ t ∈ Spec.fields spec, ∀ k, ¬ Writes t k) →
        (∀ t ∈ Spec.fields spec, ∀ k, Writes t k →
          t.countP Char.isDigit ≤ Numeral.maxDigits) →
        ∃ e, Spec.substring o spec = .error e ∧ e.category = some .substitution := by
  refine ⟨slicing_slice o, fun t k => substring_of_offset o, fun t k u m => substring_of_length o,
    fun spec hwrites hdigits => ?_⟩
  obtain ⟨t, -, h | h⟩ := substring_of_not_writes o hwrites hdigits
  · exact ⟨_, h, rfl⟩
  · exact ⟨_, h, rfl⟩

/-- An offset from the end with a sign, a zero in front and blanks around it, and a length. -/
theorem slices_of_spaced_integers :
    Writes "\t-03 ".toList (-3) ∧ Writes "+2".toList 2 ∧
      Spec.substring "hello".toList "\t-03 :+2".toList = .ok "ll".toList ∧
      (∀ k, ¬ Writes "1x".toList k) ∧
      ∃ e, Spec.substring "hello".toList "1x:2".toList = .error e ∧
        e.category = some .substitution := by
  have hoffset : Writes "\t-03 ".toList (-3) := writes_iff.mpr (writesPlainly_iff.mpr
    ⟨⟨true, "03".toList⟩, by decide, by decide⟩)
  have hlength : Writes "+2".toList 2 := writes_iff.mpr (writesPlainly_iff.mpr
    ⟨⟨false, "2".toList⟩, by decide, by decide⟩)
  have hnot : ∀ k, ¬ Writes "1x".toList k := by
    intro k h
    rcases h.chars 'x' (by decide) with h | h | h | h <;> revert h <;> decide
  have hslices := substring_slices "hello".toList
  refine ⟨hoffset, hlength, ?_, hnot, ?_⟩
  · exact hslices.2.2.1 _ _ _ _ hoffset hlength (by decide) (by decide)
  · refine hslices.2.2.2 "1x:2".toList ⟨"1x".toList, by decide, hnot⟩ ?_
    have hfields : ∀ t ∈ Spec.fields "1x:2".toList,
        t.countP Char.isDigit ≤ Numeral.maxDigits := by decide
    exact fun t ht _ _ => hfields t ht

end EnvScript
