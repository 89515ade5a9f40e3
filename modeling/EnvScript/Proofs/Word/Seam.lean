import EnvScript.Proofs.Success
import EnvScript.Word.Piece

/-!
# Pieces in front of a break

A piece that is read from a text is read in the same way when a break and more text follow. Only a
backslash at the very end would take the break to itself, and a `$` an opening parenthesis.
-/

namespace EnvScript

/-- The characters that end a word. -/
def breaks : List Char := " \t\n|&;<>()".toList

theorem mem_breaks_iff {y : Char} : y ∈ breaks ↔ isBreak y = true := List.contains_iff_mem.symm

variable {t u : Text} {piece : Piece} {n : Nat} {y : Char}

/-! ## Names and parameters -/

theorem takeWhile_append_break {P : Char → Bool} (h : P y = false) (t u : Text) :
    (t ++ y :: u).takeWhile P = t.takeWhile P := by
  rw [List.takeWhile_append]
  split
  · rename_i hall
    rw [List.takeWhile_cons_of_neg (by simp [h]), List.append_nil,
      (List.takeWhile_prefix P).eq_of_length hall]
  · rfl

theorem head?_append_break {c : Char} (hc : c ≠ y) (t u : Text) :
    ((t ++ y :: u).head? == some c) = (t.head? == some c) := by
  cases t with
  | nil => simpa using Ne.symm hc
  | cons d t => rfl

theorem leadingName_append_break (hy : y ∈ breaks) (t u : Text) :
    leadingName (t ++ y :: u) = leadingName t := by
  have hstart : ∀ y ∈ breaks, isNameStart y = false := forall_mem_of_all (by decide)
  have hchar : ∀ y ∈ breaks, isNameChar y = false := forall_mem_of_all (by decide)
  cases t with
  | nil =>
    show (if isNameStart y then _ else _) = _
    rw [hstart y hy]
    rfl
  | cons c t =>
    rw [List.cons_append, leadingName, leadingName, takeWhile_append_break (hchar y hy)]

theorem leadingParameter?_append_break (hy : y ∈ breaks) (t u : Text) :
    leadingParameter? (t ++ y :: u) = leadingParameter? t := by
  have hdigit : ∀ y ∈ breaks, y.isDigit = false := forall_mem_of_all (by decide)
  have hsign : ∀ y ∈ breaks, isParameterSign y = false := forall_mem_of_all (by decide)
  unfold leadingParameter?
  rw [leadingName_append_break hy, takeWhile_append_break (hdigit y hy)]
  cases t with
  | nil =>
    rw [List.nil_append, leadingName]
    dsimp only
    rw [hdigit y hy, hsign y hy]
    rfl
  | cons c t => cases leadingName (c :: t) <;> rfl

theorem length_of_leadingParameter? {p : Parameter} (h : leadingParameter? t = some (p, n)) :
    n ≤ t.length := by
  have hname := congrArg List.length (leadingName_append_drop t)
  rw [List.length_append] at hname
  unfold leadingParameter? at h
  cases hlead : leadingName t with
  | cons c name =>
    rw [hlead] at h hname
    obtain ⟨-, rfl⟩ := Prod.mk.inj (Option.some.inj h)
    rw [List.length_cons] at hname
    omega
  | nil =>
    rw [hlead] at h
    cases t with
    | nil => exact absurd h (by simp)
    | cons c t =>
      dsimp only at h
      split at h
      · obtain ⟨-, rfl⟩ := Prod.mk.inj (Option.some.inj h)
        exact (List.takeWhile_prefix _).length_le
      · split at h
        · obtain ⟨-, rfl⟩ := Prod.mk.inj (Option.some.inj h)
          simp
        · exact absurd h (by simp)

theorem Reading.shift_eq_ok {r : Reading} {k : Nat} (h : r.shift k = .ok (piece, n)) :
    ∃ m, r = .ok (piece, m) ∧ n = m + k := by
  match r with
  | .ok (p, m) =>
    obtain ⟨rfl, rfl⟩ := Prod.mk.inj (Except.ok.inj h)
    exact ⟨m, rfl, rfl⟩
  | .error (.misplaced fault m) => exact absurd h (by simp [Reading.shift])
  | .error (.unclosed c) => exact absurd h (by simp [Reading.shift])

theorem readOperator_slash (p : Parameter) (h : t.head? ≠ some '/') :
    readOperator p ('/' :: t) = .taking 1 (.opens (.operand p .replace)) := by
  cases t with
  | nil => rfl
  | cons c t =>
    have hc : c ≠ '/' := fun hc => h (congrArg some hc)
    unfold readOperator
    split
    case h_3 heq => exact absurd (List.cons.inj (List.cons.inj heq).2).1 hc
    case h_4 => rfl
    case h_7 hslash _ _ heq => exact absurd (List.cons.inj heq).1.symm hslash
    all_goals simp_all

theorem readOperator_sign (p : Parameter) {c : Char} (hc : c ∉ ['}', '/', ':']) (t : Text) :
    readOperator p (c :: t) =
      if isDoubledSign c && t.head? == some c then .taking 2 (.opens (.ignored p [c, c]))
      else if isOperatorSign c then .taking 1 (.opens (.ignored p [c]))
      else .error (.misplaced (.unexpectedOperator c) 0) := by
  simp only [List.mem_cons, List.not_mem_nil, or_false, not_or] at hc
  obtain ⟨hbrace, hslash, hcolon⟩ := hc
  conv => lhs; unfold readOperator
  split
  case h_7 heq =>
    obtain ⟨rfl, rfl⟩ := List.cons.inj heq
    rfl
  all_goals simp_all

/-! ## Substitutions -/

theorem getElem?_backquoteLength {k : Nat} (h : backquoteLength k t = some n) :
    ∃ m, n = k + m ∧ t[m]? = some '`' := by
  fun_induction backquoteLength k t with
  | case1 => exact absurd h (by simp)
  | case2 => exact ⟨0, (Option.some.inj h).symm, rfl⟩
  | case3 k c t ih =>
    obtain ⟨m, rfl, hm⟩ := ih h
    exact ⟨m + 2, by omega, hm⟩
  | case4 k c t _ _ ih =>
    obtain ⟨m, rfl, hm⟩ := ih h
    exact ⟨m + 1, by omega, hm⟩

theorem getElem?_commandLength {quote : Option Char} {depth k : Nat}
    (h : commandLength quote depth k t = some n) : ∃ m, n = k + m ∧ t[m]? = some ')' := by
  fun_induction commandLength quote depth k t
  case case1 => exact absurd h (by simp)
  case case2 => exact absurd h (by simp)
  case case3 k c _ d t ih =>
    obtain ⟨m, rfl, hm⟩ := ih h
    exact ⟨m + 2, by omega, hm⟩
  case case7 => exact ⟨0, (Option.some.inj h).symm, rfl⟩
  all_goals
    rename_i ih
    obtain ⟨m, rfl, hm⟩ := ih h
    exact ⟨m + 1, by omega, hm⟩

/-- Each open parenthesis is closed in front of the last. -/
theorem getElem?_arithmeticLength {depth k : Nat} (h : arithmeticLength depth k t = some n) :
    ∃ m, n = k + m ∧ depth ≤ m ∧ t[m]? = some ')' := by
  fun_induction arithmeticLength depth k t
  case case1 => exact absurd h (by simp)
  case case3 => exact ⟨0, (Option.some.inj h).symm, Nat.le_refl 0, rfl⟩
  all_goals
    rename_i ih
    obtain ⟨m, rfl, hle, hm⟩ := ih h
    exact ⟨m + 1, by omega, by omega, hm⟩

theorem length_of_backquoteLength {k : Nat} (h : backquoteLength k t = some n) :
    n < k + t.length := by
  obtain ⟨m, rfl, hm⟩ := getElem?_backquoteLength h
  exact Nat.add_lt_add_left (List.getElem?_eq_some_iff.mp hm).1 k

theorem length_of_commandLength {quote : Option Char} {depth k : Nat}
    (h : commandLength quote depth k t = some n) : n < k + t.length := by
  obtain ⟨m, rfl, hm⟩ := getElem?_commandLength h
  exact Nat.add_lt_add_left (List.getElem?_eq_some_iff.mp hm).1 k

theorem length_of_arithmeticLength {depth k : Nat} (h : arithmeticLength depth k t = some n) :
    n < k + t.length := by
  obtain ⟨m, rfl, -, hm⟩ := getElem?_arithmeticLength h
  exact Nat.add_lt_add_left (List.getElem?_eq_some_iff.mp hm).1 k

theorem backquoteLength_append_iff {k : Nat} (hn : n < k + t.length) :
    backquoteLength k (t ++ u) = some n ↔ backquoteLength k t = some n := by
  fun_induction backquoteLength k t with
  | case1 k =>
    refine iff_of_false (fun h => ?_) (by simp)
    obtain ⟨m, rfl, -⟩ := getElem?_backquoteLength h
    exact absurd hn (by simp)
  | case2 => rfl
  | case3 k c t ih => exact ih (by simp only [List.length_cons] at hn; omega)
  | case4 k c t hquote hescape ih =>
    cases t with
    | nil =>
      -- The one character that is left is not the backquote.
      refine iff_of_false (fun h => ?_) (by simp [backquoteLength])
      obtain ⟨m, rfl, hm⟩ := getElem?_backquoteLength h
      obtain rfl : m = 0 := by simp at hn; omega
      exact hquote (Option.some.inj hm)
    | cons d t =>
      rw [List.cons_append, backquoteLength]
      · exact ih (by simp only [List.length_cons] at hn ⊢; omega)
      · exact hquote
      · intro _ _ hc _
        exact hescape d t hc rfl

theorem commandLength_append_iff {quote : Option Char} {depth k : Nat} (hn : n < k + t.length) :
    commandLength quote depth k (t ++ u) = some n ↔ commandLength quote depth k t = some n := by
  fun_induction commandLength quote depth k t with
  | case1 quote depth k =>
    refine iff_of_false (fun h => ?_) (by simp)
    obtain ⟨m, rfl, -⟩ := getElem?_commandLength h
    exact absurd hn (by simp)
  | case2 quote depth k c hescape =>
    refine iff_of_false (fun h => ?_) (by simp)
    obtain ⟨m, rfl, hm⟩ := getElem?_commandLength h
    obtain rfl : m = 0 := by simp at hn; omega
    exact absurd ((Option.some.inj hm).symm.trans hescape.1) (by decide)
  | case3 quote depth k c hescape d t ih =>
    rw [List.cons_append, List.cons_append, commandLength.eq_def]
    dsimp only
    rw [if_pos hescape]
    exact ih (by simp only [List.length_cons] at hn; omega)
  | case4 quote depth k c t hescape hquote ih =>
    rw [List.cons_append, commandLength.eq_def]
    dsimp only
    rw [if_neg hescape, if_pos hquote]
    exact ih (by simp only [List.length_cons] at hn; omega)
  | case5 quote depth k c t hescape hquote hstarts ih =>
    rw [List.cons_append, commandLength.eq_def]
    dsimp only
    rw [if_neg hescape, if_neg hquote, if_pos hstarts]
    exact ih (by simp only [List.length_cons] at hn; omega)
  | case6 quote depth k t hescape hquote hstarts ih =>
    rw [List.cons_append, commandLength.eq_def]
    dsimp only
    rw [if_neg hescape, if_neg hquote, if_neg hstarts, if_pos rfl]
    exact ih (by simp only [List.length_cons] at hn; omega)
  | case7 quote k t hescape hquote hstarts hopens =>
    rw [List.cons_append, commandLength.eq_def]
    dsimp only
    rw [if_neg hescape, if_neg hquote, if_neg hstarts, if_neg hopens, if_pos rfl]
  | case8 quote k t hquote depth hescape hstarts hopens ih =>
    rw [List.cons_append, commandLength.eq_def]
    dsimp only
    rw [if_neg hescape, if_neg hquote, if_neg hstarts, if_neg hopens, if_pos rfl]
    exact ih (by simp only [List.length_cons] at hn; omega)
  | case9 quote depth k c t hescape hquote hstarts hopens hcloses ih =>
    rw [List.cons_append, commandLength.eq_def]
    dsimp only
    rw [if_neg hescape, if_neg hquote, if_neg hstarts, if_neg hopens, if_neg hcloses]
    exact ih (by simp only [List.length_cons] at hn; omega)

theorem arithmeticLength_append_iff {depth k : Nat} (hn : n < k + t.length) :
    arithmeticLength depth k (t ++ u) = some n ↔ arithmeticLength depth k t = some n := by
  fun_induction arithmeticLength depth k t with
  | case1 depth k =>
    refine iff_of_false (fun h => ?_) (by simp)
    obtain ⟨m, rfl, -⟩ := getElem?_arithmeticLength h
    exact absurd hn (by simp)
  | case2 depth k t ih =>
    rw [List.cons_append, arithmeticLength.eq_def]
    dsimp only
    rw [if_pos rfl]
    exact ih (by simp only [List.length_cons] at hn; omega)
  | case3 k t hopens =>
    rw [List.cons_append, arithmeticLength.eq_def]
    dsimp only
    rw [if_neg hopens, if_pos rfl]
  | case4 k t depth hopens ih =>
    rw [List.cons_append, arithmeticLength.eq_def]
    dsimp only
    rw [if_neg hopens, if_pos rfl]
    exact ih (by simp only [List.length_cons] at hn; omega)
  | case5 depth k c t hopens hcloses ih =>
    rw [List.cons_append, arithmeticLength.eq_def]
    dsimp only
    rw [if_neg hopens, if_neg hcloses]
    exact ih (by simp only [List.length_cons] at hn; omega)

/-! ## How much a piece takes -/

/-- What is read is not more than there is. -/
def Reading.FitsIn (r : Reading) (t : Text) : Prop :=
  ∀ piece n, r = .ok (piece, n) → n ≤ t.length

theorem fitsIn_taking {k : Nat} (h : k ≤ t.length) (p : Piece) : (Reading.taking k p).FitsIn t := by
  intro piece n hr
  obtain ⟨-, rfl⟩ := Prod.mk.inj (Except.ok.inj hr)
  exact h

theorem fitsIn_error (flaw : Flaw) : Reading.FitsIn (.error flaw) t :=
  fun _ _ h => absurd h (by simp)

theorem Reading.FitsIn.shift {r : Reading} {k : Nat} (h : r.FitsIn (t.drop k))
    (hk : k ≤ t.length) : (r.shift k).FitsIn t := by
  intro piece n hr
  obtain ⟨m, hm, rfl⟩ := Reading.shift_eq_ok hr
  have hle := h piece m hm
  rw [List.length_drop] at hle
  omega

theorem fitsIn_readOperator (p : Parameter) (t : Text) : (readOperator p t).FitsIn t := by
  unfold readOperator
  split
  · exact fitsIn_error _
  · exact fitsIn_taking (by simp) _
  · exact fitsIn_taking (by simp) _
  · exact fitsIn_taking (by simp) _
  · split <;> exact fitsIn_taking (by simp) _
  · exact fitsIn_taking (by simp) _
  · rename_i c t _ _ _ _ _
    split
    · rename_i hdouble
      refine fitsIn_taking ?_ _
      cases t with
      | nil => exact absurd hdouble (by simp)
      | cons d t => simp
    · split
      · exact fitsIn_taking (by simp) _
      · exact fitsIn_error _

theorem fitsIn_readBraced (t : Text) : (readBraced t).FitsIn t := by
  unfold readBraced
  split
  · exact fitsIn_error _
  · rename_i c t
    split
    · split
      · rename_i hparam
        exact fitsIn_taking (Nat.succ_le_succ (length_of_leadingParameter? hparam)) _
      · exact Reading.FitsIn.shift (fitsIn_error _) (by simp)
    · split
      · rename_i hparam
        exact (fitsIn_readOperator _ _).shift (length_of_leadingParameter? hparam)
      · exact fitsIn_error _

theorem fitsIn_readDollar (t : Text) : (readDollar t).FitsIn t := by
  unfold readDollar
  split
  · rename_i t
    exact Reading.FitsIn.shift (t := '{' :: t) (fitsIn_readBraced t) (by simp)
  · split
    · rename_i t _ hlength
      have := length_of_arithmeticLength hlength
      exact fitsIn_taking (by simp only [List.length_cons]; omega) _
    · exact fitsIn_error _
  · split
    · rename_i t _ _ hlength
      have := length_of_commandLength hlength
      exact fitsIn_taking (by simp only [List.length_cons]; omega) _
    · exact fitsIn_error _
  · have hname := congrArg List.length (leadingName_append_drop t)
    rw [List.length_append] at hname
    split
    · rename_i hlead
      rw [hlead, List.length_cons] at hname
      exact fitsIn_taking (by omega) _
    · split
      · exact fitsIn_taking (by simp) _
      · exact fitsIn_taking (Nat.zero_le _) _
    · exact fitsIn_taking (Nat.zero_le _) _

theorem fitsIn_readBackquote (t : Text) : (readBackquote t).FitsIn t := by
  unfold readBackquote
  split
  · rename_i hlength
    have := length_of_backquoteLength hlength
    exact fitsIn_taking (by omega) _
  · exact fitsIn_error _

theorem fitsIn_readSingle (t : Text) : (readSingle t).FitsIn t := by
  unfold readSingle
  dsimp only
  split
  · rename_i hlength
    exact fitsIn_taking hlength _
  · exact fitsIn_error _

theorem fitsIn_readQuoted (c : Char) (t : Text) : (readQuoted c t).FitsIn t := by
  unfold readQuoted
  split
  · exact fitsIn_taking (Nat.zero_le _) _
  · split
    · split
      · split
        · exact fitsIn_taking (by simp) _
        · exact fitsIn_taking (Nat.zero_le _) _
      · exact fitsIn_taking (Nat.zero_le _) _
    · exact fitsIn_taking (Nat.zero_le _) _

theorem fitsIn_readUnquoted (c : Char) (t : Text) : (readUnquoted c t).FitsIn t := by
  unfold readUnquoted
  split
  · split
    · exact fitsIn_taking (by simp) _
    · exact fitsIn_taking (Nat.zero_le _) _
  · split
    · exact fitsIn_readSingle t
    · split <;> exact fitsIn_taking (Nat.zero_le _) _

theorem fitsIn_readPiece (place : Place) (tilde : Bool) (x : Char) (t : Text) :
    (readPiece place tilde x t).FitsIn t := by
  unfold readPiece
  split
  · exact fitsIn_readDollar t
  · split
    · exact fitsIn_readBackquote t
    · split
      · exact fitsIn_readQuoted x t
      · split
        · exact fitsIn_taking (Nat.zero_le _) _
        · exact fitsIn_readUnquoted x t
      · split
        · exact fitsIn_taking (Nat.zero_le _) _
        · split
          · exact fitsIn_taking (Nat.zero_le _) _
          · split
            · exact fitsIn_taking (List.takeWhile_prefix _).length_le _
            · exact fitsIn_readUnquoted x t

/-! ## Pieces in front of a break -/

/-- Up to `k` characters the two readings are the same. -/
def Reading.AgreeUpTo (k : Nat) (r r' : Reading) : Prop :=
  ∀ piece n, n ≤ k → (r = .ok (piece, n) ↔ r' = .ok (piece, n))

theorem agreeUpTo_refl (k : Nat) (r : Reading) : r.AgreeUpTo k r := fun _ _ _ => .rfl

theorem agreeUpTo_error (k : Nat) (flaw flaw' : Flaw) :
    Reading.AgreeUpTo k (.error flaw) (.error flaw') :=
  fun _ _ _ => iff_of_false (by simp) (by simp)

theorem Reading.AgreeUpTo.shift {r r' : Reading} {k : Nat} (h : r.AgreeUpTo k r') (j : Nat) :
    (r.shift j).AgreeUpTo (k + j) (r'.shift j) := by
  intro piece n hn
  constructor
  · intro hr
    obtain ⟨m, hm, rfl⟩ := Reading.shift_eq_ok hr
    rw [(h piece m (by omega)).mp hm]
    rfl
  · intro hr
    obtain ⟨m, hm, rfl⟩ := Reading.shift_eq_ok hr
    rw [(h piece m (by omega)).mpr hm]
    rfl

theorem agreeUpTo_readOperator (hy : y ∈ breaks) (k : Nat) (p : Parameter) (t u : Text) :
    (readOperator p (t ++ y :: u)).AgreeUpTo k (readOperator p t) := by
  have hopens : ∀ y ∈ breaks, y ∉ ['}', '/', ':'] ∧ '/' ≠ y := forall_mem_of_all (by decide)
  have hsigns : ∀ y ∈ breaks, isDefaultSign y = false ∧ isDoubledSign y = false ∧
    isOperatorSign y = false := forall_mem_of_all (by decide)
  obtain ⟨hdefault, hdoubled, hoperator⟩ := hsigns y hy
  cases t with
  | nil =>
    rw [List.nil_append, readOperator_sign p (hopens y hy).1, hdoubled, hoperator]
    exact agreeUpTo_error k _ _
  | cons c t =>
    suffices heq : readOperator p (c :: (t ++ y :: u)) = readOperator p (c :: t) from
      heq ▸ agreeUpTo_refl k _
    by_cases hc : c ∈ ['}', '/', ':']
    · simp only [List.mem_cons, List.not_mem_nil, or_false] at hc
      rcases hc with rfl | rfl | rfl
      · rfl
      · by_cases ht : t.head? = some '/'
        · obtain ⟨t, rfl⟩ := List.head?_eq_some_iff.mp ht
          rfl
        · have hhead := head?_append_break (hopens y hy).2 t u
          rw [beq_eq_false_iff_ne.mpr ht] at hhead
          rw [readOperator_slash p ht, readOperator_slash p (beq_eq_false_iff_ne.mp hhead)]
      · cases t with
        | nil =>
          show readOperator p (':' :: y :: u) = _
          rw [readOperator, hdefault]
          rfl
        | cons d t => rfl
    · have hne : isDoubledSign c = true → c ≠ y := by
        rintro hdouble rfl
        exact absurd (hdouble.symm.trans hdoubled) (by simp)
      rw [readOperator_sign p hc, readOperator_sign p hc]
      cases hdouble : isDoubledSign c with
      | false => rfl
      | true => rw [head?_append_break (hne hdouble)]

theorem agreeUpTo_readBraced (hy : y ∈ breaks) (k : Nat) (t u : Text) :
    (readBraced (t ++ y :: u)).AgreeUpTo k (readBraced t) := by
  have hbrace : ∀ y ∈ breaks, '}' ≠ y ∧ (y == '#' || y == '!') = false :=
    forall_mem_of_all (by decide)
  cases t with
  | nil =>
    have hnone : leadingParameter? (y :: u) = none := leadingParameter?_append_break hy [] u
    rw [List.nil_append]
    unfold readBraced
    dsimp only
    rw [(hbrace y hy).2, Bool.false_and, if_neg Bool.false_ne_true, hnone]
    exact agreeUpTo_error k _ _
  | cons c t =>
    have hsign : ((c == '#' || c == '!') && (t ++ y :: u).head? != some '}') =
        ((c == '#' || c == '!') && t.head? != some '}') := by
      rw [bne, bne, head?_append_break (hbrace y hy).1]
    unfold readBraced
    rw [List.cons_append]
    dsimp only
    rw [hsign, leadingParameter?_append_break hy, ← List.cons_append,
      leadingParameter?_append_break hy]
    split
    · split
      · exact agreeUpTo_refl k _
      · exact fun piece n hn => ((agreeUpTo_error k _ _).shift 1) piece n (by omega)
    · split
      · rename_i p j hparam
        rw [List.drop_append_of_le_length (length_of_leadingParameter? hparam)]
        exact fun piece n hn => ((agreeUpTo_readOperator hy k p _ u).shift j) piece n (by omega)
      · exact agreeUpTo_error k _ _

/-- A part is read alike in front of more text if the place that closes it is found alike. -/
theorem agreeUpTo_part (scan : Text → Option Nat) (part : Text → Part) (i j : Nat) {k : Nat}
    {c : Construct} (hk : k < t.length + i)
    (hscan : ∀ m, m < t.length → (scan (t ++ u) = some m ↔ scan t = some m)) :
    Reading.AgreeUpTo k
      (match scan (t ++ u) with
        | some m => .taking (m + i) (.part (part ((t ++ u).take (m - j))))
        | none => .error (.unclosed c))
      (match scan t with
        | some m => .taking (m + i) (.part (part (t.take (m - j))))
        | none => .error (.unclosed c)) := by
  intro piece n hn
  have hfound : ∀ v, (match scan v with
      | some m => Reading.taking (m + i) (.part (part (v.take (m - j))))
      | none => .error (.unclosed c)) = .ok (piece, n) ↔
      ∃ m, scan v = some m ∧ .part (part (v.take (m - j))) = piece ∧ m + i = n := by
    intro v
    cases scan v <;> simp [Reading.taking]
  rw [hfound, hfound]
  refine exists_congr fun m => ?_
  by_cases hm : m < t.length
  · rw [hscan m hm, List.take_append_of_le_length (by omega)]
  · exact iff_of_false (fun h => by omega) (fun h => by omega)

theorem agreeUpTo_readBackquote (t u : Text) :
    (readBackquote (t ++ u)).AgreeUpTo t.length (readBackquote t) :=
  agreeUpTo_part (backquoteLength 0) (.command · true) 1 0 (by omega)
    fun _ hm => backquoteLength_append_iff (by omega)

/-- After a `$` that introduces neither braces nor parentheses. -/
theorem readDollar_plain : t.head? ≠ some '{' → t.head? ≠ some '(' →
    readDollar t =
      match leadingName t, t with
      | c :: name, _ => .taking (name.length + 1) (.part (.parameter (.var (c :: name))))
      | [], c :: _ =>
        if c.isDigit || isParameterSign c then .taking 1 (.part (.parameter (.special [c])))
        else .taking 0 (.plain '$')
      | [], [] => .taking 0 (.plain '$') := by
  intro h h'
  conv => lhs; unfold readDollar
  split
  · exact absurd rfl h
  · exact absurd rfl h'
  · exact absurd rfl h'
  · rfl

theorem readDollar_parens (t : Text) :
    readDollar ('(' :: '(' :: t) =
      match arithmeticLength 1 0 t with
      | some n => .taking (n + 3) (.part (.arithmetic (t.take (n - 1))))
      | none => .error (.unclosed .arithmeticExpansion) := rfl

theorem readDollar_paren : t.head? ≠ some '(' →
    readDollar ('(' :: t) =
      match commandLength none 0 0 t with
      | some n => .taking (n + 2) (.part (.command (t.take n) false))
      | none => .error (.unclosed .commandSubstitution) := by
  intro h
  cases t with
  | nil => rfl
  | cons c t =>
    have hc : c ≠ '(' := fun hc => h (congrArg some hc)
    conv => lhs; unfold readDollar
    split
    case h_3 heq =>
      obtain rfl := (List.cons.inj heq).2
      rfl
    all_goals simp_all

/-- An opening parenthesis belongs to a `$`, and to a `$(`, right in front of it. -/
theorem agreeUpTo_readDollar (hy : y ∈ breaks) (hparen : y = '(' → t ≠ [] ∧ t ≠ ['(']) (u : Text) :
    (readDollar (t ++ y :: u)).AgreeUpTo t.length (readDollar t) := by
  have hbraces : ∀ y ∈ breaks, y ≠ '{' := forall_mem_of_all (by decide)
  have hhead : ∀ {c : Char} {t : Text}, (t = [] → y ≠ c) → t.head? ≠ some c →
      (t ++ y :: u).head? ≠ some c := by
    intro c t hc ht
    cases t with
    | nil => exact fun heq => hc rfl (Option.some.inj heq)
    | cons d t => exact ht
  by_cases hbrace : t.head? = some '{'
  · obtain ⟨t, rfl⟩ := List.head?_eq_some_iff.mp hbrace
    exact (agreeUpTo_readBraced hy t.length t u).shift 1
  by_cases hopen : t.head? = some '('
  · obtain ⟨t, rfl⟩ := List.head?_eq_some_iff.mp hopen
    by_cases hopen' : t.head? = some '('
    · obtain ⟨t, rfl⟩ := List.head?_eq_some_iff.mp hopen'
      rw [List.cons_append, List.cons_append, readDollar_parens, readDollar_parens]
      exact agreeUpTo_part (arithmeticLength 1 0) .arithmetic 3 1 (by simp)
        fun _ hm => arithmeticLength_append_iff (by omega)
    · have hclosed : t = [] → y ≠ '(' := by
        rintro rfl hy'
        exact (hparen hy').2 rfl
      rw [List.cons_append, readDollar_paren hopen', readDollar_paren (hhead hclosed hopen')]
      exact agreeUpTo_part (commandLength none 0 0) (.command · false) 2 0 (by simp)
        fun _ hm => commandLength_append_iff (by omega)
  · rw [readDollar_plain hbrace hopen, readDollar_plain (hhead (fun _ => hbraces y hy) hbrace)
      (hhead (fun hnil hy' => (hparen hy').1 hnil) hopen), leadingName_append_break hy]
    cases t with
    | nil =>
      have hdigit : ∀ y ∈ breaks, (y.isDigit || isParameterSign y) = false :=
        forall_mem_of_all (by decide)
      rw [List.nil_append, leadingName]
      dsimp only
      rw [hdigit y hy]
      exact agreeUpTo_refl _ _
    | cons c t => cases leadingName (c :: t) <;> exact agreeUpTo_refl _ _

theorem agreeUpTo_readSingle (t u : Text) :
    (readSingle (t ++ u)).AgreeUpTo t.length (readSingle t) := by
  unfold readSingle
  dsimp only
  rw [List.takeWhile_append]
  split
  · rename_i hall
    -- No quote stands in `t`, so what is read takes all of it and the quote behind it.
    rw [if_neg (Nat.not_lt.mpr (Nat.le_of_eq hall.symm))]
    intro piece n hn
    refine iff_of_false (fun h => ?_) (by simp)
    split at h
    · obtain ⟨-, rfl⟩ := Prod.mk.inj (Except.ok.inj h)
      simp only [List.length_append] at hn
      omega
    · exact absurd h (by simp)
  · rename_i hquote
    have hlt := Nat.lt_of_le_of_ne (List.takeWhile_prefix (· != '\'')).length_le hquote
    rw [if_pos hlt, if_pos (by rw [List.length_append]; omega)]
    exact agreeUpTo_refl _ _

theorem readQuoted_append {x : Char} (hx : x = '\\' → t ≠ []) (u : Text) :
    readQuoted x (t ++ u) = readQuoted x t := by
  unfold readQuoted
  split
  · rfl
  · split
    · rename_i hslash
      cases t with
      | nil => exact absurd rfl (hx hslash)
      | cons d t => rfl
    · rfl

theorem agreeUpTo_readUnquoted {x : Char} (hx : x = '\\' → t ≠ []) (u : Text) :
    (readUnquoted x (t ++ u)).AgreeUpTo t.length (readUnquoted x t) := by
  unfold readUnquoted
  split
  · rename_i hslash
    cases t with
    | nil => exact absurd rfl (hx hslash)
    | cons d t => exact agreeUpTo_refl _ _
  · split
    · exact agreeUpTo_readSingle t u
    · exact agreeUpTo_refl _ _

theorem readTilde_append_break (hy : y ∈ breaks) (t u : Text) :
    readTilde (t ++ y :: u) = readTilde t := by
  have huser : ∀ y ∈ breaks, isUserChar y = false := forall_mem_of_all (by decide)
  rw [readTilde, readTilde, takeWhile_append_break (huser y hy)]

/-- A piece stays what it is in front of a break that no backslash escapes and no `$` takes. -/
theorem agreeUpTo_readPiece {x : Char} (hy : y ∈ breaks) (place : Place) (tilde : Bool)
    (hx : x = '\\' → t ≠ []) (hparen : x = '$' → y = '(' → t ≠ [] ∧ t ≠ ['(']) (u : Text) :
    (readPiece place tilde x (t ++ y :: u)).AgreeUpTo t.length (readPiece place tilde x t) := by
  unfold readPiece
  split
  · rename_i hdollar
    exact agreeUpTo_readDollar hy (hparen hdollar) u
  split
  · exact agreeUpTo_readBackquote t _
  cases place with
  | quote =>
    dsimp only
    rw [readQuoted_append hx]
    exact agreeUpTo_refl _ _
  | operand =>
    dsimp only
    split
    · exact agreeUpTo_refl _ _
    · exact agreeUpTo_readUnquoted hx _
  | word =>
    dsimp only
    rw [readTilde_append_break hy]
    split
    · exact agreeUpTo_refl _ _
    split
    · exact agreeUpTo_refl _ _
    split
    · exact agreeUpTo_refl _ _
    · exact agreeUpTo_readUnquoted hx _

theorem nests_append_break (hy : y ∈ breaks) (place : Place) (x : Char) (t u : Text) :
    nests place x (t ++ y :: u) = nests place x t := by
  have hbrace : ∀ y ∈ breaks, '{' ≠ y := forall_mem_of_all (by decide)
  rw [nests, nests, head?_append_break (hbrace y hy)]

end EnvScript
