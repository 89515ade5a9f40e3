import EnvScript.Proofs.Script.Printed

/-!
# Blanks at the ends of lines

In front of a newline spaces and tabs are skipped. A carriage return is skipped behind one of these,
but it does not end a word, so right behind a value it belongs to the value.
-/

namespace EnvScript

variable {limits : Limits} {c : Context} {blanks : Text}

/-! ## Carriage returns -/

/-- A carriage return is skipped between tokens, but inside of a word it is plain. -/
theorem begins_carriageReturn : Begins '\r' [] (.plain '\r') :=
  ⟨by decide, fun _ => rfl, fun tilde _ => by cases tilde <;> rfl⟩

theorem spells_carriageReturns {limit : Int} {base : Nat} {t : Text} (ht : ∀ x ∈ t, x = '\r') :
    Spells limit base t t := by
  induction t with
  | nil => exact .nil
  | cons x t ih =>
    obtain ⟨rfl, hrest⟩ := List.forall_mem_cons.mp ht
    exact .plain begins_carriageReturn (ih hrest)

/-- A blank other than a carriage return ends a word. -/
theorem startsSeam_dropWhile (hblanks : ∀ x ∈ blanks, x ∈ Cursor.blanks) :
    StartsSeam (blanks.dropWhile (· == '\r')) := by
  have hseams : ∀ x ∈ Cursor.blanks, x ≠ '\r' → x ∈ seams :=
    forall_mem_of_all (by decide)
  intro y hy
  have hne : y ≠ '\r' := by
    have hhead := List.head?_dropWhile_not (· == '\r') blanks
    rw [hy] at hhead
    simpa using hhead
  have hmem : y ∈ blanks := (List.dropWhile_sublist _).subset (List.mem_of_mem_head? hy)
  exact hseams y (hblanks y hmem) hne

/-! ## One line -/

/-- A variable and a value that needs no quotes. -/
structure PlainLine where
  name : Text
  value : Text
  isName : isName name = true
  ne_nil : value ≠ []
  isSafe : ∀ x ∈ value, isSafe x = true

namespace PlainLine

/-- The line as it stands in a script, with blanks at its end. -/
def text (line : PlainLine) (blanks : Text) : Text := line.name ++ '=' :: (line.value ++ blanks)

/-- The variable, and the value with the carriage returns right behind it. -/
def stored (line : PlainLine) (blanks : Text) : Text × Text :=
  (line.name, line.value ++ blanks.takeWhile (· == '\r'))

theorem stored_eq_iff (line : PlainLine) :
    line.stored blanks = line.stored [] ↔ blanks.head? ≠ some '\r' := by
  unfold stored
  cases blanks with
  | nil => simp
  | cons x t => by_cases hx : x = '\r' <;> simp [hx]

theorem ne_backslash_of_mem_text (line : PlainLine) (hblanks : ∀ x ∈ blanks, x ∈ Cursor.blanks) :
    ∀ x ∈ line.text blanks, x ≠ '\\' := by
  rintro x hx rfl
  rcases List.mem_append.mp hx with hx | hx
  · exact absurd (isNameChar_of_isName line.isName _ hx) (by decide)
  rcases List.mem_cons.mp hx with hx | hx
  · exact absurd hx (by decide)
  rcases List.mem_append.mp hx with hx | hx
  · exact absurd (line.isSafe _ hx) (by decide)
  · exact absurd (hblanks _ hx) (by decide)

theorem storesLine_text (line : PlainLine) (hblanks : ∀ x ∈ blanks, x ∈ Cursor.blanks) :
    StoresLine (line.text blanks) (line.stored blanks) := by
  refine ⟨fun hlast => line.ne_backslash_of_mem_text hblanks _ (List.mem_of_getLast? hlast) rfl,
    fun limits c => ?_⟩
  have hreturns : ∀ x ∈ blanks.takeWhile (· == '\r'), x = '\r' := fun x hx =>
    beq_iff_eq.mp (List.all_eq_true.mp List.all_takeWhile x hx)
  have hspells : ∀ limit : Int, Spells limit 0 (line.value ++ blanks.takeWhile (· == '\r')) _ :=
    fun _ => (spells_of_isSafe line.isSafe).append (spells_carriageReturns hreturns)
  -- The other blanks are what the word leaves, and they end it.
  have hafter : ∀ x ∈ blanks.dropWhile (· == '\r'), x ∈ Cursor.blanks := fun x hx =>
    hblanks x ((List.dropWhile_sublist _).subset hx)
  have htext : line.text blanks = line.name ++ '=' :: (line.value ++ blanks.takeWhile (· == '\r') ++
      blanks.dropWhile (· == '\r')) := by
    rw [text, List.append_assoc, List.takeWhile_append_dropWhile]
  rw [htext]
  exact (succeeds_of_spells_blanks line.isName (hspells _)
    (List.append_ne_nil_of_left_ne_nil line.ne_nil _) (startsSeam_dropWhile hblanks) hafter
    (Int.le_max_right _ _) (Int.le_max_right _ _)).eq_ok (Int.le_max_right _ _)

end PlainLine

/-! ## Many lines -/

/-- Lines, each with its blanks, one under the other. -/
def plainScript (lines : List (PlainLine × Text)) : Text :=
  lines.flatMap fun (line, blanks) => line.text blanks ++ ['\n']

theorem runScript_plainScript {lines : List (PlainLine × Text)}
    (hblanks : ∀ line ∈ lines, ∀ x ∈ line.2, x ∈ Cursor.blanks)
    (hwithin : (runScript limits (plainScript lines) c).WithinLimits) :
    runScript limits (plainScript lines) c =
      ⟨.ok (), c.assign (lines.map fun (line, blanks) => line.stored blanks)⟩ := by
  rw [← List.append_nil (plainScript lines)] at hwithin ⊢
  exact runScript_lines (fun line hline => line.1.storesLine_text (hblanks line hline)) hwithin
    runScript_nil

/-- Without a carriage return in front nothing changes, and with one the last of the lines gives its
variable another value. -/
theorem assign_stored_eq_iff {lines : List PlainLine} :
    c.assign (lines.map (·.stored blanks)) = c.assign (lines.map (·.stored [])) ↔
      lines = [] ∨ blanks.head? ≠ some '\r' := by
  constructor
  · intro heq
    rcases List.eq_nil_or_concat lines with rfl | ⟨before, last, rfl⟩
    · exact .inl rfl
    · -- Nothing behind the last line assigns its variable again.
      have hget : ∀ blanks : Text,
          (c.assign ((before.concat last).map (·.stored blanks))).get? last.name =
            some (last.stored blanks).2 := by
        intro blanks
        rw [List.concat_eq_append, List.map_append, Context.assign_append]
        exact (Context.get?_set _ _ _ _).trans (if_pos rfl)
      have hvalue : (last.stored blanks).2 = (last.stored []).2 :=
        Option.some.inj ((hget blanks).symm.trans (heq ▸ hget []))
      exact .inr (last.stored_eq_iff.mp (Prod.ext rfl hvalue))
  · rintro (rfl | hhead)
    · rfl
    · exact congrArg c.assign (List.map_congr_left fun line _ => line.stored_eq_iff.mpr hhead)

/-- Blanks at the ends of lines are not part of the values, except for the carriage returns that
stand right behind a value. Lines that all end with the same blanks come to the same context without
these, if neither script reaches a limit, just when there are no lines or the blanks do not begin
with a carriage return. -/
theorem runScript_plain_lines (limits : Limits) (c : Context) :
    (∀ lines : List (PlainLine × Text), (∀ line ∈ lines, ∀ x ∈ line.2, x ∈ Cursor.blanks) →
      (runScript limits (plainScript lines) c).WithinLimits →
      runScript limits (plainScript lines) c =
        ⟨.ok (), c.assign (lines.map fun (line, blanks) => line.stored blanks)⟩) ∧
    ∀ (lines : List PlainLine) (blanks : Text), (∀ x ∈ blanks, x ∈ Cursor.blanks) →
      (runScript limits (plainScript (lines.map (·, blanks))) c).WithinLimits →
      (runScript limits (plainScript (lines.map (·, []))) c).WithinLimits →
      ((runScript limits (plainScript (lines.map (·, blanks))) c).context =
          (runScript limits (plainScript (lines.map (·, []))) c).context ↔
        lines = [] ∨ blanks.head? ≠ some '\r') := by
  refine ⟨fun lines => runScript_plainScript, fun lines blanks hblanks hwithin hwithin' => ?_⟩
  -- Both scripts are cases of the first part, with the same blanks in every line.
  have hcommon : ∀ {blanks : Text}, (∀ x ∈ blanks, x ∈ Cursor.blanks) →
      (runScript limits (plainScript (lines.map (·, blanks))) c).WithinLimits →
      (runScript limits (plainScript (lines.map (·, blanks))) c).context =
        c.assign (lines.map (·.stored blanks)) := by
    intro blanks hblanks hwithin
    rw [runScript_plainScript (by simpa using fun _ _ => hblanks) hwithin, List.map_map]
    rfl
  rw [hcommon hblanks hwithin, hcommon (by simp) hwithin']
  exact assign_stored_eq_iff

/-- A carriage return behind a space, one right behind the value, and two under two lines. -/
theorem plain_lines_with_carriage_returns :
    runScript {} "A=1 \r\nB=2\r\t\nA=3\n".toList .empty =
        ⟨.ok (), .ofPairs [(['A'], ['3']), (['B'], ['2', '\r'])]⟩ ∧
      (runScript {} "A=1\r\nB=2\r\n".toList .empty).context ≠
        (runScript {} "A=1\nB=2\n".toList .empty).context := by
  let one : PlainLine := ⟨['A'], ['1'], by decide, by decide, forall_mem_of_all (by decide)⟩
  let two : PlainLine := ⟨['B'], ['2'], by decide, by decide, forall_mem_of_all (by decide)⟩
  let three : PlainLine := ⟨['A'], ['3'], by decide, by decide, forall_mem_of_all (by decide)⟩
  constructor
  · exact (runScript_plain_lines {} .empty).1
      [(one, [' ', '\r']), (two, ['\r', '\t']), (three, [])] (by simp [Cursor.blanks])
      (by decide +kernel)
  · intro heq
    have hends := ((runScript_plain_lines {} .empty).2 [one, two] ['\r'] (by simp [Cursor.blanks])
      (by decide +kernel) (by decide +kernel)).mp heq
    exact hends.elim (List.cons_ne_nil _ _) (· rfl)

/-- A value that ends in a carriage return in one style of line ends and not in the other. -/
theorem carriage_return_behind_value :
    runScript {} "A=1\r\n".toList .empty = ⟨.ok (), .ofPairs [(['A'], ['1', '\r'])]⟩ ∧
      runScript {} "A=1\n".toList .empty = ⟨.ok (), .ofPairs [(['A'], ['1'])]⟩ ∧
      Context.ofPairs [(['A'], ['1', '\r'])] ≠ .ofPairs [(['A'], ['1'])] :=
  ⟨Outcome.eq_mk (by decide +kernel) (by decide +kernel),
    Outcome.eq_mk (by decide +kernel) (by decide +kernel), by decide⟩

end EnvScript
