import EnvScript.Proofs.Command.Enclosed
import EnvScript.Proofs.Script.Separated

/-!
# Compound commands in one another

The words of brace groups, subshells, conditionals and loops, nested in any way. A compound command
leaves nothing open if a `;` stands in front of each `}`, `fi` and `done` in it. Where one of them
stands right behind another compound command, it is taken for an argument and closes nothing.
-/

namespace EnvScript

namespace Nested

mutual

inductive Compound where
  | braceGroup (body : Body)
  | subshell (body : Body)
  | ifClause (condition consequence : Body)
  | whileLoop (condition body : Body)

/-- Items with a `;` behind each. The last one may be a compound command without it. -/
inductive Body where
  | item (i : Item)
  | bare (c : Compound)
  | cons (i : Item) (rest : Body)

inductive Item where
  | assignment (w : Text) (hw : IsAssignment w)
  | compound (c : Compound)

end

def Compound.kind : Compound → CompoundKind
  | .braceGroup _ => .braceGroup
  | .subshell _ => .subshell
  | .ifClause .. => .ifClause
  | .whileLoop .. => .whileLoop

mutual

def Compound.words : Compound → List Text
  | .braceGroup body => ['{'] :: (body.words ++ [['}']])
  | .subshell body => ['('] :: (body.words ++ [[')']])
  | .ifClause condition consequence =>
    "if".toList :: (condition.words ++ "then".toList :: (consequence.words ++ ["fi".toList]))
  | .whileLoop condition body =>
    "while".toList :: (condition.words ++ "do".toList :: (body.words ++ ["done".toList]))

def Body.words : Body → List Text
  | .item i => i.words ++ [[';']]
  | .bare c => c.words
  | .cons i rest => i.words ++ [';'] :: rest.words

def Item.words : Item → List Text
  | .assignment w _ => [w]
  | .compound c => c.words

end

def Body.endsInSemi : Body → Bool
  | .item _ => true
  | .bare _ => false
  | .cons _ rest => rest.endsInSemi

mutual

/-- A `;` stands in front of each `}`, `fi` and `done`. -/
def Compound.Punctuated : Compound → Prop
  | .braceGroup body => body.Punctuated ∧ body.endsInSemi = true
  | .subshell body => body.Punctuated
  | .ifClause condition consequence =>
    condition.Punctuated ∧ consequence.Punctuated ∧ consequence.endsInSemi = true
  | .whileLoop condition body =>
    condition.Punctuated ∧ body.Punctuated ∧ body.endsInSemi = true

def Body.Punctuated : Body → Prop
  | .item i => i.Punctuated
  | .bare c => c.Punctuated
  | .cons i rest => i.Punctuated ∧ rest.Punctuated

def Item.Punctuated : Item → Prop
  | .assignment .. => True
  | .compound c => c.Punctuated

end

/-! ## Words as tokens -/

/-- The words that are operators. -/
def signs : List (Text × Operator) :=
  [([';'], .semi), (['('], .leftParen), ([')'], .rightParen)]

/-- A token with this text. -/
def token (w : Text) : Token :=
  ⟨match signs.lookup w with
    | some o => .operator o
    | none => .word [], w, .start, .start⟩

theorem kind_token (w : Text) : (token w).kind ≠ .eof := by
  unfold token Token.kind
  cases signs.lookup w <;> exact Kind.noConfusion

/-- What closes the compound commands. -/
def closing : List Text := [['}'], "fi".toList, "done".toList, [')']]

/-- Only such compound commands are still to be closed. -/
def Awaits (closers : List Text) : Prop := ∀ x ∈ closers, x ∈ closing

variable {closers extra ws us : List Text} {w : Text} {commandStart b b' : Bool}
  {start : List Text × Bool} {P Q : Prop}

theorem equals_mem (hw : IsAssignment w) : '=' ∈ w := by
  obtain ⟨limits, t, newline, e, htokens, -, htext, hassignment, -⟩ := hw
  obtain ⟨a, ha⟩ := Option.isSome_iff_exists.mp hassignment
  obtain ⟨s', hyields⟩ := Scanner.yields_of_tokensUpTo htokens
  rw [← htext]
  exact Token.equals_mem_text ha (hyields.spelled t List.mem_cons_self)

theorem lookup_signs (hw : IsAssignment w) : signs.lookup w = none := by
  cases hlookup : signs.lookup w with
  | none => rfl
  | some o =>
    have hall : ∀ p ∈ signs, '=' ∉ p.1 := forall_mem_of_all (by decide)
    exact absurd (equals_mem hw) (hall _ (mem_of_lookup hlookup))

theorem Awaits.cons (hw : w ∈ closing) (h : Awaits closers) : Awaits (w :: closers) :=
  List.forall_mem_cons.mpr ⟨hw, h⟩

theorem Awaits.append (hextra : Awaits extra) (h : Awaits closers) : Awaits (extra ++ closers) :=
  List.forall_mem_append.mpr ⟨hextra, h⟩

/-! ## One word -/

theorem step_word (hw : signs.lookup w = none) (closers : List Text) (b : Bool) :
    closersAfter closers b (token w) =
        (if closers.head? = some w ∧ (b = true ∨ w = [']', ']']) then closers.tail
        else if b = true then
          match CompoundKind.ofOpener? w with
          | some kind => kind.closer :: closers
          | none => closers
        else closers) ∧
      (token w).startsCommand = commandWords.contains w := by
  unfold token
  rw [hw]
  exact ⟨rfl, rfl⟩

theorem step_semi (closers : List Text) (b : Bool) :
    closersAfter closers b (token [';']) = closers ∧ (token [';']).startsCommand = true :=
  ⟨rfl, rfl⟩

theorem step_rightParen (closers : List Text) (b : Bool) :
    closersAfter closers b (token [')']) =
        (if closers.head? = some [')'] then closers.tail else closers) ∧
      (token [')']).startsCommand = false :=
  ⟨rfl, rfl⟩

/-- A compound command is opened, since none of these words closes one. -/
theorem step_opener {c : Compound} (hne : closers ≠ []) (h : Awaits closers) :
    ∃ w, c.words.head? = some w ∧
      closersAfter closers true (token w) = c.kind.closer :: closers ∧
      (token w).startsCommand = true := by
  obtain ⟨x, closers, rfl⟩ := List.exists_cons_of_ne_nil hne
  have hx := h x List.mem_cons_self
  simp only [closing, List.mem_cons, List.not_mem_nil, or_false] at hx
  cases c with
  | braceGroup body =>
    refine ⟨_, rfl, ?_, rfl⟩
    rcases hx with rfl | rfl | rfl | rfl <;> rfl
  | subshell body =>
    refine ⟨_, rfl, ?_, rfl⟩
    rcases hx with rfl | rfl | rfl | rfl <;> rfl
  | ifClause condition consequence =>
    refine ⟨_, rfl, ?_, rfl⟩
    rcases hx with rfl | rfl | rfl | rfl <;> rfl
  | whileLoop condition body =>
    refine ⟨_, rfl, ?_, rfl⟩
    rcases hx with rfl | rfl | rfl | rfl <;> rfl

/-- These words close nothing, and a command begins behind them. -/
theorem step_middle (hw : w = "then".toList ∨ w = "do".toList) (hne : closers ≠ [])
    (h : Awaits closers) :
    closersAfter closers b (token w) = closers ∧ (token w).startsCommand = true := by
  obtain ⟨x, closers, rfl⟩ := List.exists_cons_of_ne_nil hne
  have hx := h x List.mem_cons_self
  simp only [closing, List.mem_cons, List.not_mem_nil, or_false] at hx
  rcases hw with rfl | rfl <;> rcases hx with rfl | rfl | rfl | rfl <;> cases b <;>
    exact ⟨rfl, rfl⟩

/-- An assignment is no reserved word. -/
theorem step_assignment (hw : IsAssignment w) (hne : closers ≠ []) (h : Awaits closers) :
    closersAfter closers b (token w) = closers ∧ (token w).startsCommand = false := by
  have hequals := equals_mem hw
  have hhead : closers.head? ≠ some w := by
    obtain ⟨x, closers, rfl⟩ := List.exists_cons_of_ne_nil hne
    have hclosing : ∀ x ∈ closing, '=' ∉ x := forall_mem_of_all (by decide)
    intro heq
    exact hclosing x (h x List.mem_cons_self) (Option.some.inj heq ▸ hequals)
  have hopener : CompoundKind.ofOpener? w = none := by
    cases hopener : CompoundKind.ofOpener? w with
    | none => rfl
    | some kind => exact absurd hequals (equals_not_mem_of_ofOpener? hopener)
  have hcommand : ∀ x ∈ commandWords, '=' ∉ x := forall_mem_of_all (by decide)
  obtain ⟨hstep, hstart⟩ := step_word (lookup_signs hw) closers b
  rw [hstep, hstart, if_neg (fun h => hhead h.1), hopener, ← Bool.not_eq_true,
    List.contains_iff_mem]
  refine ⟨?_, fun hmem => hcommand w hmem hequals⟩
  split <;> rfl

/-- A closing word closes what is to be closed first, if that is what it closes and a command may
begin. -/
theorem step_closing (hw : w ∈ [['}'], "fi".toList, "done".toList]) :
    closersAfter closers b (token w) =
        (if closers.head? = some w ∧ b = true then closers.tail else closers) ∧
      (token w).startsCommand = false := by
  have hwords : ∀ w ∈ [['}'], "fi".toList, "done".toList], signs.lookup w = none ∧
      CompoundKind.ofOpener? w = none ∧ w ≠ [']', ']'] ∧ commandWords.contains w = false :=
    forall_mem_of_all (by decide)
  obtain ⟨hsigns, hopener, hbrackets, hcommand⟩ := hwords w hw
  obtain ⟨hstep, hstart⟩ := step_word hsigns closers b
  rw [hstep, hstart, hopener, hcommand]
  simp [hbrackets]

/-! ## What is left open -/

/-- From `start` the words leave something open in front of `closers`, unless `P` holds, and behind
them a command may begin or not. -/
def Leaves (start : List Text × Bool) (closers ws : List Text) (b : Bool) (P : Prop) : Prop :=
  ∃ extra, Awaits extra ∧ (extra = [] ↔ P) ∧ Passes start (ws.map token) (extra ++ closers, b)

theorem Leaves.mono (h : Leaves start closers ws b P) (hPQ : P ↔ Q) :
    Leaves start closers ws b Q := by
  obtain ⟨extra, hextra, hP, hpasses⟩ := h
  exact ⟨extra, hextra, hP.trans hPQ, hpasses⟩

/-- A word that opens and closes nothing. -/
theorem leaves_single (hne : closers ≠ [])
    (h : closersAfter closers b (token w) = closers ∧ (token w).startsCommand = b') :
    Leaves (closers, b) closers [w] b' True := by
  refine ⟨[], fun _ hx => absurd hx (by simp), by simp, ?_⟩
  have hpasses : Passes (closers, b) [token w] (closersAfter closers b (token w), _) :=
    .single hne (kind_token w)
  rw [h.1, h.2] at hpasses
  exact hpasses

theorem Leaves.append (h : Leaves start closers ws b P) (hne : closers ≠ []) (hK : Awaits closers)
    (h' : ∀ K, K ≠ [] → Awaits K → Leaves (K, b) K us b' Q) :
    Leaves start closers (ws ++ us) b' (P ∧ Q) := by
  obtain ⟨extra, hextra, hP, hpasses⟩ := h
  obtain ⟨extra', hextra', hQ, hpasses'⟩ :=
    h' (extra ++ closers) (List.append_ne_nil_of_right_ne_nil extra hne) (hextra.append hK)
  refine ⟨extra' ++ extra, hextra'.append hextra, ?_, ?_⟩
  · rw [List.append_eq_nil_iff, hP, hQ, and_comm]
  · rw [List.map_append, List.append_assoc]
    exact hpasses.append hpasses'

/-- A closer takes off what stands in front, and may leave what it should have closed. -/
theorem Leaves.close [Decidable Q] (hw : w ∈ closing) (h : Leaves start (w :: closers) ws b P)
    (hstep : ∀ K, closersAfter K b (token w) = (if K.head? = some w ∧ Q then K.tail else K) ∧
      (token w).startsCommand = false) :
    Leaves start closers (ws ++ [w]) false (P ∧ Q) := by
  obtain ⟨extra, hextra, hP, hpasses⟩ := h
  obtain ⟨hafter, hstart⟩ := hstep (extra ++ w :: closers)
  have hlast : Passes start ((ws ++ [w]).map token)
      (if (extra ++ w :: closers).head? = some w ∧ Q then (extra ++ w :: closers).tail
        else extra ++ w :: closers, false) := by
    rw [List.map_append, ← hafter, ← hstart]
    exact hpasses.append (.single (by simp) (kind_token w))
  cases extra with
  | nil =>
    by_cases hQ : Q
    · rw [if_pos ⟨rfl, hQ⟩] at hlast
      exact ⟨[], hextra, by simp [← hP, hQ], hlast⟩
    · rw [if_neg (fun h => hQ h.2)] at hlast
      exact ⟨[w], Awaits.cons hw hextra, by simp [hQ], hlast⟩
  | cons x extra =>
    obtain ⟨hx, hextra⟩ := List.forall_mem_cons.mp hextra
    have hopen : ∀ K : List Text, extra ++ w :: K = (extra ++ [w]) ++ K := by simp
    have hawaits : Awaits (extra ++ [w]) :=
      Awaits.append hextra (Awaits.cons hw fun _ hx => absurd hx (by simp))
    split at hlast
    · rw [List.cons_append, List.tail_cons, hopen] at hlast
      exact ⟨extra ++ [w], hawaits, by simp [← hP], hlast⟩
    · rw [List.cons_append, hopen, ← List.cons_append] at hlast
      exact ⟨x :: (extra ++ [w]), Awaits.cons hx hawaits, by simp [← hP], hlast⟩

/-- An opener and what is left open behind it. -/
theorem Compound.leaves_words {c : Compound} (hne : closers ≠ []) (hK : Awaits closers)
    (h : Leaves (c.kind.closer :: closers, true) closers c.words.tail false P) :
    Leaves (closers, true) closers c.words false P := by
  obtain ⟨w, hw, hstep, hstart⟩ := step_opener (c := c) hne hK
  obtain ⟨us, hus⟩ := List.head?_eq_some_iff.mp hw
  obtain ⟨extra, hextra, hP, hpasses⟩ := h
  refine ⟨extra, hextra, hP, ?_⟩
  rw [hus, List.map_cons]
  apply Passes.cons hne (kind_token w)
  rw [hstep, hstart]
  rwa [hus] at hpasses

/-! ## All the words -/

/-- Behind a word like `then` or `;` the second list begins. -/
theorem Leaves.middle {middle : Text} (hne : closers ≠ []) (hK : Awaits closers)
    (h : Leaves start closers ws b P)
    (hstep : ∀ K, K ≠ [] → Awaits K →
      closersAfter K b (token middle) = K ∧ (token middle).startsCommand = true)
    (h' : ∀ K, K ≠ [] → Awaits K → Leaves (K, true) K us b' Q) :
    Leaves start closers (ws ++ middle :: us) b' (P ∧ Q) := by
  have hmiddle : Leaves start closers (ws ++ [middle]) true (P ∧ True) :=
    h.append hne hK fun K hKne hK => leaves_single hKne (hstep K hKne hK)
  have hboth := hmiddle.append hne hK h'
  rw [List.append_assoc, List.singleton_append] at hboth
  exact hboth.mono (by rw [and_true])

mutual

/-- The words behind the opener leave nothing open if the compound command is punctuated, and
something otherwise. -/
theorem Compound.leaves (c : Compound) (closers : List Text) (hK : Awaits closers) :
    Leaves (c.kind.closer :: closers, true) closers c.words.tail false c.Punctuated := by
  cases c with
  | braceGroup body =>
    have hopen : Awaits (['}'] :: closers) := .cons (by decide) hK
    have hbody := body.leaves _ (List.cons_ne_nil _ _) hopen
    exact hbody.close (by decide) fun K => step_closing (by decide)
  | subshell body =>
    have hopen : Awaits ([')'] :: closers) := .cons (by decide) hK
    have hbody := body.leaves _ (List.cons_ne_nil _ _) hopen
    have hclosed : Leaves ([')'] :: closers, true) closers (body.words ++ [[')']]) false
        (body.Punctuated ∧ True) := by
      apply hbody.close (by decide)
      intro K
      simpa using step_rightParen K body.endsInSemi
    exact hclosed.mono (by rw [and_true]; rfl)
  | ifClause condition consequence =>
    have hopen : Awaits ("fi".toList :: closers) := .cons (by decide) hK
    have hcondition := condition.leaves _ (List.cons_ne_nil _ _) hopen
    have hboth := hcondition.middle (List.cons_ne_nil _ _) hopen
      (fun K => step_middle (.inl rfl)) consequence.leaves
    have hclosed := hboth.close (by decide) fun K => step_closing (by decide)
    rw [List.append_assoc] at hclosed
    exact hclosed.mono and_assoc
  | whileLoop condition body =>
    have hopen : Awaits ("done".toList :: closers) := .cons (by decide) hK
    have hcondition := condition.leaves _ (List.cons_ne_nil _ _) hopen
    have hboth := hcondition.middle (List.cons_ne_nil _ _) hopen
      (fun K => step_middle (.inr rfl)) body.leaves
    have hclosed := hboth.close (by decide) fun K => step_closing (by decide)
    rw [List.append_assoc] at hclosed
    exact hclosed.mono and_assoc

theorem Body.leaves (body : Body) (closers : List Text) (hne : closers ≠ [])
    (hK : Awaits closers) :
    Leaves (closers, true) closers body.words body.endsInSemi body.Punctuated := by
  cases body with
  | item i =>
    have hitem : Leaves (closers, true) closers (i.words ++ [[';']]) true (i.Punctuated ∧ True) :=
      (i.leaves _ hne hK).append hne hK fun K hKne _ => leaves_single hKne (step_semi K _)
    exact hitem.mono (by rw [and_true]; rfl)
  | bare c => exact c.leaves_words hne hK (c.leaves closers hK)
  | cons i rest =>
    exact (i.leaves _ hne hK).middle hne hK (fun K _ _ => step_semi K _) rest.leaves

theorem Item.leaves (i : Item) (closers : List Text) (hne : closers ≠ []) (hK : Awaits closers) :
    Leaves (closers, true) closers i.words false i.Punctuated := by
  cases i with
  | assignment w hw => exact leaves_single hne (step_assignment hw hne hK)
  | compound c => exact c.leaves_words hne hK (c.leaves closers hK)

end

end Nested

end EnvScript
