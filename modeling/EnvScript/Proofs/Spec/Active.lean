import EnvScript.Proofs.Glob.Language
import EnvScript.Proofs.Spec.Escape
import Mathlib.Data.List.TakeWhile

/-!
# Active text in front of escaped text

In a spec the value of an unquoted variable keeps its meaning, and quoted text behind it is escaped.
The two stay apart, for the splitting of the spec and as parts of a pattern, unless the active text
ends with a backslash that is left to escape what follows.
-/

namespace EnvScript

namespace Spec

/-- The text ends with a backslash that escapes nothing of it. -/
def endsEscaping : Text → Bool
  | [] => false
  | '\\' :: t =>
    match t with
    | [] => true
    | _ :: t => endsEscaping t
  | _ :: t => endsEscaping t

theorem endsEscaping_cons {c : Char} (hc : c ≠ '\\') (t : Text) :
    endsEscaping (c :: t) = endsEscaping t := by
  conv => lhs; unfold endsEscaping
  split
  · rename_i heq
    exact absurd heq (by simp)
  · rename_i heq
    exact absurd (List.cons.inj heq).1 hc
  · rename_i heq
    rw [(List.cons.inj heq).2]

theorem endsEscaping_append {s : Text} (hs : '\\' ∉ s) (t : Text) :
    endsEscaping (s ++ t) = endsEscaping t := by
  induction s with
  | nil => rfl
  | cons c s ih =>
    obtain ⟨hc, hs⟩ := not_or.mp (List.mem_cons.not.mp hs)
    rw [List.cons_append, endsEscaping_cons (Ne.symm hc), ih hs]

/-- A spec does not split in a text without the separator, and goes on behind it afresh. -/
theorem split_append {separator : Char} {v : Text} (hv : separator ∉ v)
    (hends : endsEscaping v = false) (t : Text) :
    split separator (v ++ t) =
      (split separator t).map fun (left, right) => (v ++ left, right) := by
  fun_induction endsEscaping v with
  | case1 => simp
  | case2 => exact absurd hends (by simp)
  | case3 c v ih =>
    have hv' : separator ∉ v := fun h => hv (by simp [h])
    show (split separator (v ++ t)).map _ = _
    rw [ih hv' hends, Option.map_map]
    rfl
  | case4 c v hc ih =>
    obtain ⟨hne, hv'⟩ := not_or.mp (List.mem_cons.not.mp hv)
    rw [List.cons_append, split_cons separator c _ hc, if_neg (Ne.symm hne), ih hv' hends,
      Option.map_map]
    rfl

/-- Escaped text begins with no character that means something, but for its backslashes. -/
theorem head?_escape (s : Text) {c : Char} (hc : isActive c = true) (hb : c ≠ '\\') :
    (escape s).head? ≠ some c := by
  cases s with
  | nil => simp [escape]
  | cons d s =>
    rw [escape_cons]
    by_cases hd : isActive d = true
    · rw [if_pos hd]
      simpa using Ne.symm hb
    · rw [if_neg hd]
      intro h
      obtain rfl := Option.some.inj h
      exact hd hc

end Spec

/-! ## Bracket expressions -/

theorem splitClass_cons {c : Char} {t : Text} (h : c = ':' → t.head? ≠ some ']') :
    splitClass (c :: t) = (splitClass t).map fun (name, rest) => (c :: name, rest) := by
  conv => lhs; unfold splitClass
  split
  · rename_i heq
    exact absurd heq (by simp)
  · rename_i heq
    obtain ⟨rfl, rfl⟩ := List.cons.inj heq
    exact absurd rfl (h rfl)
  · rename_i heq
    obtain ⟨rfl, rfl⟩ := List.cons.inj heq
    rfl

theorem append_of_splitClass {t name rest : Text} (h : splitClass t = some (name, rest)) :
    t = name ++ ':' :: ']' :: rest := by
  fun_induction splitClass t generalizing name with
  | case1 => exact absurd h (by simp)
  | case2 t =>
    obtain ⟨rfl, rfl⟩ := Prod.mk.inj (Option.some.inj h)
    rfl
  | case3 c t _ ih =>
    obtain ⟨⟨name', rest'⟩, hsplit, heq⟩ := Option.map_eq_some_iff.mp h
    obtain ⟨rfl, rfl⟩ := Prod.mk.inj heq
    rw [ih hsplit]
    rfl

theorem splitClass_append {t name rest : Text} (h : splitClass t = some (name, rest)) (u : Text) :
    splitClass (t ++ u) = some (name, rest ++ u) := by
  fun_induction splitClass t generalizing name with
  | case1 => exact absurd h (by simp)
  | case2 t =>
    obtain ⟨rfl, rfl⟩ := Prod.mk.inj (Option.some.inj h)
    rfl
  | case3 c t hclose ih =>
    obtain ⟨⟨name', rest'⟩, hsplit, heq⟩ := Option.map_eq_some_iff.mp h
    obtain ⟨rfl, rfl⟩ := Prod.mk.inj heq
    have hhead : c = ':' → (t ++ u).head? ≠ some ']' := by
      intro hc
      cases t with
      | nil => exact absurd hsplit (by simp [splitClass])
      | cons d t =>
        intro hd
        rw [List.cons_append, List.head?_cons] at hd
        exact hclose t hc (congrArg (· :: t) (Option.some.inj hd))
    rw [List.cons_append, splitClass_cons hhead, ih hsplit]
    rfl

/-- No `:]` begins in escaped text, nor with the last character in front of it. -/
theorem splitClass_append_escape {t : Text} (h : splitClass t = none) (s : Text) :
    splitClass (t ++ Spec.escape s) = none := by
  have hhead : (Spec.escape s).head? ≠ some ']' := Spec.head?_escape s (by decide) (by decide)
  have hescape : ∀ s, splitClass (Spec.escape s) = none := by
    intro s
    induction s with
    | nil => rfl
    | cons c s ih =>
      have hnext : (Spec.escape s).head? ≠ some ']' := Spec.head?_escape s (by decide) (by decide)
      have hcons : splitClass (c :: Spec.escape s) = none := by
        rw [splitClass_cons fun _ => hnext, ih]
        rfl
      rw [Spec.escape_cons]
      by_cases hc : Spec.isActive c = true
      · rw [if_pos hc]
        show splitClass ('\\' :: c :: Spec.escape s) = none
        rw [splitClass_cons (by simp), hcons]
        rfl
      · rw [if_neg hc]
        exact hcons
  fun_induction splitClass t with
  | case1 => exact hescape s
  | case2 => exact absurd h (by simp)
  | case3 c t hclose ih =>
    have hnone := Option.map_eq_none_iff.mp h
    have hnext : c = ':' → (t ++ Spec.escape s).head? ≠ some ']' := by
      intro hc
      cases t with
      | nil => exact hhead
      | cons d t =>
        intro hd
        rw [List.cons_append, List.head?_cons] at hd
        exact hclose t hc (congrArg (· :: t) (Option.some.inj hd))
    rw [List.cons_append, splitClass_cons hnext, ih hnone]
    rfl

theorem backslash_not_mem_of_namedClasses {name : Text} {atoms : List Atom}
    (h : namedClasses.lookup name = some atoms) : '\\' ∉ name := by
  have hall : ∀ e ∈ namedClasses, '\\' ∉ e.1 := by decide
  exact hall (name, atoms) (mem_of_lookup h)

section

variable {c : Char} {t name rest : Text}

theorem leadingClass?_eq_some_iff :
    leadingClass? c t = some (name, rest) ↔
      ∃ u, c = '[' ∧ t = ':' :: u ∧ splitClass u = some (name, rest) := by
  constructor
  · intro h
    unfold leadingClass? at h
    split at h
    · rename_i u
      split at h
      next hc => exact ⟨u, hc, rfl, h⟩
      next => exact absurd h (by simp)
    · exact absurd h (by simp)
  · rintro ⟨u, rfl, rfl, h⟩
    exact h

/-- Neither escaped text nor a name that it ends is the name of a class. -/
theorem leadingClass?_append_escape (h : leadingClass? c t = none) (s : Text) :
    leadingClass? c (t ++ Spec.escape s) = none := by
  refine Option.eq_none_iff_forall_ne_some.mpr ?_
  rintro ⟨name, rest⟩ hclass
  obtain ⟨u, rfl, htext, hsplit⟩ := leadingClass?_eq_some_iff.mp hclass
  cases t with
  | nil =>
    have hhead : (Spec.escape s).head? ≠ some ':' := Spec.head?_escape s (by decide) (by decide)
    rw [List.nil_append] at htext
    exact hhead (congrArg List.head? htext)
  | cons d t =>
    obtain ⟨rfl, rfl⟩ := List.cons.inj htext
    have hnone : splitClass (t ++ Spec.escape s) = none := splitClass_append_escape h s
    exact absurd (hnone.symm.trans hsplit) (by simp)

/-- The name of a class has no backslash, nor have the signs around it. -/
theorem endsEscaping_of_leadingClass? (h : leadingClass? c t = some (name, rest))
    (hname : '\\' ∉ name) : Spec.endsEscaping (c :: t) = Spec.endsEscaping rest := by
  obtain ⟨u, rfl, rfl, hsplit⟩ := leadingClass?_eq_some_iff.mp h
  have htext : '[' :: ':' :: u = ('[' :: ':' :: (name ++ [':', ']'])) ++ rest := by
    rw [append_of_splitClass hsplit]
    simp
  have hsigns : '\\' ∉ '[' :: ':' :: (name ++ [':', ']']) := by simp [hname]
  rw [htext, Spec.endsEscaping_append hsigns]

end

theorem readMember_of_plain {c : Char} {t : Text} (h : leadingClass? c t = none) (hc : c ≠ '\\') :
    readMember c t = .ok ([memberAtom c], t) := by
  unfold readMember
  rw [h]
  dsimp only
  split
  · exact absurd rfl hc
  · rfl

section

variable {t rest : Text} {members : List Atom}

/-- A member is read in the same way with escaped text behind what follows it, and the backslashes
that it takes are in pairs. -/
theorem readMember_append_escape {c : Char} (h : readMember c t = .ok (members, rest))
    (hrest : rest ≠ []) (s : Text) :
    readMember c (t ++ Spec.escape s) = .ok (members, rest ++ Spec.escape s) ∧
      Spec.endsEscaping (c :: t) = Spec.endsEscaping rest := by
  cases hclass : leadingClass? c t with
  | some found =>
    obtain ⟨name, rest'⟩ := found
    obtain ⟨u, rfl, rfl, hsplit⟩ := leadingClass?_eq_some_iff.mp hclass
    have hmore : leadingClass? '[' (':' :: u ++ Spec.escape s) =
        some (name, rest' ++ Spec.escape s) :=
      leadingClass?_eq_some_iff.mpr ⟨_, rfl, rfl, splitClass_append hsplit _⟩
    unfold readMember at h ⊢
    rw [hclass] at h
    rw [hmore]
    dsimp only at h ⊢
    cases hlookup : namedClasses.lookup name with
    | none =>
      rw [hlookup] at h
      exact absurd h (by simp)
    | some atoms =>
      rw [hlookup] at h
      obtain ⟨rfl, rfl⟩ := Prod.mk.inj (Except.ok.inj h)
      exact ⟨rfl, endsEscaping_of_leadingClass? hclass (backslash_not_mem_of_namedClasses hlookup)⟩
  | none =>
    have hmore := leadingClass?_append_escape hclass s
    by_cases hc : c = '\\'
    · subst hc
      unfold readMember at h ⊢
      rw [hclass] at h
      rw [hmore]
      -- The backslash takes the next character with it, so the text does not end here.
      cases t with
      | nil =>
        obtain ⟨-, rfl⟩ := Prod.mk.inj (Except.ok.inj h)
        exact absurd rfl hrest
      | cons d u =>
        obtain ⟨rfl, rfl⟩ := Prod.mk.inj (Except.ok.inj h)
        exact ⟨rfl, rfl⟩
    · rw [readMember_of_plain hclass hc] at h
      rw [readMember_of_plain hmore hc]
      obtain ⟨rfl, rfl⟩ := Prod.mk.inj (Except.ok.inj h)
      exact ⟨rfl, Spec.endsEscaping_cons hc _⟩

theorem readMembers_append_escape {first : Bool} (h : readMembers first t = .ok (members, rest))
    (s : Text) :
    readMembers first (t ++ Spec.escape s) = .ok (members, rest ++ Spec.escape s) ∧
      Spec.endsEscaping t = Spec.endsEscaping rest := by
  fun_induction readMembers first t generalizing members with
  | case1 => exact absurd h (by simp)
  | case2 first c t hclose =>
    obtain ⟨rfl, rfl⟩ := Prod.mk.inj (Except.ok.inj h)
    rw [List.cons_append, readMembers, if_pos hclose]
    exact ⟨rfl, Spec.endsEscaping_cons (by rw [hclose.1]; decide) _⟩
  | case3 first c t hclose members' rest' hmember ih =>
    obtain ⟨⟨others, rest''⟩, hothers, heq⟩ := exceptMap_eq_ok h
    obtain ⟨rfl, rfl⟩ := Prod.mk.inj heq
    have hne : rest' ≠ [] := by
      rintro rfl
      rw [readMembers] at hothers
      exact absurd hothers (by simp)
    obtain ⟨hmember', hends⟩ := readMember_append_escape hmember hne s
    obtain ⟨hothers', hends'⟩ := ih hothers
    refine ⟨?_, hends.trans hends'⟩
    rw [List.cons_append, readMembers, if_neg hclose]
    split
    · rename_i members₁ rest₁ heq
      obtain ⟨rfl, rfl⟩ := Prod.mk.inj (Except.ok.inj (hmember'.symm.trans heq))
      rw [hothers']
      rfl
    · rename_i fault heq
      exact absurd (hmember'.symm.trans heq) (by simp)
  | case4 => exact absurd h (by simp)

theorem map_readMembers_append_escape {item : Item} {negated : Bool}
    (h : (readMembers true t).map (fun (members, rest) => (Item.bracket negated members, rest)) =
      .ok (item, rest)) (s : Text) :
    (readMembers true (t ++ Spec.escape s)).map
        (fun (members, rest) => (Item.bracket negated members, rest)) =
      .ok (item, rest ++ Spec.escape s) ∧ Spec.endsEscaping t = Spec.endsEscaping rest := by
  obtain ⟨⟨members, rest'⟩, hmembers, heq⟩ := exceptMap_eq_ok h
  obtain ⟨rfl, rfl⟩ := Prod.mk.inj heq
  obtain ⟨hmore, hends⟩ := readMembers_append_escape hmembers s
  rw [hmore]
  exact ⟨rfl, hends⟩

theorem readBracket_append_escape {item : Item} (h : readBracket t = .ok (item, rest)) (s : Text) :
    readBracket (t ++ Spec.escape s) = .ok (item, rest ++ Spec.escape s) ∧
      Spec.endsEscaping t = Spec.endsEscaping rest := by
  cases t with
  | nil =>
    have hnil : readBracket [] = .error .unterminated := by
      rw [readBracket, readMembers]
      · rfl
      · simp
      · simp
    rw [hnil] at h
    exact absurd h (by simp)
  | cons c t =>
    by_cases hbang : c = '!'
    · subst hbang
      obtain ⟨hmore, hends⟩ := map_readMembers_append_escape h s
      exact ⟨hmore, (Spec.endsEscaping_cons (by decide) t).trans hends⟩
    · by_cases hcaret : c = '^'
      · subst hcaret
        obtain ⟨hmore, hends⟩ := map_readMembers_append_escape h s
        exact ⟨hmore, (Spec.endsEscaping_cons (by decide) t).trans hends⟩
      -- Without a sign in front the members begin at once.
      · have hplain : ∀ u : Text, readBracket (c :: u) = (readMembers true (c :: u)).map
            fun (members, rest) => (Item.bracket false members, rest) := by
          intro u
          rw [readBracket]
          · intro v hv
            exact hbang (List.cons.inj hv).1
          · intro v hv
            exact hcaret (List.cons.inj hv).1
        rw [hplain] at h
        rw [List.cons_append, hplain]
        exact map_readMembers_append_escape h s

end

/-! ## Patterns -/

theorem readItems_append_escape {v : Text} {glob : Glob} (h : readItems v = .ok glob)
    (hends : Spec.endsEscaping v = false) (s : Text) :
    readItems (v ++ Spec.escape s) = .ok (glob ++ s.map .exactly) := by
  fun_induction readItems v generalizing glob with
  | case1 =>
    rw [← Except.ok.inj h]
    exact readItems_escape s
  | case2 v ih =>
    obtain ⟨rest, hrest, rfl⟩ := exceptMap_eq_ok h
    have hstar : (Spec.escape s).head? ≠ some '*' := Spec.head?_escape s (by decide) (by decide)
    -- The stars end where the escaped text begins, if not before.
    have hdrop : (v ++ Spec.escape s).dropWhile (· == '*') =
        v.dropWhile (· == '*') ++ Spec.escape s := by
      rw [List.dropWhile_append]
      split
      · rename_i hempty
        rw [List.isEmpty_iff.mp hempty, List.nil_append]
        cases hescape : Spec.escape s with
        | nil => rfl
        | cons c u =>
          rw [List.dropWhile_cons_of_neg]
          rw [hescape] at hstar
          simpa using hstar
      · rfl
    have hends' : Spec.endsEscaping (v.dropWhile (· == '*')) = false := by
      rw [Spec.endsEscaping_cons (by decide)] at hends
      rw [← hends]
      conv => rhs; rw [← List.takeWhile_append_dropWhile (p := (· == '*')) (l := v)]
      rw [Spec.endsEscaping_append]
      intro hmem
      exact absurd (List.mem_takeWhile_imp hmem) (by decide)
    rw [List.cons_append, readItems, hdrop, ih hrest hends']
    rfl
  | case3 v ih =>
    obtain ⟨rest, hrest, rfl⟩ := exceptMap_eq_ok h
    rw [Spec.endsEscaping_cons (by decide)] at hends
    rw [List.cons_append, readItems, ih hrest hends]
    rfl
  | case4 c v ih =>
    obtain ⟨rest, hrest, rfl⟩ := exceptMap_eq_ok h
    rw [List.cons_append, List.cons_append, readItems, ih hrest hends]
    rfl
  | case5 v item rest hitem ih =>
    obtain ⟨more, hmore, rfl⟩ := exceptMap_eq_ok h
    obtain ⟨hitem', hends'⟩ := readBracket_append_escape hitem s
    rw [Spec.endsEscaping_cons (by decide), hends'] at hends
    rw [List.cons_append, readItems]
    split
    · rename_i item₁ rest₁ heq
      obtain ⟨rfl, rfl⟩ := Prod.mk.inj (Except.ok.inj (hitem'.symm.trans heq))
      rw [ih hmore hends]
      rfl
    · rename_i fault heq
      exact absurd (hitem'.symm.trans heq) (by simp)
  | case6 => exact absurd h (by simp)
  | case7 c v hstar hany hescape hbracket ih =>
    obtain ⟨rest, hrest, rfl⟩ := exceptMap_eq_ok h
    -- A backslash that reaches this case ends the text, which is ruled out.
    have hc : c ≠ '\\' := by
      rintro rfl
      cases v with
      | nil => exact absurd hends (by simp [Spec.endsEscaping])
      | cons d v => exact hescape d v rfl rfl
    have hplain : c ∉ ['*', '?', '\\', '['] := by
      simp only [List.mem_cons, List.not_mem_nil, or_false, not_or]
      exact ⟨hstar, hany, hc, hbracket⟩
    rw [Spec.endsEscaping_cons hc] at hends
    rw [List.cons_append, readItems_cons c _ hplain, ih hrest hends]
    rfl

end EnvScript
