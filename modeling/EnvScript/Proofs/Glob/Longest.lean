import EnvScript.Glob.Matcher
import Mathlib.Order.Bounds.Defs

/-!
# The longest match

`Takes` is the set of the texts that steps match, with no order among the ways to match them. The
matcher tries the longest run first at every `*`; `isGreatest_matchLength` says that it ends at the
greatest end of all.
-/

namespace EnvScript

/-- The texts that steps match from end to end. -/
inductive Takes : Steps → Text → Prop
  | nil : Takes [] []
  | run {rest : Steps} {t : Text} (s : Text) (h : Takes rest t) : Takes (.run :: rest) (s ++ t)
  | char {step : Step} {rest : Steps} {c : Char} {t : Text} (hc : step.accepts c = true)
      (h : Takes rest t) : Takes (step :: rest) (c :: t)

/-! ## Runs -/

theorem greedy_of_some (next : Text → Option Nat) (t : Text) (n : Nat) (h : next t = some n) :
    ∃ m, greedy next t = some m := by
  cases t with
  | nil => exact ⟨n, h⟩
  | cons c t =>
    rw [greedy]
    cases greedy next t with
    | none => exact ⟨n, h⟩
    | some m => exact ⟨m + 1, rfl⟩

/-- A run that succeeds behind `s` succeeds at the same place from the start of `s`. -/
theorem greedy_append (next : Text → Option Nat) (s t : Text) (n : Nat)
    (h : greedy next t = some n) : greedy next (s ++ t) = some (s.length + n) := by
  induction s with
  | nil => rw [List.nil_append, h, List.length_nil, Nat.zero_add]
  | cons c s ih =>
    rw [List.cons_append, greedy, ih, List.length_cons]
    show some (s.length + n + 1) = some (s.length + 1 + n)
    congr 1
    omega

/-- A run takes some of the text, and `next` the part behind that. -/
theorem greedy_eq_some (next : Text → Option Nat) (t : Text) (n : Nat)
    (h : greedy next t = some n) :
    ∃ s u m, t = s ++ u ∧ next u = some m ∧ n = s.length + m := by
  induction t generalizing n with
  | nil => exact ⟨[], [], n, rfl, h, (Nat.zero_add n).symm⟩
  | cons c t ih =>
    rw [greedy] at h
    cases hg : greedy next t with
    | none =>
      rw [hg] at h
      exact ⟨[], c :: t, n, rfl, h, (Nat.zero_add n).symm⟩
    | some k =>
      rw [hg] at h
      obtain ⟨s, u, m, ht, hm, hk⟩ := ih k hg
      have hn : n = k + 1 := (Option.some.inj h).symm
      refine ⟨c :: s, u, m, by rw [ht, List.cons_append], hm, ?_⟩
      rw [List.length_cons]
      omega

/-! ## The matcher -/

/-- A step that takes one character matches it and goes on behind it. -/
theorem matchLength_cons_cons (step : Step) (rest : Steps) (c : Char) (t : Text)
    (hstep : step ≠ .run) :
    matchLength (step :: rest) (c :: t) =
      if step.accepts c = true then (matchLength rest t).map (· + 1) else none := by
  cases step with
  | run => exact absurd rfl hstep
  | any => rfl
  | exactly d => rfl
  | oneOf negated members => rfl

theorem matchLength_cons_nil (step : Step) (rest : Steps) (hstep : step ≠ .run) :
    matchLength (step :: rest) [] = none := by
  cases step with
  | run => exact absurd rfl hstep
  | any => rfl
  | exactly d => rfl
  | oneOf negated members => rfl

/-- What a step that takes one character makes of a text. -/
theorem matchLength_eq_some_of_ne_run (step : Step) (rest : Steps) (t : Text) (n : Nat)
    (hstep : step ≠ .run) (h : matchLength (step :: rest) t = some n) :
    ∃ c u m, t = c :: u ∧ step.accepts c = true ∧ matchLength rest u = some m ∧ n = m + 1 := by
  cases t with
  | nil =>
    rw [matchLength_cons_nil step rest hstep] at h
    exact absurd h (by simp)
  | cons c u =>
    rw [matchLength_cons_cons step rest c u hstep] at h
    split at h
    next hc =>
      obtain ⟨m, hm, hn⟩ := Option.map_eq_some_iff.mp h
      exact ⟨c, u, m, rfl, hc, hm, hn.symm⟩
    next => exact absurd h (by simp)

theorem matchLength_sound (steps : Steps) (t : Text) (n : Nat) (h : matchLength steps t = some n) :
    n ≤ t.length ∧ Takes steps (t.take n) := by
  induction steps generalizing t n with
  | nil =>
    have hn : n = 0 := (Option.some.inj h).symm
    rw [hn, List.take_zero]
    exact ⟨Nat.zero_le _, .nil⟩
  | cons step rest ih =>
    -- A step is a run or takes exactly one character.
    by_cases hstep : step = .run
    · subst hstep
      obtain ⟨s, u, m, ht, hm, hn⟩ := greedy_eq_some (matchLength rest) t n h
      obtain ⟨hle, htakes⟩ := ih u m hm
      rw [ht, hn, List.length_append, List.take_length_add_append]
      exact ⟨by omega, .run s htakes⟩
    · obtain ⟨c, u, m, ht, hc, hm, hn⟩ := matchLength_eq_some_of_ne_run step rest t n hstep h
      obtain ⟨hle, htakes⟩ := ih u m hm
      rw [ht, hn, List.length_cons, List.take_succ_cons]
      exact ⟨by omega, .char hc htakes⟩

/-- Of two matches of the same steps, the one that starts later does not end earlier. This is what
lets a longer first run do no harm. -/
theorem matchLength_append_le (steps : Steps) (s t : Text) (m n : Nat)
    (hm : matchLength steps (s ++ t) = some m) (hn : matchLength steps t = some n) :
    m ≤ s.length + n := by
  induction steps generalizing s t m n with
  | nil =>
    have : m = 0 := (Option.some.inj hm).symm
    omega
  | cons step rest ih =>
    by_cases hstep : step = .run
    · -- the longest run that succeeds from the later start is also the longest from the earlier
      subst hstep
      have hm' : matchLength (.run :: rest) (s ++ t) = some (s.length + n) :=
        greedy_append (matchLength rest) s t n hn
      rw [hm'] at hm
      exact Nat.le_of_eq (Option.some.inj hm).symm
    · obtain ⟨d, u, n', ht, -, hn', hnn⟩ := matchLength_eq_some_of_ne_run step rest t n hstep hn
      obtain ⟨c, v, m', hv, -, hm', hmm⟩ :=
        matchLength_eq_some_of_ne_run step rest (s ++ t) m hstep hm
      cases s with
      | nil =>
        rw [List.nil_append, ht] at hv
        have huv : u = v := (List.cons.inj hv).2
        have hle := ih [] u m' n' (by rw [List.nil_append, huv]; exact hm') hn'
        rw [List.length_nil] at hle ⊢
        omega
      | cons a s =>
        have hv' : s ++ d :: u = v := by
          rw [ht, List.cons_append] at hv
          exact (List.cons.inj hv).2
        -- Both steps take a character, and the later start stays `s.length` behind.
        have hm'' : matchLength rest ((s ++ [d]) ++ u) = some m' := by
          rw [List.append_assoc, List.singleton_append, hv']
          exact hm'
        have hle := ih (s ++ [d]) u m' n' hm'' hn'
        rw [List.length_append, List.length_singleton] at hle
        rw [List.length_cons]
        omega

/-- Where a text begins with one that the steps take, the matcher matches at least as much. -/
theorem matchLength_of_takes (steps : Steps) (s u : Text) (h : Takes steps s) :
    ∃ n, matchLength steps (s ++ u) = some n ∧ s.length ≤ n := by
  induction h with
  | nil => exact ⟨0, rfl, Nat.le_refl 0⟩
  | @run rest t s _ ih =>
    obtain ⟨n, hn, hle⟩ := ih
    obtain ⟨m, hm⟩ := greedy_of_some (matchLength rest) (t ++ u) n hn
    obtain ⟨s', u', k, ht, hk, hmk⟩ := greedy_eq_some (matchLength rest) (t ++ u) m hm
    -- The run goes further than `t` asks for, but what comes behind it ends no earlier for that.
    have hnk : n ≤ s'.length + k := matchLength_append_le rest s' u' n k (ht ▸ hn) hk
    refine ⟨s.length + m, ?_, ?_⟩
    · rw [List.append_assoc]
      exact greedy_append (matchLength rest) s (t ++ u) m hm
    · rw [List.length_append]
      omega
  | @char step rest c t hc _ ih =>
    obtain ⟨n, hn, hle⟩ := ih
    have hstep : step ≠ .run := by
      rintro rfl
      exact Bool.false_ne_true hc
    refine ⟨n + 1, ?_, by rw [List.length_cons]; omega⟩
    rw [List.cons_append, matchLength_cons_cons step rest c (t ++ u) hstep, if_pos hc, hn]
    rfl

/-- A match of a beginning of `t` is answered by one that is no shorter. -/
theorem matchLength_of_takes_take (steps : Steps) (t : Text) (m : Nat) (hm : m ≤ t.length)
    (h : Takes steps (t.take m)) : ∃ n, matchLength steps t = some n ∧ m ≤ n := by
  obtain ⟨n, hn, hle⟩ := matchLength_of_takes steps (t.take m) (t.drop m) h
  rw [List.take_append_drop] at hn
  rw [List.length_take, Nat.min_eq_left hm] at hle
  exact ⟨n, hn, hle⟩

/-- The matcher finds the longest of all beginnings that the steps take. -/
theorem isGreatest_matchLength (steps : Steps) (t : Text) (n : Nat)
    (h : matchLength steps t = some n) :
    IsGreatest {m | m ≤ t.length ∧ Takes steps (t.take m)} n := by
  refine ⟨matchLength_sound steps t n h, fun m hm => ?_⟩
  obtain ⟨n', hn', hle⟩ := matchLength_of_takes_take steps t m hm.1 hm.2
  rw [h] at hn'
  exact (Option.some.inj hn') ▸ hle

theorem isSome_matchLength_iff (steps : Steps) (t : Text) :
    (matchLength steps t).isSome = true ↔ ∃ m, m ≤ t.length ∧ Takes steps (t.take m) := by
  constructor
  · intro h
    obtain ⟨n, hn⟩ := Option.isSome_iff_exists.mp h
    exact ⟨n, matchLength_sound steps t n hn⟩
  · rintro ⟨m, hm, htakes⟩
    obtain ⟨n, hn, -⟩ := matchLength_of_takes_take steps t m hm htakes
    rw [hn]
    rfl

end EnvScript
