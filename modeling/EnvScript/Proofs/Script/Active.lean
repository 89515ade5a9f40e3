import EnvScript.Proofs.Replacement.Active
import EnvScript.Proofs.Script.Quoted

/-!
# Quoted text behind active text

In `${O//$P"$Q"/"$R"}` the wildcards of `P` count, and the quotes take every meaning from the
characters of `Q`. The text of `P` must not end with a backslash that escapes nothing in it: this
one takes the backslash that the quotes have put in front of what follows.
-/

namespace EnvScript

variable {c : Context} {origin active literal replacement o v q r : Text}

/-- The value `${origin//$active"$literal"/"$replacement"}`. -/
def activeReplacement (origin active literal replacement : Text) : Word :=
  [.substitution (.var origin) .replaceAll
    (.parameter (.var active) :: quotedSides literal replacement)]

theorem replaced_activeReplacement (limits : Limits) {limit : Int} {steps : Steps}
    (ho : c.get? origin = some o) (hv : c.get? active = some v) (hq : c.get? literal = some q)
    (hr : c.get? replacement = some r) (hne : v ≠ []) (hslash : '/' ∉ v)
    (hsteps : compilePattern limit v = .ok steps) (hends : Spec.endsEscaping v = false)
    (hlimit : ∀ g, Glob.ofPattern (v ++ Spec.escape q) = .ok g →
      (g.regex.length : Int) ≤ limits.pattern) :
    ∃ w, ReplacedIn (FollowedBy v q) r true o w ∧
      expandWord limits c (activeReplacement origin active literal replacement) = .ok w := by
  obtain ⟨w, hw, hreplaced⟩ := replaced_append_escape o r hne hslash hsteps hends hlimit
  have horigin : (Parameter.var origin).origin c = .ok o := by
    rw [Parameter.origin, ho]
  have hspec : expandSpec limits c false
      (.parameter (.var active) :: quotedSides literal replacement) =
      .ok (v ++ Spec.escape q ++ '/' :: Spec.escape r) := by
    rw [expandSpec, expandSpecPart, Parameter.value, hv, expandSpec_quotedSides hq hr,
      List.append_assoc]
    rfl
  refine ⟨w, hreplaced, ?_⟩
  rw [activeReplacement, expandWord, expandPart, horigin, hspec, expandWord]
  show (Spec.replace limits o (v ++ Spec.escape q ++ '/' :: Spec.escape r) true).bind
    (fun text => .ok (text ++ [])) = _
  rw [hw]
  exact congrArg Except.ok (List.append_nil w)

unseal readWord in
theorem readWord_activeReplacement :
    readWord 64 0 {} (.ofText "X=$\x7bO//$P\"$Q\"/\"$R\"\x7d".toList) =
      .ok (.literal ['X', '='] :: activeReplacement ['O'] ['P'] ['Q'] ['R'],
        ⟨[], 19, ⟨1, 20⟩⟩) := by
  rfl

/-- `X=${O//$P"$Q"/"$R"}` replaces in the text of `O` what the wildcards of `P` match with the text
of `Q` behind it, if the text of `P` leaves no backslash to what follows it. -/
theorem runScript_active_replacement {n limit : Int} {steps : Steps} (ho : c.get? ['O'] = some o)
    (hv : c.get? ['P'] = some v) (hq : c.get? ['Q'] = some q) (hr : c.get? ['R'] = some r)
    (hne : v ≠ []) (hslash : '/' ∉ v) (hsteps : compilePattern limit v = .ok steps)
    (hends : Spec.endsEscaping v = false)
    (hlimit : ∀ g, Glob.ofPattern (v ++ Spec.escape q) = .ok g → (g.regex.length : Int) ≤ n) :
    ∃ w, ReplacedIn (FollowedBy v q) r true o w ∧
      runScript { pattern := n } "X=$\x7bO//$P\"$Q\"/\"$R\"\x7d".toList c =
        ⟨.ok (), c.set ['X'] w⟩ := by
  obtain ⟨w, hreplaced, hw⟩ :=
    replaced_activeReplacement { pattern := n } ho hv hq hr hne hslash hsteps hends hlimit
  exact ⟨w, hreplaced, runScript_of_word readWord_activeReplacement rfl (by decide) (by decide)
    (by decide) rfl hw (by decide : (19 : Int) ≤ 1000000) (by decide : (1 : Int) ≤ 100000)
    (by decide : (6 : Int) ≤ 1000000)⟩

/-- The wildcards match as much as they can in front of the separator that `Q` holds. -/
theorem replacement_behind_wildcards :
    ∃ w, ReplacedIn (FollowedBy "?*".toList "*/".toList) "\\[".toList true "a*/b*/c".toList w ∧
      runScript { pattern := 7 } "X=$\x7bO//$P\"$Q\"/\"$R\"\x7d".toList
          (.ofPairs [(['O'], "a*/b*/c".toList), (['P'], "?*".toList), (['Q'], "*/".toList),
            (['R'], "\\[".toList)]) =
        ⟨.ok (), (Context.ofPairs [(['O'], "a*/b*/c".toList), (['P'], "?*".toList),
          (['Q'], "*/".toList), (['R'], "\\[".toList)]).set ['X'] w⟩ := by
  have hsteps : compilePattern 100 "?*".toList = .ok [.any, .run] := by decide +kernel
  refine runScript_active_replacement rfl rfl rfl rfl (by decide) (by decide) hsteps
    (by decide +kernel) ?_
  intro g hg
  have hglob : Glob.ofPattern ("?*".toList ++ Spec.escape "*/".toList) =
      .ok [.any, .run, .exactly '*', .exactly '/'] := by decide +kernel
  obtain rfl := Except.ok.inj (hglob.symm.trans hg)
  decide

/-- A backslash at the end of `P` gives the quoted `*` its meaning back: `\x` is replaced, although
there is no `*` in it. -/
theorem quoted_wildcard_behind_backslash :
    (compilePattern 100 ['\\'] = .ok [.exactly '\\'] ∧ '/' ∉ ['\\'] ∧
      (Context.ofPairs [(['O'], ['\\', 'x']), (['P'], ['\\']), (['Q'], ['*']),
        (['R'], ['r'])]).get? ['P'] = some ['\\']) ∧
    ¬ ∃ w, ReplacedIn (FollowedBy ['\\'] ['*']) ['r'] true ['\\', 'x'] w ∧
      runScript {} "X=$\x7bO//$P\"$Q\"/\"$R\"\x7d".toList
          (.ofPairs [(['O'], ['\\', 'x']), (['P'], ['\\']), (['Q'], ['*']), (['R'], ['r'])]) =
        ⟨.ok (), (Context.ofPairs [(['O'], ['\\', 'x']), (['P'], ['\\']), (['Q'], ['*']),
          (['R'], ['r'])]).set ['X'] w⟩ := by
  refine ⟨by decide +kernel, ?_⟩
  rintro ⟨w, hreplaced, hrun⟩
  have habsent : ReplacedIn (FollowedBy ['\\'] ['*']) ['r'] true ['\\', 'x'] ['\\', 'x'] := by
    refine .absent true ?_
    rintro m hm ⟨a, -, rfl⟩
    -- A text that ends with `*` has one in it.
    have hmem : '*' ∈ ['\\', 'x'] := hm.subset (by simp)
    exact absurd hmem (by decide)
  obtain rfl := hreplaced.functional habsent
  have hvalue := congrArg (fun outcome => outcome.context.get? ['X']) hrun
  exact absurd hvalue (by decide +kernel)

end EnvScript
