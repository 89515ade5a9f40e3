import EnvScript.Proofs.Script.Joined

/-!
# One script under two settings of the limits

Limits only guard. What a script comes to under some limits, without being stopped by one of them,
it comes to under all wider ones.
-/

namespace EnvScript

/-- No limit is higher in `limits` than in `limits'`. Where the script succeeds under `limits`, it
does so with the same context under `limits'`. Where it fails, and not because of a limit, it fails
with the same error, at the same position, and leaves the same context. An error without a category
has no position that is reported. -/
theorem runScript_of_wider (limits limits' : Limits) (h : limits.Tighter limits') (script : Text)
    (context : Context) :
    (∀ c', runScript limits script context = ⟨.ok (), c'⟩ →
      runScript limits' script context = ⟨.ok (), c'⟩) ∧
    ∀ f c', runScript limits script context = ⟨.error f, c'⟩ → f.error.isLimit = false →
      ∃ f', runScript limits' script context = ⟨.error f', c'⟩ ∧ f'.error = f.error ∧
        (f.error.category.isSome → f' = f) := by
  constructor
  · intro c' hok
    have hwithin : (runScript limits script context).WithinLimits := by
      rw [hok]
      intro f hf
      exact absurd hf (by simp)
    have hbelow := runScript_of_tighter h hwithin
    rw [hok] at hbelow
    generalize runScript limits' script context = o at hbelow ⊢
    cases hbelow
    rfl
  · intro f c' herror hlimit
    have hwithin : (runScript limits script context).WithinLimits := by
      rw [herror]
      intro g hg
      exact Except.error.inj hg ▸ hlimit
    have hbelow := runScript_of_tighter h hwithin
    rw [herror] at hbelow
    generalize runScript limits' script context = o at hbelow ⊢
    cases hbelow with
    | @failed f' _ hsame _ =>
      obtain ⟨error, position⟩ := f
      obtain ⟨error', position'⟩ := f'
      obtain rfl : error = error' := hsame.error
      refine ⟨_, rfl, rfl, fun hcategory => ?_⟩
      rw [show position = position' from hsame.position hcategory]

/-- Tight limits under which one script succeeds and another fails behind its first statement. -/
theorem wider_than_tight :
    runScript {} "A=1".toList .empty = ⟨.ok (), .ofPairs [(['A'], ['1'])]⟩ ∧
      runScript {} "A=1\nB=$C".toList .empty =
        ⟨.error ⟨.unsetVariable ['C'], ⟨2, 5⟩⟩, .ofPairs [(['A'], ['1'])]⟩ := by
  have htight : (⟨8, 3, 6, 0, 0⟩ : Limits).Tighter {} := by
    constructor <;> decide
  have hfirst : runScript ⟨8, 3, 6, 0, 0⟩ "A=1".toList .empty =
      ⟨.ok (), .ofPairs [(['A'], ['1'])]⟩ := Outcome.eq_mk (by decide +kernel) (by decide +kernel)
  have hsecond : runScript ⟨8, 3, 6, 0, 0⟩ "A=1\nB=$C".toList .empty =
      ⟨.error ⟨.unsetVariable ['C'], ⟨2, 5⟩⟩, .ofPairs [(['A'], ['1'])]⟩ :=
    Outcome.eq_mk (by decide +kernel) (by decide +kernel)
  refine ⟨(runScript_of_wider _ {} htight "A=1".toList .empty).1 _ hfirst, ?_⟩
  obtain ⟨f', hrun, -, hsame⟩ :=
    (runScript_of_wider _ {} htight "A=1\nB=$C".toList .empty).2 _ _ hsecond rfl
  exact hsame rfl ▸ hrun

end EnvScript
