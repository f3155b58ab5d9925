import Mathlib.Data.Option.Basic

/-!
Runs of the federate's threads.

Each part of the federate is modelled by a partial step function `next : σ → α → Option σ`,
`none` where a step cannot be taken, and a policy `allowed : σ → α → Bool` naming the steps its
environment may take: all of them, or only those of a caller that keeps its contract. A run takes
the steps of a list one after the other; what every allowed step keeps holds after every run.
-/

namespace LfFederate

variable {σ α : Type} (next : σ → α → Option σ) (allowed : σ → α → Bool)

/-- The state after the steps `as`, each of them allowed by `allowed`, or `none`. -/
def runSteps (s : σ) : List α → Option σ
  | [] => some s
  | a :: as => if allowed s a then (next s a).bind (runSteps · as) else none

lemma runSteps_invariant {P : σ → Prop}
    (hstep : ∀ s a s', P s → allowed s a = true → next s a = some s' → P s') :
    ∀ {s s' : σ} {as : List α}, P s → runSteps next allowed s as = some s' → P s'
  | _, _, [], hs, h => by cases h; exact hs
  | s, _, a :: as, hs, h => by
    simp only [runSteps] at h
    split at h
    · obtain ⟨s₁, h₁, h₂⟩ := Option.bind_eq_some.mp h
      exact runSteps_invariant hstep (hstep s a s₁ hs ‹_› h₁) h₂
    · cases h

/-- A run keeps an invariant and is no longer than the growth of a measure that every allowed
step raises from a state where the invariant holds. -/
lemma runSteps_measure {P : σ → Prop} {f : σ → ℕ}
    (hstep : ∀ s a s', P s → allowed s a = true → next s a = some s' → P s' ∧ f s + 1 ≤ f s') :
    ∀ {s s' : σ} {as : List α}, P s → runSteps next allowed s as = some s' →
      P s' ∧ f s + as.length ≤ f s'
  | _, _, [], hs, h => by cases h; exact ⟨hs, Nat.le_refl _⟩
  | s, _, a :: as, hs, h => by
    simp only [runSteps] at h
    split at h
    · obtain ⟨s₁, h₁, h₂⟩ := Option.bind_eq_some.mp h
      obtain ⟨hs₁, hf₁⟩ := hstep s a s₁ hs ‹_› h₁
      obtain ⟨hs', hf⟩ := runSteps_measure hstep hs₁ h₂
      refine ⟨hs', ?_⟩
      rw [List.length_cons]
      omega
    · cases h

lemma runSteps_append (s : σ) (as bs : List α) :
    runSteps next allowed s (as ++ bs) =
      (runSteps next allowed s as).bind (runSteps next allowed · bs) := by
  induction as generalizing s with
  | nil => rfl
  | cons a as ih =>
    simp only [List.cons_append, runSteps]
    split
    · rw [Option.bind_assoc]
      exact congrArg _ (funext ih)
    · rfl

end LfFederate
