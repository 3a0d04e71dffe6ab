import Broker.Base.Abstraction

/-!
# Runs that come to an end

A measure that some inputs bring down and the others leave alone bounds how many of the former
a run can have. Where there is always such an input as long as the system is not at its goal,
the goal is reached.
-/

namespace Broker.Base

universe u v

variable {σ : Type u} {ι : Type v} {step : σ → ι → Option σ} {allowed : σ → ι → Prop}
  {P : σ → Prop} {m : σ → Nat} {counts : ι → Bool}

/-- No run has more inputs that count than the measure allows for. -/
theorem Runs.countP_le (hinv : ∀ s input t, P s → step s input = some t → P t)
    (hless : ∀ s input t, P s → allowed s input → step s input = some t →
      counts input = true → m t < m s)
    (hsame : ∀ s input t, P s → allowed s input → step s input = some t →
      counts input = false → m t ≤ m s)
    {s t : σ} {inputs : List ι} (h : Runs step allowed s inputs t) (hs : P s) :
    inputs.countP counts + m t ≤ m s := by
  induction h with
  | nil => simp
  | @cons s t r input inputs ha hstep _ ih =>
    have hrest := ih (hinv s input t hs hstep)
    rw [List.countP_cons]
    cases hc : counts input with
    | true =>
      have hlt := hless s input t hs ha hstep hc
      rw [if_pos rfl]
      omega
    | false =>
      have hle := hsame s input t hs ha hstep hc
      rw [if_neg Bool.false_ne_true]
      omega

/-- Where there is an input that counts as long as the goal is not reached, it can be reached by
such inputs alone. -/
theorem exists_runs_of_progress {goal : σ → Prop}
    (hinv : ∀ s input t, P s → step s input = some t → P t)
    (hless : ∀ s input t, P s → allowed s input → step s input = some t →
      counts input = true → m t < m s)
    (hnext : ∀ s, P s → ¬ goal s →
      ∃ input t, counts input = true ∧ allowed s input ∧ step s input = some t)
    {s : σ} (hs : P s) :
    ∃ inputs t, Runs step allowed s inputs t ∧ goal t ∧ inputs.all counts = true := by
  by_cases hg : goal s
  · exact ⟨[], s, .nil, hg, rfl⟩
  · obtain ⟨input, t, hc, ha, hstep⟩ := hnext s hs hg
    have hlt := hless s input t hs ha hstep hc
    obtain ⟨inputs, r, hrun, hr, hall⟩ := exists_runs_of_progress hinv hless hnext
      (hinv s input t hs hstep)
    refine ⟨input :: inputs, r, .cons ha hstep hrun, hr, ?_⟩
    rw [List.all_cons, hc, hall, Bool.and_self]
termination_by m s

end Broker.Base
