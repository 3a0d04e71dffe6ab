import Broker.Base.Run

/-!
# Runs seen through a projection

Where a step changes what a projection shows by a label of its input alone, and leaves it
alone where the input has no label, the labels of a run tell everything the projection ever
shows. A system that can follow another one in every step, or stay where it is, has a run with
the same labels for each of its runs.
-/

namespace Broker.Base

universe u v w

variable {σ : Type u} {ι : Type v} {ν κ : Type w}

/-- A run with its inputs, whose steps all meet `allowed`. -/
inductive Runs (step : σ → ι → Option σ) (allowed : σ → ι → Prop) : σ → List ι → σ → Prop
  | nil {s : σ} : Runs step allowed s [] s
  | cons {s t r : σ} {input : ι} {inputs : List ι} : allowed s input → step s input = some t →
      Runs step allowed t inputs r → Runs step allowed s (input :: inputs) r

/-- Explicit inputs that pass a test at every step make a run that meets what is tested. -/
theorem runs_of_guarded {step : σ → ι → Option σ} {allowed : σ → ι → Prop} {test : σ → ι → Bool}
    (htest : ∀ s input, test s input = true → allowed s input) {s t : σ} {inputs : List ι}
    (h : exec (guarded test step) s inputs = some t) : Runs step allowed s inputs t := by
  induction inputs generalizing s with
  | nil =>
    cases h
    exact .nil
  | cons input inputs ih =>
    obtain ⟨u, hu, ht⟩ := Option.bind_eq_some_iff.mp h
    obtain ⟨ho, hu⟩ := Option.ite_none_right_eq_some.mp hu
    exact .cons (htest s input ho) hu (ih ht)

/-- What is seen of one labelled step: its label, and the projection before and after it. -/
structure Sight (ν κ : Type w) where
  label : κ
  before : ν
  after : ν

/-- The labels along a run. -/
def labels (step : σ → ι → Option σ) (label : σ → ι → Option κ) : σ → List ι → List κ
  | _, [] => []
  | s, input :: inputs =>
      ((step s input).map fun t ↦ (label s input).toList ++ labels step label t inputs).getD []

/-- What is seen along a run. -/
def sights (step : σ → ι → Option σ) (label : σ → ι → Option κ) (view : σ → ν) :
    σ → List ι → List (Sight ν κ)
  | _, [] => []
  | s, input :: inputs => ((step s input).map fun t ↦
      ((label s input).map fun l ↦ ⟨l, view s, view t⟩).toList ++
        sights step label view t inputs).getD []

/-- What the labels tell to be seen. -/
def replay (advance : ν → κ → ν) : ν → List κ → List (Sight ν κ)
  | _, [] => []
  | v, l :: ls => ⟨l, v, advance v l⟩ :: replay advance (advance v l) ls

variable {step : σ → ι → Option σ} {allowed : σ → ι → Prop} {label : σ → ι → Option κ}

section Projection

variable {view : σ → ν} {advance : ν → κ → ν} {inv : σ → Prop}

/-- All that is seen along a run is told by its labels. -/
theorem sights_eq_replay
    (hinv : ∀ s input t, inv s → step s input = some t → inv t)
    (hview : ∀ s input t, inv s → allowed s input → step s input = some t →
      view t = (label s input).elim (view s) (advance (view s)))
    {s t : σ} {inputs : List ι} (h : Runs step allowed s inputs t) (hs : inv s) :
    sights step label view s inputs = replay advance (view s) (labels step label s inputs) ∧
      view t = (labels step label s inputs).foldl advance (view s) := by
  induction h with
  | nil => exact ⟨rfl, rfl⟩
  | @cons s t r input inputs ha hstep _ ih =>
    obtain ⟨hsights, hend⟩ := ih (hinv s input t hs hstep)
    have hnext := hview s input t hs ha hstep
    rw [sights, labels, hstep]
    cases hl : label s input with
    | none =>
      rw [hl, Option.elim_none] at hnext
      rw [hnext] at hsights hend
      exact ⟨hsights, hend⟩
    | some l =>
      rw [hl, Option.elim_some] at hnext
      rw [hnext] at hsights hend
      simp only [Option.map_some, Option.getD_some, Option.toList_some, List.singleton_append,
        replay, List.foldl_cons, hnext, hsights]
      exact ⟨trivial, hend⟩

end Projection

/-- A system that follows each step by one with the same label, or stays where it is when there
is no label, has for each run one with the same labels, made of inputs it follows by. -/
theorem exists_runs_of_simulation {R : σ → σ → Prop} {good : ι → Prop}
    (hsim : ∀ s s' input t, R s s' → allowed s input → step s input = some t →
      (R t s' ∧ label s input = none) ∨ ∃ input' t', good input' ∧ allowed s' input' ∧
        step s' input' = some t' ∧ R t t' ∧ label s' input' = label s input)
    {s s' t : σ} {inputs : List ι} (h : Runs step allowed s inputs t) (hr : R s s') :
    ∃ inputs' t', Runs step allowed s' inputs' t' ∧ (∀ input ∈ inputs', good input) ∧ R t t' ∧
      labels step label s' inputs' = labels step label s inputs := by
  induction h generalizing s' with
  | nil => exact ⟨[], s', .nil, fun _ hm ↦ absurd hm List.not_mem_nil, hr, rfl⟩
  | @cons s t r input inputs ha hstep _ ih =>
    have hlabels : labels step label s (input :: inputs) =
        (label s input).toList ++ labels step label t inputs := by
      rw [labels, hstep]
      rfl
    obtain ⟨hr, hl⟩ | ⟨input', t', hg, ha', hstep', hr, hl⟩ := hsim s s' input t hr ha hstep
    · obtain ⟨inputs', r', hruns, hgood, hr, he⟩ := ih hr
      exact ⟨inputs', r', hruns, hgood, hr, by rw [he, hlabels, hl]; rfl⟩
    · obtain ⟨inputs', r', hruns, hgood, hr, he⟩ := ih hr
      refine ⟨input' :: inputs', r', .cons ha' hstep' hruns, ?_, hr, ?_⟩
      · intro other hm
        obtain rfl | hm := List.mem_cons.mp hm
        · exact hg
        · exact hgood other hm
      · rw [hlabels, labels, hstep', hl, ← he]
        rfl

end Broker.Base
