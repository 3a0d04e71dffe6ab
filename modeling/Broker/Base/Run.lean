import Mathlib.Logic.Basic

/-!
# Runs of a partial step function

A system is a step function that is undefined on an input its state cannot accept.
`Reaches` collects the states of every run whose steps all meet a side condition;
its invariant rule is the only induction over runs that the development needs.
-/

namespace Broker.Base

universe u v

variable {σ : Type u} {ι : Type v}

/-- The states of runs from `start` all of whose steps meet `allowed`. -/
inductive Reaches (step : σ → ι → Option σ) (allowed : σ → ι → Prop) (start : σ) : σ → Prop
  | refl : Reaches step allowed start start
  | snoc {s t : σ} {input : ι} : Reaches step allowed start s → allowed s input →
      step s input = some t → Reaches step allowed start t

/-- Execute an explicit list of inputs. -/
def exec (step : σ → ι → Option σ) : σ → List ι → Option σ
  | s, [] => some s
  | s, input :: rest => (step s input).bind fun t ↦ exec step t rest

namespace Reaches

variable {step : σ → ι → Option σ} {allowed : σ → ι → Prop} {start : σ}

/-- What holds at the start and is kept by every allowed step holds in every state reached. -/
theorem invariant {P : σ → Prop} (hstart : P start)
    (hstep : ∀ s input t, P s → allowed s input → step s input = some t → P t)
    {s : σ} (h : Reaches step allowed start s) : P s := by
  induction h with
  | refl => exact hstart
  | snoc _ ha hs ih => exact hstep _ _ _ ih ha hs

end Reaches

/-- Running inputs one after the other splits at any point. -/
theorem exec_append (step : σ → ι → Option σ) (s : σ) (front back : List ι) :
    exec step s (front ++ back) = (exec step s front).bind fun t ↦ exec step t back := by
  induction front generalizing s with
  | nil => rfl
  | cons input front ih =>
    simp only [List.cons_append, exec, Option.bind_assoc]
    congr 1
    funext t
    exact ih t

/-- A decidable property of the outcome of explicit inputs can be evaluated. -/
theorem exists_exec {step : σ → ι → Option σ} {s : σ} {inputs : List ι} {P : σ → Prop}
    [DecidablePred P] (h : (exec step s inputs).any (fun t ↦ decide (P t)) = true) :
    ∃ t, exec step s inputs = some t ∧ P t := by
  cases he : exec step s inputs with
  | none => simp [he] at h
  | some t => exact ⟨t, rfl, by simpa [he] using h⟩

/-- A step that is taken only where a test succeeds. -/
def guarded (test : σ → ι → Bool) (step : σ → ι → Option σ) (s : σ) (input : ι) : Option σ :=
  if test s input then step s input else none

/-- Explicit inputs that pass a test at every step make a run that meets what is tested. -/
theorem reaches_of_guarded {step : σ → ι → Option σ} {allowed : σ → ι → Prop}
    {test : σ → ι → Bool} (htest : ∀ s input, test s input = true → allowed s input)
    {start s t : σ} {inputs : List ι} (hs : Reaches step allowed start s)
    (h : exec (guarded test step) s inputs = some t) : Reaches step allowed start t := by
  induction inputs generalizing s with
  | nil =>
    cases h
    exact hs
  | cons input inputs ih =>
    obtain ⟨u, hu, ht⟩ := Option.bind_eq_some_iff.mp h
    obtain ⟨ho, hu⟩ := Option.ite_none_right_eq_some.mp hu
    exact ih (hs.snoc (htest s input ho) hu) ht

/-- Explicit inputs of an allowed kind make a run whose steps are of that kind. -/
theorem reaches_of_forall {step : σ → ι → Option σ} {kind : ι → Bool} {start t : σ}
    {inputs : List ι} (hk : ∀ input ∈ inputs, kind input = true)
    (h : exec step start inputs = some t) :
    Reaches step (fun _ input ↦ kind input = true) start t := by
  have hg : exec (guarded (fun _ ↦ kind) step) start inputs = exec step start inputs := ?_
  · exact reaches_of_guarded (fun _ _ ↦ id) .refl (hg.trans h)
  induction inputs generalizing start with
  | nil => rfl
  | cons input inputs ih =>
    obtain ⟨u, hu, ht⟩ := Option.bind_eq_some_iff.mp h
    rw [exec, exec, guarded, if_pos (hk input List.mem_cons_self), hu]
    exact ih (fun i hi ↦ hk i (List.mem_cons_of_mem _ hi)) ht

/-- Every executed list of inputs is an unrestricted run. -/
theorem reaches_of_exec {step : σ → ι → Option σ} {start t : σ} {inputs : List ι}
    (h : exec step start inputs = some t) : Reaches step (fun _ _ ↦ True) start t :=
  have hg : guarded (fun _ _ ↦ true) step = step := rfl
  reaches_of_guarded (fun _ _ _ ↦ trivial) .refl (hg.symm ▸ h)

end Broker.Base
