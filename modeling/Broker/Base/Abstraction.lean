import Broker.Base.Alternates
import Broker.Base.Projection
import Mathlib.Data.List.Induction

/-!
# Runs explained by an abstract machine

An abstract machine takes some inputs and not others, and gives something out for each input it
takes. A system whose steps are labelled by inputs of the machine is explained by it: the labels
of each of its runs are a lawful history of the machine, which leads to what the system shows at
the end and gives out what the system has given out.
-/

namespace Broker.Base

universe u v w x y z

variable {σ : Type u} {ι : Type v} {ν : Type w} {κ : Type x} {μ : Type y}

/-- Every input is legal where it is taken. -/
def Lawful (legal : ν → κ → Prop) (next : ν → κ → ν) : ν → List κ → Prop
  | _, [] => True
  | v, k :: ks => legal v k ∧ Lawful legal next (next v k) ks

/-- What is given out along a history. -/
def outputs (next : ν → κ → ν) (out : ν → κ → List μ) : ν → List κ → List μ
  | _, [] => []
  | v, k :: ks => out v k ++ outputs next out (next v k) ks

variable {legal : ν → κ → Prop} {next : ν → κ → ν} {out : ν → κ → List μ}

/-- A history is lawful when its front is and its rest is from there on. -/
theorem lawful_append {v : ν} {front back : List κ} :
    Lawful legal next v (front ++ back) ↔
      Lawful legal next v front ∧ Lawful legal next (front.foldl next v) back := by
  induction front generalizing v with
  | nil => simp [Lawful]
  | cons k front ih => simp only [List.cons_append, Lawful, List.foldl_cons, ih, and_assoc]

/-- What is given out is given out by the front and then by the rest. -/
theorem outputs_append (v : ν) (front back : List κ) :
    outputs next out v (front ++ back) =
      outputs next out v front ++ outputs next out (front.foldl next v) back := by
  induction front generalizing v with
  | nil => rfl
  | cons k front ih =>
    simp only [List.cons_append, outputs, List.foldl_cons, ih, List.append_assoc]

/-- What is made of each output is made of all of them. -/
theorem outputs_map {ρ : Type z} (f : μ → ρ) (v : ν) (ks : List κ) :
    outputs next (fun v k ↦ (out v k).map f) v ks = (outputs next out v ks).map f := by
  induction ks generalizing v with
  | nil => rfl
  | cons k ks ih => simp only [outputs, ih, List.map_append]

/-- What is given out is given out for some input. -/
theorem mem_outputs {v : ν} {ks : List κ} {x : μ} (h : x ∈ outputs next out v ks) :
    ∃ w, ∃ k ∈ ks, x ∈ out w k := by
  induction ks generalizing v with
  | nil => cases h
  | cons k ks ih =>
    obtain hx | hx := List.mem_append.mp h
    · exact ⟨v, k, List.mem_cons_self, hx⟩
    · obtain ⟨w, other, hm, hx⟩ := ih hx
      exact ⟨w, other, List.mem_cons_of_mem k hm, hx⟩

section Runs

variable {step : σ → ι → Option σ} {allowed : σ → ι → Prop} {label : σ → ι → Option κ}
  {view : σ → ν} {P : σ → Prop}

/-- The labels behind a first step. -/
theorem labels_cons {s t : σ} {input : ι} (hs : step s input = some t) (inputs : List ι) :
    labels step label s (input :: inputs) =
      (label s input).toList ++ labels step label t inputs := by
  rw [labels, hs]
  rfl

/-- What holds at the start of a run and is kept by its steps holds at its end. -/
theorem Runs.invariant {s t : σ} {inputs : List ι} (h : Runs step allowed s inputs t)
    (hs : P s)
    (hstep : ∀ s input t, P s → allowed s input → step s input = some t → P t) : P t := by
  induction h with
  | nil => exact hs
  | cons ha ht _ ih => exact ih (hstep _ _ _ hs ha ht)

/-- A run of inputs of a kind is a run that takes inputs of this kind. -/
theorem Runs.restrict {s t : σ} {inputs : List ι} (h : Runs step allowed s inputs t)
    {Q : ι → Prop} (hq : ∀ input ∈ inputs, Q input) :
    Runs step (fun s input ↦ allowed s input ∧ Q input) s inputs t := by
  induction h with
  | nil => exact .nil
  | cons ha hstep _ ih =>
    exact .cons ⟨ha, hq _ List.mem_cons_self⟩ hstep
      (ih fun input hm ↦ hq input (List.mem_cons_of_mem _ hm))

/-- A run meets what all its steps meet. -/
theorem Runs.mono {s t : σ} {inputs : List ι} (h : Runs step allowed s inputs t)
    {weaker : σ → ι → Prop} (hw : ∀ s input, allowed s input → weaker s input) :
    Runs step weaker s inputs t := by
  induction h with
  | nil => exact .nil
  | cons ha ht _ ih => exact .cons (hw _ _ ha) ht ih

/-- Every executed list of inputs is an unrestricted run. -/
theorem runs_of_exec {s t : σ} {inputs : List ι} (h : exec step s inputs = some t) :
    Runs step (fun _ _ ↦ True) s inputs t := by
  induction inputs generalizing s with
  | nil =>
    cases h
    exact .nil
  | cons input inputs ih =>
    obtain ⟨u, hu, ht⟩ := Option.bind_eq_some_iff.mp h
    exact .cons trivial hu (ih ht)

/-- The end of a run is reached. -/
theorem Runs.reaches {start s t : σ} {inputs : List ι} (hr : Reaches step allowed start s)
    (h : Runs step allowed s inputs t) : Reaches step allowed start t := by
  induction h with
  | nil => exact hr
  | cons ha ht _ ih => exact ih (hr.snoc ha ht)

/-- A system whose labelled steps are legal steps of the machine, and whose other steps it does
not see, is explained by the machine. -/
theorem lawful_labels
    (hinv : ∀ s input t, P s → step s input = some t → P t)
    (hlegal : ∀ s input t k, P s → allowed s input → step s input = some t →
      label s input = some k → legal (view s) k)
    (hview : ∀ s input t, P s → allowed s input → step s input = some t →
      view t = (label s input).elim (view s) (next (view s)))
    {s t : σ} {inputs : List ι} (h : Runs step allowed s inputs t) (hs : P s) :
    Lawful legal next (view s) (labels step label s inputs) ∧
      view t = (labels step label s inputs).foldl next (view s) := by
  induction h with
  | nil => exact ⟨trivial, rfl⟩
  | @cons s t r input inputs ha hstep _ ih =>
    obtain ⟨hlawful, hend⟩ := ih (hinv s input t hs hstep)
    have hnext := hview s input t hs ha hstep
    rw [labels_cons hstep]
    cases hl : label s input with
    | none =>
      rw [hl, Option.elim_none] at hnext
      rw [hnext] at hlawful hend
      exact ⟨hlawful, hend⟩
    | some k =>
      rw [hl, Option.elim_some] at hnext
      rw [hnext] at hlawful hend
      exact ⟨⟨hlegal s input t k hs ha hstep hl, hlawful⟩, hend⟩

/-- A system that gives out at each labelled step what the machine gives out has given out what
the machine has. -/
theorem outputs_labels {G : σ → List μ}
    (hinv : ∀ s input t, P s → step s input = some t → P t)
    (hview : ∀ s input t, P s → allowed s input → step s input = some t →
      view t = (label s input).elim (view s) (next (view s)))
    (hgiven : ∀ s input t, P s → allowed s input → step s input = some t →
      G t = G s ++ (label s input).elim [] (out (view s)))
    {s t : σ} {inputs : List ι} (h : Runs step allowed s inputs t) (hs : P s) :
    G t = G s ++ outputs next out (view s) (labels step label s inputs) := by
  induction h with
  | nil => exact (List.append_nil _).symm
  | @cons s t r input inputs ha hstep _ ih =>
    have hnext := hview s input t hs ha hstep
    rw [ih (hinv s input t hs hstep), hgiven s input t hs ha hstep, labels_cons hstep, hnext]
    cases label s input with
    | none => rw [Option.elim_none, List.append_nil]; rfl
    | some k => rw [List.append_assoc]; rfl

/-- A system that gives out at each step what its label stands for has given out what all its
labels stand for. -/
theorem given_labels {G : σ → List μ} {f : κ → List μ}
    (hinv : ∀ s input t, P s → step s input = some t → P t)
    (hgiven : ∀ s input t, P s → step s input = some t →
      G t = G s ++ (label s input).toList.flatMap f)
    {s t : σ} {inputs : List ι} (h : Runs step allowed s inputs t) (hs : P s) :
    G t = G s ++ (labels step label s inputs).flatMap f := by
  induction h with
  | nil => exact (List.append_nil _).symm
  | @cons s t r input inputs _ hstep _ ih =>
    rw [ih (hinv s input t hs hstep), hgiven s input t hs hstep, labels_cons hstep,
      List.flatMap_append, List.append_assoc]

/-- What holds of the label of every step holds of the labels of a run. -/
theorem forall_labels {Q : κ → Prop}
    (hinv : ∀ s input t, P s → step s input = some t → P t)
    (hlabel : ∀ s input t k, P s → allowed s input → step s input = some t →
      label s input = some k → Q k)
    {s t : σ} {inputs : List ι} (h : Runs step allowed s inputs t) (hs : P s) :
    ∀ k ∈ labels step label s inputs, Q k := by
  induction h with
  | nil => exact fun k hk ↦ absurd hk List.not_mem_nil
  | @cons s t r input inputs ha hstep _ ih =>
    intro k hk
    rw [labels_cons hstep] at hk
    obtain hk | hk := List.mem_append.mp hk
    · exact hlabel s input t k hs ha hstep (Option.mem_toList.mp hk)
    · exact ih (hinv s input t hs hstep) k hk

private theorem filterMap_toList {ρ : Type z} (f : κ → Option ρ) (o : Option κ) :
    o.toList.filterMap f = (o.bind f).toList := by
  cases o with
  | none => rfl
  | some k =>
    rw [Option.toList_some, Option.bind_some, List.filterMap_cons, List.filterMap_nil]
    cases f k <;> rfl

/-- Two ways to label the steps that are the same for some purpose are so along a run. -/
theorem filterMap_labels {τ : Type y} {ρ : Type z} {other : σ → ι → Option τ}
    {f : κ → Option ρ} {g : τ → Option ρ} (hinv : ∀ s input t, P s → step s input = some t → P t)
    (hlabel : ∀ s input t, P s → step s input = some t →
      (label s input).bind f = (other s input).bind g)
    {s t : σ} {inputs : List ι} (h : Runs step allowed s inputs t) (hs : P s) :
    (labels step label s inputs).filterMap f = (labels step other s inputs).filterMap g := by
  induction h with
  | nil => rfl
  | @cons s t r input inputs _ hstep _ ih =>
    have hhead := hlabel s input t hs hstep
    rw [labels_cons hstep, labels_cons hstep, List.filterMap_append, List.filterMap_append,
      filterMap_toList, filterMap_toList, hhead, ih (hinv s input t hs hstep)]

end Runs

/-! ### Switches -/

/-- A condition that each input switches on where it is off, switches off where it is on, or
leaves alone: along a lawful history the switchings take turns, and the last one tells the
condition. -/
theorem switched {P : ν → Prop} {switch : κ → Option Bool}
    (hon : ∀ v k, legal v k → switch k = some true → ¬ P v ∧ P (next v k))
    (hoff : ∀ v k, legal v k → switch k = some false → P v ∧ ¬ P (next v k))
    (hkeep : ∀ v k, legal v k → switch k = none → (P (next v k) ↔ P v))
    {v : ν} (hstart : ¬ P v) {ks : List κ} (h : Lawful legal next v ks) :
    Alternates true false (ks.filterMap switch) ∧
      (P (ks.foldl next v) ↔ (ks.filterMap switch).getLast? = some true) := by
  induction ks using List.reverseRecOn with
  | nil => exact ⟨trivial, iff_of_false hstart (by simp)⟩
  | append_singleton ks k ih =>
    obtain ⟨hfront, hk, -⟩ := lawful_append.mp h
    obtain ⟨halt, hlast⟩ := ih hfront
    rw [List.foldl_append, List.foldl_cons, List.foldl_nil, List.filterMap_append]
    cases hs : switch k with
    | none =>
      have he : List.filterMap switch [k] = [] := by simp [hs]
      rw [he, List.append_nil, hkeep _ k hk hs]
      exact ⟨halt, hlast⟩
    | some b =>
      have he : List.filterMap switch [k] = [b] := by simp [hs]
      rw [he]
      cases b with
      | true =>
        obtain ⟨hbefore, hafter⟩ := hon _ k hk hs
        exact ⟨halt.concat_first fun hl ↦ hbefore (hlast.mpr hl), iff_of_true hafter (by simp)⟩
      | false =>
        obtain ⟨hbefore, hafter⟩ := hoff _ k hk hs
        exact ⟨halt.concat_second (by decide) (hlast.mp hbefore), iff_of_false hafter (by simp)⟩

end Broker.Base
