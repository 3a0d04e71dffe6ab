import Mathlib.Data.List.Infix

/-!
# Wildcard patterns over an arbitrary alphabet

A pattern is a list of atoms: exactly one letter, any run of letters, or one given
letter. `Matches` is the reference relation; the lemmas read it off the first atom.
-/

namespace Broker.Base

universe u

/-- One position of a wildcard pattern over `α`. -/
inductive Atom (α : Type u)
  | one
  | many
  | exact (a : α)

/-- The words a pattern stands for. -/
inductive Matches {α : Type u} : List (Atom α) → List α → Prop
  | nil : Matches [] []
  | one {pattern : List (Atom α)} {word : List α} (a : α) : Matches pattern word →
      Matches (.one :: pattern) (a :: word)
  | many {pattern : List (Atom α)} {word : List α} (skipped : List α) : Matches pattern word →
      Matches (.many :: pattern) (skipped ++ word)
  | exact {pattern : List (Atom α)} {word : List α} (a : α) : Matches pattern word →
      Matches (.exact a :: pattern) (a :: word)

namespace Matches

variable {α : Type u} {pattern : List (Atom α)} {word : List α} {a b : α}

/-- The empty pattern stands for the empty word. -/
theorem nil_iff : Matches ([] : List (Atom α)) word ↔ word = [] := by
  constructor
  · intro h
    cases h
    rfl
  · rintro rfl
    exact nil

/-- A single-letter atom needs a letter. -/
theorem not_one_nil : ¬ Matches (.one :: pattern) ([] : List α) := nofun

/-- A literal atom needs a letter. -/
theorem not_exact_nil : ¬ Matches (.exact a :: pattern) ([] : List α) := nofun

/-- A single-letter atom takes any first letter. -/
theorem one_cons_iff : Matches (.one :: pattern) (a :: word) ↔ Matches pattern word := by
  constructor
  · intro h
    cases h
    assumption
  · exact one a

/-- A literal atom takes its own letter only. -/
theorem exact_cons_iff :
    Matches (.exact a :: pattern) (b :: word) ↔ a = b ∧ Matches pattern word := by
  constructor
  · intro h
    cases h
    exact ⟨rfl, by assumption⟩
  · rintro ⟨rfl, h⟩
    exact exact a h

/-- A run atom leaves some suffix of the word to the rest of the pattern. -/
theorem many_iff :
    Matches (.many :: pattern) word ↔ ∃ rest ∈ word.tails, Matches pattern rest := by
  constructor
  · intro h
    cases h with
    | many skipped h => exact ⟨_, (List.mem_tails _ _).mpr (List.suffix_append _ _), h⟩
  · rintro ⟨rest, hr, h⟩
    obtain ⟨skipped, rfl⟩ := (List.mem_tails _ _).mp hr
    exact many skipped h

end Matches
end Broker.Base
