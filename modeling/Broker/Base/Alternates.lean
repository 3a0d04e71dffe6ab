import Mathlib.Data.List.Basic

/-!
# Alternating sequences

Lists of the form `a, b, a, b, …`. Their last element says which one comes next.
-/

namespace Broker.Base

universe u

variable {α : Type u} {a b : α} {l : List α}

/-- The list takes `a` and `b` in turn, beginning with `a`. -/
def Alternates (a b : α) : List α → Prop
  | [] => True
  | x :: rest => x = a ∧ Alternates b a rest

/-- The end of an alternating list is told by its length. -/
theorem Alternates.getLast? (h : Alternates a b l) (hl : l ≠ []) :
    l.getLast? = some (if l.length % 2 = 1 then a else b) := by
  induction l generalizing a b with
  | nil => exact absurd rfl hl
  | cons x rest ih =>
    obtain ⟨rfl, h⟩ := h
    cases rest with
    | nil => rfl
    | cons y rest =>
      rw [List.getLast?_cons_cons, ih h (List.cons_ne_nil y rest), List.length_cons (a := x)]
      congr 1
      split <;> split <;> first | rfl | omega

/-- What an alternating list is continued by is told by its length. -/
theorem Alternates.concat_iff (h : Alternates a b l) (x : α) :
    Alternates a b (l ++ [x]) ↔ x = if l.length % 2 = 0 then a else b := by
  induction l generalizing a b with
  | nil => simp [Alternates]
  | cons y rest ih =>
    obtain ⟨rfl, h⟩ := h
    rw [List.cons_append, Alternates, ih h, List.length_cons]
    simp only [true_and]
    split <;> split <;> first | rfl | omega

/-- Behind a list that does not end with the first element comes the first element. -/
theorem Alternates.concat_first (h : Alternates a b l) (hlast : l.getLast? ≠ some a) :
    Alternates a b (l ++ [a]) := by
  rw [h.concat_iff]
  by_cases hl : l = []
  · simp [hl]
  · rw [h.getLast? hl] at hlast
    split at hlast
    · exact absurd rfl hlast
    · rw [if_pos (by omega)]

/-- Behind a list that ends with the first element comes the second one. -/
theorem Alternates.concat_second (h : Alternates a b l) (hne : a ≠ b)
    (hlast : l.getLast? = some a) : Alternates a b (l ++ [b]) := by
  rw [h.concat_iff]
  have hl : l ≠ [] := by
    rintro rfl
    cases hlast
  rw [h.getLast? hl] at hlast
  split at hlast
  · rw [if_neg (by omega)]
  · exact absurd (Option.some.inj hlast).symm hne

end Broker.Base
