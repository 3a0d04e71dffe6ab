import Mathlib.Data.List.InsertIdx

/-!
# Positions in a selection

A list is walked through by position while entries are removed from it. `rank` is the place in
the selected part of the list where such a walk stands; the lemmas say what a step of the walk,
and the removal of an entry, are there.
-/

namespace Broker.Base

universe u

variable {α : Type u} {p : α → Bool} {l : List α} {k : Nat} {a : α}

/-- The number of selected entries before a position. -/
def rank (p : α → Bool) (l : List α) (k : Nat) : Nat := (l.take k).countP p

@[simp] theorem rank_zero (p : α → Bool) (l : List α) : rank p l 0 = 0 := by
  simp [rank]

private theorem eq_append_of_getElem? (h : l[k]? = some a) :
    l = l.take k ++ a :: l.drop (k + 1) := by
  obtain ⟨hk, rfl⟩ := List.getElem?_eq_some_iff.mp h
  rw [← List.drop_eq_getElem_cons hk, List.take_append_drop]

private theorem filter_eq_append (h : l[k]? = some a) (ha : p a = true) :
    l.filter p = (l.take k).filter p ++ a :: (l.drop (k + 1)).filter p := by
  conv => lhs; rw [eq_append_of_getElem? h]
  rw [List.filter_append, List.filter_cons_of_pos ha]

/-- A selected entry stands at its rank. -/
theorem getElem?_filter_rank (h : l[k]? = some a) (ha : p a = true) :
    (l.filter p)[rank p l k]? = some a := by
  rw [filter_eq_append h ha, rank, List.countP_eq_length_filter,
    List.getElem?_append_right (Nat.le_refl _), Nat.sub_self]
  rfl

/-- Behind the list stands nothing. -/
theorem getElem?_filter_rank_none (h : l.length ≤ k) : (l.filter p)[rank p l k]? = none := by
  rw [rank, List.take_of_length_le h, List.countP_eq_length_filter]
  exact List.getElem?_eq_none (Nat.le_refl _)

/-- A step of the walk over a selected entry is one in the selection. -/
theorem rank_succ (h : l[k]? = some a) :
    rank p l (k + 1) = rank p l k + if p a then 1 else 0 := by
  rw [rank, List.take_add_one, h, Option.toList_some, List.countP_append, List.countP_singleton]
  rfl

/-- Removing an entry that is not selected leaves the selection. -/
theorem filter_eraseIdx_of_neg (h : l[k]? = some a) (ha : p a = false) :
    (l.eraseIdx k).filter p = l.filter p := by
  conv => rhs; rw [eq_append_of_getElem? h]
  rw [List.eraseIdx_eq_take_drop_succ, List.filter_append, List.filter_append,
    List.filter_cons_of_neg (by simp [ha])]

/-- Removing a selected entry removes it from the selection. -/
theorem filter_eraseIdx_of_pos (h : l[k]? = some a) (ha : p a = true) :
    (l.eraseIdx k).filter p = (l.filter p).eraseIdx (rank p l k) := by
  have hr : rank p l k = ((l.take k).filter p).length := List.countP_eq_length_filter
  rw [filter_eq_append h ha, List.eraseIdx_eq_take_drop_succ, List.filter_append, hr,
    List.eraseIdx_append_of_length_le (Nat.le_refl _), Nat.sub_self]
  rfl

/-- What is removed at or behind a position does not count before it. -/
theorem rank_eraseIdx (p : α → Bool) (l : List α) (k : Nat) :
    rank p (l.eraseIdx k) k = rank p l k := by
  rw [rank, rank, List.take_eraseIdx_eq_take_of_le l k k (Nat.le_refl k)]

/-- Only the entries of the list count for the selection. -/
theorem rank_congr {q : α → Bool} (h : ∀ x ∈ l, p x = q x) (k : Nat) :
    rank p l k = rank q l k := by
  apply List.countP_congr
  intro x hx
  rw [h x (List.mem_of_mem_take hx)]

end Broker.Base
