import Broker.Base.Resources
import Broker.Base.UnorderedMap
import Mathlib.Algebra.Order.Ring.Nat
import Mathlib.Logic.Relation

/-!
# A heap

Cells at addresses that are allocated and given back, `new` and `delete` of the source. Each
access has to be one to an allocated cell; others have no result. The allocator is free to choose
any address that is not allocated, one that was given back before included.
-/

namespace Broker.Base

universe u

/-- An address. -/
abbrev Ptr := Nat

/-- The allocated cells and, as history, what has been allocated and given back so far. -/
structure Heap (α : Type u) where
  cells : UnorderedMap Ptr α
  history : List (Use Ptr)

/-- A choice of the next address by all that has happened in a heap. -/
structure Allocator (α : Type u) where
  next : Heap α → Ptr
  fresh : ∀ heap : Heap α, UnorderedMap.find heap.cells (next heap) = none

namespace Heap

variable {α : Type u} {heap later : Heap α} {p : Ptr} {cell : α}

/-- A heap in which nothing has been allocated. -/
def empty : Heap α := ⟨[], []⟩

/-- Read a cell. -/
def load (heap : Heap α) (p : Ptr) : Option α := UnorderedMap.find heap.cells p

/-- Write a cell. -/
def store (heap : Heap α) (p : Ptr) (cell : α) : Option (Heap α) :=
  if (heap.load p).isSome then some { heap with cells := UnorderedMap.set heap.cells p cell }
  else none

/-- Allocate a cell. -/
def new (heap : Heap α) (malloc : Allocator α) (cell : α) : Ptr × Heap α :=
  (malloc.next heap, ⟨UnorderedMap.set heap.cells (malloc.next heap) cell,
    heap.history ++ [.acquire (malloc.next heap)]⟩)

/-- Give a cell back. -/
def free (heap : Heap α) (p : Ptr) : Option (Heap α) :=
  if (heap.load p).isSome then
    some ⟨UnorderedMap.erase heap.cells p, heap.history ++ [.release p]⟩
  else none

/-- A written cell is read back, and the others are as they were. -/
theorem load_store (h : heap.store p cell = some later) (q : Ptr) :
    later.load q = if p = q then some cell else heap.load q := by
  obtain ⟨-, hlater⟩ := Option.ite_none_right_eq_some.mp h
  cases hlater
  exact UnorderedMap.find_set heap.cells p q cell

/-- A new cell is read back, and the others are as they were. -/
theorem load_new (heap : Heap α) (malloc : Allocator α) (cell : α) (q : Ptr) :
    (heap.new malloc cell).2.load q =
      if (heap.new malloc cell).1 = q then some cell else heap.load q :=
  UnorderedMap.find_set heap.cells _ q cell

/-- A new cell was not there. -/
theorem load_fst_new (heap : Heap α) (malloc : Allocator α) (cell : α) :
    heap.load (heap.new malloc cell).1 = none :=
  malloc.fresh heap

/-- A cell that is given back is gone, and the others are as they were. -/
theorem load_free (h : heap.free p = some later) (q : Ptr) :
    later.load q = if p = q then none else heap.load q := by
  obtain ⟨-, hlater⟩ := Option.ite_none_right_eq_some.mp h
  cases hlater
  exact UnorderedMap.find_erase heap.cells p q

/-- What is allocated can be written. -/
theorem exists_store (h : heap.load p = some cell) (new : α) :
    ∃ later, heap.store p new = some later :=
  ⟨_, if_pos (Option.isSome_iff_exists.mpr ⟨cell, h⟩)⟩

/-- What is allocated can be given back. -/
theorem exists_free (h : heap.load p = some cell) : ∃ later, heap.free p = some later :=
  ⟨_, if_pos (Option.isSome_iff_exists.mpr ⟨cell, h⟩)⟩

/-! ### Programs -/

/-- One operation on a heap. -/
inductive Step : Heap α → Heap α → Prop
  | store {heap later : Heap α} {p : Ptr} {cell : α} (h : heap.store p cell = some later) :
      Step heap later
  | new (heap : Heap α) (malloc : Allocator α) (cell : α) : Step heap (heap.new malloc cell).2
  | free {heap later : Heap α} {p : Ptr} (h : heap.free p = some later) : Step heap later

/-- What operations make of a heap, one after the other. -/
abbrev Steps : Heap α → Heap α → Prop := Relation.ReflTransGen Step

/-- Programs run one after the other make steps if each of them does. -/
theorem steps_foldlM {β : Type*} {f : Heap α → β → Option (Heap α)}
    (hf : ∀ heap x later, f heap x = some later → Steps heap later) {xs : List β}
    (h : xs.foldlM f heap = some later) : Steps heap later := by
  induction xs generalizing heap with
  | nil =>
    cases h
    exact .refl
  | cons x xs ih =>
    rw [List.foldlM_cons] at h
    obtain ⟨between, hx, hxs⟩ := Option.bind_eq_some_iff.mp h
    exact (hf heap x between hx).trans (ih hxs)

/-! ### The history -/

/-- Only what was free has been allocated, only what was allocated has been given back, and the
cells that are there are those that were not given back. -/
structure Accounted (heap : Heap α) : Prop where
  lawful : Lawful Use.Legal Use.next ∅ heap.history
  held : ∀ p, (heap.load p).isSome ↔ p ∈ heap.history.foldl Use.next ∅

/-- An empty heap has no history. -/
theorem accounted_empty : (empty : Heap α).Accounted :=
  ⟨trivial, fun p ↦ iff_of_false Bool.false_ne_true (Set.notMem_empty p)⟩

namespace Accounted

private theorem concat (h : heap.Accounted) (use : Use Ptr)
    (hlegal : use.Legal {p | (heap.load p).isSome})
    (hhistory : later.history = heap.history ++ [use])
    (hload : ∀ p, (later.load p).isSome ↔ p ∈ use.next {p | (heap.load p).isSome}) :
    later.Accounted := by
  have hheld : heap.history.foldl Use.next ∅ = {p | (heap.load p).isSome} := by
    ext p
    exact (h.held p).symm
  constructor
  · rw [hhistory, lawful_append, hheld]
    exact ⟨h.lawful, hlegal, trivial⟩
  · intro p
    rw [hhistory, List.foldl_append, hheld, hload]
    rfl

/-- Every operation keeps the account. -/
theorem step (h : heap.Accounted) (hs : Step heap later) : later.Accounted := by
  cases hs with
  | @store _ p cell hs =>
    have hload := load_store hs
    obtain ⟨hp, hlater⟩ := Option.ite_none_right_eq_some.mp hs
    cases hlater
    apply Accounted.mk
    · exact h.lawful
    · intro q
      rw [hload q, ← h.held q]
      split
      · next he => simp [← he, hp]
      · rfl
  | new malloc cell =>
    apply h.concat (.acquire (heap.new malloc cell).1)
    · show ¬ (heap.load _).isSome
      rw [load_fst_new]
      exact Bool.false_ne_true
    · rfl
    · intro q
      rw [load_new]
      by_cases he : (heap.new malloc cell).1 = q
      · simp [he, Use.next]
      · simp [he, Ne.symm he, Use.next]
  | @free _ p hs =>
    have hload := load_free hs
    obtain ⟨hp, hlater⟩ := Option.ite_none_right_eq_some.mp hs
    cases hlater
    apply h.concat (.release p)
    · exact hp
    · rfl
    · intro q
      rw [hload q]
      by_cases he : p = q
      · simp [he, Use.next]
      · simp [he, Ne.symm he, Use.next]

/-- Every program keeps the account of its heap. -/
theorem steps (h : heap.Accounted) (hs : Steps heap later) : later.Accounted := by
  induction hs with
  | refl => exact h
  | tail _ hstep ih => exact ih.step hstep

/-- Every address has been allocated and given back in turn, and is allocated when the last of it
was an allocation. -/
theorem alternates (h : heap.Accounted) (p : Ptr) :
    Alternates true false (heap.history.filterMap (Use.switch p)) ∧
      ((heap.load p).isSome ↔
        (heap.history.filterMap (Use.switch p)).getLast? = some true) := by
  obtain ⟨halternates, hlast⟩ := Use.alternates_of_lawful h.lawful p
  exact ⟨halternates, (h.held p).trans hlast⟩

end Accounted
end Heap

namespace Allocator

variable {α : Type u}

/-- There is no cell behind all addresses. -/
theorem find_of_sum_lt {m : UnorderedMap Nat α} {p : Nat} (h : (m.map Prod.fst).sum < p) :
    UnorderedMap.find m p = none := by
  induction m with
  | nil => rfl
  | cons entry m ih =>
    rcases entry with ⟨q, cell⟩
    rw [List.map_cons, List.sum_cons] at h
    rw [UnorderedMap.find, if_neg (by omega)]
    apply ih
    omega

/-- An address behind all others. -/
def behind : Allocator α where
  next heap := (heap.cells.map Prod.fst).sum + 1
  fresh _ := find_of_sum_lt (Nat.lt_succ_self _)

instance : Inhabited (Allocator α) := ⟨behind⟩

end Allocator
end Broker.Base
