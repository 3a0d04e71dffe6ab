import Broker.Base.Abstraction
import Mathlib.Data.Set.Insert

/-!
# Resources that are acquired and released

What is held is told by the acquisitions and releases so far, as long as only what is free is
acquired and only what is held is released: each resource is acquired and released in turn, and
it is held when it has been acquired last.
-/

namespace Broker.Base

universe u

/-- What is done with a resource. -/
inductive Use (R : Type u)
  | acquire (r : R)
  | release (r : R)
  deriving DecidableEq

namespace Use

variable {R : Type u}

/-- The resource. -/
def resource : Use R → R
  | acquire r => r
  | release r => r

/-- The use is a release. -/
def isRelease : Use R → Bool
  | acquire _ => false
  | release _ => true

/-- What is free can be acquired, and what is held released. -/
def Legal (held : Set R) : Use R → Prop
  | acquire r => r ∉ held
  | release r => r ∈ held

/-- What is held behind a use. -/
def next (held : Set R) : Use R → Set R
  | acquire r => insert r held
  | release r => held \ {r}

/-- A use switches its own resource on or off. -/
def switch [DecidableEq R] (r : R) : Use R → Option Bool
  | acquire other => if other = r then some true else none
  | release other => if other = r then some false else none

/-- Only its own resource is switched. -/
theorem resource_of_switch [DecidableEq R] {r : R} {use : Use R} {on : Bool}
    (h : switch r use = some on) : use.resource = r := by
  cases use with
  | acquire other => exact (Option.ite_none_right_eq_some.mp h).1
  | release other => exact (Option.ite_none_right_eq_some.mp h).1

/-- Uses of other resources do not switch it. -/
theorem filterMap_switch_eq_nil [DecidableEq R] {r : R} {uses : List (Use R)}
    (h : ∀ use ∈ uses, use.resource ≠ r) : uses.filterMap (switch r) = [] := by
  refine List.filterMap_eq_nil_iff.mpr fun use hm ↦ ?_
  cases hs : switch r use with
  | none => rfl
  | some on => exact absurd (resource_of_switch hs) (h use hm)

/-- Each resource is acquired and released in turn, and held when it has been acquired last. -/
theorem alternates_of_lawful [DecidableEq R] {uses : List (Use R)}
    (h : Lawful Legal next ∅ uses) (r : R) :
    Alternates true false (uses.filterMap (switch r)) ∧
      (r ∈ uses.foldl next ∅ ↔ (uses.filterMap (switch r)).getLast? = some true) := by
  refine switched (P := fun held ↦ r ∈ held) ?_ ?_ ?_ (Set.notMem_empty r) h
  · intro held use hl hs
    cases use with
    | acquire other =>
      obtain ⟨rfl, -⟩ := Option.ite_none_right_eq_some.mp hs
      exact ⟨hl, Set.mem_insert other held⟩
    | release other =>
      obtain ⟨-, hs⟩ := Option.ite_none_right_eq_some.mp hs
      cases hs
  · intro held use hl hs
    cases use with
    | acquire other =>
      obtain ⟨-, hs⟩ := Option.ite_none_right_eq_some.mp hs
      cases hs
    | release other =>
      obtain ⟨rfl, -⟩ := Option.ite_none_right_eq_some.mp hs
      exact ⟨hl, fun hm ↦ hm.2 rfl⟩
  · intro held use _ hs
    cases use with
    | acquire other =>
      have hne : r ≠ other := fun he ↦ by rw [switch, if_pos he.symm] at hs; cases hs
      exact ⟨fun hm ↦ hm.resolve_left hne, fun hm ↦ .inr hm⟩
    | release other =>
      have hne : r ≠ other := fun he ↦ by rw [switch, if_pos he.symm] at hs; cases hs
      exact ⟨fun hm ↦ hm.1, fun hm ↦ ⟨hm, hne⟩⟩

/-- What is used was held before or has been acquired. -/
theorem resource_of_lawful {held : Set R} {uses : List (Use R)} (h : Lawful Legal next held uses)
    {use : Use R} (hm : use ∈ uses) : use.resource ∈ held ∨ .acquire use.resource ∈ uses := by
  induction uses generalizing held with
  | nil => cases hm
  | cons first uses ih =>
    obtain ⟨hfirst, hrest⟩ := h
    obtain rfl | hm := List.mem_cons.mp hm
    · cases use with
      | acquire r => exact .inr List.mem_cons_self
      | release r => exact .inl hfirst
    · obtain hheld | hacquired := ih hrest hm
      · cases first with
        | acquire r =>
          obtain he | hheld := hheld
          · exact .inr (he ▸ List.mem_cons_self)
          · exact .inl hheld
        | release r => exact .inl hheld.1
      · exact .inr (List.mem_cons_of_mem first hacquired)

/-- Some of what is held can be released, one after the other. -/
theorem lawful_releases {held : Set R} {rs : List R} (hn : rs.Nodup) (h : ∀ r ∈ rs, r ∈ held) :
    Lawful Legal next held (rs.map release) ∧
      (rs.map release).foldl next held = held \ {r | r ∈ rs} := by
  induction rs generalizing held with
  | nil =>
    refine ⟨trivial, ?_⟩
    ext other
    simp
  | cons r rs ih =>
    obtain ⟨hfresh, hn⟩ := List.nodup_cons.mp hn
    have hrest (other : R) (hm : other ∈ rs) : other ∈ held \ {r} :=
      ⟨h other (List.mem_cons_of_mem r hm), fun he ↦ hfresh (he ▸ hm)⟩
    obtain ⟨hlawful, hend⟩ := ih hn hrest
    refine ⟨⟨h r List.mem_cons_self, hlawful⟩, ?_⟩
    rw [List.map_cons, List.foldl_cons]
    refine hend.trans ?_
    ext other
    simp only [Set.mem_sdiff, Set.mem_singleton_iff, Set.mem_ofPred_eq, List.mem_cons, not_or,
      and_assoc]

end Use
end Broker.Base
