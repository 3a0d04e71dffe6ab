import Mathlib.Data.List.Basic

/-!
# Finite maps without an order

Association lists standing for `std::unordered_map`. Only lookups, `operator[]`,
assignment and `erase` are offered; no operation observes the order of entries.
-/

namespace Broker.Base

universe u v

/-- Entries of a `std::unordered_map`. -/
abbrev UnorderedMap (K : Type u) (V : Type v) := List (K × V)

namespace UnorderedMap

variable {K : Type u} {V : Type v} [DecidableEq K]

/-- `map.find(key)`, with `none` for `map.end()`. -/
def find : UnorderedMap K V → K → Option V
  | [], _ => none
  | (k, v) :: rest, key => if k = key then some v else find rest key

/-- `map.erase(key)`. -/
def erase (m : UnorderedMap K V) (key : K) : UnorderedMap K V :=
  m.filter fun entry ↦ entry.1 ≠ key

/-- `map[key] = value`. -/
def set (m : UnorderedMap K V) (key : K) (value : V) : UnorderedMap K V :=
  (key, value) :: erase m key

/-- `map[key]` as a reference: the value found, or a default entry created for it. -/
def index (m : UnorderedMap K V) (key : K) (default : V) : V × UnorderedMap K V :=
  match find m key with
  | some value => (value, m)
  | none => (default, set m key default)

@[simp] theorem find_nil (key : K) : find ([] : UnorderedMap K V) key = none := rfl

/-- What is found is an entry of the map. -/
theorem mem_of_find {m : UnorderedMap K V} {key : K} {value : V}
    (h : find m key = some value) : (key, value) ∈ m := by
  induction m with
  | nil => cases h
  | cons entry m ih =>
    rcases entry with ⟨k, v⟩
    rw [find] at h
    split at h
    · next hk =>
      cases h
      exact hk ▸ List.mem_cons_self
    · exact List.mem_cons_of_mem _ (ih h)

/-- Erasing a key removes that key and no other. -/
@[simp] theorem find_erase (m : UnorderedMap K V) (key other : K) :
    find (erase m key) other = if key = other then none else find m other := by
  induction m with
  | nil => simp [erase]
  | cons entry m ih =>
    rcases entry with ⟨k, v⟩
    by_cases hk : k = key
    · subst k
      have he : erase ((key, v) :: m) key = erase m key := by simp [erase]
      rw [he, ih, find]
      split <;> simp_all
    · have he : erase ((k, v) :: m) key = (k, v) :: erase m key := by simp [erase, hk]
      rw [he, find, ih, find]
      by_cases ho : k = other
      · subst ho
        simp [Ne.symm hk]
      · simp [ho]

/-- Assigning a key changes the value at that key and at no other. -/
@[simp] theorem find_set (m : UnorderedMap K V) (key other : K) (value : V) :
    find (set m key value) other = if key = other then some value else find m other := by
  rw [set, find, find_erase]
  split <;> rfl

/-- Erasing forgets what was assigned before. -/
theorem erase_set (m : UnorderedMap K V) (key : K) (value : V) :
    erase (set m key value) key = erase m key := by
  simp [set, erase]

/-- Of two assignments the later one counts. -/
@[simp] theorem set_set (m : UnorderedMap K V) (key : K) (earlier later : V) :
    set (set m key earlier) key later = set m key later := by
  rw [set, erase_set, set]

/-- `operator[]` on a present key returns its value and creates nothing. -/
theorem index_of_find {m : UnorderedMap K V} {key : K} {value : V}
    (h : find m key = some value) (default : V) : index m key default = (value, m) := by
  simp only [index, h]

/-- `operator[]` yields the present value, or the default it has just created. -/
theorem index_fst (m : UnorderedMap K V) (key : K) (default : V) :
    (index m key default).1 = (find m key).getD default := by
  unfold index
  split <;> simp_all

/-- After `operator[]` the key is present, and every other key is as before. -/
theorem find_index (m : UnorderedMap K V) (key other : K) (default : V) :
    find (index m key default).2 other =
      if key = other then some ((find m key).getD default) else find m other := by
  unfold index
  cases h : find m key with
  | none => simp
  | some value =>
    by_cases ho : key = other
    · subst ho
      simp [h]
    · simp [ho]

/-! ### Entries with distinct keys -/

/-- Where keys are distinct every entry is found. -/
theorem find_of_mem {m : UnorderedMap K V} {key : K} {value : V} (hn : (m.map Prod.fst).Nodup)
    (h : (key, value) ∈ m) : find m key = some value := by
  induction m with
  | nil => cases h
  | cons entry m ih =>
    rcases entry with ⟨k, v⟩
    obtain ⟨hfresh, hn⟩ := List.nodup_cons.mp hn
    obtain he | hm := List.mem_cons.mp h
    · cases he
      exact if_pos rfl
    · rw [find, if_neg, ih hn hm]
      rintro rfl
      exact hfresh (List.mem_map.mpr ⟨(k, value), hm, rfl⟩)

/-- Erasing keeps keys distinct. -/
theorem nodup_erase {m : UnorderedMap K V} (hn : (m.map Prod.fst).Nodup) (key : K) :
    ((erase m key).map Prod.fst).Nodup :=
  hn.sublist (List.filter_sublist.map Prod.fst)

/-- Assigning keeps keys distinct. -/
theorem nodup_set {m : UnorderedMap K V} (hn : (m.map Prod.fst).Nodup) (key : K) (value : V) :
    ((set m key value).map Prod.fst).Nodup := by
  apply List.nodup_cons.mpr
  constructor
  · intro hm
    obtain ⟨⟨k, v⟩, he, hk⟩ := List.mem_map.mp hm
    exact of_decide_eq_true (List.mem_filter.mp he).2 hk
  · exact nodup_erase hn key

/-- A map is empty when it has no keys. -/
theorem eq_nil_iff {m : UnorderedMap K V} : m = [] ↔ ∀ key, find m key = none := by
  constructor
  · rintro rfl key
    rfl
  · intro h
    cases m with
    | nil => rfl
    | cons entry m =>
      rcases entry with ⟨k, v⟩
      have hk := h k
      rw [find, if_pos rfl] at hk
      cases hk

end UnorderedMap
end Broker.Base
