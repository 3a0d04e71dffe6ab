import Broker.Base.Heap
import Mathlib.Data.Finset.Card
import Mathlib.Data.Finset.SDiff

/-!
# Trees in a heap

A cell has a label and links under keys to other cells. A cell and what it leads to form a tree
when no link leads to a cell that is not there and no two links lead to the same one. A tree shows
a label at the end of each path of keys, and it takes up the cells it is made of; other cells do
not count for it.
-/

namespace Broker.Base

universe u v

/-- A cell with links under keys. -/
structure Cell (K : Type u) (L : Type v) where
  links : UnorderedMap K Ptr
  label : L

/-- What a tree shows: the label at the end of each path of keys. -/
abbrev Content (K : Type u) (L : Type v) := List K → Option L

/-- What the branch under a key shows. -/
def Content.below {K : Type u} {L : Type v} (c : Content K L) (key : K) : Content K L :=
  fun path ↦ c (key :: path)

variable {K : Type u} {L : Type v} {heap later : Heap (Cell K L)} {p q : Ptr} {c : Content K L}
  {fp : Finset Ptr}

/-- Give a cell back behind what it links to, `delete` of an object whose destructor deletes what
it owns. The depth bounds the recursion. -/
def Heap.destroy : Nat → Heap (Cell K L) → Ptr → Option (Heap (Cell K L))
  | 0, _, _ => none
  | depth + 1, heap, p => do
    let cell ← heap.load p
    let heap ← cell.links.foldlM (fun heap entry ↦ Heap.destroy depth heap entry.2) heap
    heap.free p

/-- A destruction makes steps. -/
theorem Heap.steps_destroy {depth : Nat} (h : Heap.destroy depth heap p = some later) :
    Heap.Steps heap later := by
  induction depth generalizing heap p later with
  | zero => cases h
  | succ depth ih =>
    obtain ⟨cell, -, h⟩ := Option.bind_eq_some_iff.mp h
    obtain ⟨between, hlinks, hfree⟩ := Option.bind_eq_some_iff.mp h
    have hsteps := Heap.steps_foldlM (fun _ _ _ hd ↦ ih hd) hlinks
    exact hsteps.tail (.free hfree)

/-! ### What a tree is -/

variable [DecidableEq K]

/-- A cell is the root of a tree that shows this content and takes up these cells. -/
inductive Tree (heap : Heap (Cell K L)) : Ptr → Content K L → Finset Ptr → Prop
  | mk {p : Ptr} {c : Content K L} {fp : Finset Ptr} (cell : Cell K L) (foot : K → Finset Ptr)
      (load : heap.load p = some cell)
      (label : c [] = some cell.label)
      (keys : (cell.links.map Prod.fst).Nodup)
      (linked : ∀ key q, UnorderedMap.find cell.links key = some q →
        Tree heap q (c.below key) (foot key))
      (unlinked : ∀ key, UnorderedMap.find cell.links key = none →
        foot key = ∅ ∧ ∀ path, c.below key path = none)
      (mem : ∀ q, q ∈ fp ↔ q = p ∨ ∃ key, q ∈ foot key)
      (apart : ∀ key, p ∉ foot key)
      (distinct : ∀ key other q, q ∈ foot key → q ∈ foot other → key = other) :
      Tree heap p c fp

/-- What a link leads to: a tree, or nothing where there is no link. -/
def Branch (heap : Heap (Cell K L)) : Option Ptr → Content K L → Finset Ptr → Prop
  | some q, c, foot => Tree heap q c foot
  | none, c, foot => foot = ∅ ∧ ∀ path, c path = none

/-- The root of a tree and its branches, with the cells each of them takes up. -/
structure Node (heap : Heap (Cell K L)) (p : Ptr) (c : Content K L) (fp : Finset Ptr)
    (cell : Cell K L) (foot : K → Finset Ptr) : Prop where
  load : heap.load p = some cell
  label : c [] = some cell.label
  keys : (cell.links.map Prod.fst).Nodup
  branch : ∀ key, Branch heap (UnorderedMap.find cell.links key) (c.below key) (foot key)
  mem : ∀ q, q ∈ fp ↔ q = p ∨ ∃ key, q ∈ foot key
  apart : ∀ key, p ∉ foot key
  distinct : ∀ key other q, q ∈ foot key → q ∈ foot other → key = other

/-- A root with its branches is a tree. -/
theorem Node.tree {cell : Cell K L} {foot : K → Finset Ptr} (h : Node heap p c fp cell foot) :
    Tree heap p c fp := by
  apply Tree.mk cell foot h.load h.label h.keys _ _ h.mem h.apart h.distinct
  · intro key q hf
    have hb := h.branch key
    rwa [hf] at hb
  · intro key hf
    have hb := h.branch key
    rwa [hf] at hb

/-- The link under a key leads to a tree. -/
theorem Node.linked {cell : Cell K L} {foot : K → Finset Ptr} (h : Node heap p c fp cell foot)
    {key : K} (hf : UnorderedMap.find cell.links key = some q) :
    Tree heap q (c.below key) (foot key) := by
  have hb := h.branch key
  rwa [hf] at hb

private theorem Node.exists_find {cell : Cell K L} {foot : K → Finset Ptr}
    (h : Node heap p c fp cell foot) {key : K} (hq : q ∈ foot key) :
    ∃ r, UnorderedMap.find cell.links key = some r := by
  have hb := h.branch key
  cases hf : UnorderedMap.find cell.links key with
  | none =>
    rw [hf] at hb
    exact absurd (hb.1 ▸ hq) (Finset.notMem_empty q)
  | some r => exact ⟨r, rfl⟩

namespace Tree

/-- What holds of a root when it holds of its branches holds of a tree. -/
@[elab_as_elim]
theorem rootInduction
    {motive : (p : Ptr) → (c : Content K L) → (fp : Finset Ptr) → Tree heap p c fp → Prop}
    (root : ∀ p c fp cell foot (hn : Node heap p c fp cell foot),
      (∀ key q (hf : UnorderedMap.find cell.links key = some q),
        motive q (c.below key) (foot key) (hn.linked hf)) → motive p c fp hn.tree)
    (h : Tree heap p c fp) : motive p c fp h := by
  induction h with
  | @mk p c fp cell foot load label keys linked unlinked mem apart distinct ih =>
    refine root p c fp cell foot ⟨load, label, keys, ?_, mem, apart, distinct⟩ ih
    intro key
    cases hf : UnorderedMap.find cell.links key with
    | none => exact unlinked key hf
    | some q => exact linked key q hf

/-- A tree is a root with its branches. -/
theorem node (h : Tree heap p c fp) : ∃ cell foot, Node heap p c fp cell foot := by
  induction h using rootInduction with
  | root p c fp cell foot hn _ => exact ⟨cell, foot, hn⟩

/-- The root is one of its cells. -/
theorem root_mem (h : Tree heap p c fp) : p ∈ fp := by
  obtain ⟨cell, foot, hn⟩ := h.node
  exact (hn.mem p).mpr (.inl rfl)

/-- The cells of a tree are there. -/
theorem isSome_load (h : Tree heap p c fp) (hq : q ∈ fp) : (heap.load q).isSome := by
  induction h using rootInduction with
  | root p c fp cell foot hn ih =>
    obtain rfl | ⟨key, hk⟩ := (hn.mem q).mp hq
    · rw [hn.load]
      rfl
    · obtain ⟨r, hf⟩ := hn.exists_find hk
      exact ih key r hf hk

/-- A tree is one whatever becomes of the cells it does not take up. -/
theorem frame (h : Tree heap p c fp) (hsame : ∀ q ∈ fp, later.load q = heap.load q) :
    Tree later p c fp := by
  induction h using rootInduction with
  | root p c fp cell foot hn ih =>
    suffices hnode : Node later p c fp cell foot from hnode.tree
    refine ⟨?_, hn.label, hn.keys, ?_, hn.mem, hn.apart, hn.distinct⟩
    · rw [hsame p ((hn.mem p).mpr (.inl rfl)), hn.load]
    · intro key
      have hb := hn.branch key
      cases hf : UnorderedMap.find cell.links key with
      | none => rwa [hf] at hb
      | some q => exact ih key q hf fun r hr ↦ hsame r ((hn.mem r).mpr (.inr ⟨key, hr⟩))

/-- A cell without links is a tree. -/
theorem leaf {label : L} (hl : heap.load p = some ⟨[], label⟩) (hc : c [] = some label)
    (hb : ∀ key path, c (key :: path) = none) : Tree heap p c {p} := by
  apply Tree.mk ⟨[], label⟩ (fun _ ↦ ∅) hl hc List.nodup_nil
  · intro key q hf
    cases hf
  · exact fun key _ ↦ ⟨rfl, hb key⟩
  · simp
  · exact fun _ ↦ Finset.notMem_empty p
  · exact fun key _ q hq ↦ absurd hq (Finset.notMem_empty q)

end Tree

/-- A branch is one whatever becomes of the cells it does not take up. -/
theorem Branch.frame {link : Option Ptr} (h : Branch heap link c fp)
    (hsame : ∀ q ∈ fp, later.load q = heap.load q) : Branch later link c fp := by
  cases link with
  | none => exact h
  | some q => exact Tree.frame h hsame

namespace Node

variable {cell : Cell K L} {foot : K → Finset Ptr}

/-- The cells of a branch are cells of the tree. -/
theorem foot_subset (h : Node heap p c fp cell foot) (key : K) : foot key ⊆ fp :=
  fun q hq ↦ (h.mem q).mpr (.inr ⟨key, hq⟩)

/-- A branch takes up fewer cells. -/
theorem card_foot_lt (h : Node heap p c fp cell foot) (key : K) : (foot key).card < fp.card :=
  Finset.card_lt_card (Finset.ssubset_iff_subset_ne.mpr
    ⟨h.foot_subset key, fun he ↦ h.apart key (he ▸ h.tree.root_mem)⟩)

/-- Another branch under one key makes another tree. The root is rewritten for it, the other
branches stay as they are, and the new branch keeps clear of them. -/
theorem update (h : Node heap p c fp cell foot) (key : K) (changed : Cell K L)
    {d : Content K L} {branch : Finset Ptr}
    (hload : later.load p = some changed) (hlabel : d [] = some changed.label)
    (hkeys : (changed.links.map Prod.fst).Nodup)
    (hlinks : ∀ other, other ≠ key →
      UnorderedMap.find changed.links other = UnorderedMap.find cell.links other)
    (hcontent : ∀ other, other ≠ key → d.below other = c.below other)
    (hframe : ∀ other, other ≠ key → ∀ q ∈ foot other, later.load q = heap.load q)
    (hbranch : Branch later (UnorderedMap.find changed.links key) (d.below key) branch)
    (hclear : ∀ q ∈ branch, q ∈ foot key ∨ q ∉ fp) :
    Tree later p d (fp \ foot key ∪ branch) := by
  have hother {q : Ptr} (hq : q ∈ branch) : q ≠ p ∧ ∀ other, other ≠ key → q ∉ foot other := by
    obtain hin | hout := hclear q hq
    · exact ⟨fun he ↦ h.apart key (he ▸ hin), fun other ho hm ↦ ho (h.distinct _ _ q hm hin)⟩
    · exact ⟨fun he ↦ hout (he ▸ h.tree.root_mem), fun other _ hm ↦ hout (h.foot_subset other hm)⟩
  suffices hnode : Node later p d (fp \ foot key ∪ branch) changed
    (Function.update foot key branch) from hnode.tree
  constructor
  · exact hload
  · exact hlabel
  · exact hkeys
  · intro other
    by_cases ho : other = key
    · subst ho
      rwa [Function.update_self]
    · rw [Function.update_of_ne ho, hlinks other ho, hcontent other ho]
      exact (h.branch other).frame (hframe other ho)
  · intro q
    rw [Finset.mem_union, Finset.mem_sdiff, h.mem]
    constructor
    · rintro (⟨rfl | ⟨other, hm⟩, hn⟩ | hq)
      · exact .inl rfl
      · have ho : other ≠ key := fun he ↦ hn (he ▸ hm)
        exact .inr ⟨other, by rwa [Function.update_of_ne ho]⟩
      · exact .inr ⟨key, by rwa [Function.update_self]⟩
    · rintro (rfl | ⟨other, hm⟩)
      · exact .inl ⟨.inl rfl, h.apart key⟩
      · by_cases ho : other = key
        · subst ho
          rw [Function.update_self] at hm
          exact .inr hm
        · rw [Function.update_of_ne ho] at hm
          exact .inl ⟨.inr ⟨other, hm⟩, fun hk ↦ ho (h.distinct _ _ q hm hk)⟩
  · intro other hm
    by_cases ho : other = key
    · subst ho
      rw [Function.update_self] at hm
      exact (hother hm).1 rfl
    · rw [Function.update_of_ne ho] at hm
      exact h.apart other hm
  · intro first second q hq hq'
    by_cases hf : first = key
    · subst hf
      rw [Function.update_self] at hq
      by_contra hs
      rw [Function.update_of_ne (Ne.symm hs)] at hq'
      exact (hother hq).2 second (Ne.symm hs) hq'
    · rw [Function.update_of_ne hf] at hq
      by_cases hs : second = key
      · subst hs
        rw [Function.update_self] at hq'
        exact absurd hq ((hother hq').2 first hf)
      · rw [Function.update_of_ne hs] at hq'
        exact h.distinct first second q hq hq'

/-- The label of the root can be rewritten. -/
theorem relabel (h : Node heap p c fp cell foot) {label : L} {d : Content K L}
    (hs : heap.store p { cell with label := label } = some later) (hlabel : d [] = some label)
    (hbelow : ∀ key, d.below key = c.below key) : Tree later p d fp := by
  suffices hnode : Node later p d fp { cell with label := label } foot from hnode.tree
  constructor
  · rw [Heap.load_store hs, if_pos rfl]
  · exact hlabel
  · exact h.keys
  · intro key
    rw [hbelow key]
    apply (h.branch key).frame
    intro q hq
    rw [Heap.load_store hs, if_neg]
    exact fun he ↦ h.apart key (he ▸ hq)
  · exact h.mem
  · exact h.apart
  · exact h.distinct

end Node

/-! ### Giving a tree back -/

namespace Tree

/-- Branches are given back one after the other. -/
theorem exists_destroy_links {depth : Nat} {foot : K → Finset Ptr} {links : UnorderedMap K Ptr}
    (ih : ∀ {heap : Heap (Cell K L)} {p c fp}, Tree heap p c fp → fp.card ≤ depth →
      ∃ later, Heap.destroy depth heap p = some later ∧ (∀ q ∈ fp, later.load q = none) ∧
        ∀ q, q ∉ fp → later.load q = heap.load q)
    (hdistinct : ∀ key other q, q ∈ foot key → q ∈ foot other → key = other)
    (hkeys : (links.map Prod.fst).Nodup)
    (htrees : ∀ entry ∈ links, Tree heap entry.2 (c.below entry.1) (foot entry.1))
    (hcard : ∀ key, (foot key).card ≤ depth) :
    ∃ later, links.foldlM (fun heap entry ↦ Heap.destroy depth heap entry.2) heap = some later ∧
      (∀ entry ∈ links, ∀ q ∈ foot entry.1, later.load q = none) ∧
      ∀ q, (∀ entry ∈ links, q ∉ foot entry.1) → later.load q = heap.load q := by
  induction links generalizing heap with
  | nil => exact ⟨heap, rfl, fun _ hm ↦ absurd hm List.not_mem_nil, fun _ _ ↦ rfl⟩
  | cons entry links ihl =>
    obtain ⟨hfresh, hkeys⟩ := List.nodup_cons.mp hkeys
    have hother (other : K × Ptr) (hm : other ∈ links) (q : Ptr) (hq : q ∈ foot other.1) :
        q ∉ foot entry.1 := by
      intro he
      exact hfresh (hdistinct _ _ q hq he ▸ List.mem_map_of_mem hm)
    obtain ⟨between, hd, hgone, hkept⟩ := ih (htrees entry List.mem_cons_self) (hcard entry.1)
    obtain ⟨later, hds, hgones, hkepts⟩ := ihl hkeys fun other hm ↦
      (htrees other (List.mem_cons_of_mem entry hm)).frame fun q hq ↦ hkept q (hother other hm q hq)
    refine ⟨later, ?_, ?_, ?_⟩
    · rw [List.foldlM_cons, hd]
      exact hds
    · intro other hm q hq
      by_cases hl : ∃ another ∈ links, q ∈ foot another.1
      · obtain ⟨another, ha, hqa⟩ := hl
        exact hgones another ha q hqa
      · obtain rfl | hm := List.mem_cons.mp hm
        · rw [hkepts q fun another ha hqa ↦ hl ⟨another, ha, hqa⟩]
          exact hgone q hq
        · exact absurd ⟨other, hm, hq⟩ hl
    · intro q hq
      rw [hkepts q fun other hm ↦ hq other (List.mem_cons_of_mem entry hm)]
      exact hkept q (hq entry List.mem_cons_self)

/-- A tree that is destroyed is gone with all its cells, and the others are as they were. -/
theorem exists_destroy {depth : Nat} (h : Tree heap p c fp) (hd : fp.card ≤ depth) :
    ∃ later, Heap.destroy depth heap p = some later ∧ (∀ q ∈ fp, later.load q = none) ∧
      ∀ q, q ∉ fp → later.load q = heap.load q := by
  induction depth generalizing heap p c fp with
  | zero =>
    have hnone := Finset.card_eq_zero.mp (Nat.le_zero.mp hd)
    exact absurd (hnone ▸ h.root_mem) (Finset.notMem_empty p)
  | succ depth ih =>
    obtain ⟨cell, foot, hn⟩ := h.node
    have hcard (key : K) : (foot key).card ≤ depth := by
      have := hn.card_foot_lt key
      omega
    obtain ⟨between, hlinks, hgone, hkept⟩ := exists_destroy_links ih hn.distinct hn.keys
      (fun entry hm ↦ hn.linked (UnorderedMap.find_of_mem hn.keys hm)) hcard
    have hp : between.load p = some cell := (hkept p fun entry _ ↦ hn.apart entry.1).trans hn.load
    obtain ⟨later, hfree⟩ := Heap.exists_free hp
    have hload := Heap.load_free hfree
    refine ⟨later, ?_, ?_, ?_⟩
    · rw [Heap.destroy, hn.load]
      exact Option.bind_eq_some_iff.mpr ⟨cell, rfl, Option.bind_eq_some_iff.mpr
        ⟨between, hlinks, hfree⟩⟩
    · intro q hq
      rw [hload]
      split
      · rfl
      · next hne =>
        obtain rfl | ⟨key, hk⟩ := (hn.mem q).mp hq
        · exact absurd rfl hne
        · obtain ⟨r, hf⟩ := hn.exists_find hk
          exact hgone (key, r) (UnorderedMap.mem_of_find hf) q hk
    · intro q hq
      rw [hload, if_neg]
      · exact hkept q fun entry _ hm ↦ hq (hn.foot_subset entry.1 hm)
      · rintro rfl
        exact hq h.root_mem

/-- The cells of a tree are no more than there are in the heap. -/
theorem card_le (h : Tree heap p c fp) : fp.card ≤ heap.cells.length := by
  have hsub : fp ⊆ (heap.cells.map Prod.fst).toFinset := by
    intro q hq
    obtain ⟨cell, hc⟩ := Option.isSome_iff_exists.mp (h.isSome_load hq)
    exact List.mem_toFinset.mpr (List.mem_map.mpr ⟨(q, cell), UnorderedMap.mem_of_find hc, rfl⟩)
  calc fp.card ≤ (heap.cells.map Prod.fst).toFinset.card := Finset.card_le_card hsub
    _ ≤ (heap.cells.map Prod.fst).length := List.toFinset_card_le _
    _ = heap.cells.length := List.length_map _

end Tree

/-! ### Paths -/

/-- The cell at the end of a path of keys. -/
def Heap.walk (heap : Heap (Cell K L)) (p : Ptr) : List K → Option Ptr
  | [] => some p
  | key :: path => (heap.load p).bind fun cell ↦
      (UnorderedMap.find cell.links key).bind fun q ↦ heap.walk q path

namespace Node

variable {cell : Cell K L} {foot : K → Finset Ptr}

private theorem walk_cons (h : Node heap p c fp cell foot) (key : K) (path : List K) :
    heap.walk p (key :: path) =
      (UnorderedMap.find cell.links key).bind fun q ↦ heap.walk q path := by
  rw [Heap.walk, h.load, Option.bind_some]

end Node

namespace Tree

/-- The label at the end of a path is what the tree shows there. -/
theorem label_walk (h : Tree heap p c fp) (path : List K) :
    (heap.walk p path).bind (fun q ↦ (heap.load q).map Cell.label) = c path := by
  induction path generalizing p c fp with
  | nil =>
    obtain ⟨cell, foot, hn⟩ := h.node
    rw [Heap.walk, Option.bind_some, hn.load, hn.label]
    rfl
  | cons key path ih =>
    obtain ⟨cell, foot, hn⟩ := h.node
    rw [hn.walk_cons]
    have hb := hn.branch key
    cases hf : UnorderedMap.find cell.links key with
    | none =>
      rw [hf] at hb
      exact (hb.2 path).symm
    | some q => exact ih (hn.linked hf)

/-- The end of a path is a cell of the tree. -/
theorem mem_of_walk (h : Tree heap p c fp) {path : List K} (hw : heap.walk p path = some q) :
    q ∈ fp := by
  induction path generalizing p c fp with
  | nil => exact Option.some.inj hw ▸ h.root_mem
  | cons key path ih =>
    obtain ⟨cell, foot, hn⟩ := h.node
    rw [hn.walk_cons] at hw
    obtain ⟨r, hf, hw⟩ := Option.bind_eq_some_iff.mp hw
    exact hn.foot_subset key (ih (hn.linked hf) hw)

/-- Every cell of a tree is at the end of one path. -/
theorem existsUnique_walk (h : Tree heap p c fp) (hq : q ∈ fp) :
    ∃! path, heap.walk p path = some q := by
  induction h using rootInduction with
  | root p c fp cell foot hn ih =>
    -- A path that is not empty ends in a branch, and in one only.
    have hbranch {key : K} {path : List K} (hw : heap.walk p (key :: path) = some q) :
        ∃ r, UnorderedMap.find cell.links key = some r ∧ heap.walk r path = some q ∧
          q ∈ foot key := by
      rw [hn.walk_cons] at hw
      obtain ⟨r, hf, hw⟩ := Option.bind_eq_some_iff.mp hw
      exact ⟨r, hf, hw, (hn.linked hf).mem_of_walk hw⟩
    obtain rfl | ⟨key, hk⟩ := (hn.mem q).mp hq
    · refine ⟨[], rfl, ?_⟩
      intro path hw
      cases path with
      | nil => rfl
      | cons key path =>
        obtain ⟨r, -, -, hm⟩ := hbranch hw
        exact absurd hm (hn.apart key)
    · obtain ⟨r, hf⟩ := hn.exists_find hk
      obtain ⟨path, hw, hunique⟩ := ih key r hf hk
      refine ⟨key :: path, ?_, ?_⟩
      · show heap.walk p (key :: path) = some q
        rw [hn.walk_cons, hf]
        exact hw
      · intro other hother
        cases other with
        | nil =>
          cases hother
          exact absurd hk (hn.apart key)
        | cons another rest =>
          obtain ⟨r', hf', hw', hm⟩ := hbranch hother
          obtain rfl := hn.distinct another key q hm hk
          obtain rfl := Option.some.inj (hf'.symm.trans hf)
          rw [hunique rest hw']

end Tree
end Broker.Base
