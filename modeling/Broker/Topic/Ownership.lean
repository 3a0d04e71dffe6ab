import Broker.Topic.Pointers

/-!
# The nodes of the trie

Adding makes nodes and removing gives nodes back. The trie in memory owns what it has made: what
is allocated are its nodes, each on one path from the root, and each call keeps it so and shows
in memory what it does to the trie of values.
-/

namespace Broker.Topic
open Broker.Base

namespace PointerTrie

section Nodes

variable {heap later : Heap NodeCell} {p q : Ptr} {node : TopicTrieNode} {fp nodes : Finset Ptr}
  {cell : NodeCell} {foot : Level → Finset Ptr} {token : Level}

/-! ### Adding -/

/-- Cells have been added to some cells, and none but these are touched. -/
structure Grown (heap later : Heap NodeCell) (fp nodes : Finset Ptr) : Prop where
  kept : fp ⊆ nodes
  fresh : ∀ q ∈ nodes, q ∈ fp ∨ heap.load q = none
  frame : ∀ q, q ∉ nodes → later.load q = heap.load q

/-- The current node has a child for the token. -/
structure Ensured (heap later : Heap NodeCell) (p : Ptr) (cell changed : NodeCell)
    (token : Level) (child : Ptr) (fp nodes : Finset Ptr) : Prop where
  load : later.load p = some changed
  label : changed.label = cell.label
  keys : (changed.links.map Prod.fst).Nodup
  link : UnorderedMap.find changed.links token = some child
  others : ∀ other, other ≠ token →
    UnorderedMap.find changed.links other = UnorderedMap.find cell.links other
  kept : fp ⊆ nodes
  fresh : ∀ q ∈ nodes, q ∈ fp ∨ heap.load q = none
  frame : ∀ q, q ∉ nodes → q ≠ p → later.load q = heap.load q

private theorem exists_ensureChild (malloc : Allocator NodeCell)
    (h : Node heap p node.content fp cell foot) (token : Level) :
    ∃ later changed child nodes, ensureChild malloc heap p token = some later ∧
      Ensured heap later p cell changed token child (foot token) nodes ∧
      Tree later child ((UnorderedMap.find node.children token).getD .empty).content nodes := by
  cases hf : UnorderedMap.find cell.links token with
  | some q =>
    obtain ⟨child, hchild, ht⟩ := exists_child h hf
    refine ⟨heap, cell, q, foot token, ?_, ?_, ?_⟩
    · rw [ensureChild, h.load]
      simp only [Option.bind_eq_bind, Option.bind_some, hf]
    · exact ⟨h.load, rfl, h.keys, hf, fun _ _ ↦ rfl, subset_rfl, fun _ hq ↦ .inl hq,
        fun _ _ _ ↦ rfl⟩
    · rw [hchild]
      exact ht
  | none =>
    have hfoot : foot token = ∅ := by
      have hb := h.branch token
      rw [hf] at hb
      exact hb.1
    let made := newNode malloc heap
    have hmade : heap.load made.1 = none := Heap.load_fst_new heap malloc _
    have hload := Heap.load_new heap malloc (⟨[], ∅⟩ : NodeCell)
    have hne : made.1 ≠ p := by
      intro he
      rw [he, h.load] at hmade
      cases hmade
    let changed : NodeCell :=
      { cell with links := UnorderedMap.set cell.links token made.1 }
    have hp : made.2.load p = some cell := (hload p).trans ((if_neg hne).trans h.load)
    obtain ⟨later, hs⟩ := Heap.exists_store hp changed
    have hstore := Heap.load_store hs
    have hroot : later.load made.1 = some ⟨[], ∅⟩ := by
      rw [hstore, if_neg hne.symm]
      exact (hload made.1).trans (if_pos rfl)
    refine ⟨later, changed, made.1, {made.1}, ?_, ?_, ?_⟩
    · rw [ensureChild, h.load]
      simp only [Option.bind_eq_bind, Option.bind_some, hf]
      exact hs
    · constructor
      · exact (hstore p).trans (if_pos rfl)
      · rfl
      · exact UnorderedMap.nodup_set h.keys token made.1
      · exact (UnorderedMap.find_set _ _ _ _).trans (if_pos rfl)
      · exact fun other ho ↦ (UnorderedMap.find_set _ _ _ _).trans (if_neg ho.symm)
      · exact hfoot ▸ Finset.empty_subset _
      · exact fun q hq ↦ .inr (Finset.mem_singleton.mp hq ▸ hmade)
      · intro q hq hqp
        rw [hstore, if_neg hqp.symm]
        exact (hload q).trans (if_neg fun he ↦ hq (Finset.mem_singleton.mpr he.symm))
    · rw [no_child h hf]
      exact Tree.leaf hroot rfl fun _ _ ↦ rfl

private theorem Grown.of_branch (h : Node heap p node.content fp cell foot) {changed : NodeCell}
    (other : TopicTrieNode) (hkept : foot token ⊆ nodes)
    (hfresh : ∀ q ∈ nodes, q ∈ foot token ∨ heap.load q = none)
    (hframe : ∀ q, q ∉ nodes → q ≠ p → later.load q = heap.load q)
    (hload : later.load p = some changed) (hlabel : other.content [] = some changed.label)
    (hkeys : (changed.links.map Prod.fst).Nodup)
    (hlinks : ∀ key, key ≠ token →
      UnorderedMap.find changed.links key = UnorderedMap.find cell.links key)
    (hcontent : ∀ key, key ≠ token → other.content.below key = node.content.below key)
    (hbranch : Branch later (UnorderedMap.find changed.links token) (other.content.below token)
      nodes) :
    ∃ left, Tree later p other.content left ∧ Grown heap later fp left := by
  have hclear (q : Ptr) (hq : q ∈ nodes) : q ∈ foot token ∨ q ∉ fp := by
    refine (hfresh q hq).imp_right fun hnone hm ↦ ?_
    have hs := h.tree.isSome_load hm
    rw [hnone] at hs
    cases hs
  refine ⟨fp \ foot token ∪ nodes, ?_, ?_, ?_, ?_⟩
  · apply h.update token changed hload hlabel hkeys hlinks hcontent _ hbranch hclear
    intro key hk q hq
    apply hframe
    · intro hm
      obtain hfoot | hout := hclear q hm
      · exact hk (h.distinct _ _ q hq hfoot)
      · exact hout (h.foot_subset key hq)
    · rintro rfl
      exact h.apart key hq
  · intro q hq
    by_cases hfoot : q ∈ foot token
    · exact Finset.mem_union_right _ (hkept hfoot)
    · exact Finset.mem_union_left _ (Finset.mem_sdiff.mpr ⟨hq, hfoot⟩)
  · intro q hq
    obtain hq | hq := Finset.mem_union.mp hq
    · exact .inl (Finset.mem_sdiff.mp hq).1
    · exact (hfresh q hq).imp_left fun hm ↦ h.foot_subset token hm
  · intro q hq
    apply hframe
    · exact fun hm ↦ hq (Finset.mem_union_right _ hm)
    · rintro rfl
      exact hq (Finset.mem_union_left _
        (Finset.mem_sdiff.mpr ⟨h.tree.root_mem, h.apart token⟩))

/-- An id is added at the end of a path, whose missing nodes are made, and the tree in memory
shows it. -/
theorem exists_addLoop (malloc : Allocator NodeCell) (clientId : Bytes) (tokens : List Level)
    (h : Tree heap p node.content fp) :
    ∃ later nodes, addLoop malloc clientId heap p tokens = some later ∧
      Tree later p (node.addTokens clientId tokens).content nodes ∧
      Grown heap later fp nodes := by
  induction tokens generalizing heap p node fp with
  | nil =>
    obtain ⟨cell, foot, hn⟩ := h.node
    have hids : cell.label = node.subscriberIds := (Option.some.inj hn.label).symm
    obtain ⟨later, hs⟩ :=
      Heap.exists_store hn.load { cell with label := insert clientId cell.label }
    refine ⟨later, fp, ?_, ?_, ?_⟩
    · rw [addLoop, hn.load]
      exact hs
    · apply hn.relabel hs
      · rw [hids]
        rfl
      · exact fun key ↦ TopicTrieNode.below_congr rfl
    · refine ⟨subset_rfl, fun _ hq ↦ .inl hq, ?_⟩
      intro q hq
      rw [Heap.load_store hs, if_neg]
      rintro rfl
      exact hq h.root_mem
  | cons token rest ih =>
    obtain ⟨cell, foot, hn⟩ := h.node
    have hids : cell.label = node.subscriberIds := (Option.some.inj hn.label).symm
    obtain ⟨between, changed, child, branch, hensure, he, ht⟩ :=
      exists_ensureChild malloc hn token
    obtain ⟨later, nodes, hadd, htree, hgrown⟩ := ih ht
    -- The root is neither in the branch nor among what is made for it.
    have hroot : p ∉ nodes := by
      intro hm
      obtain hb | hnone := hgrown.fresh p hm
      · obtain hfoot | hdead := he.fresh p hb
        · exact hn.apart token hfoot
        · rw [hn.load] at hdead
          cases hdead
      · rw [he.load] at hnone
        cases hnone
    have hfresh (q : Ptr) (hq : q ∈ nodes) : q ∈ foot token ∨ heap.load q = none := by
      by_cases hb : q ∈ branch
      · exact he.fresh q hb
      · right
        rw [← he.frame q hb fun hqp ↦ hroot (hqp ▸ hq)]
        exact (hgrown.fresh q hq).resolve_left hb
    have hframe (q : Ptr) (hq : q ∉ nodes) (hqp : q ≠ p) : later.load q = heap.load q := by
      rw [hgrown.frame q hq]
      exact he.frame q (fun hb ↦ hq (hgrown.kept hb)) hqp
    have hbelow : (node.addTokens clientId (token :: rest)).content.below token =
        (((UnorderedMap.find node.children token).getD .empty).addTokens clientId rest).content :=
      TopicTrieNode.below_of_find ((UnorderedMap.find_set _ _ _ _).trans (if_pos rfl))
    obtain ⟨left, hleft, hmore⟩ := Grown.of_branch hn (node.addTokens clientId (token :: rest))
      (he.kept.trans hgrown.kept) hfresh hframe ((hgrown.frame p hroot).trans he.load)
      (by rw [he.label, hids]; rfl) he.keys he.others
      (fun key hk ↦ TopicTrieNode.below_congr
        ((UnorderedMap.find_set _ _ _ _).trans (if_neg hk.symm)))
      (by rw [he.link, hbelow]; exact htree)
    refine ⟨later, left, ?_, hleft, hmore⟩
    rw [addLoop, hensure]
    simp only [Option.bind_eq_bind, Option.bind_some, he.load, he.link, hadd]

/-! ### Removing -/

/-- Some cells are left, and the others of these are gone; none but these are touched. -/
structure Shrunk (heap later : Heap NodeCell) (fp nodes : Finset Ptr) : Prop where
  kept : nodes ⊆ fp
  gone : ∀ q ∈ fp, q ∉ nodes → later.load q = none
  frame : ∀ q, q ∉ fp → later.load q = heap.load q

private theorem Shrunk.of_branch (h : Node heap p node.content fp cell foot) {changed : NodeCell}
    (other : TopicTrieNode) (hkept : nodes ⊆ foot token)
    (hgone : ∀ q ∈ foot token, q ∉ nodes → later.load q = none)
    (hframe : ∀ q, q ∉ foot token → q ≠ p → later.load q = heap.load q)
    (hload : later.load p = some changed) (hlabel : other.content [] = some changed.label)
    (hkeys : (changed.links.map Prod.fst).Nodup)
    (hlinks : ∀ key, key ≠ token →
      UnorderedMap.find changed.links key = UnorderedMap.find cell.links key)
    (hcontent : ∀ key, key ≠ token → other.content.below key = node.content.below key)
    (hbranch : Branch later (UnorderedMap.find changed.links token) (other.content.below token)
      nodes) :
    ∃ left, Tree later p other.content left ∧ Shrunk heap later fp left := by
  refine ⟨fp \ foot token ∪ nodes, ?_, ?_, ?_, ?_⟩
  · apply h.update token changed hload hlabel hkeys hlinks hcontent _ hbranch
    · exact fun q hq ↦ .inl (hkept hq)
    · intro key hk q hq
      apply hframe q
      · exact fun hm ↦ hk (h.distinct _ _ q hq hm)
      · rintro rfl
        exact h.apart key hq
  · intro q hq
    obtain hq | hq := Finset.mem_union.mp hq
    · exact (Finset.mem_sdiff.mp hq).1
    · exact h.foot_subset token (hkept hq)
  · intro q hq hn
    apply hgone
    · by_contra hfoot
      exact hn (Finset.mem_union_left _ (Finset.mem_sdiff.mpr ⟨hq, hfoot⟩))
    · exact fun hm ↦ hn (Finset.mem_union_right _ hm)
  · intro q hq
    apply hframe
    · exact fun hm ↦ hq (h.foot_subset token hm)
    · rintro rfl
      exact hq h.tree.root_mem

/-- A child is given back, and its entry with it. -/
theorem exists_prune (h : Node heap p node.content fp cell foot) {between : Heap NodeCell}
    {c : Content Level (Finset Bytes)} {branch : Finset Ptr} (ht : Tree between q c branch)
    (hshrunk : Shrunk heap between (foot token) branch) :
    let changed : NodeCell := { cell with links := UnorderedMap.erase cell.links token }
    let other := TopicTrieNode.mk (UnorderedMap.erase node.children token) node.subscriberIds
    ∃ cleared later nodes, deleteNode between q = some cleared ∧ cleared.load p = some cell ∧
      cleared.store p changed = some later ∧
      changed.links.isEmpty = other.children.isEmpty ∧ Tree later p other.content nodes ∧
      Shrunk heap later fp nodes := by
  intro changed other
  obtain ⟨cleared, hdelete, hgone, hkept⟩ := ht.exists_destroy ht.card_le
  have hp : cleared.load p = some cell := by
    rw [hkept p fun hm ↦ h.apart token (hshrunk.kept hm), hshrunk.frame p (h.apart token), h.load]
  obtain ⟨later, hs⟩ := Heap.exists_store hp changed
  have hstore := Heap.load_store hs
  have hload : later.load p = some changed := (hstore p).trans (if_pos rfl)
  have hempty (r : Ptr) (hm : r ∈ foot token) : later.load r = none := by
    rw [hstore, if_neg fun he : p = r ↦ h.apart token (he ▸ hm)]
    by_cases hb : r ∈ branch
    · exact hgone r hb
    · rw [hkept r hb]
      exact hshrunk.gone r hm hb
  have hframe (r : Ptr) (hout : r ∉ foot token) (hne : r ≠ p) : later.load r = heap.load r := by
    rw [hstore, if_neg hne.symm, hkept r fun hb ↦ hout (hshrunk.kept hb)]
    exact hshrunk.frame r hout
  have hbranch : Branch later (UnorderedMap.find changed.links token)
      (other.content.below token) ∅ := by
    rw [(UnorderedMap.find_erase cell.links token token).trans (if_pos rfl)]
    exact ⟨rfl, TopicTrieNode.below_of_none ((UnorderedMap.find_erase _ _ _).trans (if_pos rfl))⟩
  obtain ⟨nodes, hnodes, hleft⟩ := Shrunk.of_branch h other
    (Finset.empty_subset _) (fun r hm _ ↦ hempty r hm) hframe hload h.label
    (UnorderedMap.nodup_erase h.keys token)
    (fun key hk ↦ (UnorderedMap.find_erase _ _ _).trans (if_neg hk.symm))
    (fun key hk ↦ TopicTrieNode.below_congr
      ((UnorderedMap.find_erase _ _ _).trans (if_neg hk.symm))) hbranch
  obtain ⟨root, _, hroot⟩ := hnodes.node
  have hsame : root = changed := Option.some.inj (hroot.load.symm.trans hload)
  exact ⟨cleared, later, nodes, hdelete, hp, hs, hsame ▸ isEmpty_links hroot, hnodes, hleft⟩

/-- An id is removed from the end of a path, the nodes that become idle are given back, and the
tree in memory shows it. -/
theorem exists_removeRecursive (clientId : Bytes) (tokens : List Level)
    (h : Tree heap p node.content fp) :
    ∃ later nodes, removeRecursive clientId heap p tokens =
        some (later, (node.removeRecursive clientId tokens).2) ∧
      Tree later p (node.removeRecursive clientId tokens).1.content nodes ∧
      Shrunk heap later fp nodes := by
  induction tokens generalizing heap p node fp with
  | nil =>
    obtain ⟨cell, foot, hn⟩ := h.node
    have hids : cell.label = node.subscriberIds := (Option.some.inj hn.label).symm
    obtain ⟨later, hs⟩ :=
      Heap.exists_store hn.load { cell with label := cell.label.erase clientId }
    refine ⟨later, fp, ?_, ?_, ?_⟩
    · rw [removeRecursive, hn.load]
      simp only [Option.bind_eq_bind, Option.bind_some, hs, isEmpty_links hn]
      rw [hids]
      rfl
    · apply hn.relabel hs
      · rw [hids]
        rfl
      · exact fun key ↦ TopicTrieNode.below_congr rfl
    · refine ⟨subset_rfl, fun _ hq hn ↦ absurd hq hn, ?_⟩
      intro q hq
      rw [Heap.load_store hs, if_neg]
      rintro rfl
      exact hq h.root_mem
  | cons token rest ih =>
    obtain ⟨cell, foot, hn⟩ := h.node
    have hids : cell.label = node.subscriberIds := (Option.some.inj hn.label).symm
    cases hf : UnorderedMap.find cell.links token with
    | none =>
      have hsame : node.removeRecursive clientId (token :: rest) = (node, false) := by
        rw [TopicTrieNode.removeRecursive, no_child hn hf]
      refine ⟨heap, fp, ?_, ?_, ?_⟩
      · rw [removeRecursive, hn.load, hsame]
        simp only [Option.bind_eq_bind, Option.bind_some, hf]
      · rw [hsame]
        exact h
      · exact ⟨subset_rfl, fun _ hq hn ↦ absurd hq hn, fun _ _ ↦ rfl⟩
    | some q =>
      obtain ⟨child, hchild, ht⟩ := exists_child hn hf
      obtain ⟨between, branch, hremove, htree, hshrunk⟩ := ih ht
      have hp : between.load p = some cell :=
        (hshrunk.frame p (hn.apart token)).trans hn.load
      rcases hr : child.removeRecursive clientId rest with ⟨left, prune⟩
      rw [hr] at hremove htree
      cases prune with
      | false =>
        let other : TopicTrieNode :=
          .mk (UnorderedMap.set node.children token left) node.subscriberIds
        have hother : node.removeRecursive clientId (token :: rest) = (other, false) := by
          rw [TopicTrieNode.removeRecursive, hchild]
          simp only [hr]
          rfl
        have hbelow : other.content.below token = left.content :=
          TopicTrieNode.below_of_find ((UnorderedMap.find_set _ _ _ _).trans (if_pos rfl))
        obtain ⟨nodes, hnodes, hleft⟩ := Shrunk.of_branch hn other hshrunk.kept
          hshrunk.gone (fun r hr _ ↦ hshrunk.frame r hr) hp hn.label hn.keys (fun _ _ ↦ rfl)
          (fun key hk ↦ TopicTrieNode.below_congr
            ((UnorderedMap.find_set _ _ _ _).trans (if_neg hk.symm)))
          (by rw [hf, hbelow]; exact htree)
        refine ⟨between, nodes, ?_, ?_, hleft⟩
        · rw [removeRecursive, hn.load, hother]
          simp only [Option.bind_eq_bind, Option.bind_some, hf, hremove]
        · rw [hother]
          exact hnodes
      | true =>
        obtain ⟨cleared, later, nodes, hdelete, hp', hs, hflag, hnodes, hleft⟩ :=
          exists_prune hn htree hshrunk
        have hother : node.removeRecursive clientId (token :: rest) =
            (.mk (UnorderedMap.erase node.children token) node.subscriberIds,
              decide ((UnorderedMap.erase node.children token).isEmpty ∧
                node.subscriberIds = ∅)) := by
          rw [TopicTrieNode.removeRecursive, hchild]
          simp only [hr]
        refine ⟨later, nodes, ?_, ?_, hleft⟩
        · rw [removeRecursive, hn.load, hother]
          simp only [Option.bind_eq_bind, Option.bind_some, hf, hremove, hdelete, hp', if_pos, hs,
            hflag]
          rw [hids]
          rfl
        · rw [hother]
          exact hnodes

/-! ### Steps -/

/-- Making a child takes steps. -/
theorem steps_ensureChild {malloc : Allocator NodeCell}
    (h : ensureChild malloc heap p token = some later) : Heap.Steps heap later := by
  obtain ⟨cell, -, h⟩ := Option.bind_eq_some_iff.mp h
  split at h
  · cases h
    exact .refl
  · exact .tail (.single (.new heap malloc _)) (.store h)

/-- Adding takes steps. -/
theorem steps_addLoop {malloc : Allocator NodeCell} {clientId : Bytes} {tokens : List Level}
    (h : addLoop malloc clientId heap p tokens = some later) : Heap.Steps heap later := by
  induction tokens generalizing heap p with
  | nil =>
    obtain ⟨cell, -, h⟩ := Option.bind_eq_some_iff.mp h
    exact .single (.store h)
  | cons token rest ih =>
    obtain ⟨between, hensure, h⟩ := Option.bind_eq_some_iff.mp h
    obtain ⟨cell, -, h⟩ := Option.bind_eq_some_iff.mp h
    obtain ⟨child, -, h⟩ := Option.bind_eq_some_iff.mp h
    exact (steps_ensureChild hensure).trans (ih h)

private theorem steps_removeRecursive {clientId : Bytes} {tokens : List Level} {prune : Bool}
    (h : removeRecursive clientId heap p tokens = some (later, prune)) : Heap.Steps heap later := by
  induction tokens generalizing heap p later prune with
  | nil =>
    obtain ⟨cell, -, h⟩ := Option.bind_eq_some_iff.mp h
    obtain ⟨between, hs, h⟩ := Option.bind_eq_some_iff.mp h
    cases h
    exact .single (.store hs)
  | cons token rest ih =>
    obtain ⟨cell, -, h⟩ := Option.bind_eq_some_iff.mp h
    split at h
    · cases h
      exact .refl
    · next child _ =>
      obtain ⟨⟨between, flag⟩, hr, h⟩ := Option.bind_eq_some_iff.mp h
      have hsteps := ih hr
      cases flag with
      | false =>
        cases h
        exact hsteps
      | true =>
        obtain ⟨cleared, hd, h⟩ := Option.bind_eq_some_iff.mp h
        obtain ⟨cell, -, h⟩ := Option.bind_eq_some_iff.mp h
        obtain ⟨-, h⟩ := Option.ite_none_right_eq_some.mp h
        obtain ⟨last, hs, h⟩ := Option.bind_eq_some_iff.mp h
        cases h
        exact (hsteps.trans (Heap.steps_destroy hd)).tail (.store hs)

end Nodes

/-! ### Any calls -/

/-- A trie in memory shows a trie of values, and its nodes are all there is. -/
structure Shows (pointers : PointerTrie) (trie : TopicTrie) (nodes : Finset Ptr) : Prop where
  tree : Tree pointers.heap pointers.root trie.root.content nodes
  all : ∀ p, (pointers.heap.load p).isSome ↔ p ∈ nodes
  accounted : pointers.heap.Accounted

variable {pointers : PointerTrie} {trie : TopicTrie} {nodes : Finset Ptr}

private theorem shows_new (malloc : Allocator NodeCell) :
    Shows (new malloc .empty) .new {(new malloc .empty).root} := by
  have hload := Heap.load_new .empty malloc (⟨[], ∅⟩ : NodeCell)
  constructor
  · exact Tree.leaf ((hload _).trans (if_pos rfl)) rfl fun _ _ ↦ rfl
  · intro p
    rw [Finset.mem_singleton]
    show ((Heap.new .empty malloc ⟨[], ∅⟩).2.load p).isSome ↔ _
    rw [hload p]
    split
    · next he => exact iff_of_true rfl he.symm
    · next hn => exact iff_of_false Bool.false_ne_true fun he ↦ hn he.symm
  · exact Heap.accounted_empty.step (.new .empty malloc _)

/-- A call has a result, and the trie in memory goes on to show the trie of values. -/
theorem Shows.perform (h : Shows pointers trie nodes) (malloc : Allocator NodeCell) (call : Call) :
    ∃ after left, pointers.perform malloc call = some after ∧
      Shows after (call.apply trie) left := by
  cases call with
  | add pattern clientId =>
    obtain ⟨later, left, hadd, htree, hgrown⟩ :=
      exists_addLoop malloc clientId (splitTopic pattern) h.tree
    refine ⟨⟨later, pointers.root⟩, left, ?_, htree, ?_, h.accounted.steps (steps_addLoop hadd)⟩
    · rw [PointerTrie.perform, addSubscription, hadd]
      rfl
    · intro p
      constructor
      · intro hp
        by_contra hn
        rw [hgrown.frame p hn] at hp
        exact hn (hgrown.kept ((h.all p).mp hp))
      · exact htree.isSome_load
  | remove pattern clientId =>
    obtain ⟨later, left, hremove, htree, hshrunk⟩ :=
      exists_removeRecursive clientId (splitTopic pattern) h.tree
    refine ⟨⟨later, pointers.root⟩, left, ?_, htree, ?_,
      h.accounted.steps (steps_removeRecursive hremove)⟩
    · rw [PointerTrie.perform, removeSubscription, hremove]
      rfl
    · intro p
      constructor
      · intro hp
        by_contra hn
        by_cases hm : p ∈ nodes
        · rw [hshrunk.gone p hm hn] at hp
          cases hp
        · rw [hshrunk.frame p hm, h.all] at hp
          exact hm hp
      · exact htree.isSome_load

/-- Any calls have results, and the trie in memory shows the trie of values behind them. -/
theorem exists_after (malloc : Allocator NodeCell) (calls : List Call) :
    ∃ pointers nodes, after malloc calls = some pointers ∧
      Shows pointers (TopicTrie.after calls) nodes := by
  induction calls using List.reverseRecOn with
  | nil => exact ⟨_, _, rfl, shows_new malloc⟩
  | append_singleton calls call ih =>
    obtain ⟨pointers, nodes, hafter, hshows⟩ := ih
    obtain ⟨later, left, hperform, hlater⟩ := hshows.perform malloc call
    refine ⟨later, left, ?_, ?_⟩
    · rw [after, List.foldlM_append, ← after, hafter]
      simp only [Option.bind_eq_bind, Option.bind_some, List.foldlM_cons, hperform]
      rfl
    · rw [TopicTrie.after, List.foldl_append]
      exact hlater

namespace Shows

/-- The search in memory finds what the trie of values does. -/
theorem findSubscribers (h : Shows pointers trie nodes) (topic : Bytes) :
    pointers.findSubscribers topic = some (trie.findSubscribers topic) :=
  collectMatchesRecursive_eq h.tree h.tree.card_le (splitTopic topic) ∅

/-- The ids at the end of each path are those of the trie of values. -/
theorem ids_walk (h : Shows pointers trie nodes) (path : List Level) :
    ((pointers.heap.walk pointers.root path).bind fun p ↦
      (pointers.heap.load p).map Cell.label) =
      (trie.root.nodeAt path).map TopicTrieNode.subscriberIds :=
  h.tree.label_walk path

/-- What is allocated are the nodes on the paths from the root, each on one path. -/
theorem isSome_load_iff (h : Shows pointers trie nodes) (p : Ptr) :
    (pointers.heap.load p).isSome ↔
      ∃! path, pointers.heap.walk pointers.root path = some p := by
  rw [h.all]
  constructor
  · exact h.tree.existsUnique_walk
  · rintro ⟨path, hw, -⟩
    exact h.tree.mem_of_walk hw

/-- The destructor leaves nothing behind, and each address has been given back as often as it
has been allocated. -/
theorem destroy (h : Shows pointers trie nodes) : ∃ heap, pointers.destroy = some heap ∧
    ∀ p, heap.load p = none ∧
      Alternates true false (heap.history.filterMap (Use.switch p)) ∧
      (heap.history.filterMap (Use.switch p)).getLast? ≠ some true := by
  obtain ⟨heap, hd, hgone, hkept⟩ := h.tree.exists_destroy h.tree.card_le
  refine ⟨heap, hd, ?_⟩
  intro p
  have hnone : heap.load p = none := by
    by_cases hm : p ∈ nodes
    · exact hgone p hm
    · rw [hkept p hm]
      exact Option.not_isSome_iff_eq_none.mp fun hs ↦ hm ((h.all p).mp hs)
  obtain ⟨halternates, hlast⟩ := (h.accounted.steps (Heap.steps_destroy hd)).alternates p
  refine ⟨hnone, halternates, ?_⟩
  rw [hnone] at hlast
  exact fun he ↦ Bool.false_ne_true (hlast.mpr he)

end Shows
end PointerTrie
end Broker.Topic
