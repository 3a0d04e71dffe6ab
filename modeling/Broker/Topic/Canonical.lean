import Broker.Topic.Subscriptions

/-!
# The trie has one shape for each set of subscriptions

Below the root every node carries an id or a child, since `remove_recursive` hands the
deletion of an emptied node to its parent. A tree of that kind is determined by the ids it
stores, as a tree of child maps and id sets; so the trie after any history is the trie of the
subscriptions that survive it.
-/

namespace Broker.Topic
open Broker.Base

namespace TopicTrieNode

/-- A node that carries an id or a child. -/
def Live (node : TopicTrieNode) : Prop := node.subscriberIds ≠ ∅ ∨ node.children ≠ []

/-- Every node below this one is live. -/
inductive Pruned : TopicTrieNode → Prop
  | mk {node : TopicTrieNode}
      (live : ∀ key child, UnorderedMap.find node.children key = some child → child.Live)
      (below : ∀ key child, UnorderedMap.find node.children key = some child → child.Pruned) :
      node.Pruned

/-- Equality of trees of child maps and id sets: the same ids, children at the same levels,
and equal children there. The order of a map's entries does not count. -/
inductive Same : TopicTrieNode → TopicTrieNode → Prop
  | mk {a b : TopicTrieNode} (ids : a.subscriberIds = b.subscriberIds)
      (keys : ∀ key, (UnorderedMap.find a.children key).isSome =
        (UnorderedMap.find b.children key).isSome)
      (below : ∀ key child other, UnorderedMap.find a.children key = some child →
        UnorderedMap.find b.children key = some other → Same child other) : Same a b

/-! ### Only live nodes -/

private theorem pruned_empty : Pruned empty := by
  apply Pruned.mk
  · intro key child hf
    cases hf
  · intro key child hf
    cases hf

private theorem Pruned.set {node child : TopicTrieNode} (h : node.Pruned) (hl : child.Live)
    (hp : child.Pruned) (token : Level) (ids : Finset Bytes) :
    (TopicTrieNode.mk (UnorderedMap.set node.children token child) ids).Pruned := by
  obtain ⟨hlive, hbelow⟩ := h
  apply Pruned.mk
  · intro key other hf
    rw [children_mk, UnorderedMap.find_set] at hf
    split at hf
    · exact Option.some.inj hf ▸ hl
    · exact hlive key other hf
  · intro key other hf
    rw [children_mk, UnorderedMap.find_set] at hf
    split at hf
    · exact Option.some.inj hf ▸ hp
    · exact hbelow key other hf

private theorem Pruned.erase {node : TopicTrieNode} (h : node.Pruned) (token : Level)
    (ids : Finset Bytes) :
    (TopicTrieNode.mk (UnorderedMap.erase node.children token) ids).Pruned := by
  obtain ⟨hlive, hbelow⟩ := h
  apply Pruned.mk
  · intro key other hf
    rw [children_mk, UnorderedMap.find_erase] at hf
    split at hf
    · cases hf
    · exact hlive key other hf
  · intro key other hf
    rw [children_mk, UnorderedMap.find_erase] at hf
    split at hf
    · cases hf
    · exact hbelow key other hf

private theorem Pruned.setIds {node : TopicTrieNode} (h : node.Pruned) (ids : Finset Bytes) :
    (TopicTrieNode.mk node.children ids).Pruned := by
  obtain ⟨hlive, hbelow⟩ := h
  exact .mk hlive hbelow

private theorem pruned_addTokens {node : TopicTrieNode} (h : node.Pruned) (clientId : Bytes)
    (tokens : List Level) :
    (node.addTokens clientId tokens).Live ∧ (node.addTokens clientId tokens).Pruned := by
  induction tokens generalizing node with
  | nil => exact ⟨.inl (Finset.insert_ne_empty _ _), h.setIds _⟩
  | cons token rest ih =>
    have hchild : ((UnorderedMap.find node.children token).getD empty).Pruned := by
      cases hf : UnorderedMap.find node.children token with
      | none => exact pruned_empty
      | some child =>
        obtain ⟨hlive, hbelow⟩ := h
        exact hbelow token child hf
    obtain ⟨hl, hp⟩ := ih hchild
    exact ⟨.inr (List.cons_ne_nil _ _), h.set hl hp token _⟩

private theorem live_of_flag {node : TopicTrieNode} {a b : Prop} [Decidable (a ∧ b)]
    (ha : node.subscriberIds = ∅ → node.children = [] → a ∧ b) (h : decide (a ∧ b) = false) :
    node.Live := by
  by_contra hn
  rw [Live, not_or, not_not, not_not] at hn
  exact of_decide_eq_false h (ha hn.1 hn.2)

/-- `remove_recursive` leaves only live nodes below the changed one, which itself stays live
unless it is reported for deletion. -/
theorem pruned_removeRecursive {node : TopicTrieNode} (h : node.Pruned) (clientId : Bytes)
    (tokens : List Level) :
    (node.removeRecursive clientId tokens).1.Pruned ∧
      (node.Live → (node.removeRecursive clientId tokens).2 = false →
        (node.removeRecursive clientId tokens).1.Live) := by
  induction tokens generalizing node with
  | nil =>
    apply And.intro
    · exact h.setIds _
    · intro _ hf
      apply live_of_flag _ hf
      intro hi hc
      exact ⟨hi, List.isEmpty_iff.mpr hc⟩
  | cons token rest ih =>
    rw [removeRecursive]
    cases hf : UnorderedMap.find node.children token with
    | none => exact ⟨h, fun hl _ ↦ hl⟩
    | some child =>
      have hc : child.Live ∧ child.Pruned := by
        obtain ⟨hlive, hbelow⟩ := h
        exact ⟨hlive token child hf, hbelow token child hf⟩
      obtain ⟨hp, hl⟩ := ih hc.2
      rcases hr : child.removeRecursive clientId rest with ⟨changed, prune⟩
      rw [hr] at hp hl
      cases prune with
      | true =>
        simp only [hr]
        apply And.intro
        · exact h.erase token _
        · intro _ hflag
          apply live_of_flag _ hflag
          intro hi he
          exact ⟨List.isEmpty_iff.mpr he, hi⟩
      | false =>
        simp only [hr]
        exact ⟨h.set (hl hc.1 rfl) hp token _, fun _ _ ↦ .inr (List.cons_ne_nil _ _)⟩

private theorem Pruned.live_of_nodeAt {node found : TopicTrieNode} (h : node.Pruned)
    {path : List Level} (hp : path ≠ []) (hn : node.nodeAt path = some found) : found.Live := by
  induction path generalizing node with
  | nil => exact absurd rfl hp
  | cons token rest ih =>
    obtain ⟨hlive, hbelow⟩ := h
    obtain ⟨child, hf, hn⟩ := Option.bind_eq_some_iff.mp hn
    by_cases hr : rest = []
    · rw [hr] at hn
      exact Option.some.inj hn ▸ hlive token child hf
    · exact ih (hbelow token child hf) hr hn

/-! ### The stored ids determine the tree -/

private theorem Pruned.exists_idsAt {node : TopicTrieNode} (h : node.Pruned) (hl : node.Live) :
    ∃ path, node.idsAt path ≠ ∅ := by
  induction h with
  | mk hlive hbelow ih =>
    obtain hi | hc := hl
    · exact ⟨[], hi⟩
    · obtain ⟨⟨key, child⟩, others, he⟩ := List.exists_cons_of_ne_nil hc
      have hf : UnorderedMap.find ((key, child) :: others) key = some child := if_pos rfl
      rw [← he] at hf
      obtain ⟨path, hp⟩ := ih key child hf (hlive key child hf)
      apply Exists.intro (key :: path)
      rw [idsAt_cons, hf]
      exact hp

private theorem isSome_of_idsAt {a b : TopicTrieNode} (ha : a.Pruned)
    (h : ∀ path, a.idsAt path = b.idsAt path) {key : Level}
    (hs : (UnorderedMap.find a.children key).isSome) :
    (UnorderedMap.find b.children key).isSome := by
  obtain ⟨hlive, hbelow⟩ := ha
  obtain ⟨child, hf⟩ := Option.isSome_iff_exists.mp hs
  obtain ⟨path, hp⟩ := (hbelow key child hf).exists_idsAt (hlive key child hf)
  have hk := h (key :: path)
  rw [idsAt_cons, idsAt_cons, hf] at hk
  cases hb : UnorderedMap.find b.children key with
  | none =>
    rw [hb] at hk
    exact absurd hk hp
  | some other => rfl

/-- Pruned trees that store the same ids at the same positions are equal. -/
theorem same_of_idsAt {a b : TopicTrieNode} (ha : a.Pruned) (hb : b.Pruned)
    (h : ∀ path, a.idsAt path = b.idsAt path) : Same a b := by
  induction ha generalizing b with
  | mk hlive hbelow ih =>
    apply Same.mk
    · exact h []
    · intro key
      rw [Bool.eq_iff_iff]
      constructor
      · exact isSome_of_idsAt (.mk hlive hbelow) h
      · exact isSome_of_idsAt hb fun path ↦ (h path).symm
    · intro key child other hc ho
      obtain ⟨-, hbelow'⟩ := hb
      apply ih key child hc (hbelow' key other ho)
      intro path
      have hk := h (key :: path)
      rwa [idsAt_cons, idsAt_cons, hc, ho] at hk

/-- A pruned tree that stores no id is a fresh node. -/
theorem Pruned.eq_empty {node : TopicTrieNode} (h : node.Pruned)
    (hi : ∀ path, node.idsAt path = ∅) : node = empty := by
  have hn : ¬ node.Live := by
    intro hl
    obtain ⟨path, hp⟩ := h.exists_idsAt hl
    exact hp (hi path)
  rw [Live, not_or, not_not, not_not] at hn
  rcases node with ⟨children, ids⟩
  obtain ⟨rfl, rfl⟩ : ids = ∅ ∧ children = [] := hn
  rfl

private theorem nodeAt_append (node : TopicTrieNode) (front back : List Level) :
    node.nodeAt (front ++ back) = (node.nodeAt front).bind fun found ↦ found.nodeAt back := by
  induction front generalizing node with
  | nil => rfl
  | cons token front ih =>
    rw [List.cons_append, nodeAt, nodeAt, Option.bind_assoc]
    congr 1
    funext child
    exact ih child

private theorem Pruned.nodeAt {node found : TopicTrieNode} (h : node.Pruned) {path : List Level}
    (hn : node.nodeAt path = some found) : found.Pruned := by
  induction path generalizing node with
  | nil => exact Option.some.inj hn ▸ h
  | cons token rest ih =>
    obtain ⟨-, hbelow⟩ := h
    obtain ⟨child, hf, hn⟩ := Option.bind_eq_some_iff.mp hn
    exact ih (hbelow token child hf) hn

/-- A pruned tree has a node below its root exactly where an id is stored there or further
down. -/
theorem Pruned.isSome_nodeAt_iff {node : TopicTrieNode} (h : node.Pruned) {path : List Level}
    (hp : path ≠ []) : (node.nodeAt path).isSome ↔ ∃ more, node.idsAt (path ++ more) ≠ ∅ := by
  have hids (more : List Level) : node.idsAt (path ++ more) =
      (((node.nodeAt path).bind fun found ↦ found.nodeAt more).map subscriberIds).getD ∅ := by
    rw [idsAt, nodeAt_append]
  constructor
  · intro hs
    obtain ⟨found, hf⟩ := Option.isSome_iff_exists.mp hs
    obtain ⟨more, hm⟩ := (h.nodeAt hf).exists_idsAt (h.live_of_nodeAt hp hf)
    refine ⟨more, ?_⟩
    rw [hids, hf]
    exact hm
  · rintro ⟨more, hm⟩
    rw [hids] at hm
    cases hf : node.nodeAt path with
    | none =>
      rw [hf] at hm
      exact absurd rfl hm
    | some found => rfl

end TopicTrieNode

/-! ### After a history of calls -/

/-- After any history of calls the trie has only live nodes below its root. -/
theorem pruned_after (calls : List Call) : (TopicTrie.after calls).root.Pruned := by
  induction calls using List.reverseRecOn with
  | nil => exact TopicTrieNode.pruned_empty
  | append_singleton calls call ih =>
    rw [TopicTrie.after, List.foldl_append, List.foldl_cons, List.foldl_nil]
    cases call with
    | add pattern id => exact (TopicTrieNode.pruned_addTokens ih id (splitTopic pattern)).2
    | remove pattern id =>
      exact (TopicTrieNode.pruned_removeRecursive ih id (splitTopic pattern)).1

/-- Adds of exactly the (level sequence, id) pairs that survive a history, in some order. -/
def Surviving (adds : List (Bytes × Bytes)) (calls : List Call) : Prop :=
  ∀ path clientId, (∃ pattern, (pattern, clientId) ∈ adds ∧ splitTopic pattern = path) ↔
    LastIsAdd calls path clientId

/-- The calls that add these pairs. -/
def addCalls (adds : List (Bytes × Bytes)) : List Call := adds.map fun pair ↦ .add pair.1 pair.2

/-- The pairs left by a history, one call after the other. -/
def survivors (calls : List Call) : List (Bytes × Bytes) :=
  calls.foldl (fun adds call ↦ match call with
    | .add pattern clientId => (pattern, clientId) :: adds
    | .remove pattern clientId =>
      adds.filter fun pair ↦ ¬ (splitTopic pair.1 = splitTopic pattern ∧ pair.2 = clientId)) []

private theorem surviving_survivors (calls : List Call) : Surviving (survivors calls) calls := by
  intro path clientId
  induction calls using List.reverseRecOn with
  | nil =>
    apply iff_of_false
    · rintro ⟨pattern, hm, -⟩
      cases hm
    · exact not_lastIsAdd_nil path clientId
  | append_singleton calls call ih =>
    rw [lastIsAdd_append_singleton, ← ih, survivors, List.foldl_append, List.foldl_cons,
      List.foldl_nil, ← survivors]
    cases call with
    | add pattern id =>
      simp only [List.mem_cons, Prod.mk.injEq, Call.add.injEq, Call.About]
      grind
    | remove pattern id =>
      simp only [List.mem_filter, decide_eq_true_eq, reduceCtorEq, false_and, exists_false,
        false_or, Call.About]
      grind

private theorem lastIsAdd_addCalls (adds : List (Bytes × Bytes)) (path : List Level)
    (clientId : Bytes) : LastIsAdd (addCalls adds) path clientId ↔
      ∃ pattern, (pattern, clientId) ∈ adds ∧ splitTopic pattern = path := by
  induction adds using List.reverseRecOn with
  | nil =>
    apply iff_of_false
    · exact not_lastIsAdd_nil path clientId
    · rintro ⟨pattern, hm, -⟩
      cases hm
  | append_singleton adds pair ih =>
    obtain ⟨pattern, id⟩ := pair
    rw [addCalls, List.map_append, List.map_singleton, lastIsAdd_append_singleton, ← addCalls, ih]
    simp only [Call.add.injEq, Call.About, List.mem_append, List.mem_singleton, Prod.mk.injEq]
    grind

/-- Histories with the same surviving pairs leave equal tries. -/
theorem same_after {calls other : List Call}
    (h : ∀ path clientId, LastIsAdd calls path clientId ↔ LastIsAdd other path clientId) :
    TopicTrieNode.Same (TopicTrie.after calls).root (TopicTrie.after other).root := by
  apply TopicTrieNode.same_of_idsAt (pruned_after calls) (pruned_after other)
  intro path
  ext clientId
  calc clientId ∈ (TopicTrie.after calls).root.idsAt path
      ↔ LastIsAdd calls path clientId := mem_subscriptions_after calls path clientId
    _ ↔ LastIsAdd other path clientId := h path clientId
    _ ↔ clientId ∈ (TopicTrie.after other).root.idsAt path :=
      (mem_subscriptions_after other path clientId).symm

/-- Without a surviving pair only the empty root is left. -/
theorem after_eq_new {calls : List Call} (h : ∀ path clientId, ¬ LastIsAdd calls path clientId) :
    TopicTrie.after calls = .new := by
  have he : (TopicTrie.after calls).root = .empty := by
    apply (pruned_after calls).eq_empty
    intro path
    apply Finset.eq_empty_of_forall_notMem
    intro clientId hm
    exact h path clientId ((mem_subscriptions_after calls path clientId).mp hm)
  exact congrArg TopicTrie.mk he

private theorem lastIsAdd_remove_absent {calls : List Call} {pattern id : Bytes}
    (h : ¬ LastIsAdd calls (splitTopic pattern) id) (path : List Level) (clientId : Bytes) :
    LastIsAdd (calls ++ [.remove pattern id]) path clientId ↔ LastIsAdd calls path clientId := by
  rw [lastIsAdd_append_singleton]
  constructor
  · rintro (⟨_, hc, -⟩ | ⟨-, hl⟩)
    · cases hc
    · exact hl
  · intro hl
    right
    apply And.intro
    · rintro ⟨rfl, rfl⟩
      exact h hl
    · exact hl

/-- The trie is canonical: below its root every node has an id or a child, and it equals the
trie made by adding just the surviving pairs in any order. -/
theorem trie_canonical (calls : List Call) :
    (∀ path node, path ≠ [] → (TopicTrie.after calls).root.nodeAt path = some node →
      node.subscriberIds ≠ ∅ ∨ node.children ≠ []) ∧
    (∃ adds, Surviving adds calls) ∧
    (∀ adds, Surviving adds calls →
      TopicTrieNode.Same (TopicTrie.after calls).root (TopicTrie.after (addCalls adds)).root) ∧
    (∀ other, (∀ path clientId,
        LastIsAdd calls path clientId ↔ LastIsAdd other path clientId) →
      TopicTrieNode.Same (TopicTrie.after calls).root (TopicTrie.after other).root) ∧
    (∀ pattern clientId, ¬ LastIsAdd calls (splitTopic pattern) clientId →
      TopicTrieNode.Same (TopicTrie.after (calls ++ [.remove pattern clientId])).root
        (TopicTrie.after calls).root) ∧
    ((∀ path clientId, ¬ LastIsAdd calls path clientId) → TopicTrie.after calls = .new) := by
  have hadds (adds : List (Bytes × Bytes)) (h : Surviving adds calls) (path : List Level)
      (clientId : Bytes) : LastIsAdd calls path clientId ↔
        LastIsAdd (addCalls adds) path clientId := by
    rw [lastIsAdd_addCalls, h path clientId]
  exact ⟨fun _ _ hp hn ↦ (pruned_after calls).live_of_nodeAt hp hn,
    ⟨survivors calls, surviving_survivors calls⟩, fun adds h ↦ same_after (hadds adds h),
    fun _ h ↦ same_after h, fun _ _ h ↦ same_after (lastIsAdd_remove_absent h), after_eq_new⟩

end Broker.Topic
