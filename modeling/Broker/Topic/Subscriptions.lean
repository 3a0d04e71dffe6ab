import Broker.Topic.Trie
import Mathlib.Data.Finset.Lattice.Basic
import Mathlib.Data.Set.Insert

/-!
# The trie as a plain set of subscriptions

What `TopicTrie` is for: a set of (level sequence, id) pairs, changed by adding or
removing one pair and queried through the reference relation. Every operation of the
trie refines the operation on the set, on every trie, so every history does.
-/

namespace Broker.Topic
open Broker.Base

/-- Subscriptions as a set of pairs: the abstract state of the trie. -/
abbrev Subscriptions := Set (List Level × Bytes)

/-- The ids with a subscription that matches the topic. -/
def Subscriptions.matching (subs : Subscriptions) (topic : List Level) : Set Bytes :=
  {clientId | ∃ path, (path, clientId) ∈ subs ∧ PatternMatches path topic}

/-- The subscriptions a trie stores. -/
def TopicTrie.subscriptions (trie : TopicTrie) : Subscriptions :=
  {entry | trie.Holds entry.1 entry.2}

namespace TopicTrieNode

/-! ### Adding and removing one pair -/

/-- Adding along a path changes the ids at that path only. -/
theorem idsAt_addTokens (node : TopicTrieNode) (clientId : Bytes) (path query : List Level) :
    (node.addTokens clientId path).idsAt query =
      if path = query then insert clientId (node.idsAt query) else node.idsAt query := by
  induction path generalizing node query with
  | nil =>
    cases query with
    | nil => rfl
    | cons token rest =>
      rw [addTokens, idsAt_cons, idsAt_cons]
      simp
  | cons token path ih =>
    cases query with
    | nil => rfl
    | cons key query =>
      simp only [addTokens, idsAt_cons, children_mk, UnorderedMap.find_set, List.cons.injEq]
      by_cases hk : token = key
      · subst hk
        simp only [↓reduceIte, true_and]
        rw [ih]
        cases UnorderedMap.find node.children token <;> simp
      · simp [hk]

/-- A node reported for deletion has no ids and no children. -/
theorem dead_of_removeRecursive {node : TopicTrieNode} {clientId : Bytes} {path : List Level}
    (h : (node.removeRecursive clientId path).2 = true) :
    (node.removeRecursive clientId path).1.children = [] ∧
      (node.removeRecursive clientId path).1.subscriberIds = ∅ := by
  cases path with
  | nil =>
    simp only [removeRecursive, decide_eq_true_eq, List.isEmpty_iff] at h ⊢
    exact ⟨h.2, h.1⟩
  | cons token rest =>
    rw [removeRecursive] at h ⊢
    cases hf : UnorderedMap.find node.children token with
    | none => simp [hf] at h
    | some child =>
      rcases hr : child.removeRecursive clientId rest with ⟨changed, prune⟩
      cases prune with
      | false => simp [hf, hr] at h
      | true =>
        simp only [hf, hr, decide_eq_true_eq, List.isEmpty_iff] at h ⊢
        exact h

/-- Removing along a path changes the ids at that path only: what is pruned held no id. -/
theorem idsAt_removeRecursive (node : TopicTrieNode) (clientId : Bytes)
    (path query : List Level) :
    (node.removeRecursive clientId path).1.idsAt query =
      if path = query then (node.idsAt query).erase clientId else node.idsAt query := by
  induction path generalizing node query with
  | nil =>
    cases query with
    | nil => rfl
    | cons token rest =>
      rw [removeRecursive, idsAt_cons, idsAt_cons]
      simp
  | cons token path ih =>
    rw [removeRecursive]
    cases hf : UnorderedMap.find node.children token with
    | none =>
      cases query with
      | nil => rfl
      | cons key query =>
        by_cases hk : token = key
        · subst hk
          simp [idsAt_cons, hf]
        · simp [hk]
    | some child =>
      have hchild := fun q ↦ ih child q
      have hdead : (child.removeRecursive clientId path).2 = true → _ := dead_of_removeRecursive
      rcases hr : child.removeRecursive clientId path with ⟨changed, prune⟩
      rw [hr] at hchild hdead
      cases query with
      | nil => cases prune <;> simp [hr]
      | cons key query =>
        cases prune with
        | false =>
          simp only [hr, idsAt_cons, children_mk, UnorderedMap.find_set, List.cons.injEq]
          by_cases hk : token = key
          · subst hk
            simpa [hf] using hchild query
          · simp [hk]
        | true =>
          -- The pruned child is empty everywhere, which is what its absence reads as.
          obtain ⟨hc, hi⟩ := hdead rfl
          simp only [hr, idsAt_cons, children_mk, UnorderedMap.find_erase, List.cons.injEq]
          by_cases hk : token = key
          · subst hk
            have hq := hchild query
            rw [idsAt_of_dead hc hi query] at hq
            simpa [hf] using hq
          · simp [hk]

/-! ### The search -/

/-- An id is stored below a node at some path that matches the given levels. -/
def Finds (node : TopicTrieNode) (tokens : List Level) (clientId : Bytes) : Prop :=
  ∃ path, clientId ∈ node.idsAt path ∧ PatternMatches path tokens

private theorem finds_of_child {node child : TopicTrieNode} {key : Level}
    (hf : UnorderedMap.find node.children key = some child) {tokens rest : List Level}
    {clientId : Bytes}
    (hstep : ∀ path, PatternMatches path rest → PatternMatches (key :: path) tokens)
    (h : child.Finds rest clientId) : node.Finds tokens clientId := by
  obtain ⟨path, hid, hp⟩ := h
  refine ⟨key :: path, ?_, hstep path hp⟩
  rw [idsAt_cons, hf]
  exact hid

private theorem child_of_idsAt_cons {node : TopicTrieNode} {key : Level} {path : List Level}
    {clientId : Bytes} (h : clientId ∈ node.idsAt (key :: path)) :
    ∃ child, UnorderedMap.find node.children key = some child ∧ clientId ∈ child.idsAt path := by
  rw [idsAt_cons] at h
  cases hf : UnorderedMap.find node.children key with
  | none => simp [hf] at h
  | some child => exact ⟨child, rfl, by simpa [hf] using h⟩

/-- At the end of the topic only the node itself and its `*` child are left. -/
theorem finds_nil_iff (node : TopicTrieNode) (clientId : Bytes) :
    node.Finds [] clientId ↔ clientId ∈ node.subscriberIds ∨
      ∃ child, UnorderedMap.find node.children star = some child ∧ child.Finds [] clientId := by
  constructor
  · rintro ⟨path, hid, hp⟩
    cases path with
    | nil => exact .inl hid
    | cons key path =>
      by_cases hs : key = star
      · subst hs
        obtain ⟨child, hf, hc⟩ := child_of_idsAt_cons hid
        obtain ⟨rest, hr, hp⟩ := patternMatches_star_iff.mp hp
        have he : rest = [] := by simpa using hr
        exact .inr ⟨child, hf, path, hc, he ▸ hp⟩
      · exact absurd hp (not_patternMatches_cons_nil hs)
  · rintro (hid | ⟨child, hf, hc⟩)
    · exact ⟨[], hid, patternMatches_nil_iff.mpr rfl⟩
    · exact finds_of_child hf
        (fun path hp ↦ patternMatches_star_iff.mpr ⟨[], by simp, hp⟩) hc

/-- With a level left, the literal child, the `+` child and the `*` child are left. -/
theorem finds_cons_iff (node : TopicTrieNode) (token : Level) (rest : List Level)
    (clientId : Bytes) :
    node.Finds (token :: rest) clientId ↔
      (∃ child, UnorderedMap.find node.children token = some child ∧ child.Finds rest clientId) ∨
      (∃ child, UnorderedMap.find node.children plus = some child ∧ child.Finds rest clientId) ∨
      ∃ child, UnorderedMap.find node.children star = some child ∧
        ∃ left ∈ (token :: rest).tails, child.Finds left clientId := by
  constructor
  · rintro ⟨path, hid, hp⟩
    cases path with
    | nil => exact absurd (patternMatches_nil_iff.mp hp) (by simp)
    | cons key path =>
      obtain ⟨child, hf, hc⟩ := child_of_idsAt_cons hid
      by_cases hs : key = star
      · subst hs
        obtain ⟨left, hl, hp⟩ := patternMatches_star_iff.mp hp
        exact .inr (.inr ⟨child, hf, left, hl, path, hc, hp⟩)
      · obtain ⟨hk | hk, hp⟩ := (patternMatches_cons_iff hs).mp hp
        · exact .inr (.inl ⟨child, hk ▸ hf, path, hc, hp⟩)
        · exact .inl ⟨child, hk ▸ hf, path, hc, hp⟩
  · rintro (⟨child, hf, hc⟩ | ⟨child, hf, hc⟩ | ⟨child, hf, left, hl, hc⟩)
    · refine finds_of_child hf (fun path hp ↦ ?_) hc
      -- A published level spelled `*` reaches the `*` child, which may skip just that level.
      by_cases hs : token = star
      · subst hs
        exact patternMatches_star_iff.mpr ⟨rest, by simp, hp⟩
      · exact (patternMatches_cons_iff hs).mpr ⟨.inr rfl, hp⟩
    · exact finds_of_child hf
        (fun path hp ↦ (patternMatches_cons_iff plus_ne_star).mpr ⟨.inl rfl, hp⟩) hc
    · exact finds_of_child hf (fun path hp ↦ patternMatches_star_iff.mpr ⟨left, hl, hp⟩) hc

private theorem mem_foldl_union {α β : Type} (step : Finset α → β → Finset α) (P : β → Prop)
    (c : α) (hstep : ∀ results b, c ∈ step results b ↔ c ∈ results ∨ P b) (bs : List β)
    (results : Finset α) :
    c ∈ bs.foldl step results ↔ c ∈ results ∨ ∃ b ∈ bs, P b := by
  induction bs generalizing results with
  | nil => simp
  | cons b bs ih => simp [ih, hstep, or_assoc]

mutual
/-- The search adds exactly the ids stored at a path that matches the remaining levels. -/
theorem mem_collectMatchesRecursive (clientId : Bytes) :
    ∀ (node : TopicTrieNode) (tokens : List Level) (results : Finset Bytes),
      clientId ∈ node.collectMatchesRecursive tokens results ↔
        clientId ∈ results ∨ node.Finds tokens clientId
  | mk children ids, tokens, results => by
    have hchild := mem_collectChild clientId children
    cases tokens with
    | nil =>
      rw [collectMatchesRecursive, hchild, finds_nil_iff, children_mk, subscriberIds_mk]
      simp [or_assoc]
    | cons token rest =>
      rw [collectMatchesRecursive, hchild, hchild, hchild, finds_cons_iff, children_mk]
      simp only [List.mem_singleton, exists_eq_left, or_assoc]
termination_by structural node => node

/-- Searching one child from several positions adds what each of them finds. -/
theorem mem_collectChild (clientId : Bytes) :
    ∀ (children : List (Level × TopicTrieNode)) (key : Level) (positions : List (List Level))
      (results : Finset Bytes),
      clientId ∈ collectChild children key positions results ↔
        clientId ∈ results ∨ ∃ child, UnorderedMap.find children key = some child ∧
          ∃ rest ∈ positions, child.Finds rest clientId
  | [], key, positions, results => by simp [collectChild]
  | (token, child) :: more, key, positions, results => by
    have hnode := mem_collectMatchesRecursive clientId child
    have hmore := mem_collectChild clientId more key positions results
    rw [collectChild, UnorderedMap.find]
    split
    · rw [mem_foldl_union _ _ _ (fun results rest ↦ hnode rest results)]
      simp
    · exact hmore
termination_by structural children => children
end

end TopicTrieNode

namespace TopicTrie

variable (trie : TopicTrie) (pattern clientId : Bytes)

/-- `add_subscription` inserts one pair. -/
theorem subscriptions_addSubscription :
    (trie.addSubscription pattern clientId).subscriptions =
      insert (splitTopic pattern, clientId) trie.subscriptions := by
  ext ⟨path, id⟩
  simp only [subscriptions, Holds, addSubscription, Set.mem_ofPred_eq, Set.mem_insert_iff,
    TopicTrieNode.idsAt_addTokens, Prod.mk.injEq]
  by_cases hp : splitTopic pattern = path
  · simp [hp]
  · simp [hp, Ne.symm hp]

/-- `remove_subscription` deletes one pair, present or not. -/
theorem subscriptions_removeSubscription :
    (trie.removeSubscription pattern clientId).subscriptions =
      trie.subscriptions \ {(splitTopic pattern, clientId)} := by
  ext ⟨path, id⟩
  simp only [subscriptions, Holds, removeSubscription, Set.mem_ofPred_eq, Set.mem_sdiff,
    Set.mem_singleton_iff, TopicTrieNode.idsAt_removeRecursive, Prod.mk.injEq]
  by_cases hp : splitTopic pattern = path
  · simp [hp, and_comm]
  · simp [hp, Ne.symm hp]

/-- After `add_subscription` the pair is held, and the others are as before. -/
theorem holds_addSubscription {path : List Level} {id : Bytes} :
    (trie.addSubscription pattern clientId).Holds path id ↔
      splitTopic pattern = path ∧ clientId = id ∨ trie.Holds path id := by
  have h := Set.ext_iff.mp (subscriptions_addSubscription trie pattern clientId) (path, id)
  rw [Set.mem_insert_iff, Prod.mk.injEq, @eq_comm _ path, @eq_comm _ id] at h
  exact h

/-- After `remove_subscription` the pair is not held, and the others are as before. -/
theorem holds_removeSubscription {path : List Level} {id : Bytes} :
    (trie.removeSubscription pattern clientId).Holds path id ↔
      trie.Holds path id ∧ ¬ (splitTopic pattern = path ∧ clientId = id) := by
  have h := Set.ext_iff.mp (subscriptions_removeSubscription trie pattern clientId) (path, id)
  rw [Set.mem_sdiff, Set.mem_singleton_iff, Prod.mk.injEq, @eq_comm _ path, @eq_comm _ id] at h
  exact h

/-- `find_subscribers` answers the query on the set. -/
theorem mem_findSubscribers (topic : Bytes) :
    clientId ∈ trie.findSubscribers topic ↔
      clientId ∈ trie.subscriptions.matching (splitTopic topic) := by
  rw [findSubscribers, TopicTrieNode.mem_collectMatchesRecursive]
  simp only [Finset.notMem_empty, false_or]
  rfl

/-- The empty trie stores no subscription. -/
theorem subscriptions_new : new.subscriptions = ∅ := by
  ext ⟨path, id⟩
  simp [subscriptions, Holds, new]

end TopicTrie

/-! ### Histories -/

/-- One call that changes a trie. -/
inductive Call
  | add (pattern clientId : Bytes)
  | remove (pattern clientId : Bytes)

namespace Call

/-- Execute a call. -/
def apply (trie : TopicTrie) : Call → TopicTrie
  | add pattern clientId => trie.addSubscription pattern clientId
  | remove pattern clientId => trie.removeSubscription pattern clientId

/-- A call concerns a pair when its pattern has those levels and its id is that id. -/
def About (path : List Level) (clientId : Bytes) : Call → Prop
  | add pattern id => splitTopic pattern = path ∧ id = clientId
  | remove pattern id => splitTopic pattern = path ∧ id = clientId

end Call

/-- The trie after a sequence of calls on a fresh one. -/
def TopicTrie.after (calls : List Call) : TopicTrie := calls.foldl Call.apply .new

/-- The last call about a pair was an add. -/
def LastIsAdd (calls : List Call) (path : List Level) (clientId : Bytes) : Prop :=
  ∃ before pattern later, calls = before ++ .add pattern clientId :: later ∧
    splitTopic pattern = path ∧ ∀ call ∈ later, ¬ call.About path clientId

/-- No call, no add. -/
theorem not_lastIsAdd_nil (path : List Level) (clientId : Bytes) :
    ¬ LastIsAdd [] path clientId := by
  rintro ⟨before, pattern, later, h, -⟩
  simp at h

/-- A further call settles the pair it is about and leaves every other pair alone. -/
theorem lastIsAdd_append_singleton (calls : List Call) (call : Call) (path : List Level)
    (clientId : Bytes) :
    LastIsAdd (calls ++ [call]) path clientId ↔
      (∃ pattern, call = .add pattern clientId ∧ splitTopic pattern = path) ∨
        ¬ call.About path clientId ∧ LastIsAdd calls path clientId := by
  constructor
  · rintro ⟨before, pattern, later, h, hp, hl⟩
    rcases List.eq_nil_or_concat later with rfl | ⟨later, last, rfl⟩
    · obtain ⟨-, hc⟩ := List.append_inj' h rfl
      exact .inl ⟨pattern, List.singleton_inj.mp hc, hp⟩
    · rw [List.concat_eq_append, ← List.cons_append, ← List.append_assoc] at h
      obtain ⟨hb, hc⟩ := List.append_inj' h rfl
      obtain rfl := List.singleton_inj.mp hc
      exact .inr ⟨hl call (by simp), before, pattern, later, hb, hp,
        fun c hm ↦ hl c (by simp [hm])⟩
  · rintro (⟨pattern, rfl, hp⟩ | ⟨hn, before, pattern, later, rfl, hp, hl⟩)
    · exact ⟨calls, pattern, [], by simp, hp, by simp⟩
    · refine ⟨before, pattern, later ++ [call], by simp, hp, ?_⟩
      intro c hm
      rcases List.mem_append.mp hm with hm | hm
      · exact hl c hm
      · rwa [List.mem_singleton.mp hm]

/-- What the trie stores after any history is decided by the last call about each pair. -/
theorem mem_subscriptions_after (calls : List Call) (path : List Level) (clientId : Bytes) :
    (path, clientId) ∈ (TopicTrie.after calls).subscriptions ↔ LastIsAdd calls path clientId := by
  induction calls using List.reverseRecOn with
  | nil =>
    rw [TopicTrie.after, List.foldl_nil, TopicTrie.subscriptions_new]
    simpa using not_lastIsAdd_nil path clientId
  | append_singleton calls call ih =>
    rw [lastIsAdd_append_singleton, ← ih, TopicTrie.after, List.foldl_append, List.foldl_cons,
      List.foldl_nil]
    change (path, clientId) ∈ (Call.apply (TopicTrie.after calls) call).subscriptions ↔ _
    cases call with
    | add pattern id =>
      rw [Call.apply, TopicTrie.subscriptions_addSubscription, Set.mem_insert_iff]
      simp only [Prod.mk.injEq, Call.add.injEq, Call.About]
      grind
    | remove pattern id =>
      rw [Call.apply, TopicTrie.subscriptions_removeSubscription]
      simp only [Set.mem_sdiff, Set.mem_singleton_iff, Prod.mk.injEq, reduceCtorEq, false_and,
        exists_false, false_or, Call.About]
      grind

/-- After any history of adds and removes, the search for a topic returns exactly the ids
with a matching pattern whose last call was an add. -/
theorem findSubscribers_after (calls : List Call) (topic clientId : Bytes) :
    clientId ∈ (TopicTrie.after calls).findSubscribers topic ↔
      ∃ path, LastIsAdd calls path clientId ∧ PatternMatches path (splitTopic topic) := by
  rw [TopicTrie.mem_findSubscribers]
  exact exists_congr fun path ↦ and_congr_left' (mem_subscriptions_after calls path clientId)

end Broker.Topic
