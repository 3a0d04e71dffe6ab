import Broker.Base.Backtracking
import Broker.Topic.Canonical
import Mathlib.Algebra.Order.BigOperators.Group.Finset
import Mathlib.Data.Nat.Choose.Sum

/-!
# What a search costs

`collect_matches_recursive` (`TopicTrie.cpp:57–85`) comes to a node as often as its pattern can be
aligned with a front of the topic, whether anything is found behind it or not. Its calls are
listed in their order, and counted.
-/

namespace Broker.Topic
open Broker.Base

namespace TopicTrieNode

mutual
/-- The calls a search makes, itself first: the node, and the tokens from the index on. -/
def searchCalls : TopicTrieNode → List Level → List (TopicTrieNode × List Level)
  | mk children subscriberIds, tokens =>
    let literal := match tokens with
      | token :: rest => childCalls children token [rest]
      | [] => []
    let single := match tokens with
      | _ :: rest => childCalls children plus [rest]
      | [] => []
    (mk children subscriberIds, tokens) :: literal ++ single ++
      childCalls children star tokens.tails
termination_by structural node => node

/-- The calls for the child under a key, from each of the given positions. -/
def childCalls : List (Level × TopicTrieNode) → Level → List (List Level) →
    List (TopicTrieNode × List Level)
  | [], _, _ => []
  | (token, child) :: more, key, positions =>
    if token = key then positions.flatMap fun rest ↦ searchCalls child rest
    else childCalls more key positions
termination_by structural children => children
end

/-- What a call adds to the results, `TopicTrie.cpp:65–68`. -/
def collect (results : Finset Bytes) : TopicTrieNode × List Level → Finset Bytes
  | (node, []) => results ∪ node.subscriberIds
  | (_, _ :: _) => results

/-- The moves of a search, `TopicTrie.cpp:60–84`. -/
abbrev searchMoves : List Level → List (Level × List Level) := wildcardMoves plus star

mutual
/-- A search finds what its calls collect, one after the other. -/
theorem collectMatchesRecursive_eq_foldl : ∀ (node : TopicTrieNode) (tokens : List Level)
    (results : Finset Bytes), node.collectMatchesRecursive tokens results =
      (node.searchCalls tokens).foldl collect results
  | mk children ids, tokens, results => by
    have hchild := collectChild_eq_foldl children
    cases tokens with
    | nil =>
      rw [collectMatchesRecursive, searchCalls, hchild]
      rfl
    | cons token rest =>
      rw [collectMatchesRecursive, searchCalls, hchild, hchild, hchild, List.foldl_append,
        List.cons_append, List.foldl_cons, List.foldl_append]
      rfl
termination_by structural node => node

/-- The search of one child finds what the calls for this child collect. -/
theorem collectChild_eq_foldl : ∀ (children : List (Level × TopicTrieNode)) (key : Level)
    (positions : List (List Level)) (results : Finset Bytes),
    collectChild children key positions results =
      (childCalls children key positions).foldl collect results
  | [], _, _, _ => rfl
  | (token, child) :: more, key, positions, results => by
    have hnode := collectMatchesRecursive_eq_foldl child
    have hmore := collectChild_eq_foldl more key positions results
    rw [collectChild, childCalls]
    split
    · rw [List.foldl_flatMap]
      exact List.foldl_ext _ _ _ fun results rest _ ↦ hnode rest results
    · exact hmore
termination_by structural children => children
end

mutual
/-- The paths from a node to the nodes below it and itself. -/
def paths : TopicTrieNode → Finset (List Level)
  | mk children _ => insert [] (childPaths children)
termination_by structural node => node

/-- The paths to the children in a map and to the nodes below them. -/
def childPaths : List (Level × TopicTrieNode) → Finset (List Level)
  | [] => ∅
  | (token, child) :: more =>
    (paths child).image (token :: ·) ∪ (childPaths more).filter fun path ↦ path.head? ≠ some token
termination_by structural children => children
end

mutual
/-- The paths of a node are those that lead to one. -/
theorem mem_paths : ∀ (node : TopicTrieNode) (path : List Level),
    path ∈ node.paths ↔ (node.nodeAt path).isSome
  | mk children ids, path => by
    have hchild := mem_childPaths children
    rw [paths, Finset.mem_insert, hchild]
    cases path with
    | nil => simp [nodeAt]
    | cons token rest => simp [nodeAt]
termination_by structural node => node

/-- The paths below a map of children begin with a key and go on with a path of its child. -/
theorem mem_childPaths : ∀ (children : List (Level × TopicTrieNode)) (path : List Level),
    path ∈ childPaths children ↔ ∃ key rest, path = key :: rest ∧
      ((UnorderedMap.find children key).bind fun child ↦ child.nodeAt rest).isSome
  | [], path => by simp [childPaths, UnorderedMap.find]
  | (token, child) :: more, path => by
    have hnode := mem_paths child
    have hmore := mem_childPaths more
    rw [childPaths, Finset.mem_union, Finset.mem_image, Finset.mem_filter, hmore]
    constructor
    · rintro (⟨rest, hm, rfl⟩ | ⟨⟨key, rest, rfl, hm⟩, hne⟩)
      · refine ⟨token, rest, rfl, ?_⟩
        rw [UnorderedMap.find, if_pos rfl]
        exact (hnode rest).mp hm
      · refine ⟨key, rest, rfl, ?_⟩
        rwa [UnorderedMap.find, if_neg fun he : token = key ↦ hne (congrArg some he.symm)]
    · rintro ⟨key, rest, rfl, hm⟩
      rw [UnorderedMap.find] at hm
      split at hm
      · next he => exact .inl ⟨rest, (hnode rest).mpr hm, he ▸ rfl⟩
      · next he => exact .inr ⟨⟨key, rest, rfl, hm⟩, fun hh ↦ he (Option.some.inj hh).symm⟩
termination_by structural children => children
end

mutual
private theorem length_searchCalls_of : ∀ (node : TopicTrieNode) {nodes : Finset (List Level)},
    (∀ path, path ∈ nodes ↔ (node.nodeAt path).isSome) →
    ∀ tokens, (node.searchCalls tokens).length = ∑ path ∈ nodes, ways searchMoves path tokens
  | mk children ids, nodes, h, tokens => by
    have hroot : [] ∈ nodes := (h []).mpr rfl
    have hchild (key : Level) := length_childCalls children key fun path ↦
      mem_below.trans (h (key :: path))
    rw [sum_ways hroot]
    cases tokens with
    | nil => simp [searchCalls, hchild, wildcardMoves, letterMoves, Nat.add_comm]
    | cons token rest =>
      simp [searchCalls, hchild, wildcardMoves, letterMoves, Function.comp_def]
      omega
termination_by structural node => node

/-- The calls for one child, from several positions, are the ways below it from each of them. -/
theorem length_childCalls : ∀ (children : List (Level × TopicTrieNode)) (key : Level)
    {nodes : Finset (List Level)}, (∀ path, path ∈ nodes ↔
      ((UnorderedMap.find children key).bind fun child ↦ child.nodeAt path).isSome) →
    ∀ positions, (childCalls children key positions).length =
      (positions.map fun rest ↦ ∑ path ∈ nodes, ways searchMoves path rest).sum
  | [], key, nodes, h, positions => by
    obtain rfl : nodes = ∅ := Finset.eq_empty_of_forall_notMem fun path hm ↦
      Bool.false_ne_true ((h path).mp hm)
    simp [childCalls]
  | (token, child) :: more, key, nodes, h, positions => by
    have hnode := @length_searchCalls_of child nodes
    have hmore := @length_childCalls more key nodes
    rw [childCalls]
    split
    · next he =>
      have hnodes (path : List Level) : path ∈ nodes ↔ (child.nodeAt path).isSome := by
        rw [h path, UnorderedMap.find, if_pos he, Option.bind_some]
      rw [List.length_flatMap]
      exact congrArg List.sum (List.map_congr_left fun rest _ ↦ hnode hnodes rest)
    · next he =>
      apply hmore
      intro path
      rw [h path, UnorderedMap.find, if_neg he]
termination_by structural children => children
end

variable (node : TopicTrieNode) {tokens : List Level}

/-- The calls of a search, one for each way to a node. -/
theorem length_searchCalls (tokens : List Level) :
    (node.searchCalls tokens).length = ∑ path ∈ node.paths, ways searchMoves path tokens :=
  node.length_searchCalls_of node.mem_paths tokens

/-- A search makes at most so many calls. -/
theorem length_searchCalls_le {b : Nat} (hb : 1 ≤ b)
    (ht : ∀ token ∈ tokens, token = plus ∨ token = star → 2 ≤ b) :
    (node.searchCalls tokens).length ≤ ∑ path ∈ node.paths,
      b ^ (path.count plus + path.count star) *
        (tokens.length + path.count star).choose (path.count star) := by
  rw [length_searchCalls]
  exact Finset.sum_le_sum fun path _ ↦ ways_wildcard_le plus_ne_star hb path ht

/-- On a way of stars a search makes at least so many calls. -/
theorem choose_le_length_searchCalls {n : Nat}
    (h : ∀ k ≤ n, List.replicate k star ∈ node.paths) (tokens : List Level) :
    (tokens.length + n + 1).choose n ≤ (node.searchCalls tokens).length := by
  have hinj : Set.InjOn (fun k ↦ List.replicate k star) (Finset.range (n + 1) : Set Nat) :=
    (List.replicate_left_injective star).injOn
  have hsubset : (Finset.range (n + 1)).image (fun k ↦ List.replicate k star) ⊆ node.paths := by
    intro path hm
    obtain ⟨k, hk, rfl⟩ := Finset.mem_image.mp hm
    exact h k (Nat.lt_succ_iff.mp (Finset.mem_range.mp hk))
  calc (tokens.length + n + 1).choose n
    _ = ∑ k ∈ Finset.range (n + 1), (tokens.length + k).choose k := by
      have hsum := Nat.sum_range_add_choose n tokens.length
      rw [Nat.choose_symm_of_eq_add (by omega : n + tokens.length + 1 = tokens.length + 1 + n)]
        at hsum
      rw [Nat.add_comm tokens.length n, ← hsum]
      exact Finset.sum_congr rfl fun k _ ↦ by rw [Nat.add_comm k, Nat.choose_symm_add]
    _ ≤ ∑ k ∈ Finset.range (n + 1), ways searchMoves (List.replicate k star) tokens :=
      Finset.sum_le_sum fun k _ ↦ choose_le_ways k tokens
    _ = ∑ path ∈ (Finset.range (n + 1)).image fun k ↦ List.replicate k star,
          ways searchMoves path tokens :=
      (Finset.sum_image (f := fun path ↦ ways searchMoves path tokens) hinj).symm
    _ ≤ ∑ path ∈ node.paths, ways searchMoves path tokens :=
      Finset.sum_le_sum_of_subset hsubset
    _ = (node.searchCalls tokens).length := (node.length_searchCalls tokens).symm

end TopicTrieNode
end Broker.Topic
