import Broker.Base.UnorderedMap
import Broker.Topic.Split
import Mathlib.Data.Finset.Basic

/-!
# The subscription trie

`TopicTrie` (`TopicTrie.hpp:12–42`, `TopicTrie.cpp:33–104`). A position `index` in the
token vector is represented by the tokens from there on; `tails` enumerates the positions
`index, …, tokens.size()` of the `*` loop. The root is the node itself, as the class owns
nothing else.
-/

namespace Broker.Topic
open Broker.Base

/-- `TopicTrieNode`, `TopicTrie.hpp:12–20`. -/
inductive TopicTrieNode
  | mk (children : List (Level × TopicTrieNode)) (subscriberIds : Finset Bytes)

namespace TopicTrieNode

/-- The child map of a node. -/
def children : TopicTrieNode → UnorderedMap Level TopicTrieNode
  | mk children _ => children

/-- The ids subscribed to the pattern ending at a node. -/
def subscriberIds : TopicTrieNode → Finset Bytes
  | mk _ subscriberIds => subscriberIds

@[simp] theorem children_mk (children : UnorderedMap Level TopicTrieNode) (ids : Finset Bytes) :
    (mk children ids).children = children := rfl

@[simp] theorem subscriberIds_mk (children : UnorderedMap Level TopicTrieNode)
    (ids : Finset Bytes) : (mk children ids).subscriberIds = ids := rfl

/-- A node as `new TopicTrieNode()` makes it. -/
def empty : TopicTrieNode := mk [] ∅

/-- The descent of `add_subscription` (`TopicTrie.cpp:35–42`), creating missing children. -/
def addTokens (node : TopicTrieNode) (clientId : Bytes) : List Level → TopicTrieNode
  | [] => mk node.children (insert clientId node.subscriberIds)
  | token :: rest =>
    let child := (UnorderedMap.find node.children token).getD empty
    mk (UnorderedMap.set node.children token (child.addTokens clientId rest)) node.subscriberIds

/-- `TopicTrie::remove_recursive`, `TopicTrie.cpp:87–104`: the changed node, and whether
its parent has to delete it. -/
def removeRecursive (node : TopicTrieNode) (clientId : Bytes) :
    List Level → TopicTrieNode × Bool
  | [] =>
    let ids := node.subscriberIds.erase clientId
    (mk node.children ids, ids = ∅ ∧ node.children.isEmpty)
  | token :: rest =>
    match UnorderedMap.find node.children token with
    | some child =>
      match child.removeRecursive clientId rest with
      | (_, true) =>
        let children := UnorderedMap.erase node.children token
        (mk children node.subscriberIds, children.isEmpty ∧ node.subscriberIds = ∅)
      | (child, false) =>
        (mk (UnorderedMap.set node.children token child) node.subscriberIds, false)
    | none => (node, false)

mutual
/-- `TopicTrie::collect_matches_recursive`, `TopicTrie.cpp:57–85`. -/
def collectMatchesRecursive :
    TopicTrieNode → List Level → Finset Bytes → Finset Bytes
  | mk children subscriberIds, tokens, results =>
    let results := match tokens with
      | token :: rest => collectChild children token [rest] results
      | [] => results ∪ subscriberIds
    let results := match tokens with
      | _ :: rest => collectChild children plus [rest] results
      | [] => results
    collectChild children star tokens.tails results
termination_by structural node => node

/-- Look a child up and, if it is there, search it from each of the given positions. -/
def collectChild : List (Level × TopicTrieNode) → Level → List (List Level) →
    Finset Bytes → Finset Bytes
  | [], _, _, results => results
  | (token, child) :: more, key, positions, results =>
    if token = key then
      positions.foldl (fun results rest ↦ collectMatchesRecursive child rest results) results
    else collectChild more key positions results
termination_by structural children => children
end

/-- The node reached from a node along a level sequence. -/
def nodeAt (node : TopicTrieNode) : List Level → Option TopicTrieNode
  | [] => some node
  | token :: rest => (UnorderedMap.find node.children token).bind fun child ↦ child.nodeAt rest

/-- The ids at the node reached along a level sequence, none when there is no such node. -/
def idsAt (node : TopicTrieNode) (path : List Level) : Finset Bytes :=
  ((node.nodeAt path).map subscriberIds).getD ∅

/-- The child lookup of the search, spelled with the map's own `find`. -/
theorem collectChild_eq (children : UnorderedMap Level TopicTrieNode) (key : Level)
    (positions : List (List Level)) (results : Finset Bytes) :
    collectChild children key positions results =
      match UnorderedMap.find children key with
      | some child =>
        positions.foldl (fun results rest ↦ child.collectMatchesRecursive rest results) results
      | none => results := by
  induction children with
  | nil => rfl
  | cons entry children ih =>
    rcases entry with ⟨token, child⟩
    rw [collectChild, UnorderedMap.find]
    split
    · rfl
    · exact ih

/-- The empty level sequence reaches the node itself. -/
@[simp] theorem idsAt_nil (node : TopicTrieNode) : node.idsAt [] = node.subscriberIds := rfl

/-- The first level selects a child, and the rest is read there. -/
theorem idsAt_cons (node : TopicTrieNode) (token : Level) (rest : List Level) :
    node.idsAt (token :: rest) =
      match UnorderedMap.find node.children token with
      | some child => child.idsAt rest
      | none => ∅ := by
  unfold idsAt
  rw [nodeAt]
  cases UnorderedMap.find node.children token <;> rfl

/-- A fresh node holds no id anywhere. -/
@[simp] theorem idsAt_empty (path : List Level) : empty.idsAt path = ∅ := by
  cases path with
  | nil => rfl
  | cons token rest => rfl

/-- A node without children and without ids holds no id anywhere. -/
theorem idsAt_of_dead {node : TopicTrieNode} (hc : node.children = [])
    (hi : node.subscriberIds = ∅) (path : List Level) : node.idsAt path = ∅ := by
  cases path with
  | nil => exact hi
  | cons token rest => rw [idsAt_cons, hc]; rfl

end TopicTrieNode

/-- `TopicTrie`, `TopicTrie.hpp:22–42`: its only field is the root. -/
structure TopicTrie where
  root : TopicTrieNode

namespace TopicTrie

/-- The constructor, `TopicTrie.cpp:13–15`. -/
def new : TopicTrie := ⟨.empty⟩

/-- `TopicTrie::add_subscription`, `TopicTrie.cpp:33–43`. -/
def addSubscription (trie : TopicTrie) (pattern clientId : Bytes) : TopicTrie :=
  ⟨trie.root.addTokens clientId (splitTopic pattern)⟩

/-- `TopicTrie::remove_subscription`, `TopicTrie.cpp:45–48`; the root stays whatever the
recursion reports. -/
def removeSubscription (trie : TopicTrie) (pattern clientId : Bytes) : TopicTrie :=
  ⟨(trie.root.removeRecursive clientId (splitTopic pattern)).1⟩

/-- `TopicTrie::find_subscribers`, `TopicTrie.cpp:50–55`. -/
def findSubscribers (trie : TopicTrie) (concreteTopic : Bytes) : Finset Bytes :=
  trie.root.collectMatchesRecursive (splitTopic concreteTopic) ∅

/-- A client's id is stored at a level sequence. -/
def Holds (trie : TopicTrie) (path : List Level) (clientId : Bytes) : Prop :=
  clientId ∈ trie.root.idsAt path

/-- A fresh trie holds no id anywhere. -/
theorem not_holds_new (path : List Level) (clientId : Bytes) :
    ¬ TopicTrie.new.Holds path clientId := by
  simp [Holds, new]

end TopicTrie
end Broker.Topic
