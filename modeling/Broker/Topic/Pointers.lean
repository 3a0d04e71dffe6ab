import Broker.Base.OwnedTree
import Broker.Topic.Subscriptions

/-!
# The trie in memory

`TopicTrie` with its pointers (`TopicTrie.hpp:12–42`, `TopicTrie.cpp:7–104`): nodes that `new`
makes and `delete` gives back. Whatever is called, no node is used that is not there, none is lost
or given back twice, and what is found is what the trie of values finds.
-/

namespace Broker.Topic
open Broker.Base

/-- `TopicTrieNode` in memory: its links are `children`, its label is `subscriber_ids`. -/
abbrev NodeCell := Cell Level (Finset Bytes)

/-- `TopicTrie` in memory, `TopicTrie.hpp:22–42`. -/
structure PointerTrie where
  heap : Heap NodeCell
  root : Ptr

namespace PointerTrie

/-- `new TopicTrieNode()`. -/
def newNode (malloc : Allocator NodeCell) (heap : Heap NodeCell) : Ptr × Heap NodeCell :=
  heap.new malloc ⟨[], ∅⟩

/-- `delete node`: the destructor deletes the children, `TopicTrie.cpp:7–11`, and then the node
goes. No path is longer than there are nodes. -/
def deleteNode (heap : Heap NodeCell) (node : Ptr) : Option (Heap NodeCell) :=
  Heap.destroy heap.cells.length heap node

/-- Create the child of the current node that is missing, `TopicTrie.cpp:37–39`. -/
def ensureChild (malloc : Allocator NodeCell) (heap : Heap NodeCell) (current : Ptr)
    (token : Level) : Option (Heap NodeCell) := do
  let cell ← heap.load current
  match UnorderedMap.find cell.links token with
  | some _ => some heap
  | none =>
    let made := newNode malloc heap
    made.2.store current { cell with links := UnorderedMap.set cell.links token made.1 }

/-- The loop of `add_subscription`, `TopicTrie.cpp:36–42`. -/
def addLoop (malloc : Allocator NodeCell) (clientId : Bytes) (heap : Heap NodeCell)
    (current : Ptr) : List Level → Option (Heap NodeCell)
  | [] => do
    let cell ← heap.load current
    heap.store current { cell with label := insert clientId cell.label }
  | token :: rest => do
    let heap ← ensureChild malloc heap current token
    let cell ← heap.load current
    let child ← UnorderedMap.find cell.links token
    addLoop malloc clientId heap child rest

/-- `TopicTrie::remove_recursive`, `TopicTrie.cpp:87–104`. The iterator is good as long as its
entry is there. -/
def removeRecursive (clientId : Bytes) (heap : Heap NodeCell) (node : Ptr) :
    List Level → Option (Heap NodeCell × Bool)
  | [] => do
    let cell ← heap.load node
    let ids := cell.label.erase clientId
    let heap ← heap.store node { cell with label := ids }
    some (heap, ids = ∅ ∧ cell.links.isEmpty)
  | token :: rest => do
    let cell ← heap.load node
    match UnorderedMap.find cell.links token with
    | none => some (heap, false)
    | some child =>
      match ← removeRecursive clientId heap child rest with
      | (heap, false) => some (heap, false)
      | (heap, true) =>
        let heap ← deleteNode heap child
        let cell ← heap.load node
        if UnorderedMap.find cell.links token = some child then
          let children := UnorderedMap.erase cell.links token
          let heap ← heap.store node { cell with links := children }
          some (heap, children.isEmpty ∧ cell.label = ∅)
        else none

/-- `TopicTrie::collect_matches_recursive`, `TopicTrie.cpp:57–85`. The depth bounds the
recursion. -/
def collectMatchesRecursive (heap : Heap NodeCell) :
    Nat → Ptr → List Level → Finset Bytes → Option (Finset Bytes)
  | 0, _, _, _ => none
  | depth + 1, node, tokens, results => do
    let cell ← heap.load node
    let visit (key : Level) (positions : List (List Level)) (results : Finset Bytes) :=
      match UnorderedMap.find cell.links key with
      | some child =>
        positions.foldlM
          (fun results rest ↦ collectMatchesRecursive heap depth child rest results) results
      | none => some results
    let results ← match tokens with
      | token :: rest => visit token [rest] results
      | [] => some (results ∪ cell.label)
    let results ← match tokens with
      | _ :: rest => visit plus [rest] results
      | [] => some results
    visit star tokens.tails results

/-- The constructor, `TopicTrie.cpp:13–15`. -/
def new (malloc : Allocator NodeCell) (heap : Heap NodeCell) : PointerTrie :=
  ⟨(newNode malloc heap).2, (newNode malloc heap).1⟩

/-- `TopicTrie::add_subscription`, `TopicTrie.cpp:33–43`. -/
def addSubscription (malloc : Allocator NodeCell) (trie : PointerTrie)
    (pattern clientId : Bytes) : Option PointerTrie :=
  (addLoop malloc clientId trie.heap trie.root (splitTopic pattern)).map fun heap ↦
    ⟨heap, trie.root⟩

/-- `TopicTrie::remove_subscription`, `TopicTrie.cpp:45–48`. -/
def removeSubscription (trie : PointerTrie) (pattern clientId : Bytes) : Option PointerTrie :=
  (removeRecursive clientId trie.heap trie.root (splitTopic pattern)).map
    fun result ↦ ⟨result.1, trie.root⟩

/-- One call. -/
def perform (malloc : Allocator NodeCell) (trie : PointerTrie) : Call → Option PointerTrie
  | .add pattern clientId => trie.addSubscription malloc pattern clientId
  | .remove pattern clientId => trie.removeSubscription pattern clientId

/-- `TopicTrie::find_subscribers`, `TopicTrie.cpp:50–55`. No path is longer than there are
nodes. -/
def findSubscribers (trie : PointerTrie) (concreteTopic : Bytes) : Option (Finset Bytes) :=
  collectMatchesRecursive trie.heap trie.heap.cells.length trie.root (splitTopic concreteTopic) ∅

/-- The destructor, `TopicTrie.cpp:17–19`. -/
def destroy (trie : PointerTrie) : Option (Heap NodeCell) := deleteNode trie.heap trie.root

/-- The calls on a trie that has just been made. -/
def after (malloc : Allocator NodeCell) (calls : List Call) : Option PointerTrie :=
  calls.foldlM (perform malloc) (new malloc .empty)

end PointerTrie

/-! ### What a trie of values shows -/

namespace TopicTrieNode

/-- The ids at the end of each path. -/
def content (node : TopicTrieNode) : Content Level (Finset Bytes) :=
  fun path ↦ (node.nodeAt path).map subscriberIds

/-- A branch shows what the child there shows. -/
theorem below_of_find {node child : TopicTrieNode} {token : Level}
    (h : UnorderedMap.find node.children token = some child) :
    node.content.below token = child.content := by
  funext path
  rw [Content.below, content, nodeAt, h]
  rfl

/-- Nothing is shown where there is no child. -/
theorem below_of_none {node : TopicTrieNode} {token : Level}
    (h : UnorderedMap.find node.children token = none) (path : List Level) :
    node.content.below token path = none := by
  rw [Content.below, content, nodeAt, h]
  rfl

/-- A branch is shown by the child alone. -/
theorem below_congr {node other : TopicTrieNode} {token : Level}
    (h : UnorderedMap.find node.children token = UnorderedMap.find other.children token) :
    node.content.below token = other.content.below token := by
  funext path
  rw [Content.below, content, nodeAt, h]
  rfl

end TopicTrieNode

namespace PointerTrie

variable {heap later : Heap NodeCell} {p q : Ptr} {node : TopicTrieNode} {fp nodes : Finset Ptr}
  {cell : NodeCell} {foot : Level → Finset Ptr} {token : Level}

/-- Behind a link is the child. -/
theorem exists_child (h : Node heap p node.content fp cell foot)
    (hf : UnorderedMap.find cell.links token = some q) :
    ∃ child, UnorderedMap.find node.children token = some child ∧
      Tree heap q child.content (foot token) := by
  have ht := h.linked hf
  cases hc : UnorderedMap.find node.children token with
  | some child =>
    rw [TopicTrieNode.below_of_find hc] at ht
    exact ⟨child, rfl, ht⟩
  | none =>
    obtain ⟨_, _, hn⟩ := ht.node
    have hlabel := hn.label
    rw [TopicTrieNode.below_of_none hc] at hlabel
    cases hlabel

/-- Where there is no link there is no child. -/
theorem no_child (h : Node heap p node.content fp cell foot)
    (hf : UnorderedMap.find cell.links token = none) :
    UnorderedMap.find node.children token = none := by
  have hb := h.branch token
  rw [hf] at hb
  cases hc : UnorderedMap.find node.children token with
  | none => rfl
  | some child =>
    have hnone := hb.2 []
    rw [TopicTrieNode.below_of_find hc] at hnone
    cases hnone

/-- A node has links when it has children. -/
theorem isEmpty_links (h : Node heap p node.content fp cell foot) :
    cell.links.isEmpty = node.children.isEmpty := by
  rw [Bool.eq_iff_iff, List.isEmpty_iff, List.isEmpty_iff, UnorderedMap.eq_nil_iff,
    UnorderedMap.eq_nil_iff]
  apply forall_congr'
  intro token
  constructor
  · exact no_child h
  · intro hc
    cases hf : UnorderedMap.find cell.links token with
    | none => rfl
    | some q =>
      obtain ⟨child, hchild, -⟩ := exists_child h hf
      rw [hc] at hchild
      cases hchild

/-! ### Searching -/

private theorem foldlM_eq_some {α β : Type*} {f : β → α → Option β} {g : β → α → β}
    (h : ∀ b a, f b a = some (g b a)) (xs : List α) (b : β) :
    xs.foldlM f b = some (xs.foldl g b) := by
  induction xs generalizing b with
  | nil => rfl
  | cons x xs ih =>
    rw [List.foldlM_cons, h, List.foldl_cons, ← ih]
    rfl

/-- The search through the tree in memory finds what the search through the tree it shows
does. -/
theorem collectMatchesRecursive_eq (h : Tree heap p node.content fp) {depth : Nat}
    (hd : fp.card ≤ depth) (tokens : List Level) (results : Finset Bytes) :
    collectMatchesRecursive heap depth p tokens results =
      some (node.collectMatchesRecursive tokens results) := by
  induction depth generalizing p node fp tokens results with
  | zero =>
    have hnone := Finset.card_eq_zero.mp (Nat.le_zero.mp hd)
    exact absurd (hnone ▸ h.root_mem) (Finset.notMem_empty p)
  | succ depth ih =>
    obtain ⟨cell, foot, hn⟩ := h.node
    have hids : cell.label = node.subscriberIds := (Option.some.inj hn.label).symm
    have hvisit (key : Level) (positions : List (List Level)) (results : Finset Bytes) :
        (match UnorderedMap.find cell.links key with
          | some child => positions.foldlM
              (fun results rest ↦ collectMatchesRecursive heap depth child rest results) results
          | none => some results) =
        some (TopicTrieNode.collectChild node.children key positions results) := by
      rw [TopicTrieNode.collectChild_eq]
      cases hf : UnorderedMap.find cell.links key with
      | none => rw [no_child hn hf]
      | some q =>
        obtain ⟨child, hchild, ht⟩ := exists_child hn hf
        have hcard := hn.card_foot_lt key
        rw [hchild]
        exact foldlM_eq_some (fun results rest ↦ ih ht (by omega) rest results) positions results
    rcases node with ⟨children, ids⟩
    cases tokens with
    | nil =>
      rw [collectMatchesRecursive, hn.load, TopicTrieNode.collectMatchesRecursive]
      simp only [Option.bind_eq_bind, Option.bind_some, hids, hvisit]
      rfl
    | cons token rest =>
      rw [collectMatchesRecursive, hn.load, TopicTrieNode.collectMatchesRecursive]
      simp only [Option.bind_eq_bind, Option.bind_some, hvisit]
      rfl

end PointerTrie
end Broker.Topic
