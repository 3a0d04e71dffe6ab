import Broker.Server.Agreement
import Broker.Server.History
import Broker.Topic.Canonical
import Broker.Topic.Ownership

/-!
# What the server keeps in its trie

The trie of a running server has a node exactly where a pattern that some client holds passes
through, and each such pattern stands for a topic recorded for its client. So nothing is kept for
subscriptions that have ended, and the trie does not show how it has come about.
-/

namespace Broker.Server
open Broker.Base Broker.Net Broker.Topic

variable {s t : State}

/-- The call on the trie that an act makes. -/
def trieCall : Act Bytes Bytes Frame → Option Call
  | .subscribe id topic _ => some (.add topic id)
  | .unsubscribe id topic _ => some (.remove topic id)
  | _ => none

/-- The calls on the trie in a run. -/
def trieCalls (udpfd listenfd : Fd) (events : List Event) : List Call :=
  (acts udpfd listenfd events).filterMap trieCall

/-- What an act makes of the trie. -/
def onTrie (trie : TopicTrie) (act : Act Bytes Bytes Frame) : TopicTrie :=
  match trieCall act with
  | some call => call.apply trie
  | none => trie

private theorem onTrie_change (trie : TopicTrie) (id : Bytes) (request : SubcribeRequest)
    (change : Change) : onTrie trie (change.act id request) = change.onTrie trie id := by
  cases change <;> rfl

/-- A step makes of the trie what its act does. -/
theorem Sessions.trie_step (h : Sessions s) {event : Event} (hs : s.step event = some t) :
    t.trie = (s.act event).elim s.trie (onTrie s.trie) := by
  have haccept (fd : Fd) (connection : Connection) (revents : Bool) :
      (s.act (.accept fd connection revents)).elim s.trie (onTrie s.trie) = s.trie := by
    rw [State.act]
    cases hp : connection.presentedId with
    | none => rfl
    | some id =>
      rw [Option.bind_some, View.act_connect hp]
      split <;> rfl
  cases h.move hs with
  | idle hevent => cases event <;> first | rfl | cases hevent
  | die hevent => obtain rfl | rfl := hevent <;> rfl
  | refuse => exact (haccept _ _ _).symm
  | connect => exact (haccept _ _ _).symm
  | ignore hreading hrecv hlength hnone =>
    rw [hreading.act_eq hrecv, receivedAct, dif_pos hlength, requestedChange_eq_none hnone]
    rfl
  | act hreading hrecv hlength hrequested hsent =>
    rw [hreading.act_eq hrecv, receivedAct, dif_pos hlength,
      requestedChange_eq_some_iff.mpr hrequested, Option.map_some, Option.elim_some,
      onTrie_change]
  | short hreading hrecv hresult =>
    rw [hreading.act_eq hrecv]
    obtain rfl | rfl | ⟨bytes, rfl, hn, hl⟩ := hresult
    · rfl
    · rfl
    · rw [receivedAct, dif_neg hl, if_neg hn]
      rfl
  | disconnect hreading hrecv hresult =>
    rw [hreading.act_eq hrecv]
    obtain rfl | ⟨errno, rfl, he⟩ := hresult
    · rfl
    · rw [receivedAct, if_pos he]
      rfl
  | _ => rfl

/-- The trie of a run is what its calls make of an empty one. -/
theorem trie_eq_after {udpfd listenfd : Fd} {events : List Event}
    (h : Run (State.initial udpfd listenfd) events s) :
    s.trie = TopicTrie.after (trieCalls udpfd listenfd events) := by
  have hrun : Lawful (fun _ _ ↦ True) onTrie (State.initial udpfd listenfd).trie
        (acts udpfd listenfd events) ∧
      s.trie = (acts udpfd listenfd events).foldl onTrie (State.initial udpfd listenfd).trie :=
    lawful_labels (P := Sessions) (fun _ _ _ h hs ↦ h.step hs)
      (fun _ _ _ _ _ _ _ _ ↦ trivial) (fun _ _ _ h _ hs ↦ h.trie_step hs) h
      (Sessions.initial udpfd listenfd)
  obtain ⟨-, hend⟩ := hrun
  rw [hend, TopicTrie.after, trieCalls, List.foldl_filterMap]
  congr 1
  funext trie act
  rw [onTrie]
  cases trieCall act with
  | none => rfl
  | some call => rfl

/-- Below the root of a run's trie there are only live nodes. -/
theorem pruned_of_run {udpfd listenfd : Fd} {events : List Event}
    (h : Run (State.initial udpfd listenfd) events s) : s.trie.root.Pruned := by
  rw [trie_eq_after h]
  exact pruned_after _

/-- Below the root of a run's trie there is a node exactly on the way to a pattern that is held. -/
theorem nodeAt_of_run {udpfd listenfd : Fd} {events : List Event}
    (h : Run (State.initial udpfd listenfd) events s) {path : List Level} (hp : path ≠ []) :
    (s.trie.root.nodeAt path).isSome ↔ ∃ id levels, s.trie.Holds levels id ∧ path <+: levels := by
  rw [(pruned_of_run h).isSome_nodeAt_iff hp]
  constructor
  · rintro ⟨more, hm⟩
    obtain ⟨id, hid⟩ := Finset.nonempty_iff_ne_empty.mpr hm
    exact ⟨id, path ++ more, hid, List.prefix_append path more⟩
  · rintro ⟨id, levels, hh, more, rfl⟩
    exact ⟨more, Finset.nonempty_iff_ne_empty.mp ⟨id, hh⟩⟩

/-- The trie of a run. A pattern is held by a client exactly when the last thing the client did
with a topic of these levels was to subscribe to it, and then such a topic is recorded for the
client; below the root there is a node exactly on the way to a pattern that is held; without any
recorded topic nothing but the empty root is left; and servers that have come to the same
patterns in different ways have the same tries. -/
theorem trie_of_run {udpfd listenfd : Fd} {events : List Event}
    (h : Run (State.initial udpfd listenfd) events s) :
    (∀ levels id, s.trie.Holds levels id ↔ ((acts udpfd listenfd events).filterMap
      (Act.keying splitTopic id levels)).getLast? = some true) ∧
    (∀ levels id, s.trie.Holds levels id → ∃ topic ∈ s.topics id, splitTopic topic = levels) ∧
    (∀ path, path ≠ [] → ((s.trie.root.nodeAt path).isSome ↔
      ∃ id levels, s.trie.Holds levels id ∧ path <+: levels)) ∧
    ((∀ id, s.topics id = ∅) → s.trie = .new) ∧
    ∀ {events' : List Event} {s' : State}, Run (State.initial udpfd listenfd) events' s' →
      (∀ levels id, s'.trie.Holds levels id ↔ s.trie.Holds levels id) →
      TopicTrieNode.Same s'.trie.root s.trie.root := by
  have hservice := ((Sessions.initial udpfd listenfd).history h).2
  rw [State.service_initial] at hservice
  have hbacked : s.service.Backed splitTopic := by
    rw [hservice]
    exact Service.Backed.acts (fun _ p hp ↦ absurd hp (Set.notMem_empty p)) _
  have hrecorded (levels : List Level) (id : Bytes) (hh : s.trie.Holds levels id) :
      ∃ topic ∈ s.topics id, splitTopic topic = levels := hbacked id levels hh
  refine ⟨fun levels id ↦ ?_, hrecorded, fun _ hp ↦ nodeAt_of_run h hp, fun hnone ↦ ?_,
    fun h' hsame ↦ ?_⟩
  · have hkeys : levels ∈ s.service.keys id ↔ ((acts udpfd listenfd events).filterMap
        (Act.keying splitTopic id levels)).getLast? = some true := by
      rw [hservice]
      exact Service.keys_of_acts _ (Set.notMem_empty levels)
    exact hkeys
  · have hempty : s.trie.root = .empty := by
      apply (pruned_of_run h).eq_empty
      intro path
      apply Finset.eq_empty_of_forall_notMem
      intro id hh
      obtain ⟨topic, hm, -⟩ := hrecorded path id hh
      rw [hnone id] at hm
      exact absurd hm (Finset.notMem_empty topic)
    exact congrArg TopicTrie.mk hempty
  · apply TopicTrieNode.same_of_idsAt (pruned_of_run h') (pruned_of_run h)
    intro path
    ext id
    exact hsame path id

/-- The topic `a` is recorded, but `a/` has been given up last: nothing is left on this way. -/
theorem trie_of_run_trailingSlashRun : ∃ s, Run (State.initial 3 4) trailingSlashRun s ∧
    [97] ∈ s.topics [65] ∧ ((acts 3 4 trailingSlashRun).filterMap
      (Act.keying splitTopic [65] [[97]])).getLast? ≠ some true ∧
    ¬ ∃ id levels, s.trie.Holds levels id ∧ [[97]] <+: levels := by
  have hrun : (exec State.step (State.initial 3 4) trailingSlashRun).any (fun s ↦
      [97] ∈ s.topics [65] ∧ (s.trie.root.nodeAt [[97]]).isSome = false) = true := by
    decide +kernel
  obtain ⟨s, hs, hheld, hnode⟩ := exists_exec hrun
  have hr : Run (State.initial 3 4) trailingSlashRun s := runs_of_exec hs
  obtain ⟨hlast, -, hnodes, -⟩ := trie_of_run hr
  have hnone : ¬ ∃ id levels, s.trie.Holds levels id ∧ [[97]] <+: levels := by
    rw [← hnodes [[97]] (List.cons_ne_nil _ _), hnode]
    exact Bool.false_ne_true
  refine ⟨s, hr, hheld, fun ho ↦ hnone ⟨[65], [[97]], (hlast _ _).mpr ho, List.prefix_rfl⟩, hnone⟩

/-! ### In memory -/

/-- The nodes of a run. In memory too the calls of a run all have results, whatever addresses the
allocator chooses: no node is used that is not there. The search finds what the server's trie
does; the nodes that are allocated are those of the trie, each on one path from the root; and
when the destructor has run, none is left, each having been given back once. -/
theorem nodes_of_run (malloc : Allocator NodeCell) {udpfd listenfd : Fd} {events : List Event}
    (h : Run (State.initial udpfd listenfd) events s) :
    ∃ pointers, PointerTrie.after malloc (trieCalls udpfd listenfd events) = some pointers ∧
      (∀ topic, pointers.findSubscribers topic = some (s.trie.findSubscribers topic)) ∧
      (∀ path, ((pointers.heap.walk pointers.root path).bind fun p ↦
          (pointers.heap.load p).map Cell.label) =
        (s.trie.root.nodeAt path).map TopicTrieNode.subscriberIds) ∧
      (∀ p, (pointers.heap.load p).isSome ↔
        ∃! path, pointers.heap.walk pointers.root path = some p) ∧
      ∃ heap, pointers.destroy = some heap ∧ ∀ p, heap.load p = none ∧
        Alternates true false (heap.history.filterMap (Use.switch p)) ∧
        (heap.history.filterMap (Use.switch p)).getLast? ≠ some true := by
  obtain ⟨pointers, nodes, hafter, hshows⟩ :=
    PointerTrie.exists_after malloc (trieCalls udpfd listenfd events)
  rw [← trie_eq_after h] at hshows
  exact ⟨pointers, hafter, hshows.findSubscribers, hshows.ids_walk, hshows.isSome_load_iff,
    hshows.destroy⟩

/-- Where `a/` has been given up last nobody is found in memory for `a`, and its node is gone. -/
theorem nodes_of_run_trailingSlashRun : ∃ s pointers,
    Run (State.initial 3 4) trailingSlashRun s ∧
    PointerTrie.after .behind (trieCalls 3 4 trailingSlashRun) = some pointers ∧
    pointers.findSubscribers [97] = some ∅ ∧
    (∀ p, (pointers.heap.load p).isSome ↔
      ∃! path, pointers.heap.walk pointers.root path = some p) ∧
    ∃ heap, pointers.destroy = some heap ∧ ∀ p, heap.load p = none := by
  have hrun : (exec State.step (State.initial 3 4) trailingSlashRun).any (fun s ↦
      s.trie.findSubscribers [97] = ∅) = true := by
    decide +kernel
  obtain ⟨s, hs, hfound⟩ := exists_exec hrun
  have hr : Run (State.initial 3 4) trailingSlashRun s := runs_of_exec hs
  obtain ⟨pointers, hafter, hfind, -, hnodes, heap, hdestroy, hnone⟩ := nodes_of_run .behind hr
  refine ⟨s, pointers, hr, hafter, ?_, hnodes, heap, hdestroy, fun p ↦ (hnone p).1⟩
  rw [hfind, hfound]

end Broker.Server
