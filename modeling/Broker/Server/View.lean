import Broker.Server.Handlers
import Broker.Topic.Subscriptions

/-!
# One client's view of the server

What the server is to the clients of one id: the topics recorded for it, the patterns it is
found for, its current connection and its earlier ones. The view advances by the events that
concern the id and by nothing else, whatever the other clients do.
-/

namespace Broker.Server
open Broker.Base Broker.Net Broker.Topic

/-- What of an event concerns one client: a connection presents its id, its connection is
read from, or a datagram arrives. -/
inductive ClientEvent
  | connect (connection : Connection)
  | read (stack : Bytes)
  | datagram (datagram : Datagram) (stale : MessageBuffer)

/-- What one client has of the server. -/
@[ext]
structure View where
  topics : Finset Bytes
  patterns : Set (List Level)
  current : Option Socket
  past : List Socket

/-- The patterns of a client after a change. -/
def Change.onPatterns (patterns : Set (List Level)) : Change → Set (List Level)
  | subscribe topic => insert (splitTopic topic) patterns
  | unsubscribe topic => patterns \ {splitTopic topic}

/-- A change of the trie is one of the patterns of its client. -/
theorem Change.patterns_onTrie (trie : TopicTrie) (id : Bytes) (change : Change) :
    {path | (change.onTrie trie id).Holds path id} =
      change.onPatterns {path | trie.Holds path id} := by
  cases change with
  | subscribe topic =>
    ext path
    simp only [onTrie, onPatterns, TopicTrie.holds_addSubscription, and_true, Set.mem_insert_iff,
      Set.mem_ofPred_eq, eq_comm (a := splitTopic topic)]
  | unsubscribe topic =>
    ext path
    simp only [onTrie, onPatterns, TopicTrie.holds_removeSubscription, and_true, Set.mem_sdiff,
      Set.mem_singleton_iff, Set.mem_ofPred_eq, eq_comm (a := splitTopic topic)]

/-- A change of the trie leaves the patterns of the other clients. -/
theorem Change.holds_onTrie_of_ne (trie : TopicTrie) {id other : Bytes} (hne : id ≠ other)
    (change : Change) (path : List Level) :
    (change.onTrie trie id).Holds path other ↔ trie.Holds path other := by
  cases change with
  | subscribe topic =>
    simp only [onTrie, TopicTrie.holds_addSubscription, hne, and_false, false_or]
  | unsubscribe topic =>
    simp only [onTrie, TopicTrie.holds_removeSubscription, hne, and_false, not_false_eq_true,
      and_true]

/-- The change a request asks for. -/
def requestedChange (request : SubcribeRequest) (stack : Bytes) (topics : Finset Bytes) :
    Option Change :=
  (readCString (request.topic ++ stack)).bind fun topic ↦
    if request.operation = operationSubscribe then
      if topic ∈ topics then none else some (.subscribe topic)
    else if request.operation = operationUnsubscribe then
      if topic ∈ topics then some (.unsubscribe topic) else none
    else none

/-- The change that is computed from a request is the one that it asks for. -/
theorem requestedChange_eq_some_iff {request : SubcribeRequest} {stack : Bytes}
    {topics : Finset Bytes} {change : Change} :
    requestedChange request stack topics = some change ↔
      change.Requested request stack topics := by
  have hdiff : operationUnsubscribe ≠ operationSubscribe := by decide
  unfold requestedChange
  cases hr : readCString (request.topic ++ stack) with
  | none => cases change <;> simp [Change.Requested, hr]
  | some topic =>
    rw [Option.bind_some]
    cases change with
    | subscribe other =>
      simp only [Change.Requested, hr]
      grind
    | unsubscribe other =>
      simp only [Change.Requested, hr]
      grind

/-- Without a requested change there is none. -/
theorem requestedChange_eq_none {request : SubcribeRequest} {stack : Bytes}
    {topics : Finset Bytes} (h : ∀ change : Change, ¬ change.Requested request stack topics) :
    requestedChange request stack topics = none := by
  apply Option.eq_none_iff_forall_ne_some.mpr
  intro change hc
  exact h change (requestedChange_eq_some_iff.mp hc)

namespace View

/-- The view at the start. -/
def initial : View := ⟨∅, ∅, none, []⟩

/-- The connections of the client in their order. -/
def connections (v : View) : List Socket := v.past ++ v.current.toList

/-- What the connections of the client have of a kind, in their order. -/
def gather {α : Type} (f : Socket → List α) (v : View) : List α := v.connections.flatMap f

/-- A whole request, already noted on the connection, is handled. -/
def process (v : View) (id : Bytes) (sock : Socket) (request : SubcribeRequest) (stack : Bytes) :
    View :=
  match requestedChange request stack v.topics with
  | none => { v with current := some sock }
  | some change => { v with
      topics := change.onTopics v.topics
      patterns := change.onPatterns v.patterns
      current := some (sock.sendFrame id (change.reply request)).1 }

/-- The connection ends. -/
def leave (v : View) (sock : Socket) : View :=
  { v with current := none, past := v.past ++ [sock] }

/-- The connection is read from. -/
def read (v : View) (id : Bytes) (sock : Socket) (stack : Bytes) : View :=
  match recv sizeofSubcribeRequest sock.inbox with
  | (.received bytes, inbox) =>
    if h : bytes.length = sizeofSubcribeRequest then
      v.process id ((sock.consume inbox).execute (.decode bytes h)) (.decode bytes h) stack
    else if bytes = [] then v.leave (sock.consume inbox)
    else { v with current := some (sock.consume inbox) }
  | (.error errno, inbox) =>
    if errno ≠ .again ∧ errno ≠ .wouldBlock then v.leave (sock.consume inbox)
    else { v with current := some (sock.consume inbox) }

/-- A new connection takes the place of none. -/
def accept (v : View) (id : Bytes) (connection : Connection) : View :=
  match v.current, recvall idLength connection.inbox with
  | none, some (.complete _, inbox) =>
    { v with current := some ((connection.socket inbox).register id) }
  | _, _ => v

/-- A message is forwarded if a pattern matches its topic. -/
noncomputable def forward (v : View) (id topic : Bytes) (response : MessageWithHeader) : View :=
  open Classical in
  if ∃ path ∈ v.patterns, PatternMatches path (splitTopic topic) then
    { v with current := v.current.map fun sock ↦ (sock.sendFrame id (.message response)).1 }
  else v

/-- The client's part of one step. -/
noncomputable def advance (id : Bytes) (v : View) : ClientEvent → View
  | .connect connection => v.accept id connection
  | .read stack => (v.current.map fun sock ↦ v.read id sock stack).getD v
  | .datagram datagram stale =>
    v.forward id (topicStr (receivedMessage datagram stale)) (messageResponse datagram stale)

variable {v : View} {id : Bytes} {sock : Socket} {stack : Bytes} {inbox : List Arrival}

/-- A whole request is read and handled. -/
theorem read_of_whole {bytes : Bytes}
    (hrecv : recv sizeofSubcribeRequest sock.inbox = (.received bytes, inbox))
    (hl : bytes.length = sizeofSubcribeRequest) :
    v.read id sock stack =
      v.process id ((sock.consume inbox).execute (.decode bytes hl)) (.decode bytes hl) stack := by
  simp only [read, hrecv, hl, ↓reduceDIte]

/-- Nothing has arrived, or too little for a request. -/
theorem read_of_short {result : RecvResult}
    (hrecv : recv sizeofSubcribeRequest sock.inbox = (result, inbox))
    (h : result = .error .again ∨ result = .error .wouldBlock ∨
      ∃ bytes, result = .received bytes ∧ bytes ≠ [] ∧ bytes.length ≠ sizeofSubcribeRequest) :
    v.read id sock stack = { v with current := some (sock.consume inbox) } := by
  obtain rfl | rfl | ⟨bytes, rfl, hn, hl⟩ := h
  · simp [read, hrecv]
  · simp [read, hrecv]
  · simp [read, hrecv, hn, hl]

/-- The end of the stream or an error. -/
theorem read_of_end {result : RecvResult}
    (hrecv : recv sizeofSubcribeRequest sock.inbox = (result, inbox))
    (h : result = .received [] ∨ ∃ errno, result = .error errno ∧ errno ≠ .again ∧
      errno ≠ .wouldBlock) :
    v.read id sock stack = v.leave (sock.consume inbox) := by
  have hz : ¬ ([] : Bytes).length = sizeofSubcribeRequest := by decide
  obtain rfl | ⟨errno, rfl, he⟩ := h
  · simp only [read, hrecv, hz, ↓reduceDIte, ↓reduceIte]
  · simp [read, hrecv, he]

/-- What one event can do to a client. -/
inductive Step (id : Bytes) (v : View) : ClientEvent → View → Prop
  | stay {event} : Step id v event v
  /-- A new connection is registered. -/
  | accept {event inbox} {connection : Connection} (hcurrent : v.current = none) :
    Step id v event { v with current := some ((connection.socket inbox).register id) }
  /-- A message is forwarded. -/
  | forward {event sock response} (hcurrent : v.current = some sock) :
    Step id v event { v with current := some (sock.sendFrame id (.message response)).1 }
  /-- Something is read that is no request. -/
  | consume {event sock inbox} (hcurrent : v.current = some sock) :
    Step id v event { v with current := some (sock.consume inbox) }
  /-- The connection ends. -/
  | leave {event sock inbox} (hcurrent : v.current = some sock) :
    Step id v event (v.leave (sock.consume inbox))
  /-- A request is read that changes nothing. -/
  | ignore {event sock inbox request} (hcurrent : v.current = some sock) :
    Step id v event { v with current := some ((sock.consume inbox).execute request) }
  /-- A request is read that changes something. -/
  | act {stack sock bytes inbox change} (hcurrent : v.current = some sock)
      (hrecv : recv sizeofSubcribeRequest sock.inbox = (.received bytes, inbox))
      (hlength : bytes.length = sizeofSubcribeRequest)
      (hrequested : Change.Requested (.decode bytes hlength) stack v.topics change) :
    Step id v (.read stack) { v with
      topics := change.onTopics v.topics
      patterns := change.onPatterns v.patterns
      current := some (((sock.consume inbox).execute (.decode bytes hlength)).sendFrame id
        (change.reply (.decode bytes hlength))).1 }

private theorem step_read (hc : v.current = some sock) (id stack : Bytes) :
    v.Step id (.read stack) (v.read id sock stack) := by
  unfold read
  split
  · next bytes inbox hrecv =>
    split
    · next hl =>
      unfold process
      split
      · exact .ignore hc
      · next change hchange => exact .act hc hrecv hl (requestedChange_eq_some_iff.mp hchange)
    · split
      · exact .leave hc
      · exact .consume hc
  · split
    · exact .leave hc
    · exact .consume hc

/-- A client advances by these steps. -/
theorem step_advance (v : View) (id : Bytes) (event : ClientEvent) :
    v.Step id event (v.advance id event) := by
  cases event with
  | connect connection =>
    simp only [advance, View.accept]
    split
    · next hc _ => exact .accept hc
    · exact .stay
  | read stack =>
    cases hc : v.current with
    | none =>
      simp only [advance, hc, Option.map_none, Option.getD_none]
      exact .stay
    | some sock =>
      simp only [advance, hc, Option.map_some, Option.getD_some]
      exact step_read hc id stack
  | datagram datagram stale =>
    simp only [advance, View.forward]
    split
    · cases hc : v.current with
      | none =>
        have hv : { v with current := none } = v := View.ext rfl rfl hc.symm rfl
        rw [Option.map_none, hv]
        exact .stay
      | some sock => exact .forward hc
    · exact .stay

variable {α : Type} {f : Socket → List α} {later : Socket}

/-- A connection that goes on adds what is new on it. -/
theorem gather_current (hc : v.current = some sock) {more : List α}
    (hf : f later = f sock ++ more) (topics : Finset Bytes) (patterns : Set (List Level)) :
    gather f ⟨topics, patterns, some later, v.past⟩ = v.gather f ++ more := by
  simp [gather, connections, hc, hf]

/-- A connection that goes on with what it has adds nothing. -/
theorem gather_keep (hc : v.current = some sock) (hf : f later = f sock) (topics : Finset Bytes)
    (patterns : Set (List Level)) :
    gather f ⟨topics, patterns, some later, v.past⟩ = v.gather f := by
  simp [gather, connections, hc, hf]

/-- A connection that has just been registered has nothing yet. -/
theorem gather_accept (hc : v.current = none) (hf : f later = []) :
    gather f ⟨v.topics, v.patterns, some later, v.past⟩ = v.gather f := by
  simp [gather, connections, hc, hf]

/-- A connection that ends keeps what it has. -/
theorem gather_leave (hc : v.current = some sock) (hf : f later = f sock) :
    gather f (v.leave later) = v.gather f := by
  simp [gather, connections, View.leave, hc, hf]

end View

end Broker.Server
