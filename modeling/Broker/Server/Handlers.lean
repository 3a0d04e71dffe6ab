import Broker.Server.State

/-!
# The handlers of the main loop

`connect_new_client`, `process_sub_requests` and `send_msg_to_all_subs`
(`server.cpp:35–133`). What the code cannot determine is an argument: the descriptor and
the connection that `accept` returns, memory the code leaves uninitialised, and the order
in which an `unordered_set` is traversed.
-/

namespace Broker.Server
open Broker.Base Broker.Net Broker.Topic

/-! ### Requests -/

/-- What `process_sub_requests` leaves behind, and whether a send killed the process. -/
structure Processed where
  subscriber : SubscriberData
  trie : TopicTrie
  kernel : Kernel
  killed : Bool

/-- The acknowledgement of a request: the request itself with its operation overwritten. -/
def acknowledgement (request : SubcribeRequest) (operation : UInt8) : Frame :=
  .subscribeAck ⟨operation, request.topic, request.length_topic⟩

/-- `process_sub_requests`, `server.cpp:86–114`. The topic is read as a C string from the
request and, without a terminator, on into the `stack` behind it. -/
def processSubRequests (request : SubcribeRequest) (stack clientName : Bytes)
    (subscriber : SubscriberData) (trie : TopicTrie) (kernel : Kernel) : Option Processed :=
  if request.operation = operationSubscribe then
    (readCString (request.topic ++ stack)).map fun topic ↦
      if topic ∈ subscriber.topics then ⟨subscriber, trie, kernel, false⟩ else
        let sent := kernel.sendFrame subscriber.sockfd clientName
          (acknowledgement request operationAckSub)
        ⟨{ subscriber with topics := insert topic subscriber.topics },
          trie.addSubscription topic clientName, sent.1, sent.2⟩
  else if request.operation = operationUnsubscribe then
    (readCString (request.topic ++ stack)).map fun topic ↦
      if topic ∉ subscriber.topics then ⟨subscriber, trie, kernel, false⟩ else
        let sent := kernel.sendFrame subscriber.sockfd clientName
          (acknowledgement request operationAckUnsub)
        ⟨{ subscriber with topics := subscriber.topics.erase topic },
          trie.removeSubscription topic clientName, sent.1, sent.2⟩
  else some ⟨subscriber, trie, kernel, false⟩

/-- What a request that is acted on does to the records of subscriptions. -/
inductive Change
  | subscribe (topic : Bytes)
  | unsubscribe (topic : Bytes)

namespace Change

/-- The client's own record after the change. -/
def onTopics (topics : Finset Bytes) : Change → Finset Bytes
  | subscribe topic => insert topic topics
  | unsubscribe topic => topics.erase topic

/-- The trie after the change. -/
def onTrie (trie : TopicTrie) (clientName : Bytes) : Change → TopicTrie
  | subscribe topic => trie.addSubscription topic clientName
  | unsubscribe topic => trie.removeSubscription topic clientName

/-- The acknowledgement of the request that asked for the change. -/
def reply (request : SubcribeRequest) : Change → Frame
  | subscribe _ => acknowledgement request operationAckSub
  | unsubscribe _ => acknowledgement request operationAckUnsub

/-- The request asks for the change, and it is one: a topic not yet held is subscribed to,
or a held one is given up. -/
def Requested (request : SubcribeRequest) (stack : Bytes) (topics : Finset Bytes) :
    Change → Prop
  | subscribe topic => request.operation = operationSubscribe ∧
      readCString (request.topic ++ stack) = some topic ∧ topic ∉ topics
  | unsubscribe topic => request.operation = operationUnsubscribe ∧
      readCString (request.topic ++ stack) = some topic ∧ topic ∈ topics

end Change

/-- A request asks for one change at most. -/
theorem Change.Requested.unique {request : SubcribeRequest} {stack : Bytes}
    {topics : Finset Bytes} {change other : Change} (h : change.Requested request stack topics)
    (ho : other.Requested request stack topics) : change = other := by
  have hdiff : operationSubscribe ≠ operationUnsubscribe := by decide
  cases change with
  | subscribe topic =>
    cases other with
    | subscribe topic' => rw [Option.some.inj (h.2.1.symm.trans ho.2.1)]
    | unsubscribe topic' => exact absurd (h.1.symm.trans ho.1) hdiff
  | unsubscribe topic =>
    cases other with
    | subscribe topic' => exact absurd (ho.1.symm.trans h.1) hdiff
    | unsubscribe topic' => rw [Option.some.inj (h.2.1.symm.trans ho.2.1)]

/-- A processed request changes nothing, or it makes one change in both records of
subscriptions and acknowledges it. -/
theorem processSubRequests_cases {request : SubcribeRequest} {stack clientName : Bytes}
    {subscriber : SubscriberData} {trie : TopicTrie} {kernel : Kernel} {result : Processed}
    (h : processSubRequests request stack clientName subscriber trie kernel = some result) :
    (result = ⟨subscriber, trie, kernel, false⟩ ∧
      ∀ change : Change, ¬ change.Requested request stack subscriber.topics) ∨
    ∃ change : Change, change.Requested request stack subscriber.topics ∧
      let sent := kernel.sendFrame subscriber.sockfd clientName (change.reply request)
      result = ⟨{ subscriber with topics := change.onTopics subscriber.topics },
        change.onTrie trie clientName, sent.1, sent.2⟩ := by
  have hdiff : operationSubscribe ≠ operationUnsubscribe := by decide
  unfold processSubRequests at h
  split at h
  · next ho =>
    obtain ⟨topic, ht, rfl⟩ := Option.map_eq_some_iff.mp h
    by_cases hm : topic ∈ subscriber.topics
    · refine .inl ⟨if_pos hm, fun change hc ↦ ?_⟩
      cases change with
      | subscribe other =>
        obtain rfl := Option.some.inj (ht.symm.trans hc.2.1)
        exact hc.2.2 hm
      | unsubscribe other => exact hdiff (ho.symm.trans hc.1)
    · exact .inr ⟨.subscribe topic, ⟨ho, ht, hm⟩, if_neg hm⟩
  · next hs =>
    split at h
    · next ho =>
      obtain ⟨topic, ht, rfl⟩ := Option.map_eq_some_iff.mp h
      by_cases hm : topic ∈ subscriber.topics
      · exact .inr ⟨.unsubscribe topic, ⟨ho, ht, hm⟩, if_neg (not_not.mpr hm)⟩
      · refine .inl ⟨if_pos hm, fun change hc ↦ ?_⟩
        cases change with
        | subscribe other => exact hs hc.1
        | unsubscribe other =>
          obtain rfl := Option.some.inj (ht.symm.trans hc.2.1)
          exact hm hc.2.2
    · next hu =>
      refine .inl ⟨(Option.some.inj h).symm, fun change hc ↦ ?_⟩
      cases change with
      | subscribe other => exact hs hc.1
      | unsubscribe other => exact hu hc.1

/-! ### Messages -/

/-- Memory of the size of a `message`. -/
abbrev MessageBuffer := { bytes : Bytes // bytes.length = sizeofMessage }

/-- A UDP datagram and its sender. -/
structure Datagram where
  payload : Bytes
  source : SockaddrIn

/-- Copy received bytes over the front of a buffer; what does not fit is lost. -/
def overlay (payload : Bytes) (buffer : MessageBuffer) : MessageBuffer where
  val := payload.take sizeofMessage ++ buffer.val.drop payload.length
  property := by
    rw [List.length_append, List.length_take, List.length_drop, buffer.property]
    omega

/-- `received_message` after `recvfrom`, `server.cpp:196–199`, over what the buffer held. -/
def receivedMessage (datagram : Datagram) (stale : MessageBuffer) : Message :=
  .decode (overlay datagram.payload stale).val (overlay datagram.payload stale).property

/-- `topic_str`, `server.cpp:203`. -/
def topicStr (received : Message) : Bytes := strnString received.topic maxTopicLength

/-- `response`, `server.cpp:204`. -/
def messageResponse (datagram : Datagram) (stale : MessageBuffer) : MessageWithHeader :=
  ⟨datagram.source, receivedMessage datagram stale⟩

/-- The traversal of `matching_ids`, `server.cpp:123–132`. The flag reports that a send
killed the process. -/
def sendLoop (response : MessageWithHeader) :
    List Bytes → UnorderedMap Bytes SubscriberData → Kernel →
      UnorderedMap Bytes SubscriberData × Kernel × Bool
  | [], subscribers, kernel => (subscribers, kernel, false)
  | subId :: rest, subscribers, kernel =>
    let looked := UnorderedMap.index subscribers subId .default
    if looked.1.connected then
      let sent := kernel.sendFrame looked.1.sockfd subId (.message response)
      if sent.2 then (looked.2, sent.1, true) else sendLoop response rest looked.2 sent.1
    else sendLoop response rest looked.2 kernel

/-- `send_msg_to_all_subs`, `server.cpp:116–133`, for one order in which the ids found may
be traversed. -/
def sendMsgToAllSubs (order : List Bytes) (topic : Bytes) (response : MessageWithHeader)
    (subscribers : UnorderedMap Bytes SubscriberData) (trie : TopicTrie) (kernel : Kernel) :
    Option (UnorderedMap Bytes SubscriberData × Kernel × Bool) :=
  if order.Nodup ∧ order.toFinset = trie.findSubscribers topic then
    some (sendLoop response order subscribers kernel)
  else none

/-- The connected ones among the given ids with their sockets. -/
def recipients (subscribers : UnorderedMap Bytes SubscriberData) (ids : List Bytes) :
    List (Bytes × Fd) :=
  ids.filterMap fun id ↦ (UnorderedMap.find subscribers id).bind fun data ↦
    if data.connected then some (id, data.sockfd) else none

/-- Where every id found has an entry, no entry is created and the recipients are written to
in turn. -/
theorem sendLoop_eq (response : MessageWithHeader) {order : List Bytes}
    {subscribers : UnorderedMap Bytes SubscriberData} (kernel : Kernel)
    (h : ∀ id ∈ order, (UnorderedMap.find subscribers id).isSome) :
    sendLoop response order subscribers kernel =
      (subscribers, kernel.sendEach (.message response) (recipients subscribers order)) := by
  induction order generalizing kernel with
  | nil => rfl
  | cons id order ih =>
    obtain ⟨data, hd⟩ := Option.isSome_iff_exists.mp (h id (by simp))
    have ht (k : Kernel) := ih k fun other ho ↦ h other (List.mem_cons_of_mem _ ho)
    rw [sendLoop, UnorderedMap.index_of_find hd]
    by_cases hc : data.connected = true
    · have hr : recipients subscribers (id :: order) =
          (id, data.sockfd) :: recipients subscribers order := by
        simp [recipients, hd, hc]
      rw [hr, Kernel.sendEach]
      simp only [hc, ↓reduceIte, ht]
      split <;> rfl
    · have hr : recipients subscribers (id :: order) = recipients subscribers order := by
        simp [recipients, hd, hc]
      rw [hr]
      simp only [hc, Bool.false_eq_true, ↓reduceIte, ht]

/-- An id is a recipient exactly when it is among the given ones and connected. -/
theorem mem_recipients {subscribers : UnorderedMap Bytes SubscriberData} {ids : List Bytes}
    {id : Bytes} {fd : Fd} :
    (id, fd) ∈ recipients subscribers ids ↔ id ∈ ids ∧ ∃ data,
      UnorderedMap.find subscribers id = some data ∧ data.connected = true ∧ data.sockfd = fd := by
  unfold recipients
  simp only [List.mem_filterMap, Option.bind_eq_some_iff, Option.ite_none_right_eq_some,
    Option.some.injEq, Prod.mk.injEq]
  constructor
  · rintro ⟨other, hm, data, hf, hc, rfl, rfl⟩
    exact ⟨hm, data, hf, hc, rfl⟩
  · rintro ⟨hm, data, hf, hc, rfl⟩
    exact ⟨id, hm, data, hf, hc, rfl, rfl⟩

/-! ### Connections -/

/-- A connection waiting to be accepted: the peer, what it will deliver, and how the kernel
will answer the sends on it. -/
structure Connection where
  address : SockaddrIn
  inbox : List Arrival
  answers : List SendAnswer

/-- The socket of an accepted connection once some of its stream has been read. -/
def Connection.socket (connection : Connection) (inbox : List Arrival) : Socket where
  inbox := inbox
  answers := connection.answers
  log := []
  clientId := none
  session := []
  executed := []

/-- The id in the ten bytes received: `connecting_id` is zeroed and one byte longer. -/
def connectingId (data : Bytes) : Bytes := cString (data ++ [0])

/-- The line for a refused client, `server.cpp:62`. -/
def alreadyConnected (id : Bytes) : Bytes :=
  ascii "Client ".toList ++ id ++ ascii " already connected.\n".toList

/-- The line for a new client, `server.cpp:79–81`. -/
def newClient (id : Bytes) (address : SockaddrIn) : Bytes :=
  ascii "New client ".toList ++ id ++ ascii " connected from ".toList ++
    inetNtoa address.sAddr ++ ascii [':'] ++ decimal (ntoh address.sinPort) ++
    ascii ".\n".toList

/-- The line for a client that has left, `server.cpp:231`. -/
def disconnected (id : Bytes) : Bytes :=
  ascii "Client ".toList ++ id ++ ascii " disconnected.\n".toList

/-- `connect_new_client`, `server.cpp:46–83`, when `accept` has returned `fd`. The code never
sets `revents` of the new entry of `poll_fds`. There is no result while the id is awaited. -/
def State.connectNewClient (s : State) (fd : Fd) (connection : Connection) (revents : Bool) :
    Option State :=
  match recvall idLength connection.inbox with
  | none => none
  | some (.complete data, inbox) =>
    let kernel := s.kernel.accept fd (connection.socket inbox)
    let id := connectingId data
    if (s.subscriber id).any SubscriberData.connected then
      some { s with kernel := kernel.close fd, stdout := s.stdout ++ alreadyConnected id }
    else
      let looked := UnorderedMap.index s.subscribers id .default
      some { s with
        subscribers :=
          UnorderedMap.set looked.2 id { looked.1 with connected := true, sockfd := fd }
        connectedSubscribers := UnorderedMap.set s.connectedSubscribers fd id
        pollFds := s.pollFds ++ [⟨fd, revents⟩]
        kernel := kernel.annotate fd (·.register id)
        stdout := s.stdout ++ newClient id connection.address }
  | some (_, inbox) =>
    some { s with kernel := (s.kernel.accept fd (connection.socket inbox)).close fd }

/-- The three ends of a handshake: it fails, the id is taken, or the client is registered. -/
theorem State.connectNewClient_cases {s t : State} {fd : Fd} {connection : Connection}
    {revents : Bool} (h : s.connectNewClient fd connection revents = some t) :
    (∃ inbox stdout, t = { s with
      kernel := (s.kernel.accept fd (connection.socket inbox)).close fd, stdout := stdout }) ∨
    ∃ data inbox, recvall idLength connection.inbox = some (.complete data, inbox) ∧
      ¬ s.Connected (connectingId data) ∧
      t = { s with
        subscribers := UnorderedMap.set
          (UnorderedMap.index s.subscribers (connectingId data) .default).2 (connectingId data)
          ⟨true, fd, s.topics (connectingId data)⟩
        connectedSubscribers := UnorderedMap.set s.connectedSubscribers fd (connectingId data)
        pollFds := s.pollFds ++ [⟨fd, revents⟩]
        kernel := (s.kernel.accept fd (connection.socket inbox)).annotate fd
          (·.register (connectingId data))
        stdout := s.stdout ++ newClient (connectingId data) connection.address } := by
  unfold connectNewClient at h
  split at h
  · cases h
  · next data inbox hr =>
    dsimp only at h
    split at h
    · cases h
      exact .inl ⟨inbox, _, rfl⟩
    · next hc =>
      cases h
      refine .inr ⟨data, inbox, hr, ?_, ?_⟩
      · rintro ⟨other, found, hf, ht, -⟩
        simp [hf, ht] at hc
      · rw [UnorderedMap.index_fst]
        unfold topics subscriber
        cases UnorderedMap.find s.subscribers (connectingId data) <;> rfl
  · cases h
    exact .inl ⟨_, s.stdout, rfl⟩

end Broker.Server
