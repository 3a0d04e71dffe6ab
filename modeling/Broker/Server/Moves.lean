import Broker.Server.Loop
import Broker.Topic.Subscriptions

/-!
# What a step can do

The consistency of the session tables, and, for a state whose tables are consistent, the
list of everything one step can do. Every invariant of the server is derived from this
list alone.
-/

namespace Broker.Server
open Broker.Base Broker.Net Broker.Topic

/-- Every frame was written for the client the connection is registered to. -/
def Addressed (sock : Socket) : Prop := ∀ emission ∈ sock.log, sock.clientId = some emission.client

/-- The open connections are those of the named descriptors, each registered under the name
of its descriptor; no frame went to another client, and none to a closed descriptor. -/
structure Kernel.Serves (kernel : Kernel) (names : Fd → Option Bytes) : Prop where
  owner : ∀ fd, (kernel.socket fd).map Socket.clientId = (names fd).map some
  addressed : kernel.Every Addressed
  stray : kernel.stray = []

/-- The session tables agree with each other, with the kernel and with the trie. -/
structure Sessions (s : State) : Prop where
  listed : subsStartIdx ≤ s.pollFds.length
  position : ∀ i, s.place = .clients i → subsStartIdx ≤ i
  nodup : s.clientFds.Nodup
  keys : ∀ fd, fd ∈ s.clientFds ↔ (s.clientName fd).isSome
  named : ∀ fd id, s.clientName fd = some id ↔ s.Live id fd
  serves : s.kernel.Serves s.clientName
  registered : ∀ path id, s.trie.Holds path id → (s.subscriber id).isSome

namespace Place

/-- The order of the phases of one round. -/
def phase : Place → Nat
  | poll => 0
  | stdin => 1
  | udp => 2
  | listener => 3
  | clients _ => 4
  | _ => 5

end Place

/-! ### Reading from a client -/

/-- The loop is at a readable client whose connection, name and data are these. -/
structure Reading (s : State) (i : Nat) (fd : Fd) (id : Bytes) (data : SubscriberData)
    (sock : Socket) : Prop where
  place : s.place = .clients i
  entry : ∃ entry, s.pollFds[i]? = some entry ∧ entry.fd = fd ∧ entry.pollin = true
  name : s.clientName fd = some id
  subscriber : s.subscriber id = some data
  connected : data.connected = true
  sockfd : data.sockfd = fd
  socket : s.kernel.socket fd = some sock

/-- A state determines what is read from whom. -/
theorem Reading.unique {s : State} {i j : Nat} {fd fd' : Fd} {id id' : Bytes}
    {data data' : SubscriberData} {sock sock' : Socket} (h : Reading s i fd id data sock)
    (h' : Reading s j fd' id' data' sock') :
    i = j ∧ fd = fd' ∧ id = id' ∧ data = data' ∧ sock = sock' := by
  obtain rfl := Place.clients.inj (h.place.symm.trans h'.place)
  obtain ⟨entry, he, rfl, -⟩ := h.entry
  obtain ⟨entry', he', rfl, -⟩ := h'.entry
  obtain rfl := Option.some.inj (he.symm.trans he')
  obtain rfl := Option.some.inj (h.name.symm.trans h'.name)
  exact ⟨rfl, rfl, rfl, Option.some.inj (h.subscriber.symm.trans h'.subscriber),
    Option.some.inj (h.socket.symm.trans h'.socket)⟩

/-- The next request read, from the client of this id, asks for a change. -/
def State.Asks (s : State) (stack id : Bytes) (data : SubscriberData) (change : Change) : Prop :=
  ∃ i fd sock bytes inbox, ∃ hlength : bytes.length = sizeofSubcribeRequest,
    Reading s i fd id data sock ∧
    recv sizeofSubcribeRequest sock.inbox = (.received bytes, inbox) ∧
    change.Requested (.decode bytes hlength) stack data.topics

/-- The client asked is the one read from, and what is read is the request. -/
theorem State.Asks.of_reading {s : State} {stack id id' : Bytes} {data data' : SubscriberData}
    {change : Change} {i : Nat} {fd : Fd} {sock : Socket} {result : RecvResult}
    {inbox : List Arrival} (h : s.Asks stack id data change) (hr : Reading s i fd id' data' sock)
    (hrecv : recv sizeofSubcribeRequest sock.inbox = (result, inbox)) :
    id = id' ∧ data = data' ∧ ∃ bytes, ∃ hlength : bytes.length = sizeofSubcribeRequest,
      result = .received bytes ∧ change.Requested (.decode bytes hlength) stack data'.topics := by
  obtain ⟨j, fd', sock', bytes, later, hl, hr', hb, hq⟩ := h
  obtain ⟨-, -, rfl, rfl, rfl⟩ := hr'.unique hr
  cases hrecv.symm.trans hb
  exact ⟨rfl, rfl, bytes, hl, rfl, hq⟩

/-- A step writes a frame for a client to a descriptor. -/
inductive State.Writes (s : State) : Event → Fd → Bytes → Frame → Prop
  | message {datagram stale order id fd} (hrecipient : (id, fd) ∈ recipients s.subscribers order) :
    s.Writes (.datagram datagram stale order) fd id (.message (messageResponse datagram stale))
  | acknowledge {i fd id data sock stack bytes inbox change}
      (hreading : Reading s i fd id data sock)
      (hrecv : recv sizeofSubcribeRequest sock.inbox = (.received bytes, inbox))
      (hlength : bytes.length = sizeofSubcribeRequest)
      (hrequested : Change.Requested (.decode bytes hlength) stack data.topics change) :
    s.Writes (.client stack) fd id (change.reply (.decode bytes hlength))

/-- What is written in reading from a client is the reply to what is read. -/
theorem State.Writes.of_reading {s : State} {stack client id : Bytes} {data : SubscriberData}
    {i : Nat} {fd fd' : Fd} {sock : Socket} {frame : Frame} {result : RecvResult}
    {inbox : List Arrival} (h : s.Writes (.client stack) fd' client frame)
    (hr : Reading s i fd id data sock)
    (hrecv : recv sizeofSubcribeRequest sock.inbox = (result, inbox)) :
    fd' = fd ∧ client = id ∧ ∃ bytes, ∃ change : Change,
      ∃ hlength : bytes.length = sizeofSubcribeRequest, result = .received bytes ∧
      change.Requested (.decode bytes hlength) stack data.topics ∧
      frame = change.reply (.decode bytes hlength) := by
  cases h with
  | acknowledge hr' hb hl hq =>
    obtain ⟨-, rfl, rfl, rfl, rfl⟩ := hr'.unique hr
    cases hrecv.symm.trans hb
    exact ⟨rfl, rfl, _, _, hl, rfl, hq, rfl⟩

/-- What one step can do in a state with consistent tables. -/
inductive Move (s : State) : Event → State → Prop
  | typed {bytes} (hleft : s.place.left = false) (hclosed : s.stdin.closed = false) :
    Move s (.typed bytes) { s with stdin := s.stdin.enter bytes }
  | stdinClosed (hleft : s.place.left = false) :
    Move s .stdinClosed { s with stdin := s.stdin.close }
  /-- A line is read, or the end of standard input is met. -/
  | command {line stdin} (hplace : s.place = .stdin)
      (hread : fgets maxStdinLen s.stdin = some (line, stdin)) :
    Move s .proceed { s with stdin := stdin, place := if isExit line then .exited else .udp }
  /-- Control moves on within the round, or to the next one. -/
  | idle {event pollFds place} (hevent : event.quiet = true)
      (hfds : pollFds.map PollFd.fd = s.pollFds.map PollFd.fd) (hleft : place.left = false)
      (hphase : s.place.phase ≤ place.phase ∨ place = .poll)
      (hposition : ∀ i, place = .clients i → subsStartIdx ≤ i) :
    Move s event { s with pollFds := pollFds, place := place }
  /-- `DIE` ends the process. -/
  | die {event} (hevent : event = .pollFails ∨ event = .nagleFails) :
    Move s event { s with place := .died }
  /-- A datagram is forwarded. -/
  | route {datagram stale order sent} (hplace : s.place = .udp) (hnodup : order.Nodup)
      (horder : order.toFinset =
        s.trie.findSubscribers (topicStr (receivedMessage datagram stale)))
      (hsent : s.kernel.sendEach (.message (messageResponse datagram stale))
        (recipients s.subscribers order) = sent) :
    Move s (.datagram datagram stale order)
      { s with kernel := sent.1, place := if sent.2 then .killed else .udp }
  /-- A handshake fails or the id is taken. -/
  | refuse {fd connection revents inbox stdout} (hplace : s.place = .listener)
      (hopen : ¬ s.Open fd) :
    Move s (.accept fd connection revents)
      { s with
        kernel := (s.kernel.accept fd (connection.socket inbox)).close fd
        stdout := stdout
        place := .clients subsStartIdx }
  /-- A client is registered. -/
  | connect {fd connection revents data inbox stdout} (hplace : s.place = .listener)
      (hopen : ¬ s.Open fd)
      (hread : recvall idLength connection.inbox = some (.complete data, inbox))
      (hfree : ¬ s.Connected (connectingId data)) :
    Move s (.accept fd connection revents)
      { s with
        subscribers := UnorderedMap.set
          (UnorderedMap.index s.subscribers (connectingId data) .default).2 (connectingId data)
          ⟨true, fd, s.topics (connectingId data)⟩
        connectedSubscribers := UnorderedMap.set s.connectedSubscribers fd (connectingId data)
        pollFds := s.pollFds ++ [⟨fd, revents⟩]
        kernel := s.kernel.accept fd ((connection.socket inbox).register (connectingId data))
        stdout := stdout
        place := .clients subsStartIdx }
  /-- A whole request is read and changes nothing. -/
  | ignore {i fd id data sock stack bytes inbox} (hreading : Reading s i fd id data sock)
      (hrecv : recv sizeofSubcribeRequest sock.inbox = (.received bytes, inbox))
      (hlength : bytes.length = sizeofSubcribeRequest)
      (hnone : ∀ change : Change, ¬ change.Requested (.decode bytes hlength) stack data.topics) :
    Move s (.client stack)
      { s with
        subscribers := UnorderedMap.set s.subscribers id data
        kernel := s.kernel.install fd ((sock.consume inbox).execute (.decode bytes hlength))
        place := .clients i }
  /-- A whole request is read, acted on and acknowledged. -/
  | act {i fd id data sock stack bytes inbox change sent} (hreading : Reading s i fd id data sock)
      (hrecv : recv sizeofSubcribeRequest sock.inbox = (.received bytes, inbox))
      (hlength : bytes.length = sizeofSubcribeRequest)
      (hrequested : Change.Requested (.decode bytes hlength) stack data.topics change)
      (hsent : ((sock.consume inbox).execute (.decode bytes hlength)).sendFrame id
        (change.reply (.decode bytes hlength)) = sent) :
    Move s (.client stack)
      { s with
        subscribers := UnorderedMap.set s.subscribers id
          { data with topics := change.onTopics data.topics }
        trie := change.onTrie s.trie id
        kernel := s.kernel.install fd sent.1
        place := if sent.2 then .killed else .clients i }
  /-- Nothing has arrived, or too little for a request. -/
  | short {i fd id data sock stack result inbox} (hreading : Reading s i fd id data sock)
      (hrecv : recv sizeofSubcribeRequest sock.inbox = (result, inbox))
      (hresult : result = .error .again ∨ result = .error .wouldBlock ∨
        ∃ bytes, result = .received bytes ∧ bytes ≠ [] ∧ bytes.length ≠ sizeofSubcribeRequest) :
    Move s (.client stack)
      { s with kernel := s.kernel.install fd (sock.consume inbox), place := .clients (i + 1) }
  /-- The end of the stream or an error. -/
  | disconnect {i fd id data sock stack result inbox} (hreading : Reading s i fd id data sock)
      (hrecv : recv sizeofSubcribeRequest sock.inbox = (result, inbox))
      (hresult : result = .received [] ∨
        ∃ errno, result = .error errno ∧ errno ≠ .again ∧ errno ≠ .wouldBlock) :
    Move s (.client stack)
      (State.disconnect { s with kernel := s.kernel.install fd (sock.consume inbox) } i fd id data)

/-- Too little for a request is not a whole one, nor is nothing at all. -/
theorem length_ne_of_short {result : RecvResult} {bytes : Bytes}
    (h : result = .error .again ∨ result = .error .wouldBlock ∨
      ∃ bytes, result = .received bytes ∧ bytes ≠ [] ∧ bytes.length ≠ sizeofSubcribeRequest)
    (hb : result = .received bytes) : bytes.length ≠ sizeofSubcribeRequest := by
  obtain rfl | rfl | ⟨other, rfl, -, hn⟩ := h
  · cases hb
  · cases hb
  · cases hb
    exact hn

/-- The end of the stream is not a whole request, nor is an error. -/
theorem length_ne_of_end {result : RecvResult} {bytes : Bytes}
    (h : result = .received [] ∨ ∃ errno, result = .error errno ∧ errno ≠ .again ∧
      errno ≠ .wouldBlock)
    (hb : result = .received bytes) : bytes.length ≠ sizeofSubcribeRequest := by
  obtain rfl | ⟨errno, rfl, -⟩ := h
  · cases hb
    decide
  · cases hb

/-! ### The steps are these moves -/

variable {s t : State}

/-- The ids found for a topic all have an entry. -/
theorem Sessions.isSome_of_mem_findSubscribers (h : Sessions s) {topic id : Bytes}
    (hm : id ∈ s.trie.findSubscribers topic) : (s.subscriber id).isSome := by
  obtain ⟨path, hp, -⟩ := (TopicTrie.mem_findSubscribers ..).mp hm
  exact h.registered path id hp

/-- The entries of `poll_fds` from `SUBS_START_IDX` on are those of the clients. -/
theorem State.mem_clientFds {i : Nat} {entry : PollFd} (hi : subsStartIdx ≤ i)
    (he : s.pollFds[i]? = some entry) : entry.fd ∈ s.clientFds := by
  refine List.mem_map_of_mem (List.mem_of_getElem? (i := i - subsStartIdx) ?_)
  rw [List.getElem?_drop, Nat.add_sub_cancel' hi, he]

/-- At a readable client there is a connection with its name and its data. -/
theorem Sessions.reading (h : Sessions s) {i : Nat} {entry : PollFd} (hp : s.place = .clients i)
    (he : s.pollFds[i]? = some entry) (hr : entry.pollin = true) :
    ∃ id data sock, Reading s i entry.fd id data sock := by
  obtain ⟨id, hid⟩ := Option.isSome_iff_exists.mp
    ((h.keys _).mp (State.mem_clientFds (h.position i hp) he))
  obtain ⟨data, hd, hc, hf⟩ := (h.named _ _).mp hid
  have ho := h.serves.owner entry.fd
  rw [hid] at ho
  obtain ⟨sock, hs, -⟩ := Option.map_eq_some_iff.mp ho
  exact ⟨id, data, sock, hp, ⟨entry, he, rfl, hr⟩, hid, hd, hc, hf, hs⟩

/-- Reading from a client is one of the moves of a client. -/
theorem Reading.move {i : Nat} {fd : Fd} {id : Bytes} {data : SubscriberData} {sock : Socket}
    (h : Reading s i fd id data sock) {stack : Bytes} (hs : s.readClient i fd stack = some t) :
    Move s (.client stack) t := by
  rcases hr : recv sizeofSubcribeRequest sock.inbox with ⟨result, inbox⟩
  have hgot : s.kernel.recv fd sizeofSubcribeRequest =
      (result, s.kernel.install fd (sock.consume inbox)) := by
    rw [Kernel.recv, h.socket]
    simp only [hr]
  unfold State.readClient at hs
  have hn := UnorderedMap.index_of_find h.name []
  have hd := UnorderedMap.index_of_find h.subscriber SubscriberData.default
  simp only [hn, hd, hgot, Kernel.annotate_install] at hs
  cases result with
  | error errno =>
    dsimp only at hs
    split at hs
    · next he =>
      cases hs
      exact .disconnect h hr (.inr ⟨errno, rfl, he⟩)
    · next he =>
      cases hs
      refine .short h hr ?_
      rcases not_and_or.mp he with he | he
      · exact .inl (by rw [not_not.mp he])
      · exact .inr (.inl (by rw [not_not.mp he]))
  | received bytes =>
    dsimp only at hs
    split at hs
    · next hl =>
      obtain ⟨result, hp, rfl⟩ := Option.map_eq_some_iff.mp hs
      obtain ⟨rfl, hn⟩ | ⟨change, hc, rfl⟩ := processSubRequests_cases hp
      · exact .ignore h hr hl hn
      · obtain rfl := h.sockfd
        rw [Kernel.sendFrame_install]
        exact .act h hr hl hc rfl
    · next hl =>
      split at hs
      · next hb =>
        cases hs
        exact .disconnect h hr (.inl (by rw [hb]))
      · next hb =>
        cases hs
        exact .short h hr (.inr (.inr ⟨bytes, rfl, hb, hl⟩))

/-- With consistent tables every step is one of the moves. -/
theorem Sessions.move (h : Sessions s) {event : Event} (hs : s.step event = some t) :
    Move s event t := by
  cases event with
  | typed bytes =>
    simp only [State.step, Option.ite_none_left_eq_some, Option.some.injEq] at hs
    obtain ⟨hn, rfl⟩ := hs
    exact .typed (by simpa using (not_or.mp hn).1) (by simpa using (not_or.mp hn).2)
  | stdinClosed =>
    simp only [State.step, Option.ite_none_left_eq_some, Option.some.injEq] at hs
    obtain ⟨hn, rfl⟩ := hs
    exact .stdinClosed (by simpa using hn)
  | poll readable =>
    simp only [State.step, Option.ite_none_right_eq_some, Option.some.injEq] at hs
    obtain ⟨hp, rfl⟩ := hs
    refine .idle rfl ?_ rfl (.inl (by rw [hp]; exact Nat.zero_le _)) (by simp)
    rw [List.map_map]
    rfl
  | pollFails =>
    simp only [State.step, Option.ite_none_right_eq_some, Option.some.injEq] at hs
    obtain ⟨-, rfl⟩ := hs
    exact .die (.inl rfl)
  | nagleFails =>
    simp only [State.step, Option.ite_none_right_eq_some, Option.some.injEq] at hs
    obtain ⟨-, rfl⟩ := hs
    exact .die (.inr rfl)
  | acceptFails =>
    simp only [State.step, Option.ite_none_right_eq_some, Option.some.injEq] at hs
    obtain ⟨⟨hp, -⟩, rfl⟩ := hs
    exact .idle rfl rfl rfl (.inl (by rw [hp]; decide)) (by simp)
  | drained =>
    simp only [State.step, Option.ite_none_right_eq_some, Option.some.injEq] at hs
    obtain ⟨⟨hp, -⟩, rfl⟩ := hs
    exact .idle rfl rfl rfl (.inl (by rw [hp]; decide)) (by simp)
  | datagram datagram stale order =>
    simp only [State.step, Option.ite_none_right_eq_some, State.receiveDatagram,
      sendMsgToAllSubs] at hs
    obtain ⟨⟨hp, -⟩, hs⟩ := hs
    obtain ⟨result, hr, rfl⟩ := Option.map_eq_some_iff.mp hs
    obtain ⟨⟨hn, ho⟩, hr⟩ := Option.ite_none_right_eq_some.mp hr
    have hids : ∀ id ∈ order, (UnorderedMap.find s.subscribers id).isSome := by
      intro id hm
      have hm' := List.mem_toFinset.mpr hm
      rw [ho] at hm'
      exact h.isSome_of_mem_findSubscribers hm'
    rw [sendLoop_eq _ _ hids] at hr
    obtain rfl := Option.some.inj hr
    exact .route hp hn ho rfl
  | accept fd connection revents =>
    simp only [State.step, Option.ite_none_right_eq_some] at hs
    obtain ⟨⟨hp, -, ho⟩, hs⟩ := hs
    obtain ⟨u, hu, rfl⟩ := Option.map_eq_some_iff.mp hs
    obtain ⟨inbox, stdout, rfl⟩ | ⟨data, inbox, hr, hc, rfl⟩ := State.connectNewClient_cases hu
    · exact .refuse hp ho
    · rw [Kernel.annotate_accept]
      exact .connect hp ho hr hc
  | client stack =>
    unfold State.step at hs
    dsimp only at hs
    split at hs
    · next i hp =>
      split at hs
      · next entry he =>
        obtain ⟨hr, hs⟩ := Option.ite_none_right_eq_some.mp hs
        obtain ⟨id, data, sock, hreading⟩ := h.reading hp he hr
        exact hreading.move hs
      · cases hs
    · cases hs
  | proceed =>
    unfold State.step at hs
    dsimp only at hs
    split at hs
    · next hp =>
      unfold State.readCommand at hs
      split at hs
      · obtain ⟨result, hr, rfl⟩ := Option.map_eq_some_iff.mp hs
        exact .command hp hr
      · cases hs
        exact .idle rfl rfl rfl (.inl (by rw [hp]; decide)) (by simp)
    · next hp =>
      obtain ⟨-, hs⟩ := Option.ite_none_left_eq_some.mp hs
      cases hs
      exact .idle rfl rfl rfl (.inl (by rw [hp]; decide)) (by simp)
    · next hp =>
      obtain ⟨-, hs⟩ := Option.ite_none_left_eq_some.mp hs
      cases hs
      exact .idle rfl rfl rfl (.inl (by rw [hp]; decide)) (by simp)
    · next i hp =>
      split at hs
      · obtain ⟨-, hs⟩ := Option.ite_none_left_eq_some.mp hs
        cases hs
        have := h.position i hp
        exact .idle rfl rfl rfl (.inl (by rw [hp]; exact Nat.le_refl _)) (by simp; omega)
      · cases hs
        exact .idle rfl rfl rfl (.inr rfl) (by simp)
    · cases hs

end Broker.Server
