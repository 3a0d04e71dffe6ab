import Broker.Server.Refinement

/-!
# What requests make the server read and store

The 52 bytes of a request may be anything. Its topic is read as a C string, and the reading
ends inside the request exactly when the topic field holds a NUL. As long as it does for every
request that subscribes or unsubscribes, what the server stores for a client are topics of
requests this client has sent. The id of a client always ends inside its buffer.
-/

namespace Broker.Server
open Broker.Base Broker.Net Broker.Topic

/-- The topic is not used, or it ends inside its field. -/
def TopicTerminated (request : SubcribeRequest) : Prop :=
  request.operation = operationSubscribe ∨ request.operation = operationUnsubscribe →
    (0 : UInt8) ∈ request.topic

/-- A terminated topic is read without what lies behind the request. -/
theorem readCString_of_terminated {request : SubcribeRequest} (h : (0 : UInt8) ∈ request.topic)
    (stack : Bytes) : readCString (request.topic ++ stack) = some (cString request.topic) := by
  rw [readCString, if_pos (List.mem_append_left _ h), cString_append_of_mem _ h]

private theorem readCString_of_unterminated {request : SubcribeRequest}
    (h : (0 : UInt8) ∉ request.topic) : readCString (request.topic ++ []) = none := by
  rw [List.append_nil, readCString, if_neg h]

/-- A request whose topic ends inside its field is handled alike whatever lies behind it. -/
theorem processSubRequests_of_terminated {request : SubcribeRequest} (h : TopicTerminated request)
    (stack clientName : Bytes) (subscriber : SubscriberData) (trie : TopicTrie) (kernel : Kernel) :
    processSubRequests request [] clientName subscriber trie kernel =
      processSubRequests request stack clientName subscriber trie kernel := by
  unfold processSubRequests
  split
  · next ho => rw [readCString_of_terminated (h (.inl ho)), readCString_of_terminated (h (.inl ho))]
  · split
    · next ho =>
      rw [readCString_of_terminated (h (.inr ho)), readCString_of_terminated (h (.inr ho))]
    · rfl

private theorem terminated_of_processSubRequests {request : SubcribeRequest} {clientName : Bytes}
    {subscriber : SubscriberData} {trie : TopicTrie} {kernel : Kernel} {result : Processed}
    (h : processSubRequests request [] clientName subscriber trie kernel = some result) :
    TopicTerminated request := by
  have hdiff : operationUnsubscribe ≠ operationSubscribe := by decide
  intro ho
  by_contra hz
  rw [processSubRequests, readCString_of_unterminated hz] at h
  obtain ho | ho := ho
  · rw [if_pos ho] at h
    cases h
  · rw [if_neg (ho ▸ hdiff), if_pos ho] at h
    cases h

namespace State

/-- The step reads a whole request of a client from a descriptor. -/
def Reads (s : State) (event : Event) (fd : Fd) (id : Bytes) (request : SubcribeRequest) : Prop :=
  ∃ stack i data sock bytes inbox, ∃ hl : bytes.length = sizeofSubcribeRequest,
    event = .client stack ∧ Reading s i fd id data sock ∧
      recv sizeofSubcribeRequest sock.inbox = (.received bytes, inbox) ∧
        request = .decode bytes hl

/-- The topic of a request that is read ends inside its field. -/
def Terminates (s : State) (event : Event) : Prop :=
  ∀ fd id request, s.Reads event fd id request → TopicTerminated request

/-- The step reads a topic from the request alone, and an id from its buffer alone. -/
def ReadsInside (s : State) : Event → Prop
  | .client stack => s.step (.client []) = s.step (.client stack)
  | .accept _ connection _ => ∀ data inbox,
      recvall idLength connection.inbox = some (.complete data, inbox) →
        readCString (data ++ [0]) = some (connectingId data)
  | _ => True

end State

/-! ### The reads of a step -/

namespace Reading

variable {s : State} {i : Nat} {fd : Fd} {id : Bytes} {data : SubscriberData} {sock : Socket}
  {inbox : List Arrival}

/-- Reading from a client is one call of `recv` on its connection. -/
theorem readClient_eq (h : Reading s i fd id data sock) (stack : Bytes) :
    s.step (.client stack) = s.readClient i fd stack := by
  obtain ⟨entry, he, rfl, hr⟩ := h.entry
  simp only [State.step, h.place, he, hr, ↓reduceIte]

/-- A whole request is handed on for processing. -/
theorem step_whole (h : Reading s i fd id data sock) {bytes : Bytes}
    (hrecv : recv sizeofSubcribeRequest sock.inbox = (.received bytes, inbox))
    (hl : bytes.length = sizeofSubcribeRequest) (stack : Bytes) :
    s.step (.client stack) = (processSubRequests (.decode bytes hl) stack id data s.trie
      (s.kernel.install fd ((sock.consume inbox).execute (.decode bytes hl)))).map fun result ↦
        { s with
          subscribers := UnorderedMap.set s.subscribers id result.subscriber
          trie := result.trie
          kernel := result.kernel
          place := if result.killed then .killed else .clients i } := by
  have hgot : s.kernel.recv fd sizeofSubcribeRequest =
      (.received bytes, s.kernel.install fd (sock.consume inbox)) := by
    rw [Kernel.recv, h.socket]
    simp only [hrecv]
  have hn := UnorderedMap.index_of_find h.name []
  have hd := UnorderedMap.index_of_find h.subscriber SubscriberData.default
  rw [h.readClient_eq, State.readClient]
  simp only [hn, hd, hgot, hl, ↓reduceDIte, Kernel.annotate_install]

private theorem step_part (h : Reading s i fd id data sock) {result : RecvResult}
    (hrecv : recv sizeofSubcribeRequest sock.inbox = (result, inbox))
    (hresult : ∀ bytes, result = .received bytes → bytes.length ≠ sizeofSubcribeRequest)
    (stack other : Bytes) : s.step (.client stack) = s.step (.client other) := by
  have hgot : s.kernel.recv fd sizeofSubcribeRequest =
      (result, s.kernel.install fd (sock.consume inbox)) := by
    rw [Kernel.recv, h.socket]
    simp only [hrecv]
  rw [h.readClient_eq, h.readClient_eq, State.readClient, State.readClient]
  cases result with
  | error errno => simp only [hgot]
  | received bytes => simp only [hgot, hresult bytes rfl, ↓reduceDIte]

private theorem reads_iff (h : Reading s i fd id data sock) {result : RecvResult}
    (hrecv : recv sizeofSubcribeRequest sock.inbox = (result, inbox)) {stack other : Bytes}
    {fd' : Fd} {request : SubcribeRequest} :
    s.Reads (.client stack) fd' other request ↔ (fd' = fd ∧ other = id) ∧
      ∃ bytes, ∃ hl : bytes.length = sizeofSubcribeRequest,
        result = .received bytes ∧ request = .decode bytes hl := by
  constructor
  · rintro ⟨stack', i', data', sock', bytes, inbox', hl, -, hr, hb, rfl⟩
    obtain ⟨-, rfl, rfl, -, rfl⟩ := hr.unique h
    cases hb.symm.trans hrecv
    exact ⟨⟨rfl, rfl⟩, bytes, hl, rfl, rfl⟩
  · rintro ⟨⟨rfl, rfl⟩, bytes, hl, rfl, rfl⟩
    exact ⟨stack, i, data, sock, bytes, inbox, hl, rfl, h, hrecv, rfl⟩

end Reading

namespace Sessions

variable {s t : State}

/-- A step that reads from a client finds its connection, name and data. -/
theorem reading_of_step (h : Sessions s) {stack : Bytes} (hs : s.step (.client stack) = some t) :
    ∃ i fd id data sock, Reading s i fd id data sock := by
  cases h.move hs with
  | idle hevent => cases hevent
  | die hevent => simp at hevent
  | ignore hreading => exact ⟨_, _, _, _, _, hreading⟩
  | act hreading => exact ⟨_, _, _, _, _, hreading⟩
  | short hreading => exact ⟨_, _, _, _, _, hreading⟩
  | disconnect hreading => exact ⟨_, _, _, _, _, hreading⟩

/-- A step reads nothing beyond the record it has received exactly when the topic of the
request in it, if there is one, ends inside its field. -/
theorem readsInside_iff (h : Sessions s) {event : Event} (hs : s.step event = some t) :
    s.ReadsInside event ↔ s.Terminates event := by
  have hother (hn : ∀ stack, event ≠ .client stack) (hin : s.ReadsInside event) :
      s.ReadsInside event ↔ s.Terminates event := by
    apply iff_of_true hin
    rintro fd id request ⟨stack, i, data, sock, bytes, inbox, hl, he, -⟩
    exact absurd he (hn stack)
  cases event with
  | client stack =>
    obtain ⟨i, fd, id, data, sock, hr⟩ := h.reading_of_step hs
    rcases hrecv : recv sizeofSubcribeRequest sock.inbox with ⟨result, inbox⟩
    by_cases hwhole : ∃ bytes, result = .received bytes ∧ bytes.length = sizeofSubcribeRequest
    · obtain ⟨bytes, rfl, hl⟩ := hwhole
      have hstep := hr.step_whole hrecv hl
      constructor
      · intro hin fd' id' request hreads
        obtain ⟨-, bytes', hl', hb, rfl⟩ := (hr.reads_iff hrecv).mp hreads
        cases hb
        have hin := Eq.trans hin hs
        rw [hstep] at hin
        obtain ⟨result, hp, -⟩ := Option.map_eq_some_iff.mp hin
        exact terminated_of_processSubRequests hp
      · intro ht
        have hterminated := ht fd id _ ((hr.reads_iff hrecv).mpr ⟨⟨rfl, rfl⟩, bytes, hl, rfl, rfl⟩)
        rw [State.ReadsInside, hstep, hstep, processSubRequests_of_terminated hterminated]
    · have hpart (bytes : Bytes) (hb : result = .received bytes) :
          bytes.length ≠ sizeofSubcribeRequest := fun hl ↦ hwhole ⟨bytes, hb, hl⟩
      apply iff_of_true (hr.step_part hrecv hpart _ _)
      intro fd' id' request hreads
      obtain ⟨-, bytes, hl, hb, -⟩ := (hr.reads_iff hrecv).mp hreads
      exact absurd hl (hpart bytes hb)
  | accept fd connection revents =>
    apply hother (by simp)
    intro data inbox hr
    rw [readCString, if_pos (by simp)]
    rfl
  | _ => exact hother (by simp) trivial

end Sessions

/-! ### What is stored -/

namespace View

/-- The requests the client has sent. -/
def requests (v : View) : List SubcribeRequest := v.gather Socket.executed

/-- What is stored for the client are topics of its own requests. -/
structure FromRequests (v : View) : Prop where
  topics : ∀ topic ∈ v.topics, ∃ request ∈ v.requests, cString request.topic = topic
  patterns : ∀ path ∈ v.patterns, ∃ request ∈ v.requests,
    splitTopic (cString request.topic) = path

private theorem FromRequests.initial : View.initial.FromRequests where
  topics topic hm := absurd hm (Finset.notMem_empty topic)
  patterns path hm := absurd hm (Set.notMem_empty path)

/-- The next request of the client ends its topic inside its field. -/
def Terminates (v : View) (event : ClientEvent) : Prop :=
  ∀ stack sock bytes inbox, ∀ hl : bytes.length = sizeofSubcribeRequest, event = .read stack →
    v.current = some sock → recv sizeofSubcribeRequest sock.inbox = (.received bytes, inbox) →
      TopicTerminated (.decode bytes hl)

variable {v : View} {id : Bytes}

private theorem FromRequests.more (h : v.FromRequests) {current : Option Socket}
    {request : SubcribeRequest}
    (hr : requests { v with current := current } = v.requests ++ [request]) :
    FromRequests { v with current := current } := by
  constructor
  · intro topic hm
    obtain ⟨found, hreq, he⟩ := h.topics topic hm
    exact ⟨found, hr ▸ List.mem_append_left _ hreq, he⟩
  · intro path hm
    obtain ⟨found, hreq, he⟩ := h.patterns path hm
    exact ⟨found, hr ▸ List.mem_append_left _ hreq, he⟩

private theorem FromRequests.keep (h : v.FromRequests) {current : Option Socket}
    {past : List Socket} (hr : requests { v with current := current, past := past } = v.requests) :
    FromRequests { v with current := current, past := past } := by
  constructor
  · exact fun topic hm ↦ hr.symm ▸ h.topics topic hm
  · exact fun path hm ↦ hr.symm ▸ h.patterns path hm

private theorem FromRequests.change (h : v.FromRequests) {request : SubcribeRequest} {stack : Bytes}
    {change : Change} (ht : TopicTerminated request)
    (hrequested : change.Requested request stack v.topics) {current : Option Socket}
    (hr : requests { v with current := current } = v.requests ++ [request]) :
    FromRequests { v with
      topics := change.onTopics v.topics
      patterns := change.onPatterns v.patterns
      current := current } := by
  have hold : FromRequests { v with current := current } := h.more hr
  have hnew : request ∈ requests { v with current := current } := by simp [hr]
  cases change with
  | subscribe topic =>
    obtain ⟨ho, hread, -⟩ := hrequested
    rw [readCString_of_terminated (ht (.inl ho))] at hread
    obtain rfl := Option.some.inj hread
    constructor
    · intro topic hm
      obtain rfl | hm := Finset.mem_insert.mp hm
      · exact ⟨request, hnew, rfl⟩
      · exact hold.topics topic hm
    · intro path hm
      obtain rfl | hm := Set.mem_insert_iff.mp hm
      · exact ⟨request, hnew, rfl⟩
      · exact hold.patterns path hm
  | unsubscribe topic =>
    constructor
    · exact fun topic hm ↦ hold.topics topic (Finset.mem_of_mem_erase hm)
    · exact fun path hm ↦ hold.patterns path hm.1

/-- A frame changes nothing about the requests of a connection. -/
theorem executed_sendFrame (sock : Socket) (client : Bytes) (frame : Frame) :
    (sock.sendFrame client frame).1.executed = sock.executed := by
  obtain ⟨written, answers, hw⟩ := sock.sendFrame_eq_record client frame
  rw [hw]
  rfl

/-- Whatever happens to a client, its own requests are all that is stored for it. -/
theorem FromRequests.advance (h : v.FromRequests) {event : ClientEvent} (ht : v.Terminates event) :
    (v.advance id event).FromRequests := by
  have hstep := v.step_advance id event
  generalize v.advance id event = w at hstep ⊢
  cases hstep with
  | stay => exact h
  | accept hcurrent =>
    apply h.keep
    exact gather_accept hcurrent (Socket.register_executed _ _)
  | forward hcurrent =>
    apply h.keep
    exact gather_keep hcurrent (executed_sendFrame _ _ _) _ _
  | consume hcurrent =>
    apply h.keep
    exact gather_keep hcurrent (Socket.consume_executed _ _) _ _
  | leave hcurrent =>
    apply h.keep
    exact gather_leave hcurrent (Socket.consume_executed _ _)
  | @ignore event sock inbox request hcurrent =>
    have he := (sock.consume inbox).execute_executed request
    rw [Socket.consume_executed] at he
    exact h.more (gather_current hcurrent he _ _)
  | act hcurrent hrecv hlength hrequested =>
    apply h.change (ht _ _ _ _ hlength rfl hcurrent hrecv) hrequested
    exact gather_current hcurrent (executed_sendFrame _ _ _) _ _

end View

namespace Sessions

variable {s t : State}

/-- A request that the server reads from a client is the next one of this client. -/
theorem terminates_view (h : Sessions s) {event : Event} (hs : s.step event = some t)
    (ht : s.Terminates event) {id : Bytes} {clientEvent : ClientEvent}
    (he : s.clientEvent id event = some clientEvent) : (s.view id).Terminates clientEvent := by
  rintro stack sock bytes inbox hl rfl hc hrecv
  cases event with
  | client stack' =>
    obtain ⟨hturn, he⟩ := Option.ite_none_right_eq_some.mp he
    obtain ⟨i, fd, id', data, sock', hr⟩ := h.reading_of_step hs
    obtain rfl := Option.some.inj (hturn.symm.trans hr.turn)
    obtain rfl := Option.some.inj
      (hc.symm.trans ((State.current_of_live hr.live).trans hr.socket))
    exact ht fd id _ ((hr.reads_iff hrecv).mpr ⟨⟨rfl, rfl⟩, bytes, hl, rfl, rfl⟩)
  | accept fd connection revents =>
    obtain ⟨-, he⟩ := Option.ite_none_right_eq_some.mp he
    cases he
  | datagram datagram stale order => cases he
  | _ => cases he

/-- Every step goes on to store topics of requests of their client only. -/
theorem fromRequests_step (h : Sessions s) (hv : ∀ id, (s.view id).FromRequests) {event : Event}
    (ht : s.Terminates event) (hs : s.step event = some t) (id : Bytes) :
    (t.view id).FromRequests := by
  obtain he | ⟨-, he⟩ := h.view_step hs id
  · rw [he]
    cases hc : s.clientEvent id event with
    | none => exact hv id
    | some clientEvent => exact (hv id).advance (h.terminates_view hs ht hc)
  · rw [he]
    exact hv id

end Sessions

private theorem length_cString_topic (request : SubcribeRequest) :
    (cString request.topic).length ≤ maxTopicLength + 1 := by
  rw [← request.length_topic]
  exact (List.takeWhile_sublist _).length_le

/-- In every run in which the requests that subscribe or unsubscribe hold a NUL in their topic
field, every recorded topic and every pattern of the trie is the part before the first NUL of
the topic field of a request of this very client; and from every state of such a run, a step
reads only what it has received exactly when it meets this condition again. -/
theorem stored_from_requests {udpfd listenfd : Fd} {s : State}
    (h : Reaches State.step State.Terminates (State.initial udpfd listenfd) s) :
    (∀ id, ∀ topic ∈ s.topics id, topic.length ≤ maxTopicLength + 1 ∧
      ∃ request ∈ (s.view id).requests, topic = cString request.topic) ∧
    (∀ path id, s.trie.Holds path id → ∃ topic, topic.length ≤ maxTopicLength + 1 ∧
      path = splitTopic topic ∧
        ∃ request ∈ (s.view id).requests, topic = cString request.topic) ∧
    ∀ event t, s.step event = some t → (s.ReadsInside event ↔ s.Terminates event) := by
  have hstart (id : Bytes) : ((State.initial udpfd listenfd).view id).FromRequests :=
    State.view_initial udpfd listenfd id ▸ View.FromRequests.initial
  have hs : Sessions s ∧ ∀ id, (s.view id).FromRequests :=
    h.invariant (P := fun s ↦ Sessions s ∧ ∀ id, (s.view id).FromRequests)
      ⟨Sessions.initial _ _, hstart⟩
      fun _ _ _ hs ha ht ↦ ⟨hs.1.step ht, hs.1.fromRequests_step hs.2 ha ht⟩
  obtain ⟨hsessions, hfrom⟩ := hs
  refine ⟨fun id topic hm ↦ ?_, fun path id hh ↦ ?_, fun event t ht ↦ ?_⟩
  · obtain ⟨request, hreq, rfl⟩ := (hfrom id).topics topic hm
    exact ⟨length_cString_topic request, request, hreq, rfl⟩
  · obtain ⟨request, hreq, rfl⟩ := (hfrom id).patterns path hh
    exact ⟨_, length_cString_topic request, rfl, request, hreq, rfl⟩
  · exact hsessions.readsInside_iff ht

/-- What is about to be read from any connection is no request with an open topic. -/
def State.allTerminated (s : State) : Bool :=
  s.kernel.sockets.all fun entry ↦
    match (recv sizeofSubcribeRequest entry.2.inbox).1 with
    | .received bytes => bytes.length = sizeofSubcribeRequest → (0 : UInt8) ∈ bytes.drop 1
    | _ => true

/-- Where no connection is about to deliver a request with an open topic, every event is one with
terminated requests. -/
theorem State.terminates_of_allTerminated {s : State} (h : s.allTerminated = true)
    (event : Event) : s.Terminates event := by
  rintro fd id request ⟨stack, i, data, sock, bytes, inbox, hl, -, hr, hrecv, rfl⟩ -
  have hm := List.all_eq_true.mp h _ (UnorderedMap.mem_of_find hr.socket)
  rw [hrecv] at hm
  exact of_decide_eq_true hm hl

/-- A client subscribes to `a`: the topic is the one it has sent. -/
theorem stored_from_requests_subscribe : ∃ s : State, [97] ∈ s.topics [65] ∧
    ∃ request ∈ (s.view [65]).requests, [97] = cString request.topic := by
  have hrun : (exec (guarded (fun s _ ↦ s.allTerminated) State.step) (State.initial 3 4)
      (joinRound 4 5 0 (simpleClient 65 [simpleRequest 0 [97]] []) ++ visitRound 5 0 ++
        [.client []])).any (fun s ↦ decide ([97] ∈ s.topics [65])) = true := by decide +kernel
  obtain ⟨s, hs, hm⟩ := exists_exec hrun
  have hr := reaches_of_guarded (fun s event ht ↦ s.terminates_of_allTerminated ht event)
    .refl hs
  exact ⟨s, hm, ((stored_from_requests hr).1 [65] [97] hm).2⟩

/-- A client subscribes with a topic field full of `a`. -/
def unterminatedRun : List Event :=
  joinRound 4 5 0 (simpleClient 65 [simpleRequest 0 (List.replicate 51 97)] []) ++ visitRound 5 0

/-- The topic is read on behind the request, and what lies there is stored. -/
theorem not_inside_unterminatedRun : ∃ s t : State, Reachable 3 4 s ∧
    s.step (.client [98, 0]) = some t ∧ s.step (.client []) ≠ s.step (.client [98, 0]) ∧
    List.replicate 51 97 ++ [98] ∈ t.topics [65] := by
  have hrun : (exec State.step (State.initial 3 4) unterminatedRun).any (fun s ↦
      (s.step (.client [])).isNone = true ∧ (s.step (.client [98, 0])).any (fun t ↦
        decide (List.replicate 51 97 ++ [98] ∈ t.topics [65])) = true) = true := by
    decide +kernel
  obtain ⟨s, hs, hnone, hstep⟩ := exists_exec hrun
  obtain ⟨t, ht, hm⟩ := (Option.any_eq_true _ _).mp hstep
  refine ⟨s, t, reaches_of_exec hs, ht, ?_, of_decide_eq_true hm⟩
  rw [ht, Option.isNone_iff_eq_none.mp hnone]
  exact fun he ↦ nomatch he

end Broker.Server
