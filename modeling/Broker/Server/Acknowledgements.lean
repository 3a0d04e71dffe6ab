import Broker.Base.Alternates
import Broker.Server.Bounds

/-!
# Acknowledgements across the connections of a client

A client learns of its subscriptions from acknowledgements alone. Where sends succeed, the
acknowledgements of a topic on its successive connections take turns, and the last one says
whether the topic is recorded for it.
-/

namespace Broker.Server
open Broker.Base Broker.Net Broker.Topic

/-- The operation of an emission that acknowledges a request for a topic. -/
def ackOf (topic : Bytes) (emission : Emission) : Option UInt8 :=
  match emission.frame with
  | .subscribeAck request =>
    if cString request.topic = topic then some request.operation else none
  | .message _ => none

/-- The operations of the acknowledgements of a topic. -/
def acksOf (topic : Bytes) (emissions : List Emission) : List UInt8 :=
  emissions.filterMap (ackOf topic)

/-- The acknowledgements of every topic take turns and tell whether it is recorded, and every
frame went out whole. -/
structure Mirrors (topics : Finset Bytes) (emissions : List Emission) : Prop where
  alternate : ∀ topic, Alternates operationAckSub operationAckUnsub (acksOf topic emissions)
  recorded : ∀ topic, topic ∈ topics ↔
    (acksOf topic emissions).getLast? = some operationAckSub
  whole : ∀ emission ∈ emissions, emission.written = emission.frame.encode

namespace Mirrors

variable {topics : Finset Bytes} {emissions : List Emission}

private theorem nil : Mirrors ∅ [] where
  alternate _ := trivial
  recorded topic := by simp [acksOf]
  whole _ hm := absurd hm List.not_mem_nil

private theorem whole_concat (h : Mirrors topics emissions) (client : Bytes) (frame : Frame) :
    ∀ emission ∈ emissions ++ [⟨client, frame, frame.encode⟩],
      emission.written = emission.frame.encode := by
  intro emission hm
  obtain hm | hm := List.mem_append.mp hm
  · exact h.whole emission hm
  · rw [List.mem_singleton.mp hm]

private theorem message (h : Mirrors topics emissions) (client : Bytes)
    (response : MessageWithHeader) : Mirrors topics
      (emissions ++ [⟨client, .message response, (Frame.message response).encode⟩]) := by
  have hacks (topic : Bytes) : acksOf topic
      (emissions ++ [⟨client, .message response, (Frame.message response).encode⟩]) =
        acksOf topic emissions := by
    rw [acksOf, List.filterMap_append]
    exact List.append_nil _
  constructor
  · exact fun topic ↦ hacks topic ▸ h.alternate topic
  · exact fun topic ↦ hacks topic ▸ h.recorded topic
  · exact h.whole_concat client (.message response)

private theorem acksOf_acknowledgement (request : SubcribeRequest) (operation : UInt8)
    (client written topic : Bytes) :
    acksOf topic (emissions ++ [⟨client, acknowledgement request operation, written⟩]) =
      if cString request.topic = topic then acksOf topic emissions ++ [operation]
      else acksOf topic emissions := by
  rw [acksOf, List.filterMap_append]
  simp only [List.filterMap_cons, List.filterMap_nil, ackOf, acknowledgement]
  split <;> simp_all [acksOf]

private theorem change (h : Mirrors topics emissions) {request : SubcribeRequest} {stack : Bytes}
    {change : Change} (ht : TopicTerminated request)
    (hrequested : change.Requested request stack topics) (client : Bytes) :
    Mirrors (change.onTopics topics) (emissions ++
      [⟨client, change.reply request, (change.reply request).encode⟩]) := by
  have hwhole := h.whole_concat client (change.reply request)
  have hdiff : operationAckSub ≠ operationAckUnsub := by decide
  cases change with
  | subscribe topic =>
    obtain ⟨ho, hr, hnew⟩ := hrequested
    rw [readCString_of_terminated (ht (.inl ho))] at hr
    obtain rfl := Option.some.inj hr
    refine ⟨fun other ↦ ?_, fun other ↦ ?_, hwhole⟩
    · rw [Change.reply, acksOf_acknowledgement]
      split
      · next he =>
        subst he
        exact (h.alternate _).concat_first fun hlast ↦ hnew ((h.recorded _).mpr hlast)
      · exact h.alternate other
    · rw [Change.reply, acksOf_acknowledgement, Change.onTopics, Finset.mem_insert]
      split
      · next he => simp [he]
      · next he => simp [Ne.symm he, h.recorded other]
  | unsubscribe topic =>
    obtain ⟨ho, hr, hheld⟩ := hrequested
    rw [readCString_of_terminated (ht (.inr ho))] at hr
    obtain rfl := Option.some.inj hr
    refine ⟨fun other ↦ ?_, fun other ↦ ?_, hwhole⟩
    · rw [Change.reply, acksOf_acknowledgement]
      split
      · next he =>
        subst he
        exact (h.alternate _).concat_second hdiff ((h.recorded _).mp hheld)
      · exact h.alternate other
    · rw [Change.reply, acksOf_acknowledgement, Change.onTopics, Finset.mem_erase]
      split
      · next he => simp [he, hdiff.symm]
      · next he => simp [Ne.symm he, h.recorded other]

end Mirrors

namespace View

/-- What was written to the client. -/
def emissions (v : View) : List Emission := v.gather Socket.log

/-- The sends on the client's connection succeed. -/
def SendsSucceed (v : View) : Prop := ∀ sock, v.current = some sock → Reliable sock.answers

variable {v : View} {id : Bytes}

/-- A frame to a connection whose sends succeed goes out whole. -/
theorem log_sendFrame {sock : Socket} (h : Reliable sock.answers) (client : Bytes)
    (frame : Frame) :
    (sock.sendFrame client frame).1.log = sock.log ++ [⟨client, frame, frame.encode⟩] := by
  obtain ⟨answers, -, he⟩ := sock.sendFrame_of_reliable client frame h
  rw [he]
  rfl

/-- Whatever happens to a client, its acknowledgements go on to mirror its topics. -/
theorem mirrors_advance (h : Mirrors v.topics v.emissions) {event : ClientEvent}
    (hs : v.SendsSucceed) (ht : v.Terminates event) :
    Mirrors (v.advance id event).topics (v.advance id event).emissions := by
  have hstep := v.step_advance id event
  generalize v.advance id event = w at hstep ⊢
  cases hstep with
  | stay => exact h
  | accept hcurrent =>
    rw [emissions, gather_accept hcurrent (Socket.register_log _ _)]
    exact h
  | forward hcurrent =>
    rw [emissions, gather_current hcurrent (log_sendFrame (hs _ hcurrent) id _)]
    exact h.message id _
  | consume hcurrent =>
    rw [emissions, gather_keep hcurrent (Socket.consume_log _ _)]
    exact h
  | leave hcurrent =>
    rw [emissions, gather_leave hcurrent (Socket.consume_log _ _)]
    exact h
  | @ignore event sock inbox request hcurrent =>
    have hl := (sock.consume inbox).execute_log request
    rw [Socket.consume_log] at hl
    rw [emissions, gather_keep hcurrent hl]
    exact h
  | @act stack sock bytes inbox change hcurrent hrecv hlength hrequested =>
    have hr : Reliable ((sock.consume inbox).execute (.decode bytes hlength)).answers :=
      hs sock hcurrent
    have hl := log_sendFrame hr id (change.reply (.decode bytes hlength))
    rw [Socket.execute_log, Socket.consume_log] at hl
    rw [emissions, gather_current hcurrent hl]
    exact h.change (ht _ _ _ _ hlength rfl hcurrent hrecv) hrequested id

end View

namespace State

/-- A step writes exactly one frame, on one connection. -/
def WritesOnly (s t : State) (fd : Fd) (id : Bytes) (frame : Frame) : Prop :=
  (∃ sock later, s.kernel.socket fd = some sock ∧ t.kernel.socket fd = some later ∧
    later.log = sock.log ++ [⟨id, frame, frame.encode⟩]) ∧
  (∀ other, other ≠ fd → t.kernel.socket other = s.kernel.socket other) ∧
  t.kernel.archive = s.kernel.archive

/-- A step writes nothing on any connection. -/
def WritesNothing (s t : State) : Prop :=
  (∀ fd, (t.kernel.socket fd).map Socket.log = (s.kernel.socket fd).map Socket.log) ∧
    t.kernel.archive = s.kernel.archive

end State

namespace Sessions

variable {s t : State}

/-- Where the sends of the server succeed, those on a client's connection do. -/
theorem sendsSucceed_view (h : s.kernel.SendsSucceed) (id : Bytes) : (s.view id).SendsSucceed := by
  intro sock hc
  by_cases hl : s.Connected id
  · obtain ⟨fd, hl⟩ := hl
    exact h fd sock ((State.current_of_live hl).symm.trans hc)
  · cases (State.current_of_not_connected hl).symm.trans hc

/-- Every step goes on to mirror the topics of every client in its acknowledgements. -/
theorem mirrors_step (h : Sessions s)
    (hv : ∀ id, Mirrors (s.view id).topics (s.view id).emissions)
    (hsend : s.kernel.SendsSucceed) {event : Event} (ht : s.Terminates event)
    (hs : s.step event = some t) (id : Bytes) :
    Mirrors (t.view id).topics (t.view id).emissions := by
  obtain he | ⟨hf, -⟩ := h.view_step hs id
  · rw [he]
    cases hc : s.clientEvent id event with
    | none => exact hv id
    | some clientEvent =>
      exact View.mirrors_advance (hv id) (sendsSucceed_view hsend id) (h.terminates_view hs ht hc)
  · exact absurd hsend hf

private theorem writesOnly_of_sendFrame (hsend : s.kernel.SendsSucceed) {i : Nat} {fd : Fd}
    {id : Bytes} {data : SubscriberData} {sock : Socket} (hr : Reading s i fd id data sock)
    {inbox : List Arrival} {request : SubcribeRequest} {frame : Frame}
    (hkernel : t.kernel = s.kernel.install fd
      (((sock.consume inbox).execute request).sendFrame id frame).1) :
    s.WritesOnly t fd id frame := by
  have hreliable : Reliable ((sock.consume inbox).execute request).answers :=
    hsend _ sock hr.socket
  refine ⟨⟨sock, _, hr.socket, ?_, View.log_sendFrame hreliable id frame⟩, fun other hne ↦ ?_, ?_⟩
  · rw [hkernel, Kernel.socket_install, if_pos rfl]
  · rw [hkernel, Kernel.socket_install, if_neg (Ne.symm hne)]
  · rw [hkernel]
    rfl

/-- A request that is read is acted on and acknowledged where it changes something, and does
nothing where it does not. -/
theorem acknowledged_step (h : Sessions s) (hsend : s.kernel.SendsSucceed) {event : Event}
    (hs : s.step event = some t) {fd : Fd} {id : Bytes} {request : SubcribeRequest}
    (hreads : s.Reads event fd id request) (ht : TopicTerminated request) :
    let topic := cString request.topic
    (request.operation = operationSubscribe ∧ topic ∉ s.topics id ∧
      t.topics id = insert topic (s.topics id) ∧
      s.WritesOnly t fd id (acknowledgement request operationAckSub)) ∨
    (request.operation = operationUnsubscribe ∧ topic ∈ s.topics id ∧
      t.topics id = (s.topics id).erase topic ∧
      s.WritesOnly t fd id (acknowledgement request operationAckUnsub)) ∨
    ((request.operation = operationSubscribe → topic ∈ s.topics id) ∧
      (request.operation = operationUnsubscribe → topic ∉ s.topics id) ∧
      (∀ other, t.topics other = s.topics other) ∧ t.trie = s.trie ∧ s.WritesNothing t) := by
  intro topic
  obtain ⟨stack, i, data, sock, bytes, inbox, hl, rfl, hr, hrecv, rfl⟩ := hreads
  have hself := State.topics_of_subscriber hr.subscriber
  cases h.move hs with
  | idle hevent => cases hevent
  | die hevent => simp at hevent
  | short hreading' hrecv' hresult =>
    obtain ⟨-, -, -, -, rfl⟩ := hr.unique hreading'
    cases hrecv.symm.trans hrecv'
    exact absurd hl (length_ne_of_short hresult rfl)
  | disconnect hreading' hrecv' hresult =>
    obtain ⟨-, -, -, -, rfl⟩ := hr.unique hreading'
    cases hrecv.symm.trans hrecv'
    exact absurd hl (length_ne_of_end hresult rfl)
  | ignore hreading' hrecv' hlength hnone =>
    obtain ⟨-, rfl, rfl, rfl, rfl⟩ := hr.unique hreading'
    cases hrecv.symm.trans hrecv'
    right
    right
    refine ⟨fun ho ↦ ?_, fun ho hm ↦ ?_, State.topics_of_set_self rfl (fun _ _ ↦ rfl) hself.symm,
      rfl, fun other ↦ ?_, rfl⟩
    · by_contra hm
      rw [hself] at hm
      exact hnone (.subscribe topic) ⟨ho, readCString_of_terminated (ht (.inl ho)) stack, hm⟩
    · rw [hself] at hm
      exact hnone (.unsubscribe topic) ⟨ho, readCString_of_terminated (ht (.inr ho)) stack, hm⟩
    · rw [Kernel.socket_install]
      split
      · next he => rw [← he, hr.socket]; rfl
      · rfl
  | @act _ _ _ _ _ _ _ _ change sent hreading' hrecv' hlength hrequested hsent =>
    obtain ⟨-, rfl, rfl, rfl, rfl⟩ := hr.unique hreading'
    cases hrecv.symm.trans hrecv'
    subst hsent
    cases change with
    | subscribe found =>
      obtain ⟨ho, hread, hm⟩ := hrequested
      rw [readCString_of_terminated (ht (.inl ho))] at hread
      obtain rfl := Option.some.inj hread
      left
      refine ⟨ho, hself ▸ hm, ?_, writesOnly_of_sendFrame hsend hr rfl⟩
      rw [State.topics_of_set rfl (fun _ _ ↦ rfl), if_pos rfl, hself]
      rfl
    | unsubscribe found =>
      obtain ⟨ho, hread, hm⟩ := hrequested
      rw [readCString_of_terminated (ht (.inr ho))] at hread
      obtain rfl := Option.some.inj hread
      right
      left
      refine ⟨ho, hself ▸ hm, ?_, writesOnly_of_sendFrame hsend hr rfl⟩
      rw [State.topics_of_set rfl (fun _ _ ↦ rfl), if_pos rfl, hself]
      rfl

end Sessions
/-- The acknowledgements of a topic written to a client, over all its connections in turn. -/
def State.acks (s : State) (id topic : Bytes) : List UInt8 := acksOf topic (s.view id).emissions

/-- Acknowledgements mirror the recorded topics across the connections of a client. In every run
in which sends succeed and the requests that subscribe or unsubscribe hold a NUL in their topic
field, the acknowledgements of a topic take turns, beginning with that of a subscription; the
topic is recorded exactly when the last one is that of a subscription; and all of them went out
whole. In the next step, a request that changes the client's topics is acknowledged once, with
the same topic and on its own connection, and any other request changes and writes nothing. -/
theorem acknowledgements_mirror {udpfd listenfd : Fd} {s : State}
    (h : Reaches State.step (fun s event ↦ s.kernel.SendsSucceed ∧ s.Terminates event)
      (State.initial udpfd listenfd) s) :
    (∀ id topic, Alternates operationAckSub operationAckUnsub (s.acks id topic) ∧
      (topic ∈ s.topics id ↔ (s.acks id topic).getLast? = some operationAckSub)) ∧
    (∀ id, ∀ emission ∈ (s.view id).emissions, emission.written = emission.frame.encode) ∧
    ∀ event t fd id request, s.kernel.SendsSucceed → s.Terminates event →
      s.step event = some t → s.Reads event fd id request →
        let topic := cString request.topic
        (request.operation = operationSubscribe ∧ topic ∉ s.topics id ∧
          t.topics id = insert topic (s.topics id) ∧
          s.WritesOnly t fd id (acknowledgement request operationAckSub)) ∨
        (request.operation = operationUnsubscribe ∧ topic ∈ s.topics id ∧
          t.topics id = (s.topics id).erase topic ∧
          s.WritesOnly t fd id (acknowledgement request operationAckUnsub)) ∨
        ((request.operation = operationSubscribe → topic ∈ s.topics id) ∧
          (request.operation = operationUnsubscribe → topic ∉ s.topics id) ∧
          (∀ other, t.topics other = s.topics other) ∧ t.trie = s.trie ∧ s.WritesNothing t) := by
  have hs : Sessions s ∧ ∀ id, Mirrors (s.view id).topics (s.view id).emissions :=
    h.invariant (P := fun s ↦ Sessions s ∧
        ∀ id, Mirrors (s.view id).topics (s.view id).emissions)
      ⟨Sessions.initial _ _, fun _ ↦ .nil⟩
      fun _ _ _ hs ha ht ↦ ⟨hs.1.step ht, hs.1.mirrors_step hs.2 ha.1 ha.2 ht⟩
  obtain ⟨hsessions, hmirrors⟩ := hs
  refine ⟨fun id topic ↦ ⟨(hmirrors id).alternate topic, (hmirrors id).recorded topic⟩,
    fun id ↦ (hmirrors id).whole, fun event t fd id request hsend ht hstep hreads ↦ ?_⟩
  exact hsessions.acknowledged_step hsend hstep hreads (ht fd id request hreads)

/-- A client subscribes to `a`, leaves, comes back and unsubscribes. -/
def comeBackRun : List Event :=
  joinRound 4 5 0 (simpleClient 65 [simpleRequest 0 [97], .fin] []) ++ visitRound 5 0 ++
    [.client [], .client [], .proceed] ++
    joinRound 4 6 0 (simpleClient 65 [simpleRequest 1 [97]] []) ++ visitRound 6 0 ++ [.client []]

/-- No prescribed answers, and no request with an open topic. -/
def State.calm (s : State) : Bool :=
  s.allTerminated && s.kernel.sockets.all fun entry ↦ entry.2.answers.isEmpty

/-- In such a state sends succeed and the topics that are read end inside their fields. -/
theorem State.succeeds_of_calm {s : State} (h : s.calm = true) (event : Event) :
    s.kernel.SendsSucceed ∧ s.Terminates event := by
  obtain ⟨ht, ha⟩ := (Bool.and_eq_true _ _).mp h
  constructor
  · apply Kernel.sendsSucceed_of_answers
    intro entry hm
    exact List.isEmpty_iff.mp (List.all_eq_true.mp ha entry hm)
  · exact s.terminates_of_allTerminated ht event

/-- Both acknowledgements, one on each connection, and the topic is no longer recorded. -/
theorem acknowledgements_mirror_comeBack : ∃ s : State,
    s.acks [65] [97] = [operationAckSub, operationAckUnsub] ∧ [97] ∉ s.topics [65] ∧
    Alternates operationAckSub operationAckUnsub (s.acks [65] [97]) := by
  have hrun : (exec (guarded (fun s _ ↦ s.calm) State.step) (State.initial 3 4) comeBackRun).any
      (fun s ↦ decide (s.acks [65] [97] = [operationAckSub, operationAckUnsub])) = true := by
    decide +kernel
  obtain ⟨s, hs, hacks⟩ := exists_exec hrun
  have hr := reaches_of_guarded (fun s event ht ↦ s.succeeds_of_calm ht event) .refl hs
  obtain ⟨halternate, hrecorded⟩ := (acknowledgements_mirror hr).1 [65] [97]
  refine ⟨s, hacks, fun hm ↦ ?_, halternate⟩
  rw [hacks] at hrecorded
  exact absurd (hrecorded.mp hm) (by decide)

end Broker.Server
