import Broker.Server.Bounds
import Broker.Server.Stale
import Broker.Subscriber.Lines
import Broker.System.Delivery

/-!
# From a datagram to the screen

What the subscribers of a client print is settled by what the service sends it: no memory that
happens to lie behind a packet shows in it and no message ends them, as long as the datagrams bring
what their texts are read from, no FLOAT among them has an exponent from 32 on, and the requests end
their topics.
-/

namespace Broker.Server
open Broker.Base Broker.Net Broker.Topic Broker.Subscriber

/-- A datagram brings what its text is read from, and no exponent that makes a power of ten zero
in 32 bits. -/
def Datagram.Displayable (datagram : Datagram) : Prop :=
  datagram.SelfContained ∧ (datagram.payload[maxTopicLength]? = some dataTypeFloat →
    ∀ exponent ∈ datagram.content[5]?, exponent.toNat < 32)

/-- A datagram that is received can be displayed. -/
def Event.Displayable : Event → Prop
  | .datagram received _ _ => received.Displayable
  | _ => True

instance (datagram : Datagram) : Decidable datagram.SelfContained :=
  decidable_of_iff (∃ dataType ∈ datagram.payload[maxTopicLength]?,
    ContentComplete dataType datagram.content) Iff.rfl

instance (datagram : Datagram) : Decidable datagram.Displayable :=
  let _ : Decidable (∀ exponent ∈ datagram.content[5]?, exponent.toNat < 32) :=
    Option.decidableForallMem _
  inferInstanceAs (Decidable (datagram.SelfContained ∧ (_ → _)))

instance : (event : Event) → Decidable event.Displayable
  | .datagram received _ _ => inferInstanceAs (Decidable received.Displayable)
  | .typed _ | .stdinClosed | .poll _ | .pollFails | .proceed | .drained | .accept _ _ _
  | .acceptFails | .nagleFails | .client _ => .isTrue trivial

/-- The message made of such a datagram is settled, whatever the receive buffer held. -/
theorem Datagram.Displayable.settled {datagram : Datagram} (h : datagram.Displayable)
    (stale : MessageBuffer) : Settled (.message (messageResponse datagram stale)) := by
  obtain ⟨hcontained, hexponent⟩ := h
  obtain ⟨dataType, hd, hc⟩ := id hcontained
  obtain ⟨-, htype, hcontent⟩ := receivedMessage_of_typed hd stale
  have hz : dividesByZero (receivedMessage datagram stale) = false := by
    rw [dividesByZero, decide_eq_false_iff_not]
    rintro ⟨hf, hany⟩
    obtain rfl : dataType = dataTypeFloat := htype.symm.trans hf
    have hlength : 6 ≤ datagram.content.length := hc
    obtain ⟨exponent, he, hp⟩ := (Option.any_eq_true _ _).mp hany
    rw [hcontent, List.getElem?_append_left (by omega)] at he
    have hsmall := hexponent hd exponent he
    have hlarge := (powerOf10_eq_zero_iff exponent.toNat).mp (of_decide_eq_true hp)
    omega
  have hstring (hs : (receivedMessage datagram stale).dataType = dataTypeString) :
      (0 : UInt8) ∈ (receivedMessage datagram stale).content := by
    obtain rfl : dataType = dataTypeString := htype.symm.trans hs
    have hm : (0 : UInt8) ∈ datagram.content := hc
    rw [hcontent]
    exact List.mem_append_left _ hm
  obtain ⟨text, ht⟩ := exists_getDisplayedContent hz hstring []
  have hfirst : displayMessage (messageResponse datagram stale) [] =
      some (messageLine (messageResponse datagram stale) text) := by
    rw [displayMessage, messageResponse, ht, Option.map_some]
  exact ⟨_, fun behind ↦ (hcontained.displayMessage_eq stale stale behind []).trans hfirst⟩

private theorem Change.settled_reply {request : SubcribeRequest} {stack : Bytes}
    {topics : Finset Bytes}
    {change : Change} (h : change.Requested request stack topics) (ht : TopicTerminated request) :
    Settled (change.reply request) := by
  have hack (hz : (0 : UInt8) ∈ request.topic) (operation : UInt8) :
      Settled (acknowledgement request operation) := by
    simp only [Settled, displayFrame, acknowledgement, displayAck, readCString_of_terminated hz,
      Option.map_some]
    split
    · exact ⟨_, fun _ ↦ rfl⟩
    · split <;> exact ⟨_, fun _ ↦ rfl⟩
  cases change with
  | subscribe topic => exact hack (ht (.inl h.1)) operationAckSub
  | unsubscribe topic => exact hack (ht (.inr h.1)) operationAckUnsub

/-- What a step brings is settled, where the datagrams can be displayed and the topics of requests
end. -/
theorem Sessions.settled_step {s t : State} (h : Sessions s) {event : Event}
    (hterminates : s.Terminates event) (hdisplayable : event.Displayable)
    (hs : s.step event = some t) {act : Act Bytes Bytes Frame} (hact : s.act event = some act)
    {frame : Frame} (hb : act.brings = some frame) : Settled frame := by
  cases event with
  | datagram datagram stale order =>
    cases hact
    cases hb
    exact Datagram.Displayable.settled hdisplayable stale
  | accept fd connection revents =>
    rw [State.act] at hact
    obtain ⟨id, hp, hact⟩ := Option.bind_eq_some_iff.mp hact
    rw [View.act_connect hp] at hact
    obtain ⟨-, hact⟩ := Option.ite_none_left_eq_some.mp hact
    cases hact
    cases hb
  | client stack =>
    obtain ⟨i, fd, id, data, sock, hreading⟩ := h.reading_of_step hs
    rcases hrecv : recv sizeofSubcribeRequest sock.inbox with ⟨result, inbox⟩
    rw [hreading.act_eq hrecv] at hact
    cases result with
    | received bytes =>
      rw [receivedAct] at hact
      split at hact
      · next hl =>
        obtain ⟨change, hchange, rfl⟩ := Option.map_eq_some_iff.mp hact
        have hrequested := requestedChange_eq_some_iff.mp hchange
        have hterminated : TopicTerminated (.decode bytes hl) := hterminates fd id _
          ⟨stack, i, data, sock, bytes, inbox, hl, rfl, hreading, hrecv, rfl⟩
        have hreply : change.reply (.decode bytes hl) = frame := by
          cases change with
          | subscribe topic => exact Option.some.inj hb
          | unsubscribe topic => exact Option.some.inj hb
        exact hreply ▸ Change.settled_reply hrequested hterminated
      · split at hact
        · cases hact
          cases hb
        · cases hact
    | error errno =>
      obtain ⟨-, hact⟩ := Option.ite_none_right_eq_some.mp hact
      cases hact
      cases hb
  | _ => cases hact

end Broker.Server

namespace Broker.Subscriber
open Broker.Base Broker.Net

/-- A subscriber that has met settled frames has printed their texts, and goes on. -/
theorem Peer.screen_of_settled (peer : Peer) {frames : List Frame}
    (h : payload peer.wire = frames.flatMap Frame.encode) (hmet : peer.Met)
    (hs : ∀ frame ∈ frames, Settled frame) :
    peer.Done ∧ ∃ texts : List Bytes,
      texts.map some = (frames.map fun frame ↦ displayFrame frame []) ∧
        peer.loop.screen = texts.flatten := by
  have hdone := peer.done_of_displayable h hmet fun frame hm ↦ (hs frame hm).displayable
  have hprinted := (MainLoop.session_of_reaches peer.run).printed
  obtain ⟨texts, htexts, hscreen⟩ := hprinted.handed hdone.2
  have hhanded : peer.loop.packets.filterMap Packet.frame = frames := peer.handed_of_done h hdone
  rw [hhanded] at htexts
  exact ⟨hdone, texts, map_displayFrame htexts hs, hscreen⟩

end Broker.Subscriber

namespace Broker.System
open Broker.Base Broker.Net Broker.Topic Broker.Server Broker.Subscriber

/-- What the service sends in such a run is settled. -/
theorem settled_of_run {udpfd listenfd : Fd} {events : List Event} {s : State}
    (h : Runs State.step (fun s event ↦ s.Terminates event) (State.initial udpfd listenfd)
      events s) (hevents : ∀ event ∈ events, event.Displayable) (id : Bytes) :
    ∀ frame ∈ outputs (Service.act splitTopic) (Service.sent MatchesTopic id) .empty
      (acts udpfd listenfd events), Settled frame := by
  have hacts : ∀ act ∈ acts udpfd listenfd events,
      ∀ frame, act.brings = some frame → Settled frame :=
    forall_labels (P := Sessions) (fun _ _ _ hs ht ↦ hs.step ht)
      (fun _ _ _ _ hs ha ht hact _ hb ↦ hs.settled_step ha.1 ha.2 ht hact hb)
      (h.restrict hevents) (Sessions.initial udpfd listenfd)
  intro frame hm
  obtain ⟨service, act, hact, hsent⟩ := mem_outputs hm
  exact hacts act hact frame (Service.mem_sent hsent)

private theorem screen_of_connections {socks : List Socket} {peers : List Peer}
    (houtput : ∀ sock ∈ socks, sock.output = (frames sock).flatMap Frame.encode)
    (hs : ∀ frame ∈ socks.flatMap frames, Settled frame)
    (hread : List.Forall₂ (fun sock peer ↦ payload peer.wire = sock.output ∧ peer.Met) socks
      peers) :
    (∀ peer ∈ peers, peer.Done) ∧ ∃ texts : List Bytes,
      texts.map some = ((socks.flatMap frames).map fun frame ↦ displayFrame frame []) ∧
        (peers.flatMap fun peer ↦ peer.loop.screen) = texts.flatten := by
  induction hread with
  | nil => exact ⟨fun peer hm ↦ absurd hm List.not_mem_nil, [], rfl, rfl⟩
  | @cons sock peer socks peers hpeer _ ih =>
    rw [List.flatMap_cons] at hs ⊢
    obtain ⟨hdone, texts, htexts, hscreen⟩ :=
      ih (fun other hm ↦ houtput other (List.mem_cons_of_mem sock hm))
        fun frame hm ↦ hs frame (List.mem_append_right _ hm)
    obtain ⟨hdone', texts', htexts', hscreen'⟩ :=
      peer.screen_of_settled (hpeer.1.trans (houtput sock List.mem_cons_self)) hpeer.2
        fun frame hm ↦ hs frame (List.mem_append_left _ hm)
    refine ⟨List.forall_mem_cons.mpr ⟨hdone', hdone⟩, texts' ++ texts, ?_, ?_⟩
    · rw [List.map_append, List.map_append, htexts, htexts']
    · rw [List.flatMap_cons, hscreen, hscreen', List.flatten_append]

/-- What is sent is what is printed. In a run in which sends succeed, the topics of requests end
in their fields, the datagrams bring what their texts are read from and no FLOAT among them has an
exponent from 32 on, let a subscriber sit at the other end of each connection of a client that has
received all that was written to it. Then no message has ended a subscriber, and what they have
printed, one after the other, whatever the memory behind their packets holds, is the texts of what
the service sends the client, one for each, in this order. -/
theorem printed_as_sent {udpfd listenfd : Fd} {events : List Event} {s : State}
    (h : Runs State.step (fun s event ↦ s.kernel.SendsSucceed ∧ s.Terminates event)
      (State.initial udpfd listenfd) events s)
    (hevents : ∀ event ∈ events, event.Displayable) (id : Bytes) {peers : List Peer}
    (hread : List.Forall₂ (fun sock peer ↦ payload peer.wire = sock.output ∧ peer.Met)
      (s.view id).connections peers) :
    (∀ peer ∈ peers, peer.Done) ∧ ∃ texts : List Bytes,
      texts.map some = ((outputs (Service.act splitTopic) (Service.sent MatchesTopic id) .empty
        (acts udpfd listenfd events)).map fun frame ↦ displayFrame frame []) ∧
      (peers.flatMap fun peer ↦ peer.loop.screen) = texts.flatten := by
  have hsucceeds : SucceedingRun udpfd listenfd events s := h.mono fun _ _ ha ↦ ha.1
  have hterminates := h.mono fun _ _ ha ↦ ha.2
  obtain ⟨houtput, hsent⟩ := frames_of_run hsucceeds id
  rw [← hsent]
  exact screen_of_connections houtput (hsent ▸ settled_of_run hterminates hevents id) hread

/-- The client of two connections is shown three texts. -/
theorem printed_as_sent_awayRun : ∃ (s : State) (peers : List Peer) (texts : List Bytes),
    List.Forall₂ (fun sock peer ↦ payload peer.wire = sock.output ∧ peer.Met)
      (s.view [65]).connections peers ∧ peers.length = 2 ∧ texts.length = 3 ∧
    texts.map some = ((outputs (Service.act splitTopic) (Service.sent MatchesTopic [65]) .empty
      (acts 3 4 awayRun)).map fun frame ↦ displayFrame frame []) ∧
    (peers.flatMap fun peer ↦ peer.loop.screen) = texts.flatten := by
  have hrun : (exec (guarded (fun s _ ↦ s.calm) State.step) (State.initial 3 4) awayRun).any
      (fun s ↦ decide ((s.view [65]).connections.length = 2 ∧
        ((s.view [65]).connections.flatMap frames).length = 3 ∧
        ∀ sock ∈ (s.view [65]).connections,
          (exec MainLoop.step (.initial (closedWire sock) [])
            (readRounds (sock.log.length + 1))).any (fun t ↦
              t.packets.any Packet.stops) = true)) = true := by decide +kernel
  obtain ⟨s, hs, hsocks, hlength, hreads⟩ := exists_exec hrun
  have hr : Runs State.step (fun s event ↦ s.kernel.SendsSucceed ∧ s.Terminates event)
      (State.initial 3 4) awayRun s :=
    runs_of_guarded (fun s event ht ↦ s.succeeds_of_calm ht event) hs
  have hevents : ∀ event ∈ awayRun, event.Displayable := by decide +kernel
  have hpeer : ∀ sock ∈ (s.view [65]).connections, ∃ peer : Peer,
      payload peer.wire = sock.output ∧ peer.Met := by
    intro sock hsock
    obtain ⟨t, ht, hstops⟩ := (Option.any_eq_true _ _).mp (hreads sock hsock)
    refine ⟨⟨closedWire sock, [], t, reaches_of_exec ht⟩,
      (payload_pushFront _ _).trans (List.append_nil _), ?_⟩
    rw [Peer.Met, MainLoop.remaining_of_stops hstops]
    rfl
  obtain ⟨peers, hpeers⟩ := exists_forall₂ hpeer
  obtain ⟨-, texts, htexts, hscreen⟩ := printed_as_sent hr hevents [65] hpeers
  refine ⟨s, peers, texts, hpeers, hpeers.length_eq ▸ hsocks, ?_, htexts, hscreen⟩
  have hmap := congrArg List.length htexts
  rw [List.length_map, List.length_map,
    ← (frames_of_run (hr.mono fun _ _ ha ↦ ha.1) [65]).2, hlength] at hmap
  exact hmap

end Broker.System
