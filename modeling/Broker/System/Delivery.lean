import Broker.Server.History
import Broker.Subscriber.Delivery

/-!
# From a datagram to a subscriber

The server at one end of the connections of a client and a subscriber at the other end of each.
What the subscribers of a client hand on, one after the other, is what the service sends it, as
long as no message ends one of them.
-/

namespace Broker.System
open Broker.Base Broker.Net Broker.Topic Broker.Server Broker.Subscriber

/-- The frames written on a connection. -/
def frames (sock : Socket) : List Frame := sock.log.map Emission.frame

private theorem output_of_whole {sock : Socket}
    (h : ∀ emission ∈ sock.log, emission.written = emission.frame.encode) :
    sock.output = (frames sock).flatMap Frame.encode := by
  rw [Socket.output, frames, List.flatMap_map]
  exact List.flatMap_congr h

/-- In a run in which sends succeed, the frames written to a client go out whole, and are what
the service sends it. -/
theorem frames_of_run {udpfd listenfd : Fd} {events : List Event} {s : State}
    (h : SucceedingRun udpfd listenfd events s) (id : Bytes) :
    (∀ sock ∈ (s.view id).connections, sock.output = (frames sock).flatMap Frame.encode) ∧
      (s.view id).connections.flatMap frames =
        outputs (Service.act splitTopic) (Service.sent MatchesTopic id) .empty
          (acts udpfd listenfd events) := by
  have hrun := (Sessions.initial udpfd listenfd).written h id
  rw [State.service_initial, State.view_initial] at hrun
  have hemissions : (s.view id).connections.flatMap Socket.log =
      (outputs (Service.act splitTopic) (Service.sent MatchesTopic id) .empty
        (acts udpfd listenfd events)).map (emissionOf id) := hrun
  constructor
  · intro sock hsock
    apply output_of_whole
    intro emission hm
    have hm' : emission ∈ (s.view id).connections.flatMap Socket.log :=
      List.mem_flatMap.mpr ⟨sock, hsock, hm⟩
    rw [hemissions] at hm'
    obtain ⟨frame, -, rfl⟩ := List.mem_map.mp hm'
    rfl
  · have hframes := congrArg (List.map Emission.frame) hemissions
    rw [List.map_flatMap, List.map_map] at hframes
    exact hframes.trans (List.map_id _)

/-- What the subscriber at the other end of a connection has been handed: the first ones of the
frames written on it, and no unknown header; and where all have been delivered and met, those in
front of the first one that cannot be displayed. -/
structure Handed (sock : Socket) (peer : Peer) : Prop where
  first : peer.loop.handed <+: frames sock
  known : ∀ header, .invalidHeader header ∉ peer.loop.packets
  met : payload peer.wire = sock.output → peer.Met →
    peer.loop.handed = (frames sock).takeWhile displayable

/-- What the peers of some connections have been handed. -/
theorem handed_of_connections {socks : List Socket} {peers : List Peer}
    (houtput : ∀ sock ∈ socks, sock.output = (frames sock).flatMap Frame.encode)
    (hpeers : List.Forall₂ (fun sock peer ↦ payload peer.wire <+: sock.output) socks peers) :
    List.Forall₂ Handed socks peers ∧
      (List.Forall₂ (fun sock peer ↦ payload peer.wire = sock.output ∧ peer.Done) socks peers →
        peers.flatMap (fun peer ↦ peer.loop.handed) = socks.flatMap frames) := by
  induction hpeers with
  | nil => exact ⟨.nil, fun _ ↦ rfl⟩
  | @cons sock peer socks peers hfront _ ih =>
    obtain ⟨hsome, hall⟩ := ih fun other hm ↦ houtput other (List.mem_cons_of_mem sock hm)
    have hsock := houtput sock List.mem_cons_self
    obtain ⟨⟨hfirst, hknown⟩, hmet⟩ := peer.handed_prefix (hsock ▸ hfront)
    refine ⟨.cons ⟨hfirst, hknown, fun hp ↦ hmet (hp.trans hsock)⟩ hsome, fun h ↦ ?_⟩
    obtain ⟨⟨hpayload, hdone⟩, hrest⟩ := List.forall₂_cons.mp h
    rw [List.flatMap_cons, List.flatMap_cons, peer.handed_of_done (hpayload.trans hsock) hdone,
      hall hrest]

/-- Messages reach their subscribers. In a run in which sends succeed, let a subscriber sit at
the other end of each connection of a client, to which some of the bytes written have been
delivered, in whatever pieces. What is written on the connections, one after the other, is what
the service sends the client. Each subscriber has been handed the first ones of the frames
written to it and met no unknown header, and where it has been delivered and met all of them, it
has been handed those in front of the first one that divides by zero; and where this is so of all
and none has been ended by a message, the subscribers have been handed exactly what the service
sends the client. -/
theorem delivered {udpfd listenfd : Fd} {events : List Event} {s : State}
    (h : SucceedingRun udpfd listenfd events s) (id : Bytes) {peers : List Peer}
    (hpeers : List.Forall₂ (fun sock peer ↦ payload peer.wire <+: sock.output)
      (s.view id).connections peers) :
    let sent := outputs (Service.act splitTopic) (Service.sent MatchesTopic id) .empty
      (acts udpfd listenfd events)
    (s.view id).connections.flatMap frames = sent ∧
    List.Forall₂ Handed (s.view id).connections peers ∧
    (List.Forall₂ (fun sock peer ↦ payload peer.wire = sock.output ∧ peer.Done)
      (s.view id).connections peers → peers.flatMap (fun peer ↦ peer.loop.handed) = sent) := by
  obtain ⟨houtput, hsent⟩ := frames_of_run h id
  obtain ⟨hsome, hall⟩ := handed_of_connections houtput hpeers
  exact ⟨hsent, hsome, fun hp ↦ (hall hp).trans hsent⟩

/-- The wire that delivers what has been written on a connection, and then ends. -/
def closedWire (sock : Socket) : List Arrival := pushFront sock.output [.fin]

/-- Rounds in which only the connection is readable. -/
def readRounds (n : Nat) : List LoopEvent :=
  (List.replicate n [.poll false true, .received []]).flatten

/-- Choices for all elements of a list make a list. -/
theorem exists_forall₂ {α β : Type} {P : α → β → Prop} {as : List α}
    (h : ∀ a ∈ as, ∃ b, P a b) : ∃ bs, List.Forall₂ P as bs := by
  induction as with
  | nil => exact ⟨[], .nil⟩
  | cons a as ih =>
    obtain ⟨b, hb⟩ := h a List.mem_cons_self
    obtain ⟨bs, hbs⟩ := ih fun other hm ↦ h other (List.mem_cons_of_mem a hm)
    exact ⟨b :: bs, .cons hb hbs⟩

/-- The client of two connections is handed three frames. -/
theorem delivered_awayRun : ∃ (s : State) (peers : List Peer), SucceedingRun 3 4 awayRun s ∧
    List.Forall₂ (fun sock peer ↦ payload peer.wire = sock.output ∧ peer.Done)
      (s.view [65]).connections peers ∧
    peers.flatMap (fun peer ↦ peer.loop.handed) =
      outputs (Service.act splitTopic) (Service.sent MatchesTopic [65]) .empty (acts 3 4 awayRun) ∧
    (s.view [65]).connections.length = 2 := by
  have hrun : (exec (guarded (fun s _ ↦ decide (∀ entry ∈ s.kernel.sockets,
      entry.2.answers = [])) State.step) (State.initial 3 4) awayRun).any (fun s ↦ decide (
        (s.view [65]).connections.length = 2 ∧ ∀ sock ∈ (s.view [65]).connections,
          (exec MainLoop.step (.initial (closedWire sock) [])
            (readRounds (sock.log.length + 1))).any (fun t ↦
              t.place = .exited ∧ t.packets.any Packet.stops = true) = true)) = true := by
    decide +kernel
  obtain ⟨s, hs, hlength, hread⟩ := exists_exec hrun
  have hr : SucceedingRun 3 4 awayRun s := runs_of_guarded
    (fun _ _ ht ↦ Kernel.sendsSucceed_of_answers (of_decide_eq_true ht)) hs
  have hpeer : ∀ sock ∈ (s.view [65]).connections, ∃ peer : Peer,
      payload peer.wire = sock.output ∧ peer.Done := by
    intro sock hsock
    obtain ⟨t, ht, hend⟩ := (Option.any_eq_true _ _).mp (hread sock hsock)
    obtain ⟨hplace, hstops⟩ := of_decide_eq_true hend
    exact ⟨⟨closedWire sock, [], t, reaches_of_exec ht⟩,
      (payload_pushFront _ _).trans (List.append_nil _), Peer.done_of_exited hplace hstops⟩
  obtain ⟨peers, hpeers⟩ := exists_forall₂ hpeer
  have hfront : List.Forall₂ (fun (sock : Socket) (peer : Peer) ↦
      payload peer.wire <+: sock.output) (s.view [65]).connections peers :=
    hpeers.imp fun _ _ hp ↦ hp.1 ▸ List.prefix_rfl
  exact ⟨s, peers, hr, hpeers, (delivered hr [65] hfront).2.2 hpeers, hlength⟩

end Broker.System
