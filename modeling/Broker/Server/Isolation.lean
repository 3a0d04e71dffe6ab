import Broker.Base.Projection
import Broker.Server.Erase

/-!
# Clients are isolated from one another

What a client has of a run depends on its own events and on the datagrams alone: for every run
there is one without the connections of all other clients, and every run with the same events of
the client and the same datagrams gives this client the same.
-/

namespace Broker.Server
open Broker.Base Broker.Net Broker.Topic

/-- What a client has of one of its events: whether it is connected by it, its topics then, and
everything written to each of its connections until then. -/
structure Observation where
  event : ClientEvent
  accepted : Bool
  topics : Finset Bytes
  written : List (List Emission)

/-- What is observed of the client's view before and after an event. -/
def observe (sight : Sight View ClientEvent) : Observation where
  event := sight.label
  accepted := sight.before.current.isNone && sight.after.current.isSome
  topics := sight.after.topics
  written := sight.after.connections.map Socket.log

/-- The events of a client along a run: its connections, the readings from them, and all
datagrams. What the code does not determine of an event, such as the memory behind a request, is
part of it. -/
def clientEvents (udpfd listenfd : Fd) (id : Bytes) (events : List Event) : List ClientEvent :=
  labels State.step (fun s event ↦ s.clientEvent id event) (State.initial udpfd listenfd) events

/-- What a client observes along a run. -/
def observations (udpfd listenfd : Fd) (id : Bytes) (events : List Event) : List Observation :=
  (sights State.step (fun s event ↦ s.clientEvent id event) (fun s ↦ s.view id)
    (State.initial udpfd listenfd) events).map observe

/-- A run of the server in which sends succeed. -/
abbrev SucceedingRun (udpfd listenfd : Fd) (events : List Event) (s : State) : Prop :=
  Runs State.step (fun s _ ↦ s.kernel.SendsSucceed) (State.initial udpfd listenfd) events s

/-- The events of all other clients have been erased, those of the client and the datagrams are
kept in their order. -/
def Erasure (udpfd listenfd : Fd) (id : Bytes) (events events' : List Event) : Prop :=
  (∀ event ∈ events', ¬ event.Foreign id) ∧
    clientEvents udpfd listenfd id events' = clientEvents udpfd listenfd id events

private theorem observations_eq_replay {udpfd listenfd : Fd} {events : List Event} {s : State}
    (hr : SucceedingRun udpfd listenfd events s) (id : Bytes) :
    let told := clientEvents udpfd listenfd id events
    observations udpfd listenfd id events =
        (replay (View.advance id) .initial told).map observe ∧
      s.view id = told.foldl (View.advance id) .initial := by
  have hinv (s : State) (event : Event) (t : State) (h : Sessions s)
      (hs : s.step event = some t) : Sessions t := h.step hs
  have hview (s : State) (event : Event) (t : State) (h : Sessions s)
      (hsend : s.kernel.SendsSucceed) (hs : s.step event = some t) :
      t.view id = (s.clientEvent id event).elim (s.view id) ((s.view id).advance id) :=
    h.view_of_succeed hsend hs id
  obtain ⟨hsights, hend⟩ := sights_eq_replay hinv hview hr (Sessions.initial udpfd listenfd)
  rw [State.view_initial] at hsights hend
  exact ⟨congrArg (List.map observe) hsights, hend⟩

/-- Clients are isolated from one another. Of every run in which sends succeed the events of all
clients but one can be erased; and whatever other clients do in a run with the same events of
this client and the same datagrams, its attempts to connect are accepted or rejected alike, it
has the same topics at every corresponding point and in the end, and the same frames are written
to its connections, byte for byte. -/
theorem isolated {udpfd listenfd : Fd} {events : List Event} {s : State}
    (hr : SucceedingRun udpfd listenfd events s) (id : Bytes) :
    (∃ events' s', SucceedingRun udpfd listenfd events' s' ∧
      Erasure udpfd listenfd id events events') ∧
    ∀ events' s', SucceedingRun udpfd listenfd events' s' →
      clientEvents udpfd listenfd id events' = clientEvents udpfd listenfd id events →
        observations udpfd listenfd id events' = observations udpfd listenfd id events ∧
          s'.view id = s.view id := by
  constructor
  · have hsim (s s' : State) (event : Event) (t : State) (h : Alone id s s')
        (hsend : s.kernel.SendsSucceed) (hs : s.step event = some t) :
        Simulated id s s' event t := h.simulated hsend hs
    unfold Simulated at hsim
    obtain ⟨events', s', hr', hgood, -, hlabels⟩ :=
      exists_runs_of_simulation hsim hr (Alone.initial udpfd listenfd id)
    exact ⟨events', s', hr', hgood, hlabels⟩
  · intro events' s' hr' he
    obtain ⟨hseen, hend⟩ := observations_eq_replay hr id
    obtain ⟨hseen', hend'⟩ := observations_eq_replay hr' id
    rw [he] at hseen' hend'
    exact ⟨hseen'.trans hseen.symm, hend'.trans hend.symm⟩

/-- Two clients hold the same topic, a second connection presents the id of one of them, and a
datagram for the topic arrives. -/
def twoClientsRun : List Event :=
  joinRound 4 5 0 (simpleClient 66 [simpleRequest 0 [97]] []) ++
    joinRound 4 6 1 (simpleClient 65 [simpleRequest 0 [97]] []) ++
    joinRound 4 7 1 (simpleClient 65 [] []) ++
    visitRound 5 0 ++ [.client [], .client [], .proceed, .proceed] ++
    visitRound 6 1 ++ [.client [], .client [], .proceed] ++
    [.poll (· == 3), .proceed, .datagram simpleDatagram zeroBuffer [[66], [65]]]

/-- Without the other client, the first attempt to connect is accepted, the second one is
rejected, and the acknowledgement and the message are written as before. -/
theorem isolated_twoClientsRun : ∃ s events' s', SucceedingRun 3 4 twoClientsRun s ∧
    s.clientName 5 = some [66] ∧ SucceedingRun 3 4 events' s' ∧
    Erasure 3 4 [65] twoClientsRun events' ∧
    observations 3 4 [65] events' = observations 3 4 [65] twoClientsRun ∧
    (observations 3 4 [65] events').map (fun seen ↦
      (seen.accepted, seen.written.flatten.length)) =
        [(true, 0), (false, 0), (false, 1), (false, 1), (false, 2)] := by
  have hrun : (exec (guarded (fun s _ ↦ decide (∀ entry ∈ s.kernel.sockets,
      entry.2.answers = [])) State.step) (State.initial 3 4) twoClientsRun).any (fun s ↦
        decide (s.clientName 5 = some [66])) = true := by decide +kernel
  obtain ⟨s, hs, hname⟩ := exists_exec hrun
  have hr : SucceedingRun 3 4 twoClientsRun s := runs_of_guarded
    (fun _ _ ht ↦ Kernel.sendsSucceed_of_answers (of_decide_eq_true ht)) hs
  obtain ⟨⟨events', s', hr', herased⟩, halike⟩ := isolated hr [65]
  have hsame := (halike events' s' hr' herased.2).1
  refine ⟨s, events', s', hr, hname, hr', herased, hsame, ?_⟩
  rw [hsame]
  decide +kernel

end Broker.Server
