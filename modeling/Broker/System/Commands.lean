import Broker.Server.Names
import Broker.Server.Replay
import Broker.Server.Requests
import Broker.System.Delivery

/-!
# From a typed line to the records of the server

Subscribers at the other ends of the connections of a client, and what is typed at them. What
the server holds for the client at the end, and what it has answered, is what the lines ask for,
line after line, over all the connections.
-/

namespace Broker.System
open Broker.Base Broker.Net Broker.Topic Broker.Server Broker.Subscriber

/-! ### What requests ask for -/

/-- What a request asks for about a topic: one of the two operations, or nothing. -/
def requestAsks (topic : Bytes) (request : SubcribeRequest) : Option UInt8 :=
  if cString request.topic = topic ∧
      (request.operation = operationSubscribe ∨ request.operation = operationUnsubscribe)
    then some request.operation else none

/-- What a line asks for about a topic: the operation of its first word, where its second word,
as far as it fits into the field, is the topic. -/
def lineAsks (topic line : Bytes) : Option UInt8 :=
  match lineWords line with
  | word :: token :: _ => if token.take maxTopicLength = topic then operationOf word else none
  | _ => none

/-- The request of a line holds a NUL in its field, and asks for what the line asks for. -/
theorem asks_of_lineRequest {line : Bytes} {request : SubcribeRequest}
    (h : lineRequest line = some request) (topic : Bytes) :
    TopicTerminated request ∧ requestAsks topic request = lineAsks topic line := by
  unfold lineRequest at h
  split at h
  · next word token more hw =>
    obtain ⟨operation, ho, rfl⟩ := Option.map_eq_some_iff.mp h
    have hm : token ∈ commandWords (cString (line ++ [0])) := by
      rw [show commandWords (cString (line ++ [0])) = word :: token :: more from hw]
      exact List.mem_cons_of_mem word List.mem_cons_self
    have hz : (0 : UInt8) ∈ (prepareRequest operation token).topic :=
      List.mem_append_right _ List.mem_cons_self
    have hread := readCString_prepareRequest (zero_notMem_word hm) operation []
    rw [readCString_of_terminated hz] at hread
    refine ⟨fun _ ↦ hz, ?_⟩
    have hop : operation = operationSubscribe ∨ operation = operationUnsubscribe := by
      unfold operationOf at ho
      split at ho
      · exact .inl (Option.some.inj ho).symm
      · split at ho
        · exact .inr (Option.some.inj ho).symm
        · cases ho
    rw [requestAsks, Option.some.inj hread, lineAsks, hw]
    dsimp only
    rw [ho]
    by_cases ht : token.take maxTopicLength = topic
    · rw [if_pos ht, if_pos ⟨ht, hop⟩]
      rfl
    · rw [if_neg ht, if_neg fun hc ↦ ht hc.1]
  · cases h

private theorem lineAsks_of_none {line : Bytes} (h : lineRequest line = none) (topic : Bytes) :
    lineAsks topic line = none := by
  unfold lineRequest at h
  unfold lineAsks
  cases hw : lineWords line with
  | nil => rfl
  | cons word more =>
    cases more with
    | nil => rfl
    | cons token more =>
      rw [hw] at h
      dsimp only
      rw [Option.map_eq_none_iff.mp h]
      split <;> rfl

private theorem filterMap_lineAsks (topic : Bytes) (lines : List Bytes) :
    (lines.filterMap lineRequest).filterMap (requestAsks topic) =
      lines.filterMap (lineAsks topic) := by
  rw [List.filterMap_filterMap]
  congr 1
  funext line
  cases h : lineRequest line with
  | none => exact (lineAsks_of_none h topic).symm
  | some request => exact (asks_of_lineRequest h topic).2

/-- Handling a request makes the topic recorded, or not, where it asks for it, and leaves it as
it is otherwise. -/
theorem mem_handle {held : Held} {request : SubcribeRequest} (ht : TopicTerminated request)
    (topic : Bytes) :
    topic ∈ (held.handle request).topics ↔
      (requestAsks topic request).elim (topic ∈ held.topics) (· = operationSubscribe) := by
  have hdiff : operationUnsubscribe ≠ operationSubscribe := by decide
  unfold Held.handle Held.change requestedChange requestAsks
  by_cases hs : request.operation = operationSubscribe
  · rw [readCString_of_terminated (ht (.inl hs)), Option.bind_some, if_pos hs]
    by_cases hm : cString request.topic ∈ held.topics
    · simp only [hm, ↓reduceIte, hs, true_or, and_true]
      split
      · next he => exact iff_of_true (he ▸ hm) rfl
      · rfl
    · simp only [hm, ↓reduceIte, hs, true_or, and_true, Change.onTopics, Finset.mem_insert]
      split
      · next he => exact iff_of_true (.inl he.symm) rfl
      · next he => exact or_iff_right fun h ↦ he h.symm
  · by_cases hu : request.operation = operationUnsubscribe
    · rw [readCString_of_terminated (ht (.inr hu)), Option.bind_some, if_neg hs, if_pos hu]
      by_cases hm : cString request.topic ∈ held.topics
      · simp only [hm, ↓reduceIte, hu, or_true, and_true, Change.onTopics, Finset.mem_erase]
        split
        · next he => exact iff_of_false (fun h ↦ h.1 he.symm) hdiff
        · next he => exact and_iff_right fun h ↦ he h.symm
      · simp only [hm, ↓reduceIte, hu, or_true, and_true]
        split
        · next he => exact iff_of_false (he ▸ hm) hdiff
        · rfl
    · simp only [hs, hu, ↓reduceIte, Option.bind_fun_none, or_self, and_false, Option.elim_none]

/-- A topic is recorded exactly when the last request about it asks for that. -/
theorem mem_foldl_handle {requests : List SubcribeRequest}
    (ht : ∀ request ∈ requests, TopicTerminated request) (topic : Bytes) :
    topic ∈ (requests.foldl Held.handle .nothing).topics ↔
      (requests.filterMap (requestAsks topic)).getLast? = some operationSubscribe := by
  induction requests using List.reverseRecOn with
  | nil => exact iff_of_false (Finset.notMem_empty topic) (by simp)
  | append_singleton requests request ih =>
    have hrest := ih fun other hm ↦ ht other (List.mem_append_left _ hm)
    have hlast := ht request (List.mem_append_right _ List.mem_cons_self)
    rw [List.foldl_append, List.foldl_cons, List.foldl_nil, mem_handle hlast, List.filterMap_append]
    cases ha : requestAsks topic request with
    | none => simpa [ha] using hrest
    | some operation => simp [ha]

/-! ### The two ends of a connection -/

/-- What a subscriber sends arrives at its connection: every send succeeds, the stream behind
the id is what it has written, it arrives in pieces of whole requests, and it has been read to
its end. -/
structure Typed (s : State) (sock : Socket) (peer : Peer) : Prop where
  reliable : Reliable peer.answers
  sent : payload sock.session = peer.loop.written
  orderly : Orderly sock.session
  aligned : Aligned sizeofSubcribeRequest sock.session
  readOut : s.ReadOut sock

private theorem executed_of_readOut {udpfd listenfd : Fd} {s : State}
    (h : Reachable udpfd listenfd s) {sock : Socket} (hr : s.ReadOut sock) : Executed sock := by
  have hk := Sessions.executing_of_reaches h
  obtain ⟨fd, hf, hi⟩ | hm := hr
  · have he := hk.1 fd sock hf
    rwa [Executing, requestBlocks, drain_of_payload hi, List.append_nil] at he
  · exact hk.2 sock hm

private theorem Typed.executed {udpfd listenfd : Fd} {s : State} (h : Reachable udpfd listenfd s)
    {sock : Socket} {peer : Peer} (ht : Typed s sock peer) :
    sock.executed = peer.loop.requests := by
  have hsent := ((MainLoop.session_of_reaches peer.run).sent ht.reliable).2.2
  have hl : ∀ part ∈ peer.loop.requests.map SubcribeRequest.encode,
      part.length = sizeofSubcribeRequest := by
    intro part hm
    obtain ⟨request, -, rfl⟩ := List.mem_map.mp hm
    exact request.length_encode
  have hblocks : requestBlocks sock.session = peer.loop.requests.map SubcribeRequest.encode :=
    (drain_eq_iff (by decide) ht.orderly hl (ht.sent.trans hsent)).mpr ht.aligned
  have he : Executed sock := executed_of_readOut h ht.readOut
  rw [Executed, hblocks] at he
  exact List.map_injective_iff.mpr SubcribeRequest.encode_injective he

/-- The requests of a client are those of the lines typed at its subscribers. -/
theorem requests_of_typed {udpfd listenfd : Fd} {s : State} (h : Reachable udpfd listenfd s)
    {id : Bytes} {peers : List Peer}
    (hpeers : List.Forall₂ (Typed s) (s.view id).connections peers) :
    (s.view id).requests = peers.flatMap fun peer ↦ peer.loop.requests := by
  rw [View.requests, View.gather]
  generalize (s.view id).connections = socks at hpeers
  induction hpeers with
  | nil => rfl
  | cons ht _ ih => rw [List.flatMap_cons, List.flatMap_cons, ht.executed h, ih]

/-! ### A client that comes back -/

/-- The line for the request a connection of `comeBackRun` begins with. -/
def ownLine (sock : Socket) : Bytes :=
  (if (payload sock.session).head? = some operationSubscribe then subscribeWord
    else unsubscribeWord) ++ [32, 97, 10]

/-- The line is typed and executed, and everything is received. -/
def askAndRead (sock : Socket) : List LoopEvent :=
  [.typed (ownLine sock), .poll true false, .proceed, .proceed] ++
    readRounds (sock.log.length + 1)

private theorem readOut_of_connections {s : State} {id : Bytes}
    (h : (s.view id).current.all (fun sock ↦ (payload sock.inbox).isEmpty) = true) {sock : Socket}
    (hm : sock ∈ (s.view id).connections) : s.ReadOut sock := by
  obtain hm | hm := List.mem_append.mp hm
  · exact .inr (List.mem_of_mem_filter hm)
  · have hcurrent : s.current id = some sock := Option.mem_toList.mp hm
    have hinbox := Option.all_eq_true _ _ |>.mp h sock hcurrent
    obtain ⟨data, -, hsock⟩ := Option.bind_eq_some_iff.mp hcurrent
    obtain ⟨-, hsock⟩ := Option.ite_none_right_eq_some.mp hsock
    exact .inl ⟨data.sockfd, hsock, List.isEmpty_iff.mp hinbox⟩

private theorem exists_peers_comeBackRun : ∃ (s : State) (peers : List Peer),
    Runs State.step (fun s event ↦ s.kernel.SendsSucceed ∧ s.Terminates event)
      (State.initial 3 4) comeBackRun s ∧
    List.Forall₂ (Typed s) (s.view [65]).connections peers ∧
    List.Forall₂ (fun sock peer ↦ payload peer.wire = sock.output ∧ peer.Done)
      (s.view [65]).connections peers ∧ peers.length = 2 := by
  have hrun : (exec (guarded (fun s _ ↦ s.calm) State.step) (State.initial 3 4) comeBackRun).any
      (fun s ↦ decide ((s.view [65]).connections.length = 2 ∧
        (s.view [65]).current.all (fun sock ↦ (payload sock.inbox).isEmpty) = true ∧
        ∀ sock ∈ (s.view [65]).connections,
          (sock.session = [simpleRequest 0 [97], .fin] ∨
            sock.session = [simpleRequest 1 [97]]) ∧
          (exec MainLoop.step (.initial (closedWire sock) []) (askAndRead sock)).any (fun t ↦
            t.place = .exited ∧ t.packets.any Packet.stops = true ∧
              payload sock.session = t.written) = true)) =
      true := by decide +kernel
  obtain ⟨s, hs, hlength, hcurrent, hsocks⟩ := exists_exec hrun
  have hpeer : ∀ sock ∈ (s.view [65]).connections, ∃ peer : Peer,
      Typed s sock peer ∧ payload peer.wire = sock.output ∧ peer.Done := by
    intro sock hm
    obtain ⟨hsession, hread⟩ := hsocks sock hm
    obtain ⟨t, ht, hread⟩ := (Option.any_eq_true _ _).mp hread
    obtain ⟨hplace, hstops, hsent⟩ := of_decide_eq_true hread
    refine ⟨⟨closedWire sock, [], t, reaches_of_exec ht⟩, ?_,
      (payload_pushFront _ _).trans (List.append_nil _), Peer.done_of_exited hplace hstops⟩
    · refine ⟨reliable_nil, hsent, ?_, ?_, readOut_of_connections hcurrent hm⟩
      · obtain he | he := hsession
        · rw [he]
          exact rfl
        · rw [he]
          exact trivial
      · obtain he | he := hsession
        · rw [he]
          exact ⟨by decide, trivial⟩
        · rw [he]
          exact ⟨by decide, trivial⟩
  obtain ⟨peers, hpeers⟩ := exists_forall₂ hpeer
  have hr : Runs State.step (fun s event ↦ s.kernel.SendsSucceed ∧ s.Terminates event)
      (State.initial 3 4) comeBackRun s :=
    runs_of_guarded (fun s event ht ↦ s.succeeds_of_calm ht event) hs
  exact ⟨s, peers, hr, hpeers.imp fun _ _ h ↦ h.1, hpeers.imp fun _ _ h ↦ h.2,
    hpeers.length_eq ▸ hlength⟩

/-! ### What was typed -/

/-- The last line decides. In every run whose requests hold a NUL in their topic field, whatever
else happens, let a subscriber sit at the other end of each connection of a client, whose
requests arrive whole and have all been read. Then a topic is recorded for the client exactly
when the last line about it, of all the lines executed at its subscribers one after the other,
is a subscription. -/
theorem recorded_as_typed {udpfd listenfd : Fd} {s : State}
    (h : Reaches State.step (fun s event ↦ s.Terminates event) (State.initial udpfd listenfd) s)
    (id : Bytes) {peers : List Peer}
    (hpeers : List.Forall₂ (Typed s) (s.view id).connections peers) (topic : Bytes) :
    topic ∈ s.topics id ↔
      ((peers.flatMap fun peer ↦ peer.loop.executed).filterMap (lineAsks topic)).getLast? =
        some operationSubscribe := by
  have hreachable : Reachable udpfd listenfd s :=
    h.invariant (P := Reachable udpfd listenfd) .refl fun _ _ _ hs _ ht ↦ hs.snoc trivial ht
  have hrequests := requests_of_typed hreachable hpeers
  have hlines : (peers.flatMap fun peer ↦ peer.loop.requests) =
      (peers.flatMap fun peer ↦ peer.loop.executed).filterMap lineRequest := by
    rw [List.filterMap_flatMap]
    rfl
  rw [hlines] at hrequests
  have hterminated : ∀ request ∈ (s.view id).requests, TopicTerminated request := by
    intro request hm
    rw [hrequests] at hm
    obtain ⟨line, -, hl⟩ := List.mem_filterMap.mp hm
    exact (asks_of_lineRequest hl topic).1
  have hheld : s.topics id = ((s.view id).requests.foldl Held.handle .nothing).topics :=
    congrArg Held.topics (replayed_of_reaches h id).held
  rw [hheld, mem_foldl_handle hterminated, hrequests, filterMap_lineAsks]

/-- The client has subscribed to `a` and given it up. -/
theorem recorded_as_typed_comeBack : ∃ (s : State) (peers : List Peer), peers.length = 2 ∧
    List.Forall₂ (Typed s) (s.view [65]).connections peers ∧
    ([97] ∈ s.topics [65] ↔
      ((peers.flatMap fun peer ↦ peer.loop.executed).filterMap (lineAsks [97])).getLast? =
        some operationSubscribe) := by
  obtain ⟨s, peers, hr, htyped, -, hlength⟩ := exists_peers_comeBackRun
  have hterminates := (hr.mono fun _ _ ha ↦ ha.2).reaches .refl
  exact ⟨s, peers, hlength, htyped, recorded_as_typed hterminates [65] htyped [97]⟩

/-- The acknowledgement a frame is. -/
def answerFrame : Frame → Option Frame
  | .subscribeAck request => some (.subscribeAck request)
  | .message _ => none

/-- Every command is answered once. In a run in which sends succeed and whose requests hold a NUL
in their topic field, let a subscriber sit at the other end of each connection of a client, whose
requests arrive whole and which has received all that was written to it. Then the
acknowledgements the subscribers have been handed are the answers to the requests of their lines:
one for each that changed something, in their order, and no others. -/
theorem answered_as_typed {udpfd listenfd : Fd} {events : List Event} {s : State}
    (h : Runs State.step (fun s event ↦ s.kernel.SendsSucceed ∧ s.Terminates event)
      (State.initial udpfd listenfd) events s) (id : Bytes) {peers : List Peer}
    (htyped : List.Forall₂ (Typed s) (s.view id).connections peers)
    (hread : List.Forall₂ (fun sock peer ↦ payload peer.wire = sock.output ∧ peer.Done)
      (s.view id).connections peers) :
    (peers.flatMap fun peer ↦ peer.loop.handed).filterMap answerFrame =
      outputs Held.handle Held.answer .nothing (peers.flatMap fun peer ↦ peer.loop.requests) := by
  have hsucceeds : SucceedingRun udpfd listenfd events s := h.mono fun _ _ ha ↦ ha.1
  have hterminates := (h.mono fun _ _ ha ↦ ha.2).reaches .refl
  have hreachable := (h.mono fun _ _ _ ↦ trivial).reaches .refl
  obtain ⟨houtput, -⟩ := frames_of_run hsucceeds id
  have hfront : List.Forall₂ (fun (sock : Socket) (peer : Peer) ↦
      payload peer.wire <+: sock.output) (s.view id).connections peers :=
    hread.imp fun _ _ hp ↦ hp.1 ▸ List.prefix_rfl
  have hanswers : (s.view id).answers =
      outputs Held.handle Held.answer .nothing (s.view id).requests :=
    (replayed_of_reaches hterminates id).answers
  have hframes : ((s.view id).connections.flatMap frames).filterMap answerFrame =
      (s.view id).answers := by
    rw [View.answers_eq, View.gather, List.filterMap_flatMap]
    apply List.flatMap_congr
    intro sock _
    rw [frames, List.filterMap_map]
    congr 1
  rw [(handed_of_connections houtput hfront).2 hread, hframes, hanswers,
    requests_of_typed hreachable htyped]

/-- Both of its lines have been answered. -/
theorem answered_as_typed_comeBack : ∃ (s : State) (peers : List Peer), peers.length = 2 ∧
    List.Forall₂ (Typed s) (s.view [65]).connections peers ∧
    (peers.flatMap fun peer ↦ peer.loop.handed).filterMap answerFrame =
      outputs Held.handle Held.answer .nothing
        (peers.flatMap fun peer ↦ peer.loop.requests) := by
  obtain ⟨s, peers, hr, htyped, hread, hlength⟩ := exists_peers_comeBackRun
  exact ⟨s, peers, hlength, htyped, answered_as_typed hr [65] htyped hread⟩

end Broker.System
