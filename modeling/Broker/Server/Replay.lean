import Broker.Base.Abstraction
import Broker.Server.Acknowledgements

/-!
# What requests make of a client

The server holds two records of a client's subscriptions and answers its requests. Both records
and the answers are those of a machine that is given the requests of the client alone, one after
the other, over all its connections: nothing else that happens leaves a trace in them.
-/

namespace Broker.Server
open Broker.Base Broker.Net Broker.Topic

/-- What is recorded for a client. -/
@[ext]
structure Held where
  topics : Finset Bytes
  patterns : Set (List Level)

namespace Held

/-- Nothing is recorded. -/
def nothing : Held := ⟨∅, ∅⟩

/-- The change a request asks for whose topic ends inside its field. -/
def change (held : Held) (request : SubcribeRequest) : Option Change :=
  requestedChange request [] held.topics

/-- What is recorded once a request has been handled. -/
def handle (held : Held) (request : SubcribeRequest) : Held :=
  match held.change request with
  | none => held
  | some change => ⟨change.onTopics held.topics, change.onPatterns held.patterns⟩

/-- The answer to a request: one for a change, and none otherwise. -/
def answer (held : Held) (request : SubcribeRequest) : List Frame :=
  ((held.change request).map (Change.reply request)).toList

end Held

/-- The acknowledgement an emission is. -/
def answerOf (emission : Emission) : Option Frame :=
  match emission.frame with
  | .subscribeAck request => some (.subscribeAck request)
  | .message _ => none

/-- The change that is asked for is the same whatever lies behind a topic that ends inside its
field. -/
theorem requestedChange_of_terminated {request : SubcribeRequest} (ht : TopicTerminated request)
    (stack : Bytes) (topics : Finset Bytes) :
    requestedChange request stack topics = requestedChange request [] topics := by
  by_cases ho : request.operation = operationSubscribe ∨ request.operation = operationUnsubscribe
  · rw [requestedChange, requestedChange, readCString_of_terminated (ht ho),
      readCString_of_terminated (ht ho)]
  · have hnone (stack : Bytes) : requestedChange request stack topics = none := by
      apply requestedChange_eq_none
      intro change hc
      cases change with
      | subscribe topic => exact ho (.inl hc.1)
      | unsubscribe topic => exact ho (.inr hc.1)
    rw [hnone, hnone]

namespace View

/-- What is recorded for the client. -/
def held (v : View) : Held := ⟨v.topics, v.patterns⟩

/-- The acknowledgements that have been written to the client, or begun. -/
def answers (v : View) : List Frame := v.emissions.filterMap answerOf

/-- The records and the answers are those of the machine on the requests of the client. -/
structure Replayed (v : View) : Prop where
  held : v.held = v.requests.foldl Held.handle .nothing
  answers : v.answers = outputs Held.handle Held.answer .nothing v.requests

variable {v w : View} {id : Bytes} {sock : Socket}

private theorem Replayed.initial : View.initial.Replayed := ⟨rfl, rfl⟩

private theorem Replayed.keep (h : v.Replayed) (hheld : w.held = v.held)
    (hr : w.requests = v.requests) (ha : w.answers = v.answers) : w.Replayed :=
  ⟨hheld.trans (hr ▸ h.held), ha.trans (hr ▸ h.answers)⟩

private theorem Replayed.handle (h : v.Replayed) (request : SubcribeRequest)
    (hheld : w.held = v.held.handle request) (hr : w.requests = v.requests ++ [request])
    (ha : w.answers = v.answers ++ v.held.answer request) : w.Replayed := by
  constructor
  · rw [hheld, hr, List.foldl_append, ← h.held]
    rfl
  · rw [ha, hr, outputs_append, h.answers, ← h.held]
    simp [outputs]

private theorem answers_sendFrame (sock : Socket) (client : Bytes) (frame : Frame) :
    (sock.sendFrame client frame).1.log.filterMap answerOf =
      sock.log.filterMap answerOf ++ (answerOf ⟨client, frame, []⟩).toList := by
  obtain ⟨written, answers, hw⟩ := sock.sendFrame_eq_record client frame
  rw [hw, Socket.record_log, List.filterMap_append]
  cases frame <;> rfl

/-- The answers of a client are those of its connections in turn. -/
theorem answers_eq (v : View) : v.answers = v.gather fun sock ↦ sock.log.filterMap answerOf := by
  rw [View.answers, View.emissions, View.gather, View.gather, List.filterMap_flatMap]

private theorem read_cases (v : View) (id : Bytes) (sock : Socket) (stack : Bytes) :
    (∃ bytes inbox, ∃ hl : bytes.length = sizeofSubcribeRequest,
      recv sizeofSubcribeRequest sock.inbox = (.received bytes, inbox) ∧
      v.read id sock stack =
        v.process id ((sock.consume inbox).execute (.decode bytes hl)) (.decode bytes hl) stack) ∨
    ∃ inbox, v.read id sock stack = { v with current := some (sock.consume inbox) } ∨
      v.read id sock stack = v.leave (sock.consume inbox) := by
  rcases hrecv : recv sizeofSubcribeRequest sock.inbox with ⟨result, inbox⟩
  rw [View.read, hrecv]
  cases result with
  | received bytes =>
    dsimp only
    split
    · next hl => exact .inl ⟨bytes, inbox, hl, rfl, rfl⟩
    · split
      · exact .inr ⟨inbox, .inr rfl⟩
      · exact .inr ⟨inbox, .inl rfl⟩
  | error errno =>
    dsimp only
    split
    · exact .inr ⟨inbox, .inr rfl⟩
    · exact .inr ⟨inbox, .inl rfl⟩

private theorem Replayed.process (h : v.Replayed) (hc : v.current = some sock)
    (inbox : List Arrival)
    {request : SubcribeRequest} (ht : TopicTerminated request) (id stack : Bytes) :
    (v.process id ((sock.consume inbox).execute request) request stack).Replayed := by
  have hchange := requestedChange_of_terminated ht stack v.topics
  cases hr : v.held.change request with
  | none =>
    have hw : v.process id ((sock.consume inbox).execute request) request stack =
        { v with current := some ((sock.consume inbox).execute request) } := by
      rw [View.process, hchange, show requestedChange request [] v.topics = none from hr]
    rw [hw]
    refine h.handle request ?_ (gather_current hc rfl _ _) ?_
    · rw [Held.handle, hr]
      rfl
    · rw [Held.answer, hr, Option.map_none, Option.toList_none, List.append_nil, answers_eq,
        answers_eq]
      refine gather_keep hc ?_ _ _
      rfl
  | some change =>
    have hw : v.process id ((sock.consume inbox).execute request) request stack = { v with
        topics := change.onTopics v.topics
        patterns := change.onPatterns v.patterns
        current := some (((sock.consume inbox).execute request).sendFrame id
          (change.reply request)).1 } := by
      rw [View.process, hchange, show requestedChange request [] v.topics = some change from hr]
    rw [hw]
    refine h.handle request ?_ (gather_current hc ?_ _ _) ?_
    · rw [Held.handle, hr]
      rfl
    · exact executed_sendFrame _ _ _
    · rw [Held.answer, hr, Option.map_some, Option.toList_some, answers_eq, answers_eq]
      refine gather_current hc ((answers_sendFrame _ _ _).trans ?_) _ _
      cases change <;> rfl

/-- Whatever happens to a client, its records and answers go on to be those of the machine. -/
theorem Replayed.advance (h : v.Replayed) {event : ClientEvent} (ht : v.Terminates event) :
    (v.advance id event).Replayed := by
  cases event with
  | connect connection =>
    rw [View.advance, View.accept]
    split
    · next hc _ =>
      refine h.keep rfl (gather_accept hc rfl) ?_
      rw [answers_eq, answers_eq]
      exact gather_accept hc rfl
    · exact h
  | datagram datagram stale =>
    rw [View.advance, View.forward]
    split
    · cases hc : v.current with
      | none =>
        have hv : { v with current := none } = v := View.ext rfl rfl hc.symm rfl
        rw [Option.map_none, hv]
        exact h
      | some sock =>
        refine h.keep rfl (gather_keep hc (executed_sendFrame _ _ _) _ _) ?_
        rw [answers_eq, answers_eq]
        exact gather_keep hc ((answers_sendFrame _ _ _).trans (List.append_nil _)) _ _
    · exact h
  | read stack =>
    cases hc : v.current with
    | none =>
      rw [View.advance, hc]
      exact h
    | some sock =>
      rw [View.advance, hc, Option.map_some, Option.getD_some]
      obtain ⟨bytes, inbox, hl, hrecv, hw⟩ | ⟨inbox, hw | hw⟩ := v.read_cases id sock stack
      · rw [hw]
        exact h.process hc inbox (ht stack sock bytes inbox hl rfl hc hrecv) id stack
      · rw [hw]
        refine h.keep rfl (gather_keep hc (Socket.consume_executed _ _) _ _) ?_
        rw [answers_eq, answers_eq]
        exact gather_keep hc (congrArg (List.filterMap answerOf) (Socket.consume_log _ _)) _ _
      · rw [hw]
        refine h.keep rfl (gather_leave hc (Socket.consume_executed _ _)) ?_
        rw [answers_eq, answers_eq]
        exact gather_leave hc (congrArg (List.filterMap answerOf) (Socket.consume_log _ _))

end View

/-- Every step of the server goes on as the machine does for every client. -/
theorem Sessions.replayed_step {s t : State} (h : Sessions s)
    (hv : ∀ id, (s.view id).Replayed) {event : Event} (ht : s.Terminates event)
    (hs : s.step event = some t) (id : Bytes) : (t.view id).Replayed := by
  obtain he | ⟨-, he⟩ := h.view_step hs id
  · rw [he]
    cases hc : s.clientEvent id event with
    | none => exact hv id
    | some clientEvent => exact (hv id).advance (h.terminates_view hs ht hc)
  · exact he ▸ hv id

/-- In every run whose requests hold a NUL in their topic field the records and answers of every
client are those of the machine. -/
theorem replayed_of_reaches {udpfd listenfd : Fd} {s : State}
    (h : Reaches State.step (fun s event ↦ s.Terminates event) (State.initial udpfd listenfd) s)
    (id : Bytes) : (s.view id).Replayed := by
  have hs : Sessions s ∧ ∀ id, (s.view id).Replayed :=
    h.invariant (P := fun s ↦ Sessions s ∧ ∀ id, (s.view id).Replayed)
      ⟨Sessions.initial _ _, fun id ↦ by
        rw [State.view_initial]
        exact .initial⟩
      fun _ _ _ hs ht hstep ↦ ⟨hs.1.step hstep, hs.1.replayed_step hs.2 ht hstep⟩
  exact hs.2 id

/-- What the server holds of a client is what its requests make of it. In every run whose
requests hold a NUL in their topic field, whatever else happens, failing sends included, the
topics recorded for a client and the patterns it is found for are those of the requests executed
from its connections, handled one after the other; and it has been written the answers to these
requests, one for each that changed something, in their order, and no others. -/
theorem replayed {udpfd listenfd : Fd} {s : State}
    (h : Reaches State.step (fun s event ↦ s.Terminates event) (State.initial udpfd listenfd) s)
    (id : Bytes) :
    let requests := (s.view id).requests
    (s.topics id = (requests.foldl Held.handle .nothing).topics ∧
      ∀ path, s.trie.Holds path id ↔ path ∈ (requests.foldl Held.handle .nothing).patterns) ∧
    (s.view id).emissions.filterMap answerOf =
      outputs Held.handle Held.answer .nothing requests := by
  obtain ⟨hheld, hanswers⟩ := replayed_of_reaches h id
  refine ⟨⟨congrArg Held.topics hheld, fun path ↦ ?_⟩, hanswers⟩
  exact Set.ext_iff.mp (congrArg Held.patterns hheld) path

/-- A client subscribes to `a` twice, leaves, comes back and gives `a` up. -/
def twiceRun : List Event :=
  joinRound 4 5 0 (simpleClient 65 [simpleRequest 0 [97], simpleRequest 0 [97], .fin] []) ++
    visitRound 5 0 ++ [.client [], .client [], .client [], .proceed] ++
    joinRound 4 6 0 (simpleClient 65 [simpleRequest 1 [97]] []) ++ visitRound 6 0 ++ [.client []]

/-- Three requests and two answers. -/
theorem replayed_twiceRun : ∃ s : State, (s.view [65]).requests.length = 3 ∧
    ((s.view [65]).emissions.filterMap answerOf).length = 2 ∧
    s.topics [65] = ((s.view [65]).requests.foldl Held.handle .nothing).topics := by
  have hrun : (exec (guarded (fun s _ ↦ s.allTerminated) State.step) (State.initial 3 4)
      twiceRun).any (fun s ↦ decide ((s.view [65]).requests.length = 3 ∧
        ((s.view [65]).emissions.filterMap answerOf).length = 2)) = true := by decide +kernel
  obtain ⟨s, hs, hrequests, hanswers⟩ := exists_exec hrun
  have hr := reaches_of_guarded (fun s event ht ↦ s.terminates_of_allTerminated ht event) .refl hs
  exact ⟨s, hrequests, hanswers, (replayed hr [65]).1.1⟩

end Broker.Server
