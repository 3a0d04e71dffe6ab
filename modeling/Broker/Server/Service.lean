import Broker.Base.Service
import Broker.Server.Acknowledgements

/-!
# The server is a service

What the server is to all its clients at once: the service that publishing and subscribing is
about. The tables and the trie show who is there and who holds what; every step is one act of
the service or none; and where sends succeed, the connections of each client have been written
exactly what the service sends it.
-/

namespace Broker.Server
open Broker.Base Broker.Net Broker.Topic

/-- A pattern matches the levels of a topic. -/
abbrev MatchesTopic (path : List Level) (topic : Bytes) : Prop :=
  PatternMatches path (splitTopic topic)

/-- The act of a client whose request asks for a change. -/
def Change.act (id : Bytes) (request : SubcribeRequest) : Change → Act Bytes Bytes Frame
  | subscribe topic => .subscribe id topic (acknowledgement request operationAckSub)
  | unsubscribe topic => .unsubscribe id topic (acknowledgement request operationAckUnsub)

/-- The act of a client from which this is received: it asks for a change, or it has left. -/
def receivedAct (id : Bytes) (topics : Finset Bytes) (stack : Bytes) :
    RecvResult → Option (Act Bytes Bytes Frame)
  | .received bytes =>
    if h : bytes.length = sizeofSubcribeRequest then
      (requestedChange (.decode bytes h) stack topics).map fun change ↦
        change.act id (.decode bytes h)
    else if bytes = [] then some (.leave id) else none
  | .error errno => if errno ≠ .again ∧ errno ≠ .wouldBlock then some (.leave id) else none

/-- The act an event of a client is. -/
def View.act (id : Bytes) (v : View) : ClientEvent → Option (Act Bytes Bytes Frame)
  | .connect connection =>
    match v.current, recvall idLength connection.inbox with
    | none, some (.complete _, _) => some (.join id)
    | _, _ => none
  | .read stack => v.current.bind fun sock ↦
      receivedAct id v.topics stack (recv sizeofSubcribeRequest sock.inbox).1
  | .datagram datagram stale => some (.publish (topicStr (receivedMessage datagram stale))
      (.message (messageResponse datagram stale)))

/-- The act an event of the server is: a client connects, is read from, or a datagram is
published. -/
def State.act (s : State) : Event → Option (Act Bytes Bytes Frame)
  | .accept _ connection _ =>
    connection.presentedId.bind fun id ↦ (s.view id).act id (.connect connection)
  | .client stack => s.turn.bind fun id ↦ (s.view id).act id (.read stack)
  | .datagram datagram stale _ => some (.publish (topicStr (receivedMessage datagram stale))
      (.message (messageResponse datagram stale)))
  | _ => none

/-- Who is there and holds what, by the tables and the trie. -/
def State.service (s : State) : Service Bytes Bytes (List Level) where
  online := {id | s.Connected id}
  topics id := {topic | topic ∈ s.topics id}
  keys id := {path | s.trie.Holds path id}

/-- The acts of a run. -/
def acts (udpfd listenfd : Fd) (events : List Event) : List (Act Bytes Bytes Frame) :=
  labels State.step State.act (State.initial udpfd listenfd) events

/-! ### One client -/

/-- What has become of a client: whether it is there, what it holds, and what more has been
written to it if its sends succeed. -/
structure View.Becomes (id : Bytes) (v w : View) (online : Bool) (topics : Finset Bytes)
    (patterns : Set (List Level)) (frames : List Frame) : Prop where
  online : w.current.isSome = online
  topics : w.topics = topics
  patterns : w.patterns = patterns
  emissions : v.SendsSucceed →
    w.emissions = v.emissions ++ frames.map fun frame ↦ ⟨id, frame, frame.encode⟩

namespace View

variable {v : View} {id : Bytes} {sock : Socket}

private theorem Becomes.refl (id : Bytes) (v : View) :
    v.Becomes id v v.current.isSome v.topics v.patterns [] where
  online := rfl
  topics := rfl
  patterns := rfl
  emissions _ := (List.append_nil _).symm

/-- What is read from a client is no act, its leaving, or the change it asks for. -/
theorem becomes_read (hc : v.current = some sock) (id stack : Bytes) :
    let act := receivedAct id v.topics stack (recv sizeofSubcribeRequest sock.inbox).1
    let w := v.read id sock stack
    (act = none ∧ v.Becomes id w true v.topics v.patterns []) ∨
    (act = some (.leave id) ∧ v.Becomes id w false v.topics v.patterns []) ∨
    ∃ request, ∃ change : Change, change.Requested request stack v.topics ∧
      act = some (change.act id request) ∧
      v.Becomes id w true (change.onTopics v.topics) (change.onPatterns v.patterns)
        [change.reply request] := by
  intro act w
  have hconsume (inbox : List Arrival) :
      v.Becomes id { v with current := some (sock.consume inbox) } true v.topics v.patterns [] :=
    ⟨rfl, rfl, rfl, fun _ ↦ (gather_keep hc (Socket.consume_log _ _) _ _).trans
      (List.append_nil _).symm⟩
  have hleave (inbox : List Arrival) :
      v.Becomes id (v.leave (sock.consume inbox)) false v.topics v.patterns [] :=
    ⟨rfl, rfl, rfl, fun _ ↦ (gather_leave hc (Socket.consume_log _ _)).trans
      (List.append_nil _).symm⟩
  rcases hrecv : recv sizeofSubcribeRequest sock.inbox with ⟨result, inbox⟩
  have hact : act = receivedAct id v.topics stack result := by simp only [act, hrecv]
  have hw : w = v.read id sock stack := rfl
  rw [View.read, hrecv] at hw
  cases result with
  | received bytes =>
    dsimp only at hw
    by_cases hl : bytes.length = sizeofSubcribeRequest
    · rw [dif_pos hl, View.process] at hw
      rw [receivedAct, dif_pos hl] at hact
      let later := (sock.consume inbox).execute (.decode bytes hl)
      have hlog : later.log = sock.log := rfl
      cases hr : requestedChange (.decode bytes hl) stack v.topics with
      | none =>
        rw [hr] at hw hact
        rw [hw]
        exact .inl ⟨hact, rfl, rfl, rfl,
          fun _ ↦ (gather_keep hc hlog _ _).trans (List.append_nil _).symm⟩
      | some change =>
        rw [hr] at hw hact
        rw [hw]
        refine .inr (.inr ⟨.decode bytes hl, change, requestedChange_eq_some_iff.mp hr, hact,
          rfl, rfl, rfl, fun hs ↦ ?_⟩)
        have hreliable : Reliable later.answers := hs sock hc
        have hsend := log_sendFrame hreliable id (change.reply (.decode bytes hl))
        rw [hlog] at hsend
        exact gather_current hc hsend _ _
    · rw [dif_neg hl] at hw
      rw [receivedAct, dif_neg hl] at hact
      split at hw
      · next hb =>
        rw [if_pos hb] at hact
        rw [hw]
        exact .inr (.inl ⟨hact, hleave inbox⟩)
      · next hb =>
        rw [if_neg hb] at hact
        rw [hw]
        exact .inl ⟨hact, hconsume inbox⟩
  | error errno =>
    dsimp only at hw
    rw [receivedAct] at hact
    split at hw
    · next he =>
      rw [if_pos he] at hact
      rw [hw]
      exact .inr (.inl ⟨hact, hleave inbox⟩)
    · next he =>
      rw [if_neg he] at hact
      rw [hw]
      exact .inl ⟨hact, hconsume inbox⟩

/-- A connection makes a client come that is away, or is no act. -/
theorem becomes_accept (v : View) (id : Bytes) (connection : Connection) :
    (v.act id (.connect connection) = none ∧ v.accept id connection = v) ∨
    (v.current = none ∧ v.act id (.connect connection) = some (.join id) ∧
      v.Becomes id (v.accept id connection) true v.topics v.patterns []) := by
  cases hc : v.current with
  | some sock => exact .inl ⟨by simp only [View.act, hc], by simp only [View.accept, hc]⟩
  | none =>
    rcases hr : recvall idLength connection.inbox with _ | ⟨result, inbox⟩
    · exact .inl ⟨by simp only [View.act, hc, hr], by simp only [View.accept, hc, hr]⟩
    · cases result with
      | complete data =>
        refine .inr ⟨rfl, by simp only [View.act, hc, hr], ?_⟩
        simp only [View.accept, hc, hr]
        exact ⟨rfl, rfl, rfl, fun _ ↦
          (gather_accept hc (Socket.register_log _ _)).trans (List.append_nil _).symm⟩
      | _ => exact .inl ⟨by simp only [View.act, hc, hr], by simp only [View.accept, hc, hr]⟩

/-- A client that presents its id comes if it is away. -/
theorem act_connect {connection : Connection} (h : connection.presentedId = some id) (v : View) :
    v.act id (.connect connection) = if v.current.isSome then none else some (.join id) := by
  unfold Connection.presentedId at h
  split at h
  · next data inbox hr =>
    rw [View.act, hr]
    cases v.current <;> rfl
  · cases h

private theorem becomes_forward (v : View) (id topic : Bytes) (response : MessageWithHeader) :
    open Classical in
    v.Becomes id (v.forward id topic response) v.current.isSome v.topics v.patterns
      (if v.current.isSome ∧ ∃ path ∈ v.patterns, MatchesTopic path topic then
        [.message response] else []) := by
  unfold View.forward
  by_cases hm : ∃ path ∈ v.patterns, PatternMatches path (splitTopic topic)
  · rw [if_pos hm]
    cases hc : v.current with
    | none =>
      refine ⟨rfl, rfl, rfl, fun _ ↦ ?_⟩
      rw [if_neg (by simp)]
      simp [emissions, gather, connections, hc]
    | some sock =>
      refine ⟨rfl, rfl, rfl, fun hs ↦ ?_⟩
      rw [if_pos ⟨rfl, hm⟩]
      exact gather_current hc (log_sendFrame (hs sock hc) id (.message response)) _ _
  · rw [if_neg hm, if_neg fun h ↦ hm h.2]
    exact .refl id v

end View

/-! ### All clients -/

/-- What is received from the client that is read from is its act. -/
theorem Reading.act_eq {s : State} {i : Nat} {fd : Fd} {id : Bytes} {data : SubscriberData}
    {sock : Socket} (h : Reading s i fd id data sock) {stack : Bytes} {result : RecvResult}
    {inbox : List Arrival} (hrecv : recv sizeofSubcribeRequest sock.inbox = (result, inbox)) :
    s.act (.client stack) = receivedAct id data.topics stack result := by
  have hcurrent : (s.view id).current = some sock := (State.current_of_live h.live).trans h.socket
  have htopics : (s.view id).topics = data.topics := State.topics_of_subscriber h.subscriber
  rw [State.act, h.turn, Option.bind_some, View.act, hcurrent, Option.bind_some, hrecv, htopics]

namespace Sessions

variable {s t : State}

/-- A client is connected when it has a connection. -/
theorem isSome_current (h : Sessions s) (id : Bytes) :
    (s.current id).isSome = true ↔ s.Connected id := by
  constructor
  · intro hc
    by_contra hn
    rw [State.current_of_not_connected hn] at hc
    cases hc
  · rintro ⟨fd, hl⟩
    obtain ⟨sock, hs, -⟩ := h.serves.socket_of_name ((h.named _ _).mpr hl)
    rw [State.current_of_live hl, hs]
    rfl

private theorem service_congr (h : Sessions s) (h' : Sessions t)
    (hview : ∀ id, (t.view id).current.isSome = (s.view id).current.isSome ∧
      (t.view id).topics = (s.view id).topics ∧ (t.view id).patterns = (s.view id).patterns) :
    t.service = s.service := by
  apply Service.ext
  · ext id
    exact (h'.isSome_current id).symm.trans
      ((iff_of_eq (congrArg (· = true) (hview id).1)).trans (h.isSome_current id))
  · funext id
    exact congrArg (fun topics : Finset Bytes ↦ {topic | topic ∈ topics}) (hview id).2.1
  · funext id
    exact (hview id).2.2

private theorem service_of_becomes (h : Sessions s) (h' : Sessions t) {id : Bytes} {online : Bool}
    {topics : Finset Bytes} {patterns : Set (List Level)} {frames : List Frame}
    (hother : ∀ other, id ≠ other → t.view other = s.view other)
    (hb : (s.view id).Becomes id (t.view id) online topics patterns frames) :
    t.service = ⟨if online then insert id s.service.online else s.service.online \ {id},
      Function.update s.service.topics id {topic | topic ∈ topics},
      Function.update s.service.keys id patterns⟩ := by
  apply Service.ext
  · ext other
    have hmem (u : State) (hu : Sessions u) (other : Bytes) :
        other ∈ u.service.online ↔ (u.view other).current.isSome = true :=
      (hu.isSome_current other).symm
    by_cases hne : id = other
    · subst hne
      rw [hmem t h', hb.online]
      cases online <;> simp
    · rw [hmem t h', hother other hne, ← hmem s h]
      cases online <;> simp [Ne.symm hne]
  · funext other
    dsimp only
    by_cases hne : id = other
    · subst hne
      rw [Function.update_self]
      exact congrArg (fun topics : Finset Bytes ↦ {topic | topic ∈ topics}) hb.topics
    · rw [Function.update_of_ne (Ne.symm hne)]
      exact congrArg (fun v : View ↦ {topic | topic ∈ v.topics}) (hother other hne)
  · funext other
    dsimp only
    by_cases hne : id = other
    · subst hne
      rw [Function.update_self]
      exact hb.patterns
    · rw [Function.update_of_ne (Ne.symm hne)]
      exact congrArg View.patterns (hother other hne)

/-- What a step is to the service, and what it gives to each client where sends succeed. -/
structure Serving (s : State) (event : Event) (t : State) : Prop where
  legal : ∀ act, s.act event = some act → s.service.Legal act
  next : t.service = (s.act event).elim s.service (s.service.act splitTopic)
  given : s.kernel.SendsSucceed → ∀ id, (t.view id).emissions = (s.view id).emissions ++
    (s.act event).elim [] fun act ↦ (s.service.sent MatchesTopic id act).map
      fun frame ↦ ⟨id, frame, frame.encode⟩

private theorem serving_none (h : Sessions s) (h' : Sessions t) {event : Event}
    (hact : s.act event = none)
    (hb : ∀ id, (s.view id).Becomes id (t.view id) (s.view id).current.isSome (s.view id).topics
      (s.view id).patterns []) : Serving s event t where
  legal act ha := by
    rw [hact] at ha
    cases ha
  next := by
    rw [hact]
    exact h.service_congr h' fun id ↦ ⟨(hb id).online, (hb id).topics, (hb id).patterns⟩
  given hs id := by
    rw [hact, (hb id).emissions (sendsSucceed_view hs id)]
    rfl

private theorem serving_some (h : Sessions s) (h' : Sessions t) {event : Event}
    {act : Act Bytes Bytes Frame} (hact : s.act event = some act) {id : Bytes} {online : Bool}
    {topics : Finset Bytes} {patterns : Set (List Level)} {frames : List Frame}
    (hother : ∀ other, id ≠ other → t.view other = s.view other)
    (hb : (s.view id).Becomes id (t.view id) online topics patterns frames)
    (hlegal : s.service.Legal act)
    (hnext : s.service.act splitTopic act =
      ⟨if online then insert id s.service.online else s.service.online \ {id},
        Function.update s.service.topics id {topic | topic ∈ topics},
        Function.update s.service.keys id patterns⟩)
    (hsent : ∀ other, s.service.sent MatchesTopic other act = if id = other then frames else []) :
    Serving s event t where
  legal act' ha := by
    rw [hact] at ha
    exact Option.some.inj ha ▸ hlegal
  next := by rw [hact, Option.elim_some, hnext, h.service_of_becomes h' hother hb]
  given hs other := by
    rw [hact, Option.elim_some, hsent]
    by_cases hne : id = other
    · subst hne
      rw [hb.emissions (sendsSucceed_view hs id), if_pos rfl]
    · rw [hother other hne, if_neg hne, List.map_nil, List.append_nil]

private theorem serving_publish (h : Sessions s) (h' : Sessions t) {datagram : Datagram}
    {stale : MessageBuffer} {order : List Bytes}
    (hs : s.step (.datagram datagram stale order) = some t) :
    Serving s (.datagram datagram stale order) t := by
  have hforward (id : Bytes) := (s.view id).becomes_forward id
    (topicStr (receivedMessage datagram stale)) (messageResponse datagram stale)
  have hstep (id : Bytes) : t.view id = (s.view id).forward id
      (topicStr (receivedMessage datagram stale)) (messageResponse datagram stale) ∨
        ¬ s.kernel.SendsSucceed ∧ t.view id = s.view id := h.view_step hs id
  refine ⟨fun act ha ↦ ?_, ?_, fun hsend id ↦ ?_⟩
  · obtain rfl := Option.some.inj ha
    trivial
  · refine h.service_congr h' fun id ↦ ?_
    obtain he | ⟨-, he⟩ := hstep id
    · rw [he]
      exact ⟨(hforward id).online, (hforward id).topics, (hforward id).patterns⟩
    · rw [he]
      exact ⟨rfl, rfl, rfl⟩
  · obtain he | ⟨hn, -⟩ := hstep id
    · rw [he, (hforward id).emissions (sendsSucceed_view hsend id)]
      have hreached :
          s.service.Reached MatchesTopic id (topicStr (receivedMessage datagram stale)) ↔
          (s.view id).current.isSome = true ∧ ∃ path ∈ (s.view id).patterns,
            MatchesTopic path (topicStr (receivedMessage datagram stale)) :=
        and_congr (h.isSome_current id).symm Iff.rfl
      rw [State.act, Option.elim_some, Service.sent]
      by_cases hr : s.service.Reached MatchesTopic id (topicStr (receivedMessage datagram stale))
      · rw [if_pos hr, if_pos (hreached.mp hr)]
      · rw [if_neg hr, if_neg (hreached.not.mp hr)]
    · exact absurd hsend hn

/-- What one client does is its act or none. -/
theorem serving_client (h : Sessions s) {event : Event} (hs : s.step event = some t)
    {id : Bytes} {e : ClientEvent} (hact : s.act event = (s.view id).act id e)
    (hother : ∀ other, id ≠ other → t.view other = s.view other)
    (hself : t.view id = (s.view id).advance id e)
    (he : ∀ datagram stale, e ≠ .datagram datagram stale) : Serving s event t := by
  have h' := h.step hs
  have honline : id ∈ s.service.online ↔ (s.view id).current.isSome = true :=
    (h.isSome_current id).symm
  -- Where the client stays as it is, everyone does.
  have hstay (hb : (s.view id).Becomes id (t.view id) (s.view id).current.isSome
      (s.view id).topics (s.view id).patterns []) (other : Bytes) :
      (s.view other).Becomes other (t.view other) (s.view other).current.isSome
        (s.view other).topics (s.view other).patterns [] := by
    by_cases hne : id = other
    · exact hne ▸ hb
    · rw [hother other hne]
      exact .refl other _
  cases e with
  | datagram datagram stale => exact absurd rfl (he datagram stale)
  | connect connection =>
    rw [View.advance] at hself
    obtain ⟨hn, hw⟩ | ⟨hc, ha, hb⟩ := (s.view id).becomes_accept id connection
    · refine h.serving_none h' (hact.trans hn) (hstay ?_)
      rw [hself, hw]
      exact .refl id _
    · rw [← hself] at hb
      refine h.serving_some h' (hact.trans ha) hother hb ?_ ?_ fun other ↦ (ite_self []).symm
      · intro hm
        rw [honline, hc] at hm
        cases hm
      · apply Service.ext
        · rfl
        · exact (Function.update_eq_self id _).symm
        · exact (Function.update_eq_self id _).symm
  | read stack =>
    cases hc : (s.view id).current with
    | none =>
      have hn : (s.view id).act id (.read stack) = none := by rw [View.act, hc]; rfl
      refine h.serving_none h' (hact.trans hn) (hstay ?_)
      rw [hself, View.advance, hc, Option.map_none, Option.getD_none, ← hc]
      exact .refl id _
    | some sock =>
      have hin : id ∈ s.service.online := honline.mpr (by rw [hc]; rfl)
      rw [View.advance, hc, Option.map_some, Option.getD_some] at hself
      rw [View.act, hc, Option.bind_some] at hact
      have hread := View.becomes_read hc id stack
      rw [← hself] at hread
      obtain ⟨hn, hb⟩ | ⟨ha, hb⟩ | ⟨request, change, hq, ha, hb⟩ := hread
      · refine h.serving_none h' (hact.trans hn) (hstay ?_)
        rw [hc]
        exact hb
      · refine h.serving_some h' (hact.trans ha) hother hb hin ?_ fun other ↦ (ite_self []).symm
        apply Service.ext
        · rfl
        · exact (Function.update_eq_self id _).symm
        · exact (Function.update_eq_self id _).symm
      · refine h.serving_some h' (hact.trans ha) hother hb ?_ ?_ ?_
        · cases change with
          | subscribe topic => exact ⟨hin, hq.2.2⟩
          | unsubscribe topic => exact ⟨hin, hq.2.2⟩
        · apply Service.ext
          · cases change <;> exact (Set.insert_eq_of_mem hin).symm
          · cases change with
            | subscribe topic =>
              refine congrArg (Function.update _ id) (Set.ext fun other ↦ ?_)
              exact Finset.mem_insert.symm
            | unsubscribe topic =>
              refine congrArg (Function.update _ id) (Set.ext fun other ↦ ?_)
              exact and_comm.trans Finset.mem_erase.symm
          · cases change <;> rfl
        · cases change <;> exact fun other ↦ rfl

/-- Every step is an act of the service or none. -/
theorem serving_step (h : Sessions s) {event : Event} (hs : s.step event = some t) :
    Serving s event t := by
  -- An event that concerns no client leaves everyone as it is.
  have hnone (hact : s.act event = none) (hview : ∀ id, t.view id = s.view id) :
      Serving s event t :=
    h.serving_none (h.step hs) hact fun id ↦ hview id ▸ .refl id _
  cases event with
  | datagram datagram stale order => exact h.serving_publish (h.step hs) hs
  | accept fd connection revents =>
    have hview := h.view_step_of_ne hs (by simp)
    cases hp : connection.presentedId with
    | none =>
      refine hnone (by rw [State.act, hp, Option.bind_none]) fun id ↦ ?_
      rw [hview id, State.clientEvent, hp]
      rfl
    | some id =>
      have hact : s.act (.accept fd connection revents) =
          (s.view id).act id (.connect connection) := by
        rw [State.act, hp, Option.bind_some]
      refine h.serving_client hs hact (fun other hne ↦ ?_) ?_ (by simp)
      · rw [hview other, State.clientEvent, hp, if_neg (by simpa using hne)]
        rfl
      · rw [hview id, State.clientEvent, hp, if_pos rfl]
        rfl
  | client stack =>
    have hview := h.view_step_of_ne hs (by simp)
    obtain ⟨i, fd, id, data, sock, hr⟩ := h.reading_of_step hs
    have hact : s.act (.client stack) = (s.view id).act id (.read stack) := by
      rw [State.act, hr.turn, Option.bind_some]
    refine h.serving_client hs hact (fun other hne ↦ ?_) ?_ (by simp)
    · rw [hview other, State.clientEvent, hr.turn, if_neg (by simpa using hne)]
      rfl
    · rw [hview id, State.clientEvent, hr.turn, if_pos rfl]
      rfl
  | _ => exact hnone rfl fun id ↦ h.view_step_of_ne hs (by simp) id

end Sessions
end Broker.Server
