import Broker.Server.Traversal

/-!
# What can stall the broker

The main loop has one thread. Apart from a `send` that has to wait for room, which the answers of
the kernel do not tell, three of its calls can keep it for ever: `fgets` on standard input that
holds no whole line, `recvall` on a new connection that does not bring its id, and the reading of
a topic that does not end. From every state the loop can come round to the next `poll`.
-/

namespace Broker.Server
open Broker.Base Broker.Net Broker.Topic

/-- The peer neither brings an id nor ends the connection. -/
def Connection.Silent (connection : Connection) : Prop :=
  (payload connection.inbox).length < idLength ∧ ¬ Ends connection.inbox

/-- The topic of a request is read, and there is no NUL in it or in the memory behind it. -/
def OpenTopic (request : SubcribeRequest) (stack : Bytes) : Prop :=
  (request.operation = operationSubscribe ∨ request.operation = operationUnsubscribe) ∧
    (0 : UInt8) ∉ request.topic ++ stack

namespace State

/-- The loop asks for this at its place: a call it makes there can return so. -/
def Awaits (s : State) : Event → Prop
  | .typed _ => s.place.left = false ∧ s.stdin.closed = false
  | .stdinClosed => s.place.left = false
  | .poll _ => s.place = .poll
  | .pollFails => s.place = .poll
  | .proceed => s.place = .stdin ∨ s.place = .udp ∧ s.ready udpPollfdIdx = false ∨
      s.place = .listener ∧ s.ready listnerPollfdIdx = false ∨
      ∃ i, s.place = .clients i ∧ ∀ entry, s.pollFds[i]? = some entry → entry.pollin = false
  | .datagram datagram stale order => s.place = .udp ∧ s.ready udpPollfdIdx = true ∧ order.Nodup ∧
      order.toFinset = s.trie.findSubscribers (topicStr (receivedMessage datagram stale))
  | .drained => s.place = .udp ∧ s.ready udpPollfdIdx = true
  | .accept fd _ _ => s.place = .listener ∧ s.ready listnerPollfdIdx = true ∧ ¬ s.Open fd
  | .acceptFails => s.place = .listener ∧ s.ready listnerPollfdIdx = true
  | .nagleFails => s.place = .listener ∧ s.ready listnerPollfdIdx = true
  | .client _ => ∃ i entry, s.place = .clients i ∧ s.pollFds[i]? = some entry ∧
      entry.pollin = true

/-- Standard input is readable and open, and neither a line nor a whole read of one is there. -/
def LineUnfinished (s : State) : Prop :=
  s.ready stdinPollfdIdx = true ∧ s.stdin.closed = false ∧ newline ∉ s.stdin.pending ∧
    s.stdin.pending.length < maxStdinLen - 1

/-- The call that the loop makes does not return so. -/
def Stalls (s : State) : Event → Prop
  | .proceed => s.place = .stdin ∧ s.LineUnfinished
  | .accept _ connection _ => connection.Silent
  | .client stack => ∃ fd id request, s.Reads (.client stack) fd id request ∧
      OpenTopic request stack
  | _ => False

end State

variable {s t : State}

/-! ### The calls -/

/-- `fgets` waits for the rest of a line. -/
theorem fgets_eq_none_iff {stdin : Stdin} : fgets maxStdinLen stdin = none ↔
    stdin.closed = false ∧ newline ∉ stdin.pending ∧
      stdin.pending.length < maxStdinLen - 1 := by
  rw [← fgetsLine_eq_none_iff, fgets]
  split
  · next hline => simp [hline]
  · next hline =>
    rw [hline]
    split
    · next hopen => exact iff_of_true rfl ⟨hopen, rfl⟩
    · next hopen =>
      refine iff_of_false ?_ fun h ↦ hopen h.1
      split
      · exact Option.some_ne_none _
      · exact Option.some_ne_none _

/-- The command is read except where the line is not finished. -/
theorem isSome_readCommand_iff : s.readCommand.isSome ↔ ¬ s.LineUnfinished := by
  unfold State.readCommand State.LineUnfinished
  split
  · next hready =>
    rw [Option.isSome_map, and_iff_right hready, ← fgets_eq_none_iff, Option.isSome_iff_ne_none]
  · next hready => exact iff_of_true rfl fun h ↦ hready h.1

/-- A handshake comes to an end except with a silent peer. -/
theorem isSome_connectNewClient_iff {fd : Fd} {connection : Connection} {revents : Bool} :
    (s.connectNewClient fd connection revents).isSome ↔ ¬ connection.Silent := by
  rw [Connection.Silent, ← recvallLoop_eq_none_iff []]
  unfold State.connectNewClient recvall
  split
  · next hn => exact iff_of_false Bool.false_ne_true fun h ↦ h hn
  · next hr =>
    refine iff_of_true ?_ (hr ▸ Option.some_ne_none _)
    dsimp only
    split <;> rfl
  · next hr => exact iff_of_true rfl (hr ▸ Option.some_ne_none _)

/-- A request is processed except where its topic does not end. -/
theorem isSome_processSubRequests_iff {request : SubcribeRequest} {stack clientName : Bytes}
    {subscriber : SubscriberData} {trie : TopicTrie} {kernel : Kernel} :
    (processSubRequests request stack clientName subscriber trie kernel).isSome ↔
      ¬ OpenTopic request stack := by
  have hread : (readCString (request.topic ++ stack)).isSome ↔
      (0 : UInt8) ∈ request.topic ++ stack := by
    unfold readCString
    split
    · next hm => exact iff_of_true rfl hm
    · next hn => exact iff_of_false Bool.false_ne_true hn
  unfold processSubRequests OpenTopic
  split
  · next ho => rw [Option.isSome_map, hread, and_iff_right (.inl ho), not_not]
  · next hs =>
    split
    · next ho => rw [Option.isSome_map, hread, and_iff_right (.inr ho), not_not]
    · next hu => exact iff_of_true rfl fun h ↦ h.1.elim hs hu

/-! ### The steps -/

/-- What a client has sent is handled except where a topic does not end. -/
theorem Reading.isSome_step_iff {i : Nat} {fd : Fd} {id : Bytes} {data : SubscriberData}
    {sock : Socket} (hr : Reading s i fd id data sock) (stack : Bytes) :
    (s.step (.client stack)).isSome ↔ ¬ s.Stalls (.client stack) := by
  constructor
  · rintro hs ⟨fd', id', _, ⟨_, j, data', sock', bytes, inbox, hl, he, hr', hrecv, rfl⟩, hopen⟩
    cases he
    rw [hr'.step_whole hrecv hl, Option.isSome_map, isSome_processSubRequests_iff] at hs
    exact hs hopen
  · intro hn
    obtain ⟨t, ht⟩ := hr.exists_step_of_processed fun bytes inbox hrecv hl ↦
      isSome_processSubRequests_iff.mpr fun hopen ↦
        hn ⟨fd, id, _, ⟨stack, i, data, sock, bytes, inbox, hl, rfl, hr, hrecv, rfl⟩, hopen⟩
    rw [ht]
    rfl

/-- The loop goes on exactly where a call it makes returns. -/
theorem Sessions.isSome_step_iff (h : Sessions s) (event : Event) :
    (s.step event).isSome ↔ s.Awaits event ∧ ¬ s.Stalls event := by
  cases event with
  | proceed =>
    simp only [State.step, State.Awaits, State.Stalls]
    cases hp : s.place with
    | stdin => simp [isSome_readCommand_iff]
    | udp => cases hready : s.ready udpPollfdIdx <;> simp
    | listener => cases hready : s.ready listnerPollfdIdx <;> simp
    | clients i =>
      cases he : s.pollFds[i]? with
      | none => simp [he]
      | some entry => cases hready : entry.pollin <;> simp [he, hready]
    | _ => simp
  | datagram datagram stale order =>
    simp only [State.step, State.Awaits, State.Stalls, State.receiveDatagram, sendMsgToAllSubs,
      not_false_eq_true, and_true, ← and_assoc]
    split
    · next hready =>
      rw [and_assoc, and_iff_right hready, Option.isSome_map]
      split
      · next ho => exact iff_of_true rfl ho
      · next ho => exact iff_of_false Bool.false_ne_true ho
    · next hn => exact iff_of_false Bool.false_ne_true fun ha ↦ hn ha.1.1
  | accept fd connection revents =>
    simp only [State.step, State.Awaits, State.Stalls]
    split
    · next hawaits => rw [Option.isSome_map, isSome_connectNewClient_iff, and_iff_right hawaits]
    · next hn => exact iff_of_false Bool.false_ne_true fun ha ↦ hn ha.1
  | client stack =>
    by_cases ha : s.Awaits (.client stack)
    · obtain ⟨i, entry, hp, he, hready⟩ := ha
      obtain ⟨id, data, sock, hreading⟩ := h.reading hp he hready
      rw [hreading.isSome_step_iff, and_iff_right ⟨i, entry, hp, he, hready⟩]
    · refine iff_of_false (fun hs ↦ ha ?_) fun hn ↦ ha hn.1
      simp only [State.step] at hs
      split at hs
      · next i hp =>
        split at hs
        · next entry he =>
          split at hs
          · next hready => exact ⟨i, entry, hp, he, hready⟩
          · cases hs
        · cases hs
      · cases hs
  | typed bytes => simp [State.step, State.Awaits, State.Stalls]
  | _ => simp [State.step, State.Awaits, State.Stalls]

/-! ### Round and round -/

/-- What brings neither a datagram nor a client. -/
def Event.onward : Event → Bool
  | typed _ => true
  | proceed => true
  | drained => true
  | acceptFails => true
  | client _ => true
  | _ => false

/-- The loop is about to poll, or the process has ended. -/
def State.RoundOver (s : State) : Prop := s.place = .poll ∨ s.place.left = true

/-- A run on, without any datagram or new client, to the end of the round. -/
def State.ComesRound (s : State) : Prop :=
  ∃ events t, Runs State.step (fun _ event ↦ event.onward = true) s events t ∧ t.RoundOver

private theorem State.ComesRound.step {event : Event} (hevent : event.onward = true)
    (hs : s.step event = some t) (h : t.ComesRound) : s.ComesRound := by
  obtain ⟨events, u, hr, hu⟩ := h
  exact ⟨event :: events, u, .cons hevent hs hr, hu⟩

private theorem Sessions.roundOver_of_runs (h : Sessions s) (hp : s.InClients) {events : List Event}
    (hr : Runs State.step (fun s _ ↦ s.InClients) s events t) (ht : ¬ t.InClients) :
    t.RoundOver := by
  have hend : Sessions t ∧ (t.InClients ∨ t.RoundOver) := by
    refine hr.invariant (P := fun s ↦ Sessions s ∧ (s.InClients ∨ s.RoundOver)) ⟨h, .inl hp⟩
      fun s event t hs hin hstep ↦ ⟨hs.1.step hstep, ?_⟩
    obtain ⟨i, hp⟩ := hin
    cases hs.1.passage hp hstep with
    | outside hevent hplace => exact .inl ⟨i, hplace.trans hp⟩
    | pass => exact .inl ⟨i + 1, rfl⟩
    | finish => exact .inr (.inl rfl)
    | killed hplace => exact .inr (.inr (hplace ▸ rfl))
    | @turn stack entry sock _ he hready hsock hturned =>
      cases hend : turnEnd sock with
      | again =>
        rw [hend] at hturned
        exact .inl ⟨i, hturned.2.2⟩
      | next =>
        rw [hend] at hturned
        exact .inl ⟨i + 1, hturned.2.2⟩
      | gone =>
        rw [hend] at hturned
        exact .inl ⟨i, hturned.2.2⟩
  exact hend.2.resolve_left ht

private theorem Sessions.comesRound_of_clients (h : Sessions s) (hp : s.InClients) :
    s.ComesRound := by
  obtain ⟨events, t, hr, ht, hall⟩ := h.exists_traversal
  refine ⟨events, t, ?_, h.roundOver_of_runs hp hr ht⟩
  refine (hr.restrict (List.all_eq_true.mp hall)).mono fun _ event hloop ↦ ?_
  have he := hloop.2
  cases event with
  | proceed => rfl
  | client stack => rfl
  | _ => cases he

private theorem Sessions.comesRound_of_listener (h : Sessions s) (hp : s.place = .listener) :
    s.ComesRound := by
  have hnext (event : Event) (hevent : event.onward = true)
      (hs : s.step event = some { s with place := .clients subsStartIdx }) : s.ComesRound :=
    .step hevent hs ((h.step hs).comesRound_of_clients ⟨subsStartIdx, rfl⟩)
  cases hready : s.ready listnerPollfdIdx with
  | false => exact hnext .proceed rfl (by simp [State.step, hp, hready])
  | true => exact hnext .acceptFails rfl (by simp [State.step, hp, hready])

private theorem Sessions.comesRound_of_udp (h : Sessions s) (hp : s.place = .udp) :
    s.ComesRound := by
  have hnext (event : Event) (hevent : event.onward = true)
      (hs : s.step event = some { s with place := .listener }) : s.ComesRound :=
    .step hevent hs ((h.step hs).comesRound_of_listener rfl)
  cases hready : s.ready udpPollfdIdx with
  | false => exact hnext .proceed rfl (by simp [State.step, hp, hready])
  | true => exact hnext .drained rfl (by simp [State.step, hp, hready])

private theorem place_of_readCommand (h : s.readCommand = some t) :
    t.place = .exited ∨ t.place = .udp := by
  unfold State.readCommand at h
  split at h
  · obtain ⟨result, -, rfl⟩ := Option.map_eq_some_iff.mp h
    dsimp only
    split
    · exact .inl rfl
    · exact .inr rfl
  · cases h
    exact .inr rfl

private theorem Sessions.comesRound_of_line (h : Sessions s) (hp : s.place = .stdin)
    (hline : ¬ s.LineUnfinished) : s.ComesRound := by
  obtain ⟨t, ht⟩ := Option.isSome_iff_exists.mp (isSome_readCommand_iff.mpr hline)
  have hs : s.step .proceed = some t := by rw [← ht, State.step, hp]
  have hround : t.ComesRound := by
    obtain hexited | hudp := place_of_readCommand ht
    · exact ⟨[], t, .nil, .inr (by rw [hexited]; rfl)⟩
    · exact (h.step hs).comesRound_of_udp hudp
  exact .step rfl hs hround

private theorem Sessions.comesRound_of_stdin (h : Sessions s) (hp : s.place = .stdin) :
    s.ComesRound := by
  by_cases hline : s.LineUnfinished
  · have hs : s.step (.typed [newline]) = some { s with stdin := s.stdin.enter [newline] } := by
      simp [State.step, hp, Place.left, hline.2.1]
    refine .step rfl hs ((h.step hs).comesRound_of_line hp fun hrest ↦ hrest.2.2.1 ?_)
    exact List.mem_append_right _ (List.mem_singleton_self newline)
  · exact h.comesRound_of_line hp hline

/-- In every reachable state the loop goes on with whatever it asks for, apart from the three
calls that wait, and it can come round to the next `poll` without a datagram or a new client. -/
theorem goes_on {udpfd listenfd : Fd} (hr : Reachable udpfd listenfd s) :
    (∀ event, (s.step event).isSome ↔ s.Awaits event ∧ ¬ s.Stalls event) ∧ s.ComesRound := by
  have hsessions := Sessions.of_reaches hr
  refine ⟨hsessions.isSome_step_iff, ?_⟩
  cases hp : s.place with
  | poll => exact ⟨[], s, .nil, .inl hp⟩
  | stdin => exact hsessions.comesRound_of_stdin hp
  | udp => exact hsessions.comesRound_of_udp hp
  | listener => exact hsessions.comesRound_of_listener hp
  | clients i => exact hsessions.comesRound_of_clients ⟨i, hp⟩
  | _ => exact ⟨[], s, .nil, .inr (by rw [hp]; rfl)⟩

/-- A peer that sends one letter and keeps the connection. -/
def halfIntroduced : Connection := ⟨localAddress 80, [.segment 65 []], []⟩

/-- The broker waits for its id. -/
theorem goes_on_halfIntroduced : ∃ s : State, s.Awaits (.accept 5 halfIntroduced false) ∧
    s.step (.accept 5 halfIntroduced false) = none ∧ s.ComesRound := by
  have hrun : (exec State.step (State.initial 3 4) [.poll (· == 4), .proceed, .proceed]).any
      (fun s ↦ s.place = .listener ∧ s.ready listnerPollfdIdx = true ∧ ¬ s.Open 5) = true := by
    decide +kernel
  obtain ⟨s, hs, hplace, hready, hopen⟩ := exists_exec hrun
  obtain ⟨hstep, hround⟩ := goes_on (reaches_of_exec hs)
  have hsilent : halfIntroduced.Silent := ⟨by decide, fun hends ↦ hends⟩
  refine ⟨s, ⟨hplace, hready, hopen⟩, ?_, hround⟩
  rw [← Option.not_isSome_iff_eq_none, hstep]
  exact fun hgoes ↦ hgoes.2 hsilent

end Broker.Server
