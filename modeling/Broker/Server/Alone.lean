import Broker.Server.Entries

/-!
# A client alone on the server

A server that only one client has ever connected to follows a server with many clients: its
tables hold the entries of this client, and its loop stands where the other loop stands among
these. Every step of the server with many clients is followed by one that concerns the client
alike, or left out.
-/

namespace Broker.Server
open Broker.Base Broker.Net Broker.Topic

/-- A connection that presents the id of another client. -/
def Event.Foreign (id : Bytes) : Event → Prop
  | .accept _ connection _ => ∃ other, connection.presentedId = some other ∧ other ≠ id
  | _ => False

/-- One state is what the other is to a client that is alone. -/
structure Alone (id : Bytes) (s s' : State) : Prop where
  sessions : Sessions s
  sessions' : Sessions s'
  view : s'.view id = s.view id
  names : ∀ fd, s'.clientName fd = if s.clientName fd = some id then some id else none
  holds : ∀ path other, s'.trie.Holds path other → other = id
  own : s'.pollFds.take subsStartIdx = s.pollFds.take subsStartIdx
  entries : s'.clientEntries = s.clientEntries.filter (s.isOwn id)
  stdin : s'.stdin = s.stdin
  place : s'.place = s.placeFor id

namespace Alone

variable {id : Bytes} {s s' t t' : State}

/-- At the start everyone is alone. -/
theorem initial (udpfd listenfd : Fd) (id : Bytes) :
    Alone id (State.initial udpfd listenfd) (State.initial udpfd listenfd) where
  sessions := Sessions.initial _ _
  sessions' := Sessions.initial _ _
  view := rfl
  names fd := by simp [State.initial, State.clientName]
  holds path other h := absurd h (TopicTrie.not_holds_new path other)
  own := rfl
  entries := rfl
  stdin := rfl
  place := rfl

/-- The server's own descriptors are ready alike. -/
theorem ready (h : Alone id s s') {i : Nat} (hi : i < subsStartIdx) : s'.ready i = s.ready i := by
  rw [s'.ready_eq hi, s.ready_eq hi, h.own]

/-- The client is live alike. -/
theorem live (h : Alone id s s') (fd : Fd) : s'.Live id fd ↔ s.Live id fd := by
  rw [← h.sessions'.named, ← h.sessions.named, h.names]
  simp

/-- The client is connected alike. -/
theorem connected (h : Alone id s s') : s'.Connected id ↔ s.Connected id :=
  exists_congr h.live

private theorem socket (h : Alone id s s') {fd : Fd} {sock : Socket}
    (hs : s'.kernel.socket fd = some sock) :
    s.clientName fd = some id ∧ s.kernel.socket fd = some sock := by
  have hname : (s'.clientName fd).isSome := by
    have ho := h.sessions'.serves.owner fd
    rw [hs] at ho
    exact Option.isSome_iff_exists.mpr
      (Exists.imp (fun _ he ↦ he.1) (Option.map_eq_some_iff.mp ho.symm))
  rw [h.names] at hname
  split at hname
  · next hn =>
    have hl := (h.sessions.named fd id).mp hn
    have hc : s'.current id = s.current id := congrArg View.current h.view
    rw [State.current_of_live hl, State.current_of_live ((h.live fd).mpr hl), hs] at hc
    exact ⟨hn, hc.symm⟩
  · cases hname

/-- What is open there is open here. -/
theorem isOpen (h : Alone id s s') {fd : Fd} (ho : s'.Open fd) : s.Open fd := by
  obtain ho | ho := ho
  · rw [h.own] at ho
    exact .inl ho
  · obtain ⟨sock, hs⟩ := Option.isSome_iff_exists.mp ho
    exact .inr (by rw [(h.socket hs).2]; rfl)

/-- Sends that succeed here succeed there. -/
theorem sendsSucceed (h : Alone id s s') (hs : s.kernel.SendsSucceed) :
    s'.kernel.SendsSucceed := fun fd sock hf ↦ hs fd sock (h.socket hf).2

/-- Where both systems take the same part in the client's life, only the tables have to be
accounted for. -/
theorem follow (h : Alone id s s') (hsend : s.kernel.SendsSucceed) {event event' : Event}
    (hs : s.step event = some t) (hs' : s'.step event' = some t')
    (hlabel : s'.clientEvent id event' = s.clientEvent id event)
    (hnames : ∀ fd, t'.clientName fd = if t.clientName fd = some id then some id else none)
    (hholds : ∀ path other, t'.trie.Holds path other → other = id)
    (hown : t'.pollFds.take subsStartIdx = t.pollFds.take subsStartIdx)
    (hentries : t'.clientEntries = t.clientEntries.filter (t.isOwn id))
    (hstdin : t'.stdin = t.stdin) (hplace : t'.place = t.placeFor id) : Alone id t t' where
  sessions := h.sessions.step hs
  sessions' := h.sessions'.step hs'
  view := by
    rw [h.sessions'.view_of_succeed (h.sendsSucceed hsend) hs', hlabel, h.view,
      h.sessions.view_of_succeed hsend hs]
  names := hnames
  holds := hholds
  own := hown
  entries := hentries
  stdin := hstdin
  place := hplace

/-- Where the names and the entries stay as they are on both sides, they go on to agree. -/
theorem keep (h : Alone id s s') (hsend : s.kernel.SendsSucceed) {event event' : Event}
    (hs : s.step event = some t) (hs' : s'.step event' = some t')
    (hlabel : s'.clientEvent id event' = s.clientEvent id event)
    (hnames : t.connectedSubscribers = s.connectedSubscribers)
    (hnames' : t'.connectedSubscribers = s'.connectedSubscribers)
    (hfds : t.pollFds = s.pollFds) (hfds' : t'.pollFds = s'.pollFds)
    (hholds : ∀ path other, t'.trie.Holds path other → other = id)
    (hstdin : t'.stdin = t.stdin) (hplace : t'.place = t.placeFor id) : Alone id t t' := by
  have hname (fd : Fd) : t.clientName fd = s.clientName fd := by
    rw [State.clientName, hnames, State.clientName]
  refine h.follow hsend hs hs' hlabel (fun fd ↦ ?_) hholds ?_ ?_ hstdin hplace
  · rw [hname, State.clientName, hnames']
    exact h.names fd
  · rw [hfds, hfds', h.own]
  · rw [State.clientEntries, State.clientEntries, hfds, hfds', State.isOwn_congr hnames]
    exact h.entries

/-- A step that does not concern the client can be left out. -/
theorem stay (h : Alone id s s') (hsend : s.kernel.SendsSucceed) {event : Event}
    (hs : s.step event = some t) (hlabel : s.clientEvent id event = none)
    (hnames : ∀ fd, t.clientName fd = some id ↔ s.clientName fd = some id)
    (hown : t.pollFds.take subsStartIdx = s.pollFds.take subsStartIdx)
    (hentries : t.clientEntries.filter (t.isOwn id) = s.clientEntries.filter (s.isOwn id))
    (hstdin : t.stdin = s.stdin) (hplace : t.placeFor id = s.placeFor id) : Alone id t s' where
  sessions := h.sessions.step hs
  sessions' := h.sessions'
  view := by
    rw [h.view, h.sessions.view_of_succeed hsend hs, hlabel]
    rfl
  names fd := by
    rw [h.names]
    simp only [hnames]
  holds := h.holds
  own := h.own.trans hown.symm
  entries := h.entries.trans hentries.symm
  stdin := h.stdin.trans hstdin.symm
  place := h.place.trans hplace.symm

end Alone

/-- A step is followed, by one that concerns the client alike, or left out. -/
def Simulated (id : Bytes) (s s' : State) (event : Event) (t : State) : Prop :=
  (Alone id t s' ∧ s.clientEvent id event = none) ∨
    ∃ event' t', ¬ event'.Foreign id ∧ s'.kernel.SendsSucceed ∧ s'.step event' = some t' ∧
      Alone id t t' ∧ s'.clientEvent id event' = s.clientEvent id event

namespace Alone

variable {id : Bytes} {s s' t : State}

private theorem moved (h : Alone id s s') (hsend : s.kernel.SendsSucceed) {event event' : Event}
    {place place' : Place} {stdin stdin' : Stdin}
    (hs : s.step event = some { s with place := place, stdin := stdin })
    (hs' : s'.step event' = some { s' with place := place', stdin := stdin' })
    (hforeign : ¬ event'.Foreign id)
    (hlabel : s'.clientEvent id event' = s.clientEvent id event) (hstdin : stdin' = stdin)
    (hplace : place' = State.placeFor { s with place := place, stdin := stdin } id) :
    Simulated id s s' event { s with place := place, stdin := stdin } :=
  .inr ⟨event', _, hforeign, h.sendsSucceed hsend, hs',
    h.follow hsend hs hs' hlabel h.names h.holds h.own h.entries hstdin hplace, hlabel⟩

/-- The loop is at the same place, if it is not at a client. -/
theorem place_eq (h : Alone id s s') {place : Place} (hp : s.place = place)
    (hn : ∀ i, place ≠ .clients i) : s'.place = place := by
  rw [h.place, State.placeFor, hp]
  cases place with
  | clients i => exact absurd rfl (hn i)
  | _ => rfl

private theorem left_eq (h : Alone id s s') : s'.place.left = s.place.left := by
  rw [h.place, State.placeFor]
  cases s.place <;> rfl

/-- What the operator types is followed. -/
theorem typed (h : Alone id s s') (hsend : s.kernel.SendsSucceed) {bytes : Bytes}
    (hs : s.step (.typed bytes) = some t) : Simulated id s s' (.typed bytes) t := by
  have ht := hs
  obtain ⟨hn, ht⟩ := Option.ite_none_left_eq_some.mp ht
  cases ht
  have hs' : s'.step (.typed bytes) =
      some { s' with place := s'.place, stdin := s'.stdin.enter bytes } := by
    rw [← h.left_eq, ← h.stdin] at hn
    exact if_neg hn
  exact h.moved hsend hs hs' (fun hf ↦ hf) rfl (by rw [h.stdin]) h.place

/-- The end of standard input is followed. -/
theorem stdinClosed (h : Alone id s s') (hsend : s.kernel.SendsSucceed)
    (hs : s.step .stdinClosed = some t) : Simulated id s s' .stdinClosed t := by
  have ht := hs
  obtain ⟨hn, ht⟩ := Option.ite_none_left_eq_some.mp ht
  cases ht
  have hs' : s'.step .stdinClosed =
      some { s' with place := s'.place, stdin := s'.stdin.close } := by
    rw [← h.left_eq] at hn
    exact if_neg hn
  exact h.moved hsend hs hs' (fun hf ↦ hf) rfl (by rw [h.stdin]) h.place

/-- The return of `poll` is followed. -/
theorem poll (h : Alone id s s') (hsend : s.kernel.SendsSucceed) {readable : Fd → Bool}
    (hs : s.step (.poll readable) = some t) : Simulated id s s' (.poll readable) t := by
  have ht := hs
  obtain ⟨hp, ht⟩ := Option.ite_none_right_eq_some.mp ht
  cases ht
  have hs' : s'.step (.poll readable) = some (s'.pollReturns readable) :=
    if_pos (h.place_eq hp (fun i hi ↦ nomatch hi))
  refine .inr ⟨.poll readable, _, fun hf ↦ hf, h.sendsSucceed hsend, hs',
    h.follow hsend hs hs' rfl h.names h.holds ?_ ?_ h.stdin rfl, rfl⟩
  · simp only [State.pollReturns, ← List.map_take, h.own]
  · have he := h.entries
    simp only [State.clientEntries] at he
    simp only [State.clientEntries, State.pollReturns, ← List.map_drop, he, List.filter_map]
    rfl

/-- A failure of `poll` is followed. -/
theorem pollFails (h : Alone id s s') (hsend : s.kernel.SendsSucceed)
    (hs : s.step .pollFails = some t) : Simulated id s s' .pollFails t := by
  have ht := hs
  obtain ⟨hp, ht⟩ := Option.ite_none_right_eq_some.mp ht
  cases ht
  have hs' : s'.step .pollFails = some { s' with place := .died } :=
    if_pos (h.place_eq hp (fun i hi ↦ nomatch hi))
  exact h.moved hsend hs hs' (fun hf ↦ hf) rfl h.stdin rfl

private theorem moves_on (h : Alone id s s') (hsend : s.kernel.SendsSucceed) {event : Event}
    (place next : Place) (idx : Nat) (on : Bool) (hidx : idx < subsStartIdx)
    (hstep : ∀ u : State, u.place = place →
      u.step event = if u.ready idx = on then some { u with place := next } else none)
    (hplace : ∀ i, place ≠ .clients i) (hnext : State.placeFor { s with place := next } id = next)
    (hforeign : ¬ event.Foreign id) (hlabel : s'.clientEvent id event = s.clientEvent id event)
    (hp : s.place = place) (hs : s.step event = some t) : Simulated id s s' event t := by
  obtain ⟨hr, ht⟩ := Option.ite_none_right_eq_some.mp ((hstep s hp).symm.trans hs)
  cases ht
  have hs' : s'.step event = some { s' with place := next } := by
    rw [hstep s' (h.place_eq hp hplace), if_pos ((h.ready hidx).trans hr)]
  exact h.moved hsend hs hs' hforeign hlabel h.stdin hnext.symm

/-- The end of the datagrams is followed. -/
theorem drained (h : Alone id s s') (hsend : s.kernel.SendsSucceed)
    (hs : s.step .drained = some t) : Simulated id s s' .drained t := by
  obtain ⟨⟨hp, -⟩, -⟩ := Option.ite_none_right_eq_some.mp hs
  refine h.moves_on hsend .udp .listener udpPollfdIdx true (by decide) (fun u hu ↦ ?_)
    (fun i hi ↦ nomatch hi) rfl (fun hf ↦ hf) rfl hp hs
  simp only [State.step, hu, true_and]

/-- At a listener that is ready, no connection may be found. -/
theorem step_acceptFails (h : Alone id s s') (hp : s.place = .listener)
    (hr : s.ready listnerPollfdIdx = true) :
    s'.step .acceptFails = some { s' with place := .clients subsStartIdx } :=
  if_pos ⟨h.place_eq hp (fun i hi ↦ nomatch hi), (h.ready (by decide)).trans hr⟩

/-- A failure of `accept` is followed. -/
theorem acceptFails (h : Alone id s s') (hsend : s.kernel.SendsSucceed)
    (hs : s.step .acceptFails = some t) : Simulated id s s' .acceptFails t := by
  obtain ⟨⟨hp, -⟩, -⟩ := Option.ite_none_right_eq_some.mp hs
  refine h.moves_on hsend .listener (.clients subsStartIdx) listnerPollfdIdx true (by decide)
    (fun u hu ↦ ?_) (fun i hi ↦ nomatch hi) (by simp [State.placeFor]) (fun hf ↦ hf) rfl hp hs
  simp only [State.step, hu, true_and]

/-- A failure of `setsockopt` is followed. -/
theorem nagleFails (h : Alone id s s') (hsend : s.kernel.SendsSucceed)
    (hs : s.step .nagleFails = some t) : Simulated id s s' .nagleFails t := by
  obtain ⟨⟨hp, -⟩, -⟩ := Option.ite_none_right_eq_some.mp hs
  refine h.moves_on hsend .listener .died listnerPollfdIdx true (by decide) (fun u hu ↦ ?_)
    (fun i hi ↦ nomatch hi) rfl (fun hf ↦ hf) rfl hp hs
  simp only [State.step, hu, true_and]

private theorem readCommand (h : Alone id s s') (hsend : s.kernel.SendsSucceed)
    (hp : s.place = .stdin) (hs : s.step .proceed = some t) : Simulated id s s' .proceed t := by
  have hp' := h.place_eq hp (fun i hi ↦ nomatch hi)
  have hstep (u : State) (hu : u.place = .stdin) : u.step .proceed = u.readCommand := by
    rw [State.step, hu]
  have ht := hs
  rw [hstep s hp, State.readCommand] at ht
  have hs' := hstep s' hp'
  rw [State.readCommand, h.ready (by decide), h.stdin] at hs'
  split at ht
  · next hr =>
    rw [if_pos hr] at hs'
    obtain ⟨⟨line, stdin⟩, hread, ht⟩ := Option.map_eq_some_iff.mp ht
    cases ht
    rw [hread] at hs'
    refine h.moved hsend hs hs' (fun hf ↦ hf) rfl rfl ?_
    simp only [State.placeFor]
    split <;> rfl
  · next hr =>
    rw [if_neg hr] at hs'
    cases ht
    exact h.moved hsend hs hs' (fun hf ↦ hf) rfl rfl rfl

private theorem proceed_udp (h : Alone id s s') (hsend : s.kernel.SendsSucceed)
    (hp : s.place = .udp) (hs : s.step .proceed = some t) : Simulated id s s' .proceed t := by
  refine h.moves_on hsend .udp .listener udpPollfdIdx false (by decide) (fun u hu ↦ ?_)
    (fun i hi ↦ nomatch hi) rfl (fun hf ↦ hf) rfl hp hs
  simp only [State.step, hu]
  cases u.ready udpPollfdIdx <;> rfl

private theorem proceed_listener (h : Alone id s s') (hsend : s.kernel.SendsSucceed)
    (hp : s.place = .listener) (hs : s.step .proceed = some t) :
    Simulated id s s' .proceed t := by
  refine h.moves_on hsend .listener (.clients subsStartIdx) listnerPollfdIdx false (by decide)
    (fun u hu ↦ ?_) (fun i hi ↦ nomatch hi) (by simp [State.placeFor]) (fun hf ↦ hf) rfl hp hs
  simp only [State.step, hu]
  cases u.ready listnerPollfdIdx <;> rfl

/-- The loop stands among the client's entries where it stands among all. -/
theorem place_clients (h : Alone id s s') {i : Nat} (hp : s.place = .clients i) :
    s'.place = .clients (s.positionFor id i) :=
  h.place.trans (State.placeFor_clients hp id)

/-- At one of the client's entries the loop is at this entry there, too. -/
theorem entry (h : Alone id s s') {i : Nat} (hp : s.place = .clients i) {entry : PollFd}
    (he : s.pollFds[i]? = some entry) (ho : s.isOwn id entry = true) :
    s'.pollFds[s.positionFor id i]? = some entry := by
  rw [State.positionFor, State.getElem?_pollFds, h.entries]
  apply getElem?_filter_rank _ ho
  rw [State.getElem?_clientEntries s (h.sessions.position i hp), he]

private theorem entry_none (h : Alone id s s') {i : Nat} (he : s.pollFds[i]? = none) :
    s'.pollFds[s.positionFor id i]? = none := by
  rw [State.positionFor, State.getElem?_pollFds, h.entries]
  apply getElem?_filter_rank_none
  rw [State.clientEntries, List.length_drop]
  exact Nat.sub_le_sub_right (List.getElem?_eq_none_iff.mp he) _

private theorem proceed_clients (h : Alone id s s') (hsend : s.kernel.SendsSucceed) {i : Nat}
    (hp : s.place = .clients i) (hs : s.step .proceed = some t) :
    Simulated id s s' .proceed t := by
  have hp' := h.place_clients hp
  have ht := hs
  simp only [State.step, hp] at ht
  split at ht
  · next entry he =>
    obtain ⟨hr, ht⟩ := Option.ite_none_left_eq_some.mp ht
    cases ht
    have hnext := s.positionFor_next id (h.sessions.position i hp) he
    by_cases ho : s.isOwn id entry = true
    · rw [if_pos ho] at hnext
      have hs' : s'.step .proceed =
          some { s' with place := .clients (s.positionFor id i + 1) } := by
        simp only [State.step, hp', h.entry hp he ho]
        exact if_neg hr
      exact h.moved hsend hs hs' (fun hf ↦ hf) rfl h.stdin (congrArg Place.clients hnext.symm)
    · rw [if_neg ho] at hnext
      refine .inl ⟨h.stay hsend hs rfl (fun _ ↦ Iff.rfl) rfl rfl rfl ?_, rfl⟩
      exact (congrArg Place.clients hnext).trans (State.placeFor_clients hp id).symm
  · next he =>
    cases ht
    have hs' : s'.step .proceed = some { s' with place := .poll } := by
      simp only [State.step, hp', h.entry_none he]
    exact h.moved hsend hs hs' (fun hf ↦ hf) rfl h.stdin rfl

/-- Where the code goes on by itself, this is followed. -/
theorem proceed (h : Alone id s s') (hsend : s.kernel.SendsSucceed)
    (hs : s.step .proceed = some t) : Simulated id s s' .proceed t := by
  cases hp : s.place with
  | stdin => exact h.readCommand hsend hp hs
  | udp => exact h.proceed_udp hsend hp hs
  | listener => exact h.proceed_listener hsend hp hs
  | clients i => exact h.proceed_clients hsend hp hs
  | _ => simp [State.step, hp] at hs

private theorem mem_findSubscribers (h : Alone id s s') (topic other : Bytes) :
    other ∈ s'.trie.findSubscribers topic ↔ other = id ∧ other ∈ s.trie.findSubscribers topic := by
  have hpatterns (path : List Level) : s'.trie.Holds path id ↔ s.trie.Holds path id :=
    Set.ext_iff.mp (congrArg View.patterns h.view) path
  rw [State.mem_findSubscribers_iff, State.mem_findSubscribers_iff]
  constructor
  · rintro ⟨path, hh, hm⟩
    obtain rfl := h.holds path other hh
    exact ⟨rfl, path, (hpatterns path).mp hh, hm⟩
  · rintro ⟨rfl, path, hh, hm⟩
    exact ⟨path, (hpatterns path).mpr hh, hm⟩

/-- A datagram is followed. -/
theorem datagram (h : Alone id s s') (hsend : s.kernel.SendsSucceed) {datagram : Datagram}
    {stale : MessageBuffer} {order : List Bytes}
    (hs : s.step (.datagram datagram stale order) = some t) :
    Simulated id s s' (.datagram datagram stale order) t := by
  obtain ⟨⟨hp, hr⟩, -⟩ := Option.ite_none_right_eq_some.mp hs
  obtain ⟨hn, ho⟩ : order.Nodup ∧ order.toFinset =
      s.trie.findSubscribers (topicStr (receivedMessage datagram stale)) := by
    cases h.sessions.move hs with
    | idle hevent => cases hevent
    | die hevent => simp at hevent
    | route hplace hnodup horder hsent => exact ⟨hnodup, horder⟩
  have ho' : (order.filter (· = id)).toFinset =
      s'.trie.findSubscribers (topicStr (receivedMessage datagram stale)) := by
    ext other
    rw [h.mem_findSubscribers, ← ho, List.mem_toFinset, List.mem_filter, List.mem_toFinset,
      and_comm, decide_eq_true_iff]
  have hstep := h.sessions.step_datagram hsend hp hr hn ho
  have hs' := h.sessions'.step_datagram (h.sendsSucceed hsend)
    (h.place_eq hp (fun i hi ↦ nomatch hi)) ((h.ready (by decide)).trans hr) (hn.filter _) ho'
  obtain rfl := Option.some.inj (hs.symm.trans hstep)
  exact .inr ⟨.datagram datagram stale (order.filter (· = id)), _, fun hf ↦ hf,
    h.sendsSucceed hsend, hs',
    h.follow hsend hs hs' rfl h.names h.holds h.own h.entries h.stdin h.place, rfl⟩

end Alone
end Broker.Server
