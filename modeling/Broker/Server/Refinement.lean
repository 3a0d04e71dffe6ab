import Broker.Server.Agreement
import Broker.Server.Routing
import Broker.Server.View

/-!
# The server refines the views of its clients

What a client has of the server is read off the tables, the trie and the kernel. Every step of
the server is, for each id at once, the step of its client that the event stands for, or none.
-/

namespace Broker.Server
open Broker.Base Broker.Net Broker.Topic

/-- The id a connection presents. -/
def Connection.presentedId (connection : Connection) : Option Bytes :=
  match recvall idLength connection.inbox with
  | some (.complete data, _) => some (connectingId data)
  | _ => none

namespace State

/-- The connection an id is connected on. -/
def current (s : State) (id : Bytes) : Option Socket :=
  (s.subscriber id).bind fun data ↦ if data.connected then s.kernel.socket data.sockfd else none

/-- What a client has of the server. -/
def view (s : State) (id : Bytes) : View where
  topics := s.topics id
  patterns := {path | s.trie.Holds path id}
  current := s.current id
  past := s.kernel.archive.filter fun sock ↦ sock.clientId = some id

/-- The name of the client whose turn it is in the loop over the clients. -/
def turn (s : State) : Option Bytes :=
  match s.place with
  | .clients i => (s.pollFds[i]?).bind fun entry ↦ s.clientName entry.fd
  | _ => none

/-- What of an event concerns a client. -/
def clientEvent (s : State) (id : Bytes) : Event → Option ClientEvent
  | .accept _ connection _ =>
    if connection.presentedId = some id then some (.connect connection) else none
  | .client stack => if s.turn = some id then some (.read stack) else none
  | .datagram datagram stale _ => some (.datagram datagram stale)
  | _ => none

variable {s t : State} {id : Bytes} {fd : Fd}

/-- A live client is connected on its descriptor. -/
theorem current_of_live (h : s.Live id fd) : s.current id = s.kernel.socket fd := by
  obtain ⟨data, hd, hc, rfl⟩ := h
  rw [current, hd, Option.bind_some, if_pos hc]

/-- A client that is not live has no connection. -/
theorem current_of_not_connected (h : ¬ s.Connected id) : s.current id = none := by
  apply Option.bind_eq_none_iff.mpr
  intro data hd
  exact if_neg fun hc ↦ h ⟨data.sockfd, data, hd, hc, rfl⟩

private theorem current_congr (hlive : ∀ fd, t.Live id fd ↔ s.Live id fd)
    (hsock : ∀ fd, s.Live id fd → t.kernel.socket fd = s.kernel.socket fd) :
    t.current id = s.current id := by
  by_cases hc : s.Connected id
  · obtain ⟨fd, hl⟩ := hc
    rw [current_of_live hl, current_of_live ((hlive fd).mpr hl), hsock fd hl]
  · have hc' : ¬ t.Connected id := by
      rintro ⟨fd, hl⟩
      exact hc ⟨fd, (hlive fd).mp hl⟩
    rw [current_of_not_connected hc, current_of_not_connected hc']

private theorem live_congr (h : t.subscriber id = s.subscriber id) (fd : Fd) :
    t.Live id fd ↔ s.Live id fd := by
  rw [Live, Live, h]

private theorem topics_congr (h : t.subscriber id = s.subscriber id) :
    t.topics id = s.topics id := by
  rw [topics, topics, h]

private theorem view_congr (hsub : t.subscriber id = s.subscriber id)
    (htrie : ∀ path, t.trie.Holds path id ↔ s.trie.Holds path id)
    (hsock : ∀ fd, s.Live id fd → t.kernel.socket fd = s.kernel.socket fd)
    (hpast : (t.view id).past = (s.view id).past) : t.view id = s.view id := by
  apply View.ext
  · exact topics_congr hsub
  · exact Set.ext htrie
  · exact current_congr (live_congr hsub) hsock
  · exact hpast

end State

/-- At the start every client has the view of the start. -/
theorem State.view_initial (udpfd listenfd : Fd) (id : Bytes) :
    (State.initial udpfd listenfd).view id = .initial := by
  apply View.ext
  · rfl
  · exact Set.eq_empty_of_forall_notMem fun path ↦ TopicTrie.not_holds_new path id
  · rfl
  · rfl

/-- Where a client is read from, the turn is this client's. -/
theorem Reading.turn {s : State} {i : Nat} {fd : Fd} {id : Bytes} {data : SubscriberData}
    {sock : Socket} (h : Reading s i fd id data sock) : s.turn = some id := by
  obtain ⟨entry, he, rfl, -⟩ := h.entry
  rw [State.turn, h.place]
  dsimp only
  rw [he]
  exact h.name

/-- The client that is read from is live on the descriptor that is read. -/
theorem Reading.live {s : State} {i : Nat} {fd : Fd} {id : Bytes} {data : SubscriberData}
    {sock : Socket} (h : Reading s i fd id data sock) : s.Live id fd :=
  ⟨data, h.subscriber, h.connected, h.sockfd⟩

namespace Sessions

variable {s t : State} {i : Nat} {fd : Fd} {id : Bytes} {data : SubscriberData} {sock : Socket}

private theorem ne_of_live (h : Sessions s) (hl : s.Live id fd) {other : Bytes} {fd' : Fd}
    (ho : s.Live other fd') (hne : id ≠ other) : fd ≠ fd' := by
  rintro rfl
  exact hne (h.live_unique hl ho)

private theorem ne_of_closed (h : Sessions s) (hclosed : s.kernel.socket fd = none) {fd' : Fd}
    (hl : s.Live id fd') : fd ≠ fd' := by
  rintro rfl
  obtain ⟨sock, hs, -⟩ := h.serves.socket_of_name ((h.named _ _).mpr hl)
  rw [hs] at hclosed
  cases hclosed

private theorem view_update (h : Sessions s) (hr : Reading s i fd id data sock)
    {topics : Finset Bytes} {later : Socket}
    (hsub : ∀ other, t.subscriber other =
      if id = other then some { data with topics := topics } else s.subscriber other)
    (htrie : ∀ path other, id ≠ other → (t.trie.Holds path other ↔ s.trie.Holds path other))
    (hkernel : t.kernel = s.kernel.install fd later) :
    (∀ other, id ≠ other → t.view other = s.view other) ∧
      t.view id = ⟨topics, {path | t.trie.Holds path id}, some later, (s.view id).past⟩ := by
  have harchive : t.kernel.archive = s.kernel.archive := by rw [hkernel]; rfl
  constructor
  · intro other hne
    have hsame : t.subscriber other = s.subscriber other := by rw [hsub, if_neg hne]
    refine State.view_congr hsame (fun path ↦ htrie path other hne) (fun fd' hl ↦ ?_) ?_
    · rw [hkernel, Kernel.socket_install, if_neg (h.ne_of_live hr.live hl hne)]
    · rw [State.view, harchive]
      rfl
  · have hself : t.subscriber id = some { data with topics := topics } := by
      rw [hsub, if_pos rfl]
    apply View.ext
    · exact State.topics_of_subscriber hself
    · rfl
    · have hl : t.Live id fd := ⟨_, hself, hr.connected, hr.sockfd⟩
      rw [State.view, State.current_of_live hl, hkernel, Kernel.socket_install, if_pos rfl]
    · rw [State.view, harchive]
      rfl

/-- A forwarded datagram is seen by the clients with a matching pattern; only where a send
fails can one of them be left out. -/
theorem view_route (h : Sessions s) {datagram : Datagram} {stale : MessageBuffer}
    {order : List Bytes} (hn : order.Nodup)
    (ho : order.toFinset = s.trie.findSubscribers (topicStr (receivedMessage datagram stale)))
    (id : Bytes) (hsub : t.subscribers = s.subscribers) (htrie : t.trie = s.trie)
    (hkernel : t.kernel = (s.kernel.sendEach (.message (messageResponse datagram stale))
      (recipients s.subscribers order)).1) :
    t.view id = (s.view id).advance id (.datagram datagram stale) ∨
      ¬ s.kernel.SendsSucceed ∧ t.view id = s.view id := by
  have hsame : t.subscriber id = s.subscriber id := by rw [State.subscriber, hsub, State.subscriber]
  have htopics := State.topics_congr hsame
  have hpatterns : {path | t.trie.Holds path id} = {path | s.trie.Holds path id} := by rw [htrie]
  have hpast : t.kernel.archive = s.kernel.archive := by
    rw [hkernel, Kernel.archive_sendEach]
  have hnodup := h.nodup_recipients hn
  obtain ⟨hother, hgets⟩ := s.kernel.socket_sendEach_cases
    (.message (messageResponse datagram stale)) hnodup
  have hmem : id ∈ order ↔ ∃ path ∈ (s.view id).patterns,
      PatternMatches path (splitTopic (topicStr (receivedMessage datagram stale))) := by
    rw [← List.mem_toFinset, ho, State.mem_findSubscribers_iff]
    rfl
  -- Everything but the current connection is as it was.
  have hview (current : Option Socket) (hc : t.current id = current) :
      t.view id = { s.view id with current := current } := by
    apply View.ext htopics hpatterns hc
    rw [State.view, hpast]
    rfl
  rw [View.advance, View.forward]
  by_cases hc : s.Connected id
  · obtain ⟨fd, hl⟩ := hc
    have hcurrent : (s.view id).current = s.kernel.socket fd := State.current_of_live hl
    have hafter := State.current_of_live ((State.live_congr hsame fd).mpr hl)
    rw [hkernel] at hafter
    split
    · next hm =>
      obtain hs | ⟨hk, hs⟩ := hgets id fd (mem_recipients.mpr ⟨hmem.mpr hm, hl⟩)
      · exact .inl (hview _ (by rw [hafter, hs, hcurrent]))
      · refine .inr ⟨fun hsucceed ↦ ?_, hview _ (by rw [hafter, hs]; exact hcurrent.symm)⟩
        have halive := (Kernel.sendEach_of_succeed (.message (messageResponse datagram stale))
          hsucceed hnodup fun _ hm ↦ h.isSome_of_recipient hm).1
        rw [hk] at halive
        cases halive
    · next hm =>
      have hnot : fd ∉ (recipients s.subscribers order).map Prod.snd := by
        intro hr
        obtain ⟨⟨other, fd'⟩, hr, he⟩ := List.mem_map.mp hr
        obtain ⟨hin, hlo⟩ := mem_recipients.mp hr
        have hid : id = other := h.live_unique hl (he ▸ hlo)
        exact hm (hmem.mp (hid ▸ hin))
      exact .inl (hview _ (by rw [hafter, hother fd hnot]; exact hcurrent.symm))
  · have hc' : ¬ t.Connected id := by
      rintro ⟨fd, hl⟩
      exact hc ⟨fd, (State.live_congr hsame fd).mp hl⟩
    have hcurrent : (s.view id).current = none := State.current_of_not_connected hc
    have hafter := State.current_of_not_connected hc'
    left
    split
    · exact hview _ (by rw [hafter, hcurrent]; rfl)
    · exact hview _ (by rw [hafter]; exact hcurrent.symm)

private theorem view_disconnect (h : Sessions s) (hr : Reading s i fd id data sock) {later : Socket}
    (hid : later.clientId = some id)
    (hsub : ∀ other, t.subscriber other =
      if id = other then some { data with connected := false } else s.subscriber other)
    (htrie : t.trie = s.trie) (hkernel : t.kernel = (s.kernel.install fd later).close fd) :
    (∀ other, id ≠ other → t.view other = s.view other) ∧ t.view id = (s.view id).leave later := by
  have hopen : (s.kernel.install fd later).socket fd = some later := by
    rw [Kernel.socket_install, if_pos rfl]
  have harchive : t.kernel.archive = s.kernel.archive ++ [later] := by
    rw [hkernel, Kernel.archive_close hopen, Kernel.archive_install]
  constructor
  · intro other hne
    have hsame : t.subscriber other = s.subscriber other := by rw [hsub, if_neg hne]
    refine State.view_congr hsame (fun path ↦ by rw [htrie]) (fun fd' hl ↦ ?_) ?_
    · have hfd := h.ne_of_live hr.live hl hne
      rw [hkernel, Kernel.socket_close, if_neg hfd, Kernel.socket_install, if_neg hfd]
    · simp [State.view, harchive, List.filter_append, hid, hne]
  · have hself : t.subscriber id = some { data with connected := false } := by
      rw [hsub, if_pos rfl]
    apply View.ext
    · exact (State.topics_of_subscriber hself).trans (State.topics_of_subscriber hr.subscriber).symm
    · rw [State.view, htrie]
      rfl
    · apply State.current_of_not_connected
      rintro ⟨fd', found, hf, hc, -⟩
      cases hself.symm.trans hf
      cases hc
    · simp [State.view, View.leave, harchive, List.filter_append, hid]

private theorem view_connect (h : Sessions s) (hclosed : s.kernel.socket fd = none) {later : Socket}
    (hsub : ∀ other, t.subscriber other =
      if id = other then some ⟨true, fd, s.topics id⟩ else s.subscriber other)
    (htrie : t.trie = s.trie) (hkernel : t.kernel = s.kernel.accept fd later) :
    (∀ other, id ≠ other → t.view other = s.view other) ∧
      t.view id = { s.view id with current := some later } := by
  have harchive : t.kernel.archive = s.kernel.archive := by rw [hkernel]; rfl
  have hpast (other : Bytes) : (t.view other).past = (s.view other).past := by
    rw [State.view, harchive]
    rfl
  constructor
  · intro other hne
    have hsame : t.subscriber other = s.subscriber other := by rw [hsub, if_neg hne]
    refine State.view_congr hsame (fun path ↦ by rw [htrie]) (fun fd' hl ↦ ?_) (hpast other)
    rw [hkernel, Kernel.socket_accept, if_neg (h.ne_of_closed hclosed hl)]
  · have hself : t.subscriber id = some ⟨true, fd, s.topics id⟩ := by rw [hsub, if_pos rfl]
    have hl : t.Live id fd := ⟨_, hself, rfl, rfl⟩
    apply View.ext
    · exact State.topics_of_subscriber hself
    · rw [State.view, htrie]
      rfl
    · rw [State.view, State.current_of_live hl, hkernel, Kernel.socket_accept, if_pos rfl]
    · exact hpast id

private theorem view_refuse (h : Sessions s) (hclosed : s.kernel.socket fd = none) {sock : Socket}
    (hid : sock.clientId = none) (hsub : t.subscribers = s.subscribers) (htrie : t.trie = s.trie)
    (hkernel : t.kernel = (s.kernel.accept fd sock).close fd) (id : Bytes) :
    t.view id = s.view id := by
  have hopen : (s.kernel.accept fd sock).socket fd = some sock := by
    rw [Kernel.socket_accept, if_pos rfl]
  have harchive : t.kernel.archive = s.kernel.archive ++ [sock] := by
    rw [hkernel, Kernel.archive_close hopen, Kernel.archive_accept]
  have hsame : t.subscriber id = s.subscriber id := by rw [State.subscriber, hsub, State.subscriber]
  refine State.view_congr hsame (fun path ↦ by rw [htrie]) (fun fd' hl ↦ ?_) ?_
  · have hfd := h.ne_of_closed hclosed hl
    rw [hkernel, Kernel.socket_close, if_neg hfd, Kernel.socket_accept, if_neg hfd]
  · simp [State.view, harchive, List.filter_append, hid]

/-- A connection that presents the id of no connected client is not refused. -/
theorem connected_of_refused (h : Sessions s) {connection : Connection} {revents : Bool}
    (hs : s.step (.accept fd connection revents) = some t)
    (hname : t.connectedSubscribers = s.connectedSubscribers)
    (hid : connection.presentedId = some id) : s.Connected id := by
  obtain ⟨⟨-, -, hopen⟩, hs⟩ := Option.ite_none_right_eq_some.mp hs
  obtain ⟨u, hu, rfl⟩ := Option.map_eq_some_iff.mp hs
  have hnone := h.name_of_not_open hopen
  unfold Connection.presentedId at hid
  split at hid
  · next data inbox hr =>
    obtain rfl := Option.some.inj hid
    simp only [State.connectNewClient, hr] at hu
    split at hu
    · next hc =>
      obtain ⟨found, hf, hc⟩ := (Option.any_eq_true _ _).mp hc
      exact ⟨found.sockfd, found, hf, hc, rfl⟩
    · cases hu
      -- A client that is registered has a name.
      have hf := UnorderedMap.find_set s.connectedSubscribers fd fd (connectingId data)
      rw [if_pos rfl, show UnorderedMap.set _ _ _ = _ from hname] at hf
      rw [State.clientName, hf] at hnone
      cases hnone
  · cases hid

private theorem view_reading (hr : Reading s i fd id data sock) {stack : Bytes}
    (hview : (∀ other, id ≠ other → t.view other = s.view other) ∧
      t.view id = (s.view id).read id sock stack) (other : Bytes) :
    t.view other =
      (s.clientEvent other (.client stack)).elim (s.view other) ((s.view other).advance other) := by
  rw [State.clientEvent, hr.turn]
  by_cases hne : id = other
  · subst hne
    have hcurrent : (s.view id).current = some sock :=
      (State.current_of_live hr.live).trans hr.socket
    rw [if_pos rfl, Option.elim_some, View.advance, hcurrent]
    exact hview.2
  · rw [if_neg (by simpa using hne)]
    exact hview.1 other hne

private theorem view_connecting {connection : Connection} {revents : Bool}
    (hid : connection.presentedId = some id)
    (hview : (∀ other, id ≠ other → t.view other = s.view other) ∧
      t.view id = (s.view id).accept id connection) (other : Bytes) :
    t.view other = (s.clientEvent other (.accept fd connection revents)).elim (s.view other)
      ((s.view other).advance other) := by
  rw [State.clientEvent, hid]
  by_cases hne : id = other
  · subst hne
    rw [if_pos rfl, Option.elim_some, View.advance]
    exact hview.2
  · rw [if_neg (by simpa using hne)]
    exact hview.1 other hne

/-- A step other than the handling of a datagram is, for every id, a step of its client, or none
where it does not concern this id. -/
theorem view_step_of_ne (h : Sessions s) {event : Event} (hs : s.step event = some t)
    (hne : ∀ datagram stale order, event ≠ .datagram datagram stale order) (id : Bytes) :
    t.view id = (s.clientEvent id event).elim (s.view id) ((s.view id).advance id) := by
  cases h.move hs with
  | typed hleft hclosed => rfl
  | stdinClosed hleft => rfl
  | command hplace hread => rfl
  | idle hevent hfds hleft hphase hposition => cases event <;> first | rfl | cases hevent
  | die hevent => obtain rfl | rfl := hevent <;> rfl
  | route hplace hnodup horder hsent => exact absurd rfl (hne _ _ _)
  | @refuse fd connection revents inbox stdout hplace hopen =>
    have hclosed : s.kernel.socket fd = none := by simpa using (not_or.mp hopen).2
    apply Eq.trans (b := s.view id)
    · have hid : (connection.socket inbox).clientId = none := rfl
      refine h.view_refuse hclosed hid ?_ ?_ ?_ id <;> rfl
    · rw [State.clientEvent]
      split
      · next hid =>
        obtain ⟨fd', hl⟩ := h.connected_of_refused hs rfl hid
        obtain ⟨sock, hsock, -⟩ := h.serves.socket_of_name ((h.named _ _).mpr hl)
        have hcurrent : (s.view id).current = some sock := (State.current_of_live hl).trans hsock
        simp [View.advance, View.accept, hcurrent]
      · rfl
  | @connect fd connection revents data inbox stdout hplace hopen hread hfree =>
    have hclosed : s.kernel.socket fd = none := by simpa using (not_or.mp hopen).2
    have hpresented : connection.presentedId = some (connectingId data) := by
      rw [Connection.presentedId, hread]
    apply view_connecting hpresented
    refine And.imp_right (fun he ↦ he.trans ?_)
      (h.view_connect hclosed (fun other ↦ ?_) rfl rfl)
    · simp only [State.subscriber, UnorderedMap.find_set, UnorderedMap.find_index]
      split <;> rfl
    · have hcurrent : (s.view (connectingId data)).current = none :=
        State.current_of_not_connected hfree
      simp only [View.accept, hcurrent, hread]
  | @ignore i fd other data sock stack bytes inbox hreading hrecv hlength hnone =>
    apply view_reading hreading
    refine And.imp_right (fun he ↦ he.trans ?_) (h.view_update hreading
      (fun _ ↦ UnorderedMap.find_set _ _ _ _) (fun _ _ _ ↦ Iff.rfl) rfl)
    have hself := State.topics_of_subscriber hreading.subscriber
    have hchange := requestedChange_eq_none hnone
    rw [View.read_of_whole hrecv hlength, View.process]
    simp only [State.view, hchange, hself]
  | @act i fd other data sock stack bytes inbox change sent hreading hrecv hlength hrequested
      hsent =>
    subst hsent
    apply view_reading hreading
    refine And.imp_right (fun he ↦ he.trans ?_) (h.view_update hreading
      (fun _ ↦ UnorderedMap.find_set _ _ _ _)
      (fun path _ hne ↦ change.holds_onTrie_of_ne s.trie hne path) rfl)
    have hself := State.topics_of_subscriber hreading.subscriber
    have hchange := requestedChange_eq_some_iff.mpr hrequested
    rw [View.read_of_whole hrecv hlength, View.process]
    simp only [State.view, hchange, hself]
    rw [change.patterns_onTrie]
  | @short i fd other data sock stack result inbox hreading hrecv hresult =>
    apply view_reading hreading
    have hsub (other' : Bytes) : s.subscriber other' =
        if other = other' then some { data with topics := data.topics }
        else s.subscriber other' := by
      split
      · next he => exact he ▸ hreading.subscriber
      · rfl
    refine And.imp_right (fun he ↦ he.trans ?_)
      (h.view_update hreading hsub (fun _ _ _ ↦ Iff.rfl) rfl)
    rw [View.read_of_short hrecv hresult]
    simp only [State.view, State.topics_of_subscriber hreading.subscriber]
  | @disconnect i fd other data sock stack result inbox hreading hrecv hresult =>
    apply view_reading hreading
    have hid : (sock.consume inbox).clientId = some other := (h.serves_read hreading).1
    refine And.imp_right (fun he ↦ he.trans ?_) (h.view_disconnect hreading hid
      (fun _ ↦ UnorderedMap.find_set _ _ _ _) rfl rfl)
    rw [View.read_of_end hrecv hresult]

/-- A step of the server is, for every id, a step of its client, or none where it does not
concern this id. Only where a send fails a client can miss a message. -/
theorem view_step (h : Sessions s) {event : Event} (hs : s.step event = some t) (id : Bytes) :
    t.view id = (s.clientEvent id event).elim (s.view id) ((s.view id).advance id) ∨
      ¬ s.kernel.SendsSucceed ∧ t.view id = s.view id := by
  cases event with
  | datagram datagram stale order =>
    cases h.move hs with
    | route hplace hnodup horder hsent =>
      subst hsent
      exact h.view_route hnodup horder id rfl rfl rfl
    | idle hevent => cases hevent
    | die hevent => simp at hevent
  | _ => exact .inl (h.view_step_of_ne hs (by simp) id)

/-- Where sends succeed, a step of the server is a step of every client. -/
theorem view_of_succeed (h : Sessions s) (hsend : s.kernel.SendsSucceed) {event : Event}
    (hs : s.step event = some t) (id : Bytes) :
    t.view id = (s.clientEvent id event).elim (s.view id) ((s.view id).advance id) := by
  obtain he | ⟨hf, -⟩ := h.view_step hs id
  · exact he
  · exact absurd hsend hf

end Sessions
end Broker.Server
