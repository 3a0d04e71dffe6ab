import Broker.Server.Sessions

/-!
# Routing a datagram

Which connections a datagram is written to. The trie gives every id with a matching
pattern once, the tables give every connected id one open descriptor, and different ids
have different descriptors.
-/

namespace Broker.Server
open Broker.Base Broker.Net Broker.Topic

namespace Sessions

variable {s : State}

/-- A live id is recorded under its descriptor only. -/
theorem live_unique (h : Sessions s) {id other : Bytes} {fd : Fd} (hl : s.Live id fd)
    (ho : s.Live other fd) : id = other :=
  Option.some.inj (((h.named fd id).mpr hl).symm.trans ((h.named fd other).mpr ho))

/-- Different recipients have different descriptors. -/
theorem nodup_recipients (h : Sessions s) {order : List Bytes} (hn : order.Nodup) :
    ((recipients s.subscribers order).map Prod.snd).Nodup := by
  induction order with
  | nil => exact List.nodup_nil
  | cons id order ih =>
    obtain ⟨hfresh, hn⟩ := List.nodup_cons.mp hn
    rw [recipients, List.filterMap_cons]
    split
    · exact ih hn
    · next target ht =>
      obtain ⟨data, hd, ht⟩ := Option.bind_eq_some_iff.mp ht
      obtain ⟨hc, ht⟩ := Option.ite_none_right_eq_some.mp ht
      obtain rfl := Option.some.inj ht
      refine List.nodup_cons.mpr ⟨fun hm ↦ ?_, ih hn⟩
      obtain ⟨⟨other, fd⟩, hm, rfl⟩ := List.mem_map.mp hm
      obtain ⟨ho, hl⟩ := mem_recipients.mp hm
      have hid : id = other := h.live_unique ⟨data, hd, hc, rfl⟩ hl
      exact hfresh (hid ▸ ho)

/-- Every recipient has an open connection. -/
theorem isSome_of_recipient (h : Sessions s) {order : List Bytes} {target : Bytes × Fd}
    (hm : target ∈ recipients s.subscribers order) : (s.kernel.socket target.2).isSome := by
  obtain ⟨-, hl⟩ := mem_recipients.mp hm
  obtain ⟨sock, hs, -⟩ := h.serves.socket_of_name ((h.named _ _).mpr hl)
  rw [hs]
  rfl

/-- Where sends succeed a datagram is forwarded to its recipients, and the loop goes on with
everything else as it was. -/
theorem step_datagram (h : Sessions s) (hs : s.kernel.SendsSucceed) (hplace : s.place = .udp)
    (hready : s.ready udpPollfdIdx = true) {datagram : Datagram} {stale : MessageBuffer}
    {order : List Bytes} (hn : order.Nodup)
    (ho : order.toFinset = s.trie.findSubscribers (topicStr (receivedMessage datagram stale))) :
    s.step (.datagram datagram stale order) = some { s with
      kernel := (s.kernel.sendEach (.message (messageResponse datagram stale))
        (recipients s.subscribers order)).1 } := by
  have hfound : ∀ id ∈ order, (UnorderedMap.find s.subscribers id).isSome := by
    intro id hm
    rw [← List.mem_toFinset, ho] at hm
    exact h.isSome_of_mem_findSubscribers hm
  have halive := (Kernel.sendEach_of_succeed (.message (messageResponse datagram stale)) hs
    (h.nodup_recipients hn) fun _ hm ↦ h.isSome_of_recipient hm).1
  have hsend : sendMsgToAllSubs order (topicStr (messageResponse datagram stale).msg)
      (messageResponse datagram stale) s.subscribers s.trie s.kernel = some (s.subscribers,
        s.kernel.sendEach (.message (messageResponse datagram stale))
          (recipients s.subscribers order)) := by
    rw [sendMsgToAllSubs, if_pos ⟨hn, ho⟩, sendLoop_eq _ _ hfound]
  simp only [State.step, hplace, hready, and_self, ↓reduceIte, State.receiveDatagram]
  rw [hsend, Option.map_some, halive, ← hplace]
  rfl

end Sessions

/-- An id holds a pattern that matches a topic. -/
def State.Subscribed (s : State) (topic id : Bytes) : Prop :=
  ∃ path, s.trie.Holds path id ∧ PatternMatches path (splitTopic topic)

/-- The ids found for a topic are those that hold a matching pattern. -/
theorem State.mem_findSubscribers_iff {s : State} {topic id : Bytes} :
    id ∈ s.trie.findSubscribers topic ↔ s.Subscribed topic id :=
  TopicTrie.mem_findSubscribers ..

/-- Handling a datagram where sends succeed: each connected client that holds a matching
pattern gets one whole frame on its current connection, nothing else is written anywhere,
and nothing else of the server changes, for every order in which the ids are traversed. -/
theorem datagram_routed {udpfd listenfd : Fd} {s : State} (h : Reachable udpfd listenfd s)
    (hs : s.kernel.SendsSucceed) (hplace : s.place = .udp) (hready : s.ready udpPollfdIdx = true)
    (datagram : Datagram) (stale : MessageBuffer) {order : List Bytes} (hn : order.Nodup)
    (ho : order.toFinset = s.trie.findSubscribers (topicStr (receivedMessage datagram stale))) :
    let topic := topicStr (receivedMessage datagram stale)
    let frame := Frame.message ⟨datagram.source, receivedMessage datagram stale⟩
    ∃ kernel, s.step (.datagram datagram stale order) = some { s with kernel := kernel } ∧
      (∀ id fd, s.Live id fd → s.Subscribed topic id → ∃ sock answers,
        s.kernel.socket fd = some sock ∧
          kernel.socket fd = some (sock.record ⟨id, frame, frame.encode⟩ answers)) ∧
      (∀ fd, (¬ ∃ id, s.Live id fd ∧ s.Subscribed topic id) →
        kernel.socket fd = s.kernel.socket fd) ∧
      kernel.archive = s.kernel.archive ∧ kernel.stray = [] := by
  intro topic frame
  have hsessions := Sessions.of_reaches h
  have hmem (id : Bytes) : id ∈ order ↔ s.Subscribed topic id := by
    rw [← List.mem_toFinset, ho, State.mem_findSubscribers_iff]
  have hnodup := hsessions.nodup_recipients hn
  obtain ⟨halive, hgets⟩ := Kernel.sendEach_of_succeed frame hs hnodup
    fun _ hm ↦ hsessions.isSome_of_recipient hm
  refine ⟨(s.kernel.sendEach frame (recipients s.subscribers order)).1,
    hsessions.step_datagram hs hplace hready hn ho, ?_, ?_, Kernel.archive_sendEach _ _ _,
    (hsessions.serves_route frame order).stray⟩
  · intro id fd hl hsub
    exact hgets id fd (mem_recipients.mpr ⟨(hmem id).mpr hsub, hl⟩)
  · intro fd hnot
    refine (Kernel.socket_sendEach frame s.kernel hnodup halive).1 fd fun hm ↦ hnot ?_
    obtain ⟨⟨id, other⟩, hrecipient, rfl⟩ := List.mem_map.mp hm
    obtain ⟨hid, hl⟩ := mem_recipients.mp hrecipient
    exact ⟨id, hl, (hmem id).mp hid⟩

/-- A client holds `a` and `+`, and a datagram is about to be received. -/
def overlapRun : List Event :=
  joinRound 4 5 0 (simpleClient 65 [simpleRequest 0 [97], simpleRequest 0 [43]] []) ++
    visitRound 5 0 ++ [.client [], .client [], .client [], .proceed, .poll (· == 3), .proceed]

/-- A datagram for the topic `a`. -/
def simpleDatagram : Datagram := ⟨97 :: List.replicate 60 0, localAddress 81⟩

/-- Memory that happens to be zero. -/
def zeroBuffer : MessageBuffer := ⟨List.replicate sizeofMessage 0, List.length_replicate⟩

/-- Two matching patterns of one client make for one frame. -/
theorem datagram_routed_overlapRun : ∃ s kernel sock answers,
    exec State.step (State.initial 3 4) overlapRun = some s ∧
    s.step (.datagram simpleDatagram zeroBuffer [[65]]) = some { s with kernel := kernel } ∧
    let frame := Frame.message ⟨simpleDatagram.source, receivedMessage simpleDatagram zeroBuffer⟩
    s.kernel.socket 5 = some sock ∧
      kernel.socket 5 = some (sock.record ⟨[65], frame, frame.encode⟩ answers) := by
  let topic := topicStr (receivedMessage simpleDatagram zeroBuffer)
  have hrun : (exec State.step (State.initial 3 4) overlapRun).any (fun s ↦ s.place = .udp ∧
      s.ready udpPollfdIdx = true ∧ s.clientName 5 = some [65] ∧
      s.trie.findSubscribers topic = {[65]} ∧
      s.kernel.sockets.map (·.2.answers) = [[]]) = true := by decide +kernel
  obtain ⟨s, hs, hplace, hready, hname, hfound, hanswers⟩ := exists_exec hrun
  have hr : Reachable 3 4 s := reaches_of_exec hs
  have hsend : s.kernel.SendsSucceed := Kernel.sendsSucceed_of_answers fun entry hm ↦ by
    have hm := List.mem_map_of_mem (f := fun entry : Fd × Socket ↦ entry.2.answers) hm
    rw [hanswers] at hm
    exact List.mem_singleton.mp hm
  obtain ⟨kernel, hstep, hgets, -⟩ := datagram_routed hr hsend hplace hready simpleDatagram
    zeroBuffer (List.nodup_singleton [65]) (by rw [hfound]; rfl)
  obtain ⟨sock, answers, hsock, hafter⟩ := hgets [65] 5
    (((Sessions.of_reaches hr).named 5 [65]).mp hname)
    (State.mem_findSubscribers_iff.mp (hfound ▸ Finset.mem_singleton_self _))
  exact ⟨s, kernel, sock, answers, hs, hstep, hsock, hafter⟩

end Broker.Server
