import Broker.Server.Routing
import Broker.Subscriber.Display

/-!
# Bytes that no datagram brought

`recvfrom` overwrites the front of the receive buffer only, and the length it returns is
dropped. What the recipients print is free of older bytes exactly for datagrams that bring
their type byte and all of the content their text is read from.
-/

namespace Broker.Server
open Broker.Base Broker.Net Broker.Topic Broker.Subscriber

namespace Datagram

/-- The bytes of a datagram that land in the content field. -/
def content (datagram : Datagram) : Bytes :=
  (datagram.payload.take sizeofMessage).drop (maxTopicLength + 1)

/-- A datagram brings its type byte and content that determines the text of this type. -/
def SelfContained (datagram : Datagram) : Prop :=
  ∃ dataType, datagram.payload[maxTopicLength]? = some dataType ∧
    ContentComplete dataType datagram.content

end Datagram

/-! ### The received message -/

/-- With a type byte the topic and the type are the datagram's own, and older bytes follow its
content. -/
theorem receivedMessage_of_typed {datagram : Datagram} {dataType : UInt8}
    (h : datagram.payload[maxTopicLength]? = some dataType) (stale : MessageBuffer) :
    (receivedMessage datagram stale).topic = datagram.payload.take maxTopicLength ∧
    (receivedMessage datagram stale).dataType = dataType ∧
    (receivedMessage datagram stale).content =
      datagram.content ++ stale.val.drop datagram.payload.length := by
  have hl : maxTopicLength < datagram.payload.length := (List.getElem?_eq_some_iff.mp h).1
  have hm : maxTopicLength < sizeofMessage := by decide
  have ht : maxTopicLength + 1 ≤ (datagram.payload.take sizeofMessage).length := by
    rw [List.length_take]
    omega
  refine ⟨?_, ?_, ?_⟩
  · simp only [receivedMessage, Message.decode, overlay]
    rw [List.take_append_of_le_length (by omega), List.take_take, Nat.min_eq_left hm.le]
  · refine Option.some.inj (Eq.trans ?_ h)
    simp only [receivedMessage, Message.decode, overlay]
    rw [← List.getElem?_eq_getElem, List.getElem?_append_left (by omega),
      List.getElem?_take_of_lt hm]
  · simp only [receivedMessage, Message.decode, overlay]
    rw [List.drop_append_of_le_length ht]
    rfl

private theorem topicStr_of_typed {datagram : Datagram} {dataType : UInt8}
    (h : datagram.payload[maxTopicLength]? = some dataType) (stale : MessageBuffer) :
    topicStr (receivedMessage datagram stale) =
      strnString (datagram.payload.take maxTopicLength) maxTopicLength := by
  rw [topicStr, (receivedMessage_of_typed h stale).1]

private theorem displayMessage_of_typed {datagram : Datagram} {dataType : UInt8}
    (h : datagram.payload[maxTopicLength]? = some dataType) (stale stale' : MessageBuffer)
    (behind behind' : Bytes) :
    displayMessage (messageResponse datagram stale) behind =
        displayMessage (messageResponse datagram stale') behind' ↔
      displayContent dataType
          (datagram.content ++ stale.val.drop datagram.payload.length ++ behind) =
        displayContent dataType
          (datagram.content ++ stale'.val.drop datagram.payload.length ++ behind') := by
  obtain ⟨ht, hd, hc⟩ := receivedMessage_of_typed h stale
  obtain ⟨ht', hd', hc'⟩ := receivedMessage_of_typed h stale'
  have hs : (messageResponse datagram stale).source = (messageResponse datagram stale').source :=
    rfl
  rw [displayMessage_eq_iff hs (ht.trans ht'.symm) (hd.trans hd'.symm)]
  simp only [messageResponse, getDisplayedContent, hd, hc, hd', hc']

namespace Datagram

variable {datagram : Datagram}

private theorem SelfContained.topicStr_eq (h : datagram.SelfContained)
    (stale stale' : MessageBuffer) :
    topicStr (receivedMessage datagram stale) = topicStr (receivedMessage datagram stale') := by
  obtain ⟨dataType, hd, -⟩ := h
  rw [topicStr_of_typed hd, topicStr_of_typed hd]

/-- The line printed for a self-contained datagram does not depend on any memory. -/
theorem SelfContained.displayMessage_eq (h : datagram.SelfContained)
    (stale stale' : MessageBuffer) (behind behind' : Bytes) :
    displayMessage (messageResponse datagram stale) behind =
      displayMessage (messageResponse datagram stale') behind' := by
  obtain ⟨dataType, hd, hc⟩ := h
  rw [displayMessage_of_typed hd, List.append_assoc, List.append_assoc,
    displayContent_append hc, displayContent_append hc]

/-- Memory whose type byte is given and whose other bytes are zero. -/
def typedBuffer (dataType : UInt8) : MessageBuffer where
  val := List.replicate maxTopicLength 0 ++ dataType :: List.replicate maxContentLength 0
  property := by
    rw [List.length_append, List.length_cons, List.length_replicate, List.length_replicate]
    rfl

private theorem receivedMessage_of_untyped (h : datagram.payload.length ≤ maxTopicLength)
    (dataType : UInt8) :
    (receivedMessage datagram (typedBuffer dataType)).topic =
      datagram.payload ++ List.replicate (maxTopicLength - datagram.payload.length) 0 ∧
    (receivedMessage datagram (typedBuffer dataType)).dataType = dataType := by
  let topic := datagram.payload ++ List.replicate (maxTopicLength - datagram.payload.length) 0
  have hl : topic.length = maxTopicLength := by
    rw [List.length_append, List.length_replicate]
    omega
  have ho : (overlay datagram.payload (typedBuffer dataType)).val =
      topic ++ dataType :: List.replicate maxContentLength 0 := by
    have hm : maxTopicLength < sizeofMessage := by decide
    simp only [overlay, typedBuffer]
    rw [List.take_of_length_le (by omega), List.drop_append_of_le_length (by simpa using h),
      List.drop_replicate, List.append_assoc]
  constructor
  · simp only [receivedMessage, Message.decode, ho]
    exact List.take_left' hl
  · simp only [receivedMessage, Message.decode, ho]
    rw [List.getElem_append_right hl.le]
    simp [hl]

/-- For a datagram that is not self-contained the line printed depends on what the memory
holds: on the buffer of the server, or on what lies behind the packet at the subscriber. -/
theorem exists_displayMessage_ne (h : ¬ datagram.SelfContained) :
    ∃ (stale stale' : MessageBuffer) (behind behind' : Bytes),
      displayMessage (messageResponse datagram stale) behind ≠
        displayMessage (messageResponse datagram stale') behind' := by
  cases ht : datagram.payload[maxTopicLength]? with
  | none =>
    have hl := List.getElem?_eq_none_iff.mp ht
    obtain ⟨ht, hd⟩ := receivedMessage_of_untyped hl 4
    obtain ⟨ht', hd'⟩ := receivedMessage_of_untyped hl dataTypeInt
    have hs : (messageResponse datagram (typedBuffer 4)).source =
        (messageResponse datagram (typedBuffer dataTypeInt)).source := rfl
    exact ⟨typedBuffer 4, typedBuffer dataTypeInt, [], [],
      displayMessage_ne_of_invalid hs (ht.trans ht'.symm) hd hd' [] []⟩
  | some dataType =>
    have hl : maxTopicLength < datagram.payload.length := (List.getElem?_eq_some_iff.mp ht).1
    have hlength : datagram.content.length =
        min sizeofMessage datagram.payload.length - (maxTopicLength + 1) := by
      rw [content, List.length_drop, List.length_take]
    have hsize : sizeofMessage = maxTopicLength + 1 + maxContentLength := rfl
    have hc : ¬ ContentComplete dataType datagram.content := fun hc ↦ h ⟨dataType, ht, hc⟩
    obtain ⟨x, y, behind, behind', hx, hy, hne⟩ := exists_displayContent_ne (by omega) hc
    -- Old bytes that end in the given continuation of the content.
    have fill (z : Bytes) (hz : (datagram.content ++ z).length = maxContentLength) :
        ∃ stale : MessageBuffer, stale.val.drop datagram.payload.length = z := by
      rw [List.length_append] at hz
      refine ⟨⟨List.replicate (sizeofMessage - z.length) 0 ++ z, ?_⟩, ?_⟩
      · rw [List.length_append, List.length_replicate]
        omega
      · dsimp only
        rcases Nat.le_total datagram.payload.length sizeofMessage with hle | hle
        · rw [List.drop_append_of_le_length (by rw [List.length_replicate]; omega),
            List.drop_of_length_le (by rw [List.length_replicate]; omega), List.nil_append]
        · obtain rfl : z = [] := List.eq_nil_of_length_eq_zero (by omega)
          rw [List.append_nil, List.drop_of_length_le (by rw [List.length_replicate]; omega)]
    obtain ⟨stale, hs⟩ := fill x hx
    obtain ⟨stale', hs'⟩ := fill y hy
    refine ⟨stale, stale', behind, behind', fun he ↦ hne ?_⟩
    rw [displayMessage_of_typed ht, hs, hs'] at he
    exact he

end Datagram
/-! ### Runs of the UDP loop -/

/-- One turn of the UDP loop: the datagram received, what the buffer held before, the order in
which the ids found are traversed, and what lies behind the packet at each recipient. -/
structure Turn where
  datagram : Datagram
  stale : MessageBuffer
  order : List Bytes
  behind : Bytes → Bytes

namespace State

/-- The recipients of a datagram with the line each of them prints for it. -/
def printed (s : State) (turn : Turn) : Finset (Bytes × Option Bytes) :=
  ((recipients s.subscribers turn.order).map fun target ↦
    (target.1, displayMessage (messageResponse turn.datagram turn.stale)
      (turn.behind target.1))).toFinset

/-- What is printed for each datagram of a run of the UDP loop. -/
def observed (s : State) : List Turn → Option (List (Finset (Bytes × Option Bytes)))
  | [] => some []
  | turn :: rest => (s.step (.datagram turn.datagram turn.stale turn.order)).bind fun t ↦
    (t.observed rest).map (s.printed turn :: ·)

/-- For these datagrams it does not matter what the memories hold: any two runs of the UDP loop
print the same. -/
def Independent (s : State) (datagrams : List Datagram) : Prop :=
  ∀ first second : List Turn, first.map Turn.datagram = datagrams →
    second.map Turn.datagram = datagrams → ∀ lines lines', s.observed first = some lines →
      s.observed second = some lines' → lines = lines'

/-- Two states have the same recipients for every topic. -/
structure Alike (s t : State) : Prop where
  trie : t.trie = s.trie
  recipients : ∀ ids, recipients t.subscribers ids = recipients s.subscribers ids

variable {s s' t : State}

private theorem mem_printed {turn : Turn} {id : Bytes} {line : Option Bytes} :
    (id, line) ∈ s.printed turn ↔ (∃ fd, (id, fd) ∈ recipients s.subscribers turn.order) ∧
      displayMessage (messageResponse turn.datagram turn.stale) (turn.behind id) = line := by
  simp only [printed, List.mem_toFinset, List.mem_map, Prod.mk.injEq, Prod.exists]
  constructor
  · rintro ⟨other, fd, hm, rfl, hl⟩
    exact ⟨⟨fd, hm⟩, hl⟩
  · rintro ⟨⟨fd, hm⟩, hl⟩
    exact ⟨id, fd, hm, rfl, hl⟩

end State

private theorem recipients_index (subscribers : UnorderedMap Bytes SubscriberData) (id : Bytes)
    (ids : List Bytes) :
    recipients (UnorderedMap.index subscribers id .default).2 ids = recipients subscribers ids := by
  unfold recipients
  congr 1
  funext other
  rw [UnorderedMap.find_index]
  split
  · next he =>
    subst he
    cases UnorderedMap.find subscribers id <;> rfl
  · rfl

/-- Forwarding a message makes no recipient. -/
theorem recipients_sendLoop (response : MessageWithHeader) (order : List Bytes)
    (subscribers : UnorderedMap Bytes SubscriberData) (kernel : Kernel) (ids : List Bytes) :
    recipients (sendLoop response order subscribers kernel).1 ids = recipients subscribers ids := by
  induction order generalizing subscribers kernel with
  | nil => rfl
  | cons id order ih =>
    have hi := recipients_index subscribers id ids
    simp only [sendLoop]
    split
    · split
      · exact hi
      · exact (ih _ _).trans hi
    · exact (ih _ _).trans hi

namespace State

variable {s s' t : State}

private theorem alike_of_datagram {datagram : Datagram} {stale : MessageBuffer} {order : List Bytes}
    (h : s.step (.datagram datagram stale order) = some t) :
    order.toFinset = s.trie.findSubscribers (topicStr (receivedMessage datagram stale)) ∧
      s.Alike t := by
  obtain ⟨-, h⟩ := Option.ite_none_right_eq_some.mp h
  obtain ⟨result, hr, rfl⟩ := Option.map_eq_some_iff.mp h
  obtain ⟨⟨-, ho⟩, hr⟩ := Option.ite_none_right_eq_some.mp hr
  obtain rfl := Option.some.inj hr
  exact ⟨ho, rfl, recipients_sendLoop _ _ _ _⟩

private theorem printed_congr (h : s.Alike s') {turn turn' : Turn}
    (hd : turn'.datagram = turn.datagram) (hc : turn.datagram.SelfContained)
    (ho : turn.order.toFinset =
      s.trie.findSubscribers (topicStr (receivedMessage turn.datagram turn.stale)))
    (ho' : turn'.order.toFinset =
      s'.trie.findSubscribers (topicStr (receivedMessage turn'.datagram turn'.stale))) :
    s.printed turn = s'.printed turn' := by
  have horder (id : Bytes) : id ∈ turn.order ↔ id ∈ turn'.order := by
    rw [← List.mem_toFinset, ho, ← List.mem_toFinset, ho', h.trie, hd,
      hc.topicStr_eq turn.stale turn'.stale]
  ext ⟨id, line⟩
  rw [mem_printed, mem_printed, h.recipients, hd,
    hc.displayMessage_eq turn.stale turn'.stale (turn.behind id) (turn'.behind id)]
  simp only [mem_recipients, horder]

private theorem observed_congr {datagrams : List Datagram}
    (hc : ∀ datagram ∈ datagrams, datagram.SelfContained) (h : s.Alike s')
    {first second : List Turn} (hf : first.map Turn.datagram = datagrams)
    (hg : second.map Turn.datagram = datagrams)
    {lines lines' : List (Finset (Bytes × Option Bytes))} (hl : s.observed first = some lines)
    (hl' : s'.observed second = some lines') : lines = lines' := by
  induction datagrams generalizing s s' first second lines lines' with
  | nil =>
    obtain rfl := List.map_eq_nil_iff.mp hf
    obtain rfl := List.map_eq_nil_iff.mp hg
    exact Option.some.inj (hl.symm.trans hl')
  | cons datagram datagrams ih =>
    obtain ⟨turn, first, rfl, rfl, hfirst⟩ := List.map_eq_cons_iff.mp hf
    obtain ⟨turn', second, rfl, hd, hsecond⟩ := List.map_eq_cons_iff.mp hg
    obtain ⟨t, ht, hl⟩ := Option.bind_eq_some_iff.mp hl
    obtain ⟨t', ht', hl'⟩ := Option.bind_eq_some_iff.mp hl'
    obtain ⟨rest, hr, rfl⟩ := Option.map_eq_some_iff.mp hl
    obtain ⟨rest', hr', rfl⟩ := Option.map_eq_some_iff.mp hl'
    obtain ⟨ho, ha⟩ := alike_of_datagram ht
    obtain ⟨ho', ha'⟩ := alike_of_datagram ht'
    have halike : t.Alike t' :=
      ⟨ha'.trie.trans (h.trie.trans ha.trie.symm), fun ids ↦
        (ha'.recipients ids).trans ((h.recipients ids).trans (ha.recipients ids).symm)⟩
    rw [printed_congr h hd (hc _ List.mem_cons_self) ho ho',
      ih (fun d hm ↦ hc d (List.mem_cons_of_mem _ hm)) halike hfirst hsecond hr hr']

/-- The UDP loop is about to receive, sends succeed, and a connected client holds `*`. -/
structure Watching (s : State) (watcher : Bytes) : Prop where
  sessions : Sessions s
  place : s.place = .udp
  ready : s.ready udpPollfdIdx = true
  sends : s.kernel.SendsSucceed
  connected : s.Connected watcher
  holds : s.trie.Holds [star] watcher

variable {watcher : Bytes}

/-- Whoever holds `*` is found for every topic. -/
theorem Watching.found (h : s.Watching watcher) (topic : Bytes) :
    watcher ∈ s.trie.findSubscribers topic := by
  refine State.mem_findSubscribers_iff.mpr ⟨[star], h.holds, ?_⟩
  refine patternMatches_star_iff.mpr ⟨[], (List.mem_tails _ _).mpr List.nil_suffix, ?_⟩
  exact patternMatches_nil_iff.mpr rfl

private theorem Watching.step (h : s.Watching watcher) {turn : Turn} (hn : turn.order.Nodup)
    (ho : turn.order.toFinset =
      s.trie.findSubscribers (topicStr (receivedMessage turn.datagram turn.stale))) :
    ∃ kernel, s.step (.datagram turn.datagram turn.stale turn.order) =
      some { s with kernel := kernel } ∧ Watching { s with kernel := kernel } watcher := by
  have ht := h.sessions.step_datagram h.sends h.place h.ready hn ho
  exact ⟨_, ht, h.sessions.step ht, h.place, h.ready, h.sends.sendEach _ _, h.connected, h.holds⟩

/-- While somebody watches the UDP loop runs through any datagrams. -/
theorem Watching.observed (h : s.Watching watcher) {turns : List Turn}
    (horder : ∀ turn ∈ turns, turn.order.Nodup ∧ turn.order.toFinset =
      s.trie.findSubscribers (topicStr (receivedMessage turn.datagram turn.stale))) :
    s.observed turns = some (turns.map s.printed) := by
  induction turns generalizing s with
  | nil => rfl
  | cons turn turns ih =>
    obtain ⟨hn, ho⟩ := horder turn List.mem_cons_self
    obtain ⟨kernel, ht, hw⟩ := h.step hn ho
    have hrest := ih hw fun later hm ↦ horder later (List.mem_cons_of_mem _ hm)
    rw [State.observed, ht, Option.bind_some, hrest]
    rfl

/-- While somebody watches, datagrams that always print the same are self-contained. -/
theorem Watching.selfContained (h : s.Watching watcher) {datagrams : List Datagram}
    (hi : s.Independent datagrams) : ∀ datagram ∈ datagrams, datagram.SelfContained := by
  intro datagram hm
  by_contra hc
  obtain ⟨stale, stale', behind, behind', hne⟩ := Datagram.exists_displayMessage_ne hc
  let turn (stale : MessageBuffer) (behind : Bytes) (datagram : Datagram) : Turn :=
    ⟨datagram, stale, (s.trie.findSubscribers (topicStr (receivedMessage datagram stale))).toList,
      fun _ ↦ behind⟩
  -- One run over each pair of memories, with every datagram received over the same ones.
  have hrun (stale : MessageBuffer) (behind : Bytes) :
      s.observed (datagrams.map (turn stale behind)) =
        some ((datagrams.map (turn stale behind)).map s.printed) := by
    refine h.observed fun later hl ↦ ?_
    obtain ⟨received, -, rfl⟩ := List.mem_map.mp hl
    exact ⟨Finset.nodup_toList _, Finset.toList_toFinset _⟩
  have hmap (stale : MessageBuffer) (behind : Bytes) :
      (datagrams.map (turn stale behind)).map Turn.datagram = datagrams := by
    rw [List.map_map]
    exact List.map_id _
  have hlines := hi _ _ (hmap stale behind) (hmap stale' behind') _ _ (hrun stale behind)
    (hrun stale' behind')
  rw [List.map_map, List.map_map, List.map_inj_left] at hlines
  obtain ⟨fd, hl⟩ := h.connected
  have hprinted : (watcher, displayMessage (messageResponse datagram stale) behind) ∈
      s.printed (turn stale behind datagram) :=
    mem_printed.mpr ⟨⟨fd, mem_recipients.mpr ⟨Finset.mem_toList.mpr (h.found _), hl⟩⟩, rfl⟩
  rw [show s.printed (turn stale behind datagram) = s.printed (turn stale' behind' datagram) from
    hlines datagram hm] at hprinted
  exact hne (mem_printed.mp hprinted).2.symm

end State

/-- A client holds `*`, and a datagram is about to be received. -/
def watchingRun : List Event :=
  joinRound 4 5 0 (simpleClient 65 [simpleRequest 0 star] []) ++ visitRound 5 0 ++
    [.client [], .client [], .proceed, .poll (· == 3), .proceed]

/-- The server can be watched. -/
theorem exists_watching : ∃ s : State, Reachable 3 4 s ∧ s.Watching [65] := by
  have hrun : (exec State.step (State.initial 3 4) watchingRun).any (fun s ↦ s.place = .udp ∧
      s.ready udpPollfdIdx = true ∧ s.clientName 5 = some [65] ∧
      [65] ∈ s.trie.root.idsAt [star] ∧ ∀ entry ∈ s.kernel.sockets, entry.2.answers = []) =
      true := by decide +kernel
  obtain ⟨s, hs, hplace, hready, hname, hholds, hanswers⟩ := exists_exec hrun
  have hr : Reachable 3 4 s := reaches_of_exec hs
  have hsessions := Sessions.of_reaches hr
  exact ⟨s, hr, hsessions, hplace, hready, Kernel.sendsSucceed_of_answers hanswers,
    ⟨5, (hsessions.named 5 [65]).mp hname⟩, hholds⟩

/-- What is printed for datagrams is free of older bytes in every state of the server, for any
contents of the buffer and of the memory behind the packets and any orders of traversal,
exactly when each of them brings its type byte and the content that determines its text. It
makes no difference whether all states are considered or the reachable ones only. -/
theorem independent_iff_selfContained (datagrams : List Datagram) :
    ((∀ s : State, s.Independent datagrams) ↔ ∀ datagram ∈ datagrams, datagram.SelfContained) ∧
    ((∀ udpfd listenfd s, Reachable udpfd listenfd s → s.Independent datagrams) ↔
      ∀ datagram ∈ datagrams, datagram.SelfContained) := by
  have hsufficient (hc : ∀ datagram ∈ datagrams, datagram.SelfContained) (s : State) :
      s.Independent datagrams :=
    fun _ _ hf hg _ _ hl hl' ↦ State.observed_congr hc ⟨rfl, fun _ ↦ rfl⟩ hf hg hl hl'
  obtain ⟨s, hs, hw⟩ := exists_watching
  exact ⟨⟨fun hi ↦ hw.selfContained (hi s), hsufficient⟩,
    ⟨fun hi ↦ hw.selfContained (hi 3 4 s hs), fun hc _ _ s _ ↦ hsufficient hc s⟩⟩

/-- A string datagram of two characters without a terminator. -/
def shortDatagram : Datagram :=
  ⟨97 :: List.replicate 49 0 ++ dataTypeString :: ascii ['h', 'i'], localAddress 81⟩

/-- The buffer as the string `hello` for the same topic has left it. -/
def helloBuffer : MessageBuffer :=
  overlay (97 :: List.replicate 49 0 ++ dataTypeString :: ascii ['h', 'e', 'l', 'l', 'o'])
    zeroBuffer

/-- The last characters of `hello` are printed again behind `hi`. -/
theorem not_independent_shortDatagram :
    ∃ s, Reachable 3 4 s ∧ s.place = .udp ∧ ¬ s.Independent [shortDatagram] := by
  let turn (stale : MessageBuffer) : Turn := ⟨shortDatagram, stale, [[65]], fun _ ↦ []⟩
  have hrun : (exec State.step (State.initial 3 4) watchingRun).any (fun s ↦ s.place = .udp ∧
      (s.observed [turn zeroBuffer]).any (fun lines ↦
        (s.observed [turn helloBuffer]).any fun lines' ↦ lines ≠ lines') = true) = true := by
    decide +kernel
  obtain ⟨s, hs, hplace, hlines⟩ := exists_exec hrun
  obtain ⟨lines, hl, hlines⟩ := (Option.any_eq_true _ _).mp hlines
  obtain ⟨lines', hl', hne⟩ := (Option.any_eq_true _ _).mp hlines
  refine ⟨s, reaches_of_exec hs, hplace, fun hi ↦ of_decide_eq_true hne ?_⟩
  exact hi [turn zeroBuffer] [turn helloBuffer] rfl rfl lines lines' hl hl'

end Broker.Server
