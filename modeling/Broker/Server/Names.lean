import Broker.Server.Loop
import Broker.Subscriber.Commands

/-!
# Names on their way to the server

A client id and a topic are copied into fields of fixed width by the subscriber and read back
as C strings by the server. What arrives is the part that fits the field: the first ten bytes
of an id and the first fifty of a topic. So exactly the names that fit survive, and names with
the same part in the field become one.
-/

namespace Broker.Server
open Broker.Base Broker.Net Broker.Topic
open Broker.Subscriber

/-- `client_id`, `subscriber.cpp:121–123`: the ten bytes the subscriber sends first. -/
def clientIdField (id : Bytes) : Bytes := strncpy id idLength

/-- The topic of a change. -/
def Change.topic : Change → Bytes
  | subscribe topic => topic
  | unsubscribe topic => topic

/-! ### Client ids -/

private theorem connectingId_clientIdField {id : Bytes} (h : (0 : UInt8) ∉ id) :
    connectingId (clientIdField id) = id.take idLength := by
  rw [connectingId, clientIdField]
  exact cString_strncpy h idLength []

private theorem data_of_clientIdField {id data : Bytes} {wire later : List Arrival}
    (hf : clientIdField id <+: payload wire)
    (h : recvall idLength wire = some (.complete data, later)) : data = clientIdField id := by
  obtain ⟨hl, hp⟩ := recvall_complete h
  have hd : data <+: payload wire := by
    rw [hp]
    exact List.prefix_append _ _
  apply List.IsPrefix.eq_of_length
  · apply List.prefix_of_prefix_length_le hd hf
    rw [hl, clientIdField, length_strncpy]
  · rw [hl, clientIdField, length_strncpy]

/-- A subscriber that is registered is registered under the part of its id that fits. -/
theorem registered_under_field {id : Bytes} {s t : State} {fd : Fd} {connection : Connection}
    {revents : Bool} (hid : (0 : UInt8) ∉ id) (hfresh : s.clientName fd = none)
    (hf : clientIdField id <+: payload connection.inbox)
    (ht : s.connectNewClient fd connection revents = some t) (hr : (t.clientName fd).isSome) :
    t.clientName fd = some (id.take idLength) ∧ t.Live (id.take idLength) fd := by
  obtain ⟨inbox, stdout, rfl⟩ | ⟨data, inbox, hread, -, rfl⟩ := State.connectNewClient_cases ht
  · rw [show State.clientName { s with kernel := _, stdout := stdout } fd = none from hfresh] at hr
    cases hr
  · rw [← connectingId_clientIdField hid, ← data_of_clientIdField hf hread]
    apply And.intro
    · simp [State.clientName]
    · exact ⟨_, by rw [State.subscriber, UnorderedMap.find_set, if_pos rfl], rfl, rfl⟩

/-! ### Topics -/

/-- The topic in a request is the part of the topic that fits, whatever lies behind. -/
theorem readCString_prepareRequest {topic : Bytes} (h : (0 : UInt8) ∉ topic) (operation : UInt8)
    (stack : Bytes) :
    readCString ((prepareRequest operation topic).topic ++ stack) =
      some (topic.take maxTopicLength) := by
  have hm : (0 : UInt8) ∈ (prepareRequest operation topic).topic ++ stack :=
    List.mem_append_left _ (List.mem_append_right _ List.mem_cons_self)
  rw [readCString, if_pos hm, prepareRequest, List.append_assoc]
  exact congrArg some (cString_strncpy h maxTopicLength stack)

/-- Requests for two topics are the same exactly when the parts that fit are. -/
theorem prepareRequest_eq_iff {a b : Bytes} (ha : (0 : UInt8) ∉ a) (hb : (0 : UInt8) ∉ b)
    (operation : UInt8) :
    prepareRequest operation a = prepareRequest operation b ↔
      a.take maxTopicLength = b.take maxTopicLength := by
  constructor
  · intro h
    have hr := readCString_prepareRequest ha operation []
    rw [h, readCString_prepareRequest hb operation []] at hr
    exact (Option.some.inj hr).symm
  · intro h
    have hc : strncpy a maxTopicLength = strncpy b maxTopicLength := by
      have hl := congrArg List.length h
      rw [List.length_take, List.length_take] at hl
      rw [strncpy, strncpy, h, show maxTopicLength - a.length = maxTopicLength - b.length by omega]
    simp only [prepareRequest, hc]

/-- The words of a command hold no NUL. -/
theorem zero_notMem_word {inputCommand word : Bytes}
    (h : word ∈ commandWords (cString inputCommand)) : (0 : UInt8) ∉ word := by
  intro hm
  have hz := List.mem_takeWhile_imp (mem_of_mem_tokens h hm)
  simp at hz

/-- The change that a sent command asks for is about the part of its second word that fits. -/
theorem topic_of_command {inputCommand word topic : Bytes} {more : List Bytes}
    {answers : List SendAnswer} {out : CommandOutcome} {stack : Bytes} {topics : Finset Bytes}
    {change : Change} (hw : commandWords (cString inputCommand) = word :: topic :: more)
    (h : processInputComand inputCommand answers = .ok out)
    (hl : out.written.length = sizeofSubcribeRequest)
    (hc : change.Requested (.decode out.written hl) stack topics) :
    change.topic = topic.take maxTopicLength := by
  have hm : topic ∈ commandWords (cString inputCommand) := by
    rw [hw]
    exact List.mem_cons_of_mem word List.mem_cons_self
  cases hr : out.request with
  | none =>
    rw [written_of_silent h hr] at hl
    cases hl
  | some request =>
    obtain ⟨word', topic', more', operation, hw', -, rfl, rfl⟩ := eq_sendRequest_of_request h hr
    obtain ⟨rfl, htail⟩ := List.cons.inj (hw.symm.trans hw')
    obtain ⟨rfl, -⟩ := List.cons.inj htail
    have hread := readCString_prepareRequest (zero_notMem_word hm) operation stack
    -- Fifty-two bytes are the whole request, and it is read back from them.
    have hwhole : SubcribeRequest.decode _ hl = prepareRequest operation topic := by
      have he := (prefix_of_sendall (prepareRequest operation topic).encode answers).eq_of_length
        (hl.trans (SubcribeRequest.length_encode _).symm)
      apply SubcribeRequest.encode_injective
      rw [SubcribeRequest.encode_decode]
      exact he
    rw [hwhole] at hc
    cases change with
    | subscribe found => exact Option.some.inj (hc.2.1.symm.trans hread)
    | unsubscribe found => exact Option.some.inj (hc.2.1.symm.trans hread)

/-- An id is registered as it was given exactly when it has at most ten bytes, and a topic is
stored or erased as it was given exactly when it has at most fifty. Two ids come to one
session, and two topics to one request, exactly when they agree in these first bytes. -/
theorem names_survive_iff {id id' topic topic' : Bytes} (hid : (0 : UInt8) ∉ id)
    (hid' : (0 : UInt8) ∉ id') (htopic : (0 : UInt8) ∉ topic) (htopic' : (0 : UInt8) ∉ topic') :
    (∀ (s t : State) (fd : Fd) (connection : Connection) (revents : Bool),
      s.clientName fd = none → clientIdField id <+: payload connection.inbox →
      s.connectNewClient fd connection revents = some t → (t.clientName fd).isSome →
        (t.clientName fd = some id ∧ t.Live id fd ↔ id.length ≤ 10)) ∧
    (∀ (inputCommand word : Bytes) (more : List Bytes) (answers : List SendAnswer)
      (out : CommandOutcome) (hl : out.written.length = sizeofSubcribeRequest) (stack : Bytes)
      (topics : Finset Bytes) (change : Change),
      commandWords (cString inputCommand) = word :: topic :: more →
      processInputComand inputCommand answers = .ok out →
      change.Requested (.decode out.written hl) stack topics →
        (change.topic = topic ↔ topic.length ≤ 50)) ∧
    (connectingId (clientIdField id) = connectingId (clientIdField id') ↔
      id.take 10 = id'.take 10) ∧
    ∀ operation, prepareRequest operation topic = prepareRequest operation topic' ↔
      topic.take 50 = topic'.take 50 := by
  refine ⟨?_, ?_, ?_, prepareRequest_eq_iff htopic htopic'⟩
  · intro s t fd connection revents hfresh hf ht hr
    obtain ⟨hname, hlive⟩ := registered_under_field hid hfresh hf ht hr
    rw [hname, Option.some.injEq, ← List.take_eq_self_iff (n := 10)]
    constructor
    · exact fun h ↦ h.1
    · exact fun h ↦ ⟨h, h ▸ hlive⟩
  · intro inputCommand word more answers out hl stack topics change hw h hc
    rw [topic_of_command hw h hl hc, ← List.take_eq_self_iff]
    rfl
  · rw [connectingId_clientIdField hid, connectingId_clientIdField hid']
    rfl

/-- The line `subscribe a`. -/
def shortCommand : Bytes := subscribeWord ++ [32, 97, 10, 0]

private theorem processInputComand_shortCommand : processInputComand shortCommand [] =
    .ok (sendRequest (prepareRequest operationSubscribe [97]) []) := by
  have hw : commandWords (cString shortCommand) = [subscribeWord, [97]] := by decide
  rw [processInputComand_of_words (by decide) (by rw [hw]; simp), hw]
  rfl

/-- The id `A` and the topic `a` survive. -/
theorem names_survive_shortCommand : ∃ t : State,
    (State.initial 3 4).connectNewClient 5 (simpleClient 65 [] []) false = some t ∧
    t.clientName 5 = some [65] ∧ t.Live [65] 5 ∧
    (∃ change : Change, change.Requested (prepareRequest operationSubscribe [97]) [] ∅ ∧
      change.topic = [97]) ∧
    connectingId (clientIdField [65]) ≠ connectingId (clientIdField [66]) ∧
    prepareRequest operationSubscribe [97] ≠ prepareRequest operationSubscribe [98] := by
  have hid : (0 : UInt8) ∉ [65] := by decide
  have hid' : (0 : UInt8) ∉ [66] := by decide
  have htopic : (0 : UInt8) ∉ [97] := by decide
  have htopic' : (0 : UInt8) ∉ [98] := by decide
  obtain ⟨hids, htopics, hsession, hrequest⟩ := names_survive_iff hid hid' htopic htopic'
  have hrun : ((State.initial 3 4).connectNewClient 5 (simpleClient 65 [] []) false).any
      (fun t ↦ (t.clientName 5).isSome) = true := by decide +kernel
  obtain ⟨t, ht, hr⟩ := (Option.any_eq_true _ _).mp hrun
  obtain ⟨hname, hlive⟩ := (hids _ t 5 _ false rfl
    (List.prefix_rfl : payload (simpleClient 65 [] []).inbox <+: _) ht hr).mpr (by decide)
  refine ⟨t, ht, hname, hlive, ⟨.subscribe [97], ⟨rfl, by decide, by decide⟩, ?_⟩, ?_, ?_⟩
  · exact (htopics shortCommand subscribeWord [] [] _ rfl [] ∅ (.subscribe [97]) (by decide)
      processInputComand_shortCommand ⟨rfl, by decide, by decide⟩).mpr (by decide)
  · exact fun h ↦ absurd (hsession.mp h) (by decide)
  · exact fun h ↦ absurd ((hrequest _).mp h) (by decide)

/-- Two ids of eleven bytes that differ in the last one, and two topics of fifty-one. -/
def longName (length : Nat) (last : UInt8) : Bytes := List.replicate length 97 ++ [last]

/-- A client with such an id is registered under the first ten bytes, the other id would come
to the same session, and requests for the two topics are one request. -/
theorem not_names_survive_longName : ∃ t : State,
    (State.initial 3 4).connectNewClient 5
      ⟨localAddress 80, [.segment 97 (List.replicate 9 97)], []⟩ false = some t ∧
    clientIdField (longName 10 97) = List.replicate 10 97 ∧
    t.clientName 5 = some (List.replicate 10 97) ∧ t.clientName 5 ≠ some (longName 10 97) ∧
    longName 10 97 ≠ longName 10 98 ∧
    connectingId (clientIdField (longName 10 97)) =
      connectingId (clientIdField (longName 10 98)) ∧
    longName 50 97 ≠ longName 50 98 ∧
    prepareRequest operationSubscribe (longName 50 97) =
      prepareRequest operationSubscribe (longName 50 98) ∧
    readCString (prepareRequest operationSubscribe (longName 50 97)).topic =
      some (List.replicate 50 97) := by
  have hrun : ((State.initial 3 4).connectNewClient 5
      ⟨localAddress 80, [.segment 97 (List.replicate 9 97)], []⟩ false).any
      (fun t ↦ t.clientName 5 = some (List.replicate 10 97)) = true := by decide +kernel
  obtain ⟨t, ht, hname⟩ := (Option.any_eq_true _ _).mp hrun
  obtain hname := of_decide_eq_true hname
  refine ⟨t, ht, by decide, hname, ?_, by decide, by decide, by decide, rfl, by decide⟩
  rw [hname]
  decide

end Broker.Server
