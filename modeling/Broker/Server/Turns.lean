import Broker.Server.Bounds

/-!
# How a turn ends

What a new connection, and the turn of the loop at a client, leave of the names, of the entries
of `poll_fds` and of the place of the loop. Where sends succeed this depends on what arrives
alone; whether a turn comes to an end does not depend on the tables.
-/

namespace Broker.Server
open Broker.Base Broker.Net Broker.Topic

/-- How a turn of the loop at a client ends: at the same entry, at the next one, or with the end
of the connection. -/
inductive TurnEnd
  | again
  | next
  | gone

/-- The end of the turn at a client, by what is received from it. -/
def turnEnd (sock : Socket) : TurnEnd :=
  match (recv sizeofSubcribeRequest sock.inbox).1 with
  | .received bytes =>
    if bytes.length = sizeofSubcribeRequest then .again else if bytes = [] then .gone else .next
  | .error errno => if errno ≠ .again ∧ errno ≠ .wouldBlock then .gone else .next

/-- Behind a whole request the loop looks for another one. -/
theorem turnEnd_of_whole {sock : Socket} {bytes : Bytes} {inbox : List Arrival}
    (hrecv : recv sizeofSubcribeRequest sock.inbox = (.received bytes, inbox))
    (hlength : bytes.length = sizeofSubcribeRequest) : turnEnd sock = .again := by
  simp [turnEnd, hrecv, hlength]

/-- Where nothing has arrived, or too little for a request, the loop goes on to the next client. -/
theorem turnEnd_of_short {sock : Socket} {result : RecvResult} {inbox : List Arrival}
    (hrecv : recv sizeofSubcribeRequest sock.inbox = (result, inbox))
    (hresult : result = .error .again ∨ result = .error .wouldBlock ∨
      ∃ bytes, result = .received bytes ∧ bytes ≠ [] ∧ bytes.length ≠ sizeofSubcribeRequest) :
    turnEnd sock = .next := by
  obtain rfl | rfl | ⟨bytes, rfl, hn, hl⟩ := hresult
  · simp [turnEnd, hrecv]
  · simp [turnEnd, hrecv]
  · simp [turnEnd, hrecv, hn, hl]

/-- At the end of the stream, or with an error, the client is gone. -/
theorem turnEnd_of_end {sock : Socket} {result : RecvResult} {inbox : List Arrival}
    (hrecv : recv sizeofSubcribeRequest sock.inbox = (result, inbox))
    (hresult : result = .received [] ∨
      ∃ errno, result = .error errno ∧ errno ≠ .again ∧ errno ≠ .wouldBlock) :
    turnEnd sock = .gone := by
  have hz : ¬ ([] : Bytes).length = sizeofSubcribeRequest := by decide
  obtain rfl | ⟨errno, rfl, he⟩ := hresult
  · simp only [turnEnd, hrecv, hz, ↓reduceIte]
  · simp [turnEnd, hrecv, he]

/-- What is left of the names, the entries and the place of the loop when a turn has ended. -/
def State.Turned (s : State) (i : Nat) (fd : Fd) (t : State) : TurnEnd → Prop
  | .again => t.connectedSubscribers = s.connectedSubscribers ∧ t.pollFds = s.pollFds ∧
      t.place = .clients i
  | .next => t.connectedSubscribers = s.connectedSubscribers ∧ t.pollFds = s.pollFds ∧
      t.place = .clients (i + 1)
  | .gone => t.connectedSubscribers = UnorderedMap.erase s.connectedSubscribers fd ∧
      t.pollFds = s.pollFds.eraseIdx i ∧ t.place = .clients i

variable {s t : State}

/-- Where sends succeed, the turn at a client ends by what is received alone. -/
theorem Sessions.client_cases (h : Sessions s) (hsend : s.kernel.SendsSucceed) {stack : Bytes}
    (hs : s.step (.client stack) = some t) :
    ∃ i fd id data sock, Reading s i fd id data sock ∧ s.Turned i fd t (turnEnd sock) ∧
      t.stdin = s.stdin ∧
      ∀ path other, t.trie.Holds path other → other = id ∨ s.trie.Holds path other := by
  cases h.move hs with
  | idle hevent => cases hevent
  | die hevent => simp at hevent
  | @ignore i fd id data sock _ bytes inbox hreading hrecv hlength =>
    have hend : turnEnd sock = .again := turnEnd_of_whole hrecv hlength
    exact ⟨i, fd, id, data, sock, hreading, hend ▸ ⟨rfl, rfl, rfl⟩, rfl, fun _ _ ↦ .inr⟩
  | @act i fd id data sock _ bytes inbox change sent hreading hrecv hlength hrequested hsent =>
    have hend : turnEnd sock = .again := turnEnd_of_whole hrecv hlength
    obtain ⟨answers, -, he⟩ :=
      ((sock.consume inbox).execute (.decode bytes hlength)).sendFrame_of_reliable id
        (change.reply (.decode bytes hlength)) (hsend fd sock hreading.socket)
    have halive : sent.2 = false := by rw [← hsent, he]
    refine ⟨i, fd, id, data, sock, hreading, hend ▸ ⟨rfl, rfl, ?_⟩, rfl, fun path other hh ↦ ?_⟩
    · simp only [halive, Bool.false_eq_true, ↓reduceIte]
    · refine or_iff_not_imp_left.mpr fun hne ↦ ?_
      exact (change.holds_onTrie_of_ne s.trie (Ne.symm hne) path).mp hh
  | @short i fd id data sock _ result inbox hreading hrecv hresult =>
    have hend : turnEnd sock = .next := turnEnd_of_short hrecv hresult
    exact ⟨i, fd, id, data, sock, hreading, hend ▸ ⟨rfl, rfl, rfl⟩, rfl, fun _ _ ↦ .inr⟩
  | @disconnect i fd id data sock _ result inbox hreading hrecv hresult =>
    have hend : turnEnd sock = .gone := turnEnd_of_end hrecv hresult
    exact ⟨i, fd, id, data, sock, hreading, hend ▸ ⟨rfl, rfl, rfl⟩, rfl, fun _ _ ↦ .inr⟩

/-- A connection that is accepted is refused, or gets a name and an entry. -/
theorem Sessions.accept_cases (h : Sessions s) {fd : Fd} {connection : Connection} {revents : Bool}
    (hs : s.step (.accept fd connection revents) = some t) :
    (t.place = .clients subsStartIdx ∧ t.stdin = s.stdin ∧ t.trie = s.trie) ∧
    (t.connectedSubscribers = s.connectedSubscribers ∧ t.pollFds = s.pollFds ∨
      ∃ new, connection.presentedId = some new ∧ ¬ s.Connected new ∧
        (∀ other, t.clientName other = if fd = other then some new else s.clientName other) ∧
        t.pollFds = s.pollFds ++ [⟨fd, revents⟩]) := by
  cases h.move hs with
  | idle hevent => cases hevent
  | die hevent => simp at hevent
  | refuse => exact ⟨⟨rfl, rfl, rfl⟩, .inl ⟨rfl, rfl⟩⟩
  | @connect _ _ _ data inbox stdout _ _ hread hfree =>
    have hid : connection.presentedId = some (connectingId data) := by
      rw [Connection.presentedId, hread]
    exact ⟨⟨rfl, rfl, rfl⟩, .inr ⟨connectingId data, hid, hfree,
      fun _ ↦ UnorderedMap.find_set _ _ _ _, rfl⟩⟩

/-! ### Other tables -/

/-- A handshake comes to an end whatever the tables are. -/
theorem State.isSome_connectNewClient {u : State} {fd : Fd} {connection : Connection}
    {revents : Bool} (h : s.connectNewClient fd connection revents = some u) (s' : State) :
    (s'.connectNewClient fd connection revents).isSome := by
  unfold connectNewClient at h ⊢
  split at h
  · cases h
  · dsimp only
    split <;> rfl
  · rfl

private theorem isSome_processSubRequests {request : SubcribeRequest} {stack clientName : Bytes}
    {subscriber : SubscriberData} {trie : TopicTrie} {kernel : Kernel} {result : Processed}
    (h : processSubRequests request stack clientName subscriber trie kernel = some result)
    (name' : Bytes) (subscriber' : SubscriberData) (trie' : TopicTrie) (kernel' : Kernel) :
    (processSubRequests request stack name' subscriber' trie' kernel').isSome := by
  unfold processSubRequests at h ⊢
  split at h
  · next ho =>
    obtain ⟨topic, ht, -⟩ := Option.map_eq_some_iff.mp h
    rw [if_pos ho, ht]
    rfl
  · next hn =>
    rw [if_neg hn]
    split at h
    · next ho =>
      obtain ⟨topic, ht, -⟩ := Option.map_eq_some_iff.mp h
      rw [if_pos ho, ht]
      rfl
    · next hn => rw [if_neg hn, Option.isSome_some]

/-- What is received from a client is handled if the whole request that has come is. -/
theorem Reading.exists_step_of_processed {i : Nat} {fd : Fd} {id : Bytes} {data : SubscriberData}
    {sock : Socket} (hr : Reading s i fd id data sock) {stack : Bytes}
    (hprocessed : ∀ bytes inbox, recv sizeofSubcribeRequest sock.inbox = (.received bytes, inbox) →
      ∀ hl : bytes.length = sizeofSubcribeRequest,
        (processSubRequests (.decode bytes hl) stack id data s.trie (s.kernel.install fd
          ((sock.consume inbox).execute (.decode bytes hl)))).isSome) :
    ∃ t, s.step (.client stack) = some t := by
  rcases hrecv : recv sizeofSubcribeRequest sock.inbox with ⟨result, inbox⟩
  by_cases hwhole : ∃ bytes, result = .received bytes ∧ bytes.length = sizeofSubcribeRequest
  · obtain ⟨bytes, rfl, hl⟩ := hwhole
    obtain ⟨result, hp⟩ := Option.isSome_iff_exists.mp (hprocessed bytes inbox hrecv hl)
    rw [hr.step_whole hrecv hl]
    exact ⟨_, by rw [hp, Option.map_some]⟩
  · have hgot : s.kernel.recv fd sizeofSubcribeRequest =
        (result, s.kernel.install fd (sock.consume inbox)) := by
      rw [Kernel.recv, hr.socket]
      simp only [hrecv]
    rw [hr.readClient_eq, State.readClient]
    cases result with
    | error errno =>
      simp only [hgot]
      split
      · exact ⟨_, rfl⟩
      · exact ⟨_, rfl⟩
    | received bytes =>
      have hl : bytes.length ≠ sizeofSubcribeRequest := fun hl ↦ hwhole ⟨bytes, rfl, hl⟩
      simp only [hgot, hl, ↓reduceDIte]
      split
      · exact ⟨_, rfl⟩
      · exact ⟨_, rfl⟩

/-- What is received from a client is handled whatever the tables are. -/
theorem Reading.exists_step {s' : State} {i j : Nat} {fd fd' : Fd} {id id' : Bytes}
    {data data' : SubscriberData} {sock : Socket} (hr : Reading s i fd id data sock)
    (hr' : Reading s' j fd' id' data' sock) {stack : Bytes}
    (hs : s.step (.client stack) = some t) : ∃ t', s'.step (.client stack) = some t' := by
  refine hr'.exists_step_of_processed fun bytes inbox hrecv hl ↦ ?_
  rw [hr.step_whole hrecv hl] at hs
  obtain ⟨result, hp, -⟩ := Option.map_eq_some_iff.mp hs
  exact isSome_processSubRequests hp id' data' s'.trie _

end Broker.Server
