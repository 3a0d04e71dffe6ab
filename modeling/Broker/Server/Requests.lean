import Broker.Base.Blocks
import Broker.Server.Sessions

/-!
# From the bytes a client sends to the requests executed

The loop over the clients takes requests from a stream by reads that do not wait and drops
what a read returns short of a request. So the requests executed on a connection are the
whole blocks of the pieces in which its stream is met.
-/

namespace Broker.Server
open Broker.Base Broker.Net Broker.Topic

/-- The images of the requests a stream yields. -/
abbrev requestBlocks (stream : List Arrival) : List Bytes := drain sizeofSubcribeRequest stream

/-- The requests executed and those still to come are those of the whole stream. -/
def Executing (sock : Socket) : Prop :=
  sock.executed.map SubcribeRequest.encode ++ requestBlocks sock.inbox = requestBlocks sock.session

/-- The requests executed are those of the whole stream. -/
def Executed (sock : Socket) : Prop :=
  sock.executed.map SubcribeRequest.encode = requestBlocks sock.session

private theorem sizeof_pos : 0 < sizeofSubcribeRequest := by decide

private theorem Executing.sendFrame {sock : Socket} (h : Executing sock) (client : Bytes)
    (frame : Frame) : Executing (sock.sendFrame client frame).1 := by
  obtain ⟨written, answers, hw⟩ := sock.sendFrame_eq_record client frame
  rw [hw]
  exact h

private theorem Executing.execute {sock : Socket} (h : Executing sock) {bytes : Bytes}
    {inbox : List Arrival} (hr : recv sizeofSubcribeRequest sock.inbox = (.received bytes, inbox))
    (hl : bytes.length = sizeofSubcribeRequest) :
    Executing ((sock.consume inbox).execute (.decode bytes hl)) := by
  unfold Executing at h
  rw [requestBlocks, drain_of_block sizeof_pos hr hl] at h
  unfold Executing
  rw [Socket.execute, List.map_append, List.map_singleton, SubcribeRequest.encode_decode,
    List.append_assoc]
  exact h

namespace Sessions

variable {s t : State}

/-- What is executed on every connection stays in step with what is read from it. -/
theorem executing_step (hs : Sessions s) (h : s.kernel.Connections Executing Executed)
    {event : Event} (ht : s.step event = some t) :
    t.kernel.Connections Executing Executed := by
  cases hs.move ht with
  | typed hleft hclosed => exact h
  | stdinClosed hleft => exact h
  | command hplace hread => exact h
  | idle hevent hfds hleft hphase hposition => exact h
  | die hevent => exact h
  | route hplace hnodup horder hsent =>
    subst hsent
    exact Kernel.sendEach_invariant (P := (·.Connections Executing Executed))
      (fun _ client fd _ hk ↦ hk.sendFrame fd client _ fun _ _ he ↦ he.sendFrame client _) h
  | refuse hplace hopen => exact h.close_accept _ (by simp [Executed, Connection.socket, drain])
  | connect hplace hopen hread hfree =>
    exact h.accept _ (by simp [Executing, Connection.socket, Socket.register])
  | ignore hreading hrecv hlength hnone =>
    exact h.install _ ((h.1 _ _ hreading.socket).execute hrecv hlength)
  | act hreading hrecv hlength hrequested hsent =>
    subst hsent
    exact h.install _ (((h.1 _ _ hreading.socket).execute hrecv hlength).sendFrame _ _)
  | short hreading hrecv hresult =>
    apply h.install _
    have he := h.1 _ _ hreading.socket
    unfold Executing at he ⊢
    obtain rfl | rfl | ⟨bytes, rfl, hn, hl⟩ := hresult
    · rwa [requestBlocks, drain_of_wait hrecv (.inl rfl)] at he
    · rwa [requestBlocks, drain_of_wait hrecv (.inr rfl)] at he
    · rwa [requestBlocks, drain_of_short hrecv hn hl] at he
  | @disconnect i fd id data sock stack result inbox hreading hrecv hresult =>
    apply h.close_install _
    have he := h.1 _ _ hreading.socket
    have hend : requestBlocks sock.inbox = [] := by
      obtain rfl | ⟨errno, rfl, ha, -⟩ := hresult
      · exact drain_of_end sizeof_pos hrecv
      · exact drain_of_error hrecv ha
    unfold Executing at he
    rwa [hend, List.append_nil] at he

/-- In every reachable state what is executed is in step with what is read. -/
theorem executing_of_reaches {udpfd listenfd : Fd} (h : Reachable udpfd listenfd s) :
    s.kernel.Connections Executing Executed := by
  refine (h.invariant (P := fun s ↦ Sessions s ∧ s.kernel.Connections Executing Executed)
    ⟨Sessions.initial _ _, ?_⟩ fun _ _ _ hs _ ht ↦ ⟨hs.1.step ht, hs.1.executing_step hs.2 ht⟩).2
  exact ⟨fun fd sock hf ↦ (nomatch hf), fun sock hm ↦ (nomatch hm)⟩

end Sessions

/-- The stream of a connection has been read to the last byte. -/
def State.ReadOut (s : State) (sock : Socket) : Prop :=
  (∃ fd, s.kernel.socket fd = some sock ∧ payload sock.inbox = []) ∨ sock ∈ s.kernel.archive

/-- A client sends requests one after the other. Once its stream has been read to the end,
the requests executed are the ones sent exactly when every piece of the stream behind the id
was made of whole requests. -/
theorem executed_eq_iff {udpfd listenfd : Fd} {s : State} (h : Reachable udpfd listenfd s)
    {sock : Socket} (hr : s.ReadOut sock) (ho : Orderly sock.session)
    {requests : List SubcribeRequest}
    (hp : payload sock.session = requests.flatMap SubcribeRequest.encode) :
    sock.executed = requests ↔ Aligned sizeofSubcribeRequest sock.session := by
  have hk := Sessions.executing_of_reaches h
  have he : Executed sock := by
    obtain ⟨fd, hf, hi⟩ | hm := hr
    · have he := hk.1 fd sock hf
      rwa [Executing, requestBlocks, drain_of_payload hi, List.append_nil] at he
    · exact hk.2 sock hm
  have hl : ∀ part ∈ requests.map SubcribeRequest.encode, part.length = sizeofSubcribeRequest := by
    intro part hm
    obtain ⟨request, -, rfl⟩ := List.mem_map.mp hm
    exact request.length_encode
  calc sock.executed = requests
      ↔ sock.executed.map SubcribeRequest.encode = requests.map SubcribeRequest.encode :=
        (List.map_injective_iff.mpr SubcribeRequest.encode_injective).eq_iff.symm
    _ ↔ requestBlocks sock.session = requests.map SubcribeRequest.encode := by rw [he]
    _ ↔ Aligned sizeofSubcribeRequest sock.session := drain_eq_iff sizeof_pos ho hl hp

/-- A subscription to `a`. -/
def subscribeRequest : SubcribeRequest := ⟨operationSubscribe, 97 :: List.replicate 50 0, rfl⟩

/-- Giving up the subscription to `a`. -/
def unsubscribeRequest : SubcribeRequest :=
  ⟨operationUnsubscribe, 97 :: List.replicate 50 0, rfl⟩

/-- Two requests that arrive in one piece are both executed. -/
theorem executed_eq_iff_onePiece : ∃ s sock, Reachable 3 4 s ∧ s.kernel.socket 5 = some sock ∧
    sock.executed = [subscribeRequest, unsubscribeRequest] := by
  let piece := Arrival.segment 0 (subscribeRequest.topic ++ unsubscribeRequest.encode)
  have hrun : (exec State.step (State.initial 3 4) (joinRound 4 5 0 (simpleClient 65 [piece] []) ++
      visitRound 5 0 ++ [.client [], .client [], .client []])).any (fun s ↦
        (s.kernel.socket 5).any (fun sock ↦ sock.inbox = [] ∧ sock.session = [piece]) = true) =
      true := by
    decide +kernel
  obtain ⟨s, hs, hsock⟩ := exists_exec hrun
  obtain ⟨sock, hf, hsock⟩ := (Option.any_eq_true _ _).mp hsock
  obtain ⟨hi, hsession⟩ := of_decide_eq_true hsock
  refine ⟨s, sock, reaches_of_exec hs, hf, ?_⟩
  refine (executed_eq_iff (reaches_of_exec hs) (.inl ⟨5, hf, by rw [hi]; rfl⟩) ?_ ?_).mpr ?_
  · rw [hsession]
    exact trivial
  · rw [hsession]
    decide +kernel
  · rw [hsession]
    exact ⟨by decide, trivial⟩

/-- A request that arrives in two pieces, with a round between them, is not executed. -/
theorem not_executed_twoPieces : ∃ s sock, Reachable 3 4 s ∧ s.kernel.socket 5 = some sock ∧
    payload sock.inbox = [] ∧ Orderly sock.session ∧
    payload sock.session = [subscribeRequest].flatMap SubcribeRequest.encode ∧
    sock.executed = [] := by
  let pieces := [Arrival.segment 0 (97 :: List.replicate 18 0), .segment 0 (List.replicate 31 0)]
  have hrun : (exec State.step (State.initial 3 4) (joinRound 4 5 0 (simpleClient 65 pieces []) ++
      visitRound 5 0 ++ [.client [], .proceed] ++ visitRound 5 0 ++ [.client [], .proceed])).any
        (fun s ↦ (s.kernel.socket 5).any (fun sock ↦
          sock.inbox = [] ∧ sock.session = pieces ∧ sock.executed = []) = true) = true := by
    decide +kernel
  obtain ⟨s, hs, hsock⟩ := exists_exec hrun
  obtain ⟨sock, hf, hsock⟩ := (Option.any_eq_true _ _).mp hsock
  obtain ⟨hi, hsession, he⟩ := of_decide_eq_true hsock
  refine ⟨s, sock, reaches_of_exec hs, hf, by rw [hi]; rfl, ?_, ?_, he⟩
  · rw [hsession]
    exact trivial
  · rw [hsession]
    decide +kernel

end Broker.Server
