import Broker.Net.Output
import Broker.Server.Shutdown
import Broker.Subscriber.Delivery

/-!
# What failing sends leave on the connections

The server goes on writing to a connection after a send on it has failed. The bytes on a
connection stay whole frames and at most one cut frame as long as the failures are kind: the
record of an acknowledgement does not go out behind a header that did not, and nothing goes
out behind a cut frame.
-/

namespace Broker.Server
open Broker.Base Broker.Net Broker.Topic Broker.Subscriber

/-- Every frame the step writes is safe to attempt on its connection. -/
def State.WritesSafely (s : State) (event : Event) : Prop :=
  ∀ fd client frame sock, s.Writes event fd client frame → s.kernel.socket fd = some sock →
    Safe sock frame

/-- The attempts on a connection so far leave it framed. -/
def FramedSocket (sock : Socket) : Prop := Framed sock.log

private theorem State.Writes.operation_ne {s : State} {event : Event} {fd : Fd} {client : Bytes}
    {frame : Frame} (h : s.Writes event fd client frame) {request : SubcribeRequest}
    (hf : frame = .subscribeAck request) : request.operation ≠ headerSubscribeAck := by
  cases h with
  | message hm => cases hf
  | @acknowledge i fd id data sock stack bytes inbox change hr hb hl hq =>
    cases change with
    | subscribe topic =>
      cases hf
      exact (by decide : operationAckSub ≠ headerSubscribeAck)
    | unsubscribe topic =>
      cases hf
      exact (by decide : operationAckUnsub ≠ headerSubscribeAck)

namespace Sessions

variable {s t : State}

/-- A step that writes safely keeps every connection framed. -/
theorem framed_step (h : Sessions s) (hf : s.kernel.Every FramedSocket) {event : Event}
    (hsafe : s.WritesSafely event) (ht : s.step event = some t) : t.kernel.Every FramedSocket := by
  cases h.move ht with
  | typed hleft hclosed => exact hf
  | stdinClosed hleft => exact hf
  | command hplace hread => exact hf
  | idle hevent hfds hleft hphase hposition => exact hf
  | die hevent => exact hf
  | @route datagram stale order sent hplace hnodup horder hsent =>
    subst hsent
    refine hf.sendEach (h.nodup_recipients hnodup) fun client fd sock hm hs ↦ ?_
    have hw : s.Writes (.datagram datagram stale order) fd client _ := .message hm
    exact (framed_sendFrame_iff (hf.1 fd sock hs) client fun _ ↦ hw.operation_ne).mpr
      (hsafe fd client _ sock hw hs)
  | refuse hplace hopen => exact hf.close_accept _ framed_nil
  | connect hplace hopen hread hfree => exact hf.accept _ framed_nil
  | ignore hreading hrecv hlength hnone =>
    have hr : FramedSocket _ := hf.1 _ _ hreading.socket
    exact hf.install _ hr
  | @act i fd id data sock stack bytes inbox change sent hreading hrecv hlength hrequested hsent =>
    subst hsent
    have hw := State.Writes.acknowledge hreading hrecv hlength hrequested
    have hbefore : Framed sock.log := hf.1 _ _ hreading.socket
    have hbefore : Framed ((sock.consume inbox).execute (.decode bytes hlength)).log := hbefore
    exact hf.install _ ((framed_sendFrame_iff hbefore id fun _ ↦ hw.operation_ne).mpr
      (hsafe _ _ _ sock hw hreading.socket))
  | short hreading hrecv hresult =>
    have hr : FramedSocket _ := hf.1 _ _ hreading.socket
    exact hf.install _ hr
  | disconnect hreading hrecv hresult =>
    have hr : FramedSocket _ := hf.1 _ _ hreading.socket
    exact hf.close_install _ hr

/-- A step after which every connection is framed, and that was not cut short by a reset
connection, has written safely. -/
theorem writesSafely_of_framed (h : Sessions s) (hf : s.kernel.Every FramedSocket) {event : Event}
    (ht : s.step event = some t) (hreset : ¬ s.MeetsReset event)
    (hframed : t.kernel.Every FramedSocket) : s.WritesSafely event := by
  intro fd client frame sock hw hs
  have hop : ∀ request, frame = .subscribeAck request →
      request.operation ≠ headerSubscribeAck := fun _ ↦ hw.operation_ne
  cases hw with
  | @message datagram stale order id fd hm =>
    apply (framed_sendFrame_iff (hf.1 fd sock hs) client hop).mp
    cases h.move ht with
    | route hplace hnodup horder hsent =>
      subst hsent
      have hn := h.nodup_recipients hnodup
      have halive : (s.kernel.sendEach (.message (messageResponse datagram stale))
          (recipients s.subscribers order)).2 = false := by
        refine eq_false_of_ne_true fun hk ↦ hreset ?_
        obtain ⟨client, fd, sock, hm, hs, ha⟩ := (Kernel.sendEach_killed_iff _ _ hn).mp hk
        exact ⟨fd, client, _, sock, .message hm, hs, ha⟩
      have hafter := (Kernel.socket_sendEach _ _ hn halive).2 client fd hm
      rw [hs] at hafter
      exact hframed.1 fd _ hafter
    | idle hevent => cases hevent
    | die hevent => simp at hevent
  | @acknowledge i fd id data found stack bytes inbox change hr hb hl hq =>
    cases hr.socket.symm.trans hs
    cases h.move ht with
    | ignore hreading hrecv hlength hnone =>
      obtain ⟨-, -, -, rfl, rfl⟩ := hr.unique hreading
      cases hb.symm.trans hrecv
      exact absurd hq (hnone _)
    | act hreading hrecv hlength hrequested hsent =>
      obtain ⟨-, rfl, rfl, rfl, rfl⟩ := hr.unique hreading
      cases hb.symm.trans hrecv
      subst hsent
      obtain rfl := hq.unique hrequested
      have hbefore : Framed sock.log := hf.1 fd sock hs
      have hbefore : Framed ((sock.consume inbox).execute (.decode bytes hlength)).log := hbefore
      exact (framed_sendFrame_iff hbefore client hop).mp
        (hframed.1 fd _ (by rw [Kernel.socket_install, if_pos rfl]))
    | short hreading hrecv hresult =>
      obtain ⟨-, -, -, -, rfl⟩ := hr.unique hreading
      cases hb.symm.trans hrecv
      exact absurd hl (length_ne_of_short hresult rfl)
    | disconnect hreading hrecv hresult =>
      obtain ⟨-, -, -, -, rfl⟩ := hr.unique hreading
      cases hb.symm.trans hrecv
      exact absurd hl (length_ne_of_end hresult rfl)
    | idle hevent => cases hevent
    | die hevent => simp at hevent

end Sessions

/-- What a subscriber makes of a framed connection: it receives exactly the frames that went
out whole, up to one that it cannot display, and ends with the stream. -/
theorem receiveLoop_of_framed {log : List Emission} (h : Framed log) {wire : List Arrival}
    (hc : Closes wire) (hp : payload wire = log.flatMap Emission.written) :
    ∃ last, (last = .disconnected ∨ last = .truncated) ∧
      receiveLoop wire = packetsOf [last] (wholeFrames log) ∧
      (receiveLoop wire).filterMap Packet.frame = (wholeFrames log).takeWhile displayable := by
  obtain ⟨next, cut, hw, hcut, hn⟩ := written_of_framed h
  have hloop := receiveLoop_of_payload hc (wholeFrames log) next hcut hn (hp.trans hw)
  have hlast : (if cut = [] then Packet.disconnected else .truncated) = .disconnected ∨
      (if cut = [] then Packet.disconnected else .truncated) = .truncated := by
    by_cases hcut : cut = []
    · exact .inl (if_pos hcut)
    · exact .inr (if_neg hcut)
  refine ⟨_, hlast, hloop, ?_⟩
  rw [hloop]
  exact frame_packetsOf (fun packet hm ↦ List.mem_singleton.mp hm ▸ hlast) _

/-- Along every run that writes safely, every connection carries whole frames and at most one
cut frame, nothing is written behind a cut frame, and its subscriber receives exactly the frames
that went out whole, up to the first one that it cannot display, and hands on those in front of
it. This is the weakest such condition: a step that is not ended by a reset connection keeps all
connections framed exactly when it writes safely. -/
theorem output_framed {udpfd listenfd : Fd} {s : State}
    (h : Reaches State.step State.WritesSafely (State.initial udpfd listenfd) s) :
    (s.kernel.Every fun sock ↦ FrameStream sock.output ∧ Framed sock.log ∧
      ∀ wire, Closes wire → payload wire = sock.output →
        ∃ last, (last = .disconnected ∨ last = .truncated) ∧
          receiveLoop wire = packetsOf [last] (wholeFrames sock.log) ∧
          (receiveLoop wire).filterMap Packet.frame =
            (wholeFrames sock.log).takeWhile displayable) ∧
    ∀ event t, s.step event = some t → ¬ s.MeetsReset event →
      ((t.kernel.Every fun sock ↦ Framed sock.log) ↔ s.WritesSafely event) := by
  have hinv : Sessions s ∧ s.kernel.Every FramedSocket :=
    h.invariant (P := fun s ↦ Sessions s ∧ s.kernel.Every FramedSocket)
      ⟨Sessions.initial _ _, fun _ _ hf ↦ (nomatch hf), fun _ hm ↦ (nomatch hm)⟩
      fun _ _ _ hs ha ht ↦ ⟨hs.1.step ht, hs.1.framed_step hs.2 ha ht⟩
  have hall (sock : Socket) (hf : Framed sock.log) : FrameStream sock.output ∧ Framed sock.log ∧
      ∀ wire, Closes wire → payload wire = sock.output →
        ∃ last, (last = .disconnected ∨ last = .truncated) ∧
          receiveLoop wire = packetsOf [last] (wholeFrames sock.log) ∧
          (receiveLoop wire).filterMap Packet.frame =
            (wholeFrames sock.log).takeWhile displayable :=
    ⟨frameStream_of_framed hf, hf, fun _ hc hp ↦ receiveLoop_of_framed hf hc hp⟩
  exact ⟨⟨fun fd sock hs ↦ hall sock (hinv.2.1 fd sock hs),
      fun sock hm ↦ hall sock (hinv.2.2 sock hm)⟩,
    fun event t ht hreset ↦
      ⟨hinv.1.writesSafely_of_framed hinv.2 ht hreset, fun hw ↦ hinv.1.framed_step hinv.2 hw ht⟩⟩

/-- Nothing has been cut short so far, and every next send takes something. -/
def State.smooth (s : State) : Bool :=
  s.kernel.sockets.all fun entry ↦
    !refused entry.2.answers && entry.2.log.all fun emission ↦ emission.Whole

/-- In a smooth state everything that can be written next is safe. -/
theorem State.writesSafely_of_smooth {s : State} {event : Event} (h : s.smooth = true) :
    s.WritesSafely event := by
  intro fd client frame sock _ hs
  have hm := List.all_eq_true.mp h _ (UnorderedMap.mem_of_find hs)
  obtain ⟨hr, hl⟩ := (Bool.and_eq_true _ _).mp hm
  refine ⟨headless_of_not_refused frame (by simpa using hr), ?_⟩
  rintro ⟨earlier, he, -, hcut⟩
  exact absurd (of_decide_eq_true (List.all_eq_true.mp hl earlier he)) hcut

/-- A client whose connection takes its two acknowledgements in pieces. -/
theorem output_framed_pieces : ∃ (s : State) (sock : Socket), s.kernel.socket 5 = some sock ∧
    (wholeFrames sock.log).length = 2 ∧ FrameStream sock.output := by
  have hrun : (exec (guarded (fun s _ ↦ s.smooth) State.step) (State.initial 3 4)
      (joinRound 4 5 0 (simpleClient 65 [simpleRequest 0 [97], simpleRequest 1 [97]]
        [.sent 0, .sent 9, .sent 99, .sent 0, .sent 30]) ++ visitRound 5 0 ++
        [.client [], .client []])).any (fun s ↦
        (s.kernel.socket 5).any (fun sock ↦ (wholeFrames sock.log).length = 2) = true) =
      true := by decide +kernel
  obtain ⟨s, hs, hsock⟩ := exists_exec hrun
  obtain ⟨sock, hf, hsock⟩ := (Option.any_eq_true _ _).mp hsock
  have hr : Reaches State.step State.WritesSafely (State.initial 3 4) s :=
    reaches_of_guarded (fun _ _ ht ↦ State.writesSafely_of_smooth ht) .refl hs
  exact ⟨s, sock, hf, of_decide_eq_true hsock, ((output_framed hr).1.1 5 sock hf).1⟩

/-- The header byte of an acknowledgement cannot be sent, its record can: what the client
receives does not begin with a header. -/
theorem not_frameStream_headless : ∃ s sock, Reachable 3 4 s ∧ s.place = .poll ∧
    s.clientName 5 = some [65] ∧ s.kernel.socket 5 = some sock ∧ ¬ FrameStream sock.output := by
  have hrun : (exec State.step (State.initial 3 4)
      (joinRound 4 5 0 (simpleClient 65 [simpleRequest 0 [97]] [.failed]) ++ visitRound 5 0 ++
        [.client [], .client [], .proceed])).any (fun s ↦ s.place = .poll ∧
        s.clientName 5 = some [65] ∧
        (s.kernel.socket 5).any (fun sock ↦ sock.output.head? = some operationAckSub) = true) =
      true := by decide +kernel
  obtain ⟨s, hs, hplace, hname, hsock⟩ := exists_exec hrun
  obtain ⟨sock, hf, hsock⟩ := (Option.any_eq_true _ _).mp hsock
  refine ⟨s, sock, reaches_of_exec hs, hplace, hname, hf, ?_⟩
  rintro ⟨whole, next, cut, ho, hc, -⟩
  have hhead : sock.output.head? = some operationAckSub := of_decide_eq_true hsock
  rw [ho] at hhead
  have hheader (frame : Frame) : frame.header ≠ operationAckSub := by
    cases frame with
    | message response => exact (by decide : headerMessage ≠ operationAckSub)
    | subscribeAck request => exact (by decide : headerSubscribeAck ≠ operationAckSub)
  cases whole with
  | nil =>
    cases cut with
    | nil => cases hhead
    | cons b cut =>
      have hb : b = next.header := (List.cons_prefix_cons.mp hc).1
      exact hheader next (hb ▸ Option.some.inj hhead)
  | cons frame whole => exact hheader frame (Option.some.inj hhead)

end Broker.Server
