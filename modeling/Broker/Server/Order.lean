import Broker.Server.History

/-!
# The order of the ids does not matter

`send_msg_to_all_subs` goes through an `unordered_set`, whose order is not determined
(`server.cpp:121–132`). Whatever the orders are, a run has the same outcome, also where sends
fail: the same tables, and on each connection the same bytes. Only when the process is killed in
the middle of a traversal the connections can differ, and then it is killed in each order.
-/

namespace Broker.Server
open Broker.Base Broker.Net Broker.Topic

/-! ### Kernels that cannot be told apart -/

/-- Each descriptor stands for the same connection, and the same connections have been accepted and
closed. -/
structure Kernel.Alike (kernel other : Kernel) : Prop where
  socket : ∀ fd, other.socket fd = kernel.socket fd
  archive : other.archive = kernel.archive
  stray : other.stray = kernel.stray
  uses : other.uses = kernel.uses

namespace Kernel.Alike

variable {kernel other : Kernel}

private theorem refl (kernel : Kernel) : kernel.Alike kernel := ⟨fun _ ↦ rfl, rfl, rfl, rfl⟩

private theorem trans {third : Kernel} (h : kernel.Alike other) (h' : other.Alike third) :
    kernel.Alike third :=
  ⟨fun fd ↦ (h'.socket fd).trans (h.socket fd), h'.archive.trans h.archive,
    h'.stray.trans h.stray, h'.uses.trans h.uses⟩

private theorem install (h : kernel.Alike other) (fd : Fd) (sock : Socket) :
    (kernel.install fd sock).Alike (other.install fd sock) := by
  refine ⟨fun fd' ↦ ?_, h.archive, h.stray, h.uses⟩
  rw [socket_install, socket_install, h.socket]

private theorem accept (h : kernel.Alike other) (fd : Fd) (sock : Socket) :
    (kernel.accept fd sock).Alike (other.accept fd sock) where
  socket := (h.install fd sock).socket
  archive := h.archive
  stray := h.stray
  uses := by rw [uses_accept, uses_accept, h.uses]

private theorem close (h : kernel.Alike other) (fd : Fd) : (kernel.close fd).Alike
    (other.close fd) := by
  refine ⟨fun fd' ↦ ?_, ?_, ?_, ?_⟩
  · rw [socket_close, socket_close, h.socket]
  · cases hs : kernel.socket fd with
    | none => simp only [Kernel.close, h.socket, hs, h.archive]
    | some sock => rw [archive_close hs, archive_close ((h.socket fd).trans hs), h.archive]
  · rw [stray_close, stray_close, h.stray]
  · rw [uses_close, uses_close, h.uses]

private theorem annotate (h : kernel.Alike other) (fd : Fd) (f : Socket → Socket) :
    (kernel.annotate fd f).Alike (other.annotate fd f) := by
  unfold Kernel.annotate
  rw [h.socket]
  split
  · next sock hs => exact h.install fd (f sock)
  · exact h

private theorem sendFrame (h : kernel.Alike other) (fd : Fd) (client : Bytes) (frame : Frame) :
    (kernel.sendFrame fd client frame).1.Alike (other.sendFrame fd client frame).1 ∧
      (other.sendFrame fd client frame).2 = (kernel.sendFrame fd client frame).2 := by
  unfold Kernel.sendFrame
  rw [h.socket]
  split
  · next sock hs => exact ⟨h.install fd _, rfl⟩
  · exact ⟨⟨h.socket, h.archive, by rw [h.stray], h.uses⟩, rfl⟩

private theorem recv (h : kernel.Alike other) (fd : Fd) (size : Nat) :
    (other.recv fd size).1 = (kernel.recv fd size).1 ∧
      (kernel.recv fd size).2.Alike (other.recv fd size).2 := by
  unfold Kernel.recv
  rw [h.socket]
  split
  · next sock hs => exact ⟨rfl, h.install fd _⟩
  · exact ⟨rfl, h⟩

private theorem sendLoop (h : kernel.Alike other) (response : MessageWithHeader)
    (order : List Bytes) (subscribers : UnorderedMap Bytes SubscriberData) :
    let sent := Server.sendLoop response order subscribers kernel
    let sent' := Server.sendLoop response order subscribers other
    sent'.1 = sent.1 ∧ sent.2.1.Alike sent'.2.1 ∧ sent'.2.2 = sent.2.2 := by
  induction order generalizing subscribers kernel other with
  | nil => exact ⟨rfl, h, rfl⟩
  | cons subId order ih =>
    obtain ⟨hkernel, hkilled⟩ := h.sendFrame
      (UnorderedMap.index subscribers subId .default).1.sockfd subId (.message response)
    simp only [Server.sendLoop, hkilled]
    split
    · split
      · exact ⟨rfl, hkernel, rfl⟩
      · exact ih hkernel _
    · exact ih h _

private theorem processSubRequests (h : kernel.Alike other) {request : SubcribeRequest}
    {stack clientName : Bytes} {subscriber : SubscriberData} {trie : TopicTrie}
    {result : Processed}
    (hp : Server.processSubRequests request stack clientName subscriber trie kernel =
      some result) :
    ∃ kernel', Server.processSubRequests request stack clientName subscriber trie other =
      some { result with kernel := kernel' } ∧ result.kernel.Alike kernel' := by
  unfold Server.processSubRequests at hp ⊢
  have hsend (operation : UInt8) := h.sendFrame subscriber.sockfd clientName
    (acknowledgement request operation)
  split at hp
  · next ho =>
    obtain ⟨topic, ht, rfl⟩ := Option.map_eq_some_iff.mp hp
    rw [if_pos ho, ht, Option.map_some]
    split
    · exact ⟨other, rfl, h⟩
    · exact ⟨_, by dsimp only; rw [(hsend operationAckSub).2], (hsend operationAckSub).1⟩
  · next ho =>
    rw [if_neg ho]
    split at hp
    · next hu =>
      obtain ⟨topic, ht, rfl⟩ := Option.map_eq_some_iff.mp hp
      rw [if_pos hu, ht, Option.map_some]
      split
      · exact ⟨other, rfl, h⟩
      · exact ⟨_, by dsimp only; rw [(hsend operationAckUnsub).2], (hsend operationAckUnsub).1⟩
    · next hu =>
      cases hp
      exact ⟨other, if_neg hu, h⟩

end Kernel.Alike

/-! ### Servers that cannot be told apart -/

/-- The server on another kernel. -/
def State.on (s : State) (kernel : Kernel) : State := { s with kernel := kernel }

variable {s t : State} {kernel : Kernel}

private theorem Kernel.Alike.readClient (h : s.kernel.Alike kernel) {i : Nat} {clientfd : Fd}
    {stack : Bytes} (hs : s.readClient i clientfd stack = some t) :
    ∃ later, (s.on kernel).readClient i clientfd stack = some (t.on later) ∧
      t.kernel.Alike later := by
  obtain ⟨hgot, hkernel⟩ := h.recv clientfd sizeofSubcribeRequest
  have hclose := hkernel.close clientfd
  unfold State.readClient at hs ⊢
  dsimp only [State.on] at hs ⊢
  rw [hgot]
  split at hs
  · next bytes hbytes =>
    split at hs
    · next hl =>
      obtain ⟨result, hp, rfl⟩ := Option.map_eq_some_iff.mp hs
      obtain ⟨later, hp', hlater⟩ :=
        (hkernel.annotate clientfd (·.execute (.decode bytes hl))).processSubRequests hp
      refine ⟨later, ?_, hlater⟩
      rw [dif_pos hl, hp']
      rfl
    · next hl =>
      rw [dif_neg hl]
      split at hs
      · next hz =>
        cases hs
        exact ⟨_, by rw [if_pos hz]; rfl, hclose⟩
      · next hz =>
        cases hs
        exact ⟨_, by rw [if_neg hz], hkernel⟩
  · next errno herrno =>
    split at hs
    · next he =>
      cases hs
      exact ⟨_, by rw [if_pos he]; rfl, hclose⟩
    · next he =>
      cases hs
      exact ⟨_, by rw [if_neg he], hkernel⟩

private theorem Kernel.Alike.connectNewClient (h : s.kernel.Alike kernel) {fd : Fd}
    {connection : Connection} {revents : Bool}
    (hs : s.connectNewClient fd connection revents = some t) :
    ∃ later, (s.on kernel).connectNewClient fd connection revents = some (t.on later) ∧
      t.kernel.Alike later := by
  have haccept (inbox : List Arrival) := h.accept fd (connection.socket inbox)
  unfold State.connectNewClient at hs ⊢
  split at hs
  · cases hs
  · next data inbox hr =>
    dsimp only at hs ⊢
    split at hs
    · next hc =>
      cases hs
      exact ⟨_, if_pos hc, (haccept inbox).close fd⟩
    · next hc =>
      cases hs
      exact ⟨_, if_neg hc, (haccept inbox).annotate fd _⟩
  · cases hs
    exact ⟨_, rfl, (haccept _).close fd⟩

private theorem State.step_proceed_on (s : State) (kernel : Kernel) :
    (s.on kernel).step .proceed = (s.step .proceed).map fun t ↦ t.on kernel := by
  have hplace : (s.on kernel).place = s.place := rfl
  have hfds : (s.on kernel).pollFds = s.pollFds := rfl
  have hready (idx : Nat) : (s.on kernel).ready idx = s.ready idx := rfl
  have hline : (s.on kernel).readCommand = s.readCommand.map fun t ↦ t.on kernel := by
    unfold State.readCommand
    rw [hready]
    split
    · rw [Option.map_map]
      rfl
    · rfl
  simp only [State.step, hplace, hfds, hready, hline]
  split
  · rfl
  · split
    · rfl
    · rfl
  · split
    · rfl
    · rfl
  · split
    · split
      · rfl
      · rfl
    · rfl
  · rfl

private theorem State.kernel_of_proceed (hs : s.step .proceed = some t) : t.kernel = s.kernel := by
  have hsame : s.step .proceed = (s.step .proceed).map fun t ↦ t.on s.kernel :=
    s.step_proceed_on s.kernel
  rw [hs, Option.map_some] at hsame
  have he : t = t.on s.kernel := Option.some.inj hsame
  rw [he]
  rfl

/-- A step is the same one on a kernel that is alike. -/
theorem Kernel.Alike.step (h : s.kernel.Alike kernel) {event : Event}
    (hs : s.step event = some t) :
    ∃ later, (s.on kernel).step event = some (t.on later) ∧ t.kernel.Alike later := by
  cases event with
  | typed bytes =>
    obtain ⟨hn, hs⟩ := Option.ite_none_left_eq_some.mp hs
    cases hs
    exact ⟨kernel, if_neg hn, h⟩
  | stdinClosed =>
    obtain ⟨hn, hs⟩ := Option.ite_none_left_eq_some.mp hs
    cases hs
    exact ⟨kernel, if_neg hn, h⟩
  | poll readable =>
    obtain ⟨hp, hs⟩ := Option.ite_none_right_eq_some.mp hs
    cases hs
    exact ⟨kernel, if_pos hp, h⟩
  | pollFails =>
    obtain ⟨hp, hs⟩ := Option.ite_none_right_eq_some.mp hs
    cases hs
    exact ⟨kernel, if_pos hp, h⟩
  | proceed =>
    rw [State.step_proceed_on, hs]
    exact ⟨kernel, rfl, State.kernel_of_proceed hs ▸ h⟩
  | datagram datagram stale order =>
    obtain ⟨hp, hs⟩ := Option.ite_none_right_eq_some.mp hs
    obtain ⟨result, hr, rfl⟩ := Option.map_eq_some_iff.mp hs
    obtain ⟨hfound, hr⟩ := Option.ite_none_right_eq_some.mp hr
    obtain rfl := Option.some.inj hr
    obtain ⟨hsubscribers, hkernel, hkilled⟩ :=
      h.sendLoop (messageResponse datagram stale) order s.subscribers
    refine ⟨_, ?_, hkernel⟩
    have hsent : sendMsgToAllSubs order (topicStr (messageResponse datagram stale).msg)
        (messageResponse datagram stale) s.subscribers s.trie kernel =
          some (Server.sendLoop (messageResponse datagram stale) order s.subscribers kernel) :=
      if_pos hfound
    refine (if_pos hp).trans ?_
    unfold State.receiveDatagram
    dsimp only [State.on]
    rw [hsent, Option.map_some, hsubscribers, hkilled]
  | drained =>
    obtain ⟨hp, hs⟩ := Option.ite_none_right_eq_some.mp hs
    cases hs
    exact ⟨kernel, if_pos hp, h⟩
  | accept fd connection revents =>
    obtain ⟨⟨hp, hready, hopen⟩, hs⟩ := Option.ite_none_right_eq_some.mp hs
    obtain ⟨u, hu, rfl⟩ := Option.map_eq_some_iff.mp hs
    obtain ⟨later, hlater, hkernel⟩ := h.connectNewClient hu
    have hclosed : ¬ (s.on kernel).Open fd := by
      rw [State.Open, State.on, h.socket]
      exact hopen
    exact ⟨later, (if_pos ⟨hp, hready, hclosed⟩).trans (congrArg _ hlater), hkernel⟩
  | acceptFails =>
    obtain ⟨hp, hs⟩ := Option.ite_none_right_eq_some.mp hs
    cases hs
    exact ⟨kernel, if_pos hp, h⟩
  | nagleFails =>
    obtain ⟨hp, hs⟩ := Option.ite_none_right_eq_some.mp hs
    cases hs
    exact ⟨kernel, if_pos hp, h⟩
  | client stack =>
    simp only [State.step] at hs ⊢
    dsimp only [State.on]
    split at hs
    · next i hp =>
      rw [hp]
      split at hs
      · next entry he =>
        obtain ⟨hready, hs⟩ := Option.ite_none_right_eq_some.mp hs
        simp only [hready, ↓reduceIte]
        exact h.readClient hs
      · cases hs
    · cases hs

/-! ### Another order of the ids -/

/-- The events differ at most in the order in which the ids found are traversed. -/
inductive Event.SameButOrder : Event → Event → Prop
  | same (event : Event) : SameButOrder event event
  | order {datagram stale order order'} (h : order.Perm order') :
    SameButOrder (.datagram datagram stale order) (.datagram datagram stale order')

/-- The servers cannot be told apart, or have been killed with the same tables. -/
structure State.SameEnd (s t : State) : Prop where
  tables : t = s.on t.kernel
  kernel : s.place ≠ .killed → s.kernel.Alike t.kernel

private theorem State.place_ne_killed_of_step {event : Event} (hs : s.step event = some t) :
    s.place ≠ .killed := by
  intro hp
  cases event with
  | _ => simp [State.step, hp, Place.left] at hs

namespace Sessions

/-- Forwarding to the ids found in another order kills the process in both orders or in none,
and leaves the same on each connection when it does not. -/
theorem sendEach_perm (h : Sessions s) (frame : Frame) {order order' : List Bytes}
    (hn : order.Nodup) (hp : order.Perm order') :
    let sent := s.kernel.sendEach frame (recipients s.subscribers order)
    let sent' := s.kernel.sendEach frame (recipients s.subscribers order')
    sent'.2 = sent.2 ∧ (sent.2 = false → sent.1.Alike sent'.1) := by
  intro sent sent'
  have hnodup := h.nodup_recipients hn
  have hnodup' := h.nodup_recipients (hp.nodup_iff.mp hn)
  have htargets : (recipients s.subscribers order).Perm (recipients s.subscribers order') :=
    hp.filterMap _
  have hmem (target : Bytes × Fd) : target ∈ recipients s.subscribers order' ↔
      target ∈ recipients s.subscribers order := htargets.mem_iff.symm
  have hkilled : sent'.2 = sent.2 := by
    rw [Bool.eq_iff_iff, Kernel.sendEach_killed_iff frame s.kernel hnodup',
      Kernel.sendEach_killed_iff frame s.kernel hnodup]
    simp only [hmem]
  refine ⟨hkilled, fun halive ↦ ⟨fun fd ↦ ?_, ?_, ?_, ?_⟩⟩
  · obtain ⟨hother, hgets⟩ := s.kernel.socket_sendEach frame hnodup halive
    obtain ⟨hother', hgets'⟩ := s.kernel.socket_sendEach frame hnodup' (hkilled.trans halive)
    by_cases hm : fd ∈ (recipients s.subscribers order).map Prod.snd
    · obtain ⟨⟨client, fd⟩, htarget, rfl⟩ := List.mem_map.mp hm
      exact (hgets' client fd ((hmem _).mpr htarget)).trans (hgets client fd htarget).symm
    · have hm' : fd ∉ (recipients s.subscribers order').map Prod.snd :=
        fun hfd ↦ hm ((htargets.map Prod.snd).mem_iff.mpr hfd)
      exact (hother' fd hm').trans (hother fd hm).symm
  · exact (Kernel.archive_sendEach ..).trans (Kernel.archive_sendEach ..).symm
  · exact (h.serves_route frame order').stray.trans (h.serves_route frame order).stray.symm
  · exact (Kernel.uses_sendEach ..).trans (Kernel.uses_sendEach ..).symm

private theorem receiveDatagram_eq (h : Sessions s) {datagram : Datagram} {stale : MessageBuffer}
    {order : List Bytes} (hn : order.Nodup)
    (ho : order.toFinset = s.trie.findSubscribers (topicStr (messageResponse datagram stale).msg)) :
    let sent := s.kernel.sendEach (.message (messageResponse datagram stale))
      (recipients s.subscribers order)
    s.receiveDatagram datagram stale order =
      some { s with kernel := sent.1, place := if sent.2 then .killed else .udp } := by
  have hfound : ∀ id ∈ order, (UnorderedMap.find s.subscribers id).isSome := by
    intro id hm
    rw [← List.mem_toFinset, ho] at hm
    exact h.isSome_of_mem_findSubscribers hm
  rw [State.receiveDatagram, sendMsgToAllSubs, if_pos ⟨hn, ho⟩, sendLoop_eq _ _ hfound]
  rfl

private theorem step_sameButOrder (h : Sessions s) {event event' : Event}
    (he : event.SameButOrder event') (hs : s.step event = some t) :
    ∃ t', s.step event' = some t' ∧ t.SameEnd t' := by
  cases he with
  | same => exact ⟨t, hs, rfl, fun _ ↦ .refl t.kernel⟩
  | @order datagram stale order order' hperm =>
    obtain ⟨hp, hs⟩ := Option.ite_none_right_eq_some.mp hs
    obtain ⟨result, hr, -⟩ := Option.map_eq_some_iff.mp hs
    obtain ⟨⟨hn, ho⟩, -⟩ := Option.ite_none_right_eq_some.mp hr
    have ho' : order'.toFinset =
        s.trie.findSubscribers (topicStr (messageResponse datagram stale).msg) :=
      (List.toFinset_eq_of_perm _ _ hperm).symm.trans ho
    rw [h.receiveDatagram_eq hn ho] at hs
    obtain rfl := Option.some.inj hs
    obtain ⟨hkilled, halike⟩ := h.sendEach_perm (.message (messageResponse datagram stale)) hn hperm
    refine ⟨_, (if_pos hp).trans (h.receiveDatagram_eq (hperm.nodup_iff.mp hn) ho'), ?_, ?_⟩
    · rw [hkilled]
      rfl
    · intro hk
      refine halike (Bool.eq_false_of_not_eq_true fun hsent ↦ hk ?_)
      exact if_pos hsent

private theorem exists_run_of_sameButOrder (h : Sessions s) {s' : State} (hsame : s.SameEnd s')
    {events events' : List Event} (hrun : Run s events t)
    (he : List.Forall₂ Event.SameButOrder events events') :
    ∃ t', Run s' events' t' ∧ t.SameEnd t' := by
  induction hrun generalizing s' events' with
  | nil =>
    cases he
    exact ⟨s', .nil, hsame⟩
  | @cons s u t event events _ hstep _ ih =>
    cases he with
    | @cons _ event' _ events' hevent hevents =>
      have halike := hsame.kernel (State.place_ne_killed_of_step hstep)
      obtain ⟨u', hstep', htables, hkernel⟩ := h.step_sameButOrder hevent hstep
      obtain ⟨later, hlater, halike'⟩ := halike.step hstep'
      rw [← hsame.tables] at hlater
      have hend : u.SameEnd (u'.on later) :=
        ⟨by rw [htables]; rfl, fun hk ↦ (hkernel hk).trans halike'⟩
      obtain ⟨t', ht', hend'⟩ := ih (h.step hstep) hend hevents
      exact ⟨t', .cons trivial hlater ht', hend'⟩

end Sessions

/-- The order in which ids are traversed does not matter. For each run from a reachable state,
sends may fail in it, and other orders of the ids found there is a run with these that ends with
the same tables, and, unless the process is killed, with the same connections, on which the same
has been written. -/
theorem same_for_every_order {udpfd listenfd : Fd} (hr : Reachable udpfd listenfd s)
    {events events' : List Event} (h : Run s events t)
    (he : List.Forall₂ Event.SameButOrder events events') :
    ∃ t', Run s events' t' ∧ t.SameEnd t' :=
  (Sessions.of_reaches hr).exists_run_of_sameButOrder ⟨rfl, fun _ ↦ .refl s.kernel⟩ h he

/-- Two clients are sent a message, the second one first. -/
theorem same_for_every_order_everythingRun : ∃ s t t', Reachable 3 4 s ∧
    Run s (publishRound [[65], [66]] 2) t ∧ Run s (publishRound [[66], [65]] 2) t' ∧
    t.SameEnd t' ∧ t.place = .poll := by
  have hrun : (exec State.step (State.initial 3 4) everythingRun).any (fun s ↦
      (exec State.step s (publishRound [[65], [66]] 2)).any fun t ↦ t.place = .poll) = true := by
    decide +kernel
  obtain ⟨s, hs, hnext⟩ := (Option.any_eq_true _ _).mp hrun
  obtain ⟨t, ht, hplace⟩ := exists_exec hnext
  have horder : List.Forall₂ Event.SameButOrder (publishRound [[65], [66]] 2)
      (publishRound [[66], [65]] 2) := by
    refine List.rel_append ?_ (List.forall₂_same.mpr fun event _ ↦ .same event)
    exact .cons (.same _) (.cons (.same _) (.cons (.order (.swap ..)) (.cons (.same _)
      (.cons (.same _) .nil))))
  have hr : Reachable 3 4 s := reaches_of_exec hs
  obtain ⟨t', ht', hsame⟩ := same_for_every_order hr (runs_of_exec ht) horder
  exact ⟨s, t, t', hr, runs_of_exec ht, ht', hsame, hplace⟩

end Broker.Server
