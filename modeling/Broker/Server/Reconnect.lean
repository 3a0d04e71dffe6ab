import Broker.Server.Sessions

/-!
# Coming back in the round in which a connection ends

A round handles the listener before it reads from the clients. An id whose connection has
ended is therefore still marked as connected when a new connection presents it in the same
round, and the new connection is closed.
-/

namespace Broker.Server
open Broker.Base Broker.Net Broker.Topic

/-- The end of the stream is already there, behind bytes that are there as well. -/
def endQueued : List Arrival → Bool
  | .segment _ _ :: later => endQueued later
  | .fin :: _ => true
  | _ => false

/-- `poll` is about to return, and the peer of a client's current connection has closed it. -/
structure State.Gone (s : State) (id : Bytes) (fd : Fd) : Prop where
  place : s.place = .poll
  live : s.Live id fd
  ended : (s.kernel.socket fd).any (endQueued ·.inbox) = true

/-- The first ten bytes of a connection are this id. -/
def Connection.Presents (connection : Connection) (id : Bytes) : Prop :=
  ∃ data inbox, recvall idLength connection.inbox = some (.complete data, inbox) ∧
    connectingId data = id

/-- The events within a round: everything but the return of `poll`. -/
def Event.withinRound : Event → Bool
  | poll _ => false
  | _ => true

namespace Place

/-- The listener has had its turn in the round, or the round is over. -/
def pastListener : Place → Bool
  | stdin => false
  | udp => false
  | listener => false
  | _ => true

private theorem pastListener_of_phase {place later : Place} (hp : place.pastListener = true)
    (hne : place ≠ .poll) (hle : place.phase ≤ later.phase) : later.pastListener = true := by
  cases place with
  | poll => exact absurd rfl hne
  | stdin => cases hp
  | udp => cases hp
  | listener => cases hp
  | _ => cases later <;> first | rfl | (simp [phase] at hle)

end Place

namespace State

/-- As long as the listener has not had its turn, the id is live on the descriptor. -/
def LiveBefore (s : State) (id : Bytes) (fd : Fd) : Prop :=
  s.place.pastListener = true ∨ s.Live id fd

/-- The listener has had its turn, and the descriptor has no name. -/
def PassedOver (s : State) (fd : Fd) : Prop :=
  s.place.pastListener = true ∧ s.clientName fd = none

variable {s t : State}

private theorem step_of_round_over (hp : s.place = .poll) {event : Event} (hq : event.quiet = true)
    (hr : event.withinRound = true) : s.step event = none := by
  cases event with
  | poll readable => cases hr
  | proceed => simp [step, hp]
  | drained => simp [step, hp]
  | acceptFails => simp [step, hp]
  | _ => cases hq

end State

namespace Sessions

variable {s t : State}

private theorem pastListener_step (h : Sessions s) (hp : s.place.pastListener = true)
    {event : Event} (hr : event.withinRound = true) (ht : s.step event = some t) :
    t.place.pastListener = true := by
  cases h.move ht with
  | typed hleft hclosed => exact hp
  | stdinClosed hleft => exact hp
  | command hplace hread => rw [hplace] at hp; cases hp
  | @idle event pollFds place hevent hfds hleft hphase hposition =>
    have hne : s.place ≠ .poll := fun he ↦ by
      rw [State.step_of_round_over he hevent hr] at ht
      cases ht
    obtain hle | rfl := hphase
    · exact Place.pastListener_of_phase hp hne hle
    · rfl
  | die hevent => rfl
  | route hplace hnodup horder hsent => rw [hplace] at hp; cases hp
  | refuse hplace hopen => rfl
  | connect hplace hopen hread hfree => rfl
  | ignore hreading hrecv hlength hnone => rfl
  | act hreading hrecv hlength hrequested hsent =>
    dsimp only
    split <;> rfl
  | short hreading hrecv hresult => rfl
  | disconnect hreading hrecv hresult => rfl

private theorem liveBefore_step (h : Sessions s) {id : Bytes} {fd : Fd} (hl : s.LiveBefore id fd)
    {event : Event} (hr : event.withinRound = true) (ht : s.step event = some t) :
    t.LiveBefore id fd := by
  obtain hp | hl := hl
  · exact .inl (h.pastListener_step hp hr ht)
  · cases h.move ht with
    | refuse hplace hopen => exact .inl rfl
    | connect hplace hopen hread hfree => exact .inl rfl
    | ignore hreading hrecv hlength hnone => exact .inl rfl
    | act hreading hrecv hlength hrequested hsent =>
      refine .inl ?_
      dsimp only
      split <;> rfl
    | short hreading hrecv hresult => exact .inl rfl
    | disconnect hreading hrecv hresult => exact .inl rfl
    | _ => exact .inr hl

private theorem passedOver_accept (h : Sessions s) {id : Bytes} {fd new : Fd}
    (hl : s.LiveBefore id fd)
    {connection : Connection} {revents : Bool} (hid : connection.Presents id)
    (ht : s.step (.accept new connection revents) = some t) : t.PassedOver new := by
  cases h.move ht with
  | refuse hplace hopen => exact ⟨rfl, h.name_of_not_open hopen⟩
  | connect hplace hopen hread hfree =>
    obtain hp | hl := hl
    · rw [hplace] at hp
      cases hp
    · obtain ⟨data, inbox, hr, rfl⟩ := hid
      cases hread.symm.trans hr
      exact absurd ⟨fd, hl⟩ hfree
  | idle hevent => cases hevent
  | die hevent => simp at hevent

private theorem passedOver_step (h : Sessions s) {fd : Fd} (hp : s.PassedOver fd) {event : Event}
    (hr : event.withinRound = true) (ht : s.step event = some t) : t.PassedOver fd := by
  obtain ⟨hp, hn⟩ := hp
  refine ⟨h.pastListener_step hp hr ht, ?_⟩
  cases h.move ht with
  | connect hplace hopen hread hfree => rw [hplace] at hp; cases hp
  | @disconnect i other id data sock stack result inbox hreading hrecv hresult =>
    apply (UnorderedMap.find_erase s.connectedSubscribers other fd).trans
    split
    · rfl
    · exact hn
  | _ => exact hn

end Sessions

/-- In no round does a client come back whose connection has ended: if its end is queued when
`poll` returns and a connection that presents its id is accepted in the same round, then for
every interleaving of the round's events the new connection is closed at once, and the id is
not connected on it at any point of the round or at its end. -/
theorem not_live_after_reconnect {udpfd listenfd : Fd} {s t : State} {id : Bytes} {fd new : Fd}
    (h : Reachable udpfd listenfd s) (hgone : s.Gone id fd) {readable : Fd → Bool}
    {connection : Connection} {revents : Bool} (hid : connection.Presents id)
    {front back : List Event} (hfront : ∀ event ∈ front, event.withinRound = true)
    (hback : ∀ event ∈ back, event.withinRound = true)
    (hround : exec State.step s
      (.poll readable :: front ++ .accept new connection revents :: back) = some t) :
    ¬ t.Live id new ∧ t.kernel.socket new = none := by
  have hs := Sessions.of_reaches h
  rw [exec_append] at hround
  obtain ⟨u, hu, hround⟩ := Option.bind_eq_some_iff.mp hround
  obtain ⟨v, hv, ht⟩ := Option.bind_eq_some_iff.mp hround
  obtain ⟨p, hp, hu⟩ := Option.bind_eq_some_iff.mp hu
  -- When `poll` has returned, the id is still live.
  have hlive : p.LiveBefore id fd := by
    obtain ⟨-, hp⟩ := Option.ite_none_right_eq_some.mp hp
    cases hp
    exact .inr hgone.live
  have hbefore : Sessions u ∧ u.LiveBefore id fd :=
    (reaches_of_forall hfront hu).invariant (P := fun s ↦ Sessions s ∧ s.LiveBefore id fd)
      ⟨hs.step hp, hlive⟩ fun _ _ _ hs hr ht ↦ ⟨hs.1.step ht, hs.1.liveBefore_step hs.2 hr ht⟩
  have hafter : Sessions t ∧ t.PassedOver new :=
    (reaches_of_forall hback ht).invariant (P := fun s ↦ Sessions s ∧ s.PassedOver new)
      ⟨hbefore.1.step hv, hbefore.1.passedOver_accept hbefore.2 hid hv⟩
      fun _ _ _ hs hr ht ↦ ⟨hs.1.step ht, hs.1.passedOver_step hs.2 hr ht⟩
  obtain ⟨ht, -, hn⟩ := hafter
  refine ⟨fun hl ↦ ?_, ?_⟩
  · rw [(ht.named new id).mpr hl] at hn
    cases hn
  · have ho := ht.serves.owner new
    rw [hn] at ho
    exact Option.map_eq_none_iff.mp ho

/-- A client subscribes to `a` and closes its connection. -/
def leavingRun : List Event :=
  joinRound 4 5 0 (simpleClient 65 [simpleRequest 0 [97], .gap, .fin] []) ++
    visitRound 5 0 ++ [.client [], .client [], .proceed]

/-- The round in which it comes back. -/
def reconnectRound : List Event :=
  .poll (fun fd ↦ fd == 4 || fd == 5) :: [.proceed, .proceed] ++
    .accept 6 (simpleClient 65 [] []) false :: [.client [], .proceed]

private theorem exec_reconnectRound : ∃ s t, Reachable 3 4 s ∧ s.Gone [65] 5 ∧
    exec State.step s reconnectRound = some t ∧ t.place = .poll ∧
    (t.subscriber [65]).all (fun data ↦ !data.connected) = true := by
  have hrun : (exec State.step (State.initial 3 4) leavingRun).any (fun s ↦ s.place = .poll ∧
      (s.subscriber [65]).any (fun data ↦ data.connected && data.sockfd == 5) = true ∧
      (s.kernel.socket 5).any (endQueued ·.inbox) = true ∧
      (exec State.step s reconnectRound).any (fun t ↦ t.place = .poll ∧
        (t.subscriber [65]).all (fun data ↦ !data.connected) = true) = true) = true := by
    decide +kernel
  obtain ⟨s, hs, hplace, hlive, hended, hround⟩ := exists_exec hrun
  obtain ⟨t, ht, hend, hleft⟩ := exists_exec hround
  obtain ⟨data, hd, hlive⟩ := (Option.any_eq_true _ _).mp hlive
  obtain ⟨hc, hf⟩ := (Bool.and_eq_true _ _).mp hlive
  exact ⟨s, t, reaches_of_exec hs, ⟨hplace, ⟨data, hd, hc, by simpa using hf⟩, hended⟩, ht, hend,
    hleft⟩

private theorem presents_simpleClient : (simpleClient 65 [] []).Presents [65] :=
  ⟨65 :: List.replicate 9 0, [], by decide, by decide⟩

/-- The new connection of that round is closed. -/
theorem not_live_after_reconnect_round : ∃ s t, Reachable 3 4 s ∧ s.Gone [65] 5 ∧
    exec State.step s reconnectRound = some t ∧ t.place = .poll ∧
    ¬ t.Live [65] 6 ∧ t.kernel.socket 6 = none := by
  obtain ⟨s, t, hs, hgone, ht, hend, -⟩ := exec_reconnectRound
  exact ⟨s, t, hs, hgone, ht, hend,
    not_live_after_reconnect hs hgone presents_simpleClient (by decide) (by decide) ht⟩

/-- After that round the client that has come back is not connected at all. -/
theorem not_connected_reconnectRound : ∃ s t, Reachable 3 4 s ∧ s.Gone [65] 5 ∧
    (simpleClient 65 [] []).Presents [65] ∧ exec State.step s reconnectRound = some t ∧
    t.place = .poll ∧ ¬ t.Connected [65] := by
  obtain ⟨s, t, hs, hgone, ht, hend, hleft⟩ := exec_reconnectRound
  refine ⟨s, t, hs, hgone, presents_simpleClient, ht, hend, ?_⟩
  rintro ⟨fd, data, hd, hc, -⟩
  rw [hd, Option.all_some, hc] at hleft
  cases hleft

end Broker.Server
