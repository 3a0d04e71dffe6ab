import Broker.Server.Alone

/-!
# Other clients can be erased

The steps that connect a client, read from it or end its connection. Those of the client itself
are followed by a server it is alone on, those of all others are left out; with the steps that
concern no client in particular, this makes every step of the server one or the other.
-/

namespace Broker.Server
open Broker.Base Broker.Net Broker.Topic

namespace Alone

variable {id : Bytes} {s s' t : State}

private theorem step_accept (h : Alone id s s') {fd : Fd} {connection : Connection} {revents : Bool}
    (hs : s.step (.accept fd connection revents) = some t) :
    ∃ t', s'.step (.accept fd connection revents) = some t' := by
  obtain ⟨⟨hp, hr, hopen⟩, hs⟩ := Option.ite_none_right_eq_some.mp hs
  obtain ⟨u, hu, -⟩ := Option.map_eq_some_iff.mp hs
  obtain ⟨u', hu'⟩ := Option.isSome_iff_exists.mp (State.isSome_connectNewClient hu s')
  refine ⟨{ u' with place := .clients subsStartIdx }, ?_⟩
  have hready : s'.ready listnerPollfdIdx = true := (h.ready (by decide)).trans hr
  have hplace := h.place_eq hp (fun i hi ↦ nomatch hi)
  rw [State.step, if_pos ⟨hplace, hready, fun ho ↦ hopen (h.isOpen ho)⟩, hu']
  rfl

/-- A connection of another client is left out: where it is accepted, `accept` fails there. -/
theorem accept_foreign (h : Alone id s s') (hsend : s.kernel.SendsSucceed) {fd : Fd}
    {connection : Connection} {revents : Bool}
    (hs : s.step (.accept fd connection revents) = some t)
    (hforeign : Event.Foreign id (.accept fd connection revents)) :
    Simulated id s s' (.accept fd connection revents) t := by
  obtain ⟨other, hpresented, hne⟩ := hforeign
  obtain ⟨⟨hp, hr, hopen⟩, -⟩ := Option.ite_none_right_eq_some.mp hs
  have hs' := h.step_acceptFails hp hr
  have hlabel : s.clientEvent id (.accept fd connection revents) = none := by
    rw [State.clientEvent, hpresented, if_neg (by simpa using hne)]
  refine .inr ⟨.acceptFails, _, fun hf ↦ hf, h.sendsSucceed hsend, hs', ?_, hlabel.symm⟩
  obtain ⟨⟨hplace, hstdin, -⟩, hcases⟩ := h.sessions.accept_cases hs
  have hstdin' := h.stdin.trans hstdin.symm
  have hplace' : Place.clients subsStartIdx = t.placeFor id := by simp [State.placeFor, hplace]
  obtain ⟨hnames, hfds⟩ | ⟨new, hnew, -, hname, hfds⟩ := hcases
  · exact h.keep hsend hs hs' hlabel.symm hnames rfl hfds rfl h.holds hstdin' hplace'
  · obtain rfl := Option.some.inj (hpresented.symm.trans hnew)
    have hnone := h.sessions.name_of_not_open hopen
    refine h.follow hsend hs hs' hlabel.symm (fun fd' ↦ ?_) h.holds ?_ ?_ hstdin' hplace'
    · refine (h.names fd').trans ?_
      rw [hname]
      by_cases he : fd = fd'
      · subst he
        rw [hnone, if_pos rfl, if_neg (by simp), if_neg (by simpa using hne)]
      · rw [if_neg he]
    · exact h.own.trans (h.sessions.take_append hfds).symm
    · rw [h.sessions.clientEntries_append hfds, List.filter_append,
        h.sessions.filter_isOwn hnone hname, List.filter_cons_of_neg, List.filter_nil,
        List.append_nil]
      · exact h.entries
      · simpa [State.isOwn, hname] using hne

/-- A connection of the client is followed. -/
theorem accept_own (h : Alone id s s') (hsend : s.kernel.SendsSucceed) {fd : Fd}
    {connection : Connection} {revents : Bool}
    (hs : s.step (.accept fd connection revents) = some t)
    (hforeign : ¬ Event.Foreign id (.accept fd connection revents)) :
    Simulated id s s' (.accept fd connection revents) t := by
  obtain ⟨⟨-, -, hopen⟩, -⟩ := Option.ite_none_right_eq_some.mp hs
  obtain ⟨t', hs'⟩ := h.step_accept hs
  refine .inr ⟨.accept fd connection revents, t', hforeign, h.sendsSucceed hsend, hs', ?_, rfl⟩
  have heq {new : Bytes} (hnew : connection.presentedId = some new) : new = id := by
    by_contra hne
    exact hforeign ⟨new, hnew, hne⟩
  obtain ⟨⟨hplace, hstdin, -⟩, hcases⟩ := h.sessions.accept_cases hs
  obtain ⟨⟨hplace', hstdin', htrie'⟩, hcases'⟩ := h.sessions'.accept_cases hs'
  have hin : t'.stdin = t.stdin := by rw [hstdin, hstdin', h.stdin]
  have hat : t'.place = t.placeFor id := by simp [State.placeFor, hplace, hplace']
  have hholds (path : List Level) (other : Bytes) (hh : t'.trie.Holds path other) : other = id :=
    h.holds path other (htrie' ▸ hh)
  obtain ⟨hnames, hfds⟩ | ⟨new, hnew, hfree, hname, hfds⟩ := hcases
  · obtain ⟨hnames', hfds'⟩ | ⟨new', hnew', hfree', -, -⟩ := hcases'
    · exact h.keep hsend hs hs' rfl hnames hnames' hfds hfds' hholds hin hat
    · obtain rfl := heq hnew'
      exact absurd (h.connected.mpr (h.sessions.connected_of_refused hs hnames hnew')) hfree'
  · obtain rfl := heq hnew
    obtain ⟨hnames', -⟩ | ⟨new', hnew', -, hname', hfds'⟩ := hcases'
    · exact absurd (h.connected.mp (h.sessions'.connected_of_refused hs' hnames' hnew)) hfree
    · obtain rfl := heq hnew'
      refine h.follow hsend hs hs' rfl (fun fd' ↦ ?_) hholds ?_ ?_ hin hat
      · rw [hname, hname']
        split
        · rw [if_pos rfl]
        · exact h.names fd'
      · rw [h.sessions.take_append hfds, h.sessions'.take_append hfds', h.own]
      · rw [h.sessions.clientEntries_append hfds, h.sessions'.clientEntries_append hfds',
          List.filter_append, h.entries,
          h.sessions.filter_isOwn (h.sessions.name_of_not_open hopen) hname,
          List.filter_cons_of_pos, List.filter_nil]
        simp [State.isOwn, hname]

private theorem accept (h : Alone id s s') (hsend : s.kernel.SendsSucceed) {fd : Fd}
    {connection : Connection} {revents : Bool}
    (hs : s.step (.accept fd connection revents) = some t) :
    Simulated id s s' (.accept fd connection revents) t := by
  by_cases hforeign : Event.Foreign id (.accept fd connection revents)
  · exact h.accept_foreign hsend hs hforeign
  · exact h.accept_own hsend hs hforeign

private theorem reading (h : Alone id s s') {i : Nat} {fd : Fd} {data : SubscriberData}
    {sock : Socket} (hr : Reading s i fd id data sock) :
    ∃ data', Reading s' (s.positionFor id i) fd id data' sock := by
  obtain ⟨entry, he, rfl, hin⟩ := hr.entry
  have ho : s.isOwn id entry = true := by simp [State.isOwn, hr.name]
  have hl := (h.live entry.fd).mpr hr.live
  have hc : s'.current id = s.current id := congrArg View.current h.view
  rw [State.current_of_live hl, State.current_of_live hr.live, hr.socket] at hc
  obtain ⟨data', hd, hconnected, hf⟩ := hl
  exact ⟨data', h.place_clients hr.place, ⟨entry, h.entry hr.place he ho, rfl, hin⟩,
    by rw [h.names, if_pos hr.name], hd, hconnected, hf, hc⟩

/-- What is read from the client is followed. -/
theorem client_own (h : Alone id s s') (hsend : s.kernel.SendsSucceed) {stack : Bytes}
    (hs : s.step (.client stack) = some t) {i : Nat} {fd : Fd} {data : SubscriberData}
    {sock : Socket} (hr : Reading s i fd id data sock) (hturned : s.Turned i fd t (turnEnd sock))
    (hstdin : t.stdin = s.stdin) : Simulated id s s' (.client stack) t := by
  obtain ⟨data', hr'⟩ := h.reading hr
  obtain ⟨t', hs'⟩ := hr.exists_step hr' hs
  obtain ⟨j, fd', id', _, sock', hfound, hturned', hstdin', hholds'⟩ :=
    h.sessions'.client_cases (h.sendsSucceed hsend) hs'
  obtain ⟨rfl, rfl, rfl, rfl, rfl⟩ := hr'.unique hfound
  have hlabel : s'.clientEvent id (.client stack) = s.clientEvent id (.client stack) := by
    rw [State.clientEvent, State.clientEvent, hr.turn, hr'.turn]
  refine .inr ⟨.client stack, t', fun hf ↦ hf, h.sendsSucceed hsend, hs', ?_, hlabel⟩
  have hin : t'.stdin = t.stdin := by rw [hstdin, hstdin', h.stdin]
  have hholds (path : List Level) (other : Bytes) (hh : t'.trie.Holds path other) : other = id :=
    (hholds' path other hh).elim (fun he ↦ he) (h.holds path other)
  obtain ⟨entry, he, rfl, hready⟩ := hr.entry
  have ho : s.isOwn id entry = true := by simp [State.isOwn, hr.name]
  cases hend : turnEnd sock with
  | again =>
    rw [hend] at hturned hturned'
    obtain ⟨hnames, hfds, hplace⟩ := hturned
    obtain ⟨hnames', hfds', hplace'⟩ := hturned'
    apply h.keep hsend hs hs' hlabel hnames hnames' hfds hfds' hholds hin
    rw [hplace', State.placeFor_clients hplace, State.positionFor_congr hnames hfds]
  | next =>
    rw [hend] at hturned hturned'
    obtain ⟨hnames, hfds, hplace⟩ := hturned
    obtain ⟨hnames', hfds', hplace'⟩ := hturned'
    apply h.keep hsend hs hs' hlabel hnames hnames' hfds hfds' hholds hin
    rw [hplace', State.placeFor_clients hplace, State.positionFor_congr hnames hfds,
      s.positionFor_next id (h.sessions.position i hr.place) he, if_pos ho]
  | gone =>
    rw [hend] at hturned hturned'
    have hi := h.sessions.position i hr.place
    have hi' : subsStartIdx ≤ s.positionFor id i := Nat.le_add_right _ _
    have hrank : s.positionFor id i - subsStartIdx =
        rank (s.isOwn id) s.clientEntries (i - subsStartIdx) := Nat.add_sub_cancel_left _ _
    refine h.follow hsend hs hs' hlabel (fun fd ↦ ?_) hholds ?_ ?_ hin ?_
    · have hname := UnorderedMap.find_erase s.connectedSubscribers entry.fd fd
      have hname' := UnorderedMap.find_erase s'.connectedSubscribers entry.fd fd
      rw [State.clientName, State.clientName, hturned.1, hturned'.1, hname, hname']
      split
      · rfl
      · exact h.names fd
    · rw [hturned.2.1, hturned'.2.1, List.take_eraseIdx_eq_take_of_le _ _ _ hi,
        List.take_eraseIdx_eq_take_of_le _ _ _ hi', h.own]
    · rw [h.sessions.filter_of_gone hr.place he hturned,
        h.sessions'.clientEntries_of_gone hr'.place hturned', h.entries, hrank,
        filter_eraseIdx_of_pos ((State.getElem?_clientEntries s hi).trans he) ho]
    · rw [hturned'.2.2, State.placeFor_clients hturned.2.2,
        h.sessions.positionFor_of_gone hr.place he hturned]

/-- What is read from another client is left out. -/
theorem client_foreign (h : Alone id s s') (hsend : s.kernel.SendsSucceed) {stack : Bytes}
    (hs : s.step (.client stack) = some t) {i : Nat} {fd : Fd} {other : Bytes}
    {data : SubscriberData} {sock : Socket} (hr : Reading s i fd other data sock)
    (hturned : s.Turned i fd t (turnEnd sock)) (hstdin : t.stdin = s.stdin) (hne : other ≠ id) :
    Simulated id s s' (.client stack) t := by
  have hlabel : s.clientEvent id (.client stack) = none := by
    rw [State.clientEvent, hr.turn, if_neg (by simpa using hne)]
  obtain ⟨entry, he, rfl, hready⟩ := hr.entry
  have hi := h.sessions.position i hr.place
  have ho : s.isOwn id entry = false := by simpa [State.isOwn, hr.name] using hne
  have hplace := State.placeFor_clients hr.place id
  have hsame (hnames : t.connectedSubscribers = s.connectedSubscribers)
      (hfds : t.pollFds = s.pollFds) (hat : t.placeFor id = s.placeFor id) : Alone id t s' := by
    refine h.stay hsend hs hlabel (fun fd ↦ ?_) (by rw [hfds]) ?_ hstdin hat
    · rw [State.clientName, hnames, State.clientName]
    · rw [State.clientEntries, hfds, State.isOwn_congr hnames, State.clientEntries]
  refine .inl ⟨?_, hlabel⟩
  cases hend : turnEnd sock with
  | again =>
    rw [hend] at hturned
    obtain ⟨hnames, hfds, hat⟩ := hturned
    apply hsame hnames hfds
    rw [State.placeFor_clients hat, hplace, State.positionFor_congr hnames hfds]
  | next =>
    rw [hend] at hturned
    obtain ⟨hnames, hfds, hat⟩ := hturned
    apply hsame hnames hfds
    rw [State.placeFor_clients hat, hplace, State.positionFor_congr hnames hfds,
      s.positionFor_next id hi he, if_neg (by simp [ho]), Nat.add_zero]
  | gone =>
    rw [hend] at hturned
    refine h.stay hsend hs hlabel (fun fd ↦ ?_) ?_ ?_ hstdin ?_
    · have hname := UnorderedMap.find_erase s.connectedSubscribers entry.fd fd
      rw [State.clientName, hturned.1, hname]
      split
      · next hf =>
        rw [← hf, hr.name]
        simpa using hne
      · exact Iff.rfl
    · rw [hturned.2.1, List.take_eraseIdx_eq_take_of_le _ _ _ hi]
    · rw [h.sessions.filter_of_gone hr.place he hturned,
        filter_eraseIdx_of_neg ((State.getElem?_clientEntries s hi).trans he) ho]
    · rw [State.placeFor_clients hturned.2.2, hplace,
        h.sessions.positionFor_of_gone hr.place he hturned]

private theorem client (h : Alone id s s') (hsend : s.kernel.SendsSucceed) {stack : Bytes}
    (hs : s.step (.client stack) = some t) : Simulated id s s' (.client stack) t := by
  obtain ⟨i, fd, other, data, sock, hr, hturned, hstdin, -⟩ := h.sessions.client_cases hsend hs
  by_cases he : other = id
  · subst he
    exact h.client_own hsend hs hr hturned hstdin
  · exact h.client_foreign hsend hs hr hturned hstdin he

/-- Every step is followed or left out. -/
theorem simulated (h : Alone id s s') (hsend : s.kernel.SendsSucceed) {event : Event}
    (hs : s.step event = some t) : Simulated id s s' event t := by
  cases event with
  | typed bytes => exact h.typed hsend hs
  | stdinClosed => exact h.stdinClosed hsend hs
  | poll readable => exact h.poll hsend hs
  | pollFails => exact h.pollFails hsend hs
  | proceed => exact h.proceed hsend hs
  | datagram datagram stale order => exact h.datagram hsend hs
  | drained => exact h.drained hsend hs
  | accept fd connection revents => exact h.accept hsend hs
  | acceptFails => exact h.acceptFails hsend hs
  | nagleFails => exact h.nagleFails hsend hs
  | client stack => exact h.client hsend hs

end Alone
end Broker.Server
