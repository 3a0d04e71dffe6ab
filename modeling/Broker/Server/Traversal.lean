import Broker.Base.Progress
import Broker.Server.Entries

/-!
# One traversal of the clients

The loop over the clients (`server.cpp:214–242`) removes an entry of `poll_fds` while it goes
through them, and stays at a client as long as whole requests arrive. All the same it comes to
every readable client once, in their order, and to no other one; it never stops on the way, and
it takes no more steps than there are bytes and entries.
-/

namespace Broker.Server
open Broker.Base Broker.Net Broker.Topic

/-- The events by which the loop over the clients goes on. -/
def Event.ofLoop : Event → Bool
  | proceed => true
  | client _ => true
  | _ => false

namespace State

/-- The server is in the loop over the clients. -/
def InClients (s : State) : Prop := ∃ i, s.place = .clients i

/-- The place of the server is in the loop over the clients. -/
def inClients (s : State) : Bool :=
  match s.place with
  | .clients _ => true
  | _ => false

private theorem inClients_iff {s : State} : s.inClients = true ↔ s.InClients := by
  unfold inClients InClients
  split
  · next i hi => exact iff_of_true rfl ⟨i, hi⟩
  · next hn => exact iff_of_false Bool.false_ne_true fun ⟨i, hi⟩ ↦ hn i hi

/-- The turn of the loop an event makes: at which descriptor, and how it ends. -/
def turnAt (s : State) : Event → Option (Fd × TurnEnd)
  | .client _ =>
    match s.place with
    | .clients i => (s.pollFds[i]?).bind fun entry ↦
        (s.kernel.socket entry.fd).map fun sock ↦ (entry.fd, turnEnd sock)
    | _ => none
  | _ => none

/-- The turns of a run. -/
def turns (s : State) (events : List Event) : List (Fd × TurnEnd) :=
  labels State.step State.turnAt s events

/-- The number of bytes that can still be read from a descriptor. -/
def unread (s : State) (fd : Fd) : Nat :=
  ((s.kernel.socket fd).map fun sock ↦ (payload sock.inbox).length).getD 0

/-- The bytes and the entries the loop has ahead of it, and its end. -/
def load (s : State) : Nat :=
  match s.place with
  | .clients i => ((s.pollFds.drop i).map fun entry ↦ s.unread entry.fd + 1).sum + 1
  | _ => 0

end State

/-- What turns make of the entries ahead: a client that is not readable is passed by; at one that
is the loop stays until its turn ends, and the client is left in the list or taken out of it. -/
inductive Pass : List PollFd → List (Fd × TurnEnd) → List Fd → Prop
  | nil : Pass [] [] []
  | skip {entry ahead turns left} (hready : entry.pollin = false) (h : Pass ahead turns left) :
    Pass (entry :: ahead) turns (entry.fd :: left)
  | again {entry ahead turns left} (hready : entry.pollin = true)
      (h : Pass (entry :: ahead) turns left) :
    Pass (entry :: ahead) ((entry.fd, .again) :: turns) left
  | next {entry ahead turns left} (hready : entry.pollin = true) (h : Pass ahead turns left) :
    Pass (entry :: ahead) ((entry.fd, .next) :: turns) (entry.fd :: left)
  | gone {entry ahead turns left} (hready : entry.pollin = true) (h : Pass ahead turns left) :
    Pass (entry :: ahead) ((entry.fd, .gone) :: turns) left

/-- The descriptor of a turn that ends. -/
def endedAt : Fd × TurnEnd → Option Fd
  | (_, .again) => none
  | (fd, .next) => some fd
  | (fd, .gone) => some fd

/-- A turn ends at every readable client, once and in their order. -/
theorem Pass.ended {ahead : List PollFd} {turns : List (Fd × TurnEnd)} {left : List Fd}
    (h : Pass ahead turns left) :
    turns.filterMap endedAt = (ahead.filter PollFd.pollin).map PollFd.fd := by
  induction h with
  | nil => rfl
  | skip hready _ ih => rw [ih, List.filter_cons_of_neg (by rw [hready]; exact Bool.false_ne_true)]
  | again hready _ ih => exact ih
  | next hready _ ih =>
    rw [List.filter_cons_of_pos hready, List.map_cons, ← ih]
    rfl
  | gone hready _ ih =>
    rw [List.filter_cons_of_pos hready, List.map_cons, ← ih]
    rfl

/-! ### One step -/

/-- What a step of the loop over the clients can do at position `i`. -/
inductive Passage (s : State) (i : Nat) : Event → State → Prop
  /-- Something happens to standard input. -/
  | outside {event t} (hevent : event.ofLoop = false) (hplace : t.place = s.place)
      (hfds : t.pollFds = s.pollFds) (hkernel : t.kernel = s.kernel) : Passage s i event t
  | pass {entry} (he : s.pollFds[i]? = some entry) (hready : entry.pollin = false) :
    Passage s i .proceed { s with place := .clients (i + 1) }
  | finish (he : s.pollFds[i]? = none) : Passage s i .proceed { s with place := .poll }
  | killed {stack t} (hplace : t.place = .killed) : Passage s i (.client stack) t
  | turn {stack entry sock t} (he : s.pollFds[i]? = some entry) (hready : entry.pollin = true)
      (hsock : s.kernel.socket entry.fd = some sock)
      (hturned : s.Turned i entry.fd t (turnEnd sock))
      (hothers : ∀ other, other ≠ entry.fd → t.kernel.socket other = s.kernel.socket other)
      (hless : turnEnd sock = .again → t.unread entry.fd < s.unread entry.fd) :
    Passage s i (.client stack) t

private theorem payload_lt_of_recv {size : Nat} {wire later : List Arrival} {bytes : Bytes}
    (h : recv size wire = (.received bytes, later)) (hn : bytes ≠ []) :
    (payload later).length < (payload wire).length := by
  cases wire with
  | nil => cases h
  | cons arrival wire =>
    cases arrival with
    | segment first rest =>
      cases h
      have hsplit := congrArg List.length (List.take_append_drop size (first :: rest))
      have hpos := List.length_pos_of_ne_nil hn
      rw [List.length_append] at hsplit
      rw [payload_pushFront, payload, List.length_append, List.length_append]
      omega
    | fin =>
      cases h
      exact absurd rfl hn
    | _ => cases h

variable {s t : State}

private theorem State.unread_of_socket {fd : Fd} {sock : Socket}
    (h : s.kernel.socket fd = some sock) : s.unread fd = (payload sock.inbox).length := by
  rw [State.unread, h]
  rfl

/-- Every step of the loop over the clients is one of these passages. -/
theorem Sessions.passage (h : Sessions s) {i : Nat} (hp : s.place = .clients i) {event : Event}
    (hs : s.step event = some t) : Passage s i event t := by
  cases event with
  | typed bytes =>
    obtain ⟨-, hs⟩ := Option.ite_none_left_eq_some.mp hs
    cases hs
    exact .outside rfl rfl rfl rfl
  | stdinClosed =>
    obtain ⟨-, hs⟩ := Option.ite_none_left_eq_some.mp hs
    cases hs
    exact .outside rfl rfl rfl rfl
  | proceed =>
    simp only [State.step, hp] at hs
    split at hs
    · next entry he =>
      obtain ⟨hready, hs⟩ := Option.ite_none_left_eq_some.mp hs
      cases hs
      exact .pass he (Bool.eq_false_of_not_eq_true hready)
    · next he =>
      cases hs
      exact .finish he
  | client stack =>
    have hturn {j : Nat} {fd : Fd} {id : Bytes} {data : SubscriberData} {sock : Socket}
        (hr : Reading s j fd id data sock) (hturned : s.Turned j fd t (turnEnd sock))
        (hothers : ∀ other, other ≠ fd → t.kernel.socket other = s.kernel.socket other)
        (hless : turnEnd sock = .again → t.unread fd < s.unread fd) :
        Passage s i (.client stack) t := by
      obtain rfl := Place.clients.inj (hp.symm.trans hr.place)
      obtain ⟨entry, he, rfl, hready⟩ := hr.entry
      exact .turn he hready hr.socket hturned hothers hless
    have hinstall (fd other : Fd) (sock : Socket) (hne : other ≠ fd) :
        (s.kernel.install fd sock).socket other = s.kernel.socket other := by
      rw [Kernel.socket_install, if_neg (Ne.symm hne)]
    have hself (fd : Fd) (sock : Socket) : (s.kernel.install fd sock).socket fd = some sock := by
      rw [Kernel.socket_install, if_pos rfl]
    cases h.move hs with
    | idle hevent => cases hevent
    | die hevent => simp at hevent
    | @ignore j fd id data sock _ bytes inbox hreading hrecv hlength =>
      have hend : turnEnd sock = .again := turnEnd_of_whole hrecv hlength
      refine hturn hreading (hend ▸ ⟨rfl, rfl, rfl⟩) (fun other ↦ hinstall fd other _) fun _ ↦ ?_
      rw [State.unread_of_socket hreading.socket,
        State.unread_of_socket (hself fd _)]
      exact payload_lt_of_recv hrecv (List.ne_nil_of_length_eq_add_one hlength)
    | @act j fd id data sock _ bytes inbox change sent hreading hrecv hlength _ hsent =>
      have hend : turnEnd sock = .again := turnEnd_of_whole hrecv hlength
      by_cases hk : sent.2 = true
      · exact .killed (if_pos hk)
      · refine hturn hreading (hend ▸ ⟨rfl, rfl, if_neg hk⟩) (fun other ↦ hinstall fd other _)
          fun _ ↦ ?_
        obtain ⟨written, answers, hw⟩ := ((sock.consume inbox).execute
          (.decode bytes hlength)).sendFrame_eq_record id (change.reply (.decode bytes hlength))
        rw [State.unread_of_socket hreading.socket,
          State.unread_of_socket (hself fd _), ← hsent, hw]
        exact payload_lt_of_recv hrecv (List.ne_nil_of_length_eq_add_one hlength)
    | @short j fd id data sock _ result inbox hreading hrecv hresult =>
      have hend : turnEnd sock = .next := turnEnd_of_short hrecv hresult
      refine hturn hreading (hend ▸ ⟨rfl, rfl, rfl⟩) (fun other ↦ hinstall fd other _) fun ha ↦ ?_
      rw [hend] at ha
      cases ha
    | @disconnect j fd id data sock _ result inbox hreading hrecv hresult =>
      have hend : turnEnd sock = .gone := turnEnd_of_end hrecv hresult
      refine hturn hreading (hend ▸ ⟨rfl, rfl, rfl⟩) (fun other hne ↦ ?_) fun ha ↦ ?_
      · rw [State.disconnect, Kernel.socket_close, if_neg (Ne.symm hne)]
        exact hinstall fd other _ hne
      · rw [hend] at ha
        cases ha
  | _ => simp [State.step, hp] at hs

/-! ### The whole traversal -/

/-- No two of the entries ahead have one descriptor. -/
theorem Sessions.nodup_ahead (h : Sessions s) {i : Nat} (hp : s.place = .clients i) :
    ((s.pollFds.drop i).map PollFd.fd).Nodup := by
  have hi := h.position i hp
  have hdrop : s.pollFds.drop i = (s.pollFds.drop subsStartIdx).drop (i - subsStartIdx) := by
    rw [List.drop_drop, Nat.add_sub_cancel' hi]
  rw [hdrop, List.map_drop]
  exact h.nodup.sublist (List.drop_sublist _ _)

private theorem State.load_eq {i : Nat} (hp : s.place = .clients i) :
    s.load = ((s.pollFds.drop i).map fun entry ↦ s.unread entry.fd + 1).sum + 1 := by
  rw [State.load, hp]

private theorem State.load_of_not_clients (hp : ¬ s.InClients) : s.load = 0 := by
  rw [State.load]
  split
  · next i hi => exact absurd ⟨i, hi⟩ hp
  · rfl

/-- Every step of the loop makes the load less, and nothing else changes it. -/
theorem Sessions.load_step (h : Sessions s) (hp : s.InClients) {event : Event}
    (hs : s.step event = some t) :
    (event.ofLoop = true → t.load < s.load) ∧ (event.ofLoop = false → t.load ≤ s.load) := by
  obtain ⟨i, hp⟩ := hp
  have hload := State.load_eq hp
  have hnodup := h.nodup_ahead hp
  have hpos : 0 < s.load := by omega
  cases h.passage hp hs with
  | outside hevent hplace hfds hkernel =>
    have hsame : t.load = s.load := by
      rw [hload, State.load_eq (hplace.trans hp), hfds]
      simp only [State.unread, hkernel]
    exact ⟨fun ht ↦ (Bool.false_ne_true (hevent.symm.trans ht)).elim, fun _ ↦ hsame.le⟩
  | @pass entry he hready =>
    refine ⟨fun _ ↦ ?_, fun hf ↦ by cases hf⟩
    obtain ⟨hi, rfl⟩ := List.getElem?_eq_some_iff.mp he
    rw [hload, List.drop_eq_getElem_cons hi, List.map_cons, List.sum_cons]
    have hnext : State.load { s with place := .clients (i + 1) } =
        ((s.pollFds.drop (i + 1)).map fun entry ↦ s.unread entry.fd + 1).sum + 1 := rfl
    omega
  | finish he => exact ⟨fun _ ↦ hpos, fun hf ↦ by cases hf⟩
  | killed hplace =>
    rw [State.load_of_not_clients fun ⟨j, hj⟩ ↦ nomatch hplace.symm.trans hj]
    exact ⟨fun _ ↦ hpos, fun hf ↦ by cases hf⟩
  | @turn stack entry sock _ he hready hsock hturned hothers hless =>
    refine ⟨fun _ ↦ ?_, fun hf ↦ by cases hf⟩
    obtain ⟨hi, hentry⟩ := List.getElem?_eq_some_iff.mp he
    have hdrop : s.pollFds.drop i = entry :: s.pollFds.drop (i + 1) := by
      rw [List.drop_eq_getElem_cons hi, hentry]
    rw [hdrop, List.map_cons, List.nodup_cons] at hnodup
    rw [hload, hdrop, List.map_cons, List.sum_cons]
    -- The other entries have as much to read as before.
    have hsame : ((s.pollFds.drop (i + 1)).map fun entry ↦ t.unread entry.fd + 1).sum =
        ((s.pollFds.drop (i + 1)).map fun entry ↦ s.unread entry.fd + 1).sum := by
      congr 1
      apply List.map_congr_left
      intro other hm
      have hne : other.fd ≠ entry.fd := fun heq ↦ hnodup.1 (heq ▸ List.mem_map_of_mem hm)
      rw [State.unread, hothers _ hne, State.unread]
    cases hend : turnEnd sock with
    | again =>
      rw [hend] at hturned
      obtain ⟨-, hfds, hplace⟩ := hturned
      rw [State.load_eq hplace, hfds, hdrop, List.map_cons, List.sum_cons, hsame]
      have hlt := hless hend
      omega
    | next =>
      rw [hend] at hturned
      obtain ⟨-, hfds, hplace⟩ := hturned
      rw [State.load_eq hplace, hfds, hsame]
      omega
    | gone =>
      rw [hend] at hturned
      obtain ⟨-, hfds, hplace⟩ := hturned
      have hlength : (s.pollFds.take i).length = i := List.length_take_of_le hi.le
      rw [State.load_eq hplace, hfds, List.eraseIdx_eq_take_drop_succ, List.drop_left' hlength,
        hsame]
      omega

private theorem isSome_processSubRequests_of_stack (request : SubcribeRequest) {stack : Bytes}
    (hstack : 0 ∈ stack) (clientName : Bytes) (subscriber : SubscriberData) (trie : TopicTrie)
    (kernel : Kernel) :
    (processSubRequests request stack clientName subscriber trie kernel).isSome := by
  have hread : (readCString (request.topic ++ stack)).isSome := by
    rw [readCString, if_pos (List.mem_append_right _ hstack)]
    rfl
  unfold processSubRequests
  split
  · rw [Option.isSome_map, hread]
  · split
    · rw [Option.isSome_map, hread]
    · rfl

private theorem Sessions.exists_passage (h : Sessions s) (hp : s.InClients) :
    ∃ event t, event.ofLoop = true ∧ s.step event = some t := by
  obtain ⟨i, hp⟩ := hp
  cases he : s.pollFds[i]? with
  | none => exact ⟨.proceed, { s with place := .poll }, rfl, by simp only [State.step, hp, he]⟩
  | some entry =>
    cases hready : entry.pollin with
    | false =>
      refine ⟨.proceed, { s with place := .clients (i + 1) }, rfl, ?_⟩
      simp only [State.step, hp, he, hready, Bool.false_eq_true, ↓reduceIte]
    | true =>
      obtain ⟨id, data, sock, hreading⟩ := h.reading hp he hready
      obtain ⟨t, ht⟩ := hreading.exists_step_of_processed fun bytes _ _ hl ↦
        isSome_processSubRequests_of_stack (.decode bytes hl) (List.mem_singleton_self 0) ..
      exact ⟨.client [0], t, rfl, ht⟩

/-- From wherever it is the loop over the clients can go on to its end. -/
theorem Sessions.exists_traversal (h : Sessions s) :
    ∃ rest u, Runs State.step (fun s _ ↦ s.InClients) s rest u ∧ ¬ u.InClients ∧
      rest.all Event.ofLoop = true := by
  refine exists_runs_of_progress (fun _ _ _ h hs ↦ h.step hs)
    (fun _ _ _ h hp hs ↦ (h.load_step hp hs).1) (fun s h hg ↦ ?_) h
  have hp : s.InClients := not_not.mp hg
  obtain ⟨event, t, hloop, hs⟩ := h.exists_passage hp
  exact ⟨event, t, hloop, hp, hs⟩

/-! ### Every client is served -/

/-- Three clients are there, and the first and the last one are readable: the one has left, the
other asks for `a`. -/
def departingRun : List Event :=
  joinRound 4 5 0 (simpleClient 65 [.fin] []) ++ joinRound 4 6 1 (simpleClient 66 [] []) ++
    joinRound 4 7 2 (simpleClient 67 [simpleRequest 0 [97]] []) ++
    [.poll (fun fd ↦ fd == 5 || fd == 7), .proceed, .proceed, .proceed]

/-- The turns at these clients. -/
def departingTurns : List Event := [.client [], .proceed, .client [], .client [], .proceed]

private theorem exists_departingRun : ∃ s t, Reachable 3 4 s ∧ s.place = .clients subsStartIdx ∧
    Runs State.step (fun s _ ↦ s.InClients) s departingTurns t ∧ t.place = .poll ∧
    t.clientFds = [6, 7] ∧ (s.pollFds.map fun entry ↦ s.unread entry.fd) = [0, 0, 0, 0, 0, 52] := by
  have hrun : (exec State.step (State.initial 3 4) departingRun).any (fun s ↦
      s.place = .clients subsStartIdx ∧
      (s.pollFds.map fun entry ↦ s.unread entry.fd) = [0, 0, 0, 0, 0, 52] ∧
      ((exec (guarded (fun s _ ↦ s.inClients) State.step) s departingTurns).any fun t ↦
        t.place = .poll ∧ t.clientFds = [6, 7]) = true) = true := by decide +kernel
  obtain ⟨s, hs, hplace, hunread, hturns⟩ := exists_exec hrun
  obtain ⟨t, ht, hend, hfds⟩ := exists_exec hturns
  exact ⟨s, t, reaches_of_exec hs, hplace,
    runs_of_guarded (fun s _ hin ↦ State.inClients_iff.mp hin) ht, hend, hfds, hunread⟩

/-- A traversal takes no more steps than there are bytes and entries ahead, whatever else happens
in between, and from wherever it has come the loop can go on to its end. -/
theorem traversal_ends {udpfd listenfd : Fd} (hr : Reachable udpfd listenfd s) {i : Nat}
    (hp : s.place = .clients i) {events : List Event}
    (h : Runs State.step (fun s _ ↦ s.InClients) s events t) :
    events.countP Event.ofLoop ≤
        ((s.pollFds.drop i).map fun entry ↦ s.unread entry.fd + 1).sum + 1 ∧
      ∃ rest u, Runs State.step (fun s _ ↦ s.InClients) t rest u ∧ ¬ u.InClients ∧
        rest.all Event.ofLoop = true := by
  have hsessions := Sessions.of_reaches hr
  constructor
  · have hcount := h.countP_le (fun _ _ _ h hs ↦ h.step hs)
      (fun _ _ _ h hp hs ↦ (h.load_step hp hs).1) (fun _ _ _ h hp hs ↦ (h.load_step hp hs).2)
      hsessions
    rw [← State.load_eq hp]
    omega
  · exact (h.invariant hsessions fun _ _ _ h _ hs ↦ h.step hs).exists_traversal

/-- Five steps where at most 56 are possible. -/
theorem traversal_ends_departingRun : ∃ s t : State,
    Runs State.step (fun s _ ↦ s.InClients) s departingTurns t ∧
    departingTurns.countP Event.ofLoop ≤
      ((s.pollFds.drop subsStartIdx).map fun entry ↦ s.unread entry.fd + 1).sum + 1 := by
  obtain ⟨s, t, hr, hp, hturns, -⟩ := exists_departingRun
  exact ⟨s, t, hturns, (traversal_ends hr hp hturns).1⟩

end Broker.Server
