import Broker.Server.Isolation
import Broker.Server.Service

/-!
# The history of the server

What the acts of a run tell: who is connected, who holds what, and what has been written to
whom. A client that is away keeps what it holds and is written nothing; of two clients that
hold the same, both are written the same.
-/

namespace Broker.Server
open Broker.Base Broker.Net Broker.Topic

/-- A run of the server, whatever happens to it. -/
abbrev Run (s : State) (events : List Event) (t : State) : Prop :=
  Runs State.step (fun _ _ ↦ True) s events t

/-- The acts of a run from any state. -/
abbrev State.acts (s : State) (events : List Event) : List (Act Bytes Bytes Frame) :=
  labels State.step State.act s events

/-- A frame as it is written whole to a client. -/
def emissionOf (id : Bytes) (frame : Frame) : Emission := ⟨id, frame, frame.encode⟩

namespace Sessions

variable {s t : State} {events : List Event}

/-- A run is a history of the service. -/
theorem history (h : Sessions s) {allowed : State → Event → Prop}
    (hr : Runs State.step allowed s events t) :
    Service.History splitTopic s.service (s.acts events) ∧
      t.service = (s.acts events).foldl (Service.act splitTopic) s.service :=
  lawful_labels (P := Sessions) (fun _ _ _ h hs ↦ h.step hs)
    (fun _ _ _ _ h _ hs ↦ (h.serving_step hs).legal _)
    (fun _ _ _ h _ hs ↦ (h.serving_step hs).next) hr h

/-- In a run in which sends succeed, a client is written what the service sends it. -/
theorem written (h : Sessions s)
    (hr : Runs State.step (fun s _ ↦ s.kernel.SendsSucceed) s events t) (id : Bytes) :
    (t.view id).emissions = (s.view id).emissions ++
      (outputs (Service.act splitTopic) (Service.sent MatchesTopic id) s.service
        (s.acts events)).map (emissionOf id) := by
  rw [← outputs_map]
  exact outputs_labels (P := Sessions) (G := fun s ↦ (s.view id).emissions)
    (fun _ _ _ h hs ↦ h.step hs) (fun _ _ _ h _ hs ↦ (h.serving_step hs).next)
    (fun _ _ _ h hsend hs ↦ (h.serving_step hs).given hsend id) hr h

end Sessions

/-- At the start nobody is there and nobody holds anything. -/
theorem State.service_initial (udpfd listenfd : Fd) :
    (State.initial udpfd listenfd).service = .empty := by
  apply Service.ext
  · refine Set.eq_empty_of_forall_notMem ?_
    rintro id ⟨fd, data, hd, -⟩
    cases hd
  · exact funext fun id ↦ Set.eq_empty_of_forall_notMem fun topic ↦ Finset.notMem_empty topic
  · exact funext fun id ↦ Set.eq_empty_of_forall_notMem fun path ↦
      TopicTrie.not_holds_new path id

/-- The server is a publish-subscribe service. Whatever happens in a run, failing and partial
sends, resets and refused connections included, its acts are legal one after the other (a client
joins while it is away, leaves while it is there, takes topics it does not hold and gives up
topics it holds), and the tables and the trie show the state of the service they lead to. -/
theorem service_of_run {udpfd listenfd : Fd} {events : List Event} {s : State}
    (h : Run (State.initial udpfd listenfd) events s) :
    Service.History splitTopic .empty (acts udpfd listenfd events) ∧
      s.service = (acts udpfd listenfd events).foldl (Service.act splitTopic) .empty := by
  have hrun := (Sessions.initial udpfd listenfd).history h
  rwa [State.service_initial] at hrun

/-- A round in which a datagram is published. -/
def publishRound (order : List Bytes) (clients : Nat) : List Event :=
  [.poll (· == 3), .proceed, .datagram simpleDatagram zeroBuffer order, .drained, .proceed] ++
    List.replicate (clients + 1) .proceed

/-- A client subscribes, is sent a message, and leaves. -/
def leaveRun : List Event :=
  joinRound 4 5 0 (simpleClient 65 [simpleRequest 0 [97], .gap, .fin] []) ++
    visitRound 5 0 ++ [.client [], .client [], .proceed] ++ publishRound [[65]] 1 ++
    visitRound 5 0 ++ [.client [], .proceed]

/-- The client misses a message, comes back, and is sent the next one. -/
def awayRun : List Event :=
  leaveRun ++ publishRound [[65]] 0 ++ joinRound 4 5 0 (simpleClient 65 [] []) ++
    publishRound [[65]] 1

private theorem exec_awayRun : ∃ s, SucceedingRun 3 4 awayRun s ∧ s.clientName 5 = some [65] := by
  have hrun : (exec (guarded (fun s _ ↦ decide (∀ entry ∈ s.kernel.sockets,
      entry.2.answers = [])) State.step) (State.initial 3 4) awayRun).any (fun s ↦
        decide (s.clientName 5 = some [65])) = true := by decide +kernel
  obtain ⟨s, hs, hname⟩ := exists_exec hrun
  exact ⟨s, runs_of_guarded
    (fun _ _ ht ↦ Kernel.sendsSucceed_of_answers (of_decide_eq_true ht)) hs, hname⟩

/-- Seven acts, four of them of the client. -/
theorem service_of_run_awayRun : ∃ s, Run (State.initial 3 4) awayRun s ∧
    Service.History splitTopic .empty (acts 3 4 awayRun) ∧
    s.service = (acts 3 4 awayRun).foldl (Service.act splitTopic) .empty ∧
    (acts 3 4 awayRun).map Act.client =
      [some [65], some [65], none, some [65], none, some [65], none] := by
  obtain ⟨s, hs, -⟩ := exec_awayRun
  have hr : Run (State.initial 3 4) awayRun s := hs.mono fun _ _ _ ↦ trivial
  obtain ⟨hlawful, hend⟩ := service_of_run hr
  exact ⟨s, hr, hlawful, hend, by decide +kernel⟩

/-- What is written to a client, over all its connections in turn, is what the service sends it:
the answers to its own requests and the messages that are published while it is there with a
matching pattern, each once and whole, in the order of the run, and nothing else. -/
theorem written_in_run {udpfd listenfd : Fd} {events : List Event} {s : State}
    (h : SucceedingRun udpfd listenfd events s) (id : Bytes) :
    (s.view id).emissions = (outputs (Service.act splitTopic) (Service.sent MatchesTopic id)
      .empty (acts udpfd listenfd events)).map (emissionOf id) := by
  have hrun := (Sessions.initial udpfd listenfd).written h id
  rw [State.service_initial, State.view_initial] at hrun
  exact hrun

/-- The message that is published while the client is away is not among what is written to it. -/
theorem written_in_run_awayRun : ∃ s, SucceedingRun 3 4 awayRun s ∧
    (s.view [65]).emissions = (outputs (Service.act splitTopic)
      (Service.sent MatchesTopic [65]) .empty (acts 3 4 awayRun)).map (emissionOf [65]) ∧
    (s.view [65]).emissions.length = 3 := by
  have hrun : (exec (guarded (fun s _ ↦ decide (∀ entry ∈ s.kernel.sockets,
      entry.2.answers = [])) State.step) (State.initial 3 4) awayRun).any (fun s ↦
        decide ((s.view [65]).emissions.length = 3)) = true := by decide +kernel
  obtain ⟨s, hs, hlength⟩ := exists_exec hrun
  have hr : SucceedingRun 3 4 awayRun s := runs_of_guarded
    (fun _ _ ht ↦ Kernel.sendsSucceed_of_answers (of_decide_eq_true ht)) hs
  exact ⟨s, hr, written_in_run hr [65], hlength⟩

/-- The acts of a run tell who is there and who holds what: each client comes and goes in turn,
and is connected when it came last; it takes each topic and gives it up in turn, and holds it
when it took it last. -/
theorem told_by_acts {udpfd listenfd : Fd} {events : List Event} {s : State}
    (h : Run (State.initial udpfd listenfd) events s) (id : Bytes) :
    (Alternates true false ((acts udpfd listenfd events).filterMap (Act.presence id)) ∧
      (s.Connected id ↔
        ((acts udpfd listenfd events).filterMap (Act.presence id)).getLast? = some true)) ∧
    ∀ topic,
      Alternates true false ((acts udpfd listenfd events).filterMap (Act.holding id topic)) ∧
      (topic ∈ s.topics id ↔
        ((acts udpfd listenfd events).filterMap (Act.holding id topic)).getLast? = some true) := by
  obtain ⟨hlawful, hend⟩ := (Sessions.initial udpfd listenfd).history h
  rw [State.service_initial] at hlawful hend
  constructor
  · obtain ⟨halt, hlast⟩ := Service.online_of_history hlawful (Set.notMem_empty id)
    rw [← hend] at hlast
    exact ⟨halt, hlast⟩
  · intro topic
    obtain ⟨halt, hlast⟩ := Service.topics_of_history hlawful (Set.notMem_empty topic)
    rw [← hend] at hlast
    exact ⟨halt, hlast⟩

/-- The client has come, gone, and come again. -/
theorem told_by_acts_awayRun : ∃ s, Run (State.initial 3 4) awayRun s ∧
    (acts 3 4 awayRun).filterMap (Act.presence [65]) = [true, false, true] ∧
    s.Connected [65] := by
  obtain ⟨s, hs, -⟩ := exec_awayRun
  have hr : Run (State.initial 3 4) awayRun s := hs.mono fun _ _ _ ↦ trivial
  have htold : (acts 3 4 awayRun).filterMap (Act.presence [65]) = [true, false, true] := by
    decide +kernel
  refine ⟨s, hr, htold, (told_by_acts hr [65]).1.2.mpr ?_⟩
  rw [htold]
  rfl

/-! ### Absence -/

private theorem State.act_of_connect {s : State} {id : Bytes} {event : Event}
    {connection : Connection} (hc : s.clientEvent id event = some (.connect connection)) :
    s.act event = (s.view id).act id (.connect connection) := by
  cases event with
  | accept fd other revents =>
    obtain ⟨hid, he⟩ := Option.ite_none_right_eq_some.mp hc
    cases he
    rw [State.act, hid, Option.bind_some]
  | client stack =>
    obtain ⟨-, he⟩ := Option.ite_none_right_eq_some.mp hc
    cases he
  | _ => cases hc

/-- What is received from a client is never its coming. -/
theorem receivedAct_ne_join (id : Bytes) (topics : Finset Bytes) (stack : Bytes)
    (result : RecvResult) (other : Bytes) :
    receivedAct id topics stack result ≠ some (.join other) := by
  unfold receivedAct
  split
  · split
    · intro h
      obtain ⟨change, -, he⟩ := Option.map_eq_some_iff.mp h
      cases change <;> cases he
    · split <;> simp
  · split <;> simp

/-- A client comes by a connection that presents its id. -/
theorem State.accept_of_join {s : State} {event : Event} {id : Bytes}
    (h : s.act event = some (.join id)) :
    ∃ fd connection revents data inbox, event = .accept fd connection revents ∧
      connection.presentedId = some id ∧
        recvall idLength connection.inbox = some (.complete data, inbox) := by
  cases event with
  | accept fd connection revents =>
    obtain ⟨new, hid, ha⟩ := Option.bind_eq_some_iff.mp h
    rw [View.act] at ha
    split at ha
    · next data inbox _ hr =>
      obtain ⟨rfl⟩ := Act.join.inj (Option.some.inj ha)
      exact ⟨fd, connection, revents, _, _, rfl, hid, hr⟩
    · cases ha
  | client stack =>
    obtain ⟨other, -, ha⟩ := Option.bind_eq_some_iff.mp h
    obtain ⟨sock, -, ha⟩ := Option.bind_eq_some_iff.mp ha
    exact absurd ha (receivedAct_ne_join _ _ _ _ _)
  | datagram datagram stale order => cases h
  | _ => cases h

private theorem Sessions.view_of_away {s t : State} (h : Sessions s) {event : Event}
    (hs : s.step event = some t) {id : Bytes} (haway : ¬ s.Connected id)
    (hno : ∀ act, s.act event = some act → act.presence id ≠ some true) :
    t.view id = s.view id := by
  have hcurrent : (s.view id).current = none := State.current_of_not_connected haway
  obtain he | ⟨-, he⟩ := h.view_step hs id
  · rw [he]
    cases hc : s.clientEvent id event with
    | none => rfl
    | some e =>
      rw [Option.elim_some]
      cases e with
      | read stack => rw [View.advance, hcurrent]; rfl
      | datagram datagram stale =>
        rw [View.advance, View.forward]
        split
        · exact View.ext rfl rfl (by rw [hcurrent]; rfl) rfl
        · rfl
      | connect connection =>
        obtain ⟨hn, hw⟩ | ⟨-, ha, -⟩ := (s.view id).becomes_accept id connection
        · exact hw
        · exact absurd (if_pos rfl) (hno (.join id) ((State.act_of_connect hc).trans ha))
  · exact he

/-- What a client holds and all that has been written to it are kept while it is away, whatever
happens to the others and whatever is published. When it comes back it finds what it left, and
its new connection has been written nothing. -/
theorem kept_while_away {udpfd listenfd : Fd} {s t : State} (hs : Reachable udpfd listenfd s)
    {events : List Event} (h : Run s events t) {id : Bytes} (haway : ¬ s.Connected id)
    (hno : ∀ act ∈ s.acts events, act.presence id ≠ some true) :
    (¬ t.Connected id ∧ t.view id = s.view id) ∧
    ∀ event u, t.step event = some u → t.act event = some (.join id) →
      ∃ sock, u.view id = { s.view id with current := some sock } ∧ sock.log = [] := by
  have hsessions := Sessions.of_reaches hs
  have hkept : Sessions t ∧ ¬ t.Connected id ∧ t.view id = s.view id := by
    clear hs
    induction h with
    | nil => exact ⟨hsessions, haway, rfl⟩
    | @cons s t r event events _ hstep _ ih =>
      rw [State.acts, labels_cons hstep] at hno
      have hview := hsessions.view_of_away hstep haway fun act ha ↦
        hno act (List.mem_append_left _ (by rw [ha]; exact List.mem_singleton_self act))
      have hcurrent : (s.view id).current = none := State.current_of_not_connected haway
      have haway' : ¬ t.Connected id := fun hc ↦ by
        have hsome := ((hsessions.step hstep).isSome_current id).mpr hc
        rw [show t.current id = none from (congrArg View.current hview).trans hcurrent] at hsome
        cases hsome
      obtain ⟨hr, hc, he⟩ := ih haway' (fun act hm ↦ hno act (List.mem_append_right _ hm))
        (hsessions.step hstep)
      exact ⟨hr, hc, he.trans hview⟩
  obtain ⟨ht, haway', hview⟩ := hkept
  refine ⟨⟨haway', hview⟩, fun event u hu hjoin ↦ ?_⟩
  obtain ⟨fd, connection, revents, data, inbox, rfl, hid, hread⟩ := State.accept_of_join hjoin
  have hcurrent : (t.view id).current = none := State.current_of_not_connected haway'
  refine ⟨(connection.socket inbox).register id, ?_, rfl⟩
  rw [ht.view_step_of_ne hu (by simp) id, State.clientEvent, hid, if_pos rfl, Option.elim_some,
    View.advance, View.accept, hcurrent, hread, hview]

/-- A datagram is published, and a connection is waiting. -/
def missedRound : List Event :=
  publishRound [[65]] 0 ++ [.poll (· == 4), .proceed, .proceed]

/-- The client that comes back after `leaveRun`. -/
def secondAttempt : Event := .accept 5 (simpleClient 65 [] []) false

/-- The message published in between is not on the new connection. -/
theorem kept_while_away_missedRound : ∃ s t u, Reachable 3 4 s ∧ Run s missedRound t ∧
    t.step secondAttempt = some u ∧ t.view [65] = s.view [65] ∧ s.topics [65] = {[97]} ∧
    ∃ sock, u.view [65] = { s.view [65] with current := some sock } ∧ sock.log = [] := by
  have hrun : (exec State.step (State.initial 3 4) leaveRun).any (fun s ↦ decide (
      (s.subscriber [65]).any SubscriberData.connected = false ∧ s.topics [65] = {[97]} ∧
      (∀ act ∈ s.acts missedRound, act.presence [65] ≠ some true) ∧
      (exec State.step s missedRound).any (fun t ↦ (t.step secondAttempt).isSome &&
        decide ((t.act secondAttempt).bind (Act.presence [65]) = some true)) = true)) = true := by
    decide +kernel
  obtain ⟨s, hs, hgone, htopics, hno, hnext⟩ := exists_exec hrun
  have hreachable : Reachable 3 4 s := reaches_of_exec hs
  have haway : ¬ s.Connected [65] := by
    rintro ⟨fd, data, hd, hc, -⟩
    simp [hd, hc] at hgone
  obtain ⟨t, ht, hnext⟩ := (Option.any_eq_true _ _).mp hnext
  obtain ⟨hu, hjoin⟩ := Bool.and_eq_true_iff.mp hnext
  obtain ⟨u, hu⟩ := Option.isSome_iff_exists.mp hu
  have hr : Run s missedRound t := runs_of_exec ht
  obtain ⟨act, hact, hpresence⟩ := Option.bind_eq_some_iff.mp (of_decide_eq_true hjoin)
  obtain rfl := Act.presence_eq_some_true.mp hpresence
  obtain ⟨⟨-, hview⟩, hback⟩ := kept_while_away hreachable hr haway hno
  exact ⟨s, t, u, hreachable, hr, hu, hview, htopics, hback _ u hu hact⟩

/-! ### Two clients -/

/-- While two clients neither come nor go nor ask for anything, the one that is reached by
every topic that reaches the other one is written all messages that are written to the other one,
in the same order. -/
theorem written_sublist {udpfd listenfd : Fd} {s t : State} (hs : Reachable udpfd listenfd s)
    {events : List Event}
    (h : Runs State.step (fun s _ ↦ s.kernel.SendsSucceed) s events t) {id other : Bytes}
    (hsilent : ∀ act ∈ s.acts events, act.client ≠ some id ∧ act.client ≠ some other)
    (hreached : ∀ topic, s.Connected id ∧ s.Subscribed topic id →
      s.Connected other ∧ s.Subscribed topic other) :
    ∃ frames all : List Frame, frames.Sublist all ∧
      (t.view id).emissions = (s.view id).emissions ++ frames.map (emissionOf id) ∧
      (t.view other).emissions = (s.view other).emissions ++ all.map (emissionOf other) := by
  have hsessions := Sessions.of_reaches hs
  have hsublist : (outputs (Service.act splitTopic) (Service.sent MatchesTopic id) s.service
      (s.acts events)).Sublist (outputs (Service.act splitTopic)
        (Service.sent MatchesTopic other) s.service (s.acts events)) :=
    Service.sent_sublist hsilent hreached
  exact ⟨_, _, hsublist, hsessions.written h id, hsessions.written h other⟩

/-- One client holds `a` and another one `*`. -/
def everythingRun : List Event :=
  joinRound 4 5 0 (simpleClient 65 [simpleRequest 0 [97]] []) ++
    joinRound 4 6 1 (simpleClient 66 [simpleRequest 0 [42]] []) ++
    visitRound 5 0 ++ [.client [], .client [], .proceed, .proceed] ++
    visitRound 6 1 ++ [.client [], .client [], .proceed]

/-- What is published for `a` is written to both. -/
theorem written_sublist_everythingRun : ∃ s t, Reachable 3 4 s ∧
    Runs State.step (fun s _ ↦ s.kernel.SendsSucceed) s (publishRound [[65], [66]] 2) t ∧
    ∃ frames all : List Frame, frames.Sublist all ∧
      (t.view [65]).emissions = (s.view [65]).emissions ++ frames.map (emissionOf [65]) ∧
      (t.view [66]).emissions = (s.view [66]).emissions ++ all.map (emissionOf [66]) := by
  have hrun : (exec State.step (State.initial 3 4) everythingRun).any (fun s ↦ decide (
      s.clientName 6 = some [66] ∧ [66] ∈ s.trie.root.idsAt [star] ∧
      (∀ act ∈ s.acts (publishRound [[65], [66]] 2),
        act.client ≠ some [65] ∧ act.client ≠ some [66]) ∧
      (exec (guarded (fun s _ ↦ decide (∀ entry ∈ s.kernel.sockets, entry.2.answers = []))
        State.step) s (publishRound [[65], [66]] 2)).isSome = true)) = true := by decide +kernel
  obtain ⟨s, hs, hname, hholds, hsilent, hnext⟩ := exists_exec hrun
  obtain ⟨t, ht⟩ := Option.isSome_iff_exists.mp hnext
  have hreachable : Reachable 3 4 s := reaches_of_exec hs
  have hr : Runs State.step (fun s _ ↦ s.kernel.SendsSucceed) s (publishRound [[65], [66]] 2) t :=
    runs_of_guarded (fun _ _ ht ↦ Kernel.sendsSucceed_of_answers (of_decide_eq_true ht)) ht
  have hconnected : s.Connected [66] := ⟨6, ((Sessions.of_reaches hreachable).named _ _).mp hname⟩
  have hany (topic : Bytes) : s.Subscribed topic [66] :=
    ⟨[star], hholds, patternMatches_star_iff.mpr ⟨[], by simp, patternMatches_nil_iff.mpr rfl⟩⟩
  exact ⟨s, t, hreachable, hr,
    written_sublist hreachable hr hsilent fun topic _ ↦ ⟨hconnected, hany topic⟩⟩

end Broker.Server
