import Broker.Net.Address
import Broker.Server.History

/-!
# What the operator is told

The lines the server prints about its clients. Each of them tells one thing, and whatever bytes
the ids are made of, the lines can be told apart; so what has been printed tells who has come
and gone, and who is connected.
-/

namespace Broker.Server
open Broker.Base Broker.Net Broker.Topic

/-- What one line says. -/
inductive Announcement
  | newClient (id : Bytes) (address : SockaddrIn)
  | alreadyConnected (id : Bytes)
  | disconnected (id : Bytes)

namespace Announcement

/-- The line that is printed. -/
def line : Announcement → Bytes
  | newClient id address => Server.newClient id address
  | alreadyConnected id => Server.alreadyConnected id
  | disconnected id => Server.disconnected id

/-- The id a line is about. -/
def id : Announcement → Bytes
  | newClient id _ => id
  | alreadyConnected id => id
  | disconnected id => id

/-- A line says that a client has come or gone. -/
def presence (client : Bytes) : Announcement → Option Bool
  | newClient id _ => if id = client then some true else none
  | alreadyConnected _ => none
  | disconnected id => if id = client then some false else none

end Announcement

/-- The line an event makes the server print. -/
def State.announces (s : State) : Event → Option Announcement
  | .accept _ connection _ => connection.presentedId.map fun id ↦
      if (s.current id).isSome then .alreadyConnected id else .newClient id connection.address
  | .client stack =>
    match s.act (.client stack) with
    | some (.leave id) => some (.disconnected id)
    | _ => none
  | _ => none

/-- The lines of a run. -/
def announcements (udpfd listenfd : Fd) (events : List Event) : List Announcement :=
  labels State.step State.announces (State.initial udpfd listenfd) events

/-! ### Telling lines apart -/

/-- An id that fits into its field. -/
def Announcement.Fits (announcement : Announcement) : Prop := announcement.id.length ≤ idLength

private def newFront : Bytes := ascii "New client ".toList
private def clientFront : Bytes := ascii "Client ".toList
private def connectedWord : Bytes := ascii " connected from ".toList
private def alreadyWord : Bytes := ascii " already connected.\n".toList
private def goneWord : Bytes := ascii " disconnected.\n".toList

private theorem apart_words :
    (Apart idLength alreadyWord alreadyWord ∧ Apart idLength alreadyWord goneWord) ∧
      (Apart idLength goneWord alreadyWord ∧ Apart idLength goneWord goneWord) ∧
        Apart idLength connectedWord connectedWord := by
  decide +kernel

/-- The lines about clients can be read back, whatever bytes their ids are made of. -/
theorem readable_line : Readable Announcement.Fits Announcement.line := by
  obtain ⟨⟨haa, hag⟩, ⟨hga, hgg⟩, hcc⟩ := apart_words
  have hnew (id : Bytes) (address : SockaddrIn) (rest : Bytes) :
      (Announcement.newClient id address).line ++ rest = newFront ++ (id ++ connectedWord ++
        (inetNtoa address.sAddr ++ ascii [':'] ++ decimal (ntoh address.sinPort) ++
          point :: newline :: rest)) := by
    have hend : ascii ".\n".toList = [point, newline] := by decide
    simp only [Announcement.line, newClient, newFront, connectedWord, hend, List.append_assoc,
      List.cons_append, List.nil_append]
  have halready (id rest : Bytes) : (Announcement.alreadyConnected id).line ++ rest =
      clientFront ++ (id ++ alreadyWord ++ rest) := by
    simp only [Announcement.line, alreadyConnected, clientFront, alreadyWord, List.append_assoc]
  have hgone (id rest : Bytes) : (Announcement.disconnected id).line ++ rest =
      clientFront ++ (id ++ goneWord ++ rest) := by
    simp only [Announcement.line, disconnected, clientFront, goneWord, List.append_assoc]
  -- Lines of different kinds differ in a letter behind what they have in common.
  have hfirst (x y : Bytes) : newFront ++ x ≠ clientFront ++ y := by
    intro he
    have h := congrArg (·[0]?) he
    simp [newFront, clientFront, ascii] at h
  have hsecond (x y : Bytes) : alreadyWord ++ x ≠ goneWord ++ y := by
    intro he
    have h := congrArg (·[1]?) he
    simp [alreadyWord, goneWord, ascii] at h
  intro x y hx hy rest rest' he
  cases x with
  | newClient id address =>
    rw [hnew] at he
    cases y with
    | newClient other address' =>
      rw [hnew] at he
      have hid : id = other ∧ _ := hcc.eq_of_append hcc hx hy (List.append_cancel_left he)
      rw [hid.1, (eq_of_address isDigit_point isDigit_point (List.append_cancel_left hid.2)).1]
    | alreadyConnected other => exact absurd (he.trans (halready _ _)) (hfirst _ _)
    | disconnected other => exact absurd (he.trans (hgone _ _)) (hfirst _ _)
  | alreadyConnected id =>
    rw [halready] at he
    cases y with
    | newClient other address' => exact absurd (he.trans (hnew _ _ _)).symm (hfirst _ _)
    | alreadyConnected other =>
      rw [halready] at he
      have hid : id = other ∧ _ := haa.eq_of_append haa hx hy (List.append_cancel_left he)
      rw [hid.1]
    | disconnected other =>
      rw [hgone] at he
      exact absurd (hag.eq_of_append hga hx hy (List.append_cancel_left he)).2 (hsecond _ _)
  | disconnected id =>
    rw [hgone] at he
    cases y with
    | newClient other address' => exact absurd (he.trans (hnew _ _ _)).symm (hfirst _ _)
    | alreadyConnected other =>
      rw [halready] at he
      exact absurd (hga.eq_of_append hag hx hy (List.append_cancel_left he)).2.symm (hsecond _ _)
    | disconnected other =>
      rw [hgone] at he
      have hid : id = other ∧ _ := hgg.eq_of_append hgg hx hy (List.append_cancel_left he)
      rw [hid.1]

/-! ### The lines of a run -/

private theorem length_presentedId {connection : Connection} {id : Bytes}
    (h : connection.presentedId = some id) : id.length ≤ idLength := by
  unfold Connection.presentedId at h
  split at h
  · next data inbox hr =>
    obtain rfl := Option.some.inj h
    have hl : data.length = idLength := (recvall_complete hr).1
    have hz : connectingId data = cString data ∨ connectingId data = data := by
      by_cases hm : (0 : UInt8) ∈ data
      · exact .inl (cString_append_of_mem [0] hm)
      · right
        rw [connectingId, cString_append_of_notMem [0] hm]
        exact List.append_nil data
    obtain hz | hz := hz
    · rw [hz, ← hl]
      exact (List.takeWhile_sublist _).length_le
    · rw [hz, hl]
  · cases h

namespace Sessions

variable {s t : State}

/-- A step prints the line that its event makes the server print. -/
theorem stdout_step (h : Sessions s) {event : Event} (hs : s.step event = some t) :
    t.stdout = s.stdout ++ ((s.announces event).toList.flatMap Announcement.line) := by
  cases event with
  | accept fd connection revents =>
    obtain ⟨-, hs⟩ := Option.ite_none_right_eq_some.mp hs
    obtain ⟨u, hu, rfl⟩ := Option.map_eq_some_iff.mp hs
    rcases hr : recvall idLength connection.inbox with _ | ⟨result, inbox⟩
    · simp only [State.connectNewClient, hr] at hu
      cases hu
    · cases result with
      | complete data =>
        have hconnected : (s.current (connectingId data)).isSome =
            (s.subscriber (connectingId data)).any SubscriberData.connected := by
          rw [Bool.eq_iff_iff, h.isSome_current, Option.any_eq_true]
          constructor
          · rintro ⟨fd, data, hd, hc, -⟩
            exact ⟨data, hd, hc⟩
          · rintro ⟨data, hd, hc⟩
            exact ⟨data.sockfd, data, hd, hc, rfl⟩
        simp only [State.announces, Connection.presentedId, hr, Option.map_some, hconnected]
        simp only [State.connectNewClient, hr] at hu
        split at hu
        · next hc =>
          cases hu
          simp [hc, Announcement.line]
        · next hc =>
          cases hu
          simp [hc, Announcement.line]
      | _ =>
        simp only [State.announces, Connection.presentedId, hr]
        simp only [State.connectNewClient, hr] at hu
        cases hu
        exact (List.append_nil _).symm
  | client stack =>
    have hsame (hnone : s.announces (.client stack) = none) (ht : t.stdout = s.stdout) :
        t.stdout = s.stdout ++
          ((s.announces (.client stack)).toList.flatMap Announcement.line) := by
      rw [hnone, ht]
      exact (List.append_nil _).symm
    cases h.move hs with
    | idle hevent => cases hevent
    | die hevent => simp at hevent
    | ignore hreading hrecv hlength hnone =>
      refine hsame ?_ rfl
      rw [State.announces, hreading.act_eq hrecv, receivedAct, dif_pos hlength,
        requestedChange_eq_none hnone, Option.map_none]
    | @act i fd id data sock _ bytes inbox change sent hreading hrecv hlength hrequested hsent =>
      refine hsame ?_ rfl
      rw [State.announces, hreading.act_eq hrecv, receivedAct, dif_pos hlength,
        requestedChange_eq_some_iff.mpr hrequested, Option.map_some]
      cases change <;> rfl
    | short hreading hrecv hresult =>
      refine hsame ?_ rfl
      rw [State.announces, hreading.act_eq hrecv]
      obtain rfl | rfl | ⟨bytes, rfl, hn, hl⟩ := hresult
      · simp [receivedAct]
      · simp [receivedAct]
      · simp [receivedAct, hn, hl]
    | @disconnect i fd id data sock _ result inbox hreading hrecv hresult =>
      have hz : ¬ ([] : Bytes).length = sizeofSubcribeRequest := by decide
      have hact : s.act (.client stack) = some (.leave id) := by
        rw [hreading.act_eq hrecv]
        obtain rfl | ⟨errno, rfl, he⟩ := hresult
        · simp only [receivedAct, hz, ↓reduceDIte, ↓reduceIte]
        · simp [receivedAct, he]
      simp [State.announces, hact, State.disconnect, Announcement.line]
  | _ => cases h.move hs <;> exact (List.append_nil _).symm

private theorem presence_announces (h : Sessions s) {event : Event} (hs : s.step event = some t)
    (id : Bytes) :
    (s.announces event).bind (Announcement.presence id) = (s.act event).bind (Act.presence id) := by
  cases event with
  | accept fd connection revents =>
    rw [State.announces, State.act]
    cases hp : connection.presentedId with
    | none => rfl
    | some new =>
      rw [Option.map_some, Option.bind_some, Option.bind_some, View.act_connect hp]
      have hc : (s.view new).current = s.current new := rfl
      rw [hc]
      split <;> rfl
  | client stack =>
    obtain ⟨i, fd, other, data, sock, hr⟩ := h.reading_of_step hs
    rcases hrecv : recv sizeofSubcribeRequest sock.inbox with ⟨result, inbox⟩
    have hne := receivedAct_ne_join other data.topics stack result
    rw [State.announces, hr.act_eq hrecv]
    cases hact : receivedAct other data.topics stack result with
    | none => rfl
    | some act =>
      cases act with
      | join client => exact absurd hact (hne client)
      | _ => rfl
  | _ => rfl

private theorem fits_step (h : Sessions s) (hfit : ∀ id, s.Connected id → id.length ≤ idLength)
    {event : Event} (hs : s.step event = some t) (id : Bytes) (hc : t.Connected id) :
    id.length ≤ idLength := by
  have hnext := (h.serving_step hs).next
  have honline : id ∈ t.service.online := hc
  rw [hnext] at honline
  cases hact : s.act event with
  | none =>
    rw [hact] at honline
    exact hfit id honline
  | some act =>
    rw [hact, Option.elim_some] at honline
    cases act with
    | join new =>
      obtain rfl | honline := honline
      · obtain ⟨fd, connection, revents, data, inbox, -, hid, -⟩ := State.accept_of_join hact
        exact length_presentedId hid
      · exact hfit id honline
    | leave other => exact hfit id honline.1
    | _ => exact hfit id honline

private theorem fits_announces (h : Sessions s) (hfit : ∀ id, s.Connected id → id.length ≤ idLength)
    {event : Event} (hs : s.step event = some t) {announcement : Announcement}
    (ha : s.announces event = some announcement) : announcement.Fits := by
  cases event with
  | accept fd connection revents =>
    obtain ⟨id, hid, rfl⟩ := Option.map_eq_some_iff.mp ha
    split
    · exact length_presentedId hid
    · exact length_presentedId hid
  | client stack =>
    unfold State.announces at ha
    dsimp only at ha
    split at ha
    · next id hact =>
      cases ha
      exact hfit id ((h.serving_step hs).legal _ hact)
    · cases ha
  | _ => cases ha

end Sessions

private theorem fits_announcements {udpfd listenfd : Fd} {events : List Event} {s : State}
    (h : Run (State.initial udpfd listenfd) events s) :
    ∀ announcement ∈ announcements udpfd listenfd events, announcement.Fits := by
  have hstart : ∀ id, (State.initial udpfd listenfd).Connected id → id.length ≤ idLength := by
    rintro id ⟨fd, data, hd, -⟩
    cases hd
  exact forall_labels (P := fun s ↦ Sessions s ∧ ∀ id, s.Connected id → id.length ≤ idLength)
    (fun _ _ _ hs ht ↦ ⟨hs.1.step ht, hs.1.fits_step hs.2 ht⟩)
    (fun _ _ _ _ hs _ ht ha ↦ hs.1.fits_announces hs.2 ht ha) h
    ⟨Sessions.initial udpfd listenfd, hstart⟩

/-- The lines of a run tell who is connected at its end. -/
theorem connected_iff_announced {udpfd listenfd : Fd} {events : List Event} {s : State}
    (h : Run (State.initial udpfd listenfd) events s) (id : Bytes) :
    s.Connected id ↔ ((announcements udpfd listenfd events).filterMap
      (Announcement.presence id)).getLast? = some true := by
  have hinitial := Sessions.initial udpfd listenfd
  have hsame : (announcements udpfd listenfd events).filterMap (Announcement.presence id) =
      (acts udpfd listenfd events).filterMap (Act.presence id) :=
    filterMap_labels (P := Sessions) (fun _ _ _ h hs ↦ h.step hs)
      (fun _ _ _ h hs ↦ h.presence_announces hs id) h hinitial
  obtain ⟨hlawful, hend⟩ := hinitial.history h
  rw [State.service_initial] at hlawful hend
  obtain ⟨-, hlast⟩ := Service.online_of_history hlawful (Set.notMem_empty id)
  rw [← hend] at hlast
  rw [hsame]
  exact hlast

/-- What the operator is told is told clearly. The server prints one line for each client that
comes, goes or is turned away; the lines of a run can be told apart whatever bytes the ids are
made of; and so two runs with the same output have the same lines, and the same clients are
connected at their ends. -/
theorem told_by_output {udpfd listenfd udpfd' listenfd' : Fd} {events events' : List Event}
    {s s' : State} (h : Run (State.initial udpfd listenfd) events s)
    (h' : Run (State.initial udpfd' listenfd') events' s') :
    s.stdout = (announcements udpfd listenfd events).flatMap Announcement.line ∧
      (s.stdout = s'.stdout →
        announcements udpfd listenfd events = announcements udpfd' listenfd' events' ∧
          ∀ id, s.Connected id ↔ s'.Connected id) := by
  have hout {udpfd listenfd : Fd} {events : List Event} {s : State}
      (h : Run (State.initial udpfd listenfd) events s) :
      s.stdout = (announcements udpfd listenfd events).flatMap Announcement.line :=
    given_labels (P := Sessions) (G := State.stdout) (fun _ _ _ h hs ↦ h.step hs)
      (fun _ _ _ h hs ↦ h.stdout_step hs) h (Sessions.initial udpfd listenfd)
  have hnonempty (announcement : Announcement) : announcement.line ≠ [] := by
    cases announcement <;>
      simp [Announcement.line, newClient, alreadyConnected, disconnected, ascii]
  refine ⟨hout h, fun he ↦ ?_⟩
  rw [hout h, hout h'] at he
  have hsame := readable_line.eq_of_flatMap hnonempty (fits_announcements h)
    (fits_announcements h') he
  refine ⟨hsame, fun id ↦ ?_⟩
  rw [connected_iff_announced h, connected_iff_announced h', hsame]

/-- A client that comes on one descriptor or on another one is announced alike. -/
theorem told_by_output_joinRound : ∃ s s',
    Run (State.initial 3 4) (joinRound 4 5 0 (simpleClient 65 [] [])) s ∧
    Run (State.initial 3 4) (joinRound 4 7 0 (simpleClient 65 [.fin] [])) s' ∧
    s.clientName 5 = some [65] ∧ s.stdout = s'.stdout ∧ ∀ id, s.Connected id ↔ s'.Connected id := by
  have hrun : (exec State.step (State.initial 3 4) (joinRound 4 5 0 (simpleClient 65 [] []))).any
      (fun s ↦ decide (s.clientName 5 = some [65] ∧
        s.stdout = newClient [65] (localAddress 80))) = true := by decide +kernel
  have hrun' : (exec State.step (State.initial 3 4)
      (joinRound 4 7 0 (simpleClient 65 [.fin] []))).any
      (fun s ↦ decide (s.stdout = newClient [65] (localAddress 80))) = true := by decide +kernel
  obtain ⟨s, hs, hname, hout⟩ := exists_exec hrun
  obtain ⟨s', hs', hout'⟩ := exists_exec hrun'
  have hr : Run (State.initial 3 4) (joinRound 4 5 0 (simpleClient 65 [] [])) s := runs_of_exec hs
  have hr' : Run (State.initial 3 4) (joinRound 4 7 0 (simpleClient 65 [.fin] [])) s' :=
    runs_of_exec hs'
  have hsame : s.stdout = s'.stdout := hout.trans hout'.symm
  exact ⟨s, s', hr, hr', hname, hsame, ((told_by_output hr hr').2 hsame).2⟩

end Broker.Server
