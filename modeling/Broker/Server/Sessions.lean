import Broker.Server.Moves
import Mathlib.Data.List.Nodup
import Mathlib.Data.Set.Function

/-!
# The session tables

Consistency of the tables is kept by every move and holds in every reachable state, for
any interleaving of connects, duplicate ids, failed handshakes and disconnects, with
descriptors reused in any way that `accept` allows.
-/

namespace Broker.Server
open Broker.Base Broker.Net Broker.Topic

/-! ### The kernel's part -/

namespace Kernel

variable {kernel : Kernel} {names : Fd → Option Bytes}

private theorem Serves.install (h : kernel.Serves names) {fd : Fd} {sock : Socket} {id : Bytes}
    (hid : sock.clientId = some id) (ha : Addressed sock) :
    (kernel.install fd sock).Serves fun other ↦ if fd = other then some id else names other := by
  refine ⟨fun other ↦ ?_, h.addressed.install fd ha, h.stray⟩
  rw [socket_install]
  split
  · rw [Option.map_some, hid, Option.map_some]
  · exact h.owner other

private theorem Serves.accept (h : kernel.Serves names) {fd : Fd} {sock : Socket} {id : Bytes}
    (hid : sock.clientId = some id) (ha : Addressed sock) :
    (kernel.accept fd sock).Serves fun other ↦ if fd = other then some id else names other :=
  ⟨(h.install hid ha).owner, h.addressed.accept fd ha, h.stray⟩

private theorem Serves.update (h : kernel.Serves names) {fd : Fd} {sock : Socket} {id : Bytes}
    (hn : names fd = some id) (hid : sock.clientId = some id) (ha : Addressed sock) :
    (kernel.install fd sock).Serves names := by
  have he : (fun other ↦ if fd = other then some id else names other) = names := by
    funext other
    split
    · next ho => rw [← ho, hn]
    · rfl
  rw [← he]
  exact h.install hid ha

private theorem Serves.close (h : kernel.Serves names) (fd : Fd) :
    (kernel.close fd).Serves fun other ↦ if fd = other then none else names other := by
  refine ⟨fun other ↦ ?_, h.addressed.close (h.addressed.1 fd),
    (stray_close kernel fd).trans h.stray⟩
  rw [socket_close]
  split
  · rfl
  · exact h.owner other

/-- The connection behind a named descriptor, registered under that name. -/
theorem Serves.socket_of_name (h : kernel.Serves names) {fd : Fd} {id : Bytes}
    (hn : names fd = some id) :
    ∃ sock, kernel.socket fd = some sock ∧ sock.clientId = some id := by
  have ho := h.owner fd
  rw [hn] at ho
  exact Option.map_eq_some_iff.mp ho

private theorem Serves.name_of_closed (h : kernel.Serves names) {fd : Fd}
    (hs : kernel.socket fd = none) : names fd = none := by
  have ho := h.owner fd
  rw [hs] at ho
  exact Option.map_eq_none_iff.mp ho.symm

private theorem Serves.sendFrame (h : kernel.Serves names) {fd : Fd} {client : Bytes}
    (hn : names fd = some client) (frame : Frame) :
    (kernel.sendFrame fd client frame).1.Serves names := by
  obtain ⟨sock, hs, hid⟩ := h.socket_of_name hn
  obtain ⟨written, answers, hw⟩ := sock.sendFrame_eq_record client frame
  rw [sendFrame_of_socket hs, hw]
  refine h.update hn hid fun emission hm ↦ ?_
  obtain hm | hm := List.mem_append.mp hm
  · exact h.addressed.1 fd sock hs emission hm
  · rw [List.mem_singleton.mp hm]
    exact hid

end Kernel

private theorem Addressed.sendFrame {sock : Socket} (h : Addressed sock) {id : Bytes}
    (hid : sock.clientId = some id) (frame : Frame) : Addressed (sock.sendFrame id frame).1 := by
  obtain ⟨written, answers, hw⟩ := sock.sendFrame_eq_record id frame
  rw [hw]
  intro emission hm
  obtain hm | hm := List.mem_append.mp hm
  · exact h emission hm
  · rw [List.mem_singleton.mp hm]
    exact hid

namespace Sessions

variable {s t : State}

/-- The empty tables agree. -/
theorem initial (udpfd listenfd : Fd) : Sessions (State.initial udpfd listenfd) where
  listed := Nat.le_refl _
  position := by simp [State.initial]
  nodup := List.nodup_nil
  keys := by simp [State.initial, State.clientFds, State.clientName, subsStartIdx]
  named := by simp [State.initial, State.clientName, State.Live, State.subscriber]
  serves := ⟨fun fd ↦ rfl, ⟨by simp [State.initial, Kernel.socket], by simp [State.initial]⟩, rfl⟩
  registered path id h := absurd h (TopicTrie.not_holds_new path id)

private theorem transfer (h : Sessions s) (hfds : t.pollFds.map PollFd.fd = s.pollFds.map PollFd.fd)
    (hnames : t.connectedSubscribers = s.connectedSubscribers)
    (hlive : ∀ id fd, t.Live id fd ↔ s.Live id fd)
    (hserves : t.kernel.Serves s.clientName)
    (hregistered : ∀ path id, t.trie.Holds path id → (t.subscriber id).isSome)
    (hposition : ∀ i, t.place = .clients i → subsStartIdx ≤ i) : Sessions t := by
  have hclients : t.clientFds = s.clientFds := by
    rw [State.clientFds, State.clientFds, List.map_drop, List.map_drop, hfds]
  have hname : t.clientName = s.clientName := by
    funext fd
    rw [State.clientName, hnames, State.clientName]
  exact
    { listed := by
        rw [← List.length_map (f := PollFd.fd), hfds, List.length_map]
        exact h.listed
      position := hposition
      nodup := hclients ▸ h.nodup
      keys := by
        rw [hclients, hname]
        exact h.keys
      named := fun fd id ↦ by rw [hname, hlive, h.named]
      serves := hname ▸ hserves
      registered := hregistered }

private theorem live_set {subscribers : UnorderedMap Bytes SubscriberData} {id : Bytes}
    {old new : SubscriberData} (hs : subscribers = UnorderedMap.set s.subscribers id new)
    (hf : UnorderedMap.find s.subscribers id = some old) (hc : new.connected = old.connected)
    (hfd : new.sockfd = old.sockfd) (other : Bytes) (fd : Fd) :
    State.Live { s with subscribers := subscribers } other fd ↔ s.Live other fd := by
  unfold State.Live State.subscriber
  rw [hs]
  dsimp only
  rw [UnorderedMap.find_set]
  split
  · next ho =>
    subst ho
    simp only [hf, Option.some.injEq, exists_eq_left', hc, hfd]
  · rfl

/-- A descriptor that is not open has no name. -/
theorem name_of_not_open (h : Sessions s) {fd : Fd} (ho : ¬ s.Open fd) : s.clientName fd = none :=
  h.serves.name_of_closed (by simpa using (not_or.mp ho).2)

private theorem serves_refuse (h : Sessions s) {fd : Fd} (ho : ¬ s.Open fd) {sock : Socket}
    (hl : sock.log = []) :
    ((s.kernel.accept fd sock).close fd).Serves s.clientName := by
  have ha : Addressed sock := by simp [Addressed, hl]
  refine ⟨fun other ↦ ?_, h.serves.addressed.close_accept fd ha, ?_⟩
  · rw [Kernel.socket_close]
    split
    · next he => rw [← he, h.name_of_not_open ho]; rfl
    · next he =>
      rw [Kernel.socket_accept, if_neg he]
      exact h.serves.owner other
  · rw [Kernel.stray_close, Kernel.stray_accept]
    exact h.serves.stray

/-- Forwarding a message writes to named descriptors only. -/
theorem serves_route (h : Sessions s) (frame : Frame) (order : List Bytes) :
    (s.kernel.sendEach frame (recipients s.subscribers order)).1.Serves s.clientName := by
  refine Kernel.sendEach_invariant (P := (·.Serves s.clientName)) (fun kernel client fd hm hk ↦ ?_)
    h.serves
  obtain ⟨-, data, hd, hc, hf⟩ := mem_recipients.mp hm
  exact hk.sendFrame ((h.named fd client).mpr ⟨data, hd, hc, hf⟩) frame

/-- The connection a client is read from, at any later stage of the same connection. -/
theorem serves_read (h : Sessions s) {i : Nat} {fd : Fd} {id : Bytes} {data : SubscriberData}
    {sock : Socket} (hr : Reading s i fd id data sock) :
    sock.clientId = some id ∧ Addressed sock := by
  obtain ⟨found, hf, hid⟩ := h.serves.socket_of_name hr.name
  rw [hr.socket] at hf
  cases hf
  exact ⟨hid, h.serves.addressed.1 fd sock hr.socket⟩

private theorem registered_change (h : Sessions s) {id : Bytes} {change : Change}
    {path : List Level} {other : Bytes} (hh : (change.onTrie s.trie id).Holds path other) :
    other = id ∨ (s.subscriber other).isSome := by
  cases change with
  | subscribe topic =>
    obtain ⟨-, rfl⟩ | hh := (TopicTrie.holds_addSubscription ..).mp hh
    · exact .inl rfl
    · exact .inr (h.registered path other hh)
  | unsubscribe topic =>
    have hold := ((TopicTrie.holds_removeSubscription ..).mp hh).1
    exact .inr (h.registered path other hold)

private theorem isSome_set {subscribers : UnorderedMap Bytes SubscriberData} {id other : Bytes}
    {data : SubscriberData} (h : other = id ∨ (UnorderedMap.find subscribers other).isSome) :
    (UnorderedMap.find (UnorderedMap.set subscribers id data) other).isSome := by
  rw [UnorderedMap.find_set]
  split
  · rfl
  · next hn => exact h.resolve_left fun he ↦ hn he.symm

/-- Registering a free id on a new descriptor keeps the tables consistent. -/
theorem connect (h : Sessions s) {fd : Fd} {sock : Socket} {id : Bytes} (topics : Finset Bytes)
    (hnone : s.clientName fd = none) (hfree : ¬ s.Connected id) (hid : sock.clientId = some id)
    (ha : Addressed sock) (hlisted : subsStartIdx ≤ t.pollFds.length)
    (hposition : ∀ i, t.place = .clients i → subsStartIdx ≤ i)
    (hfds : t.clientFds = s.clientFds ++ [fd])
    (hname : ∀ other, t.clientName other = if fd = other then some id else s.clientName other)
    (hsub : ∀ other,
      t.subscriber other = if id = other then some ⟨true, fd, topics⟩ else s.subscriber other)
    (hkernel : t.kernel = s.kernel.accept fd sock) (htrie : t.trie = s.trie) : Sessions t where
  listed := hlisted
  position := hposition
  nodup := by
    have hnew : fd ∉ s.clientFds := by simp [h.keys, hnone]
    rw [hfds]
    refine List.nodup_append.mpr ⟨h.nodup, List.nodup_singleton fd, ?_⟩
    rintro a ha b hb rfl
    exact hnew (List.mem_singleton.mp hb ▸ ha)
  keys := fun other ↦ by
    rw [hfds, List.mem_append, List.mem_singleton, h.keys, hname]
    by_cases he : fd = other
    · simp [he]
    · simp [he, Ne.symm he]
  named := fun other name ↦ by
    rw [hname, State.Live, hsub]
    -- The new pair is live; no old pair shares its descriptor or its id.
    by_cases he : fd = other
    · subst he
      by_cases hn : id = name
      · simp [hn]
      · have hl : ¬ s.Live name fd := fun hl ↦ by simp [(h.named fd name).mpr hl] at hnone
        simpa [hn, State.Live] using hl
    · by_cases hn : id = name
      · subst hn
        have hl : s.clientName other ≠ some id := fun hc ↦ hfree ⟨other, (h.named _ _).mp hc⟩
        simpa [he] using hl
      · simpa [he, hn, State.Live] using h.named other name
  serves := by
    rw [hkernel, funext hname]
    exact h.serves.accept hid ha
  registered := fun path other hh ↦ by
    rw [hsub]
    split
    · rfl
    · exact h.registered path other (htrie ▸ hh)

/-- Erasing behind the first `n` entries is erasing from what follows them. -/
theorem drop_eraseIdx {α : Type} (l : List α) {n i : Nat} (h : n ≤ i) :
    (l.eraseIdx i).drop n = (l.drop n).eraseIdx (i - n) := by
  induction n generalizing l i with
  | zero => rfl
  | succ n ih =>
    obtain ⟨i, rfl⟩ := Nat.exists_eq_add_of_lt h
    cases l with
    | nil => simp
    | cons a l =>
      have hi := ih l (Nat.le_add_right n i)
      simpa [Nat.add_sub_add_right] using hi

/-- Erasing the entry of a client from `poll_fds` erases its descriptor. -/
theorem clientFds_eraseIdx (h : Sessions s) {i : Nat} {entry : PollFd}
    (hi : subsStartIdx ≤ i) (he : s.pollFds[i]? = some entry) :
    ((s.pollFds.eraseIdx i).drop subsStartIdx).map PollFd.fd = s.clientFds.erase entry.fd := by
  obtain ⟨hlt, hg⟩ := List.getElem?_eq_some_iff.mp he
  have hindex : i - subsStartIdx < s.clientFds.length := by
    rw [State.clientFds, List.length_map, List.length_drop]
    omega
  have hget : s.clientFds[i - subsStartIdx] = entry.fd := by
    simp only [State.clientFds, List.getElem_map, List.getElem_drop, Nat.add_sub_cancel' hi, hg]
  have hn := h.nodup.erase_getElem _ hindex
  rw [hget] at hn
  rw [hn, drop_eraseIdx _ hi, State.clientFds, List.eraseIdx_map]

/-- Giving up a client's descriptor keeps the tables consistent. -/
theorem disconnect (h : Sessions s) {i : Nat} {fd : Fd} {id : Bytes} {data : SubscriberData}
    {sock : Socket} (hr : Reading s i fd id data sock) (inbox : List Arrival) :
    Sessions (State.disconnect
      { s with kernel := s.kernel.install fd (sock.consume inbox) } i fd id data) := by
  obtain ⟨entry, he, rfl, -⟩ := hr.entry
  have hi := h.position i hr.place
  have hlt : i < s.pollFds.length := (List.getElem?_eq_some_iff.mp he).1
  have hfds : State.clientFds (State.disconnect
      { s with kernel := s.kernel.install entry.fd (sock.consume inbox) } i entry.fd id data) =
      s.clientFds.erase entry.fd := h.clientFds_eraseIdx hi he
  obtain ⟨hid, ha⟩ := h.serves_read hr
  constructor
  · simp only [State.disconnect, List.length_eraseIdx, hlt, ↓reduceIte]
    omega
  · rintro j hj
    cases hj
    exact hi
  · rw [hfds]
    exact h.nodup.erase _
  · intro other
    rw [hfds, h.nodup.mem_erase_iff, h.keys]
    simp only [State.disconnect, State.clientName, UnorderedMap.find_erase]
    by_cases hf : entry.fd = other
    · simp [hf]
    · simp [hf, Ne.symm hf]
  · intro other name
    simp only [State.disconnect, State.clientName, State.Live, State.subscriber,
      UnorderedMap.find_erase, UnorderedMap.find_set]
    -- Only the pair of the client that has left is gone.
    by_cases hf : entry.fd = other
    · subst hf
      by_cases hn : id = name
      · simp [hn]
      · have hl : ¬ s.Live name entry.fd := fun hl ↦
          hn (Option.some.inj (hr.name.symm.trans ((h.named _ _).mpr hl)))
        simpa [hn, State.Live, State.subscriber] using hl
    · by_cases hn : id = name
      · subst hn
        have hl : s.clientName other ≠ some id := fun hc ↦ by
          obtain ⟨found, hd, -, ho⟩ := (h.named _ _).mp hc
          rw [hr.subscriber] at hd
          cases hd
          exact hf (hr.sockfd.symm.trans ho)
        simpa [hf, State.clientName] using hl
      · simpa [hf, hn, State.clientName, State.Live, State.subscriber] using h.named other name
  · have hk : (s.kernel.install entry.fd (sock.consume inbox)).Serves s.clientName :=
      h.serves.update hr.name hid ha
    have hname : State.clientName (State.disconnect
        { s with kernel := s.kernel.install entry.fd (sock.consume inbox) } i entry.fd id data) =
        fun other ↦ if entry.fd = other then none else s.clientName other := by
      funext other
      exact UnorderedMap.find_erase _ _ _
    rw [hname]
    exact hk.close entry.fd
  · exact fun path other hh ↦ isSome_set (.inr (h.registered path other hh))

/-- Every move keeps the tables consistent. -/
theorem step (h : Sessions s) {event : Event} (hs : s.step event = some t) : Sessions t := by
  cases h.move hs with
  | typed hleft hclosed =>
    exact h.transfer rfl rfl (fun _ _ ↦ Iff.rfl) h.serves h.registered h.position
  | stdinClosed hleft =>
    exact h.transfer rfl rfl (fun _ _ ↦ Iff.rfl) h.serves h.registered h.position
  | command hplace hread =>
    exact h.transfer rfl rfl (fun _ _ ↦ Iff.rfl) h.serves h.registered (by
      intro i hi
      dsimp only at hi
      split at hi <;> cases hi)
  | idle hevent hfds hleft hphase hposition =>
    exact h.transfer hfds rfl (fun _ _ ↦ Iff.rfl) h.serves h.registered hposition
  | die hevent =>
    exact h.transfer rfl rfl (fun _ _ ↦ Iff.rfl) h.serves h.registered (by rintro i ⟨⟩)
  | route hplace hnodup horder hsent =>
    subst hsent
    exact h.transfer rfl rfl (fun _ _ ↦ Iff.rfl) (h.serves_route _ _) h.registered (by
      intro i hi
      dsimp only at hi
      split at hi <;> cases hi)
  | refuse hplace hopen =>
    exact h.transfer rfl rfl (fun _ _ ↦ Iff.rfl) (h.serves_refuse hopen rfl) h.registered (by
      rintro i ⟨⟩
      exact Nat.le_refl _)
  | @connect fd connection revents data inbox stdout hplace hopen hread hfree =>
    have ha : Addressed ((connection.socket inbox).register (connectingId data)) := by
      simp [Addressed, Socket.register, Connection.socket]
    refine h.connect (s.topics (connectingId data)) (h.name_of_not_open hopen) hfree rfl ha
      ?_ ?_ ?_ ?_ ?_ rfl rfl
    · simp only [List.length_append]
      exact Nat.le_add_right_of_le h.listed
    · rintro i ⟨⟩
      exact Nat.le_refl _
    · simp [State.clientFds, List.drop_append_of_le_length h.listed]
    · exact fun other ↦ UnorderedMap.find_set _ _ _ _
    · intro other
      simp only [State.subscriber, UnorderedMap.find_set, UnorderedMap.find_index]
      split <;> rfl
  | ignore hreading hrecv hlength hnone =>
    obtain ⟨hid, ha⟩ := h.serves_read hreading
    refine h.transfer rfl rfl (live_set rfl hreading.subscriber rfl rfl)
      (h.serves.update hreading.name hid ha)
      (fun path other hh ↦ isSome_set (.inr (h.registered path other hh))) ?_
    rintro j ⟨⟩
    exact h.position _ hreading.place
  | act hreading hrecv hlength hrequested hsent =>
    obtain ⟨hid, ha⟩ := h.serves_read hreading
    subst hsent
    obtain ⟨written, answers, hw⟩ := Socket.sendFrame_eq_record _ _ _
    refine h.transfer rfl rfl (live_set rfl hreading.subscriber rfl rfl) ?_
      (fun path other hh ↦ isSome_set (h.registered_change hh)) ?_
    · refine h.serves.update hreading.name ?_ (Addressed.sendFrame ?_ ?_ _)
      · rw [hw]
        exact hid
      · exact ha
      · exact hid
    · intro j hj
      dsimp only at hj
      split at hj
      · cases hj
      · cases hj
        exact h.position _ hreading.place
  | short hreading hrecv hresult =>
    obtain ⟨hid, ha⟩ := h.serves_read hreading
    refine h.transfer rfl rfl (fun _ _ ↦ Iff.rfl) (h.serves.update hreading.name hid ha)
      h.registered ?_
    rintro j ⟨⟩
    exact Nat.le_succ_of_le (h.position _ hreading.place)
  | disconnect hreading hrecv hresult => exact h.disconnect hreading _

/-- In every state of every run the tables are consistent. -/
theorem of_reaches {allowed : State → Event → Prop} {udpfd listenfd : Fd}
    (h : Reaches State.step allowed (State.initial udpfd listenfd) s) : Sessions s :=
  h.invariant (initial udpfd listenfd) fun _ _ _ hs _ ht ↦ hs.step ht

/-- The names of the polled descriptors are the connected ids, one for each. -/
theorem bijOn (h : Sessions s) :
    Set.BijOn (fun fd ↦ (s.clientName fd).getD []) {fd | fd ∈ s.clientFds}
      {id | s.Connected id} := by
  refine ⟨fun fd hm ↦ ?_, fun fd hm other ho he ↦ ?_, fun id hc ↦ ?_⟩
  · obtain ⟨id, hid⟩ := Option.isSome_iff_exists.mp ((h.keys fd).mp hm)
    simp only [hid, Option.getD_some]
    exact ⟨fd, (h.named fd id).mp hid⟩
  · obtain ⟨id, hid⟩ := Option.isSome_iff_exists.mp ((h.keys fd).mp hm)
    obtain ⟨id', hid'⟩ := Option.isSome_iff_exists.mp ((h.keys other).mp ho)
    simp only [hid, hid', Option.getD_some] at he
    subst he
    -- Both descriptors are the one recorded for the id.
    obtain ⟨data, hd, -, hf⟩ := (h.named fd id).mp hid
    obtain ⟨data', hd', -, hf'⟩ := (h.named other id).mp hid'
    rw [hd] at hd'
    cases hd'
    exact hf.symm.trans hf'
  · obtain ⟨fd, hl⟩ := hc
    have hn := (h.named fd id).mpr hl
    refine ⟨fd, (h.keys fd).mpr (by rw [hn]; rfl), ?_⟩
    simp only [hn, Option.getD_some]

private theorem lookups (h : Sessions s) {i : Nat} {entry : PollFd} (hp : s.place = .clients i)
    (he : s.pollFds[i]? = some entry) :
    ∃ id data,
      UnorderedMap.index s.connectedSubscribers entry.fd [] = (id, s.connectedSubscribers) ∧
      UnorderedMap.index s.subscribers id .default = (data, s.subscribers) := by
  obtain ⟨id, hid⟩ := Option.isSome_iff_exists.mp
    ((h.keys _).mp (State.mem_clientFds (h.position i hp) he))
  obtain ⟨data, hd, -, -⟩ := (h.named _ _).mp hid
  exact ⟨id, data, UnorderedMap.index_of_find hid _, UnorderedMap.index_of_find hd _⟩

end Sessions

/-- An attempt to connect that `accept`, the handshake or a live client of the same id stops. -/
def State.Refuses (s : State) : Event → Prop
  | .acceptFails => True
  | .accept _ connection _ => ∀ data inbox,
      recvall idLength connection.inbox = some (.complete data, inbox) →
        s.Connected (connectingId data)
  | _ => False

private theorem Sessions.tables_of_refuses {s t : State} (h : Sessions s) {event : Event}
    (hr : s.Refuses event) (hs : s.step event = some t) :
    t.subscribers = s.subscribers ∧ t.connectedSubscribers = s.connectedSubscribers ∧
      t.pollFds = s.pollFds ∧ t.trie = s.trie := by
  cases event with
  | acceptFails =>
    obtain ⟨-, ht⟩ := Option.ite_none_right_eq_some.mp hs
    cases ht
    exact ⟨rfl, rfl, rfl, rfl⟩
  | accept fd connection revents =>
    cases h.move hs with
    | refuse hplace hopen => exact ⟨rfl, rfl, rfl, rfl⟩
    | connect hplace hopen hread hfree => exact absurd (hr _ _ hread) hfree
    | idle hevent hfds hleft hphase hposition => cases hevent
    | die hevent => simp at hevent
  | _ => exact hr.elim

/-- The session tables in every reachable state: the polled client descriptors are distinct
and are the keys of `connected_subscribers`, their names are in bijection with the connected
ids, and each id records its descriptor; every frame went to an open connection registered
to the client it was for; the loop over the clients creates no entry; and a refused attempt
to connect changes no table. -/
theorem session_tables {udpfd listenfd : Fd} {s : State} (h : Reachable udpfd listenfd s) :
    s.clientFds.Nodup ∧ (∀ fd, fd ∈ s.clientFds ↔ (s.clientName fd).isSome) ∧
    Set.BijOn (fun fd ↦ (s.clientName fd).getD []) {fd | fd ∈ s.clientFds}
      {id | s.Connected id} ∧
    (∀ fd id, s.clientName fd = some id → ∃ data,
      s.subscriber id = some data ∧ data.connected = true ∧ data.sockfd = fd) ∧
    (s.kernel.stray = [] ∧ s.kernel.Every Addressed ∧
      ∀ fd, (s.kernel.socket fd).map Socket.clientId = (s.clientName fd).map some) ∧
    (∀ i entry, s.place = .clients i → s.pollFds[i]? = some entry → ∃ id data,
      UnorderedMap.index s.connectedSubscribers entry.fd [] = (id, s.connectedSubscribers) ∧
      UnorderedMap.index s.subscribers id .default = (data, s.subscribers)) ∧
    ∀ event t, s.Refuses event → s.step event = some t →
      t.subscribers = s.subscribers ∧ t.connectedSubscribers = s.connectedSubscribers ∧
        t.pollFds = s.pollFds ∧ t.trie = s.trie :=
  have hs := Sessions.of_reaches h
  ⟨hs.nodup, hs.keys, hs.bijOn, fun fd id hn ↦ (hs.named fd id).mp hn,
    ⟨hs.serves.stray, hs.serves.addressed, hs.serves.owner⟩, fun _ _ ↦ hs.lookups,
    fun _ _ ↦ hs.tables_of_refuses⟩

/-- Two clients connect, the first one leaves, and a third one reuses its descriptor. -/
def reuseRun : List Event :=
  joinRound 4 5 0 (simpleClient 65 [.fin] []) ++ joinRound 4 6 1 (simpleClient 66 [] []) ++
    visitRound 5 0 ++ [.client [], .proceed, .proceed] ++ joinRound 4 5 1 (simpleClient 67 [] [])

/-- The tables after a descriptor has been reused. -/
theorem session_tables_reuseRun : ∃ s, exec State.step (State.initial 3 4) reuseRun = some s ∧
    s.clientFds = [6, 5] ∧ s.clientName 5 = some [67] ∧
    Set.BijOn (fun fd ↦ (s.clientName fd).getD []) {fd | fd ∈ s.clientFds}
      {id | s.Connected id} := by
  have hrun : (exec State.step (State.initial 3 4) reuseRun).any
      (fun s ↦ s.clientFds = [6, 5] ∧ s.clientName 5 = some [67]) = true := by decide +kernel
  obtain ⟨s, hs, hfds, hname⟩ := exists_exec hrun
  exact ⟨s, hs, hfds, hname, (session_tables (reaches_of_exec hs)).2.2.1⟩

end Broker.Server
