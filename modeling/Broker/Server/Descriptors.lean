import Broker.Base.Resources
import Broker.Server.History
import Broker.Server.Traversal

/-!
# The descriptors of the server

Each descriptor that `accept` returns is closed once before `accept` can return it again: where
the handshake fails, where the client leaves, or in the cleanup behind the main loop
(`server.cpp:245–249`). The server's own descriptors are closed there only.
-/

namespace Broker.Server
open Broker.Base Broker.Net Broker.Topic

/-! ### The cleanup -/

/-- `close` on one descriptor after the other. -/
def Kernel.closeAll (kernel : Kernel) (fds : List Fd) : Kernel := fds.foldl close kernel

/-- The global cleanup, `server.cpp:245–249`. -/
def State.cleanup (s : State) (udpfd listenfd : Fd) : State :=
  { s with kernel := ((s.kernel.close listenfd).close udpfd).closeAll s.clientFds }

namespace Kernel

private theorem uses_closeAll (kernel : Kernel) (fds : List Fd) :
    (kernel.closeAll fds).uses = kernel.uses ++ fds.map .release := by
  induction fds generalizing kernel with
  | nil => exact (List.append_nil _).symm
  | cons fd fds ih =>
    have hrest := ih (kernel.close fd)
    rw [uses_close, List.append_assoc] at hrest
    exact hrest

private theorem archive_close_of_none {kernel : Kernel} {fd : Fd} (h : kernel.socket fd = none) :
    (kernel.close fd).archive = kernel.archive := by
  simp only [close, h]

/-- None of the descriptors that have been closed stands for anything. -/
theorem socket_closeAll (kernel : Kernel) (fds : List Fd) (fd : Fd) :
    (kernel.closeAll fds).socket fd = if fd ∈ fds then none else kernel.socket fd := by
  induction fds generalizing kernel with
  | nil => rfl
  | cons first fds ih =>
    have hrest := ih (kernel.close first)
    rw [socket_close] at hrest
    rw [closeAll, List.foldl_cons, ← closeAll, hrest]
    by_cases hm : fd ∈ fds
    · rw [if_pos hm, if_pos (List.mem_cons_of_mem first hm)]
    · simp only [hm, List.mem_cons, or_false, ↓reduceIte, eq_comm]

private theorem length_archive_closeAll {kernel : Kernel} {fds : List Fd} (hn : fds.Nodup)
    (ho : ∀ fd ∈ fds, (kernel.socket fd).isSome) :
    (kernel.closeAll fds).archive.length = kernel.archive.length + fds.length := by
  induction fds generalizing kernel with
  | nil => rfl
  | cons fd fds ih =>
    obtain ⟨hfresh, hn⟩ := List.nodup_cons.mp hn
    obtain ⟨sock, hs⟩ := Option.isSome_iff_exists.mp (ho fd List.mem_cons_self)
    have hrest (other : Fd) (hm : other ∈ fds) : ((kernel.close fd).socket other).isSome := by
      have hne : fd ≠ other := fun he ↦ hfresh (he ▸ hm)
      rw [socket_close, if_neg hne]
      exact ho other (List.mem_cons_of_mem fd hm)
    have hall := ih hn hrest
    rw [archive_close hs, List.length_append, List.length_singleton] at hall
    rw [closeAll, List.foldl_cons, ← closeAll, hall, List.length_cons]
    omega

end Kernel

/-! ### The calls of a step -/

namespace State

/-- The server's own descriptors. -/
def ownFds (s : State) : List Fd := (s.pollFds.take subsStartIdx).map PollFd.fd

/-- The descriptors of the clients that are polled. -/
def openFds (s : State) : Set Fd := {fd | fd ∈ s.clientFds}

end State

/-- The calls of a step, and what it does to the descriptors by them. -/
structure Calling (s : State) (calls : List (Use Fd)) (t : State) : Prop where
  recorded : t.kernel.uses = s.kernel.uses ++ calls
  lawful : Lawful Use.Legal Use.next s.openFds calls
  opens : t.openFds = calls.foldl Use.next s.openFds
  own : t.ownFds = s.ownFds
  fresh : ∀ fd, .acquire fd ∈ calls → fd ∉ s.ownFds
  filed : t.kernel.archive.length = s.kernel.archive.length + calls.countP Use.isRelease

variable {s t : State}

private theorem calling_nil (hfds : t.pollFds.map PollFd.fd = s.pollFds.map PollFd.fd)
    (harchive : t.kernel.archive = s.kernel.archive) (huses : t.kernel.uses = s.kernel.uses) :
    Calling s [] t where
  recorded := huses.trans (List.append_nil _).symm
  lawful := trivial
  opens := by
    have hclients : t.clientFds = s.clientFds := by
      rw [State.clientFds, List.map_drop, hfds, ← List.map_drop, State.clientFds]
    rw [State.openFds, hclients]
    rfl
  own := by rw [State.ownFds, List.map_take, hfds, ← List.map_take, State.ownFds]
  fresh := fun _ hm ↦ absurd hm List.not_mem_nil
  filed := by rw [harchive]; rfl

namespace Sessions

/-- The descriptors of open connections are those of the clients. -/
theorem isSome_socket_iff (h : Sessions s) (fd : Fd) :
    (s.kernel.socket fd).isSome ↔ fd ∈ s.clientFds := by
  have howner := congrArg Option.isSome (h.serves.owner fd)
  rw [Option.isSome_map, Option.isSome_map] at howner
  rw [h.keys, howner]

private theorem clientFds_append (h : Sessions s) {entry : PollFd}
    (ht : t.pollFds = s.pollFds ++ [entry]) : t.clientFds = s.clientFds ++ [entry.fd] := by
  have hentries := congrArg (List.map PollFd.fd) (h.clientEntries_append ht)
  rwa [List.map_append] at hentries

private theorem notMem_of_not_open (h : Sessions s) {fd : Fd} (hopen : ¬ s.Open fd) :
    fd ∉ s.openFds ∧ fd ∉ s.ownFds := by
  obtain ⟨hown, hclosed⟩ := not_or.mp hopen
  exact ⟨fun hm ↦ hclosed ((h.isSome_socket_iff fd).mpr hm), hown⟩

private theorem calling_refuse (h : Sessions s) {fd : Fd} {sock : Socket} (hopen : ¬ s.Open fd)
    (hfds : t.pollFds = s.pollFds) (hkernel : t.kernel = (s.kernel.accept fd sock).close fd) :
    Calling s [.acquire fd, .release fd] t := by
  obtain ⟨hfree, hown⟩ := h.notMem_of_not_open hopen
  have hsock : (s.kernel.accept fd sock).socket fd = some sock := by
    rw [Kernel.socket_accept, if_pos rfl]
  refine ⟨?_, ⟨hfree, Set.mem_insert fd _, trivial⟩, ?_, ?_, ?_, ?_⟩
  · rw [hkernel, Kernel.uses_close, Kernel.uses_accept, List.append_assoc]
    rfl
  · rw [State.openFds, State.clientFds, hfds]
    exact (Set.insert_sdiff_self_of_notMem hfree).symm
  · rw [State.ownFds, hfds, State.ownFds]
  · rintro other hm
    obtain rfl : other = fd := by simpa using hm
    exact hown
  · rw [hkernel, Kernel.archive_close hsock, List.length_append]
    rfl

private theorem calling_connect (h : Sessions s) (entry : PollFd) {sock : Socket}
    (hopen : ¬ s.Open entry.fd) (hfds : t.pollFds = s.pollFds ++ [entry])
    (hkernel : t.kernel = s.kernel.accept entry.fd sock) : Calling s [.acquire entry.fd] t := by
  obtain ⟨hfree, hown⟩ := h.notMem_of_not_open hopen
  refine ⟨by rw [hkernel]; rfl, ⟨hfree, trivial⟩, ?_, ?_, ?_, by rw [hkernel]; rfl⟩
  · rw [State.openFds, h.clientFds_append hfds]
    ext other
    simp [State.openFds, Use.next, or_comm]
  · rw [State.ownFds, h.take_append hfds, State.ownFds]
  · rintro other hm
    obtain rfl : other = entry.fd := by simpa using hm
    exact hown

private theorem calling_disconnect (h : Sessions s) {i : Nat} {fd : Fd} {id : Bytes}
    {data : SubscriberData} {sock : Socket} (hr : Reading s i fd id data sock)
    (inbox : List Arrival) :
    Calling s [.release fd] (State.disconnect
      { s with kernel := s.kernel.install fd (sock.consume inbox) } i fd id data) := by
  obtain ⟨entry, he, rfl, -⟩ := hr.entry
  have hi := h.position i hr.place
  refine ⟨?_, ⟨State.mem_clientFds hi he, trivial⟩, ?_, ?_, ?_, ?_⟩
  · rw [State.disconnect, Kernel.uses_close, Kernel.uses_install]
  · ext other
    have hfds : State.clientFds (State.disconnect
        { s with kernel := s.kernel.install entry.fd (sock.consume inbox) } i entry.fd id data) =
        s.clientFds.erase entry.fd := h.clientFds_eraseIdx hi he
    simp only [State.openFds, hfds, Set.mem_ofPred_eq, h.nodup.mem_erase_iff]
    exact and_comm
  · have htake : (s.pollFds.eraseIdx i).take subsStartIdx = s.pollFds.take subsStartIdx :=
      List.take_eraseIdx_eq_take_of_le _ _ _ hi
    rw [State.ownFds, State.disconnect]
    exact congrArg (List.map PollFd.fd) htake
  · intro other hm
    simp at hm
  · have hsock : (s.kernel.install entry.fd (sock.consume inbox)).socket entry.fd =
        some (sock.consume inbox) := by rw [Kernel.socket_install, if_pos rfl]
    rw [State.disconnect, Kernel.archive_close hsock, List.length_append]
    rfl

private theorem calling_step (h : Sessions s) {event : Event} (hs : s.step event = some t) :
    ∃ calls, Calling s calls t := by
  cases h.move hs with
  | typed hleft hclosed => exact ⟨[], calling_nil rfl rfl rfl⟩
  | stdinClosed hleft => exact ⟨[], calling_nil rfl rfl rfl⟩
  | command hplace hline => exact ⟨[], calling_nil rfl rfl rfl⟩
  | idle hevent hfds => exact ⟨[], calling_nil hfds rfl rfl⟩
  | die hevent => exact ⟨[], calling_nil rfl rfl rfl⟩
  | route hplace hnodup horder hsent =>
    subst hsent
    exact ⟨[], calling_nil rfl (Kernel.archive_sendEach ..) (Kernel.uses_sendEach ..)⟩
  | refuse hplace hopen => exact ⟨_, h.calling_refuse hopen rfl rfl⟩
  | @connect fd _ revents _ _ _ hplace hopen =>
    exact ⟨_, h.calling_connect ⟨fd, revents⟩ hopen rfl rfl⟩
  | ignore hreading => exact ⟨[], calling_nil rfl rfl rfl⟩
  | act hreading => exact ⟨[], calling_nil rfl rfl rfl⟩
  | short hreading => exact ⟨[], calling_nil rfl rfl rfl⟩
  | disconnect hreading => exact ⟨_, h.calling_disconnect hreading _⟩

end Sessions

/-! ### Whole runs -/

/-- The calls so far are a lawful use of the descriptors, from none to those of the clients, and
the server's own ones are not accepted. -/
structure Recorded (owned : List Fd) (s : State) : Prop where
  sessions : Sessions s
  lawful : Lawful Use.Legal Use.next ∅ s.kernel.uses
  opens : s.openFds = s.kernel.uses.foldl Use.next ∅
  own : s.ownFds = owned
  fresh : ∀ fd, .acquire fd ∈ s.kernel.uses → fd ∉ owned
  filed : s.kernel.archive.length = s.kernel.uses.countP Use.isRelease

namespace Recorded

variable {owned : List Fd}

private theorem step (h : Recorded owned s) {event : Event} (hs : s.step event = some t) :
    Recorded owned t := by
  obtain ⟨calls, hcalls⟩ := h.sessions.calling_step hs
  refine ⟨h.sessions.step hs, ?_, ?_, hcalls.own.trans h.own, fun fd hm ↦ ?_, ?_⟩
  · rw [hcalls.recorded]
    exact lawful_append.mpr ⟨h.lawful, h.opens ▸ hcalls.lawful⟩
  · rw [hcalls.opens, h.opens, hcalls.recorded, List.foldl_append]
  · rw [hcalls.recorded] at hm
    exact (List.mem_append.mp hm).elim (h.fresh fd) (h.own ▸ hcalls.fresh fd)
  · rw [hcalls.filed, h.filed, hcalls.recorded, List.countP_append]

/-- In every run the calls so far are recorded, for the three descriptors the server starts with. -/
theorem of_reaches {udpfd listenfd : Fd} (h : Reachable udpfd listenfd s) :
    Recorded [stdinFd, udpfd, listenfd] s :=
  h.invariant ⟨.initial udpfd listenfd, trivial,
    Set.eq_empty_iff_forall_notMem.mpr fun _ ↦ List.not_mem_nil, rfl,
    fun _ hm ↦ absurd hm List.not_mem_nil, rfl⟩ fun _ _ _ hi _ hs ↦ hi.step hs

/-- What has been accepted last is open. -/
theorem isSome_socket_iff (h : Recorded owned s) (fd : Fd) :
    (s.kernel.socket fd).isSome ↔
      (s.kernel.uses.filterMap (Use.switch fd)).getLast? = some true := by
  rw [h.sessions.isSome_socket_iff, ← (Use.alternates_of_lawful h.lawful fd).2, ← h.opens]
  rfl

private theorem resource_notMem (h : Recorded owned s) :
    (∀ call ∈ s.kernel.uses, call.resource ∉ owned) ∧ ∀ fd ∈ s.clientFds, fd ∉ owned := by
  have huses : ∀ call ∈ s.kernel.uses, call.resource ∉ owned := fun call hm ↦
    h.fresh _ ((Use.resource_of_lawful h.lawful hm).resolve_left (Set.notMem_empty _))
  refine ⟨huses, fun fd hm ↦ ?_⟩
  have hlast := (h.isSome_socket_iff fd).mp ((h.sessions.isSome_socket_iff fd).mpr hm)
  obtain ⟨call, hcall, hswitch⟩ := List.mem_filterMap.mp (List.mem_of_getLast? hlast)
  exact Use.resource_of_switch hswitch ▸ huses call hcall

private theorem lawful_closed (h : Recorded owned s) :
    let calls := s.kernel.uses ++ s.clientFds.map .release
    Lawful Use.Legal Use.next ∅ calls ∧ calls.foldl Use.next ∅ = ∅ := by
  intro calls
  have hheld (fd : Fd) (hm : fd ∈ s.clientFds) : fd ∈ s.kernel.uses.foldl Use.next ∅ :=
    h.opens ▸ hm
  obtain ⟨hreleases, hend⟩ := Use.lawful_releases h.sessions.nodup hheld
  refine ⟨lawful_append.mpr ⟨h.lawful, hreleases⟩, ?_⟩
  rw [List.foldl_append, hend, ← h.opens]
  exact sdiff_self

end Recorded

/-- The calls of the cleanup. -/
theorem State.uses_cleanup (s : State) (udpfd listenfd : Fd) :
    (s.cleanup udpfd listenfd).kernel.uses =
      s.kernel.uses ++ .release listenfd :: .release udpfd :: s.clientFds.map .release := by
  rw [State.cleanup, Kernel.uses_closeAll, Kernel.uses_close, Kernel.uses_close,
    List.append_assoc, List.append_assoc]
  rfl

/-- Closing what is no client's files no connection; the clients' connections are filed. -/
theorem Recorded.filed_cleanup {udpfd listenfd : Fd}
    (h : Recorded [stdinFd, udpfd, listenfd] s) :
    (∀ fd, (s.cleanup udpfd listenfd).kernel.socket fd = none) ∧
      (s.cleanup udpfd listenfd).kernel.archive.length =
        s.kernel.archive.length + s.clientFds.length := by
  have hclosed (fd : Fd) (hm : fd ∈ [stdinFd, udpfd, listenfd]) : s.kernel.socket fd = none :=
    Option.not_isSome_iff_eq_none.mp fun ho ↦
      h.resource_notMem.2 fd ((h.sessions.isSome_socket_iff fd).mp ho) hm
  have hlisten : s.kernel.socket listenfd = none := hclosed listenfd (by simp)
  have hudp : (s.kernel.close listenfd).socket udpfd = none := by
    rw [Kernel.socket_close, hclosed udpfd (by simp), ite_self]
  have hclient (fd : Fd) : ((s.kernel.close listenfd).close udpfd).socket fd =
      s.kernel.socket fd := by
    rw [Kernel.socket_close, Kernel.socket_close]
    split
    · next he => exact he ▸ (hclosed udpfd (by simp)).symm
    · split
      · next he => exact he ▸ hlisten.symm
      · rfl
  have hopen (fd : Fd) (hm : fd ∈ s.clientFds) :
      (((s.kernel.close listenfd).close udpfd).socket fd).isSome := by
    rw [hclient]
    exact (h.sessions.isSome_socket_iff fd).mpr hm
  constructor
  · intro fd
    rw [State.cleanup, Kernel.socket_closeAll, hclient]
    split
    · rfl
    · next hm =>
      exact Option.not_isSome_iff_eq_none.mp fun ho ↦ hm ((h.sessions.isSome_socket_iff fd).mp ho)
  · rw [State.cleanup, Kernel.length_archive_closeAll h.sessions.nodup hopen,
      Kernel.archive_close_of_none hudp, Kernel.archive_close_of_none hlisten]

/-- The calls about one of the own descriptors are those of the cleanup. -/
theorem Recorded.switches_own {udpfd listenfd : Fd} (h : Recorded [stdinFd, udpfd, listenfd] s)
    {fd : Fd} (hm : fd ∈ [stdinFd, udpfd, listenfd]) :
    (s.cleanup udpfd listenfd).kernel.uses.filterMap (Use.switch fd) =
      [Use.release listenfd, .release udpfd].filterMap (Use.switch fd) := by
  have hrun : s.kernel.uses.filterMap (Use.switch fd) = [] :=
    Use.filterMap_switch_eq_nil fun call hc he ↦ h.resource_notMem.1 call hc (he ▸ hm)
  have hclients : (s.clientFds.map Use.release).filterMap (Use.switch fd) = [] := by
    refine Use.filterMap_switch_eq_nil fun call hc he ↦ ?_
    obtain ⟨client, hclient, rfl⟩ := List.mem_map.mp hc
    have he : client = fd := he
    exact h.resource_notMem.2 client hclient (he ▸ hm)
  have hsplit : (s.cleanup udpfd listenfd).kernel.uses = s.kernel.uses ++
      ([.release listenfd, .release udpfd] ++ s.clientFds.map .release) :=
    s.uses_cleanup udpfd listenfd
  rw [hsplit, List.filterMap_append, List.filterMap_append, hrun, hclients, List.append_nil,
    List.nil_append]

/-- The calls about another descriptor are lawful, and leave it closed. -/
theorem Recorded.alternates_cleanup {owned : List Fd} (h : Recorded owned s)
    {udpfd listenfd fd : Fd} (hm : fd ∉ [udpfd, listenfd]) :
    let switches := (s.cleanup udpfd listenfd).kernel.uses.filterMap (Use.switch fd)
    Alternates true false switches ∧ switches.getLast? ≠ some true := by
  intro switches
  obtain ⟨hlawful, hnone⟩ := h.lawful_closed
  have hsame : switches =
      (s.kernel.uses ++ s.clientFds.map Use.release).filterMap (Use.switch fd) := by
    have hu : udpfd ≠ fd := fun he ↦ hm (he ▸ List.mem_cons_self)
    have hl : listenfd ≠ fd := fun he ↦ hm (he ▸ List.mem_cons_of_mem _ List.mem_cons_self)
    simp only [switches]
    rw [s.uses_cleanup, List.filterMap_append, List.filterMap_append]
    simp [Use.switch, hu, hl]
  obtain ⟨halternates, hlast⟩ := Use.alternates_of_lawful hlawful fd
  rw [hsame]
  exact ⟨halternates, fun ho ↦ absurd (hnone ▸ hlast.mpr ho) (Set.notMem_empty fd)⟩

/-- Every descriptor is closed once. None of the calls of `accept` and `close` in a run is about
one of the server's own descriptors, not even where numbers are reused, and the connections open
are those of the descriptors accepted last. With the calls of the cleanup behind them each
descriptor of a connection is accepted and closed in turn, and is closed at the end; the server's
two sockets are closed once, there only, and standard input is not. No connection is open behind
the cleanup, and each call of `close` but those two has closed one. -/
theorem descriptors_closed_once {udpfd listenfd : Fd} (hown : [stdinFd, udpfd, listenfd].Nodup)
    (h : Reachable udpfd listenfd s) :
    let after := s.cleanup udpfd listenfd
    (∀ call ∈ s.kernel.uses, call.resource ∉ [stdinFd, udpfd, listenfd]) ∧
    (∀ fd, (s.kernel.socket fd).isSome ↔
      (s.kernel.uses.filterMap (Use.switch fd)).getLast? = some true) ∧
    (∀ fd, fd ∉ [udpfd, listenfd] →
      Alternates true false (after.kernel.uses.filterMap (Use.switch fd)) ∧
        (after.kernel.uses.filterMap (Use.switch fd)).getLast? ≠ some true) ∧
    (∀ fd ∈ [udpfd, listenfd], after.kernel.uses.filterMap (Use.switch fd) = [false]) ∧
    after.kernel.uses.filterMap (Use.switch stdinFd) = [] ∧
    (∀ fd, after.kernel.socket fd = none) ∧
    after.kernel.archive.length + 2 = after.kernel.uses.countP Use.isRelease := by
  intro after
  have hrecorded := Recorded.of_reaches h
  obtain ⟨hclosed, hfiled⟩ := hrecorded.filed_cleanup
  obtain ⟨hstdin, hdiff⟩ : stdinFd ∉ [udpfd, listenfd] ∧ [udpfd, listenfd].Nodup :=
    List.nodup_cons.mp hown
  have hne : listenfd ≠ udpfd := fun he ↦ by simp [he] at hdiff
  refine ⟨hrecorded.resource_notMem.1, hrecorded.isSome_socket_iff,
    fun fd hm ↦ hrecorded.alternates_cleanup hm, fun fd hm ↦ ?_, ?_, hclosed, ?_⟩
  · rw [hrecorded.switches_own (List.mem_cons_of_mem _ hm)]
    obtain rfl | rfl : fd = udpfd ∨ fd = listenfd := by simpa using hm
    · simp [Use.switch, hne]
    · simp [Use.switch, hne.symm]
  · rw [hrecorded.switches_own List.mem_cons_self]
    have hu : udpfd ≠ stdinFd := fun he ↦ hstdin (he ▸ List.mem_cons_self)
    have hl : listenfd ≠ stdinFd :=
      fun he ↦ hstdin (he ▸ List.mem_cons_of_mem _ List.mem_cons_self)
    simp [Use.switch, hu, hl]
  · have hcount : (s.clientFds.map Use.release).countP Use.isRelease = s.clientFds.length := by
      rw [List.countP_map]
      exact List.countP_eq_length.mpr fun _ _ ↦ rfl
    rw [s.uses_cleanup, List.countP_append, List.countP_cons_of_pos rfl,
      List.countP_cons_of_pos rfl, hcount, ← hrecorded.filed]
    exact congrArg (· + 2) hfiled

/-- A descriptor is closed by the server, accepted again, and closed in the cleanup. -/
theorem descriptors_closed_once_reuseRun : ∃ s, Reachable 3 4 s ∧
    (s.cleanup 3 4).kernel.uses = [.acquire 5, .acquire 6, .release 5, .acquire 5, .release 4,
      .release 3, .release 6, .release 5] ∧
    (∀ fd, (s.cleanup 3 4).kernel.socket fd = none) ∧
    (s.cleanup 3 4).kernel.archive.length = 3 := by
  have hrun : (exec State.step (State.initial 3 4) reuseRun).any (fun s ↦
      (s.cleanup 3 4).kernel.uses = [.acquire 5, .acquire 6, .release 5, .acquire 5, .release 4,
        .release 3, .release 6, .release 5]) = true := by decide +kernel
  obtain ⟨s, hs, huses⟩ := exists_exec hrun
  have hr : Reachable 3 4 s := reaches_of_exec hs
  obtain ⟨-, -, -, -, -, hclosed, hfiled⟩ := descriptors_closed_once (by decide) hr
  rw [huses] at hfiled
  exact ⟨s, hr, huses, hclosed, Nat.add_right_cancel hfiled⟩

end Broker.Server
