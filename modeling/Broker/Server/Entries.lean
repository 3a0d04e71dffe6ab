import Broker.Base.Selection
import Broker.Server.Turns

/-!
# The entries of one client

The entries of `poll_fds` that belong to the connections of one client, in their order, and the
place among them at which the loop stands. Entries are appended and removed by other clients,
too; what this leaves of the selection is said here for each kind of turn.
-/

namespace Broker.Server
open Broker.Base Broker.Net Broker.Topic

namespace State

/-- The entries of `poll_fds` for clients. -/
def clientEntries (s : State) : List PollFd := s.pollFds.drop subsStartIdx

/-- An entry of `poll_fds` is that of the client. -/
def isOwn (s : State) (id : Bytes) (entry : PollFd) : Bool := s.clientName entry.fd = some id

/-- The position among the client's own entries of a position among all. -/
def positionFor (s : State) (id : Bytes) (i : Nat) : Nat :=
  subsStartIdx + rank (s.isOwn id) s.clientEntries (i - subsStartIdx)

/-- Where the loop stands among the client's own entries. -/
def placeFor (s : State) (id : Bytes) : Place :=
  match s.place with
  | .clients i => .clients (s.positionFor id i)
  | place => place

/-- The first position is the first one. -/
@[simp] theorem positionFor_start (s : State) (id : Bytes) :
    s.positionFor id subsStartIdx = subsStartIdx := by
  simp [positionFor]

/-- A client's entry stands among the entries for clients. -/
theorem getElem?_clientEntries (s : State) {i : Nat} (hi : subsStartIdx ≤ i) :
    s.clientEntries[i - subsStartIdx]? = s.pollFds[i]? := by
  rw [clientEntries, List.getElem?_drop, Nat.add_sub_cancel' hi]

/-- An entry for a client stands in `poll_fds` behind the server's own. -/
theorem getElem?_pollFds (s : State) (k : Nat) :
    s.pollFds[subsStartIdx + k]? = s.clientEntries[k]? := by
  rw [clientEntries, List.getElem?_drop]

/-- The loop at a client's entry is at a position among the client's own entries. -/
theorem placeFor_clients {s : State} {i : Nat} (hp : s.place = .clients i) (id : Bytes) :
    s.placeFor id = .clients (s.positionFor id i) := by
  rw [placeFor, hp]

/-- With the names as they are, the same entries are the client's. -/
theorem isOwn_congr {s t : State} (hnames : t.connectedSubscribers = s.connectedSubscribers)
    (id : Bytes) : t.isOwn id = s.isOwn id := by
  funext entry
  rw [isOwn, isOwn, clientName, hnames, clientName]

/-- With the names and the entries as they are, a position is the same one. -/
theorem positionFor_congr {s t : State} (hnames : t.connectedSubscribers = s.connectedSubscribers)
    (hfds : t.pollFds = s.pollFds) (id : Bytes) (i : Nat) :
    t.positionFor id i = s.positionFor id i := by
  rw [positionFor, positionFor, isOwn_congr hnames, clientEntries, clientEntries, hfds]

/-- Going on from an entry is going on there if it is one of the client's. -/
theorem positionFor_next (s : State) (id : Bytes) {i : Nat} (hi : subsStartIdx ≤ i)
    {entry : PollFd} (he : s.pollFds[i]? = some entry) :
    s.positionFor id (i + 1) = s.positionFor id i + if s.isOwn id entry then 1 else 0 := by
  have hsub : i + 1 - subsStartIdx = i - subsStartIdx + 1 := by omega
  rw [positionFor, hsub, rank_succ ((s.getElem?_clientEntries hi).trans he),
    ← Nat.add_assoc, positionFor]

/-- The flags of the server's own entries. -/
theorem ready_eq (s : State) {i : Nat} (hi : i < subsStartIdx) :
    s.ready i = ((s.pollFds.take subsStartIdx)[i]?).any PollFd.pollin := by
  rw [ready, List.getElem?_take_of_lt hi]

end State

namespace Sessions

variable {s t : State}

/-- A new entry stands behind those there are. -/
theorem clientEntries_append (h : Sessions s) {entry : PollFd}
    (ht : t.pollFds = s.pollFds ++ [entry]) : t.clientEntries = s.clientEntries ++ [entry] := by
  rw [State.clientEntries, ht, List.drop_append_of_le_length h.listed, State.clientEntries]

/-- The server's own entries stand before it. -/
theorem take_append (h : Sessions s) {entry : PollFd} (ht : t.pollFds = s.pollFds ++ [entry]) :
    t.pollFds.take subsStartIdx = s.pollFds.take subsStartIdx := by
  rw [ht, List.take_append_of_le_length h.listed]

/-- The name of a new descriptor makes none of the entries there are the client's. -/
theorem filter_isOwn (h : Sessions s) {fd : Fd} {new : Bytes} (hnone : s.clientName fd = none)
    (hname : ∀ other, t.clientName other = if fd = other then some new else s.clientName other)
    (id : Bytes) : s.clientEntries.filter (t.isOwn id) = s.clientEntries.filter (s.isOwn id) := by
  apply List.filter_congr
  intro entry hm
  have hnamed : (s.clientName entry.fd).isSome := (h.keys _).mp (List.mem_map_of_mem hm)
  have hne : fd ≠ entry.fd := by
    rintro rfl
    rw [hnone] at hnamed
    cases hnamed
  rw [State.isOwn, hname, if_neg hne, State.isOwn]

section Gone

variable {i : Nat} {entry : PollFd}

/-- Where an entry has been removed, the entries for clients are the others. -/
theorem clientEntries_of_gone (h : Sessions s) (hp : s.place = .clients i)
    (hgone : s.Turned i entry.fd t .gone) :
    t.clientEntries = s.clientEntries.eraseIdx (i - subsStartIdx) := by
  rw [State.clientEntries, hgone.2.1, drop_eraseIdx _ (h.position i hp), State.clientEntries]

private theorem isOwn_of_gone (h : Sessions s) (hp : s.place = .clients i)
    (he : s.pollFds[i]? = some entry) (hgone : s.Turned i entry.fd t .gone) (id : Bytes)
    {other : PollFd} (hm : other ∈ s.clientEntries.eraseIdx (i - subsStartIdx)) :
    t.isOwn id other = s.isOwn id other := by
  have hi := h.position i hp
  rw [State.clientEntries, ← drop_eraseIdx _ hi] at hm
  -- No two entries have one descriptor.
  have hfd : other.fd ∈ s.clientFds.erase entry.fd :=
    h.clientFds_eraseIdx hi he ▸ List.mem_map_of_mem hm
  have hne : entry.fd ≠ other.fd := Ne.symm (h.nodup.mem_erase_iff.mp hfd).1
  rw [State.isOwn, State.clientName, hgone.1, UnorderedMap.find_erase, if_neg hne]
  rfl

/-- The client's entries are its own among the others. -/
theorem filter_of_gone (h : Sessions s) (hp : s.place = .clients i)
    (he : s.pollFds[i]? = some entry) (hgone : s.Turned i entry.fd t .gone) (id : Bytes) :
    t.clientEntries.filter (t.isOwn id) =
      (s.clientEntries.eraseIdx (i - subsStartIdx)).filter (s.isOwn id) := by
  rw [h.clientEntries_of_gone hp hgone]
  exact List.filter_congr fun other hm ↦ h.isOwn_of_gone hp he hgone id hm

/-- The loop stands where it stood among the client's entries. -/
theorem positionFor_of_gone (h : Sessions s) (hp : s.place = .clients i)
    (he : s.pollFds[i]? = some entry) (hgone : s.Turned i entry.fd t .gone) (id : Bytes) :
    t.positionFor id i = s.positionFor id i := by
  rw [State.positionFor, h.clientEntries_of_gone hp hgone,
    rank_congr (fun other hm ↦ h.isOwn_of_gone hp he hgone id hm), rank_eraseIdx,
    State.positionFor]

end Gone

end Sessions
end Broker.Server
