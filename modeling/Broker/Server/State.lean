import Broker.Base.Lines
import Broker.Server.Kernel
import Broker.Topic.Trie

/-!
# The state of the server

The tables of `main` (`server.cpp:168–177`), standard input as `fgets` reads it, and the
place of the main loop that is executed next.
-/

namespace Broker.Server
open Broker.Base Broker.Net Broker.Topic

/-- `STDIN_FD`. -/
def stdinFd : Fd := 0

/-- `STDIN_POLLFD_IDX`. -/
def stdinPollfdIdx : Nat := 0

/-- `UDP_POLLFD_IDX`. -/
def udpPollfdIdx : Nat := 1

/-- `LISTNER_POLLFD_IDX`. -/
def listnerPollfdIdx : Nat := 2

/-- `SUBS_START_IDX`. -/
def subsStartIdx : Nat := 3

/-- `MAX_STDIN_LEN` of the server. -/
def maxStdinLen : Nat := 16

/-- `struct subscriber_data`, `server.cpp:29–33`. -/
structure SubscriberData where
  connected : Bool
  sockfd : Fd
  topics : Finset Bytes

namespace SubscriberData

/-- The value `operator[]` gives a new key. -/
def default : SubscriberData := ⟨false, 0, ∅⟩

end SubscriberData

/-- An entry of `poll_fds`: the descriptor and the `POLLIN` bit of `revents`. -/
structure PollFd where
  fd : Fd
  pollin : Bool

/-! ### Standard input -/

/-- Standard input as its reader sees it: the bytes not yet consumed, whether the operator
has closed it, and, as history, everything entered so far. -/
structure Stdin where
  pending : Bytes
  closed : Bool
  entered : Bytes

/-- `fgets(buf, size, stdin)`: the line or `NULL`, and what is left. It has no result while
it waits for the operator. -/
def fgets (size : Nat) (stdin : Stdin) : Option (Option Bytes × Stdin) :=
  match fgetsLine (size - 1) stdin.pending with
  | some (line, rest) => some (some line, { stdin with pending := rest })
  | none =>
    if stdin.closed = false then none
    else if stdin.pending = [] then some (none, stdin)
    else some (some stdin.pending, { stdin with pending := [] })

/-! ### The whole server -/

/-- The place of the main loop that is executed next, or the way the process has ended. -/
inductive Place
  | poll
  | stdin
  | udp
  | listener
  | clients (i : Nat)
  /-- Left by the exit command. -/
  | exited
  /-- Killed by `SIGPIPE`. -/
  | killed
  /-- Ended by `DIE`. -/
  | died
  deriving DecidableEq

/-- The process has left its main loop. -/
def Place.left : Place → Bool
  | exited => true
  | killed => true
  | died => true
  | _ => false

/-- The server in its main loop. -/
structure State where
  place : Place
  pollFds : List PollFd
  subscribers : UnorderedMap Bytes SubscriberData
  connectedSubscribers : UnorderedMap Fd Bytes
  trie : TopicTrie
  kernel : Kernel
  stdin : Stdin
  stdout : Bytes

namespace State

/-- The server when it enters its main loop, `server.cpp:168–177`. -/
def initial (udpfd listenfd : Fd) : State where
  place := .poll
  pollFds := [⟨stdinFd, false⟩, ⟨udpfd, false⟩, ⟨listenfd, false⟩]
  subscribers := []
  connectedSubscribers := []
  trie := .new
  kernel := ⟨[], [], [], []⟩
  stdin := ⟨[], false, []⟩
  stdout := []

/-- The descriptors polled for clients, `poll_fds` from `SUBS_START_IDX` on. -/
def clientFds (s : State) : List Fd := (s.pollFds.drop subsStartIdx).map PollFd.fd

/-- The entry of `subscribers` for an id. -/
def subscriber (s : State) (id : Bytes) : Option SubscriberData :=
  UnorderedMap.find s.subscribers id

/-- The entry of `connected_subscribers` for a descriptor. -/
def clientName (s : State) (fd : Fd) : Option Bytes :=
  UnorderedMap.find s.connectedSubscribers fd

/-- The topics recorded for an id. -/
def topics (s : State) (id : Bytes) : Finset Bytes :=
  ((s.subscriber id).map SubscriberData.topics).getD ∅

/-- The id is marked as connected on a descriptor. -/
def Live (s : State) (id : Bytes) (fd : Fd) : Prop :=
  ∃ data, s.subscriber id = some data ∧ data.connected = true ∧ data.sockfd = fd

/-- The id is marked as connected. -/
def Connected (s : State) (id : Bytes) : Prop := ∃ fd, s.Live id fd

/-- A descriptor is open: one of the server's own or that of an accepted connection. -/
def Open (s : State) (fd : Fd) : Prop :=
  fd ∈ (s.pollFds.take subsStartIdx).map PollFd.fd ∨ (s.kernel.socket fd).isSome

instance (s : State) (fd : Fd) : Decidable (s.Open fd) := by
  unfold Open
  infer_instance

end State
end Broker.Server
