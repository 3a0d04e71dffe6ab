import Broker.Base.Run
import Broker.Server.Handlers

/-!
# The main loop

One step of the loop of `server.cpp:179–243` for one event of its environment: bytes typed
by the operator, the result of a system call, or none where the code goes on by itself. A
step has no result where the code waits for something else.
-/

namespace Broker.Server
open Broker.Base Broker.Net Broker.Topic

/-- What happens next in the environment of the server. -/
inductive Event
  /-- The operator enters bytes. -/
  | typed (bytes : Bytes)
  /-- The operator closes standard input. -/
  | stdinClosed
  /-- `poll` returns and reports these descriptors readable. -/
  | poll (readable : Fd → Bool)
  | pollFails
  /-- The code goes on without a result of `recvfrom`, `accept` or `recv`. -/
  | proceed
  /-- `recvfrom` returns a datagram, over a buffer with stale contents; the ids found for it
  are traversed in the given order. -/
  | datagram (datagram : Datagram) (stale : MessageBuffer) (order : List Bytes)
  /-- `recvfrom` has nothing more. -/
  | drained
  /-- `accept` returns a connection; `revents` of its entry is left as it was in memory. -/
  | accept (fd : Fd) (connection : Connection) (revents : Bool)
  | acceptFails
  /-- `setsockopt` fails on an accepted connection. -/
  | nagleFails
  /-- `recv` on a client's socket; behind the request on the stack lie these bytes. -/
  | client (stack : Bytes)

/-- The events at which control only moves on. -/
def Event.quiet : Event → Bool
  | poll _ => true
  | proceed => true
  | drained => true
  | acceptFails => true
  | _ => false

/-- `exit\n`. -/
def exitCommand : Bytes := ascii "exit\n".toList

/-- The line read is the exit command; `strcmp` compares up to the first NUL. -/
def isExit (line : Option Bytes) : Bool := line.any fun text ↦ cString text = exitCommand

namespace Stdin

/-- The operator enters bytes. -/
def enter (stdin : Stdin) (bytes : Bytes) : Stdin :=
  { stdin with pending := stdin.pending ++ bytes, entered := stdin.entered ++ bytes }

/-- The operator closes standard input. -/
def close (stdin : Stdin) : Stdin := { stdin with closed := true }

end Stdin

namespace State

/-- `poll_fds[idx].revents & POLLIN`. -/
def ready (s : State) (idx : Nat) : Bool := (s.pollFds[idx]?).any PollFd.pollin

/-- `poll` fills in `revents`. -/
def pollReturns (s : State) (readable : Fd → Bool) : State :=
  { s with
    pollFds := s.pollFds.map fun entry ↦ ⟨entry.fd, readable entry.fd⟩
    place := .stdin }

/-- Standard input, `server.cpp:184–189`. -/
def readCommand (s : State) : Option State :=
  if s.ready stdinPollfdIdx then
    (fgets maxStdinLen s.stdin).map fun result ↦
      { s with
        stdin := result.2
        place := if isExit result.1 then .exited else .udp }
  else some { s with place := .udp }

/-- One datagram, `server.cpp:198–206`. -/
def receiveDatagram (s : State) (datagram : Datagram) (stale : MessageBuffer)
    (order : List Bytes) : Option State :=
  let response := messageResponse datagram stale
  (sendMsgToAllSubs order (topicStr response.msg) response s.subscribers s.trie s.kernel).map
    fun result ↦
      { s with
        subscribers := result.1
        kernel := result.2.1
        place := if result.2.2 then .killed else .udp }

/-- The end of a client's connection, `server.cpp:231–236`. The next turn of the loop meets
the entry that has moved up to index `i`. -/
def disconnect (s : State) (i : Nat) (clientfd : Fd) (clientName : Bytes)
    (subscriber : SubscriberData) : State :=
  { s with
    stdout := s.stdout ++ disconnected clientName
    subscribers :=
      UnorderedMap.set s.subscribers clientName { subscriber with connected := false }
    kernel := s.kernel.close clientfd
    connectedSubscribers := UnorderedMap.erase s.connectedSubscribers clientfd
    pollFds := s.pollFds.eraseIdx i
    place := .clients i }

/-- One `recv` on a client's socket, `server.cpp:218–240`. -/
def readClient (s : State) (i : Nat) (clientfd : Fd) (stack : Bytes) : Option State :=
  let named := UnorderedMap.index s.connectedSubscribers clientfd []
  let looked := UnorderedMap.index s.subscribers named.1 .default
  let got := s.kernel.recv clientfd sizeofSubcribeRequest
  let s := { s with connectedSubscribers := named.2, subscribers := looked.2, kernel := got.2 }
  match got.1 with
  | .received bytes =>
    if h : bytes.length = sizeofSubcribeRequest then
      let request := SubcribeRequest.decode bytes h
      (processSubRequests request stack named.1 looked.1 s.trie
        (s.kernel.annotate clientfd (·.execute request))).map fun result ↦
          { s with
            subscribers := UnorderedMap.set s.subscribers named.1 result.subscriber
            trie := result.trie
            kernel := result.kernel
            place := if result.killed then .killed else .clients i }
    else if bytes = [] then some (s.disconnect i clientfd named.1 looked.1)
    else some { s with place := .clients (i + 1) }
  | .error errno =>
    if errno ≠ .again ∧ errno ≠ .wouldBlock then some (s.disconnect i clientfd named.1 looked.1)
    else some { s with place := .clients (i + 1) }

/-- One step of the server. -/
def step (s : State) (event : Event) : Option State :=
  match event with
  | .typed bytes =>
    if s.place.left ∨ s.stdin.closed then none else some { s with stdin := s.stdin.enter bytes }
  | .stdinClosed => if s.place.left then none else some { s with stdin := s.stdin.close }
  | .poll readable => if s.place = .poll then some (s.pollReturns readable) else none
  | .pollFails => if s.place = .poll then some { s with place := .died } else none
  | .proceed =>
    match s.place with
    | .stdin => s.readCommand
    | .udp => if s.ready udpPollfdIdx then none else some { s with place := .listener }
    | .listener =>
      if s.ready listnerPollfdIdx then none else some { s with place := .clients subsStartIdx }
    | .clients i =>
      match s.pollFds[i]? with
      | some entry => if entry.pollin then none else some { s with place := .clients (i + 1) }
      | none => some { s with place := .poll }
    | _ => none
  | .datagram datagram stale order =>
    if s.place = .udp ∧ s.ready udpPollfdIdx then s.receiveDatagram datagram stale order else none
  | .drained =>
    if s.place = .udp ∧ s.ready udpPollfdIdx then some { s with place := .listener } else none
  | .accept fd connection revents =>
    if s.place = .listener ∧ s.ready listnerPollfdIdx ∧ ¬ s.Open fd then
      (s.connectNewClient fd connection revents).map fun t ↦
        { t with place := .clients subsStartIdx }
    else none
  | .acceptFails =>
    if s.place = .listener ∧ s.ready listnerPollfdIdx then
      some { s with place := .clients subsStartIdx }
    else none
  | .nagleFails =>
    if s.place = .listener ∧ s.ready listnerPollfdIdx then some { s with place := .died } else none
  | .client stack =>
    match s.place with
    | .clients i =>
      match s.pollFds[i]? with
      | some entry => if entry.pollin then s.readClient i entry.fd stack else none
      | none => none
    | _ => none

end State

/-- The states of all runs of the server. -/
abbrev Reachable (udpfd listenfd : Fd) (s : State) : Prop :=
  Reaches State.step (fun _ _ ↦ True) (State.initial udpfd listenfd) s

/-! ### Rounds in which little happens -/

/-- A port of the local host. -/
def localAddress (port : UInt8) : SockaddrIn := ⟨[127, 0, 0, 1], [0, port], rfl, rfl⟩

/-- A client whose id is one letter. -/
def simpleClient (letter : UInt8) (later : List Arrival) (answers : List SendAnswer) :
    Connection where
  address := localAddress 80
  inbox := .segment letter (List.replicate 9 0) :: later
  answers := answers

/-- A request for a topic as it arrives in one piece. -/
def simpleRequest (operation : UInt8) (topic : Bytes) : Arrival :=
  .segment operation (topic ++ List.replicate (51 - topic.length) 0)

/-- A round in which a client connects while `others` are there. -/
def joinRound (listenfd fd : Fd) (others : Nat) (connection : Connection) : List Event :=
  [.poll (· == listenfd), .proceed, .proceed, .accept fd connection false] ++
    List.replicate (others + 2) .proceed

/-- The beginning of a round in which only the client at one position is readable. -/
def visitRound (fd : Fd) (position : Nat) : List Event :=
  .poll (· == fd) :: List.replicate (position + 3) .proceed

end Broker.Server
