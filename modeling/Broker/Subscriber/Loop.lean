import Broker.Base.Run
import Broker.Base.Stdio
import Broker.Subscriber.Commands
import Broker.Subscriber.Dispatch

/-!
# The main loop of the subscriber

One step of the loop of `subscriber.cpp:171–207` for one event of its environment. `poll` sees
the bytes of standard input that are still in the kernel; `fgets` takes bytes from the buffer
of its stream and fills that buffer with everything that has arrived when it is used up. A
step has no result where the code waits for something else.
-/

namespace Broker.Subscriber
open Broker.Base Broker.Net

/-- `MAX_STDIN_LEN` of the subscriber. -/
def maxStdinLen : Nat := 128

/-- The number of characters `fgets` takes at most, in front of its NUL. -/
def commandRoom : Nat := maxStdinLen - 1

/-- What the main loop executes next, or how it has ended. -/
inductive Place
  | poll
  /-- `fgets` has taken these characters; whether the socket was reported readable. -/
  | stdin (line : Bytes) (socketReady : Bool)
  | socket
  /-- The loop has been left. -/
  | exited
  /-- `poll` has failed. -/
  | died
  /-- `SIGPIPE` has ended the process. -/
  | killed
  /-- A command without a word has been compared, or a message has divided by zero. -/
  | crashed
  deriving DecidableEq

/-- The state of the subscriber in its main loop, with the history of the lines passed to
`process_input_comand`, of the bytes sent, of the packets met and of what has been printed. -/
structure MainLoop where
  stdin : Stdio
  wire : List Arrival
  answers : List SendAnswer
  place : Place
  executed : List Bytes
  written : Bytes
  packets : List Packet
  screen : Bytes

/-- What happens next in the environment of the subscriber. -/
inductive LoopEvent
  /-- Bytes arrive on standard input. -/
  | typed (bytes : Bytes)
  /-- Standard input ends behind the bytes that have arrived. -/
  | stdinClosed
  /-- `poll` returns and reports standard input and the socket readable, or not. -/
  | poll (stdinReady socketReady : Bool)
  | pollFails
  /-- The code goes on by itself. -/
  | proceed
  /-- The socket is read; behind the record on the stack lie these bytes. -/
  | received (behind : Bytes)
  deriving DecidableEq

namespace MainLoop

/-- The loop as it is entered, `subscriber.cpp:156–169`, on a connection that delivers these
arrivals and answers the sends so. -/
def initial (wire : List Arrival) (answers : List SendAnswer) : MainLoop :=
  ⟨.fresh, wire, answers, .poll, [], [], [], []⟩

/-- `poll` reports what it sees: bytes in the kernel always, the end of the input perhaps, the
socket only when something has arrived there. -/
def reports (s : MainLoop) (stdinReady socketReady : Bool) : Bool :=
  (stdinReady || s.stdin.pending.isEmpty) &&
    (!stdinReady || !s.stdin.pending.isEmpty || s.stdin.closed) &&
    (!socketReady || !s.wire.isEmpty)

/-- Where the loop goes on behind the input, `subscriber.cpp:184`. -/
def behindInput (socketReady : Bool) : Place := if socketReady then .socket else .poll

/-- A line read by `fgets` is executed, `subscriber.cpp:178–180`. -/
def execute (s : MainLoop) (line : Bytes) (socketReady : Bool) : MainLoop :=
  match processInputComand (line ++ [0]) s.answers with
  | .error _ => { s with executed := s.executed ++ [line], place := .crashed }
  | .ok out =>
    { s with
      executed := s.executed ++ [line]
      answers := out.answers
      written := s.written ++ out.written
      place := match out.returned with
        | none => .killed
        | some .exitCommandEntered => .exited
        | some _ => behindInput socketReady }

/-- One turn of the loop inside `fgets`, and what follows its end, `subscriber.cpp:177–181`. -/
def readInput (s : MainLoop) (line : Bytes) (socketReady : Bool) : Option MainLoop :=
  (s.stdin.fgetsTurn commandRoom line).map fun turn ↦
    let s := { s with stdin := turn.2 }
    match turn.1 with
    | .taken line => s.execute line socketReady
    | .more line => { s with place := .stdin line socketReady }
    | .endOfFile => { s with place := behindInput socketReady }

/-- Where the loop goes on behind a turn on the socket, `subscriber.cpp:189–205`. -/
def behindPacket : Packet → Place
  | .handed _ => .poll
  | .crashed _ => .crashed
  | .invalidHeader _ => .poll
  | .disconnected => .exited
  | .truncated => .exited

/-- The socket, `subscriber.cpp:184–206`. -/
def readSocket (s : MainLoop) (behind : Bytes) : Option MainLoop :=
  (dispatchPacket s.wire).bind fun turn ↦ (turn.1.printed behind).map fun text ↦
    { s with
      wire := turn.2
      packets := s.packets ++ [turn.1]
      screen := s.screen ++ text
      place := behindPacket turn.1 }

/-- One step of the subscriber. -/
def step (s : MainLoop) (event : LoopEvent) : Option MainLoop :=
  match event with
  | .typed bytes => if s.stdin.closed then none else some { s with stdin := s.stdin.enter bytes }
  | .stdinClosed => some { s with stdin := s.stdin.close }
  | .poll stdinReady socketReady =>
    if s.place = .poll ∧ s.reports stdinReady socketReady then
      some { s with place := if stdinReady then .stdin [] socketReady else behindInput socketReady }
    else none
  | .pollFails => if s.place = .poll then some { s with place := .died } else none
  | .proceed =>
    match s.place with
    | .stdin line socketReady => s.readInput line socketReady
    | _ => none
  | .received behind => if s.place = .socket then s.readSocket behind else none

end MainLoop
end Broker.Subscriber
