import Broker.Base.Bytes
import Mathlib.Data.List.Infix

/-!
# Byte streams delivered in pieces

One direction of a stream connection as its reader meets it: pieces that arrive at once,
moments at which nothing has arrived, interrupted calls, and the end. A `recv` takes a
non-empty prefix of one piece, so any sequence of partial results is the behaviour of
some list of arrivals. Writers meet answers of the same kind, call by call.
-/

namespace Broker.Base

/-- What a reader of a connection meets next. -/
inductive Arrival
  /-- Bytes that are there at once; never empty. -/
  | segment (first : UInt8) (rest : Bytes)
  /-- Nothing has arrived for the moment. -/
  | gap
  /-- The next call is interrupted by a signal. -/
  | interrupted
  /-- The peer has closed its side. -/
  | fin
  /-- The connection is reset. -/
  | failed
  deriving DecidableEq

/-- The error numbers a read can leave. -/
inductive Errno
  | again
  | wouldBlock
  | interrupted
  | connectionReset
  | badDescriptor
  deriving DecidableEq

/-- The result of `recv`: bytes, none at the end of the stream, or an error. -/
inductive RecvResult
  | received (bytes : Bytes)
  | error (errno : Errno)
  deriving DecidableEq

/-- Leftover bytes in front of later arrivals. -/
def pushFront (bytes : Bytes) (later : List Arrival) : List Arrival :=
  match bytes with
  | [] => later
  | first :: rest => .segment first rest :: later

/-- One `recv` of at most `size` bytes that does not wait. -/
def recv (size : Nat) : List Arrival → RecvResult × List Arrival
  | [] => (.error .again, [])
  | .segment first rest :: later =>
    (.received ((first :: rest).take size), pushFront ((first :: rest).drop size) later)
  | .gap :: later => (.error .again, later)
  | .interrupted :: later => (.error .interrupted, later)
  | .fin :: later => (.received [], .fin :: later)
  | .failed :: later => (.error .connectionReset, later)

/-- The bytes a reader can still get. -/
def payload : List Arrival → Bytes
  | [] => []
  | .segment first rest :: later => first :: rest ++ payload later
  | .gap :: later => payload later
  | .interrupted :: later => payload later
  | .fin :: _ => []
  | .failed :: _ => []

/-- The stream is delivered to its end without an error. -/
def Closes : List Arrival → Prop
  | [] => False
  | .segment _ _ :: later => Closes later
  | .gap :: later => Closes later
  | .interrupted :: later => Closes later
  | .fin :: _ => True
  | .failed :: _ => False

/-- The stream comes to an end, in order or not. -/
def Ends : List Arrival → Prop
  | [] => False
  | .segment _ _ :: later => Ends later
  | .gap :: later => Ends later
  | .interrupted :: later => Ends later
  | .fin :: _ => True
  | .failed :: _ => True

/-- The answer of the kernel to one `send`. -/
inductive SendAnswer
  /-- At most `more + 1` bytes are taken. -/
  | sent (more : Nat)
  /-- The call fails and takes nothing. -/
  | failed
  /-- The peer has already reset the connection. -/
  | reset
  deriving DecidableEq

/-- Every call is answered by a positive count. -/
def Reliable (answers : List SendAnswer) : Prop := ∀ answer ∈ answers, ∃ more, answer = .sent more

@[simp] theorem payload_pushFront (bytes : Bytes) (later : List Arrival) :
    payload (pushFront bytes later) = bytes ++ payload later := by
  cases bytes <;> rfl

@[simp] theorem closes_pushFront (bytes : Bytes) (later : List Arrival) :
    Closes (pushFront bytes later) ↔ Closes later := by
  cases bytes <;> rfl

/-- No answer at all is reliable. -/
theorem reliable_nil : Reliable [] := by simp [Reliable]

/-- The answers behind a reliable one are reliable. -/
theorem Reliable.tail {answer : SendAnswer} {answers : List SendAnswer}
    (h : Reliable (answer :: answers)) : Reliable answers :=
  fun a ha ↦ h a (List.mem_cons_of_mem _ ha)

end Broker.Base
