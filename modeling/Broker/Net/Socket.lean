import Broker.Net.Packet
import Broker.Net.Transfer

/-!
# A client connection on the server's side

A socket holds what its peer will deliver, how the kernel will answer the calls of `send`
on it, and the history of the connection. The two ways the server writes a frame differ in
whether the result of sending the header byte is checked.
-/

namespace Broker.Net
open Broker.Base

/-- One attempt to write a frame: for whom, which frame, and the bytes that went out. -/
structure Emission where
  client : Bytes
  frame : Frame
  written : Bytes

/-- An accepted connection. The first two fields are what its peer and the kernel will do;
the other four are history that the code never reads: the frames written so far, the id it
was registered under, the stream as it stood then, and the requests executed from it. -/
structure Socket where
  inbox : List Arrival
  answers : List SendAnswer
  log : List Emission
  clientId : Option Bytes
  session : List Arrival
  executed : List SubcribeRequest

namespace Socket

/-- Note an attempt and the answers it has left. -/
def record (sock : Socket) (emission : Emission) (answers : List SendAnswer) : Socket :=
  { sock with answers := answers, log := sock.log ++ [emission] }

/-- The two sends of an acknowledgement, `server.cpp:97–100` and `server.cpp:109–112`:
neither result is checked. The flag reports that the process was killed. -/
def sendAck (sock : Socket) (client : Bytes) (request : SubcribeRequest) : Socket × Bool :=
  let header := sendall [headerSubscribeAck] sock.answers
  match header.status with
  | .killed => (sock.record ⟨client, .subscribeAck request, header.written⟩ header.answers, true)
  | _ =>
    let body := sendall request.encode header.answers
    (sock.record ⟨client, .subscribeAck request, header.written ++ body.written⟩ body.answers,
      body.status = .killed)

/-- The two sends of a message, `server.cpp:128–130`: the record is sent only behind its
header. The flag reports that the process was killed. -/
def sendMessage (sock : Socket) (client : Bytes) (response : MessageWithHeader) :
    Socket × Bool :=
  let header := sendall [headerMessage] sock.answers
  match header.status with
  | .done =>
    let body := sendall response.encode header.answers
    (sock.record ⟨client, .message response, header.written ++ body.written⟩ body.answers,
      body.status = .killed)
  | .error => (sock.record ⟨client, .message response, header.written⟩ header.answers, false)
  | .killed => (sock.record ⟨client, .message response, header.written⟩ header.answers, true)

/-- Write one frame the way the server writes frames of its kind. -/
def sendFrame (sock : Socket) (client : Bytes) : Frame → Socket × Bool
  | .message response => sock.sendMessage client response
  | .subscribeAck request => sock.sendAck client request

/-- A read leaves `inbox` of the stream. -/
def consume (sock : Socket) (inbox : List Arrival) : Socket := { sock with inbox := inbox }

/-- Note under which id a connection is registered, and where its stream stands then. -/
def register (sock : Socket) (id : Bytes) : Socket :=
  { sock with clientId := some id, session := sock.inbox }

/-- Note a request that is handed on for processing. -/
def execute (sock : Socket) (request : SubcribeRequest) : Socket :=
  { sock with executed := sock.executed ++ [request] }

/-- The bytes written to a connection so far. -/
def output (sock : Socket) : Bytes := sock.log.flatMap Emission.written

@[simp] theorem record_log (sock : Socket) (e : Emission) (answers : List SendAnswer) :
    (sock.record e answers).log = sock.log ++ [e] := rfl

@[simp] theorem consume_log (sock : Socket) (inbox : List Arrival) :
    (sock.consume inbox).log = sock.log := rfl

@[simp] theorem consume_executed (sock : Socket) (inbox : List Arrival) :
    (sock.consume inbox).executed = sock.executed := rfl

@[simp] theorem execute_log (sock : Socket) (request : SubcribeRequest) :
    (sock.execute request).log = sock.log := rfl

@[simp] theorem execute_executed (sock : Socket) (request : SubcribeRequest) :
    (sock.execute request).executed = sock.executed ++ [request] := rfl

@[simp] theorem register_log (sock : Socket) (id : Bytes) :
    (sock.register id).log = sock.log := rfl

@[simp] theorem register_executed (sock : Socket) (id : Bytes) :
    (sock.register id).executed = sock.executed := rfl

/-- Writing a frame records one attempt at that frame and touches nothing but the answers. -/
theorem sendFrame_eq_record (sock : Socket) (client : Bytes) (frame : Frame) :
    ∃ written answers,
      (sock.sendFrame client frame).1 = sock.record ⟨client, frame, written⟩ answers := by
  cases frame with
  | message response =>
    rw [sendFrame, sendMessage]
    split <;> exact ⟨_, _, rfl⟩
  | subscribeAck request =>
    rw [sendFrame, sendAck]
    split <;> exact ⟨_, _, rfl⟩

/-- Behind a header that went out, the record follows as far as its own sends go. -/
theorem sendFrame_of_header_done {sock : Socket} {frame : Frame} (client : Bytes)
    (h : (sendall [frame.header] sock.answers).status = .done) :
    sock.sendFrame client frame =
      let body := sendall frame.body (sendall [frame.header] sock.answers).answers
      (sock.record ⟨client, frame, frame.header :: body.written⟩ body.answers,
        decide (body.status = .killed)) := by
  have hw := sendall_written_of_done h
  cases frame with
  | message response =>
    simp only [Frame.header] at h hw
    simp only [sendFrame, sendMessage, Frame.header, Frame.body, h, hw]
    rfl
  | subscribeAck request =>
    simp only [Frame.header] at h hw
    simp only [sendFrame, sendAck, Frame.header, Frame.body, h, hw]
    rfl

/-- With positive answers a frame goes out whole. -/
theorem sendFrame_of_reliable {sock : Socket} (client : Bytes) (frame : Frame)
    (h : Reliable sock.answers) :
    ∃ answers, Reliable answers ∧
      sock.sendFrame client frame = (sock.record ⟨client, frame, frame.encode⟩ answers, false) := by
  obtain ⟨hd, ha⟩ := sendall_of_reliable [frame.header] h
  obtain ⟨hd', ha'⟩ := sendall_of_reliable frame.body ha
  refine ⟨_, ha', ?_⟩
  rw [sendFrame_of_header_done client hd]
  simp only [hd', sendall_written_of_done hd']
  rfl

/-- The sends of a frame meet a connection the peer has reset. Behind a header byte that
could not be sent, only the record of an acknowledgement is sent all the same. -/
def resetAhead (frame : Frame) : List SendAnswer → Bool
  | [] => false
  | .sent _ :: answers => resetWithin frame.body.length answers
  | .failed :: answers =>
    match frame with
    | .message _ => false
    | .subscribeAck _ => resetWithin frame.body.length answers
  | .reset :: _ => true

/-- Writing a frame kills the process exactly when one of its sends meets a reset connection. -/
theorem sendFrame_killed_iff (sock : Socket) (client : Bytes) (frame : Frame) :
    (sock.sendFrame client frame).2 = true ↔ resetAhead frame sock.answers = true := by
  have hz (answers : List SendAnswer) (b : UInt8) (more : Nat) :
      sendall [b] (.sent more :: answers) = ⟨[b], .done, answers⟩ := by
    simp [sendall]
  cases ha : sock.answers with
  | nil =>
    cases frame with
    | message response => simp [sendFrame, sendMessage, ha, sendall, resetAhead]
    | subscribeAck request => simp [sendFrame, sendAck, ha, sendall, resetAhead]
  | cons answer answers =>
    cases answer with
    | sent more =>
      rw [sendFrame_of_header_done client (by rw [ha, hz]), ha, hz]
      simp [sendall_killed_iff, resetAhead]
    | failed =>
      cases frame with
      | message response => simp [sendFrame, sendMessage, ha, sendall, resetAhead]
      | subscribeAck request =>
        simp [sendFrame, sendAck, ha, sendall, resetAhead, sendall_killed_iff, Frame.body]
    | reset =>
      cases frame with
      | message response => simp [sendFrame, sendMessage, ha, sendall, resetAhead]
      | subscribeAck request => simp [sendFrame, sendAck, ha, sendall, resetAhead]

end Socket
end Broker.Net
