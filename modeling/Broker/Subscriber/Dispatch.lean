import Broker.Net.Transfer
import Broker.Subscriber.Display

/-!
# Receiving packets on the subscriber's side

The socket part of the subscriber's loop (`subscriber.cpp:183–206`) with `receive_message` and
`receive_subscribe_ack`. A message whose content divides by zero ends the process while it is
displayed. Every turn that goes on has consumed at least the header byte, so the loop ends with
the stream.
-/

namespace Broker.Subscriber
open Broker.Base Broker.Net

/-- What one turn of the loop comes to. -/
inductive Packet
  /-- A frame was received and displayed. -/
  | handed (frame : Frame)
  /-- A message was received, and displaying it has ended the process. -/
  | crashed (packet : MessageWithHeader)
  /-- The header byte is neither of the two known ones. -/
  | invalidHeader (header : UInt8)
  /-- The header could not be read: the loop ends. -/
  | disconnected
  /-- The record behind the header could not be read: the loop ends. -/
  | truncated

namespace Packet

/-- The turns behind which there is no other one. -/
def stops : Packet → Bool
  | handed _ => false
  | crashed _ => true
  | invalidHeader _ => false
  | disconnected => true
  | truncated => true

/-- What becomes of a frame that has been received. -/
def ofFrame (frame : Frame) : Packet :=
  match frame with
  | .message packet => if dividesByZero packet.msg then crashed packet else handed frame
  | .subscribeAck _ => handed frame

/-- What a turn prints, with the memory behind its record. There is no text where a string in it
does not end; in front of a division by zero the beginning of the line is printed. -/
def printed (packet : Packet) (behind : Bytes) : Option Bytes :=
  match packet with
  | handed frame => displayFrame frame behind
  | crashed packet => some (messageFront packet)
  | _ => some []

end Packet

/-- The record behind a header, `subscriber.cpp:65–70` and `94–99`, and what is made of it. -/
def receiveRecord (size : Nat) (frame : (data : Bytes) → data.length = size → Frame)
    (wire : List Arrival) : Option (Packet × List Arrival) :=
  match recvall size wire with
  | some (.complete data, later) =>
    if h : data.length = size then some (.ofFrame (frame data h), later) else none
  | some (_, later) => some (.truncated, later)
  | none => none

/-- `receive_message`, `subscriber.cpp:61–88`; it prints what `Packet.printed` says. -/
def receiveMessage : List Arrival → Option (Packet × List Arrival) :=
  receiveRecord sizeofMessageWithHeader fun data h ↦ .message (.decode data h)

/-- `receive_subscribe_ack`, `subscriber.cpp:90–111`; it prints what `Packet.printed` says. -/
def receiveSubscribeAck : List Arrival → Option (Packet × List Arrival) :=
  receiveRecord sizeofSubcribeRequest fun data h ↦ .subscribeAck (.decode data h)

/-- One turn on a readable socket, `subscriber.cpp:185–206`. It has no result when the
bytes it waits for never come. -/
def dispatchPacket (wire : List Arrival) : Option (Packet × List Arrival) :=
  match recvall 1 wire with
  | some (.complete (header :: _), later) =>
    if header = headerMessage then receiveMessage later
    else if header = headerSubscribeAck then receiveSubscribeAck later
    else some (.invalidHeader header, later)
  | some (_, later) => some (.disconnected, later)
  | none => none

/-! ### One turn -/

@[simp] theorem Packet.ofFrame_of_displayable {frame : Frame} (h : displayable frame = true) :
    Packet.ofFrame frame = .handed frame := by
  cases frame with
  | message packet => exact if_neg (by simpa [displayable] using h)
  | subscribeAck request => rfl

/-- A frame that cannot be displayed is a message that divides by zero. -/
theorem Packet.ofFrame_of_not_displayable {frame : Frame} (h : displayable frame = false) :
    ∃ packet, frame = .message packet ∧ Packet.ofFrame frame = .crashed packet := by
  cases frame with
  | message packet => exact ⟨packet, rfl, if_pos (by simpa [displayable] using h)⟩
  | subscribeAck request => cases h

private theorem Packet.stops_ofFrame (frame : Frame) :
    (Packet.ofFrame frame).stops = !displayable frame := by
  cases h : displayable frame with
  | true => rw [ofFrame_of_displayable h]; rfl
  | false =>
    obtain ⟨packet, -, hp⟩ := ofFrame_of_not_displayable h
    rw [hp]
    rfl

/-- A record is received whole, and nothing but it, or the stream is cut in front of its end. -/
theorem receiveRecord_cases {size : Nat} {frame : (data : Bytes) → data.length = size → Frame}
    {wire later : List Arrival} {packet : Packet}
    (h : receiveRecord size frame wire = some (packet, later)) :
    (∃ data hdata, packet = .ofFrame (frame data hdata) ∧
      payload wire = data ++ payload later) ∨ packet = .truncated := by
  unfold receiveRecord at h
  split at h
  · next data rest hr =>
    obtain ⟨hdata, hp⟩ := recvall_complete hr
    rw [dif_pos hdata] at h
    cases h
    exact .inl ⟨data, hdata, rfl, hp⟩
  · cases h
    exact .inr rfl
  · cases h

/-- A turn receives the next frame of the stream, or one header byte that is none, or it ends the
loop with the stream. -/
theorem payload_of_dispatchPacket {wire later : List Arrival} {packet : Packet}
    (h : dispatchPacket wire = some (packet, later)) :
    (∃ frame, packet = .ofFrame frame ∧ payload wire = frame.encode ++ payload later) ∨
      (∃ header, packet = .invalidHeader header ∧ header ≠ headerMessage ∧
        header ≠ headerSubscribeAck ∧ payload wire = header :: payload later) ∨
      packet = .disconnected ∨ packet = .truncated := by
  unfold dispatchPacket at h
  split at h
  · next header more behind hr =>
    obtain ⟨hlen, hp⟩ := recvall_complete hr
    obtain rfl : more = [] := List.length_eq_zero_iff.mp (Nat.succ.inj hlen)
    rw [List.singleton_append] at hp
    split at h
    · next hm =>
      obtain ⟨data, hdata, rfl, hp'⟩ | rfl := receiveRecord_cases h
      · refine .inl ⟨_, rfl, ?_⟩
        rw [hp, hp', hm, Frame.encode, Frame.body, Frame.header, MessageWithHeader.encode_decode]
        rfl
      · exact .inr (.inr (.inr rfl))
    · next hm =>
      split at h
      · next ha =>
        obtain ⟨data, hdata, rfl, hp'⟩ | rfl := receiveRecord_cases h
        · refine .inl ⟨_, rfl, ?_⟩
          rw [hp, hp', ha, Frame.encode, Frame.body, Frame.header, SubcribeRequest.encode_decode]
          rfl
        · exact .inr (.inr (.inr rfl))
      · next ha =>
        cases h
        exact .inr (.inl ⟨header, rfl, hm, ha, hp⟩)
  · cases h
    exact .inr (.inr (.inl rfl))
  · cases h

/-- A turn that goes on has consumed at least one byte. -/
theorem payload_lt_of_dispatchPacket {wire later : List Arrival} {packet : Packet}
    (h : dispatchPacket wire = some (packet, later)) (hs : packet.stops = false) :
    (payload later).length < (payload wire).length := by
  obtain ⟨frame, -, hp⟩ | ⟨header, -, -, -, hp⟩ | rfl | rfl := payload_of_dispatchPacket h
  · rw [hp, Frame.encode, List.cons_append, List.length_cons, List.length_append]
    omega
  · rw [hp, List.length_cons]
    omega
  · cases hs
  · cases hs

/-- The packets of a connection up to the one that ends the loop, or up to a read that
waits for good. -/
def receiveLoop (wire : List Arrival) : List Packet :=
  match _h : dispatchPacket wire with
  | none => []
  | some (packet, later) => if _hs : packet.stops = true then [packet] else
      packet :: receiveLoop later
termination_by (payload wire).length
decreasing_by exact payload_lt_of_dispatchPacket _h (by simpa using _hs)

/-- A turn that goes on is followed by the turns on what is left. -/
theorem receiveLoop_of_goes {wire later : List Arrival} {packet : Packet}
    (h : dispatchPacket wire = some (packet, later)) (hs : packet.stops = false) :
    receiveLoop wire = packet :: receiveLoop later := by
  rw [receiveLoop]
  split
  · next hn => rw [h] at hn; cases hn
  · next packet' rest he =>
    rw [h] at he
    cases he
    rw [dif_neg (by rw [hs]; exact Bool.false_ne_true)]

/-- A turn that waits for good has no packet. -/
theorem receiveLoop_of_waits {wire : List Arrival} (h : dispatchPacket wire = none) :
    receiveLoop wire = [] := by
  rw [receiveLoop]
  split
  · rfl
  · next packet later hs =>
    rw [h] at hs
    cases hs

/-- A turn that ends the loop is the last one. -/
theorem receiveLoop_of_stops {wire later : List Arrival} {packet : Packet}
    (h : dispatchPacket wire = some (packet, later)) (hs : packet.stops = true) :
    receiveLoop wire = [packet] := by
  rw [receiveLoop]
  split
  · next hn => rw [h] at hn; cases hn
  · next packet' rest he =>
    rw [h] at he
    cases he
    rw [dif_pos hs]

/-- A frame that is received is followed by the turns on what is left if it can be displayed. -/
theorem receiveLoop_of_frame {wire later : List Arrival} {frame : Frame}
    (h : dispatchPacket wire = some (.ofFrame frame, later)) :
    receiveLoop wire =
      .ofFrame frame :: if displayable frame then receiveLoop later else [] := by
  have hs := Packet.stops_ofFrame frame
  cases hd : displayable frame with
  | true => exact receiveLoop_of_goes h (by rw [hs, hd]; rfl)
  | false => exact receiveLoop_of_stops h (by rw [hs, hd]; rfl)

/-! ### What a turn makes of a whole and of a cut frame -/

private theorem dispatchPacket_message {wire behind : List Arrival}
    (h : recvall 1 wire = some (.complete [headerMessage], behind)) :
    dispatchPacket wire = receiveMessage behind := by
  simp [dispatchPacket, h]

private theorem dispatchPacket_subscribeAck {wire behind : List Arrival}
    (h : recvall 1 wire = some (.complete [headerSubscribeAck], behind)) :
    dispatchPacket wire = receiveSubscribeAck behind := by
  have hn : headerSubscribeAck ≠ headerMessage := by decide
  simp [dispatchPacket, h, hn]

private theorem receiveRecord_of_le {size : Nat}
    (frame : (data : Bytes) → data.length = size → Frame) {wire : List Arrival}
    {data rest : Bytes} (hdata : data.length = size) (hp : payload wire = data ++ rest) :
    ∃ later, (Closes wire → Closes later) ∧ payload later = rest ∧
      receiveRecord size frame wire = some (.ofFrame (frame data hdata), later) := by
  obtain ⟨later, hc, hrest, hr⟩ := recvall_of_le size (by
    rw [hp, List.length_append]
    omega)
  subst hdata
  rw [hp, List.drop_left] at hrest
  rw [hp, List.take_left] at hr
  exact ⟨later, hc, hrest, by rw [receiveRecord, hr]; exact dif_pos rfl⟩

private theorem receiveRecord_of_lt {size : Nat}
    (frame : (data : Bytes) → data.length = size → Frame) {wire : List Arrival} (h : Closes wire)
    (hl : (payload wire).length < size) :
    ∃ later, receiveRecord size frame wire = some (.truncated, later) := by
  obtain ⟨later, hr⟩ := recvall_of_lt size h hl
  exact ⟨later, by rw [receiveRecord, hr]⟩

/-- A whole frame at the front of the stream is received, however the stream goes on, and nothing
behind it is touched. -/
theorem dispatchPacket_of_frame {wire : List Arrival} (frame : Frame) {rest : Bytes}
    (hp : payload wire = frame.encode ++ rest) :
    ∃ later, (Closes wire → Closes later) ∧ payload later = rest ∧
      dispatchPacket wire = some (.ofFrame frame, later) := by
  have hlen : 1 ≤ (payload wire).length := by
    rw [hp, Frame.encode, List.length_append, List.length_cons]
    omega
  obtain ⟨behind, hc, hb, hr⟩ := recvall_of_le _ hlen
  rw [hp, Frame.encode, List.cons_append, List.drop_one, List.tail_cons] at hb
  rw [hp, Frame.encode, List.cons_append, List.take_succ_cons, List.take_zero] at hr
  cases frame with
  | message response =>
    rw [dispatchPacket_message hr]
    obtain ⟨later, hc', hrest, hd⟩ := receiveRecord_of_le
      (fun data h ↦ .message (.decode data h)) response.length_encode hb
    refine ⟨later, fun h ↦ hc' (hc h), hrest, ?_⟩
    rw [receiveMessage, hd, MessageWithHeader.decode_encode]
  | subscribeAck request =>
    rw [dispatchPacket_subscribeAck hr]
    obtain ⟨later, hc', hrest, hd⟩ := receiveRecord_of_le
      (fun data h ↦ .subscribeAck (.decode data h)) request.length_encode hb
    refine ⟨later, fun h ↦ hc' (hc h), hrest, ?_⟩
    rw [receiveSubscribeAck, hd, SubcribeRequest.decode_encode]

/-- At the end of the stream the loop ends at a frame boundary. -/
theorem dispatchPacket_of_end {wire : List Arrival} (h : Closes wire) (hp : payload wire = []) :
    ∃ later, dispatchPacket wire = some (.disconnected, later) := by
  obtain ⟨later, hr⟩ := recvall_of_lt 1 h (by rw [hp]; decide)
  exact ⟨later, by rw [dispatchPacket, hr]⟩

/-- A stream that ends inside a frame ends the loop without handing anything on. -/
theorem dispatchPacket_of_cut {wire : List Arrival} (h : Closes wire) (frame : Frame)
    {cut : Bytes} (hc : cut <+: frame.encode) (hn : cut ≠ []) (hw : cut ≠ frame.encode)
    (hp : payload wire = cut) :
    ∃ later, dispatchPacket wire = some (.truncated, later) := by
  obtain ⟨part, rfl⟩ : ∃ part, cut = frame.header :: part := by
    cases cut with
    | nil => exact absurd rfl hn
    | cons b part => exact ⟨part, by rw [(List.cons_prefix_cons.mp hc).1]⟩
  have hpart : part <+: frame.body := (List.cons_prefix_cons.mp hc).2
  have hlt : part.length < frame.body.length := by
    refine Nat.lt_of_le_of_ne hpart.length_le fun he ↦ hw ?_
    rw [Frame.encode, hpart.eq_of_length he]
  obtain ⟨behind, hc', hb, hr⟩ := recvall_of_le 1 (by rw [hp, List.length_cons]; omega)
  rw [hp, List.drop_one, List.tail_cons] at hb
  rw [hp, List.take_succ_cons, List.take_zero] at hr
  cases frame with
  | message response =>
    rw [Frame.body, response.length_encode, ← hb] at hlt
    rw [dispatchPacket_message hr]
    exact receiveRecord_of_lt _ (hc' h) hlt
  | subscribeAck request =>
    rw [Frame.body, request.length_encode, ← hb] at hlt
    rw [dispatchPacket_subscribeAck hr]
    exact receiveRecord_of_lt _ (hc' h) hlt

end Broker.Subscriber
