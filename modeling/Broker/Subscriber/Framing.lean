import Broker.Net.Socket
import Broker.Subscriber.Dispatch
import Broker.Subscriber.Texts

/-!
# Framing between the server and a subscriber

Whatever the partial results on either side, the frames the server writes to a connection
are the frames the subscriber receives, and a stream cut short delivers the whole frames
in front of the cut. They are handed on up to the first one that ends the subscriber.
-/

namespace Broker.Subscriber
open Broker.Base Broker.Net

/-- Write frames to a connection one after the other. -/
def sendFrames (sock : Socket) (client : Bytes) (frames : List Frame) : Socket :=
  frames.foldl (fun sock frame ↦ (sock.sendFrame client frame).1) sock

/-- With positive answers the bytes written are those of the frames, in order. -/
theorem output_sendFrames {sock : Socket} (client : Bytes) (frames : List Frame)
    (h : Reliable sock.answers) :
    (sendFrames sock client frames).output = sock.output ++ frames.flatMap Frame.encode := by
  induction frames generalizing sock with
  | nil => simp [sendFrames]
  | cons frame frames ih =>
    obtain ⟨answers, ha, he⟩ := Socket.sendFrame_of_reliable client frame h
    let next := sock.record ⟨client, frame, frame.encode⟩ answers
    have hi : (sendFrames next client frames).output = _ := ih ha
    rw [sendFrames, List.foldl_cons, he]
    apply hi.trans
    simp [Socket.output, next]

/-- The packets that some frames come to, and behind them those of the rest of their stream. A
frame that cannot be displayed is the last one. -/
def packetsOf (rest : List Packet) : List Frame → List Packet
  | [] => rest
  | frame :: frames => .ofFrame frame :: if displayable frame then packetsOf rest frames else []

/-- All frames are handed on exactly where all can be displayed. -/
theorem packetsOf_eq_iff (rest : List Packet) (frames : List Frame) :
    packetsOf rest frames = frames.map .handed ++ rest ↔
      ∀ frame ∈ frames, displayable frame = true := by
  induction frames with
  | nil => exact iff_of_true rfl fun _ hm ↦ absurd hm List.not_mem_nil
  | cons frame frames ih =>
    rw [packetsOf, List.map_cons, List.cons_append, List.forall_mem_cons, ← ih]
    cases h : displayable frame with
    | true => simp [h]
    | false =>
      obtain ⟨packet, -, hp⟩ := Packet.ofFrame_of_not_displayable h
      simp [hp]

/-- Whole frames at the front of the stream are received one after the other, up to the first one
that cannot be displayed. -/
theorem receiveLoop_of_frames {wire : List Arrival} (whole : List Frame) {rest : Bytes}
    (hp : payload wire = whole.flatMap Frame.encode ++ rest) :
    ∃ later, (Closes wire → Closes later) ∧ payload later = rest ∧
      receiveLoop wire = packetsOf (receiveLoop later) whole := by
  induction whole generalizing wire with
  | nil => exact ⟨wire, id, hp, rfl⟩
  | cons frame whole ih =>
    rw [List.flatMap_cons, List.append_assoc] at hp
    obtain ⟨behind, hc, hb, hd⟩ := dispatchPacket_of_frame frame hp
    obtain ⟨later, hc', hl, hloop⟩ := ih hb
    exact ⟨later, fun h ↦ hc' (hc h), hl, by rw [receiveLoop_of_frame hd, hloop, packetsOf]⟩

/-- Whole frames followed by a proper part of a frame: the whole ones are received. -/
theorem receiveLoop_of_payload {wire : List Arrival} (h : Closes wire) (whole : List Frame)
    (next : Frame) {cut : Bytes} (hc : cut <+: next.encode) (hw : cut ≠ next.encode)
    (hp : payload wire = whole.flatMap Frame.encode ++ cut) :
    receiveLoop wire = packetsOf [if cut = [] then .disconnected else .truncated] whole := by
  obtain ⟨behind, hb, hrest, hloop⟩ := receiveLoop_of_frames whole hp
  rw [hloop]
  by_cases hn : cut = []
  · obtain ⟨later, hd⟩ := dispatchPacket_of_end (hb h) (hrest.trans hn)
    rw [receiveLoop_of_stops hd rfl, if_pos hn]
  · obtain ⟨later, hd⟩ := dispatchPacket_of_cut (hb h) next hc hn hw hrest
    rw [receiveLoop_of_stops hd rfl, if_neg hn]

/-- No FLOAT message among the frames has an exponent whose power of ten is zero in 32 bits. -/
def ExponentsFit (frames : List Frame) : Prop :=
  ∀ packet : MessageWithHeader, .message packet ∈ frames → packet.msg.dataType = dataTypeFloat →
    exponent packet.msg < 32

/-- All frames can be displayed exactly where their exponents fit. -/
theorem displayable_iff_exponentsFit (frames : List Frame) :
    (∀ frame ∈ frames, displayable frame = true) ↔ ExponentsFit frames := by
  have hmessage (packet : MessageWithHeader) : displayable (.message packet) = true ↔
      (packet.msg.dataType = dataTypeFloat → exponent packet.msg < 32) := by
    rw [displayable, Bool.not_eq_true', ← Bool.not_eq_true, dividesByZero_iff]
    simp
  constructor
  · exact fun h packet hm ↦ (hmessage packet).mp (h _ hm)
  · intro h frame hm
    cases frame with
    | message packet => exact (hmessage packet).mpr (h packet hm)
    | subscribeAck request => rfl

/-- Framing is lossless up to a division by zero: over any partial sends and any delivery of the
bytes, a subscriber hands on exactly the frames written and ends with the stream, if and only if
no FLOAT message among them has an exponent from 32 on; and where the stream ends early, exactly
the whole ones, if and only if there is no such message among these. -/
theorem receiveLoop_sendFrames (sock : Socket) (client : Bytes) (frames : List Frame)
    (hr : Reliable sock.answers) (hl : sock.log = []) {wire : List Arrival} (hc : Closes wire) :
    (payload wire = (sendFrames sock client frames).output →
      (receiveLoop wire = frames.map .handed ++ [.disconnected] ↔ ExponentsFit frames)) ∧
    ∀ whole next rest cut, frames = whole ++ next :: rest → cut <+: next.encode →
      cut ≠ next.encode → payload wire = whole.flatMap Frame.encode ++ cut →
      payload wire <+: (sendFrames sock client frames).output ∧
        (receiveLoop wire =
          whole.map .handed ++ [if cut = [] then .disconnected else .truncated] ↔
            ExponentsFit whole) := by
  have ho : (sendFrames sock client frames).output = frames.flatMap Frame.encode := by
    rw [output_sendFrames client frames hr, Socket.output, hl, List.flatMap_nil, List.nil_append]
  rw [ho]
  constructor
  · intro hp
    -- A complete stream is one that is cut behind its last frame.
    have hp : payload wire = frames.flatMap Frame.encode ++ [] := by rw [hp, List.append_nil]
    let next : Frame := .subscribeAck ⟨0, List.replicate 51 0, rfl⟩
    rw [receiveLoop_of_payload hc frames next List.nil_prefix next.encode_ne_nil.symm hp,
      if_pos rfl, packetsOf_eq_iff, displayable_iff_exponentsFit]
  · rintro whole next rest cut rfl hpre hw hp
    constructor
    · rw [hp, List.flatMap_append, List.flatMap_cons]
      exact (List.prefix_append_right_inj _).mpr (hpre.trans (List.prefix_append _ _))
    · rw [receiveLoop_of_payload hc whole next hpre hw hp, packetsOf_eq_iff,
        displayable_iff_exponentsFit]

/-- A message that is made of header bytes. -/
def headerPacket : MessageWithHeader where
  source := ⟨[0, 1, 0, 1], [1, 0], rfl, rfl⟩
  msg := ⟨List.replicate 50 0, 1, List.replicate 1500 1, List.length_replicate,
    List.length_replicate⟩

/-- Frames of both kinds that are made of header bytes. -/
def headerFrames : List Frame :=
  [.subscribeAck ⟨1, List.replicate 51 0, rfl⟩, .message headerPacket,
    .subscribeAck ⟨0, List.replicate 51 1, rfl⟩]

/-- The bytes of the first two of these frames, and four bytes of the third one. -/
def cutBytes : Bytes := (headerFrames.take 2).flatMap Frame.encode ++ [1, 0, 1, 1]

/-- The arrivals of those bytes, around interrupted calls and a pause. -/
def cutWire : List Arrival :=
  .interrupted :: .segment 1 [1] :: .gap :: pushFront (cutBytes.drop 2) [.interrupted, .fin]

/-- The third of the frames, which go out in other pieces than those they arrive in, is cut. -/
theorem receiveLoop_sendFrames_headers :
    receiveLoop cutWire = (headerFrames.take 2).map .handed ++ [.truncated] := by
  have hsent := (receiveLoop_sendFrames ⟨[], [.sent 0, .sent 9, .sent 699], [], none, [], []⟩
    (ascii ['C']) headerFrames (by simp [Reliable]) rfl
    (show Closes cutWire from trivial)).2 (headerFrames.take 2)
    (.subscribeAck ⟨0, List.replicate 51 1, rfl⟩) [] [1, 0, 1, 1] rfl (by decide) (by decide)
    (by decide +kernel)
  refine hsent.2.mpr fun packet hm hf ↦ ?_
  obtain rfl : packet = headerPacket := by simpa [headerFrames] using hm
  exact absurd hf (by decide)

/-- The FLOAT message with the mantissa 1 and the exponent 32. -/
def fatalPacket : MessageWithHeader :=
  { headerPacket with msg := paddedMessage dataTypeFloat [0, 0, 0, 0, 1, 32] }

/-- A message that divides by zero ends the subscriber, in front of what stands behind it. -/
theorem not_receiveLoop_sendFrames_fatal :
    ¬ ∀ (sock : Socket) (client : Bytes) (frames : List Frame) (wire : List Arrival),
      Reliable sock.answers → sock.log = [] → Closes wire →
        payload wire = (sendFrames sock client frames).output →
        receiveLoop wire = frames.map .handed ++ [.disconnected] := by
  intro h
  let sock : Socket := ⟨[], [], [], none, [], []⟩
  let frames : List Frame := [.message fatalPacket, .message headerPacket]
  have hr : Reliable sock.answers := reliable_nil
  have ho : (sendFrames sock [67] frames).output = frames.flatMap Frame.encode :=
    output_sendFrames [67] frames hr
  have hp : payload (pushFront (frames.flatMap Frame.encode) [.fin]) =
      frames.flatMap Frame.encode ++ [] := payload_pushFront _ _
  have hclosed : Closes (pushFront (frames.flatMap Frame.encode) [.fin]) :=
    (closes_pushFront _ _).mpr trivial
  have hall := h sock [67] frames _ hr rfl hclosed
    (hp.trans ((List.append_nil _).trans ho.symm))
  rw [receiveLoop_of_payload hclosed frames (.message headerPacket) List.nil_prefix
    (Frame.encode_ne_nil _).symm hp, if_pos rfl, packetsOf_eq_iff] at hall
  have hfatal : displayable (.message fatalPacket) = false := by decide
  rw [hall _ List.mem_cons_self] at hfatal
  cases hfatal

end Broker.Subscriber
