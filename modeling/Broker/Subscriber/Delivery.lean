import Broker.Base.Readable
import Broker.Subscriber.Framing
import Broker.Subscriber.Session

/-!
# What arrives of what has been sent

A subscriber that has been sent frames receives those that have arrived whole, in their order,
whatever the pieces in which they arrive and however the connection goes on or ends; it meets
no other header. It hands on those in front of the first one that divides by zero, and prints
their texts.
-/

namespace Broker.Subscriber
open Broker.Base Broker.Net

/-- The frame a turn hands on. -/
def Packet.frame : Packet → Option Frame
  | handed frame => some frame
  | _ => none

/-- The frame a turn receives, whether it is handed on or ends the process. -/
def Packet.received : Packet → Option Frame
  | handed frame => some frame
  | crashed packet => some (.message packet)
  | _ => none

/-- The frames the loop has handed on. -/
def MainLoop.handed (s : MainLoop) : List Frame := s.packets.filterMap Packet.frame

/-! ### Frames are told apart -/

private theorem readable_encode : Readable (fun _ ↦ True) Frame.encode := by
  have hdiff : headerMessage ≠ headerSubscribeAck := by decide
  rintro x y - - rest rest' he
  obtain ⟨hheader, hbody⟩ := List.cons.inj he
  cases x with
  | message a =>
    cases y with
    | message b =>
      have hl : a.encode.length = b.encode.length := by rw [a.length_encode, b.length_encode]
      rw [MessageWithHeader.encode_injective (List.append_inj hbody hl).1]
    | subscribeAck b => exact absurd hheader hdiff
  | subscribeAck a =>
    cases y with
    | message b => exact absurd hheader.symm hdiff
    | subscribeAck b =>
      have hl : a.encode.length = b.encode.length := by rw [a.length_encode, b.length_encode]
      rw [SubcribeRequest.encode_injective (List.append_inj hbody hl).1]

/-! ### A whole stream -/

private theorem receiveLoop_of_part {wire : List Arrival} {next : Frame}
    (hc : payload wire <+: next.encode) (hw : payload wire ≠ next.encode) :
    receiveLoop wire = [] ∨ receiveLoop wire = [.disconnected] ∨
      receiveLoop wire = [.truncated] := by
  obtain ⟨missing, hmissing⟩ := hc
  cases hd : dispatchPacket wire with
  | none => exact .inl (receiveLoop_of_waits hd)
  | some result =>
    obtain ⟨packet, later⟩ := result
    obtain ⟨frame, rfl, hf⟩ | ⟨header, rfl, hm, ha, hh⟩ | rfl | rfl := payload_of_dispatchPacket hd
    · -- A whole frame is no part of another one.
      rw [hf, List.append_assoc, ← List.append_nil next.encode] at hmissing
      obtain rfl := readable_encode frame next trivial trivial _ _ hmissing
      have hnil := List.append_cancel_left hmissing
      rw [hf, (List.append_eq_nil_iff.mp hnil).1, List.append_nil] at hw
      exact absurd rfl hw
    · rw [hh, Frame.encode] at hmissing
      obtain ⟨rfl, -⟩ := List.cons.inj hmissing
      cases next with
      | message response => exact absurd rfl hm
      | subscribeAck request => exact absurd rfl ha
    · exact .inr (.inl (receiveLoop_of_stops hd rfl))
    · exact .inr (.inr (receiveLoop_of_stops hd rfl))

private theorem receiveLoop_of_cut {wire : List Arrival} {frames : List Frame} {next : Frame}
    {cut : Bytes} (hc : cut <+: next.encode) (hw : cut ≠ next.encode)
    (hp : payload wire = frames.flatMap Frame.encode ++ cut) :
    ∃ rest, receiveLoop wire = packetsOf rest frames ∧
      ∀ packet ∈ rest, packet = .disconnected ∨ packet = .truncated := by
  obtain ⟨later, -, hl, hloop⟩ := receiveLoop_of_frames frames hp
  refine ⟨receiveLoop later, hloop, fun packet hm ↦ ?_⟩
  obtain h | h | h := receiveLoop_of_part (hl ▸ hc) (hl ▸ hw)
  · exact absurd (h ▸ hm) List.not_mem_nil
  · exact .inl (List.mem_singleton.mp (h ▸ hm))
  · exact .inr (List.mem_singleton.mp (h ▸ hm))

/-- Of frames that have been sent, those that have arrived whole are received: all of them where
everything has arrived. -/
theorem receiveLoop_of_prefix {wire : List Arrival} {frames : List Frame}
    (h : payload wire <+: frames.flatMap Frame.encode) :
    ∃ front rest, front <+: frames ∧
      (payload wire = frames.flatMap Frame.encode → front = frames) ∧
      receiveLoop wire = packetsOf rest front ∧
      ∀ packet ∈ rest, packet = .disconnected ∨ packet = .truncated := by
  obtain hall | ⟨front, next, back, cut, rfl, hc, hw, ha⟩ := prefix_flatMap h
  · let next : Frame := .subscribeAck ⟨0, List.replicate 51 0, rfl⟩
    obtain ⟨rest, hrest, hends⟩ := receiveLoop_of_cut (List.nil_prefix (l := next.encode))
      next.encode_ne_nil.symm (hall.trans (List.append_nil _).symm)
    exact ⟨frames, rest, List.prefix_rfl, fun _ ↦ rfl, hrest, hends⟩
  · obtain ⟨rest, hrest, hends⟩ := receiveLoop_of_cut hc hw ha
    refine ⟨front, rest, List.prefix_append front (next :: back), fun he ↦ ?_, hrest, hends⟩
    -- A stream that is cut is not the whole one.
    rw [ha, List.flatMap_append, List.flatMap_cons] at he
    have hlen := congrArg List.length (List.append_cancel_left he)
    have hlt : cut.length < next.encode.length :=
      Nat.lt_of_le_of_ne hc.length_le fun hl ↦ hw (hc.eq_of_length hl)
    rw [List.length_append] at hlen
    omega

/-! ### What is handed on of a stream -/

/-- The frames in front of the first one that cannot be displayed are handed on. -/
theorem frame_packetsOf {rest : List Packet}
    (hrest : ∀ packet ∈ rest, packet = .disconnected ∨ packet = .truncated) (frames : List Frame) :
    (packetsOf rest frames).filterMap Packet.frame = frames.takeWhile displayable := by
  induction frames with
  | nil =>
    refine List.filterMap_eq_nil_iff.mpr fun packet hm ↦ ?_
    obtain rfl | rfl := hrest packet hm <;> rfl
  | cons frame frames ih =>
    rw [packetsOf, List.takeWhile_cons]
    cases hd : displayable frame with
    | true =>
      rw [Packet.ofFrame_of_displayable hd]
      simpa [Packet.frame] using ih
    | false =>
      obtain ⟨packet, -, hp⟩ := Packet.ofFrame_of_not_displayable hd
      simp [hp, Packet.frame]

private theorem displayable_of_packetsOf {rest : List Packet} {frames : List Frame}
    (h : ∀ packet, .crashed packet ∉ packetsOf rest frames) :
    ∀ frame ∈ frames, displayable frame = true := by
  induction frames with
  | nil => exact fun frame hm ↦ absurd hm List.not_mem_nil
  | cons frame frames ih =>
    rw [packetsOf] at h
    cases hd : displayable frame with
    | true =>
      rw [hd] at h
      exact List.forall_mem_cons.mpr
        ⟨hd, ih fun packet hm ↦ h packet (List.mem_cons_of_mem _ hm)⟩
    | false =>
      obtain ⟨packet, -, hp⟩ := Packet.ofFrame_of_not_displayable hd
      exact absurd (hp ▸ List.mem_cons_self) (h packet)

private theorem invalidHeader_notMem_packetsOf {rest : List Packet}
    (hrest : ∀ packet ∈ rest, packet = .disconnected ∨ packet = .truncated) (frames : List Frame)
    (header : UInt8) : .invalidHeader header ∉ packetsOf rest frames := by
  induction frames with
  | nil =>
    intro hm
    obtain h | h := hrest _ hm <;> cases h
  | cons frame frames ih =>
    rw [packetsOf]
    cases hd : displayable frame with
    | true =>
      rw [Packet.ofFrame_of_displayable hd]
      simpa using ih
    | false =>
      obtain ⟨packet, -, hp⟩ := Packet.ofFrame_of_not_displayable hd
      simp [hp]

/-- What a subscriber that has not been ended has printed is the texts of the frames handed on. -/
theorem Printed.handed {packets : List Packet} {screen : Bytes} (h : Printed packets screen)
    (hc : ∀ packet, .crashed packet ∉ packets) :
    ∃ texts, List.Forall₂ (fun frame text ↦ ∃ behind, displayFrame frame behind = some text)
      (packets.filterMap Packet.frame) texts ∧ screen = texts.flatten := by
  obtain ⟨texts, htexts, rfl⟩ := h
  induction htexts with
  | nil => exact ⟨[], .nil, rfl⟩
  | @cons packet text packets texts hp _ ih =>
    obtain ⟨shown, hshown, hscreen⟩ := ih fun other hm ↦ hc other (List.mem_cons_of_mem packet hm)
    rw [List.flatten_cons, hscreen]
    obtain ⟨behind, hp⟩ := hp
    cases packet with
    | handed frame => exact ⟨text :: shown, .cons ⟨behind, hp⟩ hshown, rfl⟩
    | crashed message => exact absurd List.mem_cons_self (hc message)
    | invalidHeader header => exact ⟨shown, hshown, by rw [← Option.some.inj hp, List.nil_append]⟩
    | disconnected => exact ⟨shown, hshown, by rw [← Option.some.inj hp, List.nil_append]⟩
    | truncated => exact ⟨shown, hshown, by rw [← Option.some.inj hp, List.nil_append]⟩

/-! ### A subscriber -/

/-- A subscriber in the course of its loop: what its connection delivers, how its sends are
answered, and where it has got to. -/
structure Peer where
  wire : List Arrival
  answers : List SendAnswer
  loop : MainLoop
  run : Reaches MainLoop.step (fun _ _ ↦ True) (.initial wire answers) loop

namespace Peer

/-- Nothing is left for the subscriber to receive. -/
def Met (peer : Peer) : Prop := peer.loop.remaining.filterMap Packet.received = []

/-- Nothing is left for the subscriber to receive, and no message has ended it. -/
def Done (peer : Peer) : Prop := peer.Met ∧ ∀ packet, .crashed packet ∉ peer.loop.packets

private theorem Met.remaining {peer : Peer} (h : peer.Met) :
    peer.loop.remaining.filterMap Packet.frame = [] ∧
      ∀ packet, .crashed packet ∉ peer.loop.remaining := by
  have hnone := List.filterMap_eq_nil_iff.mp h
  constructor
  · refine List.filterMap_eq_nil_iff.mpr fun packet hm ↦ ?_
    cases packet with
    | handed frame => exact absurd (hnone _ hm) (Option.some_ne_none frame)
    | crashed message => rfl
    | invalidHeader header => rfl
    | disconnected => rfl
    | truncated => rfl
  · exact fun packet hm ↦ absurd (hnone _ hm) (Option.some_ne_none _)

/-- A subscriber that has left its loop with its stream is done. -/
theorem done_of_exited {peer : Peer} (hplace : peer.loop.place = .exited)
    (hstops : peer.loop.packets.any Packet.stops = true) : peer.Done := by
  constructor
  · rw [Met, MainLoop.remaining_of_stops hstops]
    rfl
  · cases (MainLoop.session_of_reaches peer.run).account with
    | going h =>
      rw [hplace] at h
      obtain h | h := h <;> cases h
    | exit _ h => exact absurd hstops (by rw [h.2]; exact Bool.false_ne_true)
    | stream _ h hpacket hpackets =>
      intro message hm
      obtain hm | hm := List.mem_append.mp (hpackets ▸ hm)
      · exact absurd (List.any_eq_true.mpr ⟨_, hm, rfl⟩) (by rw [h.2]; exact Bool.false_ne_true)
      · rw [← List.mem_singleton.mp hm] at hpacket
        obtain h | h := hpacket <;> cases h
    | fatal h => cases hplace.symm.trans h
    | blank h => cases hplace.symm.trans h
    | reset h => cases hplace.symm.trans h

variable (peer : Peer) {frames : List Frame}

/-- A subscriber has been handed the first ones of the frames that were sent to it. Where all have
arrived and been met, these are the ones in front of the first that cannot be displayed. -/
theorem handed_prefix (h : payload peer.wire <+: frames.flatMap Frame.encode) :
    (peer.loop.handed <+: frames ∧ ∀ header, .invalidHeader header ∉ peer.loop.packets) ∧
      (payload peer.wire = frames.flatMap Frame.encode → peer.Met →
        peer.loop.handed = frames.takeWhile displayable) := by
  have hreceived := (MainLoop.session_of_reaches peer.run).received
  obtain ⟨front, rest, hfront, hall, hpackets, hends⟩ := receiveLoop_of_prefix h
  rw [hreceived] at hpackets
  have hframes := frame_packetsOf hends front
  rw [← hpackets, List.filterMap_append] at hframes
  refine ⟨⟨?_, fun header hm ↦ ?_⟩, fun hp hmet ↦ ?_⟩
  · exact (hframes ▸ List.prefix_append _ _).trans ((List.takeWhile_prefix _).trans hfront)
  · exact invalidHeader_notMem_packetsOf hends front header
      (hpackets ▸ List.mem_append_left _ hm)
  · rw [hmet.remaining.1, List.append_nil, hall hp] at hframes
    exact hframes

/-- Where a subscriber is done all frames can be displayed, and it has been handed all of them. -/
theorem handed_of_done (h : payload peer.wire = frames.flatMap Frame.encode) (hd : peer.Done) :
    peer.loop.handed = frames := by
  have hreceived := (MainLoop.session_of_reaches peer.run).received
  have hfront : payload peer.wire <+: frames.flatMap Frame.encode := h ▸ List.prefix_rfl
  obtain ⟨front, rest, -, hall, hpackets, -⟩ := receiveLoop_of_prefix hfront
  rw [hall h, hreceived] at hpackets
  have hgoes (packet : MessageWithHeader) : .crashed packet ∉ packetsOf rest frames := by
    intro hm
    obtain hm | hm := List.mem_append.mp (hpackets ▸ hm)
    · exact hd.2 packet hm
    · exact hd.1.remaining.2 packet hm
  have hdisplayable := displayable_of_packetsOf hgoes
  rw [(peer.handed_prefix hfront).2 h hd.1,
    List.takeWhile_eq_self_iff.mpr hdisplayable]

/-- Where all frames can be displayed a subscriber that has met them is done. -/
theorem done_of_displayable (h : payload peer.wire = frames.flatMap Frame.encode)
    (hmet : peer.Met) (hd : ∀ frame ∈ frames, displayable frame = true) : peer.Done := by
  refine ⟨hmet, fun packet hm ↦ ?_⟩
  have hreceived := (MainLoop.session_of_reaches peer.run).received
  have hfront : payload peer.wire <+: frames.flatMap Frame.encode := h ▸ List.prefix_rfl
  obtain ⟨front, rest, -, hall, hpackets, hends⟩ := receiveLoop_of_prefix hfront
  rw [hall h, (packetsOf_eq_iff rest frames).mpr hd] at hpackets
  have hm := hpackets ▸ hreceived ▸ List.mem_append_left peer.loop.remaining hm
  obtain hm | hm := List.mem_append.mp hm
  · obtain ⟨frame, -, hframe⟩ := List.mem_map.mp hm
    cases hframe
  · obtain h | h := hends _ hm <;> cases h

end Peer

end Broker.Subscriber
