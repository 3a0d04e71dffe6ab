import Broker.Net.Socket

/-!
# The bytes written to a connection

When the attempts to write frames leave whole frames and at most one cut one behind them on
the wire, and what one further attempt has to avoid for that.
-/

namespace Broker.Net
open Broker.Base

/-- Whole frames followed by at most one that is cut short. -/
def FrameStream (bytes : Bytes) : Prop :=
  ∃ (whole : List Frame) (next : Frame) (cut : Bytes),
    bytes = whole.flatMap Frame.encode ++ cut ∧ cut <+: next.encode ∧ cut ≠ next.encode

namespace Emission

/-- All of the frame went out. -/
def Whole (emission : Emission) : Prop := emission.written = emission.frame.encode

/-- A part of the frame went out, but not all of it. -/
def Truncated (emission : Emission) : Prop := emission.written ≠ [] ∧ ¬ emission.Whole

instance (emission : Emission) : Decidable emission.Whole := by
  unfold Whole
  infer_instance

end Emission

/-- Every attempt wrote a front part of its frame, and none wrote behind a truncated one. -/
def Framed (log : List Emission) : Prop :=
  (∀ emission ∈ log, emission.written <+: emission.frame.encode) ∧
    log.Pairwise fun earlier later ↦ earlier.Truncated → later.written = []

/-- The frames that went out whole. -/
def wholeFrames (log : List Emission) : List Frame :=
  (log.filter fun emission ↦ emission.Whole).map Emission.frame

/-- Before the first attempt the connection is framed. -/
theorem framed_nil : Framed [] := ⟨by simp, .nil⟩

/-- One more attempt has to write a front part of its frame, and nothing behind a truncated
frame. -/
theorem framed_append_singleton_iff {log : List Emission} {emission : Emission} :
    Framed (log ++ [emission]) ↔ Framed log ∧ emission.written <+: emission.frame.encode ∧
      ((∃ earlier ∈ log, earlier.Truncated) → emission.written = []) := by
  unfold Framed
  simp only [List.forall_mem_append, List.forall_mem_singleton, List.pairwise_append,
    List.pairwise_singleton, true_and]
  constructor
  · rintro ⟨⟨hl, he⟩, hp, hc⟩
    exact ⟨⟨hl, hp⟩, he, fun ⟨earlier, hm, ht⟩ ↦ hc earlier hm ht⟩
  · rintro ⟨⟨hl, hp⟩, he, hc⟩
    exact ⟨⟨hl, he⟩, hp, fun earlier hm ht ↦ hc ⟨earlier, hm, ht⟩⟩

/-- The bytes written are those of the whole frames and of one cut frame behind them. -/
theorem written_of_framed {log : List Emission} (h : Framed log) : ∃ (next : Frame) (cut : Bytes),
    log.flatMap Emission.written = (wholeFrames log).flatMap Frame.encode ++ cut ∧
      cut <+: next.encode ∧ cut ≠ next.encode := by
  induction log with
  | nil =>
    refine ⟨.subscribeAck ⟨0, List.replicate 51 0, rfl⟩, [], rfl, List.nil_prefix, ?_⟩
    exact (Frame.encode_ne_nil _).symm
  | cons emission log ih =>
    obtain ⟨hfront, hp⟩ := h
    obtain ⟨hcut, hp⟩ := List.pairwise_cons.mp hp
    obtain ⟨next, cut, hw, hc, hn⟩ := ih ⟨fun e hm ↦ hfront e (List.mem_cons_of_mem _ hm), hp⟩
    by_cases hwhole : emission.Whole
    · have hf : wholeFrames (emission :: log) = emission.frame :: wholeFrames log := by
        rw [wholeFrames, List.filter_cons_of_pos (by simpa using hwhole), List.map_cons,
          wholeFrames]
      refine ⟨next, cut, ?_, hc, hn⟩
      rw [List.flatMap_cons, hw, hwhole, hf, List.flatMap_cons, List.append_assoc]
    · have hf : wholeFrames (emission :: log) = wholeFrames log := by
        rw [wholeFrames, List.filter_cons_of_neg (by simpa using hwhole), wholeFrames]
      by_cases hz : emission.written = []
      · exact ⟨next, cut, by rw [List.flatMap_cons, hz, hf, List.nil_append, hw], hc, hn⟩
      · -- Nothing was written behind this frame, so no later frame went out whole either.
        have hrest : log.flatMap Emission.written = [] :=
          List.flatMap_eq_nil_iff.mpr fun e hm ↦ hcut e hm ⟨hz, hwhole⟩
        rw [hrest] at hw
        obtain ⟨hnone, -⟩ := List.append_eq_nil_iff.mp hw.symm
        refine ⟨emission.frame, emission.written, ?_, hfront emission (by simp), hwhole⟩
        rw [List.flatMap_cons, hrest, hf, hnone, List.append_nil, List.nil_append]

/-- The bytes of such attempts are whole frames followed by at most one cut one. -/
theorem frameStream_of_framed {log : List Emission} (h : Framed log) :
    FrameStream (log.flatMap Emission.written) := by
  obtain ⟨next, cut, hw, hc, hn⟩ := written_of_framed h
  exact ⟨wholeFrames log, next, cut, hw, hc, hn⟩

/-! ### One attempt -/

/-- The next send takes nothing. -/
def refused : List SendAnswer → Bool
  | .failed :: _ => true
  | .reset :: _ => true
  | _ => false

/-- The record of an acknowledgement begins to go out although its header byte did not. -/
def headless : Frame → List SendAnswer → Bool
  | .subscribeAck _, .failed :: answers => !refused answers
  | _, _ => false

/-- A record follows its header where the header's first send takes something. -/
theorem headless_of_not_refused (frame : Frame) {answers : List SendAnswer}
    (h : refused answers = false) : headless frame answers = false := by
  cases frame with
  | message response => rfl
  | subscribeAck request =>
    cases answers with
    | nil => rfl
    | cons answer answers =>
      cases answer with
      | sent more => rfl
      | failed => cases h
      | reset => rfl

private theorem sendall_written_eq_nil_iff {data : Bytes} (hd : data ≠ [])
    (answers : List SendAnswer) : (sendall data answers).written = [] ↔ refused answers = true := by
  cases answers with
  | nil => simp [sendall, refused, hd]
  | cons answer answers =>
    cases answer with
    | sent more =>
      obtain ⟨b, data, rfl⟩ := List.exists_cons_of_ne_nil hd
      simp [sendall, refused]
    | failed => simp [sendall, refused, hd]
    | reset => simp [sendall, refused, hd]

/-- The bytes an attempt can have written: a front part of the frame, empty exactly where the
first send is refused, or a part of the record without its header. -/
structure Attempted (frame : Frame) (answers : List SendAnswer) (written : Bytes) : Prop where
  front : headless frame answers = false → written <+: frame.encode
  nothing : headless frame answers = false → (written = [] ↔ refused answers = true)
  body : headless frame answers = true → written ≠ [] ∧ written <+: frame.body

/-- Where the first send is refused and the record is not sent, nothing is written. -/
theorem Attempted.of_refused {frame : Frame} {answers : List SendAnswer}
    (hh : headless frame answers = false) (hr : refused answers = true) :
    Attempted frame answers [] :=
  ⟨fun _ ↦ List.nil_prefix, fun _ ↦ iff_of_true rfl hr, fun hf ↦ by rw [hh] at hf; cases hf⟩

/-- Where the first send is not refused, the header is written and then a part of the record. -/
theorem Attempted.of_started {frame : Frame} {answers : List SendAnswer} {part : Bytes}
    (hh : headless frame answers = false) (hr : refused answers = false)
    (hp : part <+: frame.body) :
    Attempted frame answers (frame.header :: part) where
  front := fun _ ↦ List.cons_prefix_cons.mpr ⟨rfl, hp⟩
  nothing := fun _ ↦ iff_of_false (List.cons_ne_nil _ _) (by rw [hr]; simp)
  body := fun hf ↦ by rw [hh] at hf; cases hf

/-- What the server's attempts write is of this kind. -/
theorem Socket.sendFrame_attempted (sock : Socket) (client : Bytes) (frame : Frame) :
    ∃ written answers,
      (sock.sendFrame client frame).1 = sock.record ⟨client, frame, written⟩ answers ∧
      Attempted frame sock.answers written := by
  have started (hd : (sendall [frame.header] sock.answers).status = .done)
      (hh : headless frame sock.answers = false) (hr : refused sock.answers = false) :
      ∃ written answers, (sock.sendFrame client frame).1 =
        sock.record ⟨client, frame, written⟩ answers ∧ Attempted frame sock.answers written :=
    ⟨_, _, by rw [sendFrame_of_header_done client hd], .of_started hh hr (prefix_of_sendall _ _)⟩
  cases ha : sock.answers with
  | nil =>
    rw [ha] at started
    cases frame <;> exact started (by simp [sendall]) rfl rfl
  | cons answer answers =>
    rw [ha] at started
    cases answer with
    | sent more => cases frame <;> exact started (by simp [sendall]) rfl rfl
    | reset =>
      refine ⟨[], answers, ?_, ?_⟩
      · cases frame with
        | message response => simp [sendFrame, sendMessage, ha, sendall]
        | subscribeAck request => simp [sendFrame, sendAck, ha, sendall]
      · cases frame <;> exact .of_refused rfl rfl
    | failed =>
      cases frame with
      | message response =>
        exact ⟨[], answers, by simp [sendFrame, sendMessage, ha, sendall], .of_refused rfl rfl⟩
      | subscribeAck request =>
        -- The result of sending the header is not checked, so the record is sent all the same.
        have hnil : (sendall request.encode answers).written = [] ↔ refused answers = true :=
          sendall_written_eq_nil_iff (List.cons_ne_nil _ _) answers
        refine ⟨(sendall request.encode answers).written, (sendall request.encode answers).answers,
          by simp [sendFrame, sendAck, ha, sendall], ?_⟩
        cases hr : refused answers with
        | true =>
          rw [hnil.mpr hr]
          exact .of_refused (by simp [headless, hr]) rfl
        | false =>
          have hh : headless (.subscribeAck request) (.failed :: answers) = true := by
            simp [headless, hr]
          refine ⟨fun hf ↦ ?_, fun hf ↦ ?_, fun _ ↦ ⟨fun hz ↦ ?_, prefix_of_sendall _ _⟩⟩
          · rw [hh] at hf
            cases hf
          · rw [hh] at hf
            cases hf
          · rw [hnil.mp hz] at hr
            cases hr

/-- The connection stays whole frames and one cut frame behind them when this frame is
attempted. -/
def Safe (sock : Socket) (frame : Frame) : Prop :=
  headless frame sock.answers = false ∧
    ((∃ earlier ∈ sock.log, earlier.Truncated) → refused sock.answers = true)

/-- An attempt keeps the connection framed exactly when it does not send a record without its
header, and sends nothing behind a truncated frame. -/
theorem framed_sendFrame_iff {sock : Socket} (h : Framed sock.log) (client : Bytes) {frame : Frame}
    (hop : ∀ request, frame = .subscribeAck request → request.operation ≠ headerSubscribeAck) :
    Framed (sock.sendFrame client frame).1.log ↔ Safe sock frame := by
  obtain ⟨written, answers, hw, hfront, hnothing, hbody⟩ := sock.sendFrame_attempted client frame
  rw [hw, Socket.record_log, framed_append_singleton_iff]
  constructor
  · rintro ⟨-, hp, hc⟩
    have hh : headless frame sock.answers = false := by
      by_contra hh
      obtain ⟨hn, hb⟩ := hbody (by simpa using hh)
      obtain ⟨b, part, rfl⟩ := List.exists_cons_of_ne_nil hn
      cases frame with
      | message response => simp [headless] at hh
      | subscribeAck request =>
        -- The first byte of the record would have to be the header byte.
        have h₁ : b = headerSubscribeAck := (List.cons_prefix_cons.mp hp).1
        have h₂ : b = request.operation := (List.cons_prefix_cons.mp hb).1
        exact hop request rfl (h₂.symm.trans h₁)
    exact ⟨hh, fun ht ↦ (hnothing hh).mp (hc ht)⟩
  · rintro ⟨hh, hc⟩
    exact ⟨h, hfront hh, fun ht ↦ (hnothing hh).mpr (hc ht)⟩

end Broker.Net
