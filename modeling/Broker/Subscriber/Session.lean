import Mathlib.Data.List.Forall2
import Broker.Subscriber.Input

/-!
# A session of the subscriber

The loop of the subscriber serves its keyboard and its connection in turn. However the two are
interleaved, neither is disturbed by the other one: what has been received is what the stream
alone comes to, what has been sent is what the lines alone ask for, and the loop goes on until
one of them ends it.
-/

namespace Broker.Subscriber
open Broker.Base Broker.Net

/-- The words of a line that `fgets` has taken. -/
def lineWords (line : Bytes) : List Bytes := commandWords (cString (line ++ [0]))

/-- The request a line makes. -/
def lineRequest (line : Bytes) : Option SubcribeRequest :=
  match lineWords line with
  | word :: topic :: _ => (operationOf word).map fun operation ↦ prepareRequest operation topic
  | _ => none

/-- A line behind which the loop goes on. -/
def Plain (line : Bytes) : Prop := lineWords line ≠ [] ∧ (lineWords line).head? ≠ some exitWord

instance (line : Bytes) : Decidable (Plain line) := by
  unfold Plain
  infer_instance

namespace MainLoop

/-- The requests the lines executed so far have made. -/
def requests (s : MainLoop) : List SubcribeRequest := s.executed.filterMap lineRequest

/-- What the connection still comes to. -/
def remaining (s : MainLoop) : List Packet :=
  if s.packets.any Packet.stops then [] else receiveLoop s.wire

/-- Nothing that ends the loop has been typed or received. -/
def Undisturbed (lines : List Bytes) (packets : List Packet) : Prop :=
  (∀ line ∈ lines, Plain line) ∧ packets.any Packet.stops = false

/-- Where the loop is, and what has brought it there. -/
inductive Account (s : MainLoop) : Prop
  | going (hplace : s.place.ended = false ∨ s.place = .died)
      (h : Undisturbed s.executed s.packets)
  /-- The exit command. -/
  | exit {lines line} (hplace : s.place = .exited) (h : Undisturbed lines s.packets)
      (hline : (lineWords line).head? = some exitWord) (hexecuted : s.executed = lines ++ [line])
  /-- The end of the stream, in front of a frame or inside it. -/
  | stream {packets packet} (hplace : s.place = .exited) (h : Undisturbed s.executed packets)
      (hpacket : packet = .disconnected ∨ packet = .truncated)
      (hpackets : s.packets = packets ++ [packet])
  /-- A message that divides by zero. -/
  | fatal {packets message} (hplace : s.place = .crashed) (h : Undisturbed s.executed packets)
      (hpackets : s.packets = packets ++ [.crashed message])
  /-- A line without a word. -/
  | blank {lines line} (hplace : s.place = .crashed) (h : Undisturbed lines s.packets)
      (hline : lineWords line = []) (hexecuted : s.executed = lines ++ [line])
  /-- A request that met a reset connection. -/
  | reset {lines line} (hplace : s.place = .killed) (h : Undisturbed lines s.packets)
      (hline : (lineRequest line).isSome = true) (hexecuted : s.executed = lines ++ [line])

end MainLoop

/-- The texts of the packets, one behind the other. Each is read from its packet and from some
memory behind it. -/
def Printed (packets : List Packet) (screen : Bytes) : Prop :=
  ∃ texts, List.Forall₂ (fun packet text ↦ ∃ behind, Packet.printed packet behind = some text)
    packets texts ∧ screen = texts.flatten

private theorem Printed.concat {packets : List Packet} {screen : Bytes} (h : Printed packets screen)
    {packet : Packet} {behind text : Bytes} (hp : packet.printed behind = some text) :
    Printed (packets ++ [packet]) (screen ++ text) := by
  obtain ⟨texts, htexts, rfl⟩ := h
  refine ⟨texts ++ [text], List.rel_append htexts ?_, ?_⟩
  · exact .cons ⟨behind, hp⟩ .nil
  · rw [List.flatten_append, List.flatten_singleton]

/-! ### One line -/

private theorem plain_of_lineRequest {line : Bytes} (h : (lineRequest line).isSome = true) :
    Plain line := by
  unfold lineRequest at h
  split at h
  · next word topic more hw =>
    apply And.intro
    · rw [hw]
      exact List.cons_ne_nil _ _
    · rw [hw, List.head?_cons]
      intro he
      obtain rfl := Option.some.inj he
      rw [show operationOf exitWord = none by decide] at h
      cases h
  · cases h

/-- What executing a line does, by its words. -/
inductive Execution (s : MainLoop) (line : Bytes) (socketReady : Bool) : MainLoop → Prop
  | exit (hline : (lineWords line).head? = some exitWord) (hrequest : lineRequest line = none) :
    Execution s line socketReady { s with executed := s.executed ++ [line], place := .exited }
  | blank (hline : lineWords line = []) (hrequest : lineRequest line = none) :
    Execution s line socketReady { s with executed := s.executed ++ [line], place := .crashed }
  | invalid (hline : Plain line) (hrequest : lineRequest line = none) :
    Execution s line socketReady
      { s with executed := s.executed ++ [line], place := MainLoop.behindInput socketReady }
  | request {request outcome} (hrequest : lineRequest line = some request)
      (hsent : outcome = sendall request.encode s.answers) :
    Execution s line socketReady
      { s with
        executed := s.executed ++ [line]
        answers := outcome.answers
        written := s.written ++ outcome.written
        place := if outcome.status = .killed then .killed else MainLoop.behindInput socketReady }

/-- Every line is executed in one of these ways. -/
theorem execution_execute (s : MainLoop) (line : Bytes) (socketReady : Bool) :
    Execution s line socketReady (s.execute line socketReady) := by
  have hz : (0 : UInt8) ∈ line ++ [0] := List.mem_append_right line List.mem_cons_self
  have hsame : s.written ++ [] = s.written := List.append_nil _
  by_cases hblank : lineWords line = []
  · rw [MainLoop.execute, processInputComand_of_blank hz hblank]
    exact .blank hblank (by rw [lineRequest, hblank])
  obtain ⟨word, more, hw⟩ := List.exists_cons_of_ne_nil hblank
  have hp : processInputComand (line ++ [0]) s.answers =
      .ok (commandOutcome (word :: more) s.answers) := by
    rw [processInputComand_of_words hz hblank, ← hw]
    rfl
  rw [MainLoop.execute, hp]
  by_cases he : word = exitWord
  · have hn : lineRequest line = none := by
      unfold lineRequest
      rw [hw, he]
      cases more <;> rfl
    rw [he, commandOutcome_exit]
    dsimp only [CommandOutcome.silent]
    rw [hsame]
    exact .exit (by rw [hw, he]; rfl) hn
  have hplain : Plain line := by
    refine ⟨hblank, fun h ↦ he ?_⟩
    rw [hw] at h
    exact Option.some.inj h
  -- Without one of the two words there is no request.
  have hinvalid (hn : lineRequest line = none)
      (hc : commandOutcome (word :: more) s.answers =
        .silent .invalidCommandEntered s.answers) :
      Execution s line socketReady (s.execute line socketReady) := by
    rw [MainLoop.execute, hp, hc]
    dsimp only [CommandOutcome.silent]
    rw [hsame]
    exact .invalid hplain hn
  rw [MainLoop.execute, hp] at hinvalid
  cases ho : operationOf word with
  | none =>
    apply hinvalid
    · cases more <;> simp [lineRequest, hw, ho]
    · simp [commandOutcome, he, ho]
  | some operation =>
    cases more with
    | nil =>
      apply hinvalid
      · simp [lineRequest, hw]
      · simp [commandOutcome, he]
    | cons topic more =>
      have hr : lineRequest line = some (prepareRequest operation topic) := by
        simp [lineRequest, hw, ho]
      have hc : commandOutcome (word :: topic :: more) s.answers =
          sendRequest (prepareRequest operation topic) s.answers := by
        simp [commandOutcome, he, ho]
      rw [hc]
      have hx : Execution s line socketReady _ := .request hr rfl
      by_cases hk : (sendall (prepareRequest operation topic).encode s.answers).status = .killed
      · simpa only [sendRequest, if_pos hk] using hx
      · simpa only [sendRequest, if_neg hk] using hx

namespace MainLoop

variable {s t : MainLoop}

private theorem Account.undisturbed (h : s.Account) (hplace : s.place.ended = false) :
    Undisturbed s.executed s.packets := by
  cases h with
  | going _ h => exact h
  | exit hp => rw [hp] at hplace; cases hplace
  | stream hp => rw [hp] at hplace; cases hplace
  | fatal hp => rw [hp] at hplace; cases hplace
  | blank hp => rw [hp] at hplace; cases hplace
  | reset hp => rw [hp] at hplace; cases hplace

private theorem ended_behindInput (socketReady : Bool) :
    (behindInput socketReady).ended = false := by
  cases socketReady <;> rfl

/-- A plain line more. -/
theorem Undisturbed.concat {lines : List Bytes} {packets : List Packet}
    (h : Undisturbed lines packets) {line : Bytes} (hline : Plain line) :
    Undisturbed (lines ++ [line]) packets := by
  refine ⟨fun other hm ↦ ?_, h.2⟩
  obtain hm | hm := List.mem_append.mp hm
  · exact h.1 other hm
  · exact List.mem_singleton.mp hm ▸ hline

private theorem account_execution {line : Bytes} {socketReady : Bool}
    (h : Undisturbed s.executed s.packets) (hx : Execution s line socketReady t) : t.Account := by
  cases hx with
  | exit hline => exact .exit rfl h hline rfl
  | blank hline => exact .blank rfl h hline rfl
  | invalid hline => exact .going (.inl (ended_behindInput socketReady)) (h.concat hline)
  | @request request outcome hrequest hsent =>
    have hsome : (lineRequest line).isSome = true := by rw [hrequest]; rfl
    by_cases hk : outcome.status = .killed
    · exact .reset (if_pos hk) h hsome rfl
    · refine .going (.inl ?_) (h.concat (plain_of_lineRequest hsome))
      dsimp only
      rw [if_neg hk]
      exact ended_behindInput socketReady

/-- What is known of a session. -/
structure Session (wire : List Arrival) (answers : List SendAnswer) (s : MainLoop) : Prop where
  account : s.Account
  received : receiveLoop wire = s.packets ++ s.remaining
  printed : Printed s.packets s.screen
  sent : Reliable answers → Reliable s.answers ∧ s.place ≠ .killed ∧
    s.written = s.requests.flatMap SubcribeRequest.encode

variable {wire : List Arrival} {answers : List SendAnswer}

private theorem Session.execution (h : Session wire answers s) (hplace : s.place.ended = false)
    {line : Bytes} {socketReady : Bool} (hx : Execution s line socketReady t) :
    Session wire answers t := by
  refine ⟨account_execution (h.account.undisturbed hplace) hx, ?_, ?_, fun hr ↦ ?_⟩
  · cases hx <;> exact h.received
  · cases hx <;> exact h.printed
  · obtain ⟨hanswers, -, hwritten⟩ := h.sent hr
    have hgo := ended_behindInput socketReady
    have hrequests : (s.executed ++ [line]).filterMap lineRequest =
        s.requests ++ (lineRequest line).toList := by
      rw [List.filterMap_append, requests]
      cases hl : lineRequest line with
      | none => simp [hl]
      | some request => simp [hl]
    have hsilent (hrequest : lineRequest line = none) :
        s.written = ((s.executed ++ [line]).filterMap lineRequest).flatMap
          SubcribeRequest.encode := by
      rw [hrequests, hrequest, Option.toList_none, List.append_nil]
      exact hwritten
    cases hx with
    | exit hline hrequest => exact ⟨hanswers, by simp, hsilent hrequest⟩
    | blank hline hrequest => exact ⟨hanswers, by simp, hsilent hrequest⟩
    | invalid hline hrequest =>
      refine ⟨hanswers, fun hk ↦ ?_, hsilent hrequest⟩
      rw [show behindInput socketReady = .killed from hk] at hgo
      cases hgo
    | @request request outcome hrequest hsent =>
      subst hsent
      obtain ⟨hdone, hlater⟩ := sendall_of_reliable request.encode hanswers
      rw [hdone, if_neg (by simp)]
      refine ⟨hlater, fun hk ↦ ?_, ?_⟩
      · rw [show behindInput socketReady = .killed from hk] at hgo
        cases hgo
      · show _ = ((s.executed ++ [line]).filterMap lineRequest).flatMap SubcribeRequest.encode
        rw [hrequests, hrequest, Option.toList_some, List.flatMap_append, ← hwritten,
          List.flatMap_singleton]
        exact congrArg (s.written ++ ·) (sendall_written_of_done hdone)

private theorem Session.move (h : Session wire answers s) (hplace : s.place.ended = false)
    (place : Place) (stdin : Stdio) (hgo : place.ended = false ∨ place = .died) :
    Session wire answers { s with place := place, stdin := stdin } where
  account := .going hgo (h.account.undisturbed hplace)
  received := h.received
  printed := h.printed
  sent hr := by
    obtain ⟨hanswers, -, hwritten⟩ := h.sent hr
    refine ⟨hanswers, ?_, hwritten⟩
    rintro rfl
    obtain hgo | hgo := hgo
    · cases hgo
    · cases hgo

/-- Behind a packet that ends the loop nothing is met. -/
theorem remaining_of_stops (h : s.packets.any Packet.stops = true) : s.remaining = [] := if_pos h

private theorem remaining_of_goes (h : s.packets.any Packet.stops = false) :
    s.remaining = receiveLoop s.wire := by
  rw [remaining, h]
  rfl

private theorem account_behindPacket {packet : Packet} (h : Undisturbed s.executed s.packets)
    (hplace : t.place = behindPacket packet) (hexecuted : t.executed = s.executed)
    (hpackets : t.packets = s.packets ++ [packet]) : t.Account := by
  have hgo (hs : packet.stops = false) : Undisturbed t.executed t.packets := by
    refine ⟨hexecuted ▸ h.1, ?_⟩
    rw [hpackets, List.any_append, h.2]
    simpa using hs
  rw [← hexecuted] at h
  cases packet with
  | handed frame => exact .going (.inl (hplace ▸ rfl)) (hgo rfl)
  | crashed message => exact .fatal hplace h hpackets
  | invalidHeader header => exact .going (.inl (hplace ▸ rfl)) (hgo rfl)
  | disconnected => exact .stream hplace h (.inl rfl) hpackets
  | truncated => exact .stream hplace h (.inr rfl) hpackets

private theorem Session.packet (h : Session wire answers s) (hplace : s.place.ended = false)
    {behind : Bytes} (hs : s.readSocket behind = some t) : Session wire answers t := by
  obtain ⟨⟨packet, later⟩, hd, hs⟩ := Option.bind_eq_some_iff.mp hs
  obtain ⟨text, htext, rfl⟩ := Option.map_eq_some_iff.mp hs
  have hundisturbed := h.account.undisturbed hplace
  have hreceived := h.received
  rw [remaining_of_goes hundisturbed.2] at hreceived
  have hany : (s.packets ++ [packet]).any Packet.stops = packet.stops := by
    rw [List.any_append, hundisturbed.2]
    simp
  have hk : behindPacket packet ≠ .killed := by cases packet <;> simp [behindPacket]
  refine ⟨account_behindPacket hundisturbed rfl rfl rfl, ?_, h.printed.concat htext,
    fun hr ↦ ⟨(h.sent hr).1, hk, (h.sent hr).2.2⟩⟩
  cases hstop : packet.stops with
  | true =>
    rw [remaining_of_stops (hany.trans hstop), List.append_nil, hreceived,
      receiveLoop_of_stops hd hstop]
  | false =>
    rw [remaining_of_goes (hany.trans hstop), hreceived, receiveLoop_of_goes hd hstop,
      List.append_assoc]
    rfl

private theorem Account.typed (h : s.Account) (stdin : Stdio) : Account
    { s with stdin := stdin } := by
  cases h with
  | going hplace h => exact .going hplace h
  | exit hplace h hline hexecuted => exact .exit hplace h hline hexecuted
  | stream hplace h hpacket hpackets => exact .stream hplace h hpacket hpackets
  | fatal hplace h hpackets => exact .fatal hplace h hpackets
  | blank hplace h hline hexecuted => exact .blank hplace h hline hexecuted
  | reset hplace h hline hexecuted => exact .reset hplace h hline hexecuted

/-- Every step keeps to the session. -/
theorem Session.step (h : Session wire answers s) {event : LoopEvent}
    (hs : s.step event = some t) : Session wire answers t := by
  unfold MainLoop.step at hs
  cases event with
  | typed bytes =>
    obtain ⟨-, hs⟩ := Option.ite_none_left_eq_some.mp hs
    cases hs
    exact ⟨h.account.typed _, h.received, h.printed, h.sent⟩
  | stdinClosed =>
    cases hs
    exact ⟨h.account.typed _, h.received, h.printed, h.sent⟩
  | poll stdinReady socketReady =>
    obtain ⟨⟨hp, -⟩, hs⟩ := Option.ite_none_right_eq_some.mp hs
    cases hs
    refine h.move (by rw [hp]; rfl) _ s.stdin (.inl ?_)
    split
    · rfl
    · exact ended_behindInput socketReady
  | pollFails =>
    obtain ⟨hp, hs⟩ := Option.ite_none_right_eq_some.mp hs
    cases hs
    exact h.move (by rw [hp]; rfl) _ s.stdin (.inr rfl)
  | proceed =>
    dsimp only at hs
    split at hs
    · next line socketReady hp =>
      have hplace : s.place.ended = false := by rw [hp]; rfl
      obtain ⟨⟨turn, later⟩, -, rfl⟩ := Option.map_eq_some_iff.mp hs
      cases turn with
      | taken text =>
        have hread := h.move hplace s.place later (.inl hplace)
        exact hread.execution hplace (execution_execute _ text socketReady)
      | more line' => exact h.move hplace _ later (.inl rfl)
      | endOfFile => exact h.move hplace _ later (.inl (ended_behindInput socketReady))
    · cases hs
  | received behind =>
    obtain ⟨hp, hs⟩ := Option.ite_none_right_eq_some.mp hs
    exact h.packet (by rw [hp]; rfl) hs

/-- In every run the loop keeps to the session. -/
theorem session_of_reaches {allowed : MainLoop → LoopEvent → Prop}
    (h : Reaches MainLoop.step allowed (.initial wire answers) s) : Session wire answers s :=
  h.invariant ⟨.going (.inl rfl) ⟨fun _ hm ↦ absurd hm List.not_mem_nil, rfl⟩, rfl,
    ⟨[], .nil, rfl⟩, fun hr ↦ ⟨hr, by simp [initial], rfl⟩⟩ fun _ _ _ hi _ hs ↦ hi.step hs

end MainLoop

/-- However the lines that are typed and the arrivals of the connection are interleaved, in
every run the packets met so far, followed by those the rest of the stream comes to, are the
packets of the stream alone, and what has been printed is their texts; where sends succeed the
bytes sent are the requests of the lines executed, one behind the other; and the loop goes on
until a line asks for the end or has no word, the stream ends or a record is cut short, a message
divides by zero, `poll` fails, or a request meets a reset connection: no invalid header, no
acknowledgement and no failed send ends it. -/
theorem halves_apart {wire : List Arrival} {answers : List SendAnswer} {s : MainLoop}
    (h : Reaches MainLoop.step (fun _ _ ↦ True) (.initial wire answers) s) :
    receiveLoop wire = s.packets ++ s.remaining ∧ Printed s.packets s.screen ∧
      (Reliable answers → s.place ≠ .killed ∧
        s.written = s.requests.flatMap SubcribeRequest.encode) ∧
      s.Account := by
  have hsession := MainLoop.session_of_reaches h
  exact ⟨hsession.received, hsession.printed, fun hr ↦ (hsession.sent hr).2, hsession.account⟩

/-- The acknowledgement of a subscription to `a`, and the end of the stream. -/
def ackWire : List Arrival := [.segment 1 (2 :: 97 :: List.replicate 50 0), .fin]

/-- A line is typed, an acknowledgement arrives, and the server goes. -/
def askRun : List LoopEvent :=
  [.typed (subscribeWord ++ [32, 97, 10]), .poll true true, .proceed, .proceed, .received [],
    .poll false true, .received []]

/-- One request is sent and one acknowledgement displayed before the stream ends. -/
theorem halves_apart_askRun : ∃ s,
    Reaches MainLoop.step (fun _ _ ↦ True) (.initial ackWire [.sent 3]) s ∧
    s.place = .exited ∧ s.requests.length = 1 ∧
    s.screen = ascii "Subscribed to topic a\n".toList ∧
    receiveLoop ackWire = s.packets ++ s.remaining ∧ Printed s.packets s.screen ∧
    s.written = s.requests.flatMap SubcribeRequest.encode ∧ s.Account := by
  have hrun : (exec MainLoop.step (.initial ackWire [.sent 3]) askRun).any (fun s ↦ decide
      (s.place = .exited ∧ s.requests.length = 1 ∧
        s.screen = ascii "Subscribed to topic a\n".toList)) = true := by decide +kernel
  obtain ⟨s, hs, hplace, hrequests, hscreen⟩ := exists_exec hrun
  have hr := reaches_of_exec hs
  obtain ⟨hreceived, hprinted, hsent, haccount⟩ := halves_apart hr
  exact ⟨s, hr, hplace, hrequests, hscreen, hreceived, hprinted, (hsent (by simp [Reliable])).2,
    haccount⟩

end Broker.Subscriber
