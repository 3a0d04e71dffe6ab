import Broker.Subscriber.Loop

/-!
# The lines a subscriber executes

One `fgets` for each time `poll` reports standard input, over a buffer that `poll` cannot see.
The commands executed are the complete lines read, as long as no read brings the end of a
second line and no line is longer than the command buffer; otherwise a line stays behind in
the buffer, or is executed in parts.
-/

namespace Broker.Subscriber
open Broker.Base Broker.Net

/-- No complete line that was read is left in the buffer, and the commands executed are the
complete lines read, each once and in order. -/
def LinesExecuted (s : MainLoop) : Prop :=
  newline ∉ s.stdin.buffer ∧ s.executed = (completeLines s.stdin.read).map (· ++ [newline])

/-- The first line of a text fits the command buffer and asks for the end. -/
def ExitFirst (text : Bytes) : Prop :=
  ∃ line rest, text = line ++ newline :: rest ∧ newline ∉ line ∧ line.length < commandRoom ∧
    (commandWords (cString (line ++ [newline] ++ [0]))).head? = some exitWord

/-- Where the code goes on inside `fgets`, what has been read and not executed is at most one
line and the beginning of the next, and the line fits; or it begins with a command behind
which the loop does not go on. -/
def TakesOneLine (s : MainLoop) (event : LoopEvent) : Prop :=
  ∀ line socketReady, s.place = .stdin line socketReady → event = .proceed →
    ExitFirst (line ++ s.stdin.buffer) ∨ OneLine commandRoom (line ++ s.stdin.buffer)

/-- The input ends behind whole lines only. -/
def EndsWhole (s : MainLoop) (event : LoopEvent) : Prop :=
  event = .stdinClosed → WholeLines (s.stdin.read ++ s.stdin.pending)

/-! ### The invariant -/

/-- The characters `fgets` has taken at a place. -/
def Place.line : Place → Bytes
  | stdin line _ => line
  | _ => []

/-- The places at which the loop is over. -/
def Place.ended : Place → Bool
  | exited => true
  | died => true
  | killed => true
  | crashed => true
  | _ => false

/-- The place is inside `fgets`. -/
def Place.reading : Place → Bool
  | stdin _ _ => true
  | _ => false

/-- The loop is over, or has executed whole lines and holds the rest of what was read, with no
line end in it between two calls. -/
def InStep (s : MainLoop) : Prop :=
  s.place.ended = true ∨
    ((s.stdin.closed = true → WholeLines (s.stdin.read ++ s.stdin.pending)) ∧
      (s.place.reading = false → newline ∉ s.stdin.buffer) ∧
      ∃ lines, s.executed = lines.map (· ++ [newline]) ∧ s.stdin.Behind lines s.place.line)

private theorem behindInput_spec (socketReady : Bool) :
    (MainLoop.behindInput socketReady).ended = false ∧
      (MainLoop.behindInput socketReady).line = [] ∧
      (MainLoop.behindInput socketReady).reading = false := by
  cases socketReady with
  | false => exact ⟨rfl, rfl, rfl⟩
  | true => exact ⟨rfl, rfl, rfl⟩

private theorem behindPacket_spec (packet : Packet) :
    (packet.stops = false ∧ MainLoop.behindPacket packet = .poll) ∨
      (packet.stops = true ∧ (MainLoop.behindPacket packet).ended = true) := by
  cases packet with
  | handed frame => exact .inl ⟨rfl, rfl⟩
  | invalidHeader header => exact .inl ⟨rfl, rfl⟩
  | _ => exact .inr ⟨rfl, rfl⟩

private theorem InStep.linesExecuted {s : MainLoop} (h : InStep s) (he : s.place.ended = false)
    (hr : s.place.reading = false) : LinesExecuted s := by
  obtain he' | ⟨-, hb, lines, hx, hbehind⟩ := h
  · rw [he] at he'
    cases he'
  · apply And.intro (hb hr)
    rw [hx, hbehind.completeLines_read (hb hr)]

private theorem execute_spec (s : MainLoop) (line : Bytes) (socketReady : Bool) :
    (s.execute line socketReady).executed = s.executed ++ [line] ∧
      (s.execute line socketReady).stdin = s.stdin ∧
      ((s.execute line socketReady).place.ended = true ∨
        (s.execute line socketReady).place = MainLoop.behindInput socketReady) := by
  unfold MainLoop.execute
  split
  · exact ⟨rfl, rfl, .inl rfl⟩
  · next out _ =>
    refine ⟨rfl, rfl, ?_⟩
    dsimp only
    split
    · exact .inl rfl
    · exact .inl rfl
    · exact .inr rfl

private theorem execute_exit (s : MainLoop) {line : Bytes} (socketReady : Bool)
    (h : (commandWords (cString (line ++ [0]))).head? = some exitWord) :
    (s.execute line socketReady).place = .exited := by
  obtain ⟨more, he⟩ := List.head?_eq_some_iff.mp h
  have hn : commandWords (cString (line ++ [0])) ≠ [] := by
    rw [he]
    exact List.cons_ne_nil _ _
  have hp := processInputComand_of_words (List.mem_append_right line List.mem_cons_self) hn
    s.answers
  rw [he, commandOutcome_exit] at hp
  rw [MainLoop.execute, hp]
  rfl

private theorem inStep_execute {s : MainLoop} {line text : Bytes} {later : Stdio}
    {lines : List Bytes} (socketReady : Bool)
    (hclosed : s.stdin.closed = true → WholeLines (s.stdin.read ++ s.stdin.pending))
    (hx : s.executed = lines.map (· ++ [newline])) (hbehind : s.stdin.Behind lines line)
    (ht : s.stdin.fgetsTurn commandRoom line = some (.taken text, later))
    (htake : ExitFirst (line ++ s.stdin.buffer) ∨ OneLine commandRoom (line ++ s.stdin.buffer)) :
    InStep (MainLoop.execute { s with stdin := later } text socketReady) := by
  obtain ⟨part, rest, hfirst, hn, hl, hw⟩ | ⟨hcount, hroom⟩ := htake
  · -- The first line asks for the end, whatever stands behind it.
    rw [hbehind.taken_of_line hfirst hn hl] at ht
    cases ht
    left
    rw [execute_exit _ _ hw]
    rfl
  obtain ⟨htext, hlater, hcases⟩ := hbehind.of_taken hclosed ht
  obtain ⟨hx', hstdin, hplace⟩ := execute_spec { s with stdin := later } text socketReady
  obtain hend | hgo := hplace
  · exact .inl hend
  rw [htext] at hcount hroom
  obtain ⟨hn, hge⟩ | ⟨part, rfl, hn, -⟩ := hcases
  · rw [firstLine_append hn, List.length_append] at hroom
    omega
  have hrest : newline ∉ later.buffer := by
    rw [List.count_append, List.count_append, List.count_singleton_self] at hcount
    exact List.count_eq_zero.mp (by omega)
  right
  refine ⟨?_, ?_, lines ++ [part], ?_, ?_⟩
  · intro hc
    rw [hstdin] at hc ⊢
    rw [hlater] at hc ⊢
    exact hclosed hc
  · intro _
    rw [hstdin]
    exact hrest
  · rw [hx', hx, List.map_append]
    rfl
  · rw [hgo, (behindInput_spec socketReady).2.1, hstdin, hlater]
    exact hbehind.push hn htext

private theorem oneLine_of_execute {s : MainLoop} {line text : Bytes} {later : Stdio}
    {lines : List Bytes} {socketReady : Bool}
    (hclosed : s.stdin.closed = true → WholeLines (s.stdin.read ++ s.stdin.pending))
    (hbehind : s.stdin.Behind lines line)
    (ht : s.stdin.fgetsTurn commandRoom line = some (.taken text, later))
    (hdone : LinesExecuted (MainLoop.execute { s with stdin := later } text socketReady)) :
    OneLine commandRoom (line ++ s.stdin.buffer) := by
  obtain ⟨htext, -, hcases⟩ := hbehind.of_taken hclosed ht
  obtain ⟨hx', hstdin, -⟩ := execute_spec { s with stdin := later } text socketReady
  obtain ⟨hb, hlines⟩ := hdone
  rw [hstdin] at hb hlines
  rw [htext]
  -- The last command executed is a complete line.
  have hmem : text ∈ (completeLines later.read).map (· ++ [newline]) := by
    rw [← hlines, hx']
    exact List.mem_append_right _ List.mem_cons_self
  obtain ⟨l, -, hl⟩ := List.mem_map.mp hmem
  obtain ⟨hn, -⟩ | ⟨part, rfl, hn, hlt⟩ := hcases
  · refine absurd ?_ hn
    rw [← hl]
    exact List.mem_append_right _ List.mem_cons_self
  · apply And.intro
    · rw [List.count_append, List.count_append, List.count_eq_zero.mpr hn,
        List.count_singleton_self, List.count_eq_zero.mpr hb]
    · rw [List.append_assoc, List.singleton_append, firstLine_of_line hn]
      exact hlt

/-- A turn inside `fgets` that takes at most one line keeps the invariant; and a turn behind
which the loop goes on with the lines read executed has taken at most one line. -/
theorem inStep_readInput {s t : MainLoop} {line : Bytes} {socketReady : Bool} (h : InStep s)
    (hp : s.place = .stdin line socketReady) (hs : s.readInput line socketReady = some t) :
    (ExitFirst (line ++ s.stdin.buffer) ∨ OneLine commandRoom (line ++ s.stdin.buffer) →
      InStep t) ∧
    (t.place.ended = false → t.place.reading = false → LinesExecuted t →
      OneLine commandRoom (line ++ s.stdin.buffer)) := by
  obtain he | ⟨hclosed, -, lines, hx, hbehind⟩ := h
  · rw [hp] at he
    cases he
  rw [hp, Place.line] at hbehind
  obtain ⟨⟨turn, later⟩, ht, rfl⟩ := Option.map_eq_some_iff.mp hs
  cases turn with
  | taken text =>
    constructor
    · exact inStep_execute socketReady hclosed hx hbehind ht
    · intro _ _ hdone
      exact oneLine_of_execute hclosed hbehind ht hdone
  | more line' =>
    obtain ⟨hb, rfl, hbehind', rfl⟩ := hbehind.of_more ht
    constructor
    · intro _
      right
      refine ⟨?_, fun hr ↦ absurd hr (Bool.noConfusion), lines, hx, hbehind'⟩
      intro hc
      show WholeLines (s.stdin.read ++ s.stdin.pending ++ [])
      rw [List.append_nil]
      exact hclosed hc
    · intro _ hread
      cases hread
  | endOfFile =>
    obtain ⟨hbehind', hnil, rfl⟩ := hbehind.of_endOfFile ht
    constructor
    · intro _
      right
      refine ⟨hclosed, fun _ ↦ List.not_mem_nil, lines, hx, ?_⟩
      show Stdio.Behind lines (MainLoop.behindInput socketReady).line _
      rw [(behindInput_spec socketReady).2.1]
      exact hbehind'
    · intro _ _ _
      rw [hnil]
      decide

/-- Every step of a run that takes one line at a time keeps the invariant; and a step behind
which the loop goes on with the lines read executed has taken one line at most. -/
theorem inStep_step {s t : MainLoop} {event : LoopEvent} (h : InStep s) (hw : EndsWhole s event)
    (hs : s.step event = some t) :
    (TakesOneLine s event → InStep t) ∧
      (t.place.ended = false → t.place.reading = false → LinesExecuted t →
        TakesOneLine s event) := by
  unfold MainLoop.step at hs
  -- Only a turn inside `fgets` can take a line.
  have hother (hn : event ≠ .proceed ∨ s.place.reading = false) (ht : InStep t) :
      (TakesOneLine s event → InStep t) ∧
        (t.place.ended = false → t.place.reading = false → LinesExecuted t →
          TakesOneLine s event) := by
    refine ⟨fun _ ↦ ht, fun _ _ _ line socketReady hp he ↦ ?_⟩
    obtain hn | hn := hn
    · exact absurd he hn
    · rw [hp] at hn
      cases hn
  cases event with
  | typed bytes =>
    obtain ⟨hc, hs⟩ := Option.ite_none_left_eq_some.mp hs
    cases hs
    apply hother (.inl (by simp))
    obtain he | ⟨hclosed, hb, lines, hx, hbehind⟩ := h
    · exact .inl he
    · refine .inr ⟨fun hc' ↦ absurd hc' hc, hb, lines, hx, ?_⟩
      exact ⟨hbehind.read_eq, hbehind.lines_whole, hbehind.line_open⟩
  | stdinClosed =>
    cases hs
    apply hother (.inl (by simp))
    obtain he | ⟨hclosed, hb, lines, hx, hbehind⟩ := h
    · exact .inl he
    · refine .inr ⟨fun _ ↦ hw rfl, hb, lines, hx, ?_⟩
      exact ⟨hbehind.read_eq, hbehind.lines_whole, hbehind.line_open⟩
  | poll stdinReady socketReady =>
    obtain ⟨⟨hp, -⟩, hs⟩ := Option.ite_none_right_eq_some.mp hs
    cases hs
    apply hother (.inl (by simp))
    obtain he | ⟨hclosed, hb, lines, hx, hbehind⟩ := h
    · rw [hp] at he
      cases he
    rw [hp] at hb hbehind
    refine .inr ⟨hclosed, fun _ ↦ hb rfl, lines, hx, ?_⟩
    cases stdinReady with
    | true => exact hbehind
    | false =>
      show Stdio.Behind lines (MainLoop.behindInput socketReady).line _
      rw [(behindInput_spec socketReady).2.1]
      exact hbehind
  | pollFails =>
    obtain ⟨-, hs⟩ := Option.ite_none_right_eq_some.mp hs
    cases hs
    exact hother (.inl (by simp)) (.inl rfl)
  | proceed =>
    dsimp only at hs
    split at hs
    · next line socketReady hp =>
      obtain ⟨hkeep, hexact⟩ := inStep_readInput h hp hs
      constructor
      · intro ht
        exact hkeep (ht line socketReady hp rfl)
      · intro he hr hx line' socketReady' hp' _
        obtain ⟨rfl, -⟩ := Place.stdin.inj (hp.symm.trans hp')
        exact .inr (hexact he hr hx)
    · cases hs
  | received behind =>
    obtain ⟨hp, hs⟩ := Option.ite_none_right_eq_some.mp hs
    obtain ⟨turn, -, hs⟩ := Option.bind_eq_some_iff.mp hs
    obtain ⟨text, -, rfl⟩ := Option.map_eq_some_iff.mp hs
    apply hother (.inl (by simp))
    obtain he | ⟨hclosed, hb, lines, hx, hbehind⟩ := h
    · rw [hp] at he
      cases he
    rw [hp] at hb hbehind
    obtain hgo | hend := behindPacket_spec turn.1
    · refine .inr ⟨hclosed, fun _ ↦ hb rfl, lines, hx, ?_⟩
      show Stdio.Behind lines (MainLoop.behindPacket turn.1).line _
      rw [hgo.2]
      exact hbehind
    · exact .inl hend.2

/-- In every run that takes one line at a time, each time the loop goes back to `poll` the
commands executed are the complete lines read, and none of them is left in the buffer; and
from any state of such a run a step behind which the loop goes on leaves it so only if it
takes one line at most. -/
theorem linesExecuted_of_reaches {wire : List Arrival} {answers : List SendAnswer} {s : MainLoop}
    (h : Reaches MainLoop.step (fun s event ↦ EndsWhole s event ∧ TakesOneLine s event)
      (MainLoop.initial wire answers) s) :
    (s.place = .poll → LinesExecuted s) ∧
      ∀ event t, EndsWhole s event → s.step event = some t → t.place.ended = false →
        t.place.reading = false → (LinesExecuted t ↔ TakesOneLine s event) := by
  have hstart : InStep (MainLoop.initial wire answers) := by
    refine .inr ⟨fun _ ↦ .inl rfl, fun _ ↦ List.not_mem_nil, [], rfl, rfl, ?_, List.not_mem_nil⟩
    intro line hm
    cases hm
  have hi : InStep s := h.invariant hstart fun _ _ _ hi ha hs ↦ (inStep_step hi ha.1 hs).1 ha.2
  constructor
  · intro hp
    exact hi.linesExecuted (by rw [hp]; rfl) (by rw [hp]; rfl)
  · intro event t hw hs he hr
    obtain ⟨hkeep, hexact⟩ := inStep_step hi hw hs
    constructor
    · exact hexact he hr
    · intro ht
      exact (hkeep ht).linesExecuted he hr

/-- Two lines that arrive one after the other, the second one in two parts, are executed. -/
theorem linesExecuted_of_twoTurns :
    ∃ s, Reaches MainLoop.step (fun s event ↦ EndsWhole s event ∧ TakesOneLine s event)
        (MainLoop.initial [] []) s ∧
      s.place = .poll ∧ s.executed.length = 2 ∧ LinesExecuted s := by
  let test (s : MainLoop) (event : LoopEvent) : Bool :=
    event ≠ .stdinClosed ∧ OneLine commandRoom (s.place.line ++ s.stdin.buffer)
  have hrun : (exec (guarded test MainLoop.step) (MainLoop.initial [] [])
      [.typed (subscribeWord ++ [32, 97, 10]), .poll true false, .proceed, .proceed,
        .typed unsubscribeWord, .poll true false, .proceed, .typed [32, 97, 10], .proceed,
        .proceed]).any
        (fun s ↦ decide (s.place = .poll ∧ s.executed.length = 2)) = true := by decide +kernel
  obtain ⟨s, hs, hp, hx⟩ := exists_exec hrun
  have hr : Reaches MainLoop.step (fun s event ↦ EndsWhole s event ∧ TakesOneLine s event)
      (MainLoop.initial [] []) s := by
    apply reaches_of_guarded (fun s event ht ↦ ?_) .refl hs
    obtain ⟨hc, hone⟩ := of_decide_eq_true ht
    apply And.intro
    · intro he
      exact absurd he hc
    · intro line socketReady hplace _
      rw [hplace, Place.line] at hone
      exact .inr hone
  exact ⟨s, hr, hp, hx, (linesExecuted_of_reaches hr).1 hp⟩

/-- The bytes typed in the course of some events. -/
def typedBytes (events : List LoopEvent) : Bytes :=
  events.flatMap fun event ↦ match event with
    | .typed bytes => bytes
    | _ => []

/-- A text of complete lines, each of which has a word. -/
def CommandLines (text : Bytes) : Prop :=
  WholeLines text ∧ ∀ line ∈ completeLines text, ∃ b ∈ line, isDelimiter b = false

/-- Of two lines that arrive together the second one stays in the buffer. -/
theorem not_linesExecuted_of_twoLines :
    ¬ ∀ (wire : List Arrival) (answers : List SendAnswer) (events : List LoopEvent)
      (s : MainLoop), CommandLines (typedBytes events) →
        exec MainLoop.step (MainLoop.initial wire answers) events = some s → s.place = .poll →
          LinesExecuted s := by
  intro h
  have hrun : (exec MainLoop.step (MainLoop.initial [] [])
      [.typed (subscribeWord ++ [32, 97, 10] ++ (subscribeWord ++ [32, 98, 10])),
        .poll true false, .proceed, .proceed]).any
          (fun s ↦ decide (s.place = .poll ∧ newline ∈ s.stdin.buffer)) = true := by decide +kernel
  obtain ⟨s, hs, hp, hb⟩ := exists_exec hrun
  exact (h [] [] _ s ⟨.inr (by decide), by decide⟩ hs hp).1 hb

end Broker.Subscriber
