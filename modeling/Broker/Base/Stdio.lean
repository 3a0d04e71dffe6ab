import Broker.Base.Lines

/-!
# Lines read through a buffer

A stdio stream over a descriptor: the reader takes bytes from a buffer in its own memory, and
when that is used up one read moves all bytes that have arrived into it. Whoever looks at the
descriptor sees only what has not been read. Lines are taken one by one and whole as long as
no read brings the end of a second line and no line fills the reader's room.
-/

namespace Broker.Base

/-- A stdio stream and what has been read for it. -/
structure Stdio where
  /-- The bytes in the kernel. -/
  pending : Bytes
  /-- The bytes read and not yet taken. -/
  buffer : Bytes
  /-- All bytes read so far. -/
  read : Bytes
  /-- No more bytes will arrive. -/
  closed : Bool
  deriving DecidableEq

/-- What one turn of the loop inside `fgets` comes to. -/
inductive FgetsTurn
  /-- The call returns these characters. -/
  | taken (line : Bytes)
  /-- The buffer has been filled again behind these characters. -/
  | more (line : Bytes)
  /-- The call returns `NULL`. -/
  | endOfFile

namespace Stdio

/-- A stream that nothing has been typed into. -/
def fresh : Stdio := ⟨[], [], [], false⟩

/-- Bytes arrive. -/
def enter (stdin : Stdio) (bytes : Bytes) : Stdio :=
  { stdin with pending := stdin.pending ++ bytes }

/-- The stream ends behind the bytes that have arrived. -/
def close (stdin : Stdio) : Stdio := { stdin with closed := true }

/-- One turn of the loop inside `fgets`, with the characters of `line` already taken and space
for `room` in all. It has no result while it waits for bytes to arrive. -/
def fgetsTurn (room : Nat) (line : Bytes) (stdin : Stdio) : Option (FgetsTurn × Stdio) :=
  match fgetsLine (room - line.length) stdin.buffer with
  | some (part, rest) => some (.taken (line ++ part), { stdin with buffer := rest })
  | none =>
    let line := line ++ stdin.buffer
    if stdin.pending ≠ [] then
      some (.more line,
        { stdin with
          pending := []
          buffer := stdin.pending
          read := stdin.read ++ stdin.pending })
    else if stdin.closed then
      some (if line = [] then .endOfFile else .taken line, { stdin with buffer := [] })
    else none

/-- A turn takes what ends a line or fills the room, or fills the buffer again, or meets the end
of the input. -/
theorem fgetsTurn_cases {room : Nat} {line : Bytes} {stdin later : Stdio} {turn : FgetsTurn}
    (h : stdin.fgetsTurn room line = some (turn, later)) :
    (∃ part rest, fgetsLine (room - line.length) stdin.buffer = some (part, rest) ∧
      turn = .taken (line ++ part) ∧ later = { stdin with buffer := rest }) ∨
    (newline ∉ stdin.buffer ∧ turn = .more (line ++ stdin.buffer) ∧
      later = ⟨[], stdin.pending, stdin.read ++ stdin.pending, stdin.closed⟩) ∨
    (newline ∉ stdin.buffer ∧ stdin.pending = [] ∧ stdin.closed = true ∧
      turn = (if line ++ stdin.buffer = [] then .endOfFile else .taken (line ++ stdin.buffer)) ∧
      later = { stdin with buffer := [] }) := by
  unfold fgetsTurn at h
  split at h
  · next part rest hf =>
    cases h
    exact .inl ⟨part, rest, hf, rfl, rfl⟩
  · next hf =>
    have hb := newline_notMem_of_fgetsLine hf
    split at h
    · cases h
      exact .inr (.inl ⟨hb, rfl, rfl⟩)
    · next hp =>
      split at h
      · next hc =>
        cases h
        exact .inr (.inr ⟨hb, not_not.mp hp, hc, rfl, rfl⟩)
      · cases h

end Stdio

/-! ### What is read and what is taken -/

private theorem length_le_of_fgetsLine {room : Nat} {input line rest : Bytes}
    (h : fgetsLine room input = some (line, rest)) : line.length ≤ room := by
  induction room generalizing input line with
  | zero =>
    cases h
    exact Nat.le_refl 0
  | succ room ih =>
    cases input with
    | nil => cases h
    | cons b input =>
      rw [fgetsLine] at h
      split at h
      · cases h
        exact Nat.succ_le_succ (Nat.zero_le room)
      · obtain ⟨taken, ht, he⟩ := Option.map_eq_some_iff.mp h
        cases he
        exact Nat.succ_le_succ (ih ht)

/-- A line with its newline in the room is taken whole. -/
theorem fgetsLine_of_line {room : Nat} {line rest : Bytes} (hn : newline ∉ line)
    (hr : line.length < room) :
    fgetsLine room (line ++ newline :: rest) = some (line ++ [newline], rest) := by
  induction line generalizing room with
  | nil =>
    obtain ⟨more, rfl⟩ := Nat.exists_eq_succ_of_ne_zero (Nat.ne_of_gt hr)
    rw [List.nil_append, fgetsLine, if_pos rfl]
    rfl
  | cons b line ih =>
    rw [List.length_cons] at hr
    obtain ⟨more, rfl⟩ := Nat.exists_eq_succ_of_ne_zero (Nat.ne_of_gt (Nat.zero_lt_of_lt hr))
    obtain ⟨hb, hl⟩ := not_or.mp (List.mem_cons.not.mp hn)
    rw [List.cons_append, fgetsLine, if_neg (Ne.symm hb), ih hl (by omega)]
    rfl

/-- The characters of a text in front of its first newline. -/
def firstLine (text : Bytes) : Bytes := text.takeWhile (· ≠ newline)

/-- A text with at most one newline, and in front of it less than the room. -/
def OneLine (room : Nat) (text : Bytes) : Prop :=
  text.count newline ≤ 1 ∧ (firstLine text).length < room

instance (room : Nat) (text : Bytes) : Decidable (OneLine room text) := by
  unfold OneLine
  infer_instance

/-- A text of whole lines only. -/
def WholeLines (text : Bytes) : Prop := text = [] ∨ text.getLast? = some newline

/-- The bytes read are some whole lines, the characters of `line`, and the buffer. -/
structure Stdio.Behind (lines : List Bytes) (line : Bytes) (stdin : Stdio) : Prop where
  read_eq : stdin.read = lines.flatMap (· ++ [newline]) ++ (line ++ stdin.buffer)
  lines_whole : ∀ l ∈ lines, newline ∉ l
  line_open : newline ∉ line

/-- Characters other than newlines in front are in front of the first newline. -/
theorem firstLine_append {part : Bytes} (h : newline ∉ part) (rest : Bytes) :
    firstLine (part ++ rest) = part ++ firstLine rest := by
  apply List.takeWhile_append_of_pos
  intro b hb
  rw [decide_eq_true_eq]
  rintro rfl
  exact h hb

/-- The first line ends at its newline. -/
theorem firstLine_of_line {part : Bytes} (h : newline ∉ part) (rest : Bytes) :
    firstLine (part ++ newline :: rest) = part := by
  rw [firstLine_append h, firstLine, List.takeWhile_cons_of_neg (by simp), List.append_nil]

private theorem linesLoop_of_notMem (line : Bytes) {part : Bytes} (h : newline ∉ part) :
    linesLoop line part = [] := by
  rw [← List.append_nil part, linesLoop_append line h, linesLoop]

/-- Whole lines in front come first. -/
theorem completeLines_flatMap {lines : List Bytes} (h : ∀ line ∈ lines, newline ∉ line)
    (rest : Bytes) :
    completeLines (lines.flatMap (· ++ [newline]) ++ rest) = lines ++ completeLines rest := by
  induction lines with
  | nil => rfl
  | cons line lines ih =>
    have hl : newline ∉ line := h line List.mem_cons_self
    have ht := ih fun l hm ↦ h l (List.mem_cons_of_mem line hm)
    rw [completeLines] at ht ⊢
    rw [List.flatMap_cons, List.append_assoc, List.append_assoc, linesLoop_append _ hl,
      List.singleton_append, linesLoop_newline, List.nil_append, ht]
    rfl

namespace Stdio.Behind

variable {lines : List Bytes} {line : Bytes} {stdin : Stdio}

/-- Where no newline is left in the buffer, the lines taken are the complete lines read. -/
theorem completeLines_read (h : stdin.Behind lines line) (hb : newline ∉ stdin.buffer) :
    completeLines stdin.read = lines := by
  have hn : newline ∉ line ++ stdin.buffer := by
    rw [List.mem_append]
    exact not_or.mpr ⟨h.line_open, hb⟩
  rw [h.read_eq, completeLines_flatMap h.lines_whole, completeLines, linesLoop_of_notMem [] hn,
    List.append_nil]

private theorem nil_of_wholeLines (h : stdin.Behind lines line) (hb : newline ∉ stdin.buffer)
    (hw : WholeLines stdin.read) : line ++ stdin.buffer = [] := by
  by_contra hn
  have hlast : stdin.read.getLast? = (line ++ stdin.buffer).getLast? := by
    obtain ⟨front, last, he⟩ := (List.eq_nil_or_concat (line ++ stdin.buffer)).resolve_left hn
    rw [h.read_eq, he, List.getLast?_append, List.concat_eq_append, List.getLast?_concat,
      Option.some_or]
  obtain hr | hr := hw
  · rw [h.read_eq] at hr
    exact hn (List.append_eq_nil_iff.mp hr).2
  · rw [hlast] at hr
    obtain hm | hm := List.mem_append.mp (List.mem_of_getLast? hr)
    · exact h.line_open hm
    · exact hb hm

/-- A turn that fills the buffer again is still behind the same lines. -/
theorem of_more {room : Nat} {later : Stdio} {line' : Bytes} (h : stdin.Behind lines line)
    (ht : stdin.fgetsTurn room line = some (.more line', later)) :
    newline ∉ stdin.buffer ∧ line' = line ++ stdin.buffer ∧ later.Behind lines line' ∧
      later = ⟨[], stdin.pending, stdin.read ++ stdin.pending, stdin.closed⟩ := by
  obtain ⟨part, rest, -, he, -⟩ | ⟨hb, he, rfl⟩ | ⟨-, -, -, he, -⟩ := fgetsTurn_cases ht
  · cases he
  · cases he
    refine ⟨hb, rfl, ⟨?_, h.lines_whole, ?_⟩, rfl⟩
    · show stdin.read ++ stdin.pending = _
      rw [h.read_eq, List.append_assoc]
    · rw [List.mem_append]
      exact not_or.mpr ⟨h.line_open, hb⟩
  · split at he <;> cases he

/-- A call that returns characters has taken a whole line that fits, or the room is full and
the line goes on. -/
theorem of_taken {room : Nat} {later : Stdio} {text : Bytes} (h : stdin.Behind lines line)
    (hw : stdin.closed = true → WholeLines (stdin.read ++ stdin.pending))
    (ht : stdin.fgetsTurn room line = some (.taken text, later)) :
    line ++ stdin.buffer = text ++ later.buffer ∧ later = { stdin with buffer := later.buffer } ∧
      (newline ∉ text ∧ room ≤ text.length ∨
        ∃ part, text = part ++ [newline] ∧ newline ∉ part ∧ part.length < room) := by
  obtain ⟨part, rest, hf, he, rfl⟩ | ⟨-, he, -⟩ | ⟨hb, hp, hc, he, rfl⟩ := fgetsTurn_cases ht
  · cases he
    obtain ⟨hp, hcases⟩ := fgetsLine_eq_some hf
    refine ⟨by rw [hp, List.append_assoc], rfl, ?_⟩
    obtain ⟨hn, hl⟩ | ⟨front, hn, rfl⟩ := hcases
    · left
      rw [List.mem_append, List.length_append, hl]
      exact ⟨not_or.mpr ⟨h.line_open, hn⟩, by omega⟩
    · right
      refine ⟨line ++ front, (List.append_assoc ..).symm, ?_, ?_⟩
      · rw [List.mem_append]
        exact not_or.mpr ⟨h.line_open, hn⟩
      · have hle := length_le_of_fgetsLine hf
        rw [List.length_append, List.length_singleton] at hle
        rw [List.length_append]
        omega
  · cases he
  · -- The input ends between two lines, so no characters are left for the call.
    have hwhole := hw hc
    rw [hp, List.append_nil] at hwhole
    rw [if_pos (h.nil_of_wholeLines hb hwhole)] at he
    cases he

/-- A whole line that is taken is one of the lines read. -/
theorem push {part rest : Bytes} (h : stdin.Behind lines line) (hn : newline ∉ part)
    (ht : line ++ stdin.buffer = part ++ [newline] ++ rest) :
    Stdio.Behind (lines ++ [part]) [] { stdin with buffer := rest } where
  read_eq := by
    show stdin.read = _
    rw [h.read_eq, ht, List.flatMap_append, List.flatMap_singleton]
    simp only [List.append_assoc, List.nil_append]
  lines_whole := by
    intro l hm
    obtain hm | hm := List.mem_append.mp hm
    · exact h.lines_whole l hm
    · rw [List.mem_singleton.mp hm]
      exact hn
  line_open := List.not_mem_nil

/-- A call that finds the rest of a line with a newline in its room takes it. -/
theorem taken_of_line {room : Nat} {part rest : Bytes} (h : stdin.Behind lines line)
    (ht : line ++ stdin.buffer = part ++ newline :: rest) (hn : newline ∉ part)
    (hr : part.length < room) :
    stdin.fgetsTurn room line =
      some (.taken (part ++ [newline]), { stdin with buffer := rest }) := by
  -- The characters taken before have no newline, so the newline is in the buffer.
  obtain ⟨front, rfl, hb⟩ : ∃ front, part = line ++ front ∧
      stdin.buffer = front ++ newline :: rest := by
    obtain ⟨front, hp, hb⟩ | ⟨more, hl, hm⟩ := List.append_eq_append_iff.mp ht
    · exact ⟨front, hp, hb⟩
    · cases more with
      | nil => exact ⟨[], by rw [hl, List.append_nil, List.append_nil], hm.symm⟩
      | cons b more =>
        refine absurd ?_ h.line_open
        rw [hl, ← (List.cons.inj hm).1]
        exact List.mem_append_right _ List.mem_cons_self
  have hf : fgetsLine (room - line.length) (front ++ newline :: rest) =
      some (front ++ [newline], rest) := by
    apply fgetsLine_of_line
    · exact fun hm ↦ hn (List.mem_append_right _ hm)
    · rw [List.length_append] at hr
      omega
  rw [Stdio.fgetsTurn, hb, hf]
  simp only [List.append_assoc]

/-- A call that returns `NULL` has taken nothing, and nothing is left. -/
theorem of_endOfFile {room : Nat} {later : Stdio} (h : stdin.Behind lines line)
    (ht : stdin.fgetsTurn room line = some (.endOfFile, later)) :
    later.Behind lines [] ∧ line ++ stdin.buffer = [] ∧ later = { stdin with buffer := [] } := by
  obtain ⟨part, rest, -, he, -⟩ | ⟨-, he, -⟩ | ⟨-, -, -, he, rfl⟩ := fgetsTurn_cases ht
  · cases he
  · cases he
  · split at he
    · next hn =>
      refine ⟨⟨?_, h.lines_whole, List.not_mem_nil⟩, hn, rfl⟩
      show stdin.read = _
      rw [h.read_eq, hn]
      rfl
    · cases he

end Stdio.Behind
end Broker.Base
