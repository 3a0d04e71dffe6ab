import Broker.Base.Bytes

/-!
# Lines entered and lines read

The complete lines of an input, and the characters `fgets` takes from it: up to and with a
newline, or up to its room inside a longer line. A reader that has met no end of input is
inside a line by a whole number of its rooms.
-/

namespace Broker.Base

/-- The newline character. -/
def newline : UInt8 := 10

/-- The complete lines of an input behind the characters `line` of its first line. -/
def linesLoop (line : Bytes) : Bytes → List Bytes
  | [] => []
  | b :: rest => if b = newline then line :: linesLoop [] rest else linesLoop (line ++ [b]) rest

/-- The lines of an input that a newline ends. -/
def completeLines (input : Bytes) : List Bytes := linesLoop [] input

/-- The characters `fgets` takes when it may take `room` more: up to a newline, up to its
room, or, with `none`, more than have been entered. -/
def fgetsLine : Nat → Bytes → Option (Bytes × Bytes)
  | 0, rest => some ([], rest)
  | _ + 1, [] => none
  | room + 1, b :: rest =>
    if b = newline then some ([b], rest)
    else (fgetsLine room rest).map fun taken ↦ (b :: taken.1, taken.2)

/-- Characters other than newlines go on with the line. -/
theorem linesLoop_append (line : Bytes) {part : Bytes} (h : newline ∉ part) (rest : Bytes) :
    linesLoop line (part ++ rest) = linesLoop (line ++ part) rest := by
  induction part generalizing line with
  | nil => rw [List.nil_append, List.append_nil]
  | cons b part ih =>
    obtain ⟨hb, hp⟩ := not_or.mp (List.mem_cons.not.mp h)
    rw [List.cons_append, linesLoop, if_neg (Ne.symm hb), ih _ hp, List.append_assoc]
    rfl

/-- A newline ends the line. -/
theorem linesLoop_newline (line rest : Bytes) :
    linesLoop line (newline :: rest) = line :: linesLoop [] rest := by
  rw [linesLoop, if_pos rfl]

/-- What is taken is a part of a line that fills the room, or the rest of a line. -/
theorem fgetsLine_eq_some {room : Nat} {input line rest : Bytes}
    (h : fgetsLine room input = some (line, rest)) :
    input = line ++ rest ∧ (newline ∉ line ∧ line.length = room ∨
      ∃ part, newline ∉ part ∧ line = part ++ [newline]) := by
  induction room generalizing input line with
  | zero =>
    cases h
    exact ⟨rfl, .inl ⟨List.not_mem_nil, rfl⟩⟩
  | succ room ih =>
    cases input with
    | nil => cases h
    | cons b input =>
      rw [fgetsLine] at h
      split at h
      · next hb =>
        cases h
        exact ⟨rfl, .inr ⟨[], List.not_mem_nil, by rw [hb]; rfl⟩⟩
      · next hb =>
        obtain ⟨⟨taken, left⟩, ht, he⟩ := Option.map_eq_some_iff.mp h
        cases he
        have hm (part : Bytes) (hp : newline ∉ part) : newline ∉ b :: part :=
          List.mem_cons.not.mpr (not_or.mpr ⟨Ne.symm hb, hp⟩)
        obtain ⟨rfl, ⟨hn, hl⟩ | ⟨part, hn, rfl⟩⟩ := ih ht
        · exact ⟨rfl, .inl ⟨hm taken hn, by rw [List.length_cons, hl]⟩⟩
        · exact ⟨rfl, .inr ⟨b :: part, hm part hn, rfl⟩⟩

/-- Input that has to be waited for holds no newline yet. -/
theorem newline_notMem_of_fgetsLine {room : Nat} {input : Bytes}
    (h : fgetsLine room input = none) : newline ∉ input := by
  induction room generalizing input with
  | zero => cases h
  | succ room ih =>
    cases input with
    | nil => exact List.not_mem_nil
    | cons b input =>
      rw [fgetsLine] at h
      split at h
      · cases h
      · next hb =>
        exact List.mem_cons.not.mpr (not_or.mpr ⟨Ne.symm hb, ih (Option.map_eq_none_iff.mp h)⟩)

/-- Input has to be waited for exactly where it holds no newline and does not fill the room. -/
theorem fgetsLine_eq_none_iff {room : Nat} {input : Bytes} :
    fgetsLine room input = none ↔ newline ∉ input ∧ input.length < room := by
  induction room generalizing input with
  | zero => exact iff_of_false (Option.some_ne_none _) fun h ↦ Nat.not_lt_zero _ h.2
  | succ room ih =>
    cases input with
    | nil => exact iff_of_true rfl ⟨List.not_mem_nil, Nat.succ_pos room⟩
    | cons b input =>
      rw [fgetsLine, List.mem_cons, not_or, List.length_cons, Nat.succ_lt_succ_iff]
      split
      · next hb => exact iff_of_false (Option.some_ne_none _) fun h ↦ h.1.1 hb.symm
      · next hb => rw [Option.map_eq_none_iff, ih, and_assoc, and_iff_right (Ne.symm hb)]

end Broker.Base
