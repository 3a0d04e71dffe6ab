import Broker.Base.Stream

/-!
# `sendall` and `recvall`

The two loops of `utils.cpp:24–66`. A `send` on a connection that the peer has reset
raises `SIGPIPE`, whose default action kills the process inside the loop. A blocking
`recv` sleeps through the moments at which nothing has arrived; when nothing ever
arrives the loop has no result.
-/

namespace Broker.Net
open Broker.Base

/-- How a call of `sendall` ends. -/
inductive SendStatus
  | done
  | error
  | killed
  deriving DecidableEq

/-- The bytes a call of `sendall` got rid of, its end, and the answers it left unused. -/
structure SendOutcome where
  written : Bytes
  status : SendStatus
  answers : List SendAnswer

/-- `sendall`, `utils.cpp:24–39`. Where no answer is prescribed the kernel takes everything. -/
def sendall (data : Bytes) : List SendAnswer → SendOutcome
  | [] => ⟨data, .done, []⟩
  | answer :: answers =>
    if data = [] then ⟨[], .done, answer :: answers⟩ else
      match answer with
      | .sent more =>
        let rest := sendall (data.drop (more + 1)) answers
        ⟨data.take (more + 1) ++ rest.written, rest.status, rest.answers⟩
      | .failed => ⟨[], .error, answers⟩
      | .reset => ⟨[], .killed, answers⟩

/-- How a call of `recvall` ends: all bytes, an early end of the stream, or an error. -/
inductive RecvallResult
  | complete (data : Bytes)
  | closed
  | failed
  deriving DecidableEq

/-- The loop of `recvall` with the bytes it has and the number it still needs. -/
def recvallLoop (data : Bytes) (remaining : Nat) :
    List Arrival → Option (RecvallResult × List Arrival)
  | [] => if remaining = 0 then some (.complete data, []) else none
  | arrival :: later =>
    if remaining = 0 then some (.complete data, arrival :: later) else
      match arrival with
      | .segment first rest =>
        if rest.length < remaining then
          recvallLoop (data ++ first :: rest) (remaining - (rest.length + 1)) later
        else
          some (.complete (data ++ (first :: rest).take remaining),
            pushFront ((first :: rest).drop remaining) later)
      | .gap => recvallLoop data remaining later
      | .interrupted => recvallLoop data remaining later
      | .fin => some (.closed, .fin :: later)
      | .failed => some (.failed, later)

/-- `recvall`, `utils.cpp:41–66`. -/
def recvall (size : Nat) (wire : List Arrival) : Option (RecvallResult × List Arrival) :=
  recvallLoop [] size wire

/-! ### The writing side -/

/-- Nothing to send needs no call. -/
@[simp] theorem sendall_nil (answers : List SendAnswer) :
    sendall [] answers = ⟨[], .done, answers⟩ := by
  cases answers <;> simp [sendall]

/-- Whatever the answers, a prefix of the data is written, and all of it exactly on success. -/
theorem sendall_spec (data : Bytes) (answers : List SendAnswer) :
    (sendall data answers).written <+: data ∧
      ((sendall data answers).status = .done ↔ (sendall data answers).written = data) := by
  induction answers generalizing data with
  | nil => simp [sendall]
  | cons answer answers ih =>
    by_cases hd : data = []
    · simp [hd]
    · cases answer with
      | sent more =>
        obtain ⟨hp, hs⟩ := ih (data.drop (more + 1))
        simp only [sendall, hd, ↓reduceIte]
        constructor
        · conv_rhs => rw [← List.take_append_drop (more + 1) data]
          exact (List.prefix_append_right_inj _).mpr hp
        · rw [hs]
          conv_rhs => rhs; rw [← List.take_append_drop (more + 1) data]
          exact (List.append_right_inj _).symm
      | failed => simp [sendall, hd, Ne.symm hd]
      | reset => simp [sendall, hd, Ne.symm hd]

/-- What is written is a prefix of the data. -/
theorem prefix_of_sendall (data : Bytes) (answers : List SendAnswer) :
    (sendall data answers).written <+: data := (sendall_spec data answers).1

/-- A successful call has written all of the data. -/
theorem sendall_written_of_done {data : Bytes} {answers : List SendAnswer}
    (h : (sendall data answers).status = .done) : (sendall data answers).written = data :=
  (sendall_spec data answers).2.mp h

/-- Positive answers only: the call succeeds and leaves only positive answers. -/
theorem sendall_of_reliable (data : Bytes) {answers : List SendAnswer} (h : Reliable answers) :
    (sendall data answers).status = .done ∧ Reliable (sendall data answers).answers := by
  induction answers generalizing data with
  | nil => exact ⟨rfl, h⟩
  | cons answer answers ih =>
    by_cases hd : data = []
    · simpa [hd] using h
    · obtain ⟨more, rfl⟩ := h answer (by simp)
      simp only [sendall, hd, ↓reduceIte]
      exact ih _ h.tail

/-- The next `needed` bytes that are sent meet a connection the peer has reset. -/
def resetWithin (needed : Nat) : List SendAnswer → Bool
  | [] => false
  | answer :: answers =>
    if needed = 0 then false else
      match answer with
      | .sent more => resetWithin (needed - (more + 1)) answers
      | .failed => false
      | .reset => true

/-- A call of `sendall` kills the process exactly when its bytes meet a reset connection. -/
theorem sendall_killed_iff (data : Bytes) (answers : List SendAnswer) :
    (sendall data answers).status = .killed ↔ resetWithin data.length answers = true := by
  induction answers generalizing data with
  | nil => simp [sendall, resetWithin]
  | cons answer answers ih =>
    by_cases hd : data = []
    · simp [hd, resetWithin]
    · simp only [sendall, resetWithin, hd, List.length_eq_zero_iff, ↓reduceIte]
      cases answer with
      | sent more => rw [ih, List.length_drop]
      | failed => simp
      | reset => simp

/-! ### The reading side -/

private theorem closes_of_recvallLoop {data : Bytes} {remaining : Nat}
    {wire later : List Arrival} {result : RecvallResult} (h : Closes wire)
    (hr : recvallLoop data remaining wire = some (result, later)) : Closes later := by
  induction wire generalizing data remaining with
  | nil => exact h.elim
  | cons arrival wire ih =>
    unfold recvallLoop at hr
    split at hr
    · cases hr
      exact h
    · cases arrival with
      | segment first rest =>
        dsimp only at hr
        split at hr
        · exact ih h hr
        · cases hr
          exact (closes_pushFront _ _).mpr h
      | gap => exact ih h hr
      | interrupted => exact ih h hr
      | fin =>
        cases hr
        exact h
      | failed => exact h.elim

private theorem recvallLoop_of_lt (data : Bytes) {remaining : Nat} {wire : List Arrival}
    (h : Closes wire) (hlt : (payload wire).length < remaining) :
    ∃ later, recvallLoop data remaining wire = some (.closed, later) := by
  induction wire generalizing data remaining with
  | nil => exact h.elim
  | cons arrival wire ih =>
    have hr : remaining ≠ 0 := Nat.ne_zero_of_lt hlt
    simp only [recvallLoop, hr, ↓reduceIte]
    cases arrival with
    | segment first rest =>
      simp only [payload, List.cons_append, List.length_cons, List.length_append] at hlt
      have hl : rest.length < remaining := by omega
      dsimp only
      rw [if_pos hl]
      exact ih _ h (by omega)
    | gap => exact ih data h hlt
    | interrupted => exact ih data h hlt
    | fin => exact ⟨_, rfl⟩
    | failed => exact h.elim

/-- A successful read has its full size, and its bytes are the next ones of the stream. -/
theorem recvallLoop_complete {data got : Bytes} {remaining : Nat} {wire later : List Arrival}
    (h : recvallLoop data remaining wire = some (.complete got, later)) :
    got.length = data.length + remaining ∧ data ++ payload wire = got ++ payload later := by
  induction wire generalizing data remaining with
  | nil =>
    unfold recvallLoop at h
    split at h
    · next hr =>
      cases h
      exact ⟨by rw [hr]; rfl, rfl⟩
    · cases h
  | cons arrival wire ih =>
    unfold recvallLoop at h
    split at h
    · next hr =>
      cases h
      exact ⟨by rw [hr]; rfl, rfl⟩
    · next hr =>
      cases arrival with
      | segment first rest =>
        dsimp only at h
        split at h
        · next hl =>
          obtain ⟨hlen, hp⟩ := ih h
          refine ⟨?_, ?_⟩
          · rw [hlen, List.length_append, List.length_cons]
            omega
          · rw [← hp, payload, List.append_assoc]
        · next hl =>
          cases h
          refine ⟨?_, ?_⟩
          · rw [List.length_append, List.length_take, List.length_cons]
            omega
          · rw [payload_pushFront, List.append_assoc, ← List.append_assoc (List.take _ _),
              List.take_append_drop, payload]
      | gap => exact ih h
      | interrupted => exact ih h
      | fin => cases h
      | failed => cases h

/-- A successful `recvall` returns the next `size` bytes of the stream. -/
theorem recvall_complete {size : Nat} {got : Bytes} {wire later : List Arrival}
    (h : recvall size wire = some (.complete got, later)) :
    got.length = size ∧ payload wire = got ++ payload later := by
  simpa using recvallLoop_complete h

private theorem recvallLoop_of_le (data : Bytes) {remaining : Nat} {wire : List Arrival}
    (h : remaining ≤ (payload wire).length) :
    ∃ got later, recvallLoop data remaining wire = some (.complete got, later) := by
  induction wire generalizing data remaining with
  | nil => exact ⟨data, [], if_pos (Nat.le_zero.mp h)⟩
  | cons arrival wire ih =>
    by_cases hr : remaining = 0
    · exact ⟨data, arrival :: wire, if_pos hr⟩
    · simp only [recvallLoop, hr, ↓reduceIte]
      cases arrival with
      | segment first rest =>
        dsimp only
        split
        · apply ih
          simp only [payload, List.cons_append, List.length_cons, List.length_append] at h
          omega
        · exact ⟨_, _, rfl⟩
      | gap => exact ih data h
      | interrupted => exact ih data h
      | fin => exact absurd (Nat.le_zero.mp h) hr
      | failed => exact absurd (Nat.le_zero.mp h) hr

/-- The loop waits for ever exactly where too few bytes come and no end. -/
theorem recvallLoop_eq_none_iff (data : Bytes) {remaining : Nat} {wire : List Arrival} :
    recvallLoop data remaining wire = none ↔ (payload wire).length < remaining ∧ ¬ Ends wire := by
  induction wire generalizing data remaining with
  | nil =>
    rw [recvallLoop, payload, Ends]
    split
    · next hr => simp [hr]
    · next hr => simp [Nat.pos_of_ne_zero hr]
  | cons arrival wire ih =>
    by_cases hr : remaining = 0
    · simp [recvallLoop, hr]
    · have hpos := Nat.pos_of_ne_zero hr
      simp only [recvallLoop, hr, ↓reduceIte]
      cases arrival with
      | segment first rest =>
        dsimp only
        rw [payload, Ends, List.cons_append, List.length_cons, List.length_append]
        split
        · rw [ih]
          exact and_congr_left' (by omega)
        · next hl => exact iff_of_false (Option.some_ne_none _) fun hn ↦ by omega
      | gap => exact ih data
      | interrupted => exact ih data
      | fin => exact iff_of_false (Option.some_ne_none _) fun hn ↦ hn.2 trivial
      | failed => exact iff_of_false (Option.some_ne_none _) fun hn ↦ hn.2 trivial

/-- Bytes that have been sent are got, however the stream goes on behind them. -/
theorem recvall_of_le (size : Nat) {wire : List Arrival} (hle : size ≤ (payload wire).length) :
    ∃ later, (Closes wire → Closes later) ∧ payload later = (payload wire).drop size ∧
      recvall size wire = some (.complete ((payload wire).take size), later) := by
  obtain ⟨got, later, hr⟩ := recvallLoop_of_le [] hle
  obtain ⟨rfl, hp⟩ := recvall_complete hr
  refine ⟨later, fun h ↦ closes_of_recvallLoop h hr, ?_, ?_⟩
  · rw [hp, List.drop_left]
  · rw [recvall, hr, hp, List.take_left]

/-- On a stream that closes too early `recvall` reports the end. -/
theorem recvall_of_lt (size : Nat) {wire : List Arrival} (h : Closes wire)
    (hlt : (payload wire).length < size) : ∃ later, recvall size wire = some (.closed, later) :=
  recvallLoop_of_lt [] h hlt

end Broker.Net
