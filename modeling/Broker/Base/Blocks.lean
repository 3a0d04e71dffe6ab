import Broker.Base.Stream

/-!
# Fixed-size blocks read from a stream without waiting

A reader that asks for one block at a time, does not wait, and forgets what it got when it
got less than a block. Each piece of the stream yields its whole blocks and loses the rest,
so the blocks of the whole stream come out exactly when every piece is made of whole blocks.
-/

namespace Broker.Base

universe u

variable {α : Type u} {size : Nat}

/-- The whole blocks at the front of a list. -/
def blocks (size : Nat) (l : List α) : List (List α) :=
  if _h : 0 < size ∧ size ≤ l.length then l.take size :: blocks size (l.drop size) else []
termination_by l.length
decreasing_by
  rw [List.length_drop]
  omega

private theorem blocks_of_lt {l : List α} (h : l.length < size) : blocks size l = [] := by
  rw [blocks, dif_neg (by omega)]

/-- A block in front comes first. -/
theorem blocks_append {block : List α} (hs : 0 < size) (h : block.length = size) (l : List α) :
    blocks size (block ++ l) = block :: blocks size l := by
  rw [blocks, dif_pos ⟨hs, by rw [List.length_append]; omega⟩, ← h, List.take_left, List.drop_left]

/-- The blocks of blocks put together are those blocks. -/
theorem blocks_flatten {parts : List (List α)} (hs : 0 < size)
    (h : ∀ part ∈ parts, part.length = size) : blocks size parts.flatten = parts := by
  induction parts with
  | nil => exact blocks_of_lt hs
  | cons part parts ih =>
    rw [List.flatten_cons, blocks_append hs (h part (by simp)),
      ih fun other hm ↦ h other (List.mem_cons_of_mem _ hm)]

/-- Every block has its size. -/
theorem length_of_mem_blocks {l block : List α} (h : block ∈ blocks size l) :
    block.length = size := by
  induction l using blocks.induct size with
  | case1 l hl ih =>
    rw [blocks, dif_pos hl] at h
    obtain rfl | h := List.mem_cons.mp h
    · rw [List.length_take]
      omega
    · exact ih h
  | case2 l hl =>
    rw [blocks, dif_neg hl] at h
    cases h

/-- What the blocks leave out is the remainder of the length. -/
theorem length_flatten_blocks (hs : 0 < size) (l : List α) :
    (blocks size l).flatten.length + l.length % size = l.length := by
  induction l using blocks.induct size with
  | case1 l hl ih =>
    rw [blocks, dif_pos hl, List.flatten_cons, List.length_append, List.length_take]
    rw [List.length_drop] at ih
    have hm := Nat.mod_eq_sub_mod hl.2
    omega
  | case2 l hl =>
    have hlt : l.length < size := by omega
    rw [blocks, dif_neg hl, Nat.mod_eq_of_lt hlt]
    simp

/-- A list of whole blocks is its blocks put together. -/
theorem flatten_blocks {l : List α} (hs : 0 < size) (h : size ∣ l.length) :
    (blocks size l).flatten = l := by
  induction l using blocks.induct size with
  | case1 l hl ih =>
    have hd : size ∣ (l.drop size).length := by
      rw [List.length_drop]
      exact Nat.dvd_sub h (Nat.dvd_refl size)
    rw [blocks, dif_pos hl, List.flatten_cons, ih hd, List.take_append_drop]
  | case2 l hl =>
    have hz : l.length = 0 := Nat.eq_zero_of_dvd_of_lt h (by omega)
    rw [List.length_eq_zero_iff.mp hz, blocks_of_lt hs, List.flatten_nil]

/-! ### Over a stream -/

/-- The blocks that the reader gets until the stream ends or fails. -/
def drain (size : Nat) : List Arrival → List Bytes
  | [] => []
  | .segment first rest :: later => blocks size (first :: rest) ++ drain size later
  | .gap :: later => drain size later
  | .interrupted :: _ => []
  | .fin :: _ => []
  | .failed :: _ => []

/-- The stream is pieces and pauses, up to its end if it has one. -/
def Orderly : List Arrival → Prop
  | [] => True
  | .segment _ _ :: later => Orderly later
  | .gap :: later => Orderly later
  | .interrupted :: _ => False
  | .fin :: later => later = []
  | .failed :: _ => False

/-- Every piece of the stream is made of whole blocks. -/
def Aligned (size : Nat) : List Arrival → Prop
  | [] => True
  | .segment _ rest :: later => size ∣ rest.length + 1 ∧ Aligned size later
  | _ :: later => Aligned size later

@[simp] theorem drain_pushFront (size : Nat) (bytes : Bytes) (later : List Arrival) :
    drain size (pushFront bytes later) = blocks size bytes ++ drain size later := by
  cases bytes with
  | nil =>
    have hn : blocks size ([] : Bytes) = [] := by
      rw [blocks, dif_neg]
      rintro ⟨hs, hl⟩
      exact absurd hl (by simpa using hs.ne')
    rw [hn]
    rfl
  | cons first rest => rfl

/-- A read of a whole block gets the next of the blocks. -/
theorem drain_of_block {wire later : List Arrival} {bytes : Bytes} (hs : 0 < size)
    (h : recv size wire = (.received bytes, later)) (hl : bytes.length = size) :
    drain size wire = bytes :: drain size later := by
  cases wire with
  | nil => simp [recv] at h
  | cons arrival wire =>
    cases arrival with
    | segment first rest =>
      obtain ⟨hb, rfl⟩ := Prod.mk.inj h
      obtain rfl := RecvResult.received.inj hb
      rw [drain_pushFront, ← List.cons_append, ← blocks_append hs hl, List.take_append_drop, drain]
    | fin =>
      obtain rfl := RecvResult.received.inj (Prod.mk.inj h).1
      exact absurd hl hs.ne
    | gap => simp [recv] at h
    | interrupted => simp [recv] at h
    | failed => simp [recv] at h

/-- A read of less than a block gets none of the blocks, and loses none. -/
theorem drain_of_short {wire later : List Arrival} {bytes : Bytes}
    (h : recv size wire = (.received bytes, later)) (hn : bytes ≠ []) (hl : bytes.length ≠ size) :
    drain size wire = drain size later := by
  cases wire with
  | nil => simp [recv] at h
  | cons arrival wire =>
    cases arrival with
    | segment first rest =>
      obtain ⟨hb, rfl⟩ := Prod.mk.inj h
      obtain rfl := RecvResult.received.inj hb
      -- The piece was shorter than a block, so nothing of it is left.
      have hlt : (first :: rest).length < size := by
        rw [List.length_take] at hl
        omega
      rw [drain_pushFront, List.drop_of_length_le hlt.le, drain, blocks_of_lt hlt,
        blocks_of_lt (Nat.zero_lt_of_lt hlt)]
    | fin => exact absurd (RecvResult.received.inj (Prod.mk.inj h).1).symm hn
    | gap => simp [recv] at h
    | interrupted => simp [recv] at h
    | failed => simp [recv] at h

/-- A read that finds nothing loses none of the blocks. -/
theorem drain_of_wait {wire later : List Arrival} {errno : Errno}
    (h : recv size wire = (.error errno, later)) (he : errno = .again ∨ errno = .wouldBlock) :
    drain size wire = drain size later := by
  cases wire with
  | nil => rw [← (Prod.mk.inj h).2]
  | cons arrival wire =>
    cases arrival with
    | segment first rest => simp [recv] at h
    | fin => simp [recv] at h
    | gap => rw [← (Prod.mk.inj h).2, drain]
    | interrupted => obtain rfl | rfl := he <;> simp [recv] at h
    | failed => obtain rfl | rfl := he <;> simp [recv] at h

/-- At the end of the stream there are no more blocks. -/
theorem drain_of_end {wire later : List Arrival} (hs : 0 < size)
    (h : recv size wire = (.received [], later)) : drain size wire = [] := by
  cases wire with
  | nil => simp [recv] at h
  | cons arrival wire =>
    cases arrival with
    | segment first rest =>
      obtain ⟨n, rfl⟩ := Nat.exists_eq_succ_of_ne_zero hs.ne'
      simp [recv] at h
    | fin => rfl
    | gap => simp [recv] at h
    | interrupted => simp [recv] at h
    | failed => simp [recv] at h

/-- Behind a failure there are no more blocks. -/
theorem drain_of_error {wire later : List Arrival} {errno : Errno}
    (h : recv size wire = (.error errno, later)) (ha : errno ≠ .again) : drain size wire = [] := by
  cases wire with
  | nil => exact absurd (RecvResult.error.inj (Prod.mk.inj h).1).symm ha
  | cons arrival wire =>
    cases arrival with
    | segment first rest => simp [recv] at h
    | fin => simp [recv] at h
    | gap => exact absurd (RecvResult.error.inj (Prod.mk.inj h).1).symm ha
    | interrupted => rfl
    | failed => rfl

/-- Where no byte is left there are no more blocks. -/
theorem drain_of_payload {wire : List Arrival} (h : payload wire = []) : drain size wire = [] := by
  induction wire with
  | nil => rfl
  | cons arrival wire ih =>
    cases arrival with
    | segment first rest => cases h
    | gap => exact ih h
    | interrupted => rfl
    | fin => rfl
    | failed => rfl

/-- Every block read has its size. -/
theorem length_of_mem_drain {wire : List Arrival} {block : Bytes} (h : block ∈ drain size wire) :
    block.length = size := by
  induction wire with
  | nil => cases h
  | cons arrival wire ih =>
    cases arrival with
    | segment first rest =>
      obtain h | h := List.mem_append.mp h
      · exact length_of_mem_blocks h
      · exact ih h
    | gap => exact ih h
    | interrupted => cases h
    | fin => cases h
    | failed => cases h

/-- The blocks hold at most the bytes of the stream, and all of them exactly when every piece
is made of whole blocks. -/
theorem length_flatten_drain (hs : 0 < size) {wire : List Arrival} (ho : Orderly wire) :
    (drain size wire).flatten.length ≤ (payload wire).length ∧
      ((drain size wire).flatten.length = (payload wire).length ↔ Aligned size wire) := by
  induction wire with
  | nil => simp [drain, payload, Aligned]
  | cons arrival wire ih =>
    cases arrival with
    | segment first rest =>
      obtain ⟨hle, heq⟩ := ih ho
      have hb := length_flatten_blocks hs (first :: rest)
      have hm : size ∣ rest.length + 1 ↔ (first :: rest).length % size = 0 :=
        Nat.dvd_iff_mod_eq_zero
      simp only [drain, payload, Aligned, List.flatten_append, List.length_append, hm, ← heq]
      constructor
      · omega
      · omega
    | gap => exact ih ho
    | interrupted => exact ho.elim
    | fin =>
      obtain rfl : wire = [] := ho
      simp [drain, payload, Aligned]
    | failed => exact ho.elim

/-- The blocks of a stream of whole pieces hold all of its bytes in order. -/
theorem flatten_drain (hs : 0 < size) {wire : List Arrival} (ho : Orderly wire)
    (ha : Aligned size wire) : (drain size wire).flatten = payload wire := by
  induction wire with
  | nil => rfl
  | cons arrival wire ih =>
    cases arrival with
    | segment first rest =>
      rw [drain, payload, List.flatten_append, flatten_blocks (l := first :: rest) hs ha.1,
        ih ho ha.2]
    | gap => exact ih ho ha
    | interrupted => exact ho.elim
    | fin => rfl
    | failed => exact ho.elim

/-- The blocks sent are the blocks read exactly when every piece is made of whole blocks. -/
theorem drain_eq_iff (hs : 0 < size) {wire : List Arrival} (ho : Orderly wire)
    {parts : List Bytes} (hl : ∀ part ∈ parts, part.length = size)
    (hp : payload wire = parts.flatten) : drain size wire = parts ↔ Aligned size wire := by
  constructor
  · intro he
    rw [← (length_flatten_drain hs ho).2, he, hp]
  · intro ha
    calc drain size wire
        = blocks size (drain size wire).flatten :=
          (blocks_flatten hs fun _ hm ↦ length_of_mem_drain hm).symm
      _ = blocks size parts.flatten := by rw [flatten_drain hs ho ha, hp]
      _ = parts := blocks_flatten hs hl

end Broker.Base
