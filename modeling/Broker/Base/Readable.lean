import Broker.Base.Decimal

/-!
# Texts that can be read back

A stream of texts written one after the other can be read back when each text is told by what
the stream begins with. A name in front of a fixed word is told when the word cannot begin
inside of another name; a number is told by the character behind it.
-/

namespace Broker.Base

universe u v

variable {α : Type u} {β : Type v}

/-- The texts of valid values are told apart by the streams that begin with them. -/
def Readable (valid : α → Prop) (text : α → List β) : Prop :=
  ∀ x y, valid x → valid y → ∀ rest rest', text x ++ rest = text y ++ rest' → x = y

/-- What is written as a stream of such texts can be read back. -/
theorem Readable.eq_of_flatMap {valid : α → Prop} {text : α → List β} (h : Readable valid text)
    (hn : ∀ x, text x ≠ []) {xs ys : List α} (hx : ∀ x ∈ xs, valid x) (hy : ∀ y ∈ ys, valid y)
    (he : xs.flatMap text = ys.flatMap text) : xs = ys := by
  induction xs generalizing ys with
  | nil =>
    cases ys with
    | nil => rfl
    | cons y ys =>
      rw [List.flatMap_cons, List.flatMap_nil] at he
      exact absurd (List.append_eq_nil_iff.mp he.symm).1 (hn y)
  | cons x xs ih =>
    cases ys with
    | nil =>
      rw [List.flatMap_cons, List.flatMap_nil] at he
      exact absurd (List.append_eq_nil_iff.mp he).1 (hn x)
    | cons y ys =>
      rw [List.flatMap_cons, List.flatMap_cons] at he
      obtain rfl := h x y (hx x List.mem_cons_self) (hy y List.mem_cons_self) _ _ he
      rw [ih (fun z hz ↦ hx z (List.mem_cons_of_mem x hz))
        (fun z hz ↦ hy z (List.mem_cons_of_mem x hz)) (List.append_cancel_left he)]

/-- What has arrived of a stream of texts is all of it, or the texts in front of one that is cut
short, and the cut. -/
theorem prefix_flatMap {text : α → List β} {xs : List α} {arrived : List β}
    (h : arrived <+: xs.flatMap text) :
    arrived = xs.flatMap text ∨ ∃ front next back cut, xs = front ++ next :: back ∧
      cut <+: text next ∧ cut ≠ text next ∧ arrived = front.flatMap text ++ cut := by
  induction xs generalizing arrived with
  | nil => exact .inl (List.prefix_nil.mp h)
  | cons x xs ih =>
    rw [List.flatMap_cons] at h ⊢
    obtain hcut | hwhole :=
      List.prefix_or_prefix_of_prefix h (List.prefix_append (text x) (xs.flatMap text))
    · by_cases he : arrived = text x
      · obtain hall | ⟨front, next, back, cut, rfl, hn, hw, ha⟩ := ih (List.nil_prefix)
        · exact .inl (by rw [he, ← hall, List.append_nil])
        · exact .inr ⟨x :: front, next, back, cut, rfl, hn, hw, by
            rw [List.flatMap_cons, List.append_assoc, ← ha, List.append_nil, he]⟩
      · exact .inr ⟨[], x, xs, arrived, rfl, hcut, he, rfl⟩
    · obtain ⟨rest, rfl⟩ := hwhole
      obtain hall | ⟨front, next, back, cut, rfl, hn, hw, rfl⟩ :=
        ih ((List.prefix_append_right_inj (text x)).mp h)
      · exact .inl (by rw [hall])
      · exact .inr ⟨x :: front, next, back, cut, rfl, hn, hw, by
          rw [List.flatMap_cons, List.append_assoc]⟩

/-- One word does not begin inside of another one at a distance of at most `n` letters: some
letter is another one there. -/
def Apart (n : Nat) (word other : List β) : Prop :=
  ∀ k < n, ∃ i < other.length, k + 1 + i < word.length ∧ word[k + 1 + i]? ≠ other[i]?

instance [DecidableEq β] (n : Nat) (word other : List β) : Decidable (Apart n word other) := by
  unfold Apart
  infer_instance

private theorem getElem?_behind (front word rest : List β) {i : Nat} (hi : i < word.length) :
    (front ++ word ++ rest)[front.length + i]? = word[i]? := by
  rw [List.append_assoc, List.getElem?_append_right (Nat.le_add_right _ _),
    Nat.add_sub_cancel_left, List.getElem?_append_left hi]

private theorem Apart.le_of_append {n : Nat} {word other x y rest rest' : List β}
    (h : Apart n word other) (hy : y.length ≤ n)
    (he : x ++ word ++ rest = y ++ other ++ rest') : y.length ≤ x.length := by
  by_contra hlt
  obtain ⟨i, hi, hw, hne⟩ := h (y.length - x.length - 1) (by omega)
  apply hne
  have hindex : x.length + (y.length - x.length - 1 + 1 + i) = y.length + i := by omega
  rw [← getElem?_behind x word rest hw, hindex, he, getElem?_behind y other rest' hi]

/-- Fronts of at most `n` letters in front of words that keep apart are the same. -/
theorem Apart.eq_of_append {n : Nat} {word other x y rest rest' : List β}
    (h : Apart n word other) (h' : Apart n other word) (hx : x.length ≤ n) (hy : y.length ≤ n)
    (he : x ++ word ++ rest = y ++ other ++ rest') :
    x = y ∧ word ++ rest = other ++ rest' := by
  have hl : x.length = y.length :=
    Nat.le_antisymm (h'.le_of_append hx he.symm) (h.le_of_append hy he)
  rw [List.append_assoc, List.append_assoc] at he
  exact List.append_inj he hl

/-- A word is told by the first separator behind it. -/
theorem eq_of_append_separator {sep : β} {x y rest rest' : List β} (hx : sep ∉ x) (hy : sep ∉ y)
    (he : x ++ sep :: rest = y ++ sep :: rest') : x = y ∧ rest = rest' := by
  induction x generalizing y with
  | nil =>
    cases y with
    | nil => exact ⟨rfl, (List.cons.inj he).2⟩
    | cons b y => exact absurd (List.cons.inj he).1 (List.ne_of_not_mem_cons hy)
  | cons a x ih =>
    cases y with
    | nil => exact absurd (List.cons.inj he).1.symm (List.ne_of_not_mem_cons hx)
    | cons b y =>
      obtain ⟨hab, htail⟩ := List.cons.inj he
      obtain ⟨hxy, hrest⟩ := ih (List.not_mem_of_not_mem_cons hx)
        (List.not_mem_of_not_mem_cons hy) htail
      exact ⟨by rw [hab, hxy], hrest⟩

/-- A last word is told by the last separator in front of it. -/
theorem eq_of_separator_append {sep : β} {front front' x y : List β} (hx : sep ∉ x)
    (hy : sep ∉ y) (he : front ++ sep :: x = front' ++ sep :: y) : front = front' ∧ x = y := by
  have hr := congrArg List.reverse he
  simp only [List.reverse_append, List.reverse_cons, List.append_assoc, List.singleton_append]
    at hr
  obtain ⟨hword, hfront⟩ := eq_of_append_separator (List.mem_reverse.not.mpr hx)
    (List.mem_reverse.not.mpr hy) hr
  exact ⟨List.reverse_injective hfront, List.reverse_injective hword⟩

/-- A number is told by the character behind it that is no digit. -/
theorem eq_of_decimal_append {m n : Nat} {b c : UInt8} {rest rest' : Bytes}
    (hb : isDigit b = false) (hc : isDigit c = false)
    (he : decimal m ++ b :: rest = decimal n ++ c :: rest') :
    m = n ∧ b :: rest = c :: rest' := by
  have ht (k : Nat) (d : UInt8) (hd : isDigit d = false) (more : Bytes) :
      (decimal k ++ d :: more).takeWhile isDigit = decimal k := by
    rw [List.takeWhile_append_of_pos fun _ ↦ isDigit_of_mem_decimal,
      List.takeWhile_cons_of_neg (by simp [hd]), List.append_nil]
  have hmn : decimal m = decimal n := by rw [← ht m b hb rest, he, ht n c hc rest']
  rw [hmn] at he
  exact ⟨decimal_injective hmn, List.append_cancel_left he⟩

/-- Byte strings of one length with the same value are the same. -/
theorem eq_of_ntoh {a b : Bytes} (hl : a.length = b.length) (h : ntoh a = ntoh b) : a = b := by
  induction a using List.reverseRecOn generalizing b with
  | nil => exact (List.length_eq_zero_iff.mp hl.symm).symm
  | append_singleton a x ih =>
    induction b using List.reverseRecOn with
    | nil => simp at hl
    | append_singleton b y _ =>
      rw [ntoh_append_singleton, ntoh_append_singleton] at h
      have hx := x.toNat_lt
      have hy := y.toNat_lt
      have hlast : x = y := UInt8.toNat_inj.mp (by omega)
      have hfront : ntoh a = ntoh b := by omega
      rw [ih (by simpa using hl) hfront, hlast]

end Broker.Base
