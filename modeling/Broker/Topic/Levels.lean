import Broker.Topic.Split
import Mathlib.Data.List.Basic

/-!
# Topic strings that share a position

The levels of a topic are its parts between separators, with the last part dropped when it is
empty. So a topic can be put together again from its levels except for one separator at its
end, and two strings have the same levels exactly when they differ by that separator.
-/

namespace Broker.Topic
open Broker.Base

/-- A list of parts without its last part when that one is empty. -/
def dropFinalEmpty (parts : List Level) : List Level :=
  if parts.getLast? = some [] then parts.dropLast else parts

/-- The second string is the first with one separator behind it, and the first is not empty
and does not end in a separator itself. -/
def SlashBehind (s t : Bytes) : Prop := t = s ++ [slash] ∧ s ≠ [] ∧ s.getLast? ≠ some slash

private theorem modifyHead_append (a b : Bytes) (parts : List Level) :
    (parts.modifyHead (b ++ ·)).modifyHead (a ++ ·) = parts.modifyHead (a ++ b ++ ·) := by
  cases parts with
  | nil => rfl
  | cons part parts => simp

private theorem dropFinalEmpty_cons (part : Level) {parts : List Level} (h : parts ≠ []) :
    dropFinalEmpty (part :: parts) = part :: dropFinalEmpty parts := by
  obtain ⟨first, parts, rfl⟩ := List.exists_cons_of_ne_nil h
  unfold dropFinalEmpty
  rw [List.getLast?_cons_cons]
  split
  · rfl
  · rfl

private theorem splitLoop_eq (token rest : Bytes) :
    splitLoop token rest = dropFinalEmpty ((rest.splitOn slash).modifyHead (token ++ ·)) := by
  induction rest generalizing token with
  | nil =>
    rw [splitLoop, List.splitOn_nil, List.modifyHead_cons, List.append_nil]
    by_cases ht : token = []
    · simp [dropFinalEmpty, ht]
    · simp [dropFinalEmpty, ht]
  | cons b rest ih =>
    have hid : (fun part : Level ↦ ([] : Bytes) ++ part) = id := rfl
    rw [splitLoop, List.splitOn_cons_eq_if_modifyHead]
    by_cases hb : b = slash
    · rw [if_pos hb, if_pos (beq_iff_eq.mpr hb), ih, List.modifyHead_cons, List.append_nil, hid,
        List.modifyHead_id, id_eq, dropFinalEmpty_cons token (List.splitOn_ne_nil slash rest)]
    · rw [if_neg hb, if_neg (by simpa using hb), ih]
      exact congrArg dropFinalEmpty (modifyHead_append token [b] _).symm

/-- The levels of a topic are its parts between separators, without an empty last part. -/
theorem splitTopic_eq (s : Bytes) : splitTopic s = dropFinalEmpty (s.splitOn slash) := by
  have hid : (fun part : Level ↦ ([] : Bytes) ++ part) = id := rfl
  rw [splitTopic, splitLoop_eq, hid, List.modifyHead_id, id_eq]

private theorem intercalate_concat {parts : List Level} (h : parts ≠ []) (last : Level) :
    [slash].intercalate (parts ++ [last]) = [slash].intercalate parts ++ slash :: last := by
  induction parts with
  | nil => exact absurd rfl h
  | cons part parts ih =>
    cases parts with
    | nil => simp
    | cons next parts =>
      have hn : next :: parts ++ [last] = next :: (parts ++ [last]) := rfl
      rw [List.cons_append, hn, List.intercalate_cons_cons, ← hn, ih (List.cons_ne_nil _ _),
        List.intercalate_cons_cons]
      simp only [List.append_assoc]

private theorem splitTopic_append_slash (s : Bytes) : splitTopic
    (s ++ [slash]) = s.splitOn slash := by
  rw [splitTopic_eq, List.splitOn_append_cons_self, List.splitOn_nil, dropFinalEmpty,
    if_pos (by rw [List.getLast?_append, List.getLast?_singleton, Option.some_or]),
    List.dropLast_concat]

private theorem getLast?_splitOn_iff (s : Bytes) :
    (s.splitOn slash).getLast? = some [] ↔ s = [] ∨ s.getLast? = some slash := by
  constructor
  · intro h
    obtain ⟨parts, hp⟩ := List.getLast?_eq_some_iff.mp h
    have hs : [slash].intercalate (parts ++ [[]]) = s := by rw [← hp, List.intercalate_splitOn]
    by_cases hn : parts = []
    · left
      rw [← hs, hn]
      rfl
    · right
      rw [← hs, intercalate_concat hn, List.getLast?_append]
      rfl
  · rintro (rfl | h)
    · rfl
    · obtain ⟨front, rfl⟩ := List.getLast?_eq_some_iff.mp h
      rw [List.splitOn_append_cons_self, List.splitOn_nil, List.getLast?_append]
      rfl

private theorem eq_intercalate_splitTopic (s : Bytes) :
    s = [slash].intercalate (splitTopic s) ∨ s = [slash].intercalate (splitTopic s) ++ [slash] := by
  have hs : [slash].intercalate (s.splitOn slash) = s := List.intercalate_splitOn slash
  rw [splitTopic_eq, dropFinalEmpty]
  split
  · next h =>
    obtain ⟨parts, hp⟩ := List.getLast?_eq_some_iff.mp h
    rw [hp, List.dropLast_concat]
    by_cases hn : parts = []
    · left
      rw [← hs, hp, hn]
      rfl
    · right
      rw [← intercalate_concat hn, ← hp, hs]
  · exact .inl hs.symm

private theorem splitTopic_append_slash_eq_iff (s : Bytes) :
    splitTopic (s ++ [slash]) = splitTopic s ↔ s ≠ [] ∧ s.getLast? ≠ some slash := by
  rw [splitTopic_append_slash, splitTopic_eq, dropFinalEmpty, ← not_or, ← getLast?_splitOn_iff]
  split
  · next h =>
    apply iff_of_false
    · intro he
      have hl := congrArg List.length he
      have hp := List.length_pos_of_ne_nil (List.splitOn_ne_nil slash s)
      rw [List.length_dropLast] at hl
      omega
    · exact not_not_intro h
  · next h => exact iff_of_true rfl h

/-- Levels without separators whose last one is not empty come back from their joined text. -/
theorem splitTopic_intercalate {levels : List Level} (hl : ∀ level ∈ levels, slash ∉ level)
    (he : levels.getLast? ≠ some []) : splitTopic ([slash].intercalate levels) = levels := by
  cases levels with
  | nil => rfl
  | cons level levels =>
    rw [splitTopic_eq, List.splitOn_intercalate slash hl (List.cons_ne_nil _ _), dropFinalEmpty,
      if_neg he]

/-- Two strings have the same levels exactly when they are equal or differ by one separator
behind the shorter one. -/
theorem splitTopic_eq_iff (s t : Bytes) :
    splitTopic s = splitTopic t ↔ s = t ∨ SlashBehind s t ∨ SlashBehind t s := by
  have hbehind (s t : Bytes) (h : SlashBehind s t) : splitTopic s = splitTopic t := by
    obtain ⟨rfl, hs⟩ := h
    exact ((splitTopic_append_slash_eq_iff s).mpr hs).symm
  have hlonger (s t : Bytes) (h : splitTopic s = splitTopic t) (ht : t = s ++ [slash]) :
      SlashBehind s t := by
    rw [ht] at h
    exact ⟨ht, (splitTopic_append_slash_eq_iff s).mp h.symm⟩
  constructor
  · intro h
    obtain hs | hs := eq_intercalate_splitTopic s <;> obtain ht | ht := eq_intercalate_splitTopic t
    · exact .inl (by rw [hs, ht, h])
    · exact .inr (.inl (hlonger s t h (by rw [ht, ← h, ← hs])))
    · exact .inr (.inr (hlonger t s h.symm (by rw [hs, h, ← ht])))
    · exact .inl (by rw [hs, ht, h])
  · rintro (rfl | h | h)
    · rfl
    · exact hbehind s t h
    · exact (hbehind t s h).symm

/-- The levels of a topic are its parts between separators, with an empty last one dropped;
levels that can be told apart in a joined text come back from it; and two strings share a
position exactly when they are equal or differ by one separator at the end. -/
theorem levels_of_topic :
    (∀ s, splitTopic s =
      if (s.splitOn slash).getLast? = some [] then (s.splitOn slash).dropLast
      else s.splitOn slash) ∧
    splitTopic [] = [] ∧ splitTopic [slash] = [[]] ∧
    (∀ levels : List Level, (∀ level ∈ levels, slash ∉ level) → levels.getLast? ≠ some [] →
      splitTopic ([slash].intercalate levels) = levels) ∧
    ∀ s t, splitTopic s = splitTopic t ↔ s = t ∨ SlashBehind s t ∨ SlashBehind t s :=
  ⟨splitTopic_eq, rfl, rfl, fun _ hl he ↦ splitTopic_intercalate hl he, splitTopic_eq_iff⟩

/-- The levels `a`, nothing and `b` come back from `a//b`. -/
theorem levels_of_topic_inner_empty :
    (∀ level ∈ [ascii ['a'], [], ascii ['b']], slash ∉ level) ∧
      splitTopic (ascii ['a', '/', '/', 'b']) = [ascii ['a'], [], ascii ['b']] :=
  ⟨by decide, levels_of_topic.2.2.2.1 [ascii ['a'], [], ascii ['b']] (by decide) (by decide)⟩

end Broker.Topic
