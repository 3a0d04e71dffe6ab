import Mathlib.Data.List.TakeWhile

/-!
# Tokens taken one by one

`strtok` as a function from the text behind the saved position to the next token and the text
behind it. The tokens of a text are its maximal runs without a delimiter; each call yields the
next one, and an absent token when none is left.
-/

namespace Broker.Base

universe u

variable {α : Type u} (isDelim : α → Bool)

/-- The maximal runs of a text without a delimiter, in order. -/
def tokens (text : List α) : List (List α) := (text.splitOnP isDelim).filter fun run ↦ !run.isEmpty

/-- One call of `strtok`: delimiters are skipped, the token runs to the next delimiter, and that
one is overwritten, so that the next call goes on behind it. -/
def strtok (text : List α) : Option (List α) × List α :=
  match text.dropWhile isDelim with
  | [] => (none, [])
  | b :: rest =>
    (some ((b :: rest).takeWhile (fun c ↦ !isDelim c)),
      ((b :: rest).dropWhile (fun c ↦ !isDelim c)).tail)

/-- No text has no token. -/
@[simp] theorem tokens_nil : tokens isDelim ([] : List α) = [] := by
  rw [tokens, List.splitOnP_nil, List.filter_cons_of_neg (by simp), List.filter_nil]

variable {isDelim}

/-- A delimiter in front belongs to no token. -/
theorem tokens_cons_of_delim {b : α} (h : isDelim b = true) (text : List α) :
    tokens isDelim (b :: text) = tokens isDelim text := by
  rw [tokens, List.splitOnP_cons_eq_if_modifyHead, if_pos h, List.filter_cons_of_neg (by simp),
    tokens]

/-- Delimiters in front belong to no token. -/
theorem tokens_dropWhile (text : List α) :
    tokens isDelim (text.dropWhile isDelim) = tokens isDelim text := by
  induction text with
  | nil => rfl
  | cons b text ih =>
    rw [List.dropWhile_cons]
    split
    · next hb => rw [ih, tokens_cons_of_delim hb]
    · rfl

/-- A text without a delimiter is a token of its own. -/
theorem tokens_of_run {run : List α} (hn : run ≠ []) (h : ∀ c ∈ run, isDelim c = false) :
    tokens isDelim run = [run] := by
  rw [tokens, List.splitOnP_eq_singleton h, List.filter_cons_of_pos (by simpa using hn),
    List.filter_nil]

/-- A run up to a delimiter is the first token. -/
theorem tokens_run_append {run : List α} (hn : run ≠ []) (h : ∀ c ∈ run, isDelim c = false)
    {b : α} (hb : isDelim b = true) (rest : List α) :
    tokens isDelim (run ++ b :: rest) = run :: tokens isDelim rest := by
  rw [tokens, List.splitOnP_append_cons_of_forall_mem h b hb,
    List.filter_cons_of_pos (by simpa using hn), tokens]

/-- A call yields the first token and leaves the others. -/
theorem strtok_spec (isDelim : α → Bool) (text : List α) :
    (strtok isDelim text).1 = (tokens isDelim text).head? ∧
      tokens isDelim (strtok isDelim text).2 = (tokens isDelim text).tail := by
  rw [← tokens_dropWhile text, strtok]
  split
  · next he =>
    rw [he, tokens_nil]
    exact ⟨rfl, rfl⟩
  · next b rest he =>
    have hb : isDelim b = false := by
      have hh := List.head?_dropWhile_not isDelim text
      rw [he] at hh
      simpa using hh
    let run := (b :: rest).takeWhile fun c ↦ !isDelim c
    have hn : run ≠ [] := by
      intro hr
      have hf := List.takeWhile_cons_of_pos (p := fun c ↦ !isDelim c) (a := b) (l := rest)
        (by simp [hb])
      rw [show run = _ from hf] at hr
      cases hr
    have hrun : ∀ c ∈ run, isDelim c = false := by
      intro c hc
      simpa using List.mem_takeWhile_imp hc
    have hs : b :: rest = run ++ (b :: rest).dropWhile fun c ↦ !isDelim c :=
      (List.takeWhile_append_dropWhile ..).symm
    rw [he]
    cases hd : (b :: rest).dropWhile fun c ↦ !isDelim c with
    | nil =>
      rw [hd, List.append_nil] at hs
      rw [hs, tokens_of_run hn hrun, ← hs]
      exact ⟨congrArg some hs.symm, tokens_nil isDelim⟩
    | cons d behind =>
      have hdelim : isDelim d = true := by
        have hh := List.head?_dropWhile_not (fun c ↦ !isDelim c) (b :: rest)
        rw [hd] at hh
        simpa using hh
      rw [hd] at hs
      rw [hs, tokens_run_append hn hrun hdelim, ← hs]
      exact ⟨rfl, rfl⟩

/-- Tokens are made of characters of the text. -/
theorem mem_of_mem_tokens {text run : List α} (h : run ∈ tokens isDelim text) {c : α}
    (hc : c ∈ run) : c ∈ text := by
  have hs : run ∈ text.splitOnP isDelim := (List.mem_filter.mp h).1
  clear h
  induction text generalizing run with
  | nil =>
    rw [List.splitOnP_nil, List.mem_singleton] at hs
    rw [hs] at hc
    cases hc
  | cons b text ih =>
    obtain ⟨first, others, he⟩ :=
      List.exists_cons_of_ne_nil (List.splitOnP_ne_nil isDelim text)
    rw [List.splitOnP_cons_eq_if_modifyHead, he] at hs
    rw [he] at ih
    split at hs
    · obtain rfl | hs := List.mem_cons.mp hs
      · cases hc
      · exact List.mem_cons_of_mem b (ih hc hs)
    · rw [List.modifyHead_cons] at hs
      obtain rfl | hs := List.mem_cons.mp hs
      · obtain rfl | hc := List.mem_cons.mp hc
        · exact List.mem_cons_self
        · exact List.mem_cons_of_mem b (ih hc List.mem_cons_self)
      · exact List.mem_cons_of_mem b (ih hc (List.mem_cons_of_mem first hs))

/-- There is no token exactly when there are only delimiters. -/
theorem tokens_eq_nil_iff (text : List α) :
    tokens isDelim text = [] ↔ ∀ b ∈ text, isDelim b = true := by
  rw [← List.dropWhile_eq_nil_iff, ← List.head?_eq_none_iff, ← (strtok_spec isDelim text).1, strtok]
  split
  · next he => exact iff_of_true rfl he
  · next b rest he =>
    apply iff_of_false
    · exact Option.some_ne_none _
    · rw [he]
      exact List.cons_ne_nil b rest

end Broker.Base
