import Mathlib.Algebra.BigOperators.Group.Finset.Piecewise
import Mathlib.Algebra.BigOperators.Ring.List
import Mathlib.Algebra.Order.BigOperators.Group.List
import Mathlib.Algebra.Order.Ring.Nat
import Mathlib.Data.List.Count
import Mathlib.Data.Nat.Choose.Basic

/-!
# Backtracking search through a tree

A search goes from the root of a tree along its paths. Where it stands it has a position, and from
there it makes moves: each goes on under one key, from another position. The same node is met as
often as there are ways to go there. For words with wildcards the ways are counted by binomial
coefficients.
-/

namespace Broker.Base

universe u v

/-! ### Ways -/

section Ways

variable {K : Type u} {X : Type v} [DecidableEq K] {moves : X → List (K × X)}

/-- The ways to go along a path from a position. -/
def ways (moves : X → List (K × X)) : List K → X → Nat
  | [], _ => 1
  | key :: path, x =>
    ((moves x).map fun move ↦ if move.1 = key then ways moves path move.2 else 0).sum

/-- The paths below a key. -/
def below (nodes : Finset (List K)) (key : K) : Finset (List K) :=
  (nodes.filter fun path ↦ path.head? = some key).image List.tail

/-- The paths below a key are those that start with it. -/
@[simp] theorem mem_below {nodes : Finset (List K)} {key : K} {path : List K} :
    path ∈ below nodes key ↔ key :: path ∈ nodes := by
  rw [below, Finset.mem_image]
  constructor
  · rintro ⟨whole, hw, rfl⟩
    obtain ⟨hm, hh⟩ := Finset.mem_filter.mp hw
    rwa [List.cons_head?_tail hh]
  · intro hm
    exact ⟨key :: path, Finset.mem_filter.mpr ⟨hm, rfl⟩, rfl⟩

/-- The ways along a path that begin with one of some moves. -/
def waysAlong (moves : X → List (K × X)) (first : List (K × X)) : List K → Nat
  | [] => 0
  | key :: path => (first.map fun move ↦ if move.1 = key then ways moves path move.2 else 0).sum

private theorem sum_below (nodes : Finset (List K)) (move : K × X) :
    ∑ path ∈ nodes, waysAlong moves [move] path =
      ∑ path ∈ below nodes move.1, ways moves path move.2 := by
  let first : Finset (List K) := nodes.filter fun path ↦ path.head? = some move.1
  have hinj : Set.InjOn List.tail (first : Set (List K)) := by
    intro path hp other ho he
    have hhead := (Finset.mem_filter.mp hp).2
    have hhead' := (Finset.mem_filter.mp ho).2
    rw [← List.cons_head?_tail hhead, he, List.cons_head?_tail hhead']
  rw [below, Finset.sum_image hinj, Finset.sum_filter]
  apply Finset.sum_congr rfl
  intro path _
  cases path with
  | nil => rfl
  | cons key path => simp [waysAlong, eq_comm]

/-- The ways to the nodes of a tree are one to the root and those behind each move. -/
theorem sum_ways {nodes : Finset (List K)} (hroot : [] ∈ nodes) (x : X) :
    ∑ path ∈ nodes, ways moves path x =
      1 + ((moves x).map fun move ↦ ∑ path ∈ below nodes move.1, ways moves path move.2).sum := by
  have hsplit (path : List K) :
      ways moves path x = (if path = [] then 1 else 0) + waysAlong moves (moves x) path := by
    cases path with
    | nil => rfl
    | cons key path => rw [if_neg (List.cons_ne_nil _ _), Nat.zero_add]; rfl
  have hmoves (first : List (K × X)) : ∑ path ∈ nodes, waysAlong moves first path =
      (first.map fun move ↦ ∑ path ∈ below nodes move.1, ways moves path move.2).sum := by
    induction first with
    | nil =>
      apply Finset.sum_eq_zero
      intro path _
      cases path <;> rfl
    | cons move first ih =>
      have hcons (path : List K) : waysAlong moves (move :: first) path =
          waysAlong moves [move] path + waysAlong moves first path := by
        cases path with
        | nil => rfl
        | cons key path => simp [waysAlong]
      rw [List.map_cons, List.sum_cons, ← ih, ← sum_below, ← Finset.sum_add_distrib]
      exact Finset.sum_congr rfl fun path _ ↦ hcons path
  rw [Finset.sum_congr rfl fun path _ ↦ hsplit path, Finset.sum_add_distrib, hmoves,
    Finset.sum_ite_eq' nodes [] fun _ ↦ 1, if_pos hroot]

end Ways

/-! ### Wildcards -/

section Wildcards

variable {α : Type u} {one many : α}

/-- The moves that match the first letter of a word: by itself or by a wildcard. -/
def letterMoves (one : α) : List α → List (α × List α)
  | [] => []
  | letter :: rest => [(letter, rest), (one, rest)]

/-- The moves at a word whose letters are matched by themselves or by one of two wildcards: one
stands for a letter, the other for any letters. -/
def wildcardMoves (one many : α) (word : List α) : List (α × List α) :=
  letterMoves one word ++ word.tails.map fun rest ↦ (many, rest)

private theorem sum_choose_tails (word : List α) (n : Nat) :
    (word.tails.map fun rest ↦ (rest.length + n).choose n).sum =
      (word.length + (n + 1)).choose (n + 1) := by
  induction word with
  | nil => simp
  | cons letter word ih =>
    have hfirst : (letter :: word).length + n = word.length + (n + 1) := by
      rw [List.length_cons]
      omega
    have hall : (letter :: word).length + (n + 1) = word.length + (n + 1) + 1 := by
      rw [List.length_cons]
      omega
    rw [List.tails_cons, List.map_cons, List.sum_cons, ih, hfirst, hall, Nat.choose_succ_succ']

variable [DecidableEq α] {path : List α}

private theorem ways_letter {key : α} (hk : many ≠ key) (word : List α) :
    ways (wildcardMoves one many) (key :: path) word = ((letterMoves one word).map fun move ↦
      if move.1 = key then ways (wildcardMoves one many) path move.2 else 0).sum := by
  simp [ways, wildcardMoves, Function.comp_def, hk]

private theorem ways_many (word : List α) :
    ways (wildcardMoves one many) (many :: path) word = ((letterMoves one word).map fun move ↦
        if move.1 = many then ways (wildcardMoves one many) path move.2 else 0).sum +
      (word.tails.map (ways (wildcardMoves one many) path)).sum := by
  simp [ways, wildcardMoves, Function.comp_def]

private theorem sum_letterMoves (key letter : α) (rest : List α) :
    ((letterMoves one (letter :: rest)).map fun move ↦
      if move.1 = key then ways (wildcardMoves one many) path move.2 else 0).sum =
        (if letter = key then ways (wildcardMoves one many) path rest else 0) +
          if one = key then ways (wildcardMoves one many) path rest else 0 := by
  simp [letterMoves]

private theorem ways_letter_le {key letter : α} (hk : many ≠ key) {b : Nat} (hb : 1 ≤ b)
    (hl : letter = one → 2 ≤ b) (rest : List α) :
    ways (wildcardMoves one many) (key :: path) (letter :: rest) ≤
      b ^ (if key = one then 1 else 0) * ways (wildcardMoves one many) path rest := by
  rw [ways_letter hk, sum_letterMoves]
  generalize ways (wildcardMoves one many) path rest = n
  by_cases ho : key = one
  · subst ho
    rw [if_pos rfl, if_pos rfl, Nat.pow_one]
    split
    · next he =>
      have htwo : 2 * n ≤ b * n := Nat.mul_le_mul_right n (hl he)
      omega
    · exact (Nat.zero_add n).le.trans (Nat.le_mul_of_pos_left n hb)
  · rw [if_neg (Ne.symm ho), if_neg ho, Nat.pow_zero, Nat.one_mul, Nat.add_zero]
    split
    · exact le_rfl
    · exact Nat.zero_le n

private theorem ways_many_le (hne : one ≠ many) {b : Nat} (hb : 1 ≤ b) {word : List α}
    (hw : ∀ letter ∈ word, letter = many → 2 ≤ b) :
    ways (wildcardMoves one many) (many :: path) word ≤
      b * (word.tails.map (ways (wildcardMoves one many) path)).sum := by
  rw [ways_many]
  cases word with
  | nil => exact (Nat.zero_add _).le.trans (Nat.le_mul_of_pos_left _ hb)
  | cons letter rest =>
    have hmem : ways (wildcardMoves one many) path rest ≤
        ((letter :: rest).tails.map (ways (wildcardMoves one many) path)).sum :=
      List.single_le_sum (fun _ _ ↦ Nat.zero_le _) _ (List.mem_map_of_mem
        ((List.mem_tails _ _).mpr (List.suffix_cons letter rest)))
    rw [sum_letterMoves, if_neg hne, Nat.add_zero]
    generalize ((letter :: rest).tails.map (ways (wildcardMoves one many) path)).sum = n at hmem ⊢
    split
    · next he =>
      have htwo : 2 * n ≤ b * n := Nat.mul_le_mul_right n (hw letter List.mem_cons_self he)
      omega
    · exact (Nat.zero_add n).le.trans (Nat.le_mul_of_pos_left n hb)

/-- There are at most so many ways along a path. Where the word has no wildcards among its
letters, only those that stand for many letters make more of them. -/
theorem ways_wildcard_le [BEq α] [LawfulBEq α] (hne : one ≠ many) {b : Nat} (hb : 1 ≤ b)
    (path : List α) {word : List α} (hw : ∀ letter ∈ word, letter = one ∨ letter = many → 2 ≤ b) :
    ways (wildcardMoves one many) path word ≤ b ^ (path.count one + path.count many) *
      (word.length + path.count many).choose (path.count many) := by
  induction path generalizing word with
  | nil => simp [ways]
  | cons key path ih =>
    by_cases hkey : many = key
    · subst hkey
      have hone : (many :: path).count one = path.count one := List.count_cons_of_ne hne.symm
      calc ways (wildcardMoves one many) (many :: path) word
        _ ≤ b * (word.tails.map (ways (wildcardMoves one many) path)).sum :=
          ways_many_le hne hb fun letter hm he ↦ hw letter hm (.inr he)
        _ ≤ b * (word.tails.map fun rest ↦ b ^ (path.count one + path.count many) *
              (rest.length + path.count many).choose (path.count many)).sum := by
          refine Nat.mul_le_mul_left b (List.sum_le_sum fun rest hm ↦ ih fun other ho ↦ ?_)
          exact hw other (((List.mem_tails _ _).mp hm).subset ho)
        _ = b ^ ((many :: path).count one + (many :: path).count many) *
              (word.length + (many :: path).count many).choose ((many :: path).count many) := by
          rw [List.sum_map_mul_left, sum_choose_tails, hone, List.count_cons_self, ← Nat.mul_assoc,
            ← Nat.pow_succ']
          rfl
    · have hmany : (key :: path).count many = path.count many :=
        List.count_cons_of_ne (Ne.symm hkey)
      cases word with
      | nil => simp [ways_letter hkey, letterMoves]
      | cons letter rest =>
        calc ways (wildcardMoves one many) (key :: path) (letter :: rest)
          _ ≤ b ^ (if key = one then 1 else 0) * ways (wildcardMoves one many) path rest :=
            ways_letter_le hkey hb (fun he ↦ hw letter List.mem_cons_self (.inl he)) rest
          _ ≤ b ^ (if key = one then 1 else 0) * (b ^ (path.count one + path.count many) *
                (rest.length + path.count many).choose (path.count many)) :=
            Nat.mul_le_mul_left _ (ih fun other ho ↦ hw other (List.mem_cons_of_mem letter ho))
          _ = b ^ ((key :: path).count one + (key :: path).count many) *
                (rest.length + path.count many).choose (path.count many) := by
            rw [hmany, List.count_cons, ← Nat.mul_assoc, ← Nat.pow_add]
            simp only [beq_iff_eq]
            congr 2
            omega
          _ ≤ b ^ ((key :: path).count one + (key :: path).count many) *
                ((letter :: rest).length + (key :: path).count many).choose
                  ((key :: path).count many) := by
            rw [hmany, List.length_cons]
            apply Nat.mul_le_mul_left
            exact Nat.choose_le_choose _ (by omega)

/-- There are so many ways along a path of wildcards that stand for many letters. -/
theorem choose_le_ways (n : Nat) (word : List α) :
    (word.length + n).choose n ≤ ways (wildcardMoves one many) (List.replicate n many) word := by
  induction n generalizing word with
  | zero => simp [ways]
  | succ n ih =>
    rw [← sum_choose_tails, List.replicate_succ, ways_many]
    exact Nat.le_add_left_of_le (List.sum_le_sum fun rest _ ↦ ih rest)

private theorem ways_plain (ho : one ∉ path) (hm : many ∉ path) (word : List α) :
    ways (wildcardMoves one many) path word = if path <+: word then 1 else 0 := by
  induction path generalizing word with
  | nil => simp [ways]
  | cons key path ih =>
    rw [List.mem_cons, not_or] at ho hm
    rw [ways_letter hm.1]
    cases word with
    | nil => simp [letterMoves]
    | cons letter rest =>
      rw [sum_letterMoves, if_neg ho.1, Nat.add_zero, ih ho.2 hm.2]
      simp only [List.cons_prefix_cons, eq_comm (a := key)]
      by_cases he : letter = key
      · simp [he]
      · simp [he]

/-- Without wildcards in a tree there are no more ways than a word has fronts. -/
theorem sum_ways_plain_le {nodes : Finset (List α)}
    (h : ∀ path ∈ nodes, one ∉ path ∧ many ∉ path) (word : List α) :
    ∑ path ∈ nodes, ways (wildcardMoves one many) path word ≤ word.length + 1 := by
  calc ∑ path ∈ nodes, ways (wildcardMoves one many) path word
    _ = ∑ path ∈ nodes, if path <+: word then 1 else 0 :=
      Finset.sum_congr rfl fun path hp ↦ ways_plain (h path hp).1 (h path hp).2 word
    _ = (nodes.filter (· <+: word)).card := (Finset.card_filter _ _).symm
    _ ≤ word.inits.toFinset.card := Finset.card_le_card fun path hp ↦
      List.mem_toFinset.mpr ((List.mem_inits path word).mpr (Finset.mem_filter.mp hp).2)
    _ ≤ word.inits.length := List.toFinset_card_le _
    _ = word.length + 1 := List.length_inits word

end Wildcards

end Broker.Base
