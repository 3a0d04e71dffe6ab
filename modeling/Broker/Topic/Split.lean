import Broker.Base.Bytes
import Broker.Base.Wildcard

/-!
# Topic strings and their levels

`TopicTrie::split_topic` (`TopicTrie.cpp:21–31`) and the meaning of a level inside a
pattern: `+` is one arbitrary level, `*` is any run of levels, everything else is literal.
-/

namespace Broker.Topic
open Broker.Base

/-- One level of a topic or of a pattern. -/
abbrev Level := Bytes

/-- The separator `'/'`. -/
def slash : UInt8 := 47

/-- The single-level wildcard `"+"`. -/
def plus : Level := ascii ['+']

/-- The multi-level wildcard `"*"`. -/
def star : Level := ascii ['*']

/-- The `std::getline` loop of `split_topic`: `token` holds the characters extracted
since the last separator. A call that reaches the end without extracting a character
fails, so a trailing separator adds no empty level. -/
def splitLoop (token : Bytes) : Bytes → List Level
  | [] => if token = [] then [] else [token]
  | b :: rest => if b = slash then token :: splitLoop [] rest else splitLoop (token ++ [b]) rest

/-- `TopicTrie::split_topic`, `TopicTrie.cpp:21–31`. -/
def splitTopic (topic : Bytes) : List Level := splitLoop [] topic

/-- What a level of a subscribed pattern stands for. -/
def levelAtom (level : Level) : Atom Level :=
  if level = plus then .one else if level = star then .many else .exact level

/-- The reference relation between the levels of a pattern and those of a published topic.
Topic levels are plain text, also when they are spelled `+` or `*`. -/
def PatternMatches (pattern topic : List Level) : Prop := Matches (pattern.map levelAtom) topic

/-- The two wildcards are different levels. -/
theorem plus_ne_star : plus ≠ star := by decide

/-- The pattern without levels stands for the topic without levels. -/
theorem patternMatches_nil_iff {topic : List Level} : PatternMatches [] topic ↔ topic = [] :=
  Matches.nil_iff

/-- A leading `*` leaves some suffix of the topic to the rest of the pattern. -/
theorem patternMatches_star_iff {pattern topic : List Level} :
    PatternMatches (star :: pattern) topic ↔ ∃ rest ∈ topic.tails, PatternMatches pattern rest := by
  have ha : levelAtom star = .many := by
    rw [levelAtom, if_neg (Ne.symm plus_ne_star), if_pos rfl]
  rw [PatternMatches, List.map_cons, ha, Matches.many_iff]
  rfl

/-- A leading level other than `*` takes the first topic level: any if it is `+`, its own
text otherwise. -/
theorem patternMatches_cons_iff {level first : Level} {pattern topic : List Level}
    (hs : level ≠ star) :
    PatternMatches (level :: pattern) (first :: topic) ↔
      (level = plus ∨ level = first) ∧ PatternMatches pattern topic := by
  unfold PatternMatches
  rw [List.map_cons, levelAtom, if_neg hs]
  split
  · next hp => simp [hp, Matches.one_cons_iff]
  · next hp => simp [hp, Matches.exact_cons_iff]

/-- A leading level other than `*` needs a topic level. -/
theorem not_patternMatches_cons_nil {level : Level} {pattern : List Level} (hs : level ≠ star) :
    ¬ PatternMatches (level :: pattern) [] := by
  unfold PatternMatches
  rw [List.map_cons, levelAtom, if_neg hs]
  split
  · exact Matches.not_one_nil
  · exact Matches.not_exact_nil

end Broker.Topic
