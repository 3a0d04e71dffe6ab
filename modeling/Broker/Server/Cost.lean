import Broker.Server.Memory
import Broker.Topic.Cost

/-!
# What a datagram costs

The search for the subscribers of a datagram comes to each node once for every way to align its
pattern with a front of the topic. Without wildcards these are the fronts of the topic itself, and
few stars keep it short; but one client that holds a pattern of many stars makes it longer than can
be waited for.
-/

namespace Broker.Server
open Broker.Base Broker.Net Broker.Topic

variable {udpfd listenfd : Fd} {events : List Event} {s : State}

/-- The trie has the paths that lead to patterns that are held. -/
theorem mem_paths_of_run (h : Run (State.initial udpfd listenfd) events s) {path : List Level} :
    path ∈ s.trie.root.paths ↔
      path = [] ∨ ∃ id levels, s.trie.Holds levels id ∧ path <+: levels := by
  rw [TopicTrieNode.mem_paths]
  cases path with
  | nil => exact iff_of_true rfl (.inl rfl)
  | cons token rest =>
    have hne : token :: rest ≠ [] := List.cons_ne_nil token rest
    rw [nodeAt_of_run h hne, or_iff_right hne]

private theorem notMem_of_paths (h : Run (State.initial udpfd listenfd) events s) {level : Level}
    (hnone : ∀ id pattern, s.trie.Holds pattern id → level ∉ pattern) {path : List Level}
    (hm : path ∈ s.trie.root.paths) : level ∉ path := by
  obtain rfl | ⟨id, pattern, hh, hfront⟩ := (mem_paths_of_run h).mp hm
  · exact List.not_mem_nil
  · exact fun hl ↦ hnone id pattern hh (hfront.subset hl)

/-- The cost of a search in a run. The trie has the paths that lead to patterns that are held, and
the calls of a search are the ways along them: along each path no more than a binomial coefficient
in the stars on it, and a factor of two for every wildcard on it where the topic has wildcards among
its levels itself. Without stars in what is held there is at most one way along each path for
another topic, and without any wildcards there the search makes at most one call for each level and
one more. With a pattern that starts with stars, it makes at least as many calls as a binomial
coefficient tells. -/
theorem calls_of_run (h : Run (State.initial udpfd listenfd) events s) :
    let paths := s.trie.root.paths
    (∀ path, path ∈ paths ↔
      path = [] ∨ ∃ id levels, s.trie.Holds levels id ∧ path <+: levels) ∧
    ∀ topic,
      let levels := splitTopic topic
      let calls := s.trie.root.searchCalls levels
      let along := fun path ↦ ways TopicTrieNode.searchMoves path levels
      let stars := fun path : List Level ↦
        (levels.length + path.count star).choose (path.count star)
      s.trie.findSubscribers topic = calls.foldl TopicTrieNode.collect ∅ ∧
      calls.length = ∑ path ∈ paths, along path ∧
      (∀ path ∈ paths, along path ≤ 2 ^ (path.count plus + path.count star) * stars path) ∧
      calls.length ≤ ∑ path ∈ paths, 2 ^ (path.count plus + path.count star) * stars path ∧
      (plus ∉ levels → star ∉ levels →
        (∀ path ∈ paths, along path ≤ stars path) ∧
        calls.length ≤ ∑ path ∈ paths, stars path ∧
        ((∀ id pattern, s.trie.Holds pattern id → star ∉ pattern) →
          (∀ path ∈ paths, along path ≤ 1) ∧ calls.length ≤ paths.card)) ∧
      ((∀ id pattern, s.trie.Holds pattern id → plus ∉ pattern ∧ star ∉ pattern) →
        calls.length ≤ levels.length + 1) ∧
      ∀ n id pattern, s.trie.Holds pattern id → List.replicate n star <+: pattern →
        (levels.length + n + 1).choose n ≤ calls.length := by
  refine ⟨fun _ ↦ mem_paths_of_run h, fun topic ↦
    ⟨?_, ?_, fun path _ ↦ ?_, ?_, fun hp hs ↦ ?_, fun hnone ↦ ?_, ?_⟩⟩
  · exact s.trie.root.collectMatchesRecursive_eq_foldl (splitTopic topic) ∅
  · exact s.trie.root.length_searchCalls (splitTopic topic)
  · exact ways_wildcard_le plus_ne_star one_le_two path fun _ _ _ ↦ le_rfl
  · exact s.trie.root.length_searchCalls_le one_le_two fun _ _ _ ↦ le_rfl
  · have hno : ∀ token ∈ splitTopic topic, token = plus ∨ token = star → 2 ≤ 1 := by
      rintro token hm (rfl | rfl)
      · exact absurd hm hp
      · exact absurd hm hs
    have halong (path : List Level) : ways TopicTrieNode.searchMoves path (splitTopic topic) ≤
        ((splitTopic topic).length + path.count star).choose (path.count star) := by
      have hplain := ways_wildcard_le plus_ne_star le_rfl path hno
      rwa [Nat.one_pow, Nat.one_mul] at hplain
    rw [s.trie.root.length_searchCalls]
    refine ⟨fun path _ ↦ halong path, Finset.sum_le_sum fun path _ ↦ halong path, fun hnone ↦ ?_⟩
    have hone (path : List Level) (hm : path ∈ s.trie.root.paths) :
        ways TopicTrieNode.searchMoves path (splitTopic topic) ≤ 1 := by
      have hle := halong path
      rwa [List.count_eq_zero_of_not_mem (notMem_of_paths h hnone hm), Nat.choose_zero_right]
        at hle
    exact ⟨hone, (Finset.sum_le_sum hone).trans_eq (Finset.card_eq_sum_ones _).symm⟩
  · rw [s.trie.root.length_searchCalls]
    exact sum_ways_plain_le (fun path hm ↦
      ⟨notMem_of_paths h (fun id pattern hh ↦ (hnone id pattern hh).1) hm,
        notMem_of_paths h (fun id pattern hh ↦ (hnone id pattern hh).2) hm⟩) _
  · intro n id pattern hh hfront
    apply s.trie.root.choose_le_length_searchCalls
    intro k hk
    refine (mem_paths_of_run h).mpr (.inr ⟨id, pattern, hh, List.IsPrefix.trans ?_ hfront⟩)
    exact ⟨List.replicate (n - k) star, by rw [List.replicate_append_replicate]; congr 1; omega⟩

/-- A pattern of 25 stars, which fits into a request. -/
def starPattern : Bytes := (List.replicate 24 (ascii ['*', '/'])).flatten ++ ascii ['*']

/-- A client subscribes to it. -/
def starsRun : List Event :=
  joinRound 4 5 0 (simpleClient 65 [simpleRequest 0 starPattern] []) ++ visitRound 5 0 ++
    [.client []]

/-- Behind that request a topic of fifty empty levels, which fits into a datagram, makes the search
for it take more than 10¹⁹ calls. -/
theorem calls_of_run_starsRun : ∃ s, Run (State.initial 3 4) starsRun s ∧
    10 ^ 19 < (s.trie.root.searchCalls (splitTopic (List.replicate 50 slash))).length := by
  have hrun : (exec State.step (State.initial 3 4) starsRun).any (fun s ↦
      [65] ∈ s.trie.root.idsAt (List.replicate 25 star)) = true := by decide +kernel
  obtain ⟨s, hs, hheld⟩ := exists_exec hrun
  have hr : Run (State.initial 3 4) starsRun s := runs_of_exec hs
  have hcalls := ((calls_of_run hr).2 (List.replicate 50 slash)).2.2.2.2.2.2 25 [65] _
    hheld List.prefix_rfl
  have hlength : (splitTopic (List.replicate 50 slash)).length = 50 := by decide +kernel
  have hmany : 10 ^ 19 < (50 + 25 + 1).choose 25 := by
    rw [Nat.choose_eq_descFactorial_div_factorial]
    decide +kernel
  rw [hlength] at hcalls
  exact ⟨s, hr, hmany.trans_le hcalls⟩

end Broker.Server
