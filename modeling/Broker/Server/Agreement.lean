import Broker.Server.Sessions

/-!
# The two records of subscriptions

The topics recorded for a client are strings, the trie stores level sequences, and
different strings can have the same levels. The records agree as long as no client gives
up one of two such strings while it holds both.
-/

namespace Broker.Server
open Broker.Base Broker.Net Broker.Topic

/-- The trie holds a client's id at exactly the level sequences of its recorded topics. -/
def State.Agree (s : State) : Prop :=
  ∀ path id, s.trie.Holds path id ↔ ∃ topic ∈ s.topics id, splitTopic topic = path

/-- A topic given up next has other levels than the topics its client keeps. -/
def State.KeepsApart (s : State) : Event → Prop
  | .client stack => ∀ id data topic, s.Asks stack id data (.unsubscribe topic) →
      ∀ other ∈ data.topics, splitTopic other = splitTopic topic → other = topic
  | _ => True

namespace State

variable {s t : State}

/-- The recorded topics of a client with an entry. -/
theorem topics_of_subscriber {id : Bytes} {data : SubscriberData}
    (h : s.subscriber id = some data) : s.topics id = data.topics := by
  rw [topics, h]
  rfl

/-- Assigning an entry changes the recorded topics of its client only. -/
theorem topics_of_set {m : UnorderedMap Bytes SubscriberData} {id : Bytes}
    {data : SubscriberData} (h : t.subscribers = UnorderedMap.set m id data)
    (hm : ∀ other, id ≠ other → UnorderedMap.find m other = s.subscriber other) (other : Bytes) :
    t.topics other = if id = other then data.topics else s.topics other := by
  rw [topics, subscriber, h, UnorderedMap.find_set]
  split
  · rfl
  · next hn => rw [hm other hn, topics]

/-- Assigning an entry with the topics there were changes no recorded topic. -/
theorem topics_of_set_self {m : UnorderedMap Bytes SubscriberData} {id : Bytes}
    {data : SubscriberData} (h : t.subscribers = UnorderedMap.set m id data)
    (hm : ∀ other, id ≠ other → UnorderedMap.find m other = s.subscriber other)
    (hd : data.topics = s.topics id) (other : Bytes) : t.topics other = s.topics other := by
  rw [topics_of_set h hm, hd]
  split
  · next he => rw [he]
  · rfl

private theorem Agree.congr (h : s.Agree) (htrie : t.trie = s.trie)
    (htopics : ∀ id, t.topics id = s.topics id) : t.Agree := by
  unfold Agree at h ⊢
  simpa only [htrie, htopics] using h

/-- A change keeps the records in agreement exactly when it does not give up one of several
topics with the same levels. -/
theorem agree_change (h : s.Agree) {id : Bytes} {data : SubscriberData} {change : Change}
    (hd : s.subscriber id = some data) (htrie : t.trie = change.onTrie s.trie id)
    (hsub : t.subscribers = UnorderedMap.set s.subscribers id
      { data with topics := change.onTopics data.topics }) :
    t.Agree ↔ ∀ topic, change = .unsubscribe topic →
      ∀ other ∈ data.topics, splitTopic other = splitTopic topic → other = topic := by
  have htopics := topics_of_set (s := s) hsub fun _ _ ↦ rfl
  have hid (path : List Level) :
      s.trie.Holds path id ↔ ∃ topic ∈ data.topics, splitTopic topic = path := by
    rw [h path id, topics_of_subscriber hd]
  cases change with
  | subscribe topic =>
    refine iff_of_true (fun path other ↦ ?_) (fun _ hc ↦ nomatch hc)
    rw [htrie, Change.onTrie, TopicTrie.holds_addSubscription, htopics]
    by_cases hn : id = other
    · subst hn
      simp only [and_true, ↓reduceIte, hid, Change.onTopics, Finset.exists_mem_insert]
    · simp only [hn, and_false, false_or, ↓reduceIte, h path other]
  | unsubscribe topic =>
    have hheld (path : List Level) (other : Bytes) : t.trie.Holds path other ↔
        s.trie.Holds path other ∧ ¬ (splitTopic topic = path ∧ id = other) := by
      rw [htrie]
      exact TopicTrie.holds_removeSubscription ..
    constructor
    · rintro ha _ ⟨⟩ other hm he
      by_contra hne
      -- The other topic is still recorded, but its levels have left the trie.
      have ho : other ∈ t.topics id := by simp [htopics, Change.onTopics, hne, hm]
      have hh := (ha (splitTopic topic) id).mpr ⟨other, ho, he⟩
      exact ((hheld _ _).mp hh).2 ⟨rfl, rfl⟩
    · intro hapart path other
      rw [hheld, htopics]
      by_cases hn : id = other
      · subst hn
        simp only [and_true, ↓reduceIte, hid, Change.onTopics, Finset.mem_erase]
        constructor
        · rintro ⟨⟨held, hm, rfl⟩, hne⟩
          exact ⟨held, ⟨fun he ↦ hne (he ▸ rfl), hm⟩, rfl⟩
        · rintro ⟨held, ⟨hne, hm⟩, rfl⟩
          exact ⟨⟨held, hm, rfl⟩, fun he ↦ hne (hapart topic rfl held hm he.symm)⟩
      · simp only [hn, and_false, not_false_eq_true, and_true, ↓reduceIte, h path other]

end State

/-- From agreeing records a step leads to agreeing records exactly when it keeps topics with
the same levels apart. -/
theorem Sessions.agree_step {s t : State} (hs : Sessions s) (h : s.Agree) {event : Event}
    (ht : s.step event = some t) : t.Agree ↔ s.KeepsApart event := by
  cases hs.move ht with
  | typed hleft hclosed => exact iff_of_true h trivial
  | stdinClosed hleft => exact iff_of_true h trivial
  | command hplace hread => exact iff_of_true h trivial
  | idle hevent hfds hleft hphase hposition =>
    apply iff_of_true h
    cases event <;> trivial
  | die hevent => obtain rfl | rfl := hevent <;> exact iff_of_true h trivial
  | route hplace hnodup horder hsent => exact iff_of_true h trivial
  | refuse hplace hopen => exact iff_of_true h trivial
  | connect hplace hopen hread hfree =>
    refine iff_of_true (h.congr rfl (State.topics_of_set_self rfl (fun other hn ↦ ?_) rfl)) trivial
    rw [UnorderedMap.find_index, if_neg hn]
    rfl
  | ignore hreading hrecv hlength hnone =>
    have hd := (State.topics_of_subscriber hreading.subscriber).symm
    refine iff_of_true (h.congr rfl (State.topics_of_set_self rfl (fun _ _ ↦ rfl) hd)) ?_
    intro id data topic hasks
    obtain ⟨rfl, rfl, bytes, hl, he, hq⟩ := hasks.of_reading hreading hrecv
    cases he
    exact absurd hq (hnone _)
  | act hreading hrecv hlength hrequested hsent =>
    apply (State.agree_change h hreading.subscriber rfl rfl).trans
    constructor
    · intro hapart id data topic hasks
      obtain ⟨rfl, rfl, bytes, hl, he, hq⟩ := hasks.of_reading hreading hrecv
      cases he
      exact hapart topic (hrequested.unique hq)
    · rintro hapart topic rfl
      exact hapart _ _ topic ⟨_, _, _, _, _, hlength, hreading, hrecv, hrequested⟩
  | short hreading hrecv hresult =>
    apply iff_of_true h
    intro id data topic hasks
    obtain ⟨rfl, rfl, bytes, hl, rfl, hq⟩ := hasks.of_reading hreading hrecv
    exact absurd hl (length_ne_of_short hresult rfl)
  | disconnect hreading hrecv hresult =>
    have hd := (State.topics_of_subscriber hreading.subscriber).symm
    refine iff_of_true (h.congr rfl (State.topics_of_set_self rfl (fun _ _ ↦ rfl) hd)) ?_
    intro id data topic hasks
    obtain ⟨rfl, rfl, bytes, hl, rfl, hq⟩ := hasks.of_reading hreading hrecv
    exact absurd hl (length_ne_of_end hresult rfl)

/-- Along every run that keeps topics with the same levels apart the records agree, so a
client is found for every topic that one of its recorded topics matches; and this is the
weakest such condition: from every state of such a run, a step breaks the agreement
exactly when it breaks the condition. -/
theorem subscriptions_agree {udpfd listenfd : Fd} {s : State}
    (h : Reaches State.step State.KeepsApart (State.initial udpfd listenfd) s) :
    s.Agree ∧
    (∀ id held topic, held ∈ s.topics id →
      PatternMatches (splitTopic held) (splitTopic topic) → id ∈ s.trie.findSubscribers topic) ∧
    ∀ event t, s.step event = some t → (t.Agree ↔ s.KeepsApart event) := by
  have hagree : s.Agree := by
    refine (h.invariant (P := fun s ↦ Sessions s ∧ s.Agree) ⟨Sessions.initial _ _, ?_⟩ ?_).2
    · intro path id
      simp [State.initial, TopicTrie.Holds, TopicTrie.new, State.topics, State.subscriber]
    · exact fun s event t hs ha ht ↦ ⟨hs.1.step ht, (hs.1.agree_step hs.2 ht).mpr ha⟩
  refine ⟨hagree, fun id held topic hm hp ↦ ?_, fun event t ht ↦
    (Sessions.of_reaches h).agree_step hagree ht⟩
  exact (TopicTrie.mem_findSubscribers ..).mpr
    ⟨splitTopic held, (hagree _ _).mpr ⟨held, hm, rfl⟩, hp⟩

/-- Where no client holds two topics with the same levels, every event keeps them apart. -/
theorem State.keepsApart_of_distinct {s : State} (h : ∀ entry ∈ s.subscribers,
    ∀ a ∈ entry.2.topics, ∀ b ∈ entry.2.topics, splitTopic a = splitTopic b → a = b)
    (event : Event) : s.KeepsApart event := by
  cases event with
  | client stack =>
    rintro id data topic ⟨i, fd, sock, bytes, inbox, hl, hr, hb, hq⟩ other hm he
    exact h _ (UnorderedMap.mem_of_find hr.subscriber) other hm topic hq.2.2 he
  | _ => trivial

/-- A client holds `a` and `b/`, gives up `a`, and is still found for `b`. -/
theorem subscriptions_agree_giveUp : ∃ s : State, s.clientName 5 = some [65] ∧
    [98, 47] ∈ s.topics [65] ∧ [97] ∉ s.topics [65] ∧ s.Agree ∧
    [65] ∈ s.trie.findSubscribers [98] := by
  have hrun : (exec (guarded (fun s _ ↦ decide (∀ entry ∈ s.subscribers, ∀ a ∈ entry.2.topics,
      ∀ b ∈ entry.2.topics, splitTopic a = splitTopic b → a = b)) State.step) (State.initial 3 4)
      (joinRound 4 5 0 (simpleClient 65 [simpleRequest 0 [97], simpleRequest 0 [98, 47],
        simpleRequest 1 [97]] []) ++ visitRound 5 0 ++ [.client [], .client [], .client []])).any
      (fun s ↦ s.clientName 5 = some [65] ∧ [98, 47] ∈ s.topics [65] ∧ [97] ∉ s.topics [65]) =
      true := by decide +kernel
  obtain ⟨s, hs, hname, hheld, hgiven⟩ := exists_exec hrun
  have hr := reaches_of_guarded (fun s event ht ↦ s.keepsApart_of_distinct
    (of_decide_eq_true ht) event) .refl hs
  have hmatch : PatternMatches (splitTopic [98, 47]) (splitTopic [98]) :=
    (patternMatches_cons_iff (by decide)).mpr ⟨.inr rfl, patternMatches_nil_iff.mpr rfl⟩
  obtain ⟨hagree, hfound, -⟩ := subscriptions_agree hr
  exact ⟨s, hname, hheld, hgiven, hagree, hfound _ _ _ hheld hmatch⟩

/-- A client subscribes to `a` and to `a/`, which have the same levels, and gives up `a/`. -/
def trailingSlashRun : List Event :=
  joinRound 4 5 0 (simpleClient 65 [simpleRequest 0 [97], simpleRequest 0 [97, 47],
      simpleRequest 1 [97, 47]] []) ++
    visitRound 5 0 ++ [.client [], .client [], .client [], .client [], .proceed]

/-- A client that still holds a topic is no longer found for it. -/
theorem not_agree_trailingSlashRun : ∃ s, Reachable 3 4 s ∧ s.place = .poll ∧ ¬ s.Agree ∧
    s.clientName 5 = some [65] ∧ [97] ∈ s.topics [65] ∧
    [65] ∉ s.trie.findSubscribers [97] := by
  have hrun : (exec State.step (State.initial 3 4) trailingSlashRun).any (fun s ↦
      s.place = .poll ∧ s.clientName 5 = some [65] ∧ [97] ∈ s.topics [65] ∧
      s.trie.root.idsAt (splitTopic [97]) = ∅ ∧ [65] ∉ s.trie.findSubscribers [97]) = true := by
    decide +kernel
  obtain ⟨s, hs, hplace, hname, hheld, hids, hfound⟩ := exists_exec hrun
  refine ⟨s, reaches_of_exec hs, hplace, fun ha ↦ ?_, hname, hheld, hfound⟩
  have hh : [65] ∈ s.trie.root.idsAt (splitTopic [97]) := (ha _ _).mpr ⟨_, hheld, rfl⟩
  rw [hids] at hh
  exact absurd hh (Finset.notMem_empty _)

end Broker.Server
