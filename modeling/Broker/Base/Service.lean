import Broker.Base.Abstraction
import Mathlib.Data.Set.Insert
import Mathlib.Logic.Function.Basic

/-!
# The service of a broker

Publishing and subscribing in their own terms: who is there, which topics each client holds, the
keys it is reached by, and what is sent to whom. A topic is held under a key; keys and published
topics match or do not. Clients that leave keep what they hold. The history of a service tells
who is there, who holds what, and everything a client has been sent.
-/

namespace Broker.Base

universe u v w x

/-- Who is there, and the topics and the keys each client holds. -/
@[ext]
structure Service (C : Type u) (T : Type v) (P : Type w) where
  online : Set C
  topics : C → Set T
  keys : C → Set P

/-- What happens at a service. A subscription and its end are answered. -/
inductive Act (C : Type u) (T : Type v) (M : Type x)
  | join (client : C)
  | leave (client : C)
  | subscribe (client : C) (topic : T) (answer : M)
  | unsubscribe (client : C) (topic : T) (answer : M)
  | publish (topic : T) (message : M)

variable {C : Type u} {T : Type v} {P : Type w} {M : Type x}

namespace Act

/-- The client that acts. -/
def client : Act C T M → Option C
  | join client => some client
  | leave client => some client
  | subscribe client _ _ => some client
  | unsubscribe client _ _ => some client
  | publish _ _ => none

/-- The answer or the message that an act brings. -/
def brings : Act C T M → Option M
  | subscribe _ _ answer => some answer
  | unsubscribe _ _ answer => some answer
  | publish _ message => some message
  | _ => none

variable [DecidableEq C]

/-- A client comes or goes. -/
def presence (c : C) : Act C T M → Option Bool
  | join client => if client = c then some true else none
  | leave client => if client = c then some false else none
  | _ => none

/-- A client takes a topic or gives it up. -/
def holding [DecidableEq T] (c : C) (topic : T) : Act C T M → Option Bool
  | subscribe client t _ => if client = c ∧ t = topic then some true else none
  | unsubscribe client t _ => if client = c ∧ t = topic then some false else none
  | _ => none

/-- A client takes a topic with this key or gives one up. -/
def keying [DecidableEq P] (key : T → P) (c : C) (p : P) : Act C T M → Option Bool
  | subscribe client t _ => if client = c ∧ key t = p then some true else none
  | unsubscribe client t _ => if client = c ∧ key t = p then some false else none
  | _ => none

/-- A client comes exactly where it joins. -/
theorem presence_eq_some_true {c : C} {a : Act C T M} :
    a.presence c = some true ↔ a = .join c := by
  cases a with
  | join client => simp [presence]
  | leave client => simp [presence]
  | _ => simp [presence]

end Act

namespace Service

/-- Nobody is there and nobody holds anything. -/
def empty : Service C T P := ⟨∅, fun _ ↦ ∅, fun _ ↦ ∅⟩

/-- What can happen: a client comes that is away and goes that is there, and one that is there
takes a topic it does not hold or gives up one it holds. -/
def Legal (s : Service C T P) : Act C T M → Prop
  | .join client => client ∉ s.online
  | .leave client => client ∈ s.online
  | .subscribe client topic _ => client ∈ s.online ∧ topic ∉ s.topics client
  | .unsubscribe client topic _ => client ∈ s.online ∧ topic ∈ s.topics client
  | .publish _ _ => True

variable [DecidableEq C]

/-- What an act makes of the service. Giving up a topic gives up its key, even where another topic
that is still held has the same one. -/
def act (key : T → P) (s : Service C T P) : Act C T M → Service C T P
  | .join client => { s with online := insert client s.online }
  | .leave client => { s with online := s.online \ {client} }
  | .subscribe client topic _ => { s with
      topics := Function.update s.topics client (insert topic (s.topics client))
      keys := Function.update s.keys client (insert (key topic) (s.keys client)) }
  | .unsubscribe client topic _ => { s with
      topics := Function.update s.topics client (s.topics client \ {topic})
      keys := Function.update s.keys client (s.keys client \ {key topic}) }
  | .publish _ _ => s

/-- A client is there and one of its keys matches a topic. -/
def Reached (Matches : P → T → Prop) (s : Service C T P) (c : C) (topic : T) : Prop :=
  c ∈ s.online ∧ ∃ p ∈ s.keys c, Matches p topic

/-- What is sent to a client: the answers to what it asks for, and the messages that reach it. -/
noncomputable def sent (Matches : P → T → Prop) (c : C) (s : Service C T P) : Act C T M → List M
  | .subscribe client _ answer => if client = c then [answer] else []
  | .unsubscribe client _ answer => if client = c then [answer] else []
  | .publish topic message =>
    open Classical in if s.Reached Matches c topic then [message] else []
  | _ => []

/-- What is sent is what an act brings: the answer to its client, or the message that is
published. -/
theorem mem_sent {Matches : P → T → Prop} {c : C} {s : Service C T P} {a : Act C T M} {m : M}
    (h : m ∈ s.sent Matches c a) : a.brings = some m := by
  cases a with
  | subscribe client topic answer =>
    rw [sent] at h
    split at h
    · exact congrArg some (List.mem_singleton.mp h).symm
    · cases h
  | unsubscribe client topic answer =>
    rw [sent] at h
    split at h
    · exact congrArg some (List.mem_singleton.mp h).symm
    · cases h
  | publish topic message =>
    rw [sent] at h
    split at h
    · exact congrArg some (List.mem_singleton.mp h).symm
    · cases h
  | _ => cases h

variable {key : T → P} {Matches : P → T → Prop} {s : Service C T P} {c : C}

/-- A history whose acts are all legal. -/
abbrev History (key : T → P) (s : Service C T P) (acts : List (Act C T M)) : Prop :=
  Lawful Legal (act key) s acts

/-- A client comes and goes in turn, and is there when it came last. -/
theorem online_of_history {acts : List (Act C T M)} (h : History key s acts) (hc : c ∉ s.online) :
    Alternates true false (acts.filterMap (Act.presence c)) ∧
      (c ∈ (acts.foldl (act key) s).online ↔
        (acts.filterMap (Act.presence c)).getLast? = some true) := by
  refine switched (P := fun s ↦ c ∈ s.online) ?_ ?_ ?_ hc h
  · intro s a hl hs
    cases a with
    | join client =>
      obtain ⟨rfl, -⟩ := Option.ite_none_right_eq_some.mp hs
      exact ⟨hl, Set.mem_insert client _⟩
    | _ => simp [Act.presence] at hs
  · intro s a hl hs
    cases a with
    | leave client =>
      obtain ⟨rfl, -⟩ := Option.ite_none_right_eq_some.mp hs
      exact ⟨hl, fun hm ↦ hm.2 rfl⟩
    | _ => simp [Act.presence] at hs
  · intro s a _ hs
    cases a with
    | join client =>
      have hne : c ≠ client := by
        rintro rfl
        simp [Act.presence] at hs
      simp [act, hne]
    | leave client =>
      have hne : c ≠ client := by
        rintro rfl
        simp [Act.presence] at hs
      simp [act, hne]
    | _ => exact Iff.rfl

/-- A client takes and gives up a topic in turn, and holds it when it took it last. -/
theorem topics_of_history [DecidableEq T] {acts : List (Act C T M)} (h : History key s acts)
    {topic : T} (ht : topic ∉ s.topics c) :
    Alternates true false (acts.filterMap (Act.holding c topic)) ∧
      (topic ∈ (acts.foldl (act key) s).topics c ↔
        (acts.filterMap (Act.holding c topic)).getLast? = some true) := by
  refine switched (P := fun s ↦ topic ∈ s.topics c) ?_ ?_ ?_ ht h
  · intro s a hl hs
    cases a with
    | subscribe client t answer =>
      obtain ⟨⟨rfl, rfl⟩, -⟩ := Option.ite_none_right_eq_some.mp hs
      exact ⟨hl.2, by simp [act]⟩
    | _ => simp [Act.holding] at hs
  · intro s a hl hs
    cases a with
    | unsubscribe client t answer =>
      obtain ⟨⟨rfl, rfl⟩, -⟩ := Option.ite_none_right_eq_some.mp hs
      exact ⟨hl.2, by simp [act]⟩
    | _ => simp [Act.holding] at hs
  · intro s a _ hs
    cases a with
    | subscribe client t answer =>
      have hne : ¬ (client = c ∧ t = topic) := by simpa [Act.holding] using hs
      by_cases hc : client = c
      · subst hc
        simp [act, Ne.symm (fun he ↦ hne ⟨rfl, he⟩ : t ≠ topic)]
      · simp [act, Function.update_of_ne (Ne.symm hc)]
    | unsubscribe client t answer =>
      have hne : ¬ (client = c ∧ t = topic) := by simpa [Act.holding] using hs
      by_cases hc : client = c
      · subst hc
        simp [act, Ne.symm (fun he ↦ hne ⟨rfl, he⟩ : t ≠ topic)]
      · simp [act, Function.update_of_ne (Ne.symm hc)]
    | _ => exact Iff.rfl

/-- A client holds a key when what it did last with a topic of that key was to take it. -/
theorem keys_of_acts [DecidableEq P] (acts : List (Act C T M)) {p : P} (hp : p ∉ s.keys c) :
    p ∈ (acts.foldl (act key) s).keys c ↔
      (acts.filterMap (Act.keying key c p)).getLast? = some true := by
  induction acts using List.reverseRecOn with
  | nil => exact iff_of_false hp (by simp)
  | append_singleton acts a ih =>
    rw [List.foldl_append, List.foldl_cons, List.foldl_nil, List.filterMap_append]
    -- What is done last with the key decides, and everything else leaves it alone.
    have hkept (hk : a.keying key c p = none)
        (hsame : p ∈ ((acts.foldl (act key) s).act key a).keys c ↔
          p ∈ (acts.foldl (act key) s).keys c) :
        p ∈ ((acts.foldl (act key) s).act key a).keys c ↔
          (acts.filterMap (Act.keying key c p) ++ [a].filterMap (Act.keying key c p)).getLast? =
            some true := by
      rw [List.filterMap_cons_none hk, List.filterMap_nil, List.append_nil, hsame, ih]
    cases a with
    | subscribe client t answer =>
      by_cases he : client = c ∧ key t = p
      · obtain ⟨rfl, rfl⟩ := he
        simp [act, Act.keying]
      · refine hkept (if_neg he) ?_
        by_cases hc : client = c
        · subst hc
          simp [act, Ne.symm (fun hk ↦ he ⟨rfl, hk⟩ : key t ≠ p)]
        · simp [act, Function.update_of_ne (Ne.symm hc)]
    | unsubscribe client t answer =>
      by_cases he : client = c ∧ key t = p
      · obtain ⟨rfl, rfl⟩ := he
        simp [act, Act.keying]
      · refine hkept (if_neg he) ?_
        by_cases hc : client = c
        · subst hc
          simp [act, Ne.symm (fun hk ↦ he ⟨rfl, hk⟩ : key t ≠ p)]
        · simp [act, Function.update_of_ne (Ne.symm hc)]
    | _ => exact hkept rfl Iff.rfl

/-- Every key is that of a topic its client holds. -/
def Backed (key : T → P) (s : Service C T P) : Prop :=
  ∀ c, ∀ p ∈ s.keys c, ∃ t ∈ s.topics c, key t = p

/-- An act keeps every held topic backed by its key. -/
theorem Backed.act (h : s.Backed key) (a : Act C T M) : (s.act key a).Backed key := by
  intro c p hp
  cases a with
  | subscribe client t answer =>
    by_cases hc : c = client
    · subst hc
      simp only [Service.act, Function.update_self, Set.mem_insert_iff] at hp ⊢
      obtain rfl | hp := hp
      · exact ⟨t, .inl rfl, rfl⟩
      · obtain ⟨held, hm, hk⟩ := h c p hp
        exact ⟨held, .inr hm, hk⟩
    · simp only [Service.act, Function.update_of_ne hc] at hp ⊢
      exact h c p hp
  | unsubscribe client t answer =>
    by_cases hc : c = client
    · subst hc
      simp only [Service.act, Function.update_self, Set.mem_sdiff, Set.mem_singleton_iff] at hp ⊢
      obtain ⟨held, hm, hk⟩ := h c p hp.1
      exact ⟨held, ⟨hm, fun he ↦ hp.2 (he ▸ hk.symm)⟩, hk⟩
    · simp only [Service.act, Function.update_of_ne hc] at hp ⊢
      exact h c p hp
  | _ => exact h c p hp

/-- Any acts keep every held topic backed by its key. -/
theorem Backed.acts (h : s.Backed key) (acts : List (Act C T M)) :
    (acts.foldl (Service.act key) s).Backed key := by
  induction acts generalizing s with
  | nil => exact h
  | cons a acts ih => exact ih (h.act a)

private theorem act_of_other (key : T → P) (s : Service C T P) {a : Act C T M}
    (h : a.client ≠ some c) :
    (c ∈ (s.act key a).online ↔ c ∈ s.online) ∧ (s.act key a).topics c = s.topics c ∧
      (s.act key a).keys c = s.keys c := by
  have hne {client : C} (hn : some client ≠ some c) : c ≠ client := fun he ↦ hn (he ▸ rfl)
  cases a with
  | join client => exact ⟨by simp [act, hne h], rfl, rfl⟩
  | leave client => exact ⟨by simp [act, hne h], rfl, rfl⟩
  | subscribe client t answer =>
    exact ⟨Iff.rfl, Function.update_of_ne (hne h) _ _, Function.update_of_ne (hne h) _ _⟩
  | unsubscribe client t answer =>
    exact ⟨Iff.rfl, Function.update_of_ne (hne h) _ _, Function.update_of_ne (hne h) _ _⟩
  | publish t message => exact ⟨Iff.rfl, rfl, rfl⟩

private theorem reached_of_other {a : Act C T M} (h : a.client ≠ some c) (topic : T) :
    (s.act key a).Reached Matches c topic ↔ s.Reached Matches c topic := by
  obtain ⟨honline, -, hkeys⟩ := act_of_other key s h
  rw [Reached, Reached, honline, hkeys]

/-- While others act, a client that is reached by all topics that reach another one is sent all
that the other one is sent, in the same order. -/
theorem sent_sublist {acts : List (Act C T M)} {d : C}
    (h : ∀ a ∈ acts, a.client ≠ some c ∧ a.client ≠ some d)
    (hd : ∀ topic, s.Reached Matches c topic → s.Reached Matches d topic) :
    (outputs (act key) (sent Matches c) s acts).Sublist
      (outputs (act key) (sent Matches d) s acts) := by
  induction acts generalizing s with
  | nil => exact List.Sublist.slnil
  | cons a acts ih =>
    obtain ⟨hac, had⟩ := h a List.mem_cons_self
    have hrest := ih (s := s.act key a) (fun b hb ↦ h b (List.mem_cons_of_mem _ hb))
      fun topic hr ↦ (reached_of_other had topic).mpr
        (hd topic ((reached_of_other hac topic).mp hr))
    refine List.Sublist.append ?_ hrest
    cases a with
    | subscribe client t answer =>
      rw [sent, if_neg fun he ↦ hac (congrArg some he)]
      exact List.nil_sublist _
    | unsubscribe client t answer =>
      rw [sent, if_neg fun he ↦ hac (congrArg some he)]
      exact List.nil_sublist _
    | publish t message =>
      rw [sent, sent]
      split
      · next hr => rw [if_pos (hd t hr)]
      · exact List.nil_sublist _
    | _ => exact List.Sublist.refl _

end Service
end Broker.Base
