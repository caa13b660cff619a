import HiveGo.SubscriptionManager
import Mathlib.Data.List.Count

/-! The subscription counts add up: without a limit, every call keeps the global counts equal
to the sums over the connected clients, and the events about topics follow them. -/
namespace HiveGo.SubscriptionManager
open ShrinkingMap Option Int Cleanup Event

variable {C T : Type} [DecidableEq C] [DecidableEq T]
variable {s : State C T}
variable {topic : T} {done : Cleanup T}

/-- The count of a topic, zero when there is none. -/
def countOf (topic : T) (counts : ShrinkingMap T Int) : Int := (counts.get topic).getD 0

/-- One if the topic has a count. -/
def present (topic : T) (counts : ShrinkingMap T Int) : Int := if counts.has topic then 1 else 0

/-- No stored count is less than one. -/
def Positive (counts : ShrinkingMap T Int) : Prop :=
  ∀ topic count, counts.get topic = some count → 1 ≤ count

/-- How often the topic was added, less how often it was removed. -/
def balance (topic : T) (events : List (Event C T)) : Int :=
  events.count (.topicAdded topic) - events.count (.topicRemoved topic)

/-- The global counts are the sums of the clients' counts but for what is still owed in the
middle of a call, and the topics that have one are those added and not removed. -/
structure Inv (s : State C T) (owed : T → Int) : Prop where
  sums : ∀ topic, s.subscribers.total (countOf topic) = countOf topic s.topics + owed topic
  topics : Positive s.topics
  clients : ∀ clientID counts, s.subscribers.get clientID = some counts → Positive counts
  balance : ∀ topic, balance topic s.events = present topic s.topics

theorem countOf_nonneg (pos : Positive counts) : 0 ≤ countOf topic counts := by
  unfold countOf
  cases found : counts.get topic with
  | none => exact le_refl 0
  | some count =>
    have := pos topic count found
    simp only [getD_some]
    omega

theorem has_iff_countOf (pos : Positive counts) :
    counts.has topic = true ↔ 0 < countOf topic counts := by
  unfold has countOf
  cases found : counts.get topic with
  | none => simp
  | some count =>
    have := pos topic count found
    simp only [isSome_some, getD_some, true_iff]
    omega

theorem countOf_set :
    countOf other (counts.set topic count) = if topic = other then count else countOf other counts := by
  unfold countOf
  rw [get_set]
  split <;> rfl

theorem countOf_delete :
    countOf other (counts.delete topic) = if topic = other then 0 else countOf other counts := by
  unfold countOf
  rw [get_delete]
  split <;> rfl

theorem present_set :
    present other (counts.set topic count) = if topic = other then 1 else present other counts := by
  unfold present has
  rw [get_set]
  split <;> rfl

theorem present_delete :
    present other (counts.delete topic) = if topic = other then 0 else present other counts := by
  unfold present has
  rw [get_delete]
  split <;> rfl

theorem present_of_get (found : counts.get topic = some count) : present topic counts = 1 := by
  simp [present, has, found]

theorem Positive.set (pos : Positive counts) (topic : T) (atLeast : 1 ≤ count) :
    Positive (counts.set topic count) := by
  intro other stored found
  rw [get_set] at found
  split at found
  · cases found
    exact atLeast
  · exact pos other stored found

theorem Positive.delete (pos : Positive counts) (topic : T) : Positive (counts.delete topic) := by
  intro other stored found
  rw [get_delete] at found
  split at found
  · cases found
  · exact pos other stored found

theorem positive_new : Positive (.new : ShrinkingMap T Int) := by
  intro topic count found
  cases found

theorem balance_append (topic : T) (events others : List (Event C T)) :
    balance topic (events ++ others) = balance topic events + balance topic others := by
  unfold balance
  rw [List.count_append, List.count_append]
  omega

theorem visit_cases (done : Cleanup T) :
    (done.topics.get entry.1 = none ∧ (done.visit entry).topics = done.topics ∧
      (done.visit entry).removedTopics = done.removedTopics) ∨
    ∃ topicsCount, done.topics.get entry.1 = some topicsCount ∧
      ((topicsCount - entry.2 ≤ 0 ∧ (done.visit entry).topics = done.topics.delete entry.1 ∧
          (done.visit entry).removedTopics = done.removedTopics ++ [entry.1]) ∨
        (0 < topicsCount - entry.2 ∧
          (done.visit entry).topics = done.topics.set entry.1 (topicsCount - entry.2) ∧
          (done.visit entry).removedTopics = done.removedTopics)) := by
  obtain ⟨topic, count⟩ := entry
  cases found : done.topics.get topic with
  | none => exact .inl ⟨rfl, by simp [visit, found]⟩
  | some topicsCount =>
    refine .inr ⟨topicsCount, rfl, ?_⟩
    by_cases gone : topicsCount - count ≤ 0
    · exact .inl ⟨gone, by simp [visit, found, gone]⟩
    · exact .inr ⟨by omega, by simp [visit, found, gone]⟩

theorem visit_positive (pos : Positive done.topics) : Positive (done.visit entry).topics := by
  obtain ⟨-, topics, -⟩ | ⟨topicsCount, -, ⟨-, topics, -⟩ | ⟨left, topics, -⟩⟩ := visit_cases done
  · exact topics ▸ pos
  · exact topics ▸ pos.delete entry.1
  · exact topics ▸ pos.set entry.1 left

/-- A topic that loses its count is among the removed ones. -/
theorem visit_present :
    present topic (done.visit entry).topics + (done.visit entry).removedTopics.count topic =
      present topic done.topics + done.removedTopics.count topic := by
  obtain ⟨-, topics, removed⟩ |
    ⟨topicsCount, found, ⟨-, topics, removed⟩ | ⟨-, topics, removed⟩⟩ := visit_cases done
  · rw [topics, removed]
  · have counted := present_of_get found
    rw [topics, removed, present_delete, List.count_append, List.count_singleton]
    by_cases same : entry.1 = topic
    · subst same
      simp [counted]
      omega
    · simp [same]
  · have counted := present_of_get found
    rw [topics, removed, present_set]
    by_cases same : entry.1 = topic
    · subst same
      rw [if_pos rfl, counted]
    · rw [if_neg same]

theorem visit_countOf (atLeast : 1 ≤ entry.2) (covered : entry.2 ≤ countOf entry.1 done.topics)
    (topic : T) : countOf topic (done.visit entry).topics =
      countOf topic done.topics - if entry.1 = topic then entry.2 else 0 := by
  obtain ⟨absent, -⟩ | ⟨topicsCount, found, left⟩ := visit_cases done
  · rw [countOf, absent, getD_none] at covered
    omega
  · have counted : countOf entry.1 done.topics = topicsCount := by rw [countOf, found, getD_some]
    obtain ⟨gone, topics, -⟩ | ⟨-, topics, -⟩ := left
    · rw [topics, countOf_delete]
      split
      · rename_i same
        rw [← same, counted]
        omega
      · rw [sub_zero]
    · rw [topics, countOf_set]
      split
      · rename_i same
        rw [← same, counted]
      · rw [sub_zero]

/-- The whole loop over the topics of a client, whose counts the global ones cover. -/
theorem visit_all {entries : List (T × Int)} (nodup : OrderedMap.Distinct entries)
    (done : Cleanup T) (pos : Positive done.topics)
    (covered : ∀ entry ∈ entries, 1 ≤ entry.2 ∧ entry.2 ≤ countOf entry.1 done.topics) :
    Positive (entries.foldl visit done).topics ∧
      ∀ topic,
        countOf topic (entries.foldl visit done).topics =
            countOf topic done.topics - (OrderedMap.get topic entries).getD 0 ∧
          present topic (entries.foldl visit done).topics +
              (entries.foldl visit done).removedTopics.count topic =
            present topic done.topics + done.removedTopics.count topic := by
  induction entries generalizing done with
  | nil => exact ⟨pos, fun topic => ⟨(sub_zero _).symm, rfl⟩⟩
  | cons entry entries ih =>
    obtain ⟨fresh, nodup⟩ := List.nodup_cons.mp nodup
    obtain ⟨atLeast, enough⟩ := covered entry List.mem_cons_self
    have counted := visit_countOf atLeast enough
    have still : ∀ other ∈ entries,
        1 ≤ other.2 ∧ other.2 ≤ countOf other.1 (done.visit entry).topics := by
      intro other mem
      have ne : entry.1 ≠ other.1 := fun same => fresh (same ▸ List.mem_map_of_mem mem)
      rw [counted other.1, if_neg ne, sub_zero]
      exact covered other (List.mem_cons_of_mem _ mem)
    obtain ⟨kept, rest⟩ := ih nodup _ (visit_positive pos) still
    refine ⟨kept, fun topic => ?_⟩
    obtain ⟨later, follows⟩ := rest topic
    refine ⟨?_, follows.trans visit_present⟩
    rw [List.foldl_cons, later, counted topic, OrderedMap.get]
    split
    · have absent : OrderedMap.get topic entries = none := by
        apply OrderedMap.get_eq_none.mpr
        rename_i same
        exact same ▸ fresh
      rw [absent, getD_none, getD_some, sub_zero]
    · rw [sub_zero]

theorem balance_events (clientID : C) (topic : T) :
    balance topic (done.events clientID) = -(done.removedTopics.count topic : Int) := by
  have unsubscribed : ∀ event, (∀ other, event ≠ .topicUnsubscribed clientID other) →
      (done.unsubscribedTopics.map (topicUnsubscribed clientID)).count event = 0 := by
    intro event other
    refine List.count_eq_zero.mpr fun mem => ?_
    obtain ⟨unsubscribed, -, same⟩ := List.mem_map.mp mem
    exact other unsubscribed same.symm
  have added : (done.removedTopics.map (topicRemoved (C := C))).count (.topicAdded topic) = 0 := by
    refine List.count_eq_zero.mpr fun mem => ?_
    obtain ⟨removed, -, same⟩ := List.mem_map.mp mem
    cases same
  have removed : (done.removedTopics.map (topicRemoved (C := C))).count (.topicRemoved topic) =
      done.removedTopics.count topic :=
    List.count_map_of_injective _ _ (fun _ _ => topicRemoved.inj) topic
  unfold balance events
  rw [List.count_append, List.count_append, added, removed, unsubscribed _ (by simp),
    unsubscribed _ (by simp)]
  omega

/-- The client's counts are replaced: the global counts owe the difference. -/
theorem Inv.setClient (inv : Inv s owed) (clientID : C) (pos : Positive counts) :
    Inv { s with subscribers := s.subscribers.set clientID counts } (fun topic =>
        owed topic + countOf topic counts - s.subscribers.weightAt (countOf topic) clientID) where
  sums topic := by
    rw [total_set, inv.sums topic]
    dsimp only
    omega
  topics := inv.topics
  clients other stored found := by
    rw [get_set] at found
    split at found
    · cases found
      exact pos
    · exact inv.clients other stored found
  balance := inv.balance

theorem Inv.counts_nonneg (inv : Inv s owed) (topic : T) :
    ∀ clientID counts, s.subscribers.get clientID = some counts → 0 ≤ countOf topic counts :=
  fun clientID counts found => countOf_nonneg (inv.clients clientID counts found)

theorem Inv.countOf_le (inv : Inv s fun _ => 0) (found : s.subscribers.get clientID = some counts)
    (topic : T) : countOf topic counts ≤ countOf topic s.topics := by
  have sums := inv.sums topic
  have bound := weight_le_total (inv.counts_nonneg topic) found
  omega

theorem cleanup_of_absent (absent : s.subscribers.get clientID = none) :
    cleanupClientWithoutLocking s clientID order = (s, none) := by
  rw [cleanupClientWithoutLocking, absent]

/-- What the cleanup leaves: the client's counts are gone from the global ones, and the
topics without any are the removed ones. -/
theorem cleanup_of_connected (inv : Inv s fun _ => 0)
    (found : s.subscribers.get clientID = some counts) :
    ∃ done,
      cleanupClientWithoutLocking s clientID order =
        ({ s with subscribers := s.subscribers.delete clientID, topics := done.topics }, some done) ∧
      Positive done.topics ∧
      ∀ topic, countOf topic done.topics = countOf topic s.topics - countOf topic counts ∧
        present topic done.topics + done.removedTopics.count topic = present topic s.topics := by
  have perm := order.perm counts.entries
  have nodup :=
    (perm.map Prod.fst).nodup_iff.mpr counts.distinct
  have covered : ∀ entry ∈ order.visit counts.entries,
      1 ≤ entry.2 ∧ entry.2 ≤ countOf entry.1 s.topics := by
    intro entry mem
    have stored := mem_entries.mp (perm.mem_iff.mp mem)
    have bound := inv.countOf_le found entry.1
    rw [countOf, stored, getD_some] at bound
    exact ⟨inv.clients clientID counts found entry.1 entry.2 stored, bound⟩
  obtain ⟨pos, visited⟩ := visit_all nodup { topics := s.topics } inv.topics covered
  refine ⟨_, by rw [cleanupClientWithoutLocking, found], pos, fun topic => ?_⟩
  obtain ⟨counted, follows⟩ := visited topic
  rw [OrderedMap.get_perm perm nodup] at counted
  exact ⟨counted, follows.trans (add_zero _)⟩

/-- The global counts take what is owed, and the events say which topics came and went. -/
theorem Inv.settle (inv : Inv s owed) {topics : ShrinkingMap T Int} {events : List (Event C T)}
    (pos : Positive topics)
    (counted : ∀ topic, countOf topic topics = countOf topic s.topics + owed topic)
    (follows : ∀ topic, present topic s.topics + SubscriptionManager.balance topic events =
        present topic topics) :
    Inv ({ s with topics := topics }.trigger events) fun _ => 0 where
  sums topic := by
    have sums := inv.sums topic
    have taken := counted topic
    change s.subscribers.total (countOf topic) = countOf topic topics + 0
    omega
  topics := pos
  clients := inv.clients
  balance topic := by
    have pre := inv.balance topic
    have after := follows topic
    change SubscriptionManager.balance topic (s.events ++ events) = present topic topics
    rw [balance_append]
    omega

section

variable (inv : Inv s fun _ => 0)
include inv

/-- Events that say nothing of added or removed topics. -/
theorem Inv.trigger {events : List (Event C T)}
    (quiet : ∀ topic, SubscriptionManager.balance topic events = 0) :
    Inv (s.trigger events) fun _ => 0 :=
  inv.settle inv.topics (fun _ => (add_zero _).symm) fun topic => by rw [quiet topic, add_zero]

/-- Without the client, the global counts owe what it had. -/
theorem Inv.deleteClient (found : s.subscribers.get clientID = some counts) :
    Inv { s with subscribers := s.subscribers.delete clientID } fun topic => -countOf topic counts where
  sums topic := by
    rw [total_delete, inv.sums topic, weightAt, found]
    simp only [map_some, getD_some]
    omega
  topics := inv.topics
  clients other stored kept := by
    rw [get_delete] at kept
    split at kept
    · cases kept
    · exact inv.clients other stored kept
  balance := inv.balance

/-- Without the client, and with the events of its cleanup, nothing is owed. -/
theorem Inv.cleaned (found : s.subscribers.get clientID = some counts) (pos : Positive done.topics)
    (visited : ∀ topic, countOf topic done.topics = countOf topic s.topics - countOf topic counts ∧
      present topic done.topics + done.removedTopics.count topic = present topic s.topics)
    (quiet : ∀ topic, SubscriptionManager.balance topic others = 0) :
    Inv ({ s with subscribers := s.subscribers.delete clientID, topics := done.topics }.trigger
      (done.events clientID ++ others)) fun _ => 0 := by
  refine (inv.deleteClient found).settle pos (fun topic => ?_) fun topic => ?_
  · rw [(visited topic).1]
    exact Int.sub_eq_add_neg
  · have follows := (visited topic).2
    rw [balance_append, balance_events, quiet topic]
    dsimp only
    omega

/-- A new client has no counts, so nothing is owed for it. -/
theorem Inv.connected (absent : s.subscribers.get clientID = none) :
    Inv { s with subscribers := s.subscribers.set clientID .new } fun _ => 0 := by
  have set := inv.setClient clientID positive_new
  have nothing : ∀ topic, (0 : Int) + countOf topic .new -
      s.subscribers.weightAt (countOf topic) clientID = 0 := by
    intro topic
    rw [weightAt, absent]
    rfl
  simpa only [nothing] using set

theorem connect_inv : Inv (connect s clientID order) fun _ => 0 := by
  unfold connect
  cases found : s.subscribers.get clientID with
  | none =>
    rw [cleanup_of_absent found]
    exact (inv.connected found).trigger fun topic => by simp [balance]
  | some counts =>
    obtain ⟨done, cleaned, pos, visited⟩ := cleanup_of_connected inv found
    rw [cleaned]
    have quiet : ∀ topic : T, balance topic
        [clientDisconnected clientID, clientConnected clientID] = 0 := by
      simp [balance]
    exact (inv.cleaned found pos visited quiet).connected (get_delete_self _)

theorem disconnect_inv : Inv (disconnect s clientID order).1 fun _ => 0 := by
  unfold disconnect
  cases found : s.subscribers.get clientID with
  | none =>
    rw [cleanup_of_absent found]
    exact inv
  | some counts =>
    obtain ⟨done, cleaned, pos, visited⟩ := cleanup_of_connected inv found
    rw [cleaned]
    exact inv.cleaned found pos visited fun topic => by simp [balance]

end

/-- One subscription of the topic. -/
def one (topic other : T) : Int := if topic = other then 1 else 0

theorem countOf_set_more (more : count = countOf topic counts + 1) (other : T) :
    countOf other (counts.set topic count) = countOf other counts + one topic other := by
  rw [countOf_set, one]
  split
  · rename_i same
    rw [more, same]
  · rw [add_zero]

theorem countOf_set_less (less : count = countOf topic counts - 1) (other : T) :
    countOf other (counts.set topic count) = countOf other counts + -one topic other := by
  rw [countOf_set, one]
  split
  · rename_i same
    rw [less, same]
    omega
  · omega

theorem countOf_delete_last (last : countOf topic counts = 1) (other : T) :
    countOf other (counts.delete topic) = countOf other counts + -one topic other := by
  rw [countOf_delete, one]
  split
  · rename_i same
    rw [← same, last]
    omega
  · omega

theorem addTopic_inv (inv : Inv s (one topic)) : Inv (addTopic s clientID topic) fun _ => 0 := by
  unfold addTopic
  cases found : s.topics.get topic with
  | none =>
    have absent : countOf topic s.topics = 0 := by rw [countOf, found, getD_none]
    have missing : present topic s.topics = 0 := by simp [present, has, found]
    refine inv.settle (inv.topics.set topic (le_refl 1)) (countOf_set_more (by omega)) fun other => ?_
    rw [present_set]
    by_cases same : topic = other
    · subst same
      simp [balance, missing]
    · simp [balance, same]
  | some count =>
    have counted : countOf topic s.topics = count := by rw [countOf, found, getD_some]
    have atLeast := inv.topics topic count found
    refine inv.settle (inv.topics.set topic (by omega)) (countOf_set_more (by rw [counted]))
      fun other => ?_
    rw [present_set]
    by_cases same : topic = other
    · subst same
      simp [balance, present_of_get found]
    · simp [balance, same]

theorem removeTopic_inv (inv : Inv s fun other => -one topic other)
    (pos : 1 ≤ countOf topic s.topics) : Inv (removeTopic s clientID topic) fun _ => 0 := by
  unfold removeTopic
  cases found : s.topics.get topic with
  | none =>
    rw [countOf, found, getD_none] at pos
    omega
  | some count =>
    have counted : countOf topic s.topics = count := by rw [countOf, found, getD_some]
    have there := present_of_get found
    dsimp only
    split
    · refine inv.settle (inv.topics.delete topic) (countOf_delete_last (by omega)) fun other => ?_
      rw [present_delete]
      by_cases same : topic = other
      · subst same
        simp [balance, there]
      · simp [balance, same]
    · refine inv.settle (inv.topics.set topic (by omega)) (countOf_set_less (by omega)) fun other => ?_
      rw [present_set]
      by_cases same : topic = other
      · subst same
        simp [balance, there]
      · simp [balance, same]

/-- One count of one client changes: that much is owed for the topic. -/
theorem Inv.changeClient (inv : Inv s fun _ => 0) (found : s.subscribers.get clientID = some counts)
    (pos : Positive next)
    (changed : ∀ topic, countOf topic next = countOf topic counts + owed topic) :
    Inv { s with subscribers := s.subscribers.set clientID next } owed := by
  have set := inv.setClient clientID pos
  have difference : ∀ topic, (0 : Int) + countOf topic next -
      s.subscribers.weightAt (countOf topic) clientID = owed topic := by
    intro topic
    rw [weightAt, found, changed topic, map_some, getD_some]
    omega
  simpa only [difference] using set

theorem subscribe_inv (inv : Inv s fun _ => 0) (unlimited : s.maxTopicSubscriptionsPerClient = 0)
    (topic : T) : Inv (subscribe s clientID topic order).1 fun _ => 0 := by
  unfold subscribe
  cases found : s.subscribers.get clientID with
  | none => exact inv.trigger fun other => by simp [balance]
  | some counts =>
    have pos := inv.clients clientID counts found
    dsimp only
    cases stored : counts.get topic with
    | some count =>
      have atLeast := pos topic count stored
      refine addTopic_inv (inv.changeClient found (pos.set topic (by omega)) (countOf_set_more ?_))
      rw [countOf, stored, getD_some]
    | none =>
      have within : ¬ (s.maxTopicSubscriptionsPerClient ≠ 0 ∧
          s.maxTopicSubscriptionsPerClient ≤ ((counts.set topic 1).size : Int)) :=
        fun both => both.1 unlimited
      rw [if_neg within]
      refine addTopic_inv (inv.changeClient found (pos.set topic (le_refl 1)) (countOf_set_more ?_))
      rw [countOf, stored, getD_none, zero_add]

theorem unsubscribe_inv (inv : Inv s fun _ => 0) :
    Inv (unsubscribe s clientID topic).1 fun _ => 0 := by
  unfold unsubscribe
  cases found : s.subscribers.get clientID with
  | none => exact inv
  | some counts =>
    have pos := inv.clients clientID counts found
    dsimp only
    cases stored : counts.get topic with
    | none => exact inv
    | some count =>
      have counted : countOf topic counts = count := by rw [countOf, stored, getD_some]
      have atLeast := pos topic count stored
      have covered := inv.countOf_le found topic
      refine removeTopic_inv (inv.changeClient found ?_ fun other => ?_) ?_
      · split
        · exact pos.delete topic
        · exact pos.set topic (by omega)
      · split
        · exact countOf_delete_last (by omega) other
        · exact countOf_set_less (by omega) other
      · change 1 ≤ countOf topic s.topics
        omega

theorem cleanup_limit (s : State C T) (clientID : C) (order : Iteration (T × Int)) :
    (cleanupClientWithoutLocking s clientID order).1.maxTopicSubscriptionsPerClient =
      s.maxTopicSubscriptionsPerClient := by
  unfold cleanupClientWithoutLocking
  split <;> rfl

omit [DecidableEq C] in
theorem addTopic_limit :
    (addTopic s clientID topic).maxTopicSubscriptionsPerClient = s.maxTopicSubscriptionsPerClient := by
  unfold addTopic
  split <;> rfl

omit [DecidableEq C] in
theorem removeTopic_limit :
    (removeTopic s clientID topic).maxTopicSubscriptionsPerClient =
      s.maxTopicSubscriptionsPerClient := by
  unfold removeTopic
  split
  · rfl
  · split <;> rfl

/-- No call changes the limit. -/
theorem step_limit :
    (step s call).maxTopicSubscriptionsPerClient = s.maxTopicSubscriptionsPerClient := by
  cases call with
  | connect clientID order =>
    have kept := cleanup_limit s clientID order
    simp only [step, connect]
    split
    · exact kept
    · exact kept
  | disconnect clientID order =>
    have kept := cleanup_limit s clientID order
    simp only [step, disconnect]
    split
    · rename_i cleaned
      rwa [cleaned] at kept
    · rename_i cleaned
      rwa [cleaned] at kept
  | subscribe clientID topic order =>
    simp only [step, subscribe]
    split
    · rfl
    · split
      · exact addTopic_limit ..
      · split
        · exact cleanup_limit ..
        · exact addTopic_limit ..
  | unsubscribe clientID topic =>
    simp only [step, unsubscribe]
    split
    · rfl
    · split
      · rfl
      · exact removeTopic_limit ..

theorem new_inv : Inv (new limit : State C T) fun _ => 0 where
  sums _ := rfl
  topics := positive_new
  clients clientID counts found := by cases found
  balance _ := rfl

section

variable (inv : Inv s fun _ => 0) (unlimited : s.maxTopicSubscriptionsPerClient = 0)
include inv unlimited

theorem step_inv : Inv (step s call) fun _ => 0 := by
  cases call with
  | connect clientID order => exact connect_inv inv
  | disconnect clientID order => exact disconnect_inv inv
  | subscribe clientID topic order => exact subscribe_inv inv unlimited topic
  | unsubscribe clientID topic => exact unsubscribe_inv inv

theorem calls_inv (calls : List (Call C T)) : Inv (calls.foldl step s) fun _ => 0 := by
  induction calls generalizing s with
  | nil => exact inv
  | cons call calls ih =>
    exact ih (step_inv inv unlimited) (step_limit.trans unlimited)

end

/-- A topic has a global count exactly when a connected client is subscribed to it. -/
theorem Inv.has_iff (inv : Inv s fun _ => 0) :
    topicHasSubscribers s topic = true ↔ ∃ clientID, clientSubscribedToTopic s clientID topic = true := by
  have sums := inv.sums topic
  have nonneg := inv.counts_nonneg topic
  rw [topicHasSubscribers, has_iff_countOf inv.topics]
  constructor
  · intro pos
    by_contra nobody
    have zero : s.subscribers.total (countOf topic) = 0 := by
      refine total_eq_zero fun clientID counts found => ?_
      have unsubscribed : ¬ counts.has topic = true := by
        intro has
        exact nobody ⟨clientID, by rwa [clientSubscribedToTopic, found]⟩
      rw [has_iff_countOf (inv.clients clientID counts found)] at unsubscribed
      have := nonneg clientID counts found
      omega
    omega
  · rintro ⟨clientID, joined⟩
    unfold clientSubscribedToTopic at joined
    split at joined
    · cases joined
    · rename_i counts found
      have counted := (has_iff_countOf (inv.clients clientID counts found)).mp joined
      have bound := weight_le_total nonneg found
      omega

/-- After any calls without a limit: the global count of a topic is the sum over the
connected clients, every stored count is at least one, and the topics that were added and
not removed since are those with a subscriber. -/
theorem subscription_counts_add_up (calls : List (Call C T)) : let s := calls.foldl step (new 0)
    (∀ topic, countOf topic s.topics = s.subscribers.total (countOf topic)) ∧
    Positive s.topics ∧
    (∀ clientID counts, s.subscribers.get clientID = some counts → Positive counts) ∧
    ∀ topic,
      ((∃ clientID, clientSubscribedToTopic s clientID topic = true) → balance topic s.events = 1) ∧
      ((∀ clientID, clientSubscribedToTopic s clientID topic = false) → balance topic s.events = 0) := by
  have inv := calls_inv new_inv rfl calls
  refine ⟨fun topic => ?_, inv.topics, inv.clients,
    fun topic => ⟨fun joined => ?_, fun nobody => ?_⟩⟩
  · have sums := inv.sums topic
    omega
  · rw [inv.balance topic]
    exact if_pos (inv.has_iff.mpr joined)
  · have missing : ¬ topicHasSubscribers (calls.foldl step (new 0)) topic = true := by
      intro has
      obtain ⟨clientID, joined⟩ := inv.has_iff.mp has
      rw [nobody clientID] at joined
      cases joined
    rw [inv.balance topic]
    exact if_neg missing

end HiveGo.SubscriptionManager
