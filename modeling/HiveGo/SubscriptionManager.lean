import HiveGo.ShrinkingMap

/-! The subscription manager: how often every connected client, and all of them together, are
subscribed to a topic. The events are triggered after the lock was released, in the order of the
log. -/
namespace HiveGo.SubscriptionManager

/-- The events of the manager. A dropped client has one reason only: the limit. -/
inductive Event (C T : Type) where
  | clientConnected (clientID : C)
  | clientDisconnected (clientID : C)
  | topicSubscribed (clientID : C) (topic : T)
  | topicUnsubscribed (clientID : C) (topic : T)
  | topicAdded (topic : T)
  | topicRemoved (topic : T)
  | dropClient (clientID : C)
  deriving DecidableEq

/-- The fields of the manager, with the events so far. -/
structure State (C T : Type) where
  subscribers : ShrinkingMap C (ShrinkingMap T Int)
  topics : ShrinkingMap T Int
  maxTopicSubscriptionsPerClient : Int
  events : List (Event C T)

variable {C T : Type} [DecidableEq C] [DecidableEq T]

def new (maxTopicSubscriptionsPerClient : Int) : State C T where
  subscribers := .new
  topics := .new
  maxTopicSubscriptionsPerClient
  events := []

def State.trigger (s : State C T) (events : List (Event C T)) : State C T :=
  { s with events := s.events ++ events }

/-- What the cleanup of a client has done so far. -/
structure Cleanup (T : Type) where
  topics : ShrinkingMap T Int
  removedTopics : List T := []
  unsubscribedTopics : List T := []

/-- One topic of the client: its subscriptions are taken off the global count. -/
def Cleanup.visit (done : Cleanup T) (entry : T × Int) : Cleanup T :=
  let (topic, count) := entry
  let unsubscribedTopics := done.unsubscribedTopics ++ List.replicate count.toNat topic
  match done.topics.get topic with
  | none => { done with unsubscribedTopics }
  | some topicsCount =>
    if topicsCount - count ≤ 0 then
      { topics := done.topics.delete topic
        removedTopics := done.removedTopics ++ [topic]
        unsubscribedTopics }
    else { done with topics := done.topics.set topic (topicsCount - count), unsubscribedTopics }

/-- The state without the client, and the topics for the events if it was connected. -/
def cleanupClientWithoutLocking (s : State C T) (clientID : C) (order : Iteration (T × Int)) :
    State C T × Option (Cleanup T) :=
  match s.subscribers.get clientID with
  | none => (s, none)
  | some subscribedTopics =>
    let done := (order.visit subscribedTopics.entries).foldl Cleanup.visit { topics := s.topics }
    ({ s with subscribers := s.subscribers.delete clientID, topics := done.topics }, some done)

/-- The events for the topics of a client that is gone. -/
def Cleanup.events (done : Cleanup T) (clientID : C) : List (Event C T) :=
  done.removedTopics.map .topicRemoved ++ done.unsubscribedTopics.map (.topicUnsubscribed clientID)

def connect (s : State C T) (clientID : C) (order : Iteration (T × Int)) : State C T :=
  let (s, cleaned) := cleanupClientWithoutLocking s clientID order
  let s := { s with subscribers := s.subscribers.set clientID .new }
  match cleaned with
  | some done =>
    s.trigger (done.events clientID ++ [.clientDisconnected clientID, .clientConnected clientID])
  | none => s.trigger [.clientConnected clientID]

def disconnect (s : State C T) (clientID : C) (order : Iteration (T × Int)) : State C T × Bool :=
  match cleanupClientWithoutLocking s clientID order with
  | (s, some done) => (s.trigger (done.events clientID ++ [.clientDisconnected clientID]), true)
  | (s, none) => (s, false)

/-- The global count of a topic that gets one more subscription. -/
def addTopic (s : State C T) (clientID : C) (topic : T) : State C T :=
  match s.topics.get topic with
  | some count =>
    { s with topics := s.topics.set topic (count + 1) }.trigger [.topicSubscribed clientID topic]
  | none =>
    { s with topics := s.topics.set topic 1 }.trigger
      [.topicAdded topic, .topicSubscribed clientID topic]

/-- A client that is not connected changes nothing, but the event is triggered and the call
reports success. -/
def subscribe (s : State C T) (clientID : C) (topic : T) (order : Iteration (T × Int)) :
    State C T × Bool :=
  match s.subscribers.get clientID with
  | none => (s.trigger [.topicSubscribed clientID topic], true)
  | some subscribedTopics =>
    match subscribedTopics.get topic with
    | some count =>
      let subscribedTopics := subscribedTopics.set topic (count + 1)
      (addTopic { s with subscribers := s.subscribers.set clientID subscribedTopics } clientID topic,
        true)
    | none =>
      let subscribedTopics := subscribedTopics.set topic 1
      let s := { s with subscribers := s.subscribers.set clientID subscribedTopics }
      if s.maxTopicSubscriptionsPerClient ≠ 0 ∧
          s.maxTopicSubscriptionsPerClient ≤ (subscribedTopics.size : Int) then
        let (s, cleaned) := cleanupClientWithoutLocking s clientID order
        let done := cleaned.getD { topics := s.topics }
        (s.trigger (done.events clientID ++ [.dropClient clientID, .clientDisconnected clientID]),
          false)
      else (addTopic s clientID topic, true)

/-- The global count of a topic that has one subscription less. -/
def removeTopic (s : State C T) (clientID : C) (topic : T) : State C T :=
  match s.topics.get topic with
  | none => s.trigger [.topicUnsubscribed clientID topic]
  | some count =>
    if count ≤ 1 then
      { s with topics := s.topics.delete topic }.trigger
        [.topicRemoved topic, .topicUnsubscribed clientID topic]
    else
      { s with topics := s.topics.set topic (count - 1) }.trigger [.topicUnsubscribed clientID topic]

def unsubscribe (s : State C T) (clientID : C) (topic : T) : State C T × Bool :=
  match s.subscribers.get clientID with
  | none => (s, false)
  | some subscribedTopics =>
    match subscribedTopics.get topic with
    | none => (s, false)
    | some count =>
      let subscribedTopics :=
        if count ≤ 1 then subscribedTopics.delete topic else subscribedTopics.set topic (count - 1)
      (removeTopic { s with subscribers := s.subscribers.set clientID subscribedTopics } clientID topic,
        true)

/-- A call, with the order of the iteration that it may need. -/
inductive Call (C T : Type) where
  | connect (clientID : C) (order : Iteration (T × Int))
  | disconnect (clientID : C) (order : Iteration (T × Int))
  | subscribe (clientID : C) (topic : T) (order : Iteration (T × Int))
  | unsubscribe (clientID : C) (topic : T)

def step (s : State C T) : Call C T → State C T
  | .connect clientID order => connect s clientID order
  | .disconnect clientID order => (disconnect s clientID order).1
  | .subscribe clientID topic order => (subscribe s clientID topic order).1
  | .unsubscribe clientID topic => (unsubscribe s clientID topic).1

def topicHasSubscribers (s : State C T) (topic : T) : Bool := s.topics.has topic

def clientSubscribedToTopic (s : State C T) (clientID : C) (topic : T) : Bool :=
  match s.subscribers.get clientID with
  | none => false
  | some subscribedTopics => subscribedTopics.has topic

end HiveGo.SubscriptionManager
