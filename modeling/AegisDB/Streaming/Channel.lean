import AegisDB.Library.Broadcast
import AegisDB.Library.Interleaving
import AegisDB.Library.Newest
import AegisDB.Library.Table

/-!
# Channels

Pub/sub channels for event distribution.  To publish an event is to append it to the history, under
the lock of the history, then to send it to the receivers, and then to count it; between these
sections other publishers may run.  A receiver looks at one event after the other, and passes over
those that its filter does not want.
-/

namespace AegisDB.Streaming

/-- Event type classification. -/
inductive EventType where
  | created
  | updated
  | deleted
  | custom (name : String)
deriving DecidableEq

/-- A streaming event, of whose data nothing is asked. -/
structure Event (D : Type) where
  id : String
  eventType : EventType
  source : String
  timestamp : ℕ
  data : D
deriving DecidableEq

/-- Filter for selecting events. -/
structure EventFilter where
  eventType : Option EventType := none
  source : Option String := none
  afterTimestamp : Option ℕ := none

variable {D : Type}

/-- Check if this event matches a filter. -/
def Event.matchesFilter (self : Event D) (filter : EventFilter) : Bool :=
  (match filter.eventType with
    | some eventType => decide (self.eventType = eventType)
    | none => true) &&
  (match filter.source with
    | some source => source.toList.isPrefixOf self.source.toList
    | none => true) &&
  (match filter.afterTimestamp with
    | some after => !decide (self.timestamp ≤ after)
    | none => true)

/-- Configuration for a channel. -/
structure ChannelConfig where
  bufferSize : ℕ := 1024
  maxSubscribers : ℕ := 1000
  persistent : Bool := false
  retentionCount : ℕ := 1000

/-- Errors that can occur with channels. -/
inductive ChannelError where
  | tooManySubscribers
  | closed
  | lagged (missed : ℕ)
  | notFound (offset : ℕ)
deriving DecidableEq

/-- How messages are acknowledged. -/
inductive AckMode where
  | auto
  | manual
  | none

/-- Statistics for a channel. -/
structure ChannelStats where
  eventsPublished : ℕ := 0
  subscriberCount : ℕ := 0

variable {B : Broadcast (Event D)}

/-- A pub/sub channel for event distribution. -/
structure Channel (B : Broadcast (Event D)) where
  config : ChannelConfig
  sender : B.Sender
  subscribers : Table String (Option EventFilter) := ∅
  history : List (Event D) := []
  stats : ChannelStats := {}

/-- Receiver for channel events. -/
structure ChannelReceiver (B : Broadcast (Event D)) where
  receiver : B.Receiver
  filter : Option EventFilter
  ackMode : AckMode
  nextOffset : ℕ := 0
  unacked : Table ℕ (Event D) := ∅
  acked : Finset ℕ := ∅

/-- Drop entries in front as long as there are more than so many. -/
def popFrontWhile {α : Type} (retentionCount : ℕ) : List α → List α
  | [] => []
  | a :: history =>
    if retentionCount < (a :: history).length then popFrontWhile retentionCount history
    else a :: history

namespace Channel

/-- Create a channel with custom configuration. -/
def withConfig (B : Broadcast (Event D)) (config : ChannelConfig) : Channel B :=
  { config, sender := B.channel config.bufferSize }

/-! ## Publishing -/

def recordHistory (event : Event D) (self : Channel B) : Channel B :=
  { self with history := popFrontWhile self.config.retentionCount (self.history ++ [event]) }

/-- The section under the lock of the statistics. -/
def countPublished (self : Channel B) : Channel B :=
  { self with stats := { self.stats with eventsPublished := self.stats.eventsPublished + 1 } }

def sendEvent (event : Event D) : Prog (Channel B) ℕ :=
  .atom (fun self => { self with sender := (B.send self.sender event).2 }) fun self =>
    .done ((B.send self.sender event).1.getD 0)

def finish (receivers : ℕ) : Prog (Channel B) ℕ := do
  Prog.modify countPublished
  pure receivers

/-- What follows once the event is in the history. -/
def sendAndCount (event : Event D) : Prog (Channel B) ℕ := do
  let receivers ← sendEvent event
  finish receivers

/-- Publish an event to the channel. -/
def publish (config : ChannelConfig) (event : Event D) : Prog (Channel B) ℕ :=
  if config.persistent then do
    Prog.modify (recordHistory event)
    sendAndCount event
  else sendAndCount event

/-! ## Subscribing -/

/-- Subscribe with a specific ack mode. -/
def subscribeWithAckMode (self : Channel B) (subscriberId : String) (filter : Option EventFilter)
    (ackMode : AckMode) : Except ChannelError (ChannelReceiver B × Channel B) :=
  if self.config.maxSubscribers ≤ self.subscribers.keys.length then .error .tooManySubscribers
  else
    let (receiver, sender) := B.subscribe self.sender
    .ok ({ receiver, filter, ackMode },
      { self with
        sender
        subscribers := self.subscribers.insert subscriberId filter
        stats := { self.stats with subscriberCount := self.stats.subscriberCount + 1 } })

/-- Unsubscribe from the channel. -/
def unsubscribe (self : Channel B) (subscriberId : String) : Channel B :=
  if (self.subscribers.lookup subscriberId).isSome then
    { self with
      subscribers := self.subscribers.erase subscriberId
      stats := { self.stats with subscriberCount := self.stats.subscriberCount - 1 } }
  else self

/-- Get recent events from history, the newest first. -/
def getHistory (self : Channel B) (count : ℕ) : List (Event D) :=
  self.history.reverse.take count

end Channel

namespace ChannelReceiver

def wants (self : ChannelReceiver B) (event : Event D) : Bool :=
  match self.filter with
  | some filter => event.matchesFilter filter
  | none => true

/-- Hand out an event, with the next offset. -/
def deliver (self : ChannelReceiver B) (event : Event D) : ChannelReceiver B :=
  let offset := self.nextOffset
  let self := { self with nextOffset := offset + 1 }
  match self.ackMode with
  | .auto => { self with acked := insert offset self.acked }
  | .manual => { self with unacked := self.unacked.insert offset event }
  | .none => self

/-- One pass of the loop in `try_recv`: the result, unless there is another pass. -/
def tryRecvPass (self : ChannelReceiver B) (sender : B.Sender) :
    Option (Except ChannelError (Option (Event D))) × ChannelReceiver B :=
  match B.tryRecv sender self.receiver with
  | (.ok event, receiver) =>
    let self := { self with receiver }
    if self.wants event then (some (.ok (some event)), self.deliver event) else (none, self)
  | (.empty, receiver) => (some (.ok none), { self with receiver })
  | (.closed, receiver) => (some (.error .closed), { self with receiver })
  | (.lagged missed, receiver) => (some (.error (.lagged missed)), { self with receiver })

/-- Acknowledge a message by its offset. -/
def ack (self : ChannelReceiver B) (offset : ℕ) : Except ChannelError (ChannelReceiver B) :=
  if (self.unacked.lookup offset).isSome then
    .ok { self with
      unacked := self.unacked.erase offset
      acked := insert offset self.acked }
  else if offset ∈ self.acked then .ok self
  else .error (.notFound offset)

end ChannelReceiver

/-! ## The history -/

theorem popFrontWhile_eq {α : Type} (retentionCount : ℕ) (history : List α) :
    popFrontWhile retentionCount history = Layers.lastEntries retentionCount history := by
  induction history with
  | nil => exact List.drop_nil.symm
  | cons a history ih =>
    rw [popFrontWhile, Layers.lastEntries]
    split_ifs with hlong
    · rw [ih, Layers.lastEntries, List.length_cons,
        show history.length + 1 - retentionCount = history.length - retentionCount + 1 by
          rw [List.length_cons] at hlong
          omega,
        List.drop_succ_cons]
    · rw [Nat.sub_eq_zero_of_le (not_lt.mp hlong), List.drop_zero]

theorem lastEntries_concat {α : Type} (n : ℕ) (l : List α) (a : α) :
    Layers.lastEntries n (Layers.lastEntries n l ++ [a]) = Layers.lastEntries n (l ++ [a]) := by
  rw [Layers.lastEntries_inj]
  simp only [List.reverse_append, List.reverse_cons, List.reverse_nil, List.nil_append,
    List.singleton_append, Layers.lastEntries_eq, List.reverse_reverse]
  cases n with
  | zero => rfl
  | succ n => rw [List.take_succ_cons, List.take_succ_cons, List.take_take, min_eq_left n.le_succ]

theorem recordHistory_history (event : Event D) (self : Channel B) :
    (Channel.recordHistory event self).history =
      Layers.lastEntries self.config.retentionCount (self.history ++ [event]) :=
  popFrontWhile_eq _ _

end AegisDB.Streaming
