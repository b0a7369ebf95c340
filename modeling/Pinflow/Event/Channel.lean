import Pinflow.Event.Basic

/-!
# The event channel

One bounded channel serves everyone who watches the debugger. Every subscriber reads
at its own pace; one that falls behind by more than the capacity loses the oldest
events and is told how many. With nobody listening an event is dropped and leaves
no trace in the channel.
-/

namespace Pinflow

/-- The room of a channel: at least the wish, at least one, and a power of two. -/
def roundedCapacity (wish : Nat) : Nat :=
  if wish ≤ 1 then 1 else Nat.pow 2 ((wish - 1).log2 + 1)

/-- A channel with the events it still keeps, newest first, the number of events it
ever took, and for each subscriber the number of the event it reads next. -/
structure Channel where
  capacity : Nat
  kept : List Event := []
  taken : Nat := 0
  cursors : List (String × Nat) := []

/-- What a subscriber finds. -/
inductive Delivery where
  | empty
  | lagged (lost : Nat)
  | event (event : Event)

namespace Channel

/-- A channel with room for at least as many events as wished. -/
def ofCapacity (wish : Nat) : Channel := { capacity := roundedCapacity wish }

def subscribers (channel : Channel) : Nat := channel.cursors.length

/-- The number of the oldest event that is still kept. -/
def oldest (channel : Channel) : Nat := channel.taken - channel.kept.length

/-- The number of the event that a subscriber reads next. -/
def cursor? (channel : Channel) (name : String) : Option Nat :=
  (channel.cursors.find? fun entry => entry.1 == name).map Prod.snd

/-- A subscriber leaves. -/
def unsubscribe (channel : Channel) (name : String) : Channel :=
  { channel with cursors := channel.cursors.filter fun entry => entry.1 != name }

/-- A subscriber comes, in place of any other of its name. It will see the events
published from now on. -/
def subscribe (channel : Channel) (name : String) : Channel :=
  let channel := channel.unsubscribe name
  { channel with cursors := channel.cursors ++ [(name, channel.taken)] }

def publish (channel : Channel) (event : Event) : Channel :=
  if channel.cursors.isEmpty then channel
  else { channel with
    kept := (event :: channel.kept).take channel.capacity
    taken := channel.taken + 1 }

/-- Put the cursor of a subscriber. -/
def moveTo (channel : Channel) (name : String) (position : Nat) : Channel :=
  { channel with
    cursors := channel.cursors.map fun entry =>
      if entry.1 == name then (name, position) else entry }

/-- What a reader at a position finds, and where it stands afterwards. -/
def readAt (channel : Channel) (position : Nat) : Delivery × Nat :=
  if channel.taken ≤ position then (.empty, position)
  else if position < channel.oldest then
    (.lagged (channel.oldest - position), channel.oldest)
  else
    match channel.kept[channel.taken - 1 - position]? with
    | some event => (.event event, position + 1)
    | none => (.empty, position)

/-- A subscriber reads once. A name that has not subscribed finds nothing. -/
def receive (channel : Channel) (name : String) : Delivery × Channel :=
  match channel.cursor? name with
  | none => (.empty, channel)
  | some position =>
    let (delivery, position) := channel.readAt position
    (delivery, channel.moveTo name position)

/-- A subscriber reads on to the next event of a graph, in at most so many reads. Notices
of loss and events of other graphs are passed by. -/
def seek (name graph : String) : (reads : Nat) → Channel → Option Event × Channel
  | 0, channel => (none, channel)
  | reads + 1, channel =>
    match channel.receive name with
    | (.empty, channel) => (none, channel)
    | (.lagged _, channel) => seek name graph reads channel
    | (.event event, channel) =>
      if event.graph == graph then (some event, channel) else seek name graph reads channel

/-- A subscriber reads the next event of a graph, if there is one. Every read takes it
further, so it cannot read more often than the channel took events. -/
def next (channel : Channel) (name graph : String) : Option Event × Channel :=
  seek name graph (channel.taken + 1) channel

/-- A subscriber reads events of a graph until it finds none, at most so many. -/
def gather (name graph : String) : (most : Nat) → Channel → List Event × Channel
  | 0, channel => ([], channel)
  | most + 1, channel =>
    match channel.next name graph with
    | (none, channel) => ([], channel)
    | (some event, channel) =>
      let (events, channel) := gather name graph most channel
      (event :: events, channel)

/-- A subscriber reads everything that waits for it of one graph. -/
def collect (channel : Channel) (name graph : String) : List Event × Channel :=
  gather name graph (channel.taken + 1) channel

end Channel

end Pinflow
