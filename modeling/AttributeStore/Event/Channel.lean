import AttributeStore.Event.Basic

/-!
# Event channels

A channel keeps the last events that were sent, as many as its capacity.  A receiver is a
position in the sequence of all events ever sent, and reads on from there.  If its next event is
no longer kept, it is told once how many it has missed, and goes on with the oldest one kept.
-/

namespace AttributeStore

/-- The last events of a sequence. -/
structure Channel where
  /-- How many events are kept. -/
  capacity : Nat
  /-- How many events were sent before those that are kept. -/
  dropped : Nat
  /-- The events that are kept, the oldest first. -/
  kept : List Event

/-- What a receiver gets. -/
inductive Delivery where
  /-- The next event. -/
  | event (e : Event)
  /-- The number of events that are no longer kept. -/
  | lagged (missed : Nat)
deriving DecidableEq

namespace Channel

/-- The capacity of a channel for which none is asked. -/
def defaultCapacity : Nat := 100

/-- The least power of two that is at least a number. -/
def powerOfTwoFrom (n : Nat) : Nat := if n ≤ 1 then 1 else Nat.pow 2 ((n - 1).log2 + 1)

/-- An unused channel.  Its capacity is the one asked for, but at least one, rounded up to a power
of two. -/
def withCapacity (requested : Nat) : Channel :=
  { capacity := powerOfTwoFrom (max requested 1), dropped := 0, kept := [] }

instance : Inhabited Channel := ⟨withCapacity defaultCapacity⟩

variable (c : Channel)

/-- The number of events ever sent, which is the position of a new receiver. -/
def sent : Nat := c.dropped + c.kept.length

/-- Sends an event.  The oldest ones are dropped as soon as the channel holds more than it can
keep. -/
def send (e : Event) : Channel :=
  let all := c.kept ++ [e]
  let surplus := all.length - c.capacity
  { c with dropped := c.dropped + surplus, kept := all.drop surplus }

/-- What a receiver at a position gets next, with its new position; nothing if it has read all
events. -/
def receive (position : Nat) : Option (Delivery × Nat) :=
  if position < c.dropped then some (.lagged (c.dropped - position), c.dropped)
  else c.kept[position - c.dropped]?.map fun e => (.event e, position + 1)

/-- What a receiver at a position gets in at most `limit` steps, with its new position. -/
def drain : (limit position : Nat) → List Delivery × Nat
  | 0, position => ([], position)
  | limit + 1, position =>
    match c.receive position with
    | none => ([], position)
    | some (delivery, next) =>
      let (rest, last) := drain limit next
      (delivery :: rest, last)

/-- A number of steps after which no receiver has anything left to get. -/
def drainBound : Nat := c.kept.length + 1

end Channel

end AttributeStore
