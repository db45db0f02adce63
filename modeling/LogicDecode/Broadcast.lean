/-!
# Broadcasts

A `Broadcast` sends events to its subscribers, each of whom has an inbox of their own. A subscriber
who leaves is dropped when the next event is sent.
-/

namespace LogicDecode

/-- What subscribers of a decoder stack are told. -/
inductive Event where
  /-- There are marks to be read. -/
  | marks
  | failed (message : String)
  /-- The run is over. -/
  | finished
deriving Repr, DecidableEq

/-- A subscription by its number, with the events that have not been read yet. -/
structure Subscriber where
  number : Nat
  /-- Whether the subscriber is still there. -/
  present : Bool
  inbox : Array Event
deriving Repr

/-- Subscriptions in the order in which they were made, and the number of the next one. -/
structure Broadcast where
  issued : Nat
  subscribers : List Subscriber
deriving Repr

namespace Broadcast

def empty : Broadcast := ⟨0, []⟩

/-- The number of subscribers, those included who left after the last event. -/
def size (b : Broadcast) : Nat := b.subscribers.length

def subscribe (b : Broadcast) : Broadcast × Nat :=
  (⟨b.issued + 1, b.subscribers ++ [⟨b.issued, true, #[]⟩]⟩, b.issued)

def leave (b : Broadcast) (number : Nat) : Broadcast :=
  { b with subscribers := b.subscribers.map fun s =>
      if s.number = number then { s with present := false } else s }

/-- Sends an event to those who are there, and drops the others. -/
def send (b : Broadcast) (e : Event) : Broadcast :=
  { b with subscribers := (b.subscribers.filter (·.present)).map fun s =>
      { s with inbox := s.inbox.push e } }

/-- Reads and empties an inbox; none if the subscriber is not there. -/
def read? (b : Broadcast) (number : Nat) : Option (List Event × Broadcast) :=
  match b.subscribers.find? fun s => s.number = number && s.present with
  | none => none
  | some s => some (s.inbox.toList, { b with subscribers := b.subscribers.map fun t =>
      if t.number = number then { t with inbox := #[] } else t })

end Broadcast

end LogicDecode
