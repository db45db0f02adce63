/-!
# Sources and signals

A `Source` is an acquisition device with the segments it has delivered so far; a `Signal` names one
channel of a source, or one that has no source yet. Segments and sources are shared, so a source
lists whatever stands for a segment, and a signal gives the number of its source.
-/

namespace LogicDecode

/-- A device with a number of channels and its segments, oldest first. -/
structure Source (σ : Type) where
  channels : Nat
  segments : List σ
deriving Repr

namespace Source

variable {σ : Type}

def empty (channels : Nat) : Source σ := ⟨channels, []⟩

def push (s : Source σ) (segment : σ) : Source σ := { s with segments := s.segments ++ [segment] }

def first? (s : Source σ) : Option σ := s.segments.head?

def clear (s : Source σ) : Source σ := { s with segments := [] }

end Source

/-- A channel of a source, or a channel without one. -/
structure Signal where
  name : String
  /-- The bit of a sample that the channel is. -/
  bit : Nat
  /-- The number of the source, none while there is no captured data behind the signal. -/
  source : Option Nat
deriving Repr, DecidableEq

def Signal.label (s : Signal) : String := s!"LogicSignal[{s.name} @ bit {s.bit}]"

end LogicDecode
