/-!
# Configuration and environment of runs

How much a run decodes at a time and how often it tells its subscribers, the state of the capture
that feeds it, and the lock that keeps runs on one engine apart.
-/

namespace LogicDecode

/-- The bytes per chunk, and the number of marks per notification. -/
structure Config where
  chunkBytes : Nat
  notifyPeriod : Nat
deriving Repr, DecidableEq

namespace Config

/-- Chunks of ten mebibytes, and a notification for every 1024 marks. -/
def standard : Config := ⟨10 * 1024 * 1024, 1024⟩

def withChunkBytes (c : Config) (n : Nat) : Config := { c with chunkBytes := n }

/-- Sets the notification period; there is at least one mark per notification. -/
def withNotifyPeriod (c : Config) (n : Nat) : Config := { c with notifyPeriod := max n 1 }

/-- The samples per chunk, at least one. -/
def chunkSamples (c : Config) (unitSize : Nat) : Nat := max (c.chunkBytes / max unitSize 1) 1

end Config

/-- What the capture device is doing. -/
inductive CaptureState where
  | notStarted | running | stopped
deriving Repr, DecidableEq

/-- A lock on an engine: the one that all share, or one with a number. -/
inductive Lock where
  | shared
  | own (number : Nat)
deriving Repr, DecidableEq

end LogicDecode
