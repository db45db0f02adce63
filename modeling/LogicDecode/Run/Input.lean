import LogicDecode.Run.Config

/-!
# Input of a run

`Input` holds what a run has been told about the data it decodes. `Demand` decides whether a run
that has decoded all it was told of waits, goes on, or ends.
-/

namespace LogicDecode

/-- What a run knows of its segment. -/
structure Input where
  /-- The samples that have been announced. -/
  count : Nat
  /-- Whether no more samples will come. -/
  complete : Bool
  /-- The number of the segment, none if there is nothing to decode. -/
  segment : Option Nat
  startTime : Float
  rate : Float
deriving Repr

namespace Input

def fresh : Input := ⟨0, false, none, 0.0, 0.0⟩

def clear (i : Input) : Input := { i with count := 0, complete := false }

end Input

/-- All that the decision to wait depends on. -/
structure Demand where
  interrupted : Bool
  complete : Bool
  /-- The samples that the engine has been fed. -/
  fed : Nat
  /-- The samples that have been announced. -/
  count : Nat
  capture : CaptureState
deriving Repr, DecidableEq

namespace Demand

/-- Whether all announced samples are decoded and more may come. -/
def waits (d : Demand) : Bool :=
  !d.interrupted && !d.complete && d.count ≤ d.fed && d.capture != .stopped

/-- The sample count to decode up to, none when the run is over. -/
def next? (d : Demand) : Option Nat :=
  let caughtUp := decide (d.count ≤ d.fed)
  if !d.interrupted && (!caughtUp || !d.complete) && !(caughtUp && d.capture == .stopped) then
    some d.count
  else none

theorem fed_lt_of_next? {d : Demand} {n : Nat} (hw : d.waits = false) (hn : d.next? = some n) :
    d.fed < n := by
  simp only [next?] at hn
  split at hn
  · rename_i h
    cases hn
    by_cases hc : d.count ≤ d.fed
    · simp only [waits, hc] at hw h
      grind
    · omega
  · cases hn

end Demand

end LogicDecode
