import LogicDecode.Error
import LogicDecode.Samples.Unit
import LogicDecode.Decimal.Shortest

/-!
# Segments

A `Segment` is one contiguous acquisition, which may grow by whole units while it is read.
-/

namespace LogicDecode

/-- The units of one acquisition, with its rate (0 if unknown) and the time of its first sample. -/
structure Segment where
  unitSize : Nat
  rate : Float
  startTime : Float
  data : Bytes
  unitSize_pos : 0 < unitSize
deriving Repr

namespace Segment

def empty (unitSize : Nat) (rate startTime : Float) : Except Fault Segment :=
  if h : 0 < unitSize then .ok ⟨unitSize, rate, startTime, #[], h⟩ else .error .zeroUnit

/-- Adds units behind the others; anything but whole units is refused. -/
def append (s : Segment) (units : Bytes) : Except CaptureError Segment :=
  if units.size % s.unitSize = 0 then .ok { s with data := s.data ++ units }
  else .error (.partialUnit units.size s.unitSize)

def ofData (unitSize : Nat) (rate startTime : Float) (units : Bytes) :
    Outcome CaptureError Segment := do
  let s ← Outcome.check (empty unitSize rate startTime)
  Outcome.accept (s.append units)

def size (s : Segment) : Nat := s.data.size / s.unitSize

/-- The units of the samples `[start, stop)` as far as they are there. -/
def samples (s : Segment) (start stop : Nat) : Bytes :=
  let last := min stop s.size
  let first := min start last
  s.data.extract (first * s.unitSize) (last * s.unitSize)

/-- Rates in diagnostics keep a zero behind the point, and an exponent stands where the leading
digit is below the fourth or above the sixteenth place. -/
def rateText : FloatText := ⟨".0", fun e => -4 ≤ e && e < 16⟩

/-- The segment's description in diagnostics. -/
def label (s : Segment) : String :=
  "LogicSegment \x7b unit_size: " ++ toString s.unitSize ++ ", samplerate: " ++
    rateText.render s.rate ++ ", samples: " ++ toString s.size ++ " \x7d"

theorem append_eq_ok {s t : Segment} {units : Bytes} :
    s.append units = .ok t ↔
      units.size % s.unitSize = 0 ∧ t = { s with data := s.data ++ units } := by
  unfold append; split <;> simp_all [eq_comm]

end Segment

end LogicDecode
