import LogicDecode.Run.Worker

/-!
# The life of a run

How a run begins and how its end is brought about. A new run interrupts the one before it, waits
until that one is over, and forgets its results.
-/

namespace LogicDecode

namespace Stack

variable {ε : Type}

/-- Forgets a run that is over; its fault is put on record now. -/
def join (s : Stack ε) : Stack ε × List LogEntry :=
  match s.worker with
  | none => (s, [])
  | some w =>
    let log := match w.phase with
      | .faulted => [LogEntry.faulted]
      | _ => []
    ({ s with worker := none }, log)

/-- Interrupts a run, lets it come to its end, and forgets it. -/
def cancel [Engine ε] (s : Stack ε) (segment : Segment) : Stack ε × List LogEntry :=
  match s.worker with
  | none => (s, [])
  | some _ =>
    let (s₁, log₁) := { s with interrupted := true }.resume
    let (s₂, log₂) := s₁.settle segment
    let (s₃, log₃) := s₂.join
    (s₃, log₁ ++ log₂ ++ log₃)

/-- Begins a run on a segment, given with its number, after the run before it is forgotten. Without
a segment the rows are ready but nothing runs; without the required channels there is only an
error. An unknown rate counts as one sample per second. -/
def launch (s : Stack ε) (found : Option (Nat × Segment)) : Stack ε × List LogEntry :=
  let s := s.clear
  let s := { s with input := { s.input with segment := none } }
  if !s.stages.all Stage.isComplete then s.latch .missingChannels
  else
    let table := RowTable.ofProfiles (s.stages.map (·.profile))
    let s := { s with output := s.output.prepare table s.config.notifyPeriod }
    match found with
    | none => (s, [])
    | some (number, segment) =>
      let rate := if segment.rate == 0.0 then 1.0 else segment.rate
      ({ s with
        input := { s.input with
          segment := some number, startTime := segment.startTime, rate := rate }
        interrupted := false
        worker := some ⟨s.stages, number, rate, s.config, .queued⟩ }, [])

/-- Announces the samples that the segment of the run has by now. -/
def announce (s : Stack ε) (count : Nat) : Stack ε :=
  if s.input.segment.isSome then { s with input := { s.input with count := count } } else s

def complete (s : Stack ε) : Stack ε :=
  if s.input.segment.isSome then { s with input := { s.input with complete := true } } else s

end Stack

end LogicDecode
