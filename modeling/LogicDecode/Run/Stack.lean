import LogicDecode.Broadcast
import LogicDecode.Engine
import LogicDecode.Run.Input
import LogicDecode.Run.Output
import LogicDecode.Samples.Segment
import LogicDecode.Stage

/-!
# Decoder stacks

A `Stack` is a chain of decoders with the engine it runs on, the results of its last run, and the
worker that makes the run. A worker only moves when it is asked to (`Run/Worker.lean`); between two
moves it stands in a `Phase`.
-/

namespace LogicDecode

/-- Where a worker stands. From `feeding` to `closing` it has the engine's lock and a session. -/
inductive Phase where
  /-- Waits for the engine's lock. -/
  | queued
  /-- Has fed the samples below `fed` and is to feed those below `count`. -/
  | feeding (fed count : Nat)
  /-- Waits for the engine to take the samples up to `stop`. -/
  | held (stop count : Nat) (submission : Submission)
  /-- Has fed all that it was told of. -/
  | waiting (fed : Nat)
  /-- Is done with feeding. -/
  | closing (error : Option RunError)
  | ended
  | faulted
deriving Repr

namespace Phase

/-- Whether the worker has the engine's lock. -/
def holdsLock : Phase → Bool
  | feeding .. | held .. | waiting _ | closing _ => true
  | queued | ended | faulted => false

def isOver : Phase → Bool
  | ended | faulted => true
  | _ => false

end Phase

/-- A run: copies of what the stack was like when it began, and how far it has come. -/
structure Worker where
  stages : List Stage
  /-- The number of the segment it decodes. -/
  segment : Nat
  rate : Float
  config : Config
  phase : Phase
deriving Repr

/-- A chain of decoders, its engine and its results. -/
structure Stack (ε : Type) where
  stages : List Stage
  engine : ε
  config : Config
  capture : CaptureState
  lock : Lock
  output : Output
  input : Input
  /-- Whether the worker is to stop at its next chance. -/
  interrupted : Bool
  broadcast : Broadcast
  /-- The run that has not been waited for, if there is one. -/
  worker : Option Worker

namespace Stack

variable {ε : Type}

/-- A stack that has never run. -/
def create (stages : List Stage) (engine : ε) (config : Config) (capture : CaptureState)
    (lock : Lock) : Stack ε :=
  ⟨stages, engine, config, capture, lock, .fresh Config.standard.notifyPeriod, .fresh, false,
    .empty, none⟩

def isRunning (s : Stack ε) : Bool :=
  match s.worker with
  | some w => !w.phase.isOver
  | none => false

def holdsLock (s : Stack ε) : Bool :=
  match s.worker with
  | some w => w.phase.holdsLock
  | none => false

def isHeld (s : Stack ε) : Bool :=
  match s.worker with
  | some w => match w.phase with
    | .held .. => true
    | _ => false
  | none => false

/-- Adds a stage to the end of the chain, which must not be running. -/
def push (s : Stack ε) (stage : Stage) : Except Fault (Stack ε) :=
  if s.isRunning then .error .busy else .ok { s with stages := s.stages ++ [stage] }

/-- Takes a stage out of the chain, which must have it and must not be running. -/
def remove (s : Stack ε) (i : Nat) : Except Fault (Stage × Stack ε) :=
  match s.stages[i]? with
  | none => .error (.noSuchStage i s.stages.length)
  | some stage =>
    if s.isRunning then .error .busy else .ok (stage, { s with stages := s.stages.eraseIdx i })

/-- Changes a stage of the chain, which must not be running; none if there is no such stage. -/
def edit (s : Stack ε) (i : Nat) (f : Stage → Stage) : Except Fault (Option (Stack ε)) :=
  if s.isRunning then .error .busy
  else
    match s.stages[i]? with
    | none => .ok none
    | some stage => .ok (some { s with stages := s.stages.set i (f stage) })

def addRows (rows more : List Row) : List Row :=
  more.foldl (fun acc r => if acc.contains r then acc else acc ++ [r]) rows

/-- The rows of a stage that are to be seen: those it declares, and its default row if it declares
none or if there are marks in it. -/
def rowsOfStage (s : Stack ε) (stage : Stage) : List Row :=
  let row := Row.ofProfile stage.profile
  let used := match s.output.track? row with
    | some t => !t.isEmpty
    | none => false
  stage.profile.declaredRows ++ if stage.profile.rows.isEmpty || used then [row] else []

/-- The rows of all shown stages, each once. -/
def visibleRows (s : Stack ε) : List Row :=
  (s.stages.filter (·.shown)).foldl (fun acc stage => addRows acc (s.rowsOfStage stage)) []

def clear (s : Stack ε) : Stack ε := { s with input := s.input.clear, output := s.output.clear }

/-- Records an error and tells the subscribers, unless the run has failed before. -/
def latch (s : Stack ε) (e : RunError) : Stack ε × List LogEntry :=
  match s.output.error with
  | some _ => (s, [])
  | none =>
    ({ s with
      output := { s.output with error := some e }
      broadcast := s.broadcast.send (.failed e.message) }, [.failed e.message])

end Stack

end LogicDecode
