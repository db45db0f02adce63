import LogicDecode.Run.Lifecycle

/-!
# The bench

A `Bench` holds the segments and sources that decoder stacks share, the stacks, and the queue of
runs that wait for an engine's lock. After every change the runs go on as far as they can: until
each is over, waits for samples, is held by its engine, or waits for a lock whose owner is not over.
Locks are handed on in the order in which they were asked for.
-/

namespace LogicDecode

/-- Segments, sources and stacks, each under its number. -/
structure Bench (ε : Type) where
  segments : List Segment
  sources : List (Source Nat)
  chains : List (Stack ε)
  /-- The stacks that have been taken down. -/
  gone : List Nat
  /-- The stacks whose runs wait for a lock, in the order of their coming. -/
  queue : List Nat
  log : List LogEntry

namespace Bench

variable {ε : Type}

def create (segments : List Segment) (sources : List (Source Nat)) (chains : List (Stack ε)) :
    Bench ε := ⟨segments, sources, chains, [], [], []⟩

/-- The stack of a number, unless it has been taken down. -/
def stack? (b : Bench ε) (i : Nat) : Option (Stack ε) :=
  if b.gone.contains i then none else b.chains[i]?

/-- Changes a stack, and adds what comes of it to the record. -/
def update (b : Bench ε) (i : Nat) (f : Stack ε → Stack ε × List LogEntry) : Bench ε :=
  match b.chains[i]? with
  | none => b
  | some s =>
    let (s', log) := f s
    { b with chains := b.chains.set i s', log := b.log ++ log }

def segmentOf? (b : Bench ε) (i : Nat) : Option Segment := do
  let s ← b.chains[i]?
  let w ← s.worker
  b.segments[w.segment]?

def isQueued (b : Bench ε) (i : Nat) : Bool := b.queue.contains i

def isFree (b : Bench ε) (lock : Lock) : Bool :=
  b.chains.all fun s => !(s.lock = lock && s.holdsLock)

/-- The first segment of the source behind the first signals of the stages, taking the first stage
whose source has one. -/
def find? (b : Bench ε) (stages : List Stage) : Option (Nat × Segment) := do
  let signals := stages.filterMap Stage.firstSignal?
  let number ← (signals.filterMap (·.source)).findSome? fun n => (b.sources[n]?).bind Source.first?
  let segment ← b.segments[number]?
  return (number, segment)

variable [Engine ε]

/-- Lets the run of a stack go on as far as it can. -/
def settle (b : Bench ε) (i : Nat) : Bench ε :=
  match b.segmentOf? i with
  | none => b
  | some segment => b.update i fun s => s.settle segment

/-- Gives the lock to the run of a stack, and lets it go on. -/
def enter (b : Bench ε) (i : Nat) : Bench ε :=
  match b.segmentOf? i with
  | none => b
  | some segment =>
    (b.update i fun s => match s.worker with
      | some w => s.enter w segment
      | none => (s, [])).settle i

/-- Goes through the queue and lets in every run whose lock is free. -/
def letIn (b : Bench ε) : Bench ε :=
  b.queue.foldl (fun b i =>
    match b.chains[i]? with
    | none => b
    | some s =>
      if b.isFree s.lock then ({ b with queue := b.queue.filter (· ≠ i) }).enter i else b) b

/-- Lets the run of a stack go on, and then those that wait for its lock. -/
def proceed (b : Bench ε) (i : Nat) : Bench ε := (b.settle i).letIn

def change (b : Bench ε) (i : Nat) (f : Stack ε → Stack ε) : Bench ε :=
  (b.update i fun s => (f s, [])).proceed i

/-- Ends the run of a stack; only one that waits for a lock cannot be ended. -/
def cancel? (b : Bench ε) (i : Nat) : Option (Bench ε) :=
  if b.isQueued i then none
  else
    match b.segmentOf? i with
    | none => some b
    | some segment => some (b.update i fun s => s.cancel segment)

/-- Begins a new run of a stack. This would block while its last run waits for a lock. -/
def restart? (b : Bench ε) (i : Nat) : Option (Bench ε) := do
  let b ← b.cancel? i
  let b := b.update i fun s => s.launch (b.find? s.stages)
  let started := match b.chains[i]? with
    | some s => s.worker.isSome
    | none => false
  return ({ b with queue := if started then b.queue ++ [i] else b.queue }).letIn

/-- Takes a stack down. This would block while its run waits for a lock. -/
def takeDown? (b : Bench ε) (i : Nat) : Option (Bench ε) := do
  let b ← b.cancel? i
  return ({ b with gone := b.gone ++ [i] }).letIn

/-- Waits for the run of a stack to be over. This would block unless it is. -/
def await? (b : Bench ε) (i : Nat) : Option (Bench ε) := do
  let s ← b.chains[i]?
  if s.isRunning then none else return b.update i Stack.join

def dataArrived (b : Bench ε) (i : Nat) : Bench ε :=
  b.change i fun s =>
    match s.input.segment.bind fun n => b.segments[n]? with
    | some segment => s.announce segment.size
    | none => s

def frameEnded (b : Bench ε) (i : Nat) : Bench ε := b.change i Stack.complete

/-- Forgets the results of a stack, which does not wake its run. -/
def clear (b : Bench ε) (i : Nat) : Bench ε := b.update i fun s => (s.clear, [])

/-- Sets what the capture device of a stack is doing, which does not wake its run. -/
def setCapture (b : Bench ε) (i : Nat) (c : CaptureState) : Bench ε :=
  b.update i fun s => ({ s with capture := c }, [])

/-- Has the engine of a stack let go of its run, if it holds it. -/
def release (b : Bench ε) (i : Nat) : Bench ε :=
  match b.chains[i]? with
  | some s => if s.isHeld then (b.update i Stack.resume).proceed i else b
  | none => b

/-- Adds units to a segment, which wakes nobody. -/
def append (b : Bench ε) (n : Nat) (units : Bytes) : Option (Except CaptureError (Bench ε)) := do
  let segment ← b.segments[n]?
  return match segment.append units with
    | .ok segment' => .ok { b with segments := b.segments.set n segment' }
    | .error e => .error e

def pushSegment (b : Bench ε) (source : Nat) (segment : Segment) : Bench ε :=
  { b with
    segments := b.segments ++ [segment]
    sources := b.sources.modify source fun s => s.push b.segments.length }

/-- Drops the segments of a source; runs keep theirs. -/
def clearSource (b : Bench ε) (source : Nat) : Bench ε :=
  { b with sources := b.sources.modify source Source.clear }

/-- Takes the record, which is empty afterwards. -/
def takeLog (b : Bench ε) : List LogEntry × Bench ε := (b.log, { b with log := [] })

end Bench

end LogicDecode
