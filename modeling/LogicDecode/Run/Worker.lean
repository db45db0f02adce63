import LogicDecode.Run.Stack

/-!
# The moves of a worker

A worker opens a session with one instance per stage, each on top of the one before, and feeds it
the segment in chunks. When it has fed all that was announced it waits for more, until the segment
is complete, the capture stops or the run is interrupted. At last it closes the session and says
that it is over.

`Stack.step?` makes one move; `Stack.settle` moves until the worker waits or is gone. A fault ends
the worker at once: the session is closed, but nobody is told.
-/

namespace LogicDecode

namespace Stack

variable {ε : Type}

def setPhase (s : Stack ε) (w : Worker) (p : Phase) : Stack ε :=
  { s with worker := some { w with phase := p } }

/-- The end of a run, told to the subscribers. -/
def conclude (s : Stack ε) (w : Worker) (error : Option RunError) : Stack ε × List LogEntry :=
  let (s', log) := match error with
    | some e => s.latch e
    | none => (s, [])
  ({ s' with broadcast := s'.broadcast.send .finished }.setPhase w .ended, log)

/-- Stores marks until one is at fault, and tells the subscribers when that is due. -/
def storeAll : List Mark → Output → Broadcast → List LogEntry →
    Output × Broadcast × List LogEntry × Option Fault
  | [], o, b, log => (o, b, log, none)
  | m :: rest, o, b, log =>
    match o.store m with
    | ⟨o', more, .ok tell⟩ => storeAll rest o' (if tell then b.send .marks else b) (log ++ more)
    | ⟨o', more, .error f⟩ => (o', b, log ++ more, some f)

def demand (s : Stack ε) (fed : Nat) : Demand :=
  ⟨s.interrupted, s.input.complete, fed, s.input.count, s.capture⟩

variable [Engine ε]

/-- Makes an instance per stage, each on top of the one before. -/
def build (e : ε) (lower : Option Nat) : List Stage → ε × Outcome RunError Unit
  | [] => (e, .ok ())
  | stage :: rest =>
    match Engine.create e stage.setup with
    | (e', .error c) => (e', (Outcome.because RunError.instantiation (.error c)))
    | (e', .ok n) =>
      match lower with
      | none => build e' (some n) rest
      | some l =>
        match Engine.stack e' l n with
        | (e'', .error c) => (e'', .error (.refused (.instantiation c)))
        | (e'', .ok ()) => build e'' (some n) rest

def crash (s : Stack ε) (w : Worker) : Stack ε :=
  { s with engine := Engine.closeSession s.engine }.setPhase w .faulted

def giveUp (s : Stack ε) (w : Worker) (e : RunError) : Stack ε × List LogEntry :=
  { s with engine := Engine.closeSession s.engine }.conclude w (some e)

/-- Opens and starts a session and announces the samples of the segment. -/
def enter (s : Stack ε) (w : Worker) (segment : Segment) : Stack ε × List LogEntry :=
  match Engine.openSession s.engine with
  | (e, .error c) => { s with engine := e }.conclude w (some (.session c))
  | (e, .ok ()) =>
    match build e none w.stages with
    | (e, .error (.refused c)) => { s with engine := e }.giveUp w c
    | (e, .error (.fault _)) => ({ s with engine := e }.crash w, [])
    | (e, .ok ()) =>
      let count := segment.size
      let hz := w.rate.toUInt64.toNat
      let (e, r) := Engine.start (Engine.attach (Engine.setRate e hz))
      let s' := { s with engine := e, input := { s.input with count := count } }
      match r with
      | .error c => s'.giveUp w (.session c)
      | .ok () => (s'.setPhase w (.feeding 0 count), [])

/-- Takes in what the engine made of the samples up to `stop`. -/
def absorb (s : Stack ε) (w : Worker) (stop count : Nat) (sub : Submission) :
    Stack ε × List LogEntry :=
  let (o, b, log, fault) := storeAll sub.reported s.output s.broadcast []
  let s' := { s with output := o, broadcast := b }
  match fault, sub.outcome with
  | some _, _ => (s'.crash w, log)
  | none, .error (.fault _) => (s'.crash w, log)
  | none, .error (.refused c) => (s'.setPhase w (.closing (some (.submission c))), log)
  | none, .ok () =>
    ({ s' with output := { s'.output with decoded := stop } }.setPhase w (.feeding stop count), log)

def submit (s : Stack ε) (w : Worker) (segment : Segment) (fed count : Nat) :
    Stack ε × List LogEntry :=
  match checkedAdd fed (w.config.chunkSamples segment.unitSize) with
  | .error _ => (s.crash w, [])
  | .ok reach =>
    let stop := min reach count
    let (e, sub) := Engine.send s.engine fed stop (segment.samples fed stop) segment.unitSize
    let s' := { s with engine := e }
    if sub.held then (s'.setPhase w (.held stop count sub), []) else s'.absorb w stop count sub

/-- One move of the worker; none if there is nothing that it can do by itself. -/
def step? (s : Stack ε) (segment : Segment) : Option (Stack ε × List LogEntry) :=
  match s.worker with
  | none => none
  | some w =>
    match w.phase with
    | .queued | .held .. | .ended | .faulted => none
    | .feeding fed count =>
      if s.interrupted then some (s.setPhase w (.closing none), [])
      else if fed < count then some (s.submit w segment fed count)
      else some (s.setPhase w (.waiting fed), [])
    | .waiting fed =>
      let d := s.demand fed
      if d.waits then none
      else match d.next? with
        | some count => some (s.setPhase w (.feeding fed count), [])
        | none => some (s.setPhase w (.closing none), [])
    | .closing error =>
      let s' := { s with
        broadcast := s.broadcast.send .marks
        engine := Engine.closeSession s.engine }
      some (s'.conclude w error)

/-- A number that every move makes smaller. -/
def potential (s : Stack ε) : Nat :=
  match s.worker with
  | none => 0
  | some w =>
    match w.phase with
    | .queued | .held .. | .ended | .faulted => 0
    | .feeding fed count =>
      4 * (max count s.input.count - fed) + if fed < count then 2 else 4
    | .waiting fed => 4 * (s.input.count - fed) + 3
    | .closing _ => 1

/-- Makes at most a number of moves, and adds to a record what they put on it. -/
def moves (segment : Segment) : Nat → Stack ε × List LogEntry → Stack ε × List LogEntry
  | 0, (s, log) => (s, log)
  | n + 1, (s, log) =>
    match s.step? segment with
    | none => (s, log)
    | some (s', more) => moves segment n (s', log ++ more)

/-- Moves until the worker waits or is gone. -/
def settle (s : Stack ε) (segment : Segment) : Stack ε × List LogEntry :=
  moves segment s.potential (s, [])

def resume (s : Stack ε) : Stack ε × List LogEntry :=
  match s.worker with
  | some w =>
    match w.phase with
    | .held stop count sub => s.absorb w stop count sub
    | _ => (s, [])
  | none => (s, [])

end Stack

end LogicDecode
