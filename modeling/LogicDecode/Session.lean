import LogicDecode.Delivery
import LogicDecode.Registry

/-!
# Sessions

A `Session` is built from instances of registered decoders, which are stacked on each other, and is
then started. From there on it takes chunks of samples, each of which has to begin where the last
one ended and to hold as many bytes as its range says. Calls out of this order are refused, and a
refused call leaves the session as it was; only a chunk that a decoder refuses has been delivered in
part, and the session still expects it.
-/

namespace LogicDecode

/-- Instances of decoders, and how far they have been fed. -/
structure Session (σ : Type) where
  registry : Registry σ
  instances : List (Instance σ)
  /-- The sample rate in Hz. -/
  rate : Nat
  /-- Whether anyone takes the marks. -/
  reporting : Bool
  started : Bool
  /-- The first sample of the next chunk, none before the first one. -/
  next : Option Nat

/-- What came of a chunk: the session after it, the marks reported meanwhile, and whether the chunk
was accepted. -/
structure Delivered (σ : Type) where
  session : Session σ
  reported : List Mark
  outcome : Outcome EngineError Unit

namespace Session

variable {σ : Type}

def ofRegistry (r : Registry σ) : Session σ := ⟨r, [], 0, false, false, none⟩

/-- Makes an instance and returns its number. -/
def create (s : Session σ) (t : Setup) : Outcome EngineError (Session σ × Nat) :=
  if s.started then .error (.refused .alreadyStarted)
  else
    match s.registry.get? t.decoder with
    | none => .error (.refused (.unknownDecoder t.decoder))
    | some r => do
      let state ← r.create t
      return ({ s with instances := s.instances ++ [⟨r.profile.id, state, none⟩] },
        s.instances.length)

/-- Whether an instance has a number. -/
def find (s : Session σ) (i : Nat) : Except EngineError (Instance σ) :=
  match s.instances[i]? with
  | some x => .ok x
  | none => .error (.unknownInstance i)

/-- Puts the instance `upper` on top of the instance `lower`. -/
def stack (s : Session σ) (lower upper : Nat) : Except EngineError (Session σ) := do
  if s.started then throw .alreadyStarted
  let _ ← s.find lower
  let x ← s.find upper
  if lower = upper then throw (.failed s!"cannot stack instance {lower} on itself")
  match x.lower with
  | some existing =>
    .error (.failed s!"instance {upper} is already stacked on instance {existing}")
  | none => .ok { s with instances := s.instances.set upper { x with lower := some lower } }

def setRate (s : Session σ) (hz : Nat) : Session σ := { s with rate := hz }

def attach (s : Session σ) : Session σ := { s with reporting := true }

variable [Protocol σ]

def start (s : Session σ) : Except EngineError (Session σ) :=
  if s.started then .error .alreadyStarted
  else .ok { s with
    instances := s.instances.map fun x => { x with state := Protocol.start x.state s.rate }
    started := true }

omit [Protocol σ] in
/-- Whether a chunk of a range and a number of bytes may come next. -/
def accept (s : Session σ) (start stop size unitSize : Nat) : Outcome EngineError Unit := do
  if !s.started then throw (.refused .notStarted)
  match s.next with
  | some expected =>
    if expected ≠ start then throw (.refused (.outOfOrder expected start))
  | none => pure ()
  let expected ← Outcome.check (checkedMul (stop - start) unitSize)
  if stop < start || unitSize = 0 || size ≠ expected then
    throw (.refused (.chunkSize expected size))

/-- Hands the samples `[start, stop)` to the instances. -/
def send (s : Session σ) (start stop : Nat) (data : Bytes) (unitSize : Nat) : Delivered σ :=
  match s.accept start stop data.size unitSize with
  | .error e => ⟨s, [], .error e⟩
  | .ok () =>
    let f := (Flow.ofInstances s.instances).run ⟨start, data, unitSize⟩
    let reported := if s.reporting then f.reported.toList else []
    match f.refusal with
    | some e => ⟨{ s with instances := f.instances }, reported, .error (.refused e)⟩
    | none => ⟨{ s with instances := f.instances, next := some stop }, reported, .ok ()⟩

end Session

end LogicDecode
