import LogicDecode.Session

/-!
# Engines

An `Engine ε` is what a decoder stack runs on. A state of type `ε` is an engine together with its
open session, if there is one: at any time one stack has at most one session. Marks come only with
a submission. `Host` is the engine that runs registered decoders.
-/

namespace LogicDecode

/-- What came of handing samples to an engine: the marks it reported, and whether it took the
samples. If it keeps the caller waiting, both come once it lets go. -/
structure Submission where
  held : Bool
  reported : List Mark
  outcome : Outcome EngineError Unit
deriving Repr

/-- The calls of an engine, each with the engine's next state. -/
class Engine (ε : Type) where
  openSession : ε → ε × Except EngineError Unit
  /-- Makes an instance of a decoder and returns its number. -/
  create : ε → Setup → ε × Outcome EngineError Nat
  /-- Puts the second instance on top of the first. -/
  stack : ε → Nat → Nat → ε × Except EngineError Unit
  setRate : ε → Nat → ε
  /-- Has marks reported. -/
  attach : ε → ε
  start : ε → ε × Except EngineError Unit
  /-- Takes the samples `[start, stop)` in units of a size. -/
  send : ε → (start stop : Nat) → Bytes → (unitSize : Nat) → ε × Submission
  closeSession : ε → ε

/-- An engine that runs registered decoders. -/
structure Host (σ : Type) where
  registry : Registry σ
  session : Option (Session σ)

namespace Host

variable {σ : Type}

def ofRegistry (r : Registry σ) : Host σ := ⟨r, none⟩

/-- Makes a call that may change the session. Without a session it is refused. -/
def update (h : Host σ) (call : Session σ → Except EngineError (Session σ)) :
    Host σ × Except EngineError Unit :=
  match h.session with
  | none => (h, .error .notStarted)
  | some s =>
    match call s with
    | .ok s' => ({ h with session := some s' }, .ok ())
    | .error e => (h, .error e)

def create (h : Host σ) (t : Setup) : Host σ × Outcome EngineError Nat :=
  match h.session with
  | none => (h, .error (.refused .notStarted))
  | some s =>
    match s.create t with
    | .ok (s', n) => ({ h with session := some s' }, .ok n)
    | .error e => (h, .error e)

def send [Protocol σ] (h : Host σ) (start stop : Nat) (data : Bytes) (unitSize : Nat) :
    Host σ × Submission :=
  match h.session with
  | none => (h, ⟨false, [], .error (.refused .notStarted)⟩)
  | some s =>
    let d := s.send start stop data unitSize
    ({ h with session := some d.session }, ⟨false, d.reported, d.outcome⟩)

end Host

instance {σ : Type} [Protocol σ] : Engine (Host σ) where
  openSession h := ({ h with session := some (.ofRegistry h.registry) }, .ok ())
  create := Host.create
  stack h lower upper := h.update fun s => s.stack lower upper
  setRate h hz := { h with session := h.session.map fun s => s.setRate hz }
  attach h := { h with session := h.session.map Session.attach }
  start h := h.update Session.start
  send := Host.send
  closeSession h := { h with session := none }

end LogicDecode
