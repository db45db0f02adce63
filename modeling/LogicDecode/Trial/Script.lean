import LogicDecode.Engine

/-!
# Scripted engines

A `Script` is an engine that plays marks from a list, fails where it is told to, keeps its caller
waiting at gates, and notes every call.
-/

namespace LogicDecode

/-- A call that a scripted engine has noted. -/
inductive Call where
  | session
  | create (setup : Setup)
  | stack (lower upper : Nat)
  | rate (hz : Nat)
  | attach
  | start
  | send (start stop : Nat) (data : Bytes) (unitSize : Nat)
  | close

/-- An engine that plays a script. -/
structure Script where
  /-- The marks to be reported, each with the chunk in which it starts. -/
  marks : List Mark
  /-- The decoder id that is refused. -/
  reject : Option String
  failSession : Option String
  failStack : Option String
  failStart : Option String
  /-- The first sample that is refused. -/
  failSendAt : Option Nat
  /-- The samples at which the caller is kept waiting, once each. -/
  gates : List Nat
  /-- The instances of the open session. -/
  instances : Nat
  calls : List Call

namespace Script

def note (s : Script) (c : Call) : Script := { s with calls := s.calls ++ [c] }

/-- Fails with a text, if there is one. -/
def fail (reason : Option String) : Except EngineError Unit :=
  match reason with
  | some text => .error (.failed text)
  | none => .ok ()

def create (s : Script) (t : Setup) : Script × Outcome EngineError Nat :=
  let s := s.note (.create t)
  if s.reject = some t.decoder then (s, .error (.refused (.unknownDecoder t.decoder)))
  else ({ s with instances := s.instances + 1 }, .ok s.instances)

def send (s : Script) (start stop : Nat) (data : Bytes) (unitSize : Nat) : Script × Submission :=
  let s := s.note (.send start stop data unitSize)
  match s.failSendAt with
  | some limit =>
    if limit ≤ start then (s, ⟨false, [], .error (.refused (.failed "scripted failure"))⟩)
    else play s
  | none => play s
where
  /-- Uses up the gates of the chunk and reports its marks. -/
  play (s : Script) : Script × Submission :=
    let inside := fun i => decide (start ≤ i ∧ i < stop)
    ({ s with gates := s.gates.filter fun g => !inside g },
      ⟨s.gates.any inside, s.marks.filter fun m => inside m.start, .ok ()⟩)

/-- Takes the noted calls, which are none afterwards. -/
def takeCalls (s : Script) : List Call × Script := (s.calls, { s with calls := [] })

end Script

instance : Engine Script where
  openSession s :=
    let s := s.note .session
    ({ s with instances := 0 }, Script.fail s.failSession)
  create := Script.create
  stack s lower upper := (s.note (.stack lower upper), Script.fail s.failStack)
  setRate s hz := s.note (.rate hz)
  attach s := s.note .attach
  start s := (s.note .start, Script.fail s.failStart)
  send := Script.send
  closeSession s := s.note .close

/-- An engine that runs decoders for trials or plays a script. -/
inductive TrialEngine (σ : Type) where
  | host (h : Host σ)
  | script (s : Script)

namespace TrialEngine

variable {σ α : Type}

/-- Puts the next state of an engine into the family of both kinds. -/
def lift {ε : Type} (f : ε → TrialEngine σ) (r : ε × α) : TrialEngine σ × α := (f r.1, r.2)

end TrialEngine

open TrialEngine in
instance {σ : Type} [Protocol σ] : Engine (TrialEngine σ) where
  openSession
    | host h => lift host (Engine.openSession h)
    | script s => lift script (Engine.openSession s)
  create
    | host h, t => lift host (Engine.create h t)
    | script s, t => lift script (Engine.create s t)
  stack
    | host h, l, u => lift host (Engine.stack h l u)
    | script s, l, u => lift script (Engine.stack s l u)
  setRate
    | host h, hz => host (Engine.setRate h hz)
    | script s, hz => script (Engine.setRate s hz)
  attach
    | host h => host (Engine.attach h)
    | script s => script (Engine.attach s)
  start
    | host h => lift host (Engine.start h)
    | script s => lift script (Engine.start s)
  send
    | host h, a, b, data, u => lift host (Engine.send h a b data u)
    | script s, a, b, data, u => lift script (Engine.send s a b data u)
  closeSession
    | host h => host (Engine.closeSession h)
    | script s => script (Engine.closeSession s)

end LogicDecode
