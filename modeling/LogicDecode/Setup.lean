import LogicDecode.Error
import LogicDecode.Keyed
import LogicDecode.OptionValue

/-!
# Instance setups

A `Setup` is what an engine needs to make an instance of a decoder: which bit of a sample each
assigned channel is, and the options that are set.
-/

namespace LogicDecode

/-- The wiring and the options of a decoder instance. -/
structure Setup where
  decoder : String
  /-- The bit of a sample that each assigned channel reads. -/
  channels : Keyed Nat
  options : Keyed OptionValue
deriving Repr, Inhabited

namespace Setup

variable (s : Setup)

def channel? (id : String) : Option Nat := s.channels.get? id

def missing (id : String) : EngineError := .missingChannel s.decoder id

def invalid (id reason : String) : EngineError := .invalidOption s.decoder id reason

/-- The bit of a channel that has to be assigned. -/
def channel (id : String) : Except EngineError Nat :=
  match s.channel? id with
  | some bit => .ok bit
  | none => .error (s.missing id)

def option? (id : String) : Option OptionValue := s.options.get? id

/-- An integer option, or the value that stands for it when it is not set. -/
def int (id : String) (default : Int) : Except EngineError Int :=
  match s.option? id with
  | none => .ok default
  | some (.int v) => .ok v
  | some _ => .error (s.invalid id "expected an integer")

/-- A text option, or the text that stands for it when it is not set. -/
def str (id : String) (default : String) : Except EngineError String :=
  match s.option? id with
  | none => .ok default
  | some (.str v) => .ok v
  | some _ => .error (s.invalid id "expected a string")

/-- An option that is 0 or 1, and 0 when it is not set. -/
def flag (id : String) : Except EngineError Bool := do
  match ← s.int id 0 with
  | 0 => .ok false
  | 1 => .ok true
  | other => .error (s.invalid id s!"expected 0 or 1, got {other}")

end Setup

end LogicDecode
