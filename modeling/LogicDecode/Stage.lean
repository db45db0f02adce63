import LogicDecode.Profile
import LogicDecode.Setup
import LogicDecode.Samples.Source

/-!
# Stages

A `Stage` is one entry of a decoder stack: a decoder with the signals on its channels, its options,
and whether its rows are shown. Signals may be put on channels that the decoder does not declare.
-/

namespace LogicDecode

/-- A decoder as configured in a stack. -/
structure Stage where
  profile : Profile
  signals : Keyed Signal
  options : Keyed OptionValue
  shown : Bool
deriving Repr

namespace Stage

def ofProfile (p : Profile) : Stage := ⟨p, [], [], true⟩

def signal? (s : Stage) (channel : String) : Option Signal := s.signals.get? channel

def connect (s : Stage) (channel : String) (signal : Signal) : Stage :=
  { s with signals := s.signals.insert channel signal }

def disconnect (s : Stage) (channel : String) : Stage :=
  { s with signals := s.signals.erase channel }

def setOption (s : Stage) (id : String) (value : OptionValue) : Stage :=
  { s with options := s.options.insert id value }

def isComplete (s : Stage) : Bool := s.profile.required.all fun c => s.signals.contains c.id

/-- The signal on the first channel, in the decoder's order, that has one. -/
def firstSignal? (s : Stage) : Option Signal :=
  s.profile.channels.findSome? fun c => s.signal? c.id

def setup (s : Stage) : Setup :=
  ⟨s.profile.id, s.signals.map fun p => (p.1, p.2.bit), s.options⟩

end Stage

end LogicDecode
