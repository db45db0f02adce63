/-!
# Marks

A `Mark` labels the samples `[start, stop)` on behalf of a decoder: it has one of the classes that
the decoder declares and carries the same statement in several lengths, longest first. A decoder
itself only makes a `Finding`; whoever runs the decoder signs it.
-/

namespace LogicDecode

/-- A labelled range of samples. -/
structure Mark where
  start : Nat
  stop : Nat
  /-- The id of the decoder that found it. -/
  decoder : String
  /-- The number of its class among those the decoder declares. -/
  cls : Nat
  texts : List String
deriving Repr, DecidableEq, Inhabited

/-- A labelled range that no decoder has put its name to yet. -/
structure Finding where
  start : Nat
  stop : Nat
  cls : Nat
  texts : List String
deriving Repr, DecidableEq

def Finding.sign (decoder : String) (f : Finding) : Mark :=
  ⟨f.start, f.stop, decoder, f.cls, f.texts⟩

namespace Mark

/-- The longest text, empty when there is none. -/
def caption (m : Mark) : String := m.texts.headD ""

/-- The line that stands for a mark: range, decoder and class, longest text. -/
def render (m : Mark) : String := s!"{m.start}-{m.stop} {m.decoder}/{m.cls}: {m.caption}"

/-- Whether the mark reaches into `[start, stop)`. -/
def overlaps (m : Mark) (start stop : Nat) : Bool := m.start < stop && start < m.stop

end Mark

/-- The marks that one decoder makes during one call. -/
structure Sink where
  decoder : String
  marks : List Mark
deriving Repr, DecidableEq

namespace Sink

def empty (decoder : String) : Sink := ⟨decoder, []⟩

def put (s : Sink) (f : Finding) : Sink := { s with marks := s.marks ++ [f.sign s.decoder] }

def putAll (s : Sink) (fs : List Finding) : Sink :=
  { s with marks := s.marks ++ fs.map (Finding.sign s.decoder) }

theorem putAll_cons (s : Sink) (f : Finding) (fs : List Finding) :
    s.putAll (f :: fs) = (s.put f).putAll fs := by
  simp [putAll, put]

end Sink

end LogicDecode
