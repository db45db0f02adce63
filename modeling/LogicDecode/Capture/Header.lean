import LogicDecode.Decimal.Read
import LogicDecode.Error
import LogicDecode.Fault
import LogicDecode.Text.Blank

/-!
# Capture headers

The header of a capture is a text of lines `key = value`. Of several lines of a key the last one
counts, even if its value cannot be read. Lines of other keys, section lines and empty lines are
passed over.
-/

namespace LogicDecode

/-- What a line of a header says. A number that cannot be read is none. -/
inductive HeaderLine where
  | probes (n : Option Nat)
  | rate (text : List Char)
  | samples (n : Option Nat)
  | blocks (n : Option Nat)
  | name (probe : Nat) (text : List Char)
  | other
deriving Repr, DecidableEq

namespace HeaderLine

def ofText (line : List Char) : HeaderLine :=
  if let some v := afterStart? "total probes = ".toList line then probes (natural? wordBound v)
  else if let some v := afterStart? "samplerate = ".toList line then rate v
  else if let some v := afterStart? "total samples = ".toList line then
    samples (natural? wordBound v)
  else if let some v := afterStart? "total blocks = ".toList line then blocks (natural? wordBound v)
  else
    match cut? " = ".toList line with
    | none => other
    | some (key, v) =>
      match (afterStart? "probe".toList key).bind (natural? wordBound) with
      | some probe => name probe v
      | none => other

end HeaderLine

/-- The values of a header so far; of the names the last one of a probe counts. -/
structure HeaderFields where
  probes : Option Nat
  rate : Option (List Char)
  samples : Option Nat
  blocks : Option Nat
  names : List (Nat × List Char)
deriving Repr, DecidableEq

namespace HeaderFields

def empty : HeaderFields := ⟨none, none, none, none, []⟩

/-- Enters a line, in the place of an earlier one of its key. -/
def enter (f : HeaderFields) : HeaderLine → HeaderFields
  | .probes n => { f with probes := n }
  | .rate text => { f with rate := some text }
  | .samples n => { f with samples := n }
  | .blocks n => { f with blocks := n }
  | .name probe text => { f with names := (probe, text) :: f.names }
  | .other => f

def ofText (text : List Char) : HeaderFields :=
  ((splitAt (· == '\n') text).map fun line => HeaderLine.ofText (trimBlanks line)).foldl enter empty

/-- The name of a probe, made of its number if the header gives none. -/
def nameOf (f : HeaderFields) (probe : Nat) : String :=
  match f.names.lookup probe with
  | some text => String.ofList text
  | none => s!"Probe{probe}"

end HeaderFields

def hertz? (unit : String) : Option Float :=
  match unit with
  | "GHz" => some 1000000000.0
  | "MHz" => some 1000000.0
  | "KHz" | "kHz" => some 1000.0
  | "Hz" => some 1.0
  | _ => none

/-- Reads a rate in Hz: a decimal and a unit, and perhaps more words. -/
def sampleRate? (text : List Char) : Option Float :=
  match words text with
  | value :: unit :: _ => do
    let x ← float? (String.ofList value)
    let factor ← hertz? (String.ofList unit)
    return x * factor
  | _ => none

/-- The values of a header that a capture needs. -/
structure Header where
  probes : Nat
  rateText : String
  /-- The rate in Hz. -/
  rate : Float
  samples : Nat
  blocks : Nat
  /-- The samples in the first block of the first probe. -/
  blockSize : Nat
  names : List String
deriving Repr

namespace Header

def period (h : Header) : Float := 1.0 / h.rate

/-- The bytes per sample, with one bit per probe. -/
def unitSize (h : Header) : Nat := (h.probes + 7) / 8

def duration (h : Header) : Float := Float.ofNat h.samples * h.period

def needed {α : Type} (name : String) : Option α → Except CaptureError α
  | some a => .ok a
  | none => .error (.missingField name)

/-- Checks the values of a header. `firstBlock` gives the bytes in the first block of the first
probe, which is asked for only if there are blocks; storage for more names than could ever be stored
is a fault. -/
def ofFields (f : HeaderFields) (firstBlock : Except CaptureError Nat) :
    Outcome CaptureError Header := do
  let probes ← Outcome.accept (needed "total probes" f.probes)
  let rateText ← Outcome.accept (needed "samplerate" f.rate)
  let samples ← Outcome.accept (needed "total samples" f.samples)
  let blocks ← Outcome.accept (needed "total blocks" f.blocks)
  if probes = 0 then throw (.refused (.header "Capture has no probes"))
  let some rate := sampleRate? rateText
    | throw (.refused (.header ("Invalid sample rate: " ++ String.ofList rateText)))
  let blockSize ← if blocks = 0 then pure 0 else
    (fun size => size * 8) <$> Outcome.accept firstBlock
  if storageBound ≤ 24 * probes then throw (.fault .allocation)
  return ⟨probes, String.ofList rateText, rate, samples, blocks, blockSize,
    (List.range probes).map f.nameOf⟩

end Header

end LogicDecode
