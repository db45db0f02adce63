import LogicDecode.Archive.Directory
import LogicDecode.Capture.Header
import LogicDecode.Samples.Segment
import LogicDecode.Samples.Source

/-!
# Captures

A capture is an archive with a header and the samples of every probe, packed into blocks: bit `n` of
block `b` of a probe is its sample `b * blockSize + n`. Loading weaves the probes into units of one
segment. Blocks that begin behind the last sample are not read, bits behind the last sample are
dropped, and samples that no block holds are low.
-/

namespace LogicDecode

/-- A loaded capture. -/
structure Capture where
  header : Header
  segment : Segment
deriving Repr

namespace Capture

def headerText (a : Archive) : Except CaptureError (List Char) :=
  match a.read "header" with
  | .error (.unopened reason) => .error (.header ("Cannot find header file: " ++ reason))
  | .error (.unreadable reason) => .error (.unreadable reason)
  | .ok data =>
    match String.fromUTF8? ⟨data⟩ with
    | some text => .ok text.toList
    | none => .error (.unreadable "stream did not contain valid UTF-8")

def block (a : Archive) (probe number : Nat) : Except CaptureError Bytes :=
  match a.read s!"L-{probe}/{number}" with
  | .error (.unopened _) => .error (.invalidBlock number)
  | .error (.unreadable reason) => .error (.unreadable reason)
  | .ok data => .ok data

def readHeader (a : Archive) : Outcome CaptureError Header := do
  let text ← Outcome.accept (headerText a)
  Header.ofFields (.ofText text) ((block a 0 0).map Array.size)

/-- Packed samples of a probe from a sample on. -/
structure Run where
  probe : Nat
  start : Nat
  data : Bytes
deriving Repr

/-- Reads the blocks of a probe from a number on, as long as they begin before the last sample. -/
def runsOfProbe (a : Archive) (h : Header) (probe : Nat) :
    (count number : Nat) → Outcome CaptureError (List Run)
  | 0, _ => .ok []
  | count + 1, number => do
    let start ← Outcome.check (checkedMul number h.blockSize)
    if h.samples ≤ start then return []
    let data ← Outcome.accept (block a probe number)
    let rest ← runsOfProbe a h probe count (number + 1)
    return ⟨probe, start, data⟩ :: rest

def runs (a : Archive) (h : Header) : Outcome CaptureError (List Run) :=
  (List.range h.probes).foldlM (fun acc probe => do
    let more ← runsOfProbe a h probe h.blocks 0
    return acc ++ more) []

/-- Raises the bit of a probe in the unit of a sample. -/
def raise (unitSize probe : Nat) (units : Bytes) (sample : Nat) : Bytes :=
  units.modify (sample * unitSize + probe / 8) fun b => b ||| (1 <<< (probe % 8)).toUInt8

/-- Raises the bits of a probe wherever its packed samples are high. -/
def weave (h : Header) (units : Bytes) (r : Run) : Bytes :=
  (List.range (min (r.data.size * 8) (h.samples - r.start))).foldl (fun units i =>
    if packedBit r.data i then raise h.unitSize r.probe units (r.start + i) else units) units

def readSegment (a : Archive) (h : Header) : Outcome CaptureError Segment := do
  let size ← Outcome.check (checkedMul h.samples h.unitSize)
  if storageBound ≤ size then throw (.fault .allocation)
  let rs ← runs a h
  Segment.ofData h.unitSize h.rate 0.0 (rs.foldl (weave h) (Array.replicate size 0))

def ofArchive (a : Archive) : Outcome CaptureError Capture := do
  let h ← readHeader a
  let s ← readSegment a h
  return ⟨h, s⟩

def ofFile (file : Bytes) : Outcome CaptureError Capture :=
  match Archive.ofBytes file with
  | some a => ofArchive a
  | none => .error (.refused (.archive "Could not find EOCD"))

def level (c : Capture) (probe position : Nat) : Except CaptureError Bool :=
  if c.header.probes ≤ probe then .error (.invalidProbe probe)
  else if c.segment.size ≤ position then .error (.outOfBounds position)
  else .ok (packedBit (c.segment.samples position (position + 1)) probe)

/-- The source of the capture's segment, which is given by its number. -/
def source (c : Capture) (segment : Nat) : Source Nat := ⟨c.header.probes, [segment]⟩

/-- The signals of the probes, as channels of a source. -/
def signals (c : Capture) (source : Nat) : List Signal :=
  c.header.names.zipIdx.map fun p => ⟨p.1, p.2, some source⟩

end Capture

end LogicDecode
