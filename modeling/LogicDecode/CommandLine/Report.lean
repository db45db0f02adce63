import LogicDecode.CommandLine.Decode
import LogicDecode.Decimal.Fixed
import LogicDecode.Text.Quoted

/-!
# Reports

What the program prints: for every visible row a heading and its marks, each with the time of its
first sample in seconds. A `Verdict` is all that a run of the program leaves behind.
-/

namespace LogicDecode

/-- The cause with its data, as it stands in a complaint. -/
def CaptureError.detail : CaptureError → String
  | .noFile => s!"Io(Os \x7b code: 2, kind: NotFound, message: {quoted noFileReason} \x7d)"
  | .unreadable reason => s!"Io(Error \x7b kind: InvalidData, message: {quoted reason} \x7d)"
  | .archive reason => s!"Zip(InvalidArchive({quoted reason}))"
  | .header reason => s!"ParseHeader({quoted reason})"
  | .missingField name => s!"MissingField({quoted name})"
  | .invalidProbe number => s!"InvalidProbe({number})"
  | .invalidBlock number => s!"InvalidBlock({number})"
  | .outOfBounds position => s!"OutOfBounds({position})"
  | .partialUnit size unitSize => s!"PartialUnit \x7b len: {size}, unit_size: {unitSize} \x7d"

def Complaint.render : Complaint → String
  | .capture cause => "Error: " ++ cause.detail
  | .noProbe channel probes =>
    "Error: " ++ quoted s!"Channel {channel} not in capture ({probes} probes)"
  | .run cause => "Error: " ++ quoted cause.message

def UsageError.render : UsageError → String
  | .unknown word => s!"error: unexpected argument '{word}'"
  | .missingValue name => s!"error: a value is required for '--{name}'"
  | .repeated name => s!"error: the argument '--{name}' cannot be used multiple times"
  | .missing name => s!"error: the argument '--{name}' was not provided"
  | .invalid name value => s!"error: invalid value '{value}' for '--{name}'"
  | .noCommand => "error: 'spi' or 'parallel' is required"

namespace Stack

variable {ε : Type} (s : Stack ε)

def seconds (sample : Nat) : Float := Float.ofNat sample / s.input.rate + s.input.startTime

def marksOf (row : Row) : List Mark := s.output.within row 0 s.output.reach

def markLine (m : Mark) : String :=
  alignRight 12 (fixedPlaces 9 (s.seconds m.start)) ++ "s  " ++ m.render

/-- A row with at most a number of its marks, all if it is 0. -/
def rowLines (limit : Nat) (row : Row) : List String :=
  let marks := s.marksOf row
  let count := if limit = 0 then marks.length else limit
  s!"== {row.title} ({marks.length} annotations)" :: (marks.take count).map s.markLine

/-- The visible rows. -/
def report (limit : Nat) : List String := s.visibleRows.flatMap (s.rowLines limit)

end Stack

/-- What a run of the program leaves behind. -/
inductive Verdict where
  | printed (lines : List String)
  | refused (cause : Complaint)
  | misused (cause : UsageError)
  /-- A fault while the capture was loaded, or a run without an end. -/
  | broken
deriving Repr, DecidableEq

namespace Verdict

def exitCode : Verdict → Nat
  | printed _ => 0
  | refused _ => 1
  | misused _ => 2
  | broken => 101

def output : Verdict → List String
  | printed lines => lines
  | _ => []

def complaint? : Verdict → Option String
  | refused cause => some cause.render
  | misused cause => some cause.render
  | printed _ | broken => none

def ofCapture (a : Arguments) (c : Capture) : Verdict :=
  match a.decoder.stage c with
  | .error e => refused e
  | .ok stage =>
    match c.decode? stage a.config with
    | none => broken
    | some s =>
      match s.output.error with
      | some e => refused (.run e)
      | none => printed (s.report a.limit)

/-- What a loaded capture, or the failure to load one, leads to. -/
def ofLoaded (a : Arguments) : Outcome CaptureError Capture → Verdict
  | .ok c => ofCapture a c
  | .error (.refused e) => refused (.capture e)
  | .error (.fault _) => broken

end Verdict

end LogicDecode
