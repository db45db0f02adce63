/-!
# Causes of refusal

What an engine refuses (`EngineError`), how a run of a decoder stack fails (`RunError`), and why a
capture cannot be loaded or extended (`CaptureError`), each with its text.
-/

namespace LogicDecode

/-- Why an engine or one of its decoders refuses a call. -/
inductive EngineError where
  | unknownDecoder (id : String)
  | missingChannel (decoder channel : String)
  | invalidOption (decoder option reason : String)
  | unknownInstance (number : Nat)
  | notStarted
  | alreadyStarted
  | outOfOrder (expected got : Nat)
  | chunkSize (expected got : Nat)
  /-- A decoder's or the engine's own complaint. -/
  | failed (reason : String)
deriving Repr, DecidableEq

def EngineError.message : EngineError → String
  | .unknownDecoder id => s!"Unknown decoder '{id}'"
  | .missingChannel decoder channel => s!"Decoder '{decoder}' is missing channel '{channel}'"
  | .invalidOption decoder option reason =>
    s!"Invalid value for option '{option}' of decoder '{decoder}': {reason}"
  | .unknownInstance number => s!"Unknown decoder instance {number}"
  | .notStarted => "Session has not been started"
  | .alreadyStarted => "Session has already been started"
  | .outOfOrder expected got => s!"Samples out of order: expected chunk at {expected}, got {got}"
  | .chunkSize expected got => s!"Chunk size mismatch: expected {expected} bytes, got {got}"
  | .failed reason => reason

/-- Why a run of a decoder stack failed: before it began, while the chain was built, while the
session was opened or started, or when samples were submitted. -/
inductive RunError where
  | missingChannels
  | instantiation (cause : EngineError)
  | session (cause : EngineError)
  | submission (cause : EngineError)
deriving Repr, DecidableEq

def RunError.message : RunError → String
  | .missingChannels => "One or more required channels have not been specified"
  | .instantiation cause => "Failed to create decoder instance: " ++ cause.message
  | .session cause => "Failed to start decode session: " ++ cause.message
  | .submission cause => "Decoder reported an error: " ++ cause.message

/-- Why captured data cannot be loaded, read or extended. -/
inductive CaptureError where
  | noFile
  /-- The content of an entry cannot be had, or is no text where text is due. -/
  | unreadable (reason : String)
  /-- The bytes are no archive. -/
  | archive (reason : String)
  | header (reason : String)
  | missingField (name : String)
  | invalidProbe (number : Nat)
  | invalidBlock (number : Nat)
  | outOfBounds (position : Nat)
  | partialUnit (size unitSize : Nat)
deriving Repr, DecidableEq

def noFileReason : String := "No such file or directory"

def CaptureError.message : CaptureError → String
  | .noFile => s!"IO error: {noFileReason} (os error 2)"
  | .unreadable reason => "IO error: " ++ reason
  | .archive reason => "ZIP error: " ++ reason
  | .header reason => "Header parsing error: " ++ reason
  | .missingField name => "Missing required field: " ++ name
  | .invalidProbe number => s!"Invalid probe number: {number}"
  | .invalidBlock number => s!"Invalid block number: {number}"
  | .outOfBounds position => s!"Position out of bounds: {position}"
  | .partialUnit size unitSize =>
    s!"Payload of {size} bytes is not a multiple of the unit size {unitSize}"

end LogicDecode
