import LogicDecode.CommandLine.Report

/-!
# The program

Reads the command line and the file it names, and prints what comes of it.
-/

namespace LogicDecode

def loadFile (path : String) : IO (Outcome CaptureError Capture) := do
  try
    let file ← IO.FS.readBinFile path
    return Capture.ofFile file.data
  catch
    | .noFileOrDirectory .. => return .error (.refused .noFile)
    | e => return .error (.refused (.unreadable e.toString))

def runWords (words : List String) : IO Verdict := do
  match Arguments.ofWords words with
  | .error e => return .misused e
  | .ok a => return Verdict.ofLoaded a (← loadFile a.file)

end LogicDecode

open LogicDecode in
def main (words : List String) : IO UInt32 := do
  let verdict ← runWords words
  for line in verdict.output do
    IO.println line
  if let some text := verdict.complaint? then
    IO.eprintln text
  return verdict.exitCode.toUInt32
