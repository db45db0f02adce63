import LogicDecode.CommandLine.Words
import LogicDecode.Decimal.Read
import LogicDecode.Fault
import LogicDecode.Text.Blank

/-!
# The command line

A capture is decoded by one of two decoders, each a command with options of its own. The number of
marks to be printed per row and the size of chunks may be given before or after the command; if both
places name one, the later place counts.
-/

namespace LogicDecode

/-- The channels and options of the SPI decoder. -/
structure SpiArguments where
  clk : Nat
  mosi : Option Nat
  miso : Option Nat
  cs : Option Nat
  cpol : Int
  cpha : Int
  wordSize : Int
  csPolarity : String
deriving Repr

/-- The channels and options of the parallel bus decoder. -/
structure ParallelArguments where
  clk : Nat
  data : List Nat
  clockEdge : String
deriving Repr

/-- The decoder to be run. -/
inductive DecoderArguments where
  | spi (a : SpiArguments)
  | parallel (a : ParallelArguments)
deriving Repr

/-- What a command line asks for. -/
structure Arguments where
  /-- The path of the capture. -/
  file : String
  /-- The marks to be printed per row, all if it is 0. -/
  limit : Nat
  chunkBytes : Option Nat
  decoder : DecoderArguments
deriving Repr

namespace Arguments

def sharedOptions : List OptionSpec := [⟨"n", some 'n', false⟩, ⟨"chunk-bytes", none, false⟩]

def firstOptions : List OptionSpec := ⟨"file", some 'f', false⟩ :: sharedOptions

def spiOptions : List OptionSpec :=
  (["clk", "mosi", "miso", "cs", "cpol", "cpha", "wordsize", "cs-polarity"].map fun name =>
    ⟨name, none, false⟩) ++ sharedOptions

def parallelOptions : List OptionSpec :=
  [⟨"clk", none, false⟩, ⟨"data", none, true⟩, ⟨"clock-edge", none, false⟩] ++ sharedOptions

/-- Reads the value of an option, none if it is not given. -/
def value? {α : Type} (read : List Char → Option α) (given : List Given) (name : String) :
    Except UsageError (Option α) :=
  match (valuesOf given name).getLast? with
  | none => .ok none
  | some text =>
    match read text.toList with
    | some a => .ok (some a)
    | none => .error (.invalid name text)

def needed {α : Type} (read : List Char → Option α) (given : List Given) (name : String) :
    Except UsageError α := do
  match ← value? read given name with
  | some a => return a
  | none => throw (.missing name)

/-- Reads the value of an option, or takes the one that stands for it. -/
def orElse {α : Type} (read : List Char → Option α) (given : List Given) (name : String) (a : α) :
    Except UsageError α := do
  let v ← value? read given name
  return v.getD a

/-- The bound of integers with a sign and 63 bits. -/
def integerBound : Nat := 0x8000000000000000

def readNatural : List Char → Option Nat := natural? wordBound

def readInteger : List Char → Option Int := integer? integerBound

def readText (cs : List Char) : Option String := some (String.ofList cs)

def readNaturals (text : String) : Option (List Nat) :=
  (splitAt (· == ',') text.toList).mapM readNatural

def spiArguments (given : List Given) : Except UsageError SpiArguments := do
  return {
    clk := ← needed readNatural given "clk"
    mosi := ← value? readNatural given "mosi"
    miso := ← value? readNatural given "miso"
    cs := ← value? readNatural given "cs"
    cpol := ← orElse readInteger given "cpol" 0
    cpha := ← orElse readInteger given "cpha" 0
    wordSize := ← orElse readInteger given "wordsize" 8
    csPolarity := ← orElse readText given "cs-polarity" "active-low" }

def parallelArguments (given : List Given) : Except UsageError ParallelArguments := do
  let clk ← needed readNatural given "clk"
  let texts := valuesOf given "data"
  if texts.isEmpty then throw (.missing "data")
  let data ← texts.mapM fun text =>
    match readNaturals text with
    | some ns => Except.ok ns
    | none => .error (.invalid "data" text)
  return ⟨clk, data.flatten, ← orElse readText given "clock-edge" "rising"⟩

/-- Reads the options of a command, behind which nothing may stand. -/
def commandOptions (specs : List OptionSpec) (words : List String) :
    Except UsageError (List Given) := do
  let (given, rest) ← collect specs words
  match rest with
  | [] => do
    checkRepeated specs given
    return given
  | word :: _ => throw (.unknown word)

def command (words : List String) : Except UsageError (List Given × DecoderArguments) := do
  match words with
  | "spi" :: rest => do
    let given ← commandOptions spiOptions rest
    return (given, .spi (← spiArguments given))
  | "parallel" :: rest => do
    let given ← commandOptions parallelOptions rest
    return (given, .parallel (← parallelArguments given))
  | word :: _ => throw (.unknown word)
  | [] => throw .noCommand

def ofWords (words : List String) : Except UsageError Arguments := do
  let (first, rest) ← collect firstOptions words
  checkRepeated firstOptions first
  let file ← needed readText first "file"
  let (given, decoder) ← command rest
  let limit ← orElse readNatural first "n" 100
  let chunkBytes ← value? readNatural first "chunk-bytes"
  let limit ← orElse readNatural given "n" limit
  let later ← value? readNatural given "chunk-bytes"
  return ⟨file, limit, later.or chunkBytes, decoder⟩

end Arguments

end LogicDecode
