import LogicDecode.Decimal.Read
import LogicDecode.Registry

/-!
# Decoders for trials

Small decoders to try engines and stacks with, each showing one thing a decoder can do: mark samples
one by one, count and fail on marks from below, pass marks on, tell the rate, and start over before
every chunk.
-/

namespace LogicDecode

/-- A decoder for trials, or one of the library's. -/
inductive Trial where
  | builtin (d : Builtin)
  /-- Marks every sample at which a line is high. -/
  | high (channel cls : Nat)
  /-- Numbers the marks from below and fails on one of them. -/
  | count (seen : Nat) (failAt : Int)
  /-- Marks chunks by their size, and marks from below by what they said. -/
  | echo
  /-- Marks chunks by the rate, and fails on a chunk with a certain sample. -/
  | rate (hz : Nat) (failAt : Int)
  /-- Starts anew before each chunk. -/
  | restarting (d : Builtin)
deriving Repr

namespace Trial

def highProfile : Profile :=
  ⟨"high", "High", "High", [⟨"data", "Data", "Data line"⟩], [], [⟨"high", "High"⟩], []⟩

def countProfile : Profile := ⟨"count", "Count", "Count", [], [], [⟨"n", "Number"⟩], []⟩

def echoProfile : Profile :=
  ⟨"echo", "Echo", "Echo", [], [], [⟨"a", "A"⟩, ⟨"b", "B"⟩], [⟨"a", "First", [0]⟩]⟩

def rateProfile : Profile := ⟨"rate", "Rate", "Rate", [], [], [⟨"hz", "Hz"⟩], []⟩

def spiRawProfile : Profile := { Spi.profile with id := "spi_raw" }

def parRawProfile : Profile := { Parallel.profile with id := "par_raw" }

/-- The lowest 32 bits of an integer. -/
def low32 (v : Int) : Nat := (v % 0x100000000).toNat

def createHigh (s : Setup) : Outcome EngineError Trial := do
  let channel ← Outcome.accept (s.channel "data")
  let cls ← Outcome.accept (s.int "class" 0)
  return high channel (low32 cls)

def createCount (s : Setup) : Outcome EngineError Trial := do
  let failAt ← Outcome.accept (s.int "fail_at" (-1))
  return count 0 failAt

def createRate (s : Setup) : Outcome EngineError Trial := do
  let failAt ← Outcome.accept (s.int "at" (-1))
  return rate 0 failAt

/-- The decoder as it is, or one that starts anew before each chunk. -/
def restartable (s : Setup) (d : Builtin) : Outcome EngineError Trial := do
  let restart ← Outcome.accept (s.int "restart" 0)
  return if restart = 1 then restarting d else builtin d

def createSpiRaw (s : Setup) : Outcome EngineError Trial := do
  let mode ← Outcome.accept (s.int "mode" 0)
  let bits ← Outcome.accept (s.int "bits" 8)
  let clk ← Outcome.accept (s.channel "clk")
  let mode : ClockMode := match mode with
    | 0 => .mode0
    | 1 => .mode1
    | 2 => .mode2
    | _ => .mode3
  let d ← Outcome.check (Spi.create clk (s.channel? "mosi") (s.channel? "miso") mode (low32 bits))
  let d ← match s.channel? "cs" with
    | none => pure d
    | some cs => do
      let polarity ← Outcome.accept (s.int "high" 0)
      pure (d.withSelect cs (if polarity = 1 then .activeHigh else .activeLow))
  restartable s (.spi d)

/-- The bits of a list with commas; a part that is no number is a line without channel. -/
def bitList (text : String) : List (Option Nat) :=
  ((text.splitOn ",").filter fun part => !part.isEmpty).map fun part =>
    natural? wordBound part.toList

def createParRaw (s : Setup) : Outcome EngineError Trial := do
  let mode ← Outcome.accept (s.int "mode" 0)
  let data ← Outcome.accept (s.str "data" "0")
  let clk ← Outcome.accept (s.channel "clk")
  let strobe : Strobe := match mode with
    | 0 => .rising
    | 1 => .falling
    | _ => .either
  let d ← Outcome.check (Parallel.create clk (bitList data) strobe)
  restartable s (.parallel d)

def registrations : List (Registration Trial) :=
  [⟨highProfile, createHigh⟩, ⟨countProfile, createCount⟩, ⟨echoProfile, fun _ => .ok echo⟩,
    ⟨rateProfile, createRate⟩, ⟨spiRawProfile, createSpiRaw⟩, ⟨parRawProfile, createParRaw⟩]

def builtins : List (Registration Trial) := Builtin.registrations.map (·.map builtin)

def registry : Registry Trial := .ofList (builtins ++ registrations)

def start : Trial → Nat → Trial
  | builtin d, hz => builtin (Protocol.start d hz)
  | restarting d, hz => restarting (Protocol.start d hz)
  | rate _ failAt, hz => rate hz failAt
  | d, _ => d

def decode : Trial → Chunk → Reply Trial
  | builtin d, c => (Protocol.decode d c).map builtin
  | restarting d, c => (Protocol.decode (Protocol.start d 0) c).map restarting
  | high channel cls, c =>
    let samples := (List.range' c.start c.size).filter fun i => c.level i channel
    ⟨high channel cls, .ok (samples.map fun i => ⟨i, i + 1, cls, ["high"]⟩)⟩
  | count seen failAt, _ => ⟨count seen failAt, .error (.failed "count got samples")⟩
  | echo, c =>
    ⟨echo, .ok (if c.isEmpty then [] else [⟨c.start, c.stop, 0, [toString c.size]⟩])⟩
  | rate hz failAt, c =>
    if c.start ≤ failAt ∧ failAt < c.stop then
      ⟨rate hz failAt, .error (.failed s!"rate failed at {failAt}")⟩
    else ⟨rate hz failAt, .ok [⟨c.start, c.stop, 0, [toString hz]⟩]⟩

def derive : Trial → Mark → Reply Trial
  | count seen failAt, m =>
    let n := seen + 1
    if (n : Int) = failAt then ⟨count n failAt, .error (.failed s!"count failed at {n}")⟩
    else ⟨count n failAt, .ok [⟨m.start, m.stop, 0, [toString n]⟩]⟩
  | echo, m =>
    ⟨echo, .ok [⟨m.start, m.stop, 0, ["<" ++ m.decoder ++ ":" ++ m.caption]⟩,
      ⟨m.start, m.stop, 1, [">" ++ m.caption, "1"]⟩]⟩
  | d, _ => ⟨d, .ok []⟩

instance : Protocol Trial := ⟨start, decode, derive⟩

end Trial

end LogicDecode
