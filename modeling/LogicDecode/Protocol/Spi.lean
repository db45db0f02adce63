import LogicDecode.Profile
import LogicDecode.Protocol.Basic
import LogicDecode.Protocol.Line

/-!
# Serial peripheral interface

While the select line is active (or if there is none), each sampling edge of the clock shifts one
bit of either data line into a word, most significant bit first. A full word is reported from its
first sampling edge to just behind the last one. A select line that turns inactive within a word
leaves a warning. A word may go on from one chunk to the next.
-/

namespace LogicDecode

namespace Spi

def mosiData : Nat := 0

def misoData : Nat := 1

def warning : Nat := 2

def profile : Profile where
  id := "spi"
  name := "SPI"
  longName := "Serial Peripheral Interface"
  required := [⟨"clk", "CLK", "Clock"⟩]
  optional := [⟨"miso", "MISO", "Master in, slave out"⟩, ⟨"mosi", "MOSI", "Master out, slave in"⟩,
    ⟨"cs", "CS#", "Chip-select"⟩]
  classes := [⟨"mosi-data", "MOSI data"⟩, ⟨"miso-data", "MISO data"⟩, ⟨"warning", "Warning"⟩]
  rows := [⟨"mosi-data", "MOSI data", [mosiData]⟩, ⟨"miso-data", "MISO data", [misoData]⟩,
    ⟨"warnings", "Warnings", [warning]⟩]

/-- Which channels are read, and how. -/
structure Settings where
  clk : Nat
  mosi : Option Nat
  miso : Option Nat
  cs : Option Nat
  mode : ClockMode
  wordSize : Nat
  polarity : Polarity
deriving Repr, DecidableEq

/-- The word being shifted in. -/
structure Word where
  mosi : Nat
  miso : Nat
  bits : Nat
  /-- The sample of the first bit. -/
  start : Nat
deriving Repr, DecidableEq

def Word.empty : Word := ⟨0, 0, 0, 0⟩

end Spi

/-- An SPI decoder: its settings, the lines as they were at the last sample, and the word so far. -/
structure Spi where
  settings : Spi.Settings
  prevClk : Option Bool
  prevActive : Bool
  word : Spi.Word
deriving Repr, DecidableEq

namespace Spi

/-- A decoder without select line; words have 1 to 32 bits. -/
def create (clk : Nat) (mosi miso : Option Nat) (mode : ClockMode) (wordSize : Nat) :
    Except Fault Spi :=
  if 1 ≤ wordSize ∧ wordSize ≤ 32 then
    .ok ⟨⟨clk, mosi, miso, none, mode, wordSize, .activeLow⟩, none, true, .empty⟩
  else .error .wordSize

/-- The decoder with a select line, which counts as inactive so far. -/
def withSelect (d : Spi) (cs : Nat) (polarity : Polarity) : Spi :=
  { d with
    settings := { d.settings with cs := some cs, polarity := polarity }
    prevActive := false }

def polarity (s : Setup) : Except EngineError Polarity := do
  match ← s.str "cs_polarity" "active-low" with
  | "active-low" => .ok .activeLow
  | "active-high" => .ok .activeHigh
  | other =>
    .error (s.invalid "cs_polarity" s!"expected active-low or active-high, got '{other}'")

/-- The settings of a setup. The first thing wrong with it, in this order, is its refusal. -/
def settings? (s : Setup) : Except EngineError Settings := do
  let clk ← s.channel "clk"
  let mosi := s.channel? "mosi"
  let miso := s.channel? "miso"
  if mosi.isNone && miso.isNone then throw (s.missing "mosi/miso")
  let cpol ← s.flag "cpol"
  let cpha ← s.flag "cpha"
  let wordSize ← s.int "wordsize" 8
  if wordSize < 1 || 32 < wordSize then
    throw (s.invalid "wordsize" s!"must be 1-32, got {wordSize}")
  let polarity ← polarity s
  return ⟨clk, mosi, miso, s.channel? "cs", .ofPolarityPhase cpol cpha, wordSize.toNat, polarity⟩

/-- The decoder of a setup. -/
def ofSetup (s : Setup) : Outcome EngineError Spi := do
  let t ← Outcome.accept (settings? s)
  let d ← Outcome.check (create t.clk t.mosi t.miso t.mode t.wordSize)
  return match t.cs with
    | some cs => d.withSelect cs t.polarity
    | none => d

def start (d : Spi) : Spi :=
  { d with prevClk := none, prevActive := d.settings.cs.isNone, word := .empty }

/-- Whether words are gathered at a sample with the given levels of the channels. -/
def active (d : Spi) (level : Nat → Bool) : Bool :=
  match d.settings.cs with
  | some cs => d.settings.polarity.isActive (level cs)
  | none => true

/-- Notes the select line. When it changes, the word so far is given up, and one that had bits
leaves a warning if the line turned inactive. -/
def select (d : Spi) (sample : Nat) (level : Nat → Bool) : Spi × List Finding :=
  let active := d.active level
  if active == d.prevActive then (d, [])
  else
    let warnings := if !active && 0 < d.word.bits then
        [⟨d.word.start, sample, warning,
          [s!"Incomplete word: {d.word.bits} of {d.settings.wordSize} bits"]⟩]
      else []
    ({ d with prevActive := active, word := .empty }, warnings)

/-- Shifts the level of a data line into a word; a line that is not there leaves it as it is. -/
def shiftIn (value : Nat) (line : Option Nat) (level : Nat → Bool) : Nat :=
  match line with
  | some c => 2 * value + (level c).toNat
  | none => value

/-- The findings of a full word that ends before sample `stop`. -/
def report (d : Spi) (w : Word) (stop : Nat) : List Finding :=
  let size := d.settings.wordSize
  (if d.settings.mosi.isSome then [⟨w.start, stop, mosiData, [hexWord w.mosi size]⟩] else []) ++
    (if d.settings.miso.isSome then [⟨w.start, stop, misoData, [hexWord w.miso size]⟩] else [])

/-- Takes one bit of each data line at a sampling edge. -/
def shift (d : Spi) (sample : Nat) (level : Nat → Bool) : Spi × List Finding :=
  let w : Word :=
    ⟨shiftIn d.word.mosi d.settings.mosi level, shiftIn d.word.miso d.settings.miso level,
      d.word.bits + 1, if d.word.bits = 0 then sample else d.word.start⟩
  if w.bits = d.settings.wordSize then ({ d with word := .empty }, d.report w (sample + 1))
  else ({ d with word := w }, [])

/-- Notes the clock, and shifts if it has just reached the sampling level. -/
def tick (d : Spi) (sample : Nat) (level : Nat → Bool) : Spi × List Finding :=
  let clk := level d.settings.clk
  let d' := { d with prevClk := some clk }
  match d.prevClk with
  | none => (d', [])
  | some prev =>
    if prev == clk || clk != d.settings.mode.samplesOnRising || !d.active level then (d', [])
    else d'.shift sample level

def step (d : Spi) (sample : Nat) (level : Nat → Bool) : Spi × List Finding :=
  let (d₁, warnings) := d.select sample level
  let (d₂, words) := d₁.tick sample level
  (d₂, warnings ++ words)

def decode (d : Spi) (c : Chunk) : Spi × List Finding :=
  scan (fun d i => d.step i (c.level i)) d c.start c.size

end Spi

instance : Protocol Spi where
  start d _ := d.start
  decode d c := let (d', fs) := d.decode c; ⟨d', .ok fs⟩
  derive d _ := ⟨d, .ok []⟩

end LogicDecode
