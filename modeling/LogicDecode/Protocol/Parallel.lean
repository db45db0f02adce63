import LogicDecode.Profile
import LogicDecode.Protocol.Basic
import LogicDecode.Protocol.Line

/-!
# Parallel bus

Up to eight data lines are latched on transitions of a clock. A word is reported when the next
transition latches, so it reaches from its own transition to the next one.
-/

namespace LogicDecode

namespace Parallel

def word : Nat := 0

def maxLines : Nat := 8

def lineId (i : Nat) : String := s!"d{i}"

def line (i : Nat) : Channel := ⟨lineId i, s!"D{i}", s!"Data line {i}"⟩

def profile : Profile where
  id := "parallel"
  name := "Parallel"
  longName := "Parallel sync bus"
  required := [⟨"clk", "CLK", "Clock line"⟩, line 0]
  optional := (List.range' 1 (maxLines - 1)).map line
  classes := [⟨"word", "Word"⟩]
  rows := [⟨"words", "Words", [word]⟩]

/-- The channels of the clock and of the data lines, some of which may not be assigned. -/
structure Settings where
  clk : Nat
  lines : List (Option Nat)
  strobe : Strobe
deriving Repr, DecidableEq

end Parallel

/-- A parallel bus decoder: its settings, the last clock level, and the sample and the value of the
word that waits for the next transition. -/
structure Parallel where
  settings : Parallel.Settings
  prevClk : Option Bool
  pending : Option (Nat × Nat)
deriving Repr, DecidableEq

namespace Parallel

/-- A decoder of one to eight data lines. -/
def create (clk : Nat) (lines : List (Option Nat)) (strobe : Strobe) : Except Fault Parallel :=
  if 1 ≤ lines.length ∧ lines.length ≤ maxLines then .ok ⟨⟨clk, lines, strobe⟩, none, none⟩
  else .error .lineCount

def strobe (s : Setup) : Except EngineError Strobe := do
  match ← s.str "clock_edge" "rising" with
  | "rising" => .ok .rising
  | "falling" => .ok .falling
  | "either" => .ok .either
  | other =>
    .error (s.invalid "clock_edge" s!"expected rising, falling or either, got '{other}'")

/-- The lines without the unassigned ones behind the last assigned one. -/
def trim (lines : List (Option Nat)) : List (Option Nat) :=
  (lines.reverse.dropWhile Option.isNone).reverse

/-- The settings of a setup, or the first thing wrong with it. -/
def settings? (s : Setup) : Except EngineError Settings := do
  let clk ← s.channel "clk"
  let _ ← s.channel "d0"
  let lines := trim ((List.range maxLines).map fun i => s.channel? (lineId i))
  let strobe ← strobe s
  return ⟨clk, lines, strobe⟩

/-- The decoder of a setup. -/
def ofSetup (s : Setup) : Outcome EngineError Parallel := do
  let t ← Outcome.accept (settings? s)
  Outcome.check (create t.clk t.lines t.strobe)

def start (d : Parallel) : Parallel := { d with prevClk := none, pending := none }

/-- The value on the lines, line `i` being bit `i`; an unassigned line is 0. -/
def busValue (level : Nat → Bool) : List (Option Nat) → Nat
  | [] => 0
  | none :: rest => 2 * busValue level rest
  | some c :: rest => (level c).toNat + 2 * busValue level rest

/-- Reports the waiting word, and lets the one on the bus wait. -/
def latch (d : Parallel) (sample : Nat) (level : Nat → Bool) : Parallel × List Finding :=
  let found := match d.pending with
    | some (start, value) => [⟨start, sample, word, [hexWord value d.settings.lines.length]⟩]
    | none => []
  ({ d with pending := some (sample, busValue level d.settings.lines) }, found)

def step (d : Parallel) (sample : Nat) (level : Nat → Bool) : Parallel × List Finding :=
  let clk := level d.settings.clk
  let d' := { d with prevClk := some clk }
  match d.prevClk with
  | none => (d', [])
  | some prev => if d.settings.strobe.triggered prev clk then d'.latch sample level else (d', [])

def decode (d : Parallel) (c : Chunk) : Parallel × List Finding :=
  scan (fun d i => d.step i (c.level i)) d c.start c.size

end Parallel

instance : Protocol Parallel where
  start d _ := d.start
  decode d c := let (d', fs) := d.decode c; ⟨d', .ok fs⟩
  derive d _ := ⟨d, .ok []⟩

end LogicDecode
