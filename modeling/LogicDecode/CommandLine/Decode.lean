import LogicDecode.Bench
import LogicDecode.Capture.Load
import LogicDecode.CommandLine.Options

/-!
# Decoding as asked for

From the arguments of a command line and a capture to a decoder stack that has run. The stack has
one stage, whose channels are probes of the capture, and decodes all samples of it.
-/

namespace LogicDecode

/-- Why a command line that can be read leads to no marks. -/
inductive Complaint where
  | capture (cause : CaptureError)
  /-- A channel that is none of the capture's probes. -/
  | noProbe (channel probes : Nat)
  /-- The run failed. -/
  | run (cause : RunError)
deriving Repr, DecidableEq

def Capture.signal (c : Capture) (channel : Nat) : Except Complaint Signal :=
  match (c.signals 0)[channel]? with
  | some s => .ok s
  | none => .error (.noProbe channel c.header.probes)

def Stage.connectProbes (c : Capture) (s : Stage) (probes : List (String × Nat)) :
    Except Complaint Stage :=
  probes.foldlM (fun s p => do return s.connect p.1 (← c.signal p.2)) s

namespace SpiArguments

/-- The channels that are in use, with their probes. -/
def probes (a : SpiArguments) : List (String × Nat) :=
  [("clk", some a.clk), ("mosi", a.mosi), ("miso", a.miso), ("cs", a.cs)].filterMap fun p =>
    p.2.map fun n => (p.1, n)

def stage (a : SpiArguments) (c : Capture) : Except Complaint Stage :=
  ((((Stage.ofProfile Spi.profile).setOption "cpol" (.int a.cpol)).setOption
    "cpha" (.int a.cpha)).setOption "wordsize" (.int a.wordSize)).setOption
    "cs_polarity" (.str a.csPolarity) |>.connectProbes c a.probes

end SpiArguments

namespace ParallelArguments

/-- The channels with their probes; the data lines are numbered in the order they were given. -/
def probes (a : ParallelArguments) : List (String × Nat) :=
  ("clk", a.clk) :: a.data.zipIdx.map fun p => (s!"d{p.2}", p.1)

def stage (a : ParallelArguments) (c : Capture) : Except Complaint Stage :=
  ((Stage.ofProfile Parallel.profile).setOption "clock_edge" (.str a.clockEdge)).connectProbes c
    a.probes

end ParallelArguments

def DecoderArguments.stage (a : DecoderArguments) (c : Capture) : Except Complaint Stage :=
  match a with
  | spi a => a.stage c
  | parallel a => a.stage c

namespace Arguments

def config (a : Arguments) : Config :=
  match a.chunkBytes with
  | some n => Config.standard.withChunkBytes n
  | none => Config.standard

end Arguments

/-- A bench with a capture and a stack of one stage that is to decode it. -/
def Capture.bench (c : Capture) (stage : Stage) (config : Config) : Bench (Host Builtin) :=
  .create [c.segment] [c.source 0]
    [.create [stage] (.ofRegistry Builtin.registry) config .stopped .shared]

/-- The stack after it has decoded the capture; none if it never came to an end. -/
def Capture.decode? (c : Capture) (stage : Stage) (config : Config) :
    Option (Stack (Host Builtin)) := do
  let b ← (c.bench stage config).restart? 0
  let b ← b.await? 0
  b.chains[0]?

end LogicDecode
