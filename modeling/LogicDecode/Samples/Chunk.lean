import LogicDecode.Samples.Unit

/-!
# Chunks

A `Chunk` is a run of units handed to decoders together with the number of its first sample.
-/

namespace LogicDecode

/-- A run of units that starts at a sample. -/
structure Chunk where
  start : Nat
  data : Bytes
  unitSize : Nat
deriving Repr

namespace Chunk

def size (c : Chunk) : Nat := c.data.size / c.unitSize

def stop (c : Chunk) : Nat := c.start + c.size

def isEmpty (c : Chunk) : Bool := c.size == 0

def level (c : Chunk) (sample channel : Nat) : Bool :=
  unitBit c.data c.unitSize (sample - c.start) channel

/-- The number of samples, if the unit size is one. -/
def size? (c : Chunk) : Except Fault Nat :=
  if c.unitSize = 0 then .error .divisionByZero else .ok c.size

/-- The sample behind the last one, if it has a number. -/
def stop? (c : Chunk) : Except Fault Nat := do
  let n ← c.size?
  checkedAdd c.start n

/-- The level of a channel at any sample; one before the chunk is a fault. -/
def level? (c : Chunk) (sample channel : Nat) : Except Fault Bool := do
  let offset ← checkedSub sample c.start
  unitBit? c.data c.unitSize offset channel

end Chunk

end LogicDecode
