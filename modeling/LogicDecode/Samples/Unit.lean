import LogicDecode.Fault

/-!
# Sample units

Samples are stored in units of equal size, one bit per channel: channel `n` of a sample is bit
`n % 8` of byte `n / 8` of its unit. A byte that is not there reads as low.
-/

namespace LogicDecode

abbrev Bytes := Array UInt8

/-- A bit of a byte, counted from the least significant one. -/
def bitOfByte (b : UInt8) (i : Nat) : Bool := b.toNat.testBit i

/-- Bit `i` of packed bits, low behind the last byte. -/
def packedBit (data : Bytes) (i : Nat) : Bool :=
  match data[i / 8]? with
  | some b => bitOfByte b (i % 8)
  | none => false

/-- The level of a channel in the unit at an offset. -/
def unitBit (data : Bytes) (unitSize offset channel : Nat) : Bool :=
  match data[offset * unitSize + channel / 8]? with
  | some b => bitOfByte b (channel % 8)
  | none => false

/-- The level of a channel, if the position of its byte fits in 64 bits. -/
def unitBit? (data : Bytes) (unitSize offset channel : Nat) : Except Fault Bool := do
  let unit ← checkedMul offset unitSize
  let _ ← checkedAdd unit (channel / 8)
  return unitBit data unitSize offset channel

end LogicDecode
