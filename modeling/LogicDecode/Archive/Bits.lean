import LogicDecode.Samples.Unit

/-!
# Bits of data

Data read bit by bit, the least significant bit of a byte first.
-/

namespace LogicDecode

/-- Data, and how many of its bits have been read. -/
structure Bits where
  data : Bytes
  pos : Nat

namespace Bits

def left (r : Bits) : Nat := 8 * r.data.size - r.pos

def bit? (r : Bits) : Option (Nat × Bits) :=
  match r.data[r.pos / 8]? with
  | some b => some ((bitOfByte b (r.pos % 8)).toNat, { r with pos := r.pos + 1 })
  | none => none

/-- Reads a number of some width, least significant bit first. -/
def number? : (width : Nat) → Bits → Option (Nat × Bits)
  | 0, r => some (0, r)
  | width + 1, r => do
    let (b, r) ← r.bit?
    let (rest, r) ← number? width r
    return (b + 2 * rest, r)

def align (r : Bits) : Bits := { r with pos := (r.pos + 7) / 8 * 8 }

/-- The next bits; those behind the end are low. -/
def ahead (r : Bits) (n : Nat) : List Bool :=
  (List.range n).map fun i => packedBit r.data (r.pos + i)

def skip (r : Bits) (n : Nat) : Bits := { r with pos := r.pos + n }

end Bits

end LogicDecode
