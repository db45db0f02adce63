import LogicDecode.Samples.Unit

/-!
# Cyclic redundancy checks

The 32-bit check of archive entries: the remainder of the bits, least significant first, by the
reflected polynomial, with all bits inverted before and after.
-/

namespace LogicDecode

namespace Checksum

/-- One bit of the division. -/
def bitStep (crc : UInt32) : UInt32 :=
  if crc &&& 1 == 1 then (crc >>> 1) ^^^ 0xEDB88320 else crc >>> 1

def byteStep (crc : UInt32) (b : UInt8) : UInt32 :=
  let c := crc ^^^ b.toUInt32
  bitStep (bitStep (bitStep (bitStep (bitStep (bitStep (bitStep (bitStep c)))))))

end Checksum

def checksum (data : Bytes) : Nat := (data.foldl Checksum.byteStep 0xFFFFFFFF ^^^ 0xFFFFFFFF).toNat

end LogicDecode
