/-!
# Mended text

UTF-8 text in which every part that is no character becomes a replacement character. Such a part is
one byte, or the beginning of a character that does not go on.
-/

namespace LogicDecode

namespace Mended

/-- The bounds of bytes that go on with a character. -/
def continuation : Nat × Nat := (0x80, 0xbf)

/-- The bounds of the bytes that follow a byte at the beginning of a character, none if no character
begins with it. -/
def followers (b : Nat) : Option (List (Nat × Nat)) :=
  if b < 0x80 then some []
  else if b < 0xc2 then none
  else if b < 0xe0 then some [continuation]
  else if b = 0xe0 then some [(0xa0, 0xbf), continuation]
  else if b = 0xed then some [(0x80, 0x9f), continuation]
  else if b < 0xf0 then some [continuation, continuation]
  else if b = 0xf0 then some [(0x90, 0xbf), continuation, continuation]
  else if b < 0xf4 then some [continuation, continuation, continuation]
  else if b = 0xf4 then some [(0x80, 0x8f), continuation, continuation]
  else none

/-- How many bytes at the beginning of a list lie within bounds. -/
def matching : List (Nat × Nat) → List UInt8 → Nat
  | (lo, hi) :: bounds, b :: rest =>
    if lo ≤ b.toNat && b.toNat ≤ hi then matching bounds rest + 1 else 0
  | _, _ => 0

def replacement : List UInt8 := [0xef, 0xbf, 0xbd]

/-- Mends what is left, behind what has been mended. -/
def mend (bytes : List UInt8) (done : Array UInt8) : Array UInt8 :=
  match bytes with
  | [] => done
  | b :: rest =>
    match followers b.toNat with
    | none => mend rest (done ++ replacement)
    | some bounds =>
      let n := matching bounds rest
      mend (rest.drop n) (done ++ if n = bounds.length then b :: rest.take n else replacement)
termination_by bytes.length
decreasing_by all_goals simp; try omega

end Mended

def mended (bytes : Array UInt8) : Array UInt8 := Mended.mend bytes.toList #[]

end LogicDecode
