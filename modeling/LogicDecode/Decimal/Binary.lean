/-!
# Binary floating point

A finite double is `± m · 2 ^ q` for natural `m` and integer `q`. `Binary` is this view of its 64
bits, in which printing is exact arithmetic on natural numbers.
-/

namespace LogicDecode

/-- The value of a double: not a number, infinite, or `± m · 2 ^ q`. -/
inductive Binary where
  | nan
  | infinite (negative : Bool)
  | finite (negative : Bool) (m : Nat) (q : Int)
deriving Repr, DecidableEq

def twoTo (n : Nat) : Nat := Nat.pow 2 n

def tenTo (n : Nat) : Nat := Nat.pow 10 n

namespace Binary

/-- Reads the sign, the exponent and the significand of 64 bits. -/
def ofBits (b : Nat) : Binary :=
  let negative := b / twoTo 63 % 2 == 1
  let exponent : Nat := b / twoTo 52 % twoTo 11
  let significand : Nat := b % twoTo 52
  if exponent == 2047 then if significand == 0 then infinite negative else nan
  else if exponent == 0 then finite negative significand (-1074)
  else finite negative (significand + twoTo 52) (exponent - 1075)

def ofFloat (x : Float) : Binary := ofBits x.toBits.toNat

end Binary

/-- The number `a · 2 ^ two · 10 ^ ten` as a fraction: numerator and denominator. -/
def fraction (a : Nat) (two ten : Int) : Nat × Nat :=
  (a * twoTo two.toNat * tenTo ten.toNat, twoTo (-two).toNat * tenTo (-ten).toNat)

/-- The decimal digits of a number, leading one first. -/
def decimalDigits (n : Nat) : List Char := Nat.toDigits 10 n

end LogicDecode
