import LogicDecode.Decimal.Binary

/-!
# Shortest decimals

`shortest m q` has the fewest digits among the decimals that read back as the double `m · 2 ^ q`,
and of those it is the nearest. The reals that read back as a double form an interval around it,
whose ends belong to it if the significand is even. For one digit, two digits and so on, the two
neighbours of the value on the grid of such decimals are tested; if any point of a grid lies in the
interval, one of these does. Seventeen digits always suffice.

`FloatText` lays the digits out.
-/

namespace LogicDecode

/-- The number `0.d₁d₂… · 10 ^ point` of the digits `d₁d₂…`. -/
structure Decimal where
  digits : List Char
  point : Int
deriving Repr, DecidableEq

namespace Decimal

/-- The decimal exponent of the leading digit of a positive fraction. -/
def leadingExponent (num den : Nat) : Int :=
  if den ≤ num then ((decimalDigits (num / den)).length : Int) - 1
  else
    let places := (decimalDigits (den / num)).length
    if den ≤ num * tenTo (places - 1) then 1 - (places : Int) else -(places : Int)

/-- Whether `k · 10 ^ g` reads back as `m · 2 ^ q`. Below a power of two the doubles are twice as
dense, so the lower end of the interval is nearer there. -/
def readsBack (m : Nat) (q : Int) (k : Nat) (g : Int) : Bool :=
  let up := 4 * m + 2
  let down := if m == twoTo 52 && q != -1074 then 4 * m - 1 else 4 * m - 2
  let value := k * tenTo g.toNat * twoTo (2 - q).toNat
  let scale := tenTo (-g).toNat * twoTo (q - 2).toNat
  if m % 2 == 0 then down * scale ≤ value && value ≤ up * scale
  else down * scale < value && value < up * scale

/-- Whether the upper neighbour `k + 1` on the grid `10 ^ g` is as near to `m · 2 ^ q` as the lower
one. -/
def upperIsNearer (m : Nat) (q : Int) (k : Nat) (g : Int) : Bool :=
  let value := 2 * m * twoTo q.toNat * tenTo (-g).toNat
  (2 * k + 1) * tenTo g.toNat * twoTo (-q).toNat ≤ value

/-- The decimal `k · 10 ^ g` without trailing zeros. -/
def ofScaled (k : Nat) (g : Int) : Decimal :=
  let digits := decimalDigits k
  ⟨(digits.reverse.dropWhile (· == '0')).reverse, digits.length + g⟩

/-- The neighbour of `m · 2 ^ q` on the grid `10 ^ g` that reads back, the nearer one if both do and
the upper one on a tie. -/
def onGrid? (m : Nat) (q : Int) (g : Int) : Option Decimal :=
  let (num, den) := fraction m q (-g)
  let k := num / den
  match readsBack m q k g, readsBack m q (k + 1) g with
  | true, true => some (ofScaled (if upperIsNearer m q k g then k + 1 else k) g)
  | true, false => some (ofScaled k g)
  | false, true => some (ofScaled (k + 1) g)
  | false, false => none

/-- The shortest decimal that reads back as `m · 2 ^ q`, for positive `m`. -/
def shortest (m : Nat) (q : Int) : Decimal :=
  let (num, den) := fraction m q 0
  let e := leadingExponent num den
  match (List.range 17).findSome? fun n : Nat => onGrid? m q (e - n) with
  | some d => d
  | none => ofScaled m 0

/-- The digits with a point at its place and zeros up to it. -/
def positional (d : Decimal) (whole : String) : String :=
  if d.point ≤ 0 then "0." ++ String.ofList (List.replicate (-d.point).toNat '0' ++ d.digits)
  else if d.digits.length ≤ d.point then
    String.ofList (d.digits ++ List.replicate (d.point.toNat - d.digits.length) '0') ++ whole
  else
    String.ofList (d.digits.take d.point.toNat) ++ "." ++
      String.ofList (d.digits.drop d.point.toNat)

/-- The leading digit, a point and the others if there are any, and the exponent. -/
def scientific (d : Decimal) : String :=
  let tail := String.ofList (d.digits.drop 1)
  String.ofList (d.digits.take 1) ++ (if tail.isEmpty then "" else "." ++ tail) ++ "e" ++
    toString (d.point - 1)

end Decimal

/-- How a double is laid out: what follows a whole number, and for which exponents of the leading
digit the digits stand around a point instead of before an exponent. -/
structure FloatText where
  whole : String
  plain : Int → Bool

/-- The text of a double; a zero keeps its sign. -/
def FloatText.render (f : FloatText) (x : Float) : String :=
  match Binary.ofFloat x with
  | .nan => "NaN"
  | .infinite negative => if negative then "-inf" else "inf"
  | .finite negative m q =>
    let sign := if negative then "-" else ""
    if m == 0 then sign ++ "0" ++ f.whole
    else
      let d := Decimal.shortest m q
      sign ++ if f.plain (d.point - 1) then d.positional f.whole else d.scientific

end LogicDecode
