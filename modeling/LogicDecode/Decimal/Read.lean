/-!
# Reading numbers

`natural?` reads digits with an optional plus sign up to a bound. `float?` reads a decimal with
optional sign, point and exponent, or a word for an infinity or for no number, in any case of its
letters, and rounds to the nearest double.
-/

namespace LogicDecode

def digitValue (c : Char) : Nat := c.toNat - '0'.toNat

def digitsValue (cs : List Char) : Nat := cs.foldl (fun n c => 10 * n + digitValue c) 0

/-- Reads a number below a bound: digits, with at most a plus sign in front. -/
def natural? (bound : Nat) (cs : List Char) : Option Nat :=
  let ds := match cs with
    | '+' :: rest => rest
    | _ => cs
  if ds.isEmpty || !ds.all Char.isDigit then none
  else
    let n := digitsValue ds
    if n < bound then some n else none

/-- Reads a number with a sign: below the bound, and above the negative of the bound or equal. -/
def integer? (bound : Nat) (cs : List Char) : Option Int :=
  match cs with
  | '-' :: '+' :: _ => none
  | '-' :: rest => (natural? (bound + 1) rest).map fun n => -(n : Int)
  | _ => (natural? bound cs).map Int.ofNat

/-- The double nearest to `n · 10 ^ e`. Beyond these exponents every value is infinite or zero. -/
def nearestFloat (n : Nat) (e : Int) : Float :=
  let size := (Nat.toDigits 10 n).length
  if n == 0 then 0.0
  else if 400 < (size : Int) + e then 1.0 / 0.0
  else if (size : Int) + e < -400 then 0.0
  else if e < 0 then Float.ofScientific n true e.natAbs else Float.ofScientific n false e.natAbs

def exponent? (cs : List Char) : Option Int :=
  let (negative, ds) := match cs with
    | '-' :: rest => (true, rest)
    | '+' :: rest => (false, rest)
    | _ => (false, cs)
  if ds.isEmpty || !ds.all Char.isDigit then none
  else some (if negative then -(digitsValue ds : Int) else (digitsValue ds : Int))

def unsignedFloat? (cs : List Char) : Option Float :=
  let whole := cs.takeWhile Char.isDigit
  let afterWhole := cs.dropWhile Char.isDigit
  let (places, rest) := match afterWhole with
    | '.' :: more => (more.takeWhile Char.isDigit, more.dropWhile Char.isDigit)
    | _ => ([], afterWhole)
  if whole.isEmpty && places.isEmpty then
    let word := String.ofList (cs.map Char.toLower)
    if word == "inf" || word == "infinity" then some (1.0 / 0.0)
    else if word == "nan" then some (0.0 / 0.0)
    else none
  else
    let value := digitsValue (whole ++ places)
    let shift := -(places.length : Int)
    match rest with
    | [] => some (nearestFloat value shift)
    | c :: more =>
      if c == 'e' || c == 'E' then (exponent? more).map fun e => nearestFloat value (shift + e)
      else none

def float? (s : String) : Option Float :=
  match s.toList with
  | '-' :: rest => (unsignedFloat? rest).map fun x => -x
  | '+' :: rest => unsignedFloat? rest
  | cs => unsignedFloat? cs

end LogicDecode
