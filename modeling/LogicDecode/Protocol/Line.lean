/-!
# Lines

How decoders read clock and select lines, and how they write the words they gather.
-/

namespace LogicDecode

/-- The four combinations of clock polarity and clock phase. -/
inductive ClockMode where
  | mode0 | mode1 | mode2 | mode3
deriving Repr, DecidableEq

namespace ClockMode

/-- The mode of a polarity (is the idle level high?) and a phase (are trailing edges sampled?). -/
def ofPolarityPhase : Bool → Bool → ClockMode
  | false, false => mode0
  | false, true => mode1
  | true, false => mode2
  | true, true => mode3

def samplesOnRising : ClockMode → Bool
  | mode0 | mode3 => true
  | mode1 | mode2 => false

end ClockMode

/-- Which level of a select line is the active one. -/
inductive Polarity where
  | activeLow | activeHigh
deriving Repr, DecidableEq

def Polarity.isActive : Polarity → Bool → Bool
  | activeLow, level => !level
  | activeHigh, level => level

/-- The clock transition that latches a word. -/
inductive Strobe where
  | rising | falling | either
deriving Repr, DecidableEq

/-- Whether the step from one level to the next latches. -/
def Strobe.triggered : Strobe → Bool → Bool → Bool
  | rising, prev, level => !prev && level
  | falling, prev, level => prev && !level
  | either, prev, level => prev != level

/-- A word of `bits` bits in upper-case hexadecimal digits, as many as whole nibbles need. -/
def hexWord (value bits : Nat) : String :=
  let digits := (Nat.toDigits 16 value).map Char.toUpper
  let width := max 1 ((bits + 3) / 4)
  String.ofList (List.replicate (width - digits.length) '0' ++ digits)

end LogicDecode
