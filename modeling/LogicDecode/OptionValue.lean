import LogicDecode.Decimal.Shortest

/-!
# Option values

A decoder option is an integer, a double or a text. It is read as the kind of value it is: a double
with a whole value is no integer.
-/

namespace LogicDecode

/-- The value of a decoder option. -/
inductive OptionValue where
  | int (value : Int)
  | float (value : Float)
  | str (value : String)
deriving Repr, Inhabited

namespace OptionValue

/-- Doubles are written with their shortest digits, always around a point, whole ones without. -/
def floatText : FloatText := ⟨"", fun _ => true⟩

def render : OptionValue → String
  | int v => toString v
  | float v => floatText.render v
  | str v => v

def int? : OptionValue → Option Int
  | int v => some v
  | _ => none

def str? : OptionValue → Option String
  | str v => some v
  | _ => none

end OptionValue

end LogicDecode
