/-!
# Decoder profiles

A `Profile` is what a decoder says about itself: its channels, the classes of its marks, and the
display rows that group the classes.
-/

namespace LogicDecode

/-- A line that a decoder reads. -/
structure Channel where
  id : String
  name : String
  desc : String
deriving Repr, DecidableEq

/-- A class of marks; its position in the profile is its number. -/
structure MarkClass where
  id : String
  desc : String
deriving Repr, DecidableEq

/-- A display row that a decoder declares for some of its classes. -/
structure RowSpec where
  id : String
  desc : String
  classes : List Nat
deriving Repr, DecidableEq

/-- The description of a decoder. -/
structure Profile where
  id : String
  name : String
  longName : String
  required : List Channel
  optional : List Channel
  classes : List MarkClass
  rows : List RowSpec
deriving Repr, DecidableEq

/-- All channels, required ones first. -/
def Profile.channels (p : Profile) : List Channel := p.required ++ p.optional

end LogicDecode
