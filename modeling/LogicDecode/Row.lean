import LogicDecode.Fault
import LogicDecode.Profile

/-!
# Display rows

A `Row` is the default row of a decoder or one of its declared rows. Rows are the same when decoder
id and row number are: `Row.key` holds just these two.
-/

namespace LogicDecode

/-- What tells rows apart: the decoder's id and the number of the declared row, none for its
default row. -/
structure RowKey where
  decoder : String
  index : Option Nat
deriving Repr, DecidableEq, Hashable

/-- A display row of a decoder. -/
structure Row where
  profile : Profile
  index : Option Nat
deriving Repr

namespace Row

def ofProfile (p : Profile) : Row := ⟨p, none⟩

/-- The declared row of a number, which has to be one that the profile knows. -/
def declared (p : Profile) (i : Nat) : Except Fault Row :=
  if i < p.rows.length then .ok ⟨p, some i⟩ else .error .rowIndex

def key (r : Row) : RowKey := ⟨r.profile.id, r.index⟩

instance : BEq Row := ⟨fun a b => a.key == b.key⟩

/-- The declared row's description, none for a default row. -/
def spec? (r : Row) : Option RowSpec := r.index.bind fun i => r.profile.rows[i]?

def isDefault (r : Row) : Bool := r.index.isNone

/-- The row's heading: the decoder's name, and the description of a declared row. -/
def title (r : Row) : String :=
  match r.spec? with
  | some s => if r.profile.name.isEmpty then s.desc else s!"{r.profile.name}: {s.desc}"
  | none => r.profile.name

/-- The row's name in diagnostics. -/
def label (r : Row) : String :=
  match r.spec? with
  | some s => s!"Row[{r.profile.id}/{s.id}]"
  | none => s!"Row[{r.profile.id}]"

end Row

/-- The declared rows of a decoder, in order. -/
def Profile.declaredRows (p : Profile) : List Row :=
  (List.range p.rows.length).map fun i => ⟨p, some i⟩

end LogicDecode
